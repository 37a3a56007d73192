import ContractHost.Proofs.Value.DistinctKeys
import ContractHost.Proofs.Value.Spelling

/-!
# Tokens are built into the values they spell

The second pass goes through the tokens from the last to the first. It puts copies of the spelled
values before what is built already, and every container among the copies is new, so distinct keys
have distinct copies.
-/

namespace ContractHost

namespace Heap

theorem extends_newSequence (heap : Heap) (items : List StackValue) :
    heap.Extends (heap.newSequence items).2 := by
  refine ⟨fun ref found h => ?_, fun _ _ h => h⟩
  obtain ⟨hlt, -⟩ := Array.getElem?_eq_some_iff.mp h
  rw [newSequence, Array.getElem?_push_lt hlt, ← Array.getElem?_eq_getElem hlt, h]

theorem extends_newMap (heap : Heap) (pairs : StackMap) :
    heap.Extends (heap.newMap pairs).2 := by
  refine ⟨fun _ _ h => h, fun ref found h => ?_⟩
  obtain ⟨hlt, -⟩ := Array.getElem?_eq_some_iff.mp h
  rw [newMap, Array.getElem?_push_lt hlt, ← Array.getElem?_eq_getElem hlt, h]

/-- A value that is new after a heap: its token, what is directly inside it, and no container that
the heap had before. -/
structure NewIn (heap later : Heap) (copy : StackValue) (token : ValueToken)
    (inside : List StackValue) : Prop where
  keeps : heap.Extends later
  token : later.token? copy = some token
  children : later.children copy = inside
  fresh : ∀ id ∈ copy.container?, id ∉ heap.containers

theorem newArray_newIn (heap : Heap) (items : List StackValue) :
    heap.NewIn (heap.newArray items).2 (heap.newArray items).1
      (.container .array items.length) items := by
  refine ⟨extends_newSequence heap items, ?_, ?_, ?_⟩
  · simp [newArray, newSequence, token?]
  · simp [newArray, newSequence, children, Heap.items]
  · simpa [newArray, newSequence, StackValue.container?, containers] using fun _ => Nat.ne_of_lt

theorem newStruct_newIn (heap : Heap) (items : List StackValue) :
    heap.NewIn (heap.newStruct items).2 (heap.newStruct items).1
      (.container .struct items.length) items := by
  refine ⟨extends_newSequence heap items, ?_, ?_, ?_⟩
  · simp [newStruct, newSequence, token?]
  · simp [newStruct, newSequence, children, Heap.items]
  · simpa [newStruct, newSequence, StackValue.container?, containers] using fun _ => Nat.ne_of_lt

theorem newMap_newIn (heap : Heap) (pairs : StackMap) :
    heap.NewIn (heap.newMap pairs).2 (heap.newMap pairs).1 (.container .map pairs.size)
      (inTurn pairs.entries) := by
  refine ⟨extends_newMap heap pairs, ?_, ?_, ?_⟩
  · simp [newMap, token?]
  · simp [newMap, children, Heap.pairs, inTurn]
  · simpa [newMap, StackValue.container?, containers] using fun _ => Nat.ne_of_lt

end Heap

namespace Decoder

theorem takeValues_append (front rest : List StackValue) :
    takeValues front.length (front ++ rest) = .ok (front, rest) := by
  simp [takeValues]

theorem rebuild_append (built : List StackValue) (heap : Heap) (front back : List ValueToken) :
    rebuild built heap (front ++ back) =
      match rebuild built heap front with
      | .error e => .error e
      | .ok (built, heap) => rebuild built heap back := by
  induction front generalizing built heap with
  | nil => rfl
  | cons token front ih =>
    rw [List.cons_append, rebuild, rebuild]
    cases build token built heap with
    | error e => rfl
    | ok result => exact ih result.1 result.2

theorem build_token {heap : Heap} (start : Heap) {value : StackValue} {token : ValueToken}
    {front : List StackValue}
    (hkeys : ∀ ref, value = .map ref → StackMap.KeysDistinct (heap.pairs ref).entries)
    (htoken : heap.token? value = some token)
    (hcopies : List.Forall₂ StackValue.CopiedAs (heap.children value) front)
    (hown : (front.filterMap StackValue.container?).Nodup) (rest : List StackValue) :
    ∃ copy later, build token (front ++ rest) start = .ok (copy :: rest, later) ∧
      value.CopiedAs copy ∧ start.NewIn later copy token front := by
  have hlength := hcopies.length_eq
  cases value with
  | byteString | boolean | integer =>
    cases htoken
    cases hcopies
    exact ⟨_, start, rfl, fun _ => rfl, .refl start, rfl, rfl, fun _ h => by cases h⟩
  | handle => cases htoken
  | array ref =>
    obtain ⟨items, hitems, rfl⟩ := Option.map_eq_some_iff.mp htoken
    rw [Heap.children, Heap.items_of_getElem? hitems] at hlength
    refine ⟨(start.newArray front).1, (start.newArray front).2, ?_, fun h => (by cases h), ?_⟩
    · simp only [build, ValueToken.childCount, hlength, takeValues_append]
      rfl
    · rw [hlength]
      exact start.newArray_newIn front
  | struct ref =>
    obtain ⟨items, hitems, rfl⟩ := Option.map_eq_some_iff.mp htoken
    rw [Heap.children, Heap.items_of_getElem? hitems] at hlength
    refine ⟨(start.newStruct front).1, (start.newStruct front).2, ?_, fun h => (by cases h), ?_⟩
    · simp only [build, ValueToken.childCount, hlength, takeValues_append]
      rfl
    · rw [hlength]
      exact start.newStruct_newIn front
  | map ref =>
    obtain ⟨pairs, hpairs, rfl⟩ := Option.map_eq_some_iff.mp htoken
    have hdistinct := hkeys ref rfl
    rw [Heap.pairs_of_getElem? hpairs] at hdistinct
    rw [Heap.children, Heap.pairs_of_getElem? hpairs] at hcopies
    obtain ⟨pairs', rfl, hcopied⟩ := exists_pairs_of_copies hcopies
    have hsize : pairs.size = pairs'.length := by
      simpa [StackMap.size] using hcopied.length_eq
    have hdistinct' : StackMap.KeysDistinct pairs' :=
      pairwise_keyEq_of_copies hcopied hdistinct
        (hown.sublist ((keys_sublist_inTurn pairs').filterMap _))
    have hmap := buildMap_inTurn .empty pairs' hdistinct'
    have hcount : (inTurn pairs').length = 2 * pairs'.length := length_inTurn pairs'
    refine ⟨(start.newMap ⟨pairs'⟩).1, (start.newMap ⟨pairs'⟩).2, ?_, fun h => (by cases h), ?_⟩
    · simp only [build, ValueToken.childCount, hsize, ← hcount, takeValues_append]
      change (do
        let pairs ← buildMap .empty (inTurn pairs')
        let result ← pure (start.newMap pairs)
        pure (result.1 :: rest, result.2)) = _
      rw [hmap]
      rfl
    · rw [hsize]
      exact start.newMap_newIn ⟨pairs'⟩

/-- The second pass puts copies of the spelled values before what was built: the same tokens spell
them, and no two of their containers are one. -/
theorem rebuild_spelled {heap : Heap} {values : List StackValue} {tokens : List ValueToken}
    (hkeys : ∀ value ∈ values, ∀ ref, heap.Reaches value (.map ref) →
      StackMap.KeysDistinct (heap.pairs ref).entries)
    (h : heap.Spells values tokens) (built : List StackValue) (start : Heap) :
    ∃ copies later, rebuild built start tokens.reverse = .ok (copies ++ built, later) ∧
      start.Extends later ∧ later.Spells copies tokens ∧
      List.Forall₂ StackValue.CopiedAs values copies ∧
      (copies.filterMap StackValue.container?).Nodup := by
  induction h with
  | nil => exact ⟨[], start, rfl, .refl start, .nil, .nil, .nil⟩
  | @cons value values token tokens htoken hrest ih =>
    have hbelow : ∀ inner ∈ heap.children value ++ values, ∀ ref, heap.Reaches inner (.map ref) →
        StackMap.KeysDistinct (heap.pairs ref).entries := by
      intro inner hinner ref hr
      rcases List.mem_append.mp hinner with hc | hlater
      · exact hkeys value List.mem_cons_self ref (Heap.Child.reaches hc hr)
      · exact hkeys inner (List.mem_cons_of_mem _ hlater) ref hr
    obtain ⟨copies, middle, hrun, hext, hspell, hcopies, hown⟩ := ih hbelow
    obtain ⟨front, rest, rfl, hfront, hrest⟩ : ∃ front rest, copies = front ++ rest ∧
        List.Forall₂ StackValue.CopiedAs (heap.children value) front ∧
        List.Forall₂ StackValue.CopiedAs values rest := by
      have htake := List.forall₂_take (heap.children value).length hcopies
      have hdrop := List.forall₂_drop (heap.children value).length hcopies
      rw [List.take_left] at htake
      rw [List.drop_left] at hdrop
      exact ⟨_, _, (List.take_append_drop _ copies).symm, htake, hdrop⟩
    have hownFront := hown.sublist ((List.sublist_append_left front rest).filterMap _)
    have hownRest := hown.sublist ((List.sublist_append_right front rest).filterMap _)
    obtain ⟨copy, later, hbuild, hcopy, hnew⟩ :=
      build_token middle
        (fun ref hmap => hkeys value List.mem_cons_self ref (hmap ▸ heap.reaches_self value))
        htoken hfront hownFront (rest ++ built)
    refine ⟨copy :: rest, later, ?_, hext.trans hnew.keeps, ?_, .cons hcopy hrest, ?_⟩
    · rw [List.reverse_cons, rebuild_append, hrun, List.append_assoc]
      simp only [rebuild, hbuild, List.cons_append]
    · refine .cons hnew.token ?_
      rw [hnew.children]
      exact hspell.later hnew.keeps
    · cases hid : copy.container? with
      | none => rwa [List.filterMap_cons_none hid]
      | some id =>
        rw [List.filterMap_cons_some hid, List.nodup_cons]
        refine ⟨fun hmem => hnew.fresh id hid ?_, hownRest⟩
        obtain ⟨other, hother, hsame⟩ := List.mem_filterMap.mp hmem
        obtain ⟨own, hspelled, -⟩ := hspell.of_mem (List.mem_append_right _ hother)
        cases hspelled with
        | cons htoken' _ => exact Heap.container_mem_of_token htoken' id hsame

end Decoder

end ContractHost
