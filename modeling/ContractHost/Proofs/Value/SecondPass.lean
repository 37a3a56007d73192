import ContractHost.Proofs.Value.Grammar
import ContractHost.Proofs.Value.Rebuilding
import ContractHost.Proofs.Value.Sameness

/-!
# The second pass places the values of a run

The values that a run of tokens stands for can be put into a heap by recursion: those after the
first value, then those inside it, then the value itself. The second pass, which goes through the
tokens from the last to the first, does the same, and it fails exactly where a map would have two
equal keys.
-/

namespace ContractHost

def pairUp : List StackValue → List (StackValue × StackValue)
  | key :: value :: rest => (key, value) :: pairUp rest
  | _ => []

theorem inTurn_pairUp {count : Nat} {values : List StackValue} (h : values.length = 2 * count) :
    inTurn (pairUp values) = values ∧ (pairUp values).length = count := by
  induction count generalizing values with
  | zero =>
    obtain rfl := List.length_eq_zero_iff.mp h
    exact ⟨rfl, rfl⟩
  | succ count ih =>
    match values, h with
    | key :: value :: rest, h =>
      have hrest : rest.length = 2 * count := by
        simp only [List.length_cons] at h
        omega
      obtain ⟨hturn, hlength⟩ := ih hrest
      refine ⟨?_, by rw [pairUp, List.length_cons, hlength]⟩
      change key :: value :: inTurn (pairUp rest) = _
      rw [hturn]

namespace ValueToken

/-- The value of a token with the values inside it, its container new in a heap. -/
def value (heap : Heap) (items : List StackValue) : ValueToken → StackValue × Heap
  | byteString payload => (.byteString payload, heap)
  | boolean flag => (.boolean flag, heap)
  | integer value => (.integer value, heap)
  | container .array _ => heap.newArray items
  | container .struct _ => heap.newStruct items
  | container .map _ => heap.newMap ⟨pairUp items⟩

/-- The values inside a token do not make up a map with two equal keys. -/
def Admits (items : List StackValue) : ValueToken → Prop
  | container .map _ => StackMap.KeysDistinct (pairUp items)
  | _ => True

end ValueToken

namespace ValueForest

/-- The values of a run, in a heap that holds their containers. -/
def place : ValueForest → Heap → List StackValue × Heap
  | nil, heap => ([], heap)
  | cons token inside after, heap =>
    let (values, heap) := after.place heap
    let (items, heap) := inside.place heap
    let (value, heap) := token.value heap items
    (value :: values, heap)

theorem place_cons (token : ValueToken) (inside after : ValueForest) (heap : Heap) :
    (cons token inside after).place heap =
      let (items, later) := inside.place (after.place heap).2
      ((token.value later items).1 :: (after.place heap).1, (token.value later items).2) := rfl

end ValueForest

namespace Heap

/-- No map at or inside a value has two equal keys. -/
def KeysDistinctIn (heap : Heap) (value : StackValue) : Prop :=
  ∀ ref, heap.Reaches value (.map ref) → StackMap.KeysDistinct (heap.pairs ref).entries

namespace Spells

variable {heap later : Heap} {value inner : StackValue} {values : List StackValue}
  {tokens : List ValueToken}

theorem reaches_iff (h : heap.Spells [value] tokens) (hext : heap.Extends later) :
    later.Reaches value inner ↔ heap.Reaches value inner := by
  have hchildren : ∀ middle, heap.Reaches value middle →
      later.children middle = heap.children middle := by
    intro middle hr
    obtain ⟨own, hown, -⟩ := h.of_reaches hr
    obtain ⟨token, below, -, htoken, -⟩ := hown.exists_children
    exact (hext.token htoken).2
  constructor
  · intro hr
    induction hr with
    | refl => exact heap.reaches_self value
    | @tail middle inner _ hc ih =>
      rw [Child, hchildren middle ih] at hc
      exact ih.tail hc
  · intro hr
    induction hr with
    | refl => exact later.reaches_self value
    | @tail middle inner hmiddle hc ih =>
      rw [Child, ← hchildren middle hmiddle] at hc
      exact ih.tail hc

theorem keysDistinctIn_iff (h : heap.Spells values tokens) (hext : heap.Extends later) :
    (∀ value ∈ values, later.KeysDistinctIn value) ↔
      ∀ value ∈ values, heap.KeysDistinctIn value := by
  refine forall₂_congr fun value hvalue => ?_
  obtain ⟨own, hown, -⟩ := h.of_mem hvalue
  refine forall_congr' fun ref => ?_
  rw [hown.reaches_iff hext]
  refine forall_congr' fun hr => ?_
  obtain ⟨inner, hinner, -⟩ := hown.of_reaches hr
  obtain ⟨token, below, -, htoken, -⟩ := hinner.exists_children
  obtain ⟨pairs, hpairs, -⟩ := Option.map_eq_some_iff.mp htoken
  rw [pairs_of_getElem? hpairs, pairs_of_getElem? (hext.maps ref pairs hpairs)]

end Spells

variable {heap : Heap} {token : ValueToken} {items : List StackValue}

theorem value_newIn (heap : Heap) (hcount : items.length = token.childCount) :
    heap.NewIn (token.value heap items).2 (token.value heap items).1 token items := by
  have hempty : token.childCount = 0 → items = [] := by
    intro hzero
    rw [hzero] at hcount
    exact List.length_eq_zero_iff.mp hcount
  cases token with
  | byteString | boolean | integer =>
    obtain rfl := hempty rfl
    exact ⟨.refl heap, rfl, rfl, fun _ h => by cases h⟩
  | container kind count =>
    cases kind with
    | array =>
      obtain rfl : items.length = count := hcount
      exact heap.newArray_newIn items
    | struct =>
      obtain rfl : items.length = count := hcount
      exact heap.newStruct_newIn items
    | map =>
      obtain ⟨hturn, hlength⟩ := inTurn_pairUp hcount
      have hnew := heap.newMap_newIn ⟨pairUp items⟩
      rwa [hturn, StackMap.size, hlength] at hnew

theorem keysDistinctIn_value_iff (heap : Heap) (hcount : items.length = token.childCount) :
    (token.value heap items).2.KeysDistinctIn (token.value heap items).1 ↔
      token.Admits items ∧ ∀ item ∈ items, (token.value heap items).2.KeysDistinctIn item := by
  have hnew := value_newIn heap hcount
  have hown : token.Admits items ↔ ∀ ref, (token.value heap items).1 = .map ref →
      StackMap.KeysDistinct ((token.value heap items).2.pairs ref).entries := by
    cases token with
    | byteString | boolean | integer => simp [ValueToken.Admits, ValueToken.value]
    | container kind count =>
      cases kind <;> simp [ValueToken.Admits, ValueToken.value, newArray, newStruct, newMap, pairs]
  rw [hown]
  constructor
  · intro h
    refine ⟨fun ref hvalue => h ref (hvalue ▸ reaches_self _ _), fun item hitem ref hr => ?_⟩
    rw [← hnew.children] at hitem
    exact h ref (Child.reaches hitem hr)
  · rintro ⟨hvalue, hitems⟩ ref hr
    rcases hr.cases with hsame | ⟨child, hc, hr⟩
    · exact hvalue ref hsame.symm
    · rw [Child, hnew.children] at hc
      exact hitems child hc ref hr

end Heap

variable {maxArraySize : Nat} {forest : ValueForest} {front : Bytes}

theorem Derives.spells_place (h : Derives maxArraySize forest front) (heap : Heap) :
    (forest.place heap).1.length = forest.length ∧ heap.Extends (forest.place heap).2 ∧
      (forest.place heap).2.Spells (forest.place heap).1 forest.tokens := by
  induction h generalizing heap with
  | nil => exact ⟨rfl, .refl heap, .nil⟩
  | @cons token inside after head body rest _ hcount _ _ ihBody ihRest =>
    obtain ⟨hlength, hext, hspell⟩ := ihRest heap
    obtain ⟨hlength', hext', hspell'⟩ := ihBody (after.place heap).2
    rw [hcount] at hlength'
    have hnew := Heap.value_newIn (inside.place (after.place heap).2).2 hlength'
    rw [ValueForest.place_cons]
    refine ⟨congrArg Nat.succ hlength, (hext.trans hext').trans hnew.keeps, .cons hnew.token ?_⟩
    rw [hnew.children]
    exact (hspell'.later hnew.keeps).append (hspell.later (hext'.trans hnew.keeps))

namespace Decoder

theorem buildMap_repeated (m : StackMap) (pairs : List (StackValue × StackValue))
    (hm : StackMap.KeysDistinct m.entries) (h : ¬StackMap.KeysDistinct (m.entries ++ pairs)) :
    buildMap m (inTurn pairs) = .error .malformedData := by
  induction pairs generalizing m with
  | nil =>
    rw [List.append_nil] at h
    exact absurd hm h
  | cons e pairs ih =>
    have hturn : inTurn (e :: pairs) = e.1 :: e.2 :: inTurn pairs := rfl
    rw [hturn, buildMap]
    cases hget : m.get? e.1 with
    | some previous => rw [StackMap.insert, hget]
    | none =>
      rw [StackMap.insert_of_get?_eq_none hget]
      have hnew := StackMap.keysDistinct_append_singleton.mpr
        ⟨hm, StackMap.get?_eq_none_iff.mp hget⟩
      apply ih ⟨m.entries ++ [e]⟩ hnew
      rwa [List.append_assoc, List.singleton_append]

theorem build_value (heap : Heap) {token : ValueToken} {items : List StackValue}
    (hcount : items.length = token.childCount) (rest : List StackValue) :
    (token.Admits items → build token (items ++ rest) heap =
      .ok ((token.value heap items).1 :: rest, (token.value heap items).2)) ∧
    (¬token.Admits items → build token (items ++ rest) heap = .error .malformedData) := by
  have hempty : token.childCount = 0 → items = [] := by
    intro hzero
    rw [hzero] at hcount
    exact List.length_eq_zero_iff.mp hcount
  cases token with
  | byteString | boolean | integer =>
    obtain rfl := hempty rfl
    exact ⟨fun _ => rfl, fun h => absurd trivial h⟩
  | container kind count =>
    have htake : takeValues (ValueToken.container kind count).childCount (items ++ rest) =
        .ok (items, rest) := by
      rw [← hcount]
      exact takeValues_append items rest
    cases kind with
    | array | struct =>
      refine ⟨fun _ => ?_, fun h => absurd trivial h⟩
      simp only [build, htake]
      rfl
    | map =>
      obtain ⟨hturn, -⟩ := inTurn_pairUp hcount
      have hbuild : build (.container .map count) (items ++ rest) heap =
          (do
            let pairs ← buildMap .empty items
            let result ← pure (heap.newMap pairs)
            pure (result.1 :: rest, result.2)) := by
        simp only [build, htake]
        rfl
      rw [hbuild]
      constructor
      · intro hdistinct
        have hmap := buildMap_inTurn .empty (pairUp items) hdistinct
        rw [hturn] at hmap
        rw [hmap]
        rfl
      · intro hrepeated
        have hmap := buildMap_repeated .empty (pairUp items) .nil hrepeated
        rw [hturn] at hmap
        rw [hmap]
        rfl

theorem takeValues_ok {count : Nat} {built items rest : List StackValue}
    (h : takeValues count built = .ok (items, rest)) :
    items.length = count ∧ built = items ++ rest := by
  rw [takeValues] at h
  split at h
  next hcount =>
    cases h
    exact ⟨hcount, (List.take_append_drop count built).symm⟩
  next => cases h

theorem build_ok {token : ValueToken} {built built' : List StackValue} {heap heap' : Heap}
    (h : build token built heap = .ok (built', heap')) :
    ∃ items rest, items.length = token.childCount ∧ built = items ++ rest ∧ token.Admits items ∧
      built' = (token.value heap items).1 :: rest ∧ heap' = (token.value heap items).2 := by
  have hparts : ∃ items rest, items.length = token.childCount ∧ built = items ++ rest := by
    cases token with
    | byteString | boolean | integer => exact ⟨[], built, rfl, rfl⟩
    | container kind count =>
      cases htake : takeValues (ValueToken.container kind count).childCount built with
      | error e =>
        rw [build, htake] at h
        cases h
      | ok taken => exact ⟨taken.1, taken.2, takeValues_ok htake⟩
  obtain ⟨items, rest, hcount, rfl⟩ := hparts
  obtain ⟨hok, herror⟩ := build_value heap hcount rest
  rw [h] at hok herror
  by_cases hadmits : token.Admits items
  · cases hok hadmits
    exact ⟨items, rest, hcount, rfl, hadmits, rfl, rfl⟩
  · cases herror hadmits

/-- The second pass over the tokens of a derived run places its values, unless one of them has a
map with two equal keys. -/
theorem rebuild_place (h : Derives maxArraySize forest front) (built : List StackValue)
    (heap : Heap) :
    ((∀ value ∈ (forest.place heap).1, (forest.place heap).2.KeysDistinctIn value) →
      rebuild built heap forest.tokens.reverse =
        .ok ((forest.place heap).1 ++ built, (forest.place heap).2)) ∧
    ((¬∀ value ∈ (forest.place heap).1, (forest.place heap).2.KeysDistinctIn value) →
      rebuild built heap forest.tokens.reverse = .error .malformedData) := by
  induction h generalizing built heap with
  | nil => exact ⟨fun _ => rfl, fun h => absurd (fun _ hv => by cases hv) h⟩
  | @cons token inside after head body tail _ hcount hbody hrest ihBody ihRest =>
    obtain ⟨-, -, hspell⟩ := hrest.spells_place heap
    obtain ⟨hlength, hext, hspell'⟩ := hbody.spells_place (after.place heap).2
    rw [hcount] at hlength
    obtain ⟨hrestOk, hrestError⟩ := ihRest built heap
    obtain ⟨hbodyOk, hbodyError⟩ :=
      ihBody ((after.place heap).1 ++ built) (after.place heap).2
    obtain ⟨hvalueOk, hvalueError⟩ := build_value (inside.place (after.place heap).2).2 hlength
      ((after.place heap).1 ++ built)
    have hkeeps := (Heap.value_newIn (inside.place (after.place heap).2).2 hlength).keeps
    have hdistinct : (∀ value ∈ ((ValueForest.cons token inside after).place heap).1,
        ((ValueForest.cons token inside after).place heap).2.KeysDistinctIn value) ↔
        (token.Admits (inside.place (after.place heap).2).1 ∧
          ∀ value ∈ (inside.place (after.place heap).2).1,
            (inside.place (after.place heap).2).2.KeysDistinctIn value) ∧
        ∀ value ∈ (after.place heap).1, (after.place heap).2.KeysDistinctIn value := by
      rw [← hspell'.keysDistinctIn_iff hkeeps, ← hspell.keysDistinctIn_iff (hext.trans hkeeps),
        ← Heap.keysDistinctIn_value_iff _ hlength]
      exact List.forall_mem_cons
    rw [hdistinct, ValueForest.tokens, List.reverse_cons, List.reverse_append, List.append_assoc,
      rebuild_append]
    by_cases hafter : ∀ value ∈ (after.place heap).1, (after.place heap).2.KeysDistinctIn value
    · rw [hrestOk hafter]
      dsimp only
      rw [rebuild_append]
      by_cases hinside : ∀ value ∈ (inside.place (after.place heap).2).1,
          (inside.place (after.place heap).2).2.KeysDistinctIn value
      · rw [hbodyOk hinside]
        dsimp only
        rw [rebuild]
        constructor
        · rintro ⟨⟨hadmits, -⟩, -⟩
          rw [hvalueOk hadmits]
          rfl
        · intro hnot
          rw [hvalueError fun hadmits => hnot ⟨⟨hadmits, hinside⟩, hafter⟩]
      · rw [hbodyError hinside]
        exact ⟨fun h => absurd h.1.2 hinside, fun _ => rfl⟩
    · rw [hrestError hafter]
      exact ⟨fun h => absurd h.2 hafter, fun _ => rfl⟩

end Decoder

end ContractHost
