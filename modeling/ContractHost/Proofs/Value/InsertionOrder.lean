import Mathlib.Data.List.Induction
import Mathlib.Data.List.Perm.Basic
import ContractHost.Proofs.InOrder
import ContractHost.Proofs.Value.MapCalls
import ContractHost.Value.Heap

/-!
# Maps remember the order of inserting

A map is called and, in between, other containers change, those that serve as its keys and values
among them. What the map then holds is told by the history of calls alone: under each key the value
inserted last, unless the key was removed since, and the keys in the order in which they were made
present.
-/

namespace ContractHost

/-- What may happen while a map is held at `ref`: the map is called, another container gets other
contents, or a new container is made. -/
inductive MapEvent (ref : MapRef)
  | insert (key value : StackValue)
  | remove (key : StackValue)
  | get (key : StackValue)
  | contains (key : StackValue)
  | setItems (items : SequenceRef) (contents : List StackValue)
  | setPairs (other : MapRef) (h : other ≠ ref) (contents : StackMap)
  | newSequence (contents : List StackValue)
  | newMap (contents : StackMap)

inductive MapAnswer
  | value (found : Option StackValue)
  | flag (present : Bool)
  | nothing
deriving DecidableEq

abbrev MapHistory (ref : MapRef) := List (MapEvent ref)

namespace MapEvent

variable {ref : MapRef}

def run (heap : Heap) : MapEvent ref → MapAnswer × Heap
  | insert key value =>
    let (previous, pairs) := (heap.pairs ref).insert key value
    (.value previous, heap.setPairs ref pairs)
  | remove key =>
    let (removed, pairs) := (heap.pairs ref).remove key
    (.value removed, heap.setPairs ref pairs)
  | get key => (.value ((heap.pairs ref).get? key), heap)
  | contains key => (.flag ((heap.pairs ref).contains key), heap)
  | setItems items contents => (.nothing, heap.setItems items contents)
  | setPairs other _ contents => (.nothing, heap.setPairs other contents)
  | newSequence contents => (.nothing, (heap.newSequence contents).2)
  | newMap contents => (.nothing, (heap.newMap contents).2)

def onPairs : MapEvent ref → StackMap → StackMap
  | insert key value, m => (m.insert key value).2
  | remove key, m => (m.remove key).2
  | _, m => m

/-- The event inserts or removes a key equal to this one. -/
def Touches (key : StackValue) : MapEvent ref → Prop
  | insert k _ | remove k => k.keyEq key = true
  | _ => False

def Removes (key : StackValue) : MapEvent ref → Prop
  | remove k => k.keyEq key = true
  | _ => False

theorem Removes.touches {key : StackValue} {event : MapEvent ref} (h : event.Removes key) :
    event.Touches key := by
  cases event with
  | remove k => exact h
  | _ => exact h.elim

theorem size_maps_run (heap : Heap) (event : MapEvent ref) :
    heap.maps.size ≤ (event.run heap).2.maps.size := by
  cases event <;> simp [run, Heap.setPairs, Heap.setItems, Heap.newSequence, Heap.newMap]

theorem pairs_run {heap : Heap} (href : ref < heap.maps.size) (event : MapEvent ref) :
    (event.run heap).2.pairs ref = event.onPairs (heap.pairs ref) := by
  cases event with
  | insert key value => simp [run, onPairs, Heap.setPairs, Heap.pairs, href]
  | remove key => simp [run, onPairs, Heap.setPairs, Heap.pairs, href]
  | get key => rfl
  | contains key => rfl
  | setItems items contents => rfl
  | setPairs other h contents => simp [run, onPairs, Heap.setPairs, Heap.pairs, href, h]
  | newSequence contents => rfl
  | newMap contents =>
    simp [run, onPairs, Heap.newMap, Heap.pairs, href, Array.getElem?_push_lt]

end MapEvent

namespace MapHistory

variable {ref : MapRef}

def after (heap : Heap) (history : MapHistory ref) : Heap :=
  history.foldl (fun heap event => (event.run heap).2) heap

/-- The value that the last insert of an equal key stored, with no such key removed since. -/
def Stored (history : MapHistory ref) (key value : StackValue) : Prop :=
  ∃ before k later, history = before ++ .insert k value :: later ∧ k.keyEq key = true ∧
    ∀ event ∈ later, ¬event.Touches key

def Present (history : MapHistory ref) (key : StackValue) : Prop :=
  ∃ value, history.Stored key value

/-- The event at `time` inserted this very key while no equal one was present, and none was removed
since. -/
def MadePresent (history : MapHistory ref) (time : Nat) (key : StackValue) : Prop :=
  ∃ before value later, history = before ++ .insert key value :: later ∧ before.length = time ∧
    ¬Present before key ∧ ∀ event ∈ later, ¬event.Removes key

/-- The map holds what the history tells: the keys present, each once, in the order in which they
were made present, and under each the value stored last. -/
structure Records (history : MapHistory ref) (m : StackMap) : Prop where
  distinct : StackMap.KeysDistinct m.entries
  get? : ∀ key value, m.get? key = some value ↔ history.Stored key value
  made : ∀ key ∈ m.entries.map Prod.fst, ∃ time, history.MadePresent time key
  ordered : InOrder history.MadePresent (m.entries.map Prod.fst)

theorem concat_eq_append_cons_iff {α : Type} {history before later : List α} {event x : α} :
    history ++ [event] = before ++ x :: later ↔
      (later = [] ∧ history = before ∧ event = x) ∨
        ∃ others, later = others ++ [event] ∧ history = before ++ x :: others := by
  constructor
  · intro h
    rcases List.eq_nil_or_concat later with rfl | ⟨others, last, rfl⟩
    · obtain ⟨hbefore, hevent⟩ := List.append_inj' h rfl
      exact .inl ⟨rfl, hbefore, List.singleton_inj.mp hevent⟩
    · rw [List.concat_eq_append, ← List.cons_append, ← List.append_assoc] at h
      obtain ⟨hbefore, hevent⟩ := List.append_inj' h rfl
      exact .inr ⟨others, by simp [List.singleton_inj.mp hevent], hbefore⟩
  · rintro (⟨rfl, rfl, rfl⟩ | ⟨others, rfl, rfl⟩)
    · rfl
    · simp

variable {history : MapHistory ref} {event : MapEvent ref} {key value : StackValue} {time : Nat}

theorem stored_concat :
    Stored (history ++ [event]) key value ↔
      (∃ k, event = .insert k value ∧ k.keyEq key = true) ∨
        ¬event.Touches key ∧ history.Stored key value := by
  constructor
  · rintro ⟨before, k, later, hhistory, hkey, hlater⟩
    rcases concat_eq_append_cons_iff.mp hhistory with ⟨-, -, hevent⟩ | ⟨others, rfl, hbefore⟩
    · exact .inl ⟨k, hevent, hkey⟩
    · rw [List.forall_mem_append] at hlater
      exact .inr ⟨hlater.2 event (by simp), before, k, others, hbefore, hkey, hlater.1⟩
  · rintro (⟨k, rfl, hkey⟩ | ⟨hevent, before, k, later, rfl, hkey, hlater⟩)
    · exact ⟨history, k, [], rfl, hkey, by simp⟩
    · refine ⟨before, k, later ++ [event], by simp, hkey, ?_⟩
      rw [List.forall_mem_append]
      exact ⟨hlater, by simpa using hevent⟩

theorem stored_concat_of_not_touches (h : ¬event.Touches key) :
    Stored (history ++ [event]) key value ↔ history.Stored key value := by
  rw [stored_concat]
  constructor
  · rintro (⟨k, rfl, hkey⟩ | ⟨-, hbefore⟩)
    · exact absurd hkey h
    · exact hbefore
  · exact fun hbefore => .inr ⟨h, hbefore⟩

theorem stored_concat_insert {k v : StackValue} (h : k.keyEq key = true) :
    Stored (history ++ [.insert k v]) key value ↔ v = value := by
  rw [stored_concat]
  constructor
  · rintro (⟨_, hevent, -⟩ | ⟨htouches, -⟩)
    · cases hevent
      rfl
    · exact absurd h htouches
  · rintro rfl
    exact .inl ⟨k, rfl, h⟩

theorem not_stored_concat_remove {k : StackValue} (h : k.keyEq key = true) :
    ¬Stored (history ++ [.remove k]) key value := by
  rw [stored_concat]
  rintro (⟨_, hevent, -⟩ | ⟨htouches, -⟩)
  · cases hevent
  · exact htouches h

theorem madePresent_concat :
    MadePresent (history ++ [event]) time key ↔
      (time = history.length ∧ (∃ value, event = .insert key value) ∧ ¬history.Present key) ∨
        ¬event.Removes key ∧ history.MadePresent time key := by
  constructor
  · rintro ⟨before, value, later, hhistory, hlength, habsent, hlater⟩
    rcases concat_eq_append_cons_iff.mp hhistory with ⟨-, rfl, hevent⟩ | ⟨others, rfl, hbefore⟩
    · exact .inl ⟨hlength.symm, ⟨value, hevent⟩, habsent⟩
    · rw [List.forall_mem_append] at hlater
      exact .inr ⟨hlater.2 event (by simp), before, value, others, hbefore, hlength, habsent,
        hlater.1⟩
  · rintro (⟨rfl, ⟨value, rfl⟩, habsent⟩ |
      ⟨hevent, before, value, later, rfl, hlength, habsent, hlater⟩)
    · exact ⟨history, value, [], rfl, rfl, habsent, by simp⟩
    · refine ⟨before, value, later ++ [event], by simp, hlength, habsent, ?_⟩
      rw [List.forall_mem_append]
      exact ⟨hlater, by simpa using hevent⟩

theorem MadePresent.time_lt (h : history.MadePresent time key) : time < history.length := by
  obtain ⟨before, value, later, rfl, rfl, -⟩ := h
  simp

theorem MadePresent.present (h : history.MadePresent time key) : history.Present key := by
  induction history using List.reverseRecOn with
  | nil => exact absurd h.time_lt (Nat.not_lt_zero _)
  | append_singleton history event ih =>
    rcases madePresent_concat.mp h with ⟨-, ⟨value, rfl⟩, -⟩ | ⟨hremoves, hbefore⟩
    · exact ⟨value, (stored_concat_insert (StackValue.keyEq_equivalence.refl key)).mpr rfl⟩
    · by_cases htouches : event.Touches key
      · cases event with
        | insert k value => exact ⟨value, (stored_concat_insert htouches).mpr rfl⟩
        | remove k => exact absurd htouches hremoves
        | _ => exact htouches.elim
      · obtain ⟨value, hvalue⟩ := ih hbefore
        exact ⟨value, (stored_concat_of_not_touches htouches).mpr hvalue⟩

namespace Records

variable {m : StackMap}

theorem present_iff (h : history.Records m) :
    history.Present key ↔ (m.get? key).isSome = true := by
  rw [Option.isSome_iff_exists]
  exact exists_congr fun value => (h.get? key value).symm

theorem present_iff_exists_key (h : history.Records m) :
    history.Present key ↔ ∃ k ∈ m.entries.map Prod.fst, k.keyEq key = true := by
  rw [h.present_iff, ← Option.ne_none_iff_isSome, ne_eq, StackMap.get?_eq_none_iff]
  simp

theorem mem_keys_present (h : history.Records m) (hkey : key ∈ m.entries.map Prod.fst) :
    history.Present key := by
  obtain ⟨time, htime⟩ := h.made key hkey
  exact htime.present

theorem empty : Records ([] : MapHistory ref) .empty where
  distinct := .nil
  get? key value := by
    constructor
    · intro h
      cases h
    · rintro ⟨before, k, later, hhistory, -⟩
      simp at hhistory
  made key hkey := by cases hkey
  ordered := .nil

theorem made_concat (h : history.Records m) (hkey : key ∈ m.entries.map Prod.fst)
    (hremoves : ¬event.Removes key) :
    MadePresent (history ++ [event]) time key ↔ history.MadePresent time key := by
  rw [madePresent_concat]
  constructor
  · rintro (⟨-, -, habsent⟩ | ⟨-, hbefore⟩)
    · exact absurd (h.mem_keys_present hkey) habsent
    · exact hbefore
  · exact fun hbefore => .inr ⟨hremoves, hbefore⟩

theorem ordered_concat (h : history.Records m) {keys : List StackValue}
    (hkeys : keys.Sublist (m.entries.map Prod.fst)) (hremoves : ∀ k ∈ keys, ¬event.Removes k) :
    InOrder (MadePresent (history ++ [event])) keys :=
  h.ordered.mono hkeys fun k hk _ => (h.made_concat (hkeys.subset hk) (hremoves k hk)).mp

theorem insert (h : history.Records m) (key value : StackValue) :
    Records (history ++ [.insert key value]) (m.insert key value).2 := by
  have hinserted := m.inserted_insert key value
  have hremoves : ∀ k, ¬(.insert key value : MapEvent ref).Removes k := fun _ => id
  have hkept : ∀ k ∈ m.entries.map Prod.fst,
      ∃ time, MadePresent (history ++ [.insert key value]) time k := by
    intro k hk
    obtain ⟨time, htime⟩ := h.made k hk
    exact ⟨time, (h.made_concat hk (hremoves k)).mpr htime⟩
  have hget : ∀ k v, (m.insert key value).2.get? k = some v ↔
      Stored (history ++ [.insert key value]) k v := by
    intro k v
    rw [hinserted.get?]
    by_cases hk : key.keyEq k = true
    · rw [if_pos hk, Option.some_inj, stored_concat_insert hk]
    · have htouches : ¬(.insert key value : MapEvent ref).Touches k := hk
      rw [if_neg hk, h.get?, stored_concat_of_not_touches htouches]
  cases hprevious : m.get? key with
  | some previous =>
    have hkeys : (m.insert key value).2.entries.map Prod.fst = m.entries.map Prod.fst := by
      simpa [hinserted.previous_eq, hprevious] using hinserted.keys_eq
    refine ⟨h.distinct.insert key value, hget, ?_, ?_⟩
    · rwa [hkeys]
    · rw [hkeys]
      exact h.ordered_concat (.refl _) fun k _ => hremoves k
  | none =>
    have hkeys : (m.insert key value).2.entries.map Prod.fst = m.entries.map Prod.fst ++ [key] := by
      simpa [hinserted.previous_eq, hprevious] using hinserted.keys_eq
    have habsent : ¬history.Present key := by simp [h.present_iff, hprevious]
    refine ⟨h.distinct.insert key value, hget, ?_, ?_⟩
    · rw [hkeys, List.forall_mem_append]
      refine ⟨hkept, ?_⟩
      simpa using ⟨history.length, madePresent_concat.mpr (.inl ⟨rfl, ⟨value, rfl⟩, habsent⟩)⟩
    · rw [hkeys]
      refine (h.ordered_concat (.refl _) fun k _ => hremoves k).concat fun a ha s t hs ht => ?_
      have hearlier : s < history.length := ((h.made_concat ha (hremoves a)).mp hs).time_lt
      rcases madePresent_concat.mp ht with ⟨rfl, -⟩ | ⟨-, hbefore⟩
      · exact hearlier
      · exact absurd hbefore.present habsent

theorem remove (h : history.Records m) (key : StackValue) :
    Records (history ++ [.remove key]) (m.remove key).2 := by
  have hremoved := m.removed_remove key
  have hget : ∀ k v, (m.remove key).2.get? k = some v ↔
      Stored (history ++ [.remove key]) k v := by
    intro k v
    rw [hremoved.get? h.distinct]
    by_cases hk : key.keyEq k = true
    · simp [hk, not_stored_concat_remove hk]
    · have htouches : ¬(.remove key : MapEvent ref).Touches k := hk
      rw [if_neg hk, h.get?, stored_concat_of_not_touches htouches]
  have hsublist := hremoved.keys_sublist
  have hremoves : ∀ k ∈ (m.remove key).2.entries.map Prod.fst,
      ¬(.remove key : MapEvent ref).Removes k := by
    intro k hk hsame
    have hsame : key.keyEq k = true := hsame
    have hnone : (m.remove key).2.get? k = none := by
      rw [hremoved.get? h.distinct, if_pos hsame]
    have hself := StackMap.get?_eq_none_iff.mp hnone k hk
    rw [StackValue.keyEq_equivalence.refl k] at hself
    cases hself
  refine ⟨h.distinct.remove key, hget, fun k hk => ?_, h.ordered_concat hsublist hremoves⟩
  obtain ⟨time, htime⟩ := h.made k (hsublist.subset hk)
  exact ⟨time, (h.made_concat (hsublist.subset hk) (hremoves k hk)).mpr htime⟩

theorem untouched (h : history.Records m) (hevent : ∀ key, ¬event.Touches key) :
    Records (history ++ [event]) m := by
  have hremoves : ∀ key, ¬event.Removes key := fun key hkey => hevent key hkey.touches
  refine ⟨h.distinct, fun key value => ?_, fun key hkey => ?_,
    h.ordered_concat (.refl _) fun key _ => hremoves key⟩
  · rw [h.get?, stored_concat_of_not_touches (hevent key)]
  · obtain ⟨time, htime⟩ := h.made key hkey
    exact ⟨time, (h.made_concat hkey (hremoves key)).mpr htime⟩

theorem onPairs (h : history.Records m) (event : MapEvent ref) :
    Records (history ++ [event]) (event.onPairs m) := by
  cases event with
  | insert key value => exact h.insert key value
  | remove key => exact h.remove key
  | _ => exact h.untouched fun _ => id

/-- Any keys that stand for all those present, each for one, are as many as the map has pairs. -/
theorem size_eq (h : history.Records m) {keys : List StackValue}
    (hdistinct : keys.Pairwise fun a b => a.keyEq b = false)
    (hpresent : ∀ key, history.Present key ↔ ∃ k ∈ keys, k.keyEq key = true) :
    m.size = keys.length := by
  have hnodup : ∀ l : List StackValue, (l.Pairwise fun a b => a.keyEq b = false) →
      (l.map StackValue.asKey).Nodup := by
    intro l hl
    rw [List.Nodup, List.pairwise_map]
    refine hl.imp fun {a b} hab heq => ?_
    rw [StackValue.keyEq_eq_true_iff.mpr heq] at hab
    cases hab
  have hmem : ∀ key, key ∈ (m.entries.map Prod.fst).map StackValue.asKey ↔
      key ∈ keys.map StackValue.asKey := by
    have hsame : ∀ k : StackValue, k.asKey ∈ (m.entries.map Prod.fst).map StackValue.asKey ↔
        k.asKey ∈ keys.map StackValue.asKey := by
      intro k
      simp only [List.mem_map (f := StackValue.asKey), ← StackValue.keyEq_eq_true_iff]
      rw [← h.present_iff_exists_key, hpresent]
    intro key
    constructor
    · intro hkey
      obtain ⟨k, -, rfl⟩ := List.mem_map.mp hkey
      exact (hsame k).mp hkey
    · intro hkey
      obtain ⟨k, -, rfl⟩ := List.mem_map.mp hkey
      exact (hsame k).mpr hkey
  have hperm := (List.perm_ext_iff_of_nodup (hnodup _ h.distinct) (hnodup _ hdistinct)).mpr hmem
  simpa [StackMap.size] using hperm.length_eq

end Records

theorem size_maps_after (heap : Heap) (history : MapHistory ref) :
    heap.maps.size ≤ (after heap history).maps.size := by
  induction history generalizing heap with
  | nil => exact Nat.le_refl _
  | cons event history ih => exact Nat.le_trans (event.size_maps_run heap) (ih (event.run heap).2)

theorem pairs_after_concat {heap : Heap} (href : ref < heap.maps.size) (history : MapHistory ref)
    (event : MapEvent ref) :
    (after heap (history ++ [event])).pairs ref =
      event.onPairs ((after heap history).pairs ref) := by
  rw [after, List.foldl_append]
  exact MapEvent.pairs_run (Nat.lt_of_lt_of_le href (size_maps_after heap history)) event

theorem records_after {heap : Heap} (href : heap.maps[ref]? = some .empty)
    (history : MapHistory ref) : history.Records ((after heap history).pairs ref) := by
  have hlt : ref < heap.maps.size := (Array.getElem?_eq_some_iff.mp href).1
  induction history using List.reverseRecOn with
  | nil =>
    have hpairs : heap.pairs ref = .empty := by simp [Heap.pairs, href]
    exact hpairs ▸ .empty
  | append_singleton history event ih =>
    rw [pairs_after_concat hlt]
    exact ih.onPairs event

/-- What an event answers and leaves of the map. -/
def Answered (history : MapHistory ref) (m : StackMap) (answer : MapAnswer) (m' : StackMap) :
    MapEvent ref → Prop
  | .insert key value => ∃ previous, answer = .value previous ∧
      (∀ old, previous = some old ↔ history.Stored key old) ∧
      StackMap.Inserted key value m previous m'
  | .remove key => ∃ removed, answer = .value removed ∧
      (∀ old, removed = some old ↔ history.Stored key old) ∧ StackMap.Removed key m removed m'
  | .get key => ∃ found, answer = .value found ∧
      (∀ value, found = some value ↔ history.Stored key value) ∧ m' = m
  | .contains key => ∃ flag, answer = .flag flag ∧ (flag = true ↔ history.Present key) ∧ m' = m
  | _ => answer = .nothing ∧ m' = m

theorem Records.answered {heap : Heap} (href : ref < heap.maps.size)
    (h : history.Records (heap.pairs ref)) (event : MapEvent ref) :
    history.Answered (heap.pairs ref) (event.run heap).1 ((event.run heap).2.pairs ref) event := by
  rw [MapEvent.pairs_run href]
  cases event with
  | insert key value =>
    have hinserted := (heap.pairs ref).inserted_insert key value
    refine ⟨((heap.pairs ref).insert key value).1, rfl, fun old => ?_, hinserted⟩
    rw [hinserted.previous_eq, h.get?]
  | remove key =>
    have hremoved := (heap.pairs ref).removed_remove key
    refine ⟨((heap.pairs ref).remove key).1, rfl, fun old => ?_, hremoved⟩
    rw [hremoved.previous_eq, h.get?]
  | get key => exact ⟨_, rfl, h.get? key, rfl⟩
  | contains key => exact ⟨_, rfl, h.present_iff.symm, rfl⟩
  | _ => exact ⟨rfl, rfl⟩

end MapHistory

open MapHistory in
/-- A map that starts empty is called, and other containers change in between, also those that are
its keys and values. At any time it holds the keys present, each once and as the object that made it
present, in the order of the inserts that did, and under each the value inserted last. Inserting
hands back the value it replaces in its place; a key that is not present, removed or never inserted,
goes last. -/
theorem StackMap.keeps_insertion_order {ref : MapRef} {heap : Heap}
    (href : heap.maps[ref]? = some .empty) (history : MapHistory ref) :
    let now := after heap history
    let m := now.pairs ref
    (Equivalence fun a b : StackValue => a.keyEq b = true) ∧
    history.Records m ∧
    (∀ e ∈ m.entries, history.Stored e.1 e.2) ∧
    (∀ event : MapEvent ref, history.Answered m (event.run now).1
      ((after heap (history ++ [event])).pairs ref) event) ∧
    (∀ key, ¬Present (history ++ [.remove key]) key) ∧
    (∀ key value, ¬history.Present key →
      ((after heap (history ++ [.insert key value])).pairs ref).entries =
        m.entries ++ [(key, value)]) ∧
    ∀ keys : List StackValue, (keys.Pairwise fun a b => a.keyEq b = false) →
      (∀ key, history.Present key ↔ ∃ k ∈ keys, k.keyEq key = true) → m.size = keys.length := by
  intro now m
  have hlt : ref < heap.maps.size := (Array.getElem?_eq_some_iff.mp href).1
  have hnow : ref < now.maps.size := Nat.lt_of_lt_of_le hlt (size_maps_after heap history)
  have hrecords : history.Records m := records_after href history
  have hnext : ∀ event : MapEvent ref,
      (after heap (history ++ [event])).pairs ref = (event.run now).2.pairs ref := by
    intro event
    rw [pairs_after_concat hlt, MapEvent.pairs_run hnow]
  refine ⟨StackValue.keyEq_equivalence, hrecords, fun e he => ?_, fun event => ?_, fun key => ?_,
    fun key value habsent => ?_, fun keys => hrecords.size_eq⟩
  · exact (hrecords.get? e.1 e.2).mp (StackMap.get?_of_mem hrecords.distinct he)
  · rw [hnext]
    exact hrecords.answered hnow event
  · rintro ⟨value, hvalue⟩
    exact not_stored_concat_remove (StackValue.keyEq_equivalence.refl key) hvalue
  · have hnone : m.get? key = none := by
      rwa [hrecords.present_iff, Bool.not_eq_true, Option.isSome_eq_false_iff,
        Option.isNone_iff_eq_none] at habsent
    rw [pairs_after_concat hlt]
    exact congrArg (fun result => result.2.entries) (StackMap.insert_of_get?_eq_none hnone value)

open MapHistory in
/-- An array is a key. Other contents do not make it another key, so the second insert replaces the
value and the array stays the first key; the number was removed in between and goes last. -/
theorem StackMap.keeps_insertion_order_filledKey :
    let heap : Heap := ⟨#[[]], #[.empty], 0⟩
    let history : MapHistory 0 := [.insert (.integer 5) (.array 0), .insert (.array 0) (.integer 1),
      .setItems 0 [.integer 5], .insert (.array 0) (.integer 2), .remove (.integer 5)]
    heap.maps[0]? = some .empty ∧ history.Stored (.array 0) (.integer 2) ∧
      ¬history.Present (.integer 5) ∧
      ((after heap (history ++ [.insert (.integer 5) (.boolean true)])).pairs 0).entries =
        [(.array 0, .integer 2), (.integer 5, .boolean true)] := by
  intro heap history
  have hempty : heap.maps[0]? = some .empty := rfl
  have hentries : ((after heap history).pairs 0).entries = [(.array 0, .integer 2)] := by
    decide +kernel
  obtain ⟨-, hrecords, hstored, -, -, hlast, -⟩ :=
    @StackMap.keeps_insertion_order 0 heap hempty history
  have habsent : ¬history.Present (.integer 5) := by
    rw [hrecords.present_iff]
    decide +kernel
  refine ⟨hempty, hstored (.array 0, .integer 2) ?_, habsent, ?_⟩
  · rw [hentries]
    exact List.mem_cons_self
  · rw [hlast (.integer 5) (.boolean true) habsent, hentries]
    rfl

end ContractHost
