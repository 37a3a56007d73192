import ContractHost.Proofs.Value.DistinctKeys

/-!
# Calls of a map

The equality of keys is an equivalence. Inserting under a present key gives its pair another value
and changes nothing else; a new key makes a last pair. Removing takes one pair out from between the
others.
-/

namespace ContractHost

namespace StackValue

/-- What a key is known by: a handle by its number, every other value by itself. -/
def asKey : StackValue → StackValue
  | handle h => handle ⟨h.id, default⟩
  | value => value

theorem keyEq_eq_true_iff {a b : StackValue} : a.keyEq b = true ↔ a.asKey = b.asKey := by
  cases a <;> cases b <;> simp [keyEq, asKey]

theorem keyEq_equivalence : Equivalence fun a b : StackValue => a.keyEq b = true := by
  simp only [keyEq_eq_true_iff]
  exact ⟨fun _ => rfl, Eq.symm, Eq.trans⟩

theorem keyEq_comm (a b : StackValue) : a.keyEq b = b.keyEq a := by
  rw [Bool.eq_iff_iff, keyEq_eq_true_iff, keyEq_eq_true_iff, eq_comm]

theorem keyEq_congr_left {a b : StackValue} (h : a.keyEq b = true) (c : StackValue) :
    a.keyEq c = b.keyEq c := by
  rw [Bool.eq_iff_iff, keyEq_eq_true_iff, keyEq_eq_true_iff, keyEq_eq_true_iff.mp h]

theorem keyEq_congr_right {a b : StackValue} (h : a.keyEq b = true) (c : StackValue) :
    c.keyEq a = c.keyEq b := by
  rw [Bool.eq_iff_iff, keyEq_eq_true_iff, keyEq_eq_true_iff, keyEq_eq_true_iff.mp h]

end StackValue

namespace StackMap

/-- Inserting finds the first pair of an equal key and hands back its value, which the new one
replaces in its place; or there is none, and key and value become the last pair. -/
inductive Inserted (key value : StackValue) : StackMap → Option StackValue → StackMap → Prop
  | replaced {front back : List (StackValue × StackValue)} {present old : StackValue}
      (h : present.keyEq key = true) (hfront : ∀ e ∈ front, e.1.keyEq key = false) :
      Inserted key value ⟨front ++ (present, old) :: back⟩ (some old)
        ⟨front ++ (present, value) :: back⟩
  | appended {pairs : List (StackValue × StackValue)} (h : ∀ e ∈ pairs, e.1.keyEq key = false) :
      Inserted key value ⟨pairs⟩ none ⟨pairs ++ [(key, value)]⟩

/-- Removing takes the first pair of an equal key out and hands back its value, or there is none. -/
inductive Removed (key : StackValue) : StackMap → Option StackValue → StackMap → Prop
  | taken {front back : List (StackValue × StackValue)} {present old : StackValue}
      (h : present.keyEq key = true) (hfront : ∀ e ∈ front, e.1.keyEq key = false) :
      Removed key ⟨front ++ (present, old) :: back⟩ (some old) ⟨front ++ back⟩
  | absent {pairs : List (StackValue × StackValue)} (h : ∀ e ∈ pairs, e.1.keyEq key = false) :
      Removed key ⟨pairs⟩ none ⟨pairs⟩

theorem get?_eq_none {pairs : List (StackValue × StackValue)} {key : StackValue} :
    (⟨pairs⟩ : StackMap).get? key = none ↔ ∀ e ∈ pairs, e.1.keyEq key = false := by
  simp [get?]

theorem get?_congr {m : StackMap} {a b : StackValue} (h : a.keyEq b = true) :
    m.get? a = m.get? b := by
  simp only [get?, StackValue.keyEq_congr_right h]

theorem get?_append (front back : List (StackValue × StackValue)) (key : StackValue) :
    (⟨front ++ back⟩ : StackMap).get? key =
      ((⟨front⟩ : StackMap).get? key).or ((⟨back⟩ : StackMap).get? key) := by
  simp [get?, Option.map_or]

theorem get?_cons (e : StackValue × StackValue) (back : List (StackValue × StackValue))
    (key : StackValue) :
    (⟨e :: back⟩ : StackMap).get? key =
      if e.1.keyEq key then some e.2 else (⟨back⟩ : StackMap).get? key := by
  cases h : e.1.keyEq key <;> simp [get?, h]

theorem get?_of_mem {m : StackMap} (hm : KeysDistinct m.entries) {e : StackValue × StackValue}
    (he : e ∈ m.entries) : m.get? e.1 = some e.2 := by
  obtain ⟨pairs⟩ := m
  obtain ⟨front, back, rfl⟩ := List.append_of_mem he
  have hfront : ∀ f ∈ front, f.1.keyEq e.1 = false := by
    intro f hf
    rw [KeysDistinct, List.map_append, List.pairwise_append] at hm
    exact hm.2.2 f.1 (List.mem_map_of_mem hf) e.1 (by simp)
  rw [get?_append, get?_eq_none.mpr hfront, get?_cons,
    if_pos (StackValue.keyEq_equivalence.refl e.1), Option.none_or]

private theorem exists_first {pairs : List (StackValue × StackValue)} {key old : StackValue}
    (h : (⟨pairs⟩ : StackMap).get? key = some old) :
    ∃ front present back, pairs = front ++ (present, old) :: back ∧
      present.keyEq key = true ∧ ∀ e ∈ front, e.1.keyEq key = false := by
  obtain ⟨⟨present, _⟩, hfind, rfl⟩ := Option.map_eq_some_iff.mp h
  obtain ⟨hpresent, front, back, hpairs, hfront⟩ := List.find?_eq_some_iff_append.mp hfind
  exact ⟨front, present, back, hpairs, hpresent, by simpa using hfront⟩

private theorem replaceFirst_append {key present : StackValue} (value old : StackValue)
    {front back : List (StackValue × StackValue)} (hpresent : present.keyEq key = true)
    (hfront : ∀ e ∈ front, e.1.keyEq key = false) :
    replaceFirst key value (front ++ (present, old) :: back) =
      front ++ (present, value) :: back := by
  induction front with
  | nil => simp [replaceFirst, hpresent]
  | cons e front ih =>
    rw [List.forall_mem_cons] at hfront
    simp [replaceFirst, hfront.1, ih hfront.2]

theorem inserted_insert (m : StackMap) (key value : StackValue) :
    Inserted key value m (m.insert key value).1 (m.insert key value).2 := by
  obtain ⟨pairs⟩ := m
  cases hget : (⟨pairs⟩ : StackMap).get? key with
  | none =>
    rw [insert_of_get?_eq_none hget]
    exact .appended (get?_eq_none.mp hget)
  | some old =>
    obtain ⟨front, present, back, rfl, hpresent, hfront⟩ := exists_first hget
    simp only [StackMap.insert, hget, replaceFirst_append value old hpresent hfront]
    exact .replaced hpresent hfront

theorem removed_remove (m : StackMap) (key : StackValue) :
    Removed key m (m.remove key).1 (m.remove key).2 := by
  obtain ⟨pairs⟩ := m
  cases hget : (⟨pairs⟩ : StackMap).get? key with
  | none =>
    simp only [StackMap.remove, hget]
    exact .absent (get?_eq_none.mp hget)
  | some old =>
    obtain ⟨front, present, back, rfl, hpresent, hfront⟩ := exists_first hget
    have herase : (front ++ (present, old) :: back).eraseP (fun e => e.1.keyEq key) =
        front ++ back := by
      rw [List.eraseP_append_right _ (by simpa using hfront)]
      simp [hpresent]
    simp only [StackMap.remove, hget, herase]
    exact .taken hpresent hfront

variable {m m' : StackMap} {key value : StackValue} {previous : Option StackValue}

theorem Inserted.previous_eq (h : Inserted key value m previous m') : previous = m.get? key := by
  cases h with
  | replaced hpresent hfront =>
    rw [get?_append, get?_eq_none.mpr hfront, get?_cons, if_pos hpresent, Option.none_or]
  | appended hall => exact (get?_eq_none.mpr hall).symm

theorem Removed.previous_eq (h : Removed key m previous m') : previous = m.get? key := by
  cases h with
  | taken hpresent hfront =>
    rw [get?_append, get?_eq_none.mpr hfront, get?_cons, if_pos hpresent, Option.none_or]
  | absent hall => exact (get?_eq_none.mpr hall).symm

/-- After inserting, equal keys find the value and other keys what they found before. -/
theorem Inserted.get? (h : Inserted key value m previous m') (k : StackValue) :
    m'.get? k = if key.keyEq k then some value else m.get? k := by
  cases h with
  | @replaced front back present old hpresent hfront =>
    simp only [get?_append, get?_cons, StackValue.keyEq_congr_left hpresent k]
    split
    next hk => rw [← get?_congr hk, get?_eq_none.mpr hfront, Option.none_or]
    next => rfl
  | appended hall =>
    rw [get?_append, get?_cons]
    split
    next hk => rw [← get?_congr hk, get?_eq_none.mpr hall, Option.none_or]
    next => exact Option.or_none

theorem Removed.get? (h : Removed key m previous m') (hm : KeysDistinct m.entries)
    (k : StackValue) : m'.get? k = if key.keyEq k then none else m.get? k := by
  cases h with
  | @taken front back present old hpresent hfront =>
    have hback : ∀ e ∈ back, e.1.keyEq key = false := by
      intro e he
      have hother : present.keyEq e.1 = false := by
        rw [KeysDistinct, List.map_append, List.pairwise_append] at hm
        exact (List.pairwise_cons.mp hm.2.1).1 e.1 (List.mem_map_of_mem he)
      rwa [StackValue.keyEq_comm, ← StackValue.keyEq_congr_left hpresent]
    simp only [get?_append, get?_cons, StackValue.keyEq_congr_left hpresent k]
    split
    next hk =>
      rw [← get?_congr hk, ← get?_congr hk, get?_eq_none.mpr hfront, get?_eq_none.mpr hback,
        Option.none_or]
    next => rfl
  | absent hall =>
    split
    next hk => rw [← get?_congr hk, get?_eq_none.mpr hall]
    next => rfl

theorem Inserted.keys_eq (h : Inserted key value m previous m') :
    m'.entries.map Prod.fst = m.entries.map Prod.fst ++ if previous.isSome then [] else [key] := by
  cases h <;> simp

theorem Removed.keys_sublist (h : Removed key m previous m') :
    (m'.entries.map Prod.fst).Sublist (m.entries.map Prod.fst) := by
  cases h with
  | taken => exact List.Sublist.map _ (by simp)
  | absent => exact .refl _

end StackMap

end ContractHost
