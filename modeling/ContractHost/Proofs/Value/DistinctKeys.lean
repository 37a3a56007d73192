import Mathlib.Data.List.Forall2
import ContractHost.Value.Decoder

/-!
# Keys of maps stay distinct

Inserting and removing never bring two equal keys into a map. A map can be built again from its
keys and values in turn, also from copies of them, if copies of containers are containers of their
own.
-/

namespace ContractHost

namespace StackMap

/-- Maps that come from inserting and removing. -/
inductive Built : StackMap → Prop
  | empty : Built .empty
  | insert {m : StackMap} (h : Built m) (key value : StackValue) : Built (m.insert key value).2
  | remove {m : StackMap} (h : Built m) (key : StackValue) : Built (m.remove key).2

/-- No key is equal to one before it. -/
def KeysDistinct (entries : List (StackValue × StackValue)) : Prop :=
  (entries.map Prod.fst).Pairwise fun a b => a.keyEq b = false

theorem get?_eq_none_iff {m : StackMap} {key : StackValue} :
    m.get? key = none ↔ ∀ k ∈ m.entries.map Prod.fst, k.keyEq key = false := by
  simp [get?]

private theorem map_fst_replaceFirst (key value : StackValue)
    (entries : List (StackValue × StackValue)) :
    (replaceFirst key value entries).map Prod.fst = entries.map Prod.fst := by
  induction entries with
  | nil => rfl
  | cons e entries ih =>
    rw [replaceFirst]
    split
    · rfl
    · rw [List.map_cons, List.map_cons, ih]

theorem insert_of_get?_eq_none {m : StackMap} {key : StackValue} (h : m.get? key = none)
    (value : StackValue) : m.insert key value = (none, ⟨m.entries ++ [(key, value)]⟩) := by
  rw [insert, h]

theorem keysDistinct_append_singleton {entries : List (StackValue × StackValue)}
    {e : StackValue × StackValue} :
    KeysDistinct (entries ++ [e]) ↔
      KeysDistinct entries ∧ ∀ k ∈ entries.map Prod.fst, k.keyEq e.1 = false := by
  simp [KeysDistinct, List.pairwise_append]

theorem KeysDistinct.insert {m : StackMap} (h : KeysDistinct m.entries) (key value : StackValue) :
    KeysDistinct (m.insert key value).2.entries := by
  cases hget : m.get? key with
  | none =>
    rw [insert_of_get?_eq_none hget]
    exact keysDistinct_append_singleton.mpr ⟨h, get?_eq_none_iff.mp hget⟩
  | some previous =>
    have hkeys : (m.insert key value).2.entries.map Prod.fst = m.entries.map Prod.fst := by
      simp only [StackMap.insert, hget, map_fst_replaceFirst]
    rwa [KeysDistinct, hkeys]

theorem KeysDistinct.remove {m : StackMap} (h : KeysDistinct m.entries) (key : StackValue) :
    KeysDistinct (m.remove key).2.entries := by
  rw [StackMap.remove]
  cases m.get? key with
  | none => exact h
  | some value => exact h.sublist (List.eraseP_sublist.map Prod.fst)

theorem Built.keysDistinct {m : StackMap} (h : m.Built) : KeysDistinct m.entries := by
  induction h with
  | empty => exact .nil
  | insert _ key value ih => exact ih.insert key value
  | remove _ key ih => exact ih.remove key

end StackMap

def inTurn (pairs : List (StackValue × StackValue)) : List StackValue :=
  pairs.flatMap fun e => [e.1, e.2]

theorem length_inTurn (pairs : List (StackValue × StackValue)) :
    (inTurn pairs).length = 2 * pairs.length := by
  simp [inTurn, Nat.mul_comm]

theorem keys_sublist_inTurn (pairs : List (StackValue × StackValue)) :
    (pairs.map Prod.fst).Sublist (inTurn pairs) := by
  induction pairs with
  | nil => exact .slnil
  | cons e pairs ih => exact (ih.cons e.2).cons_cons e.1

namespace Decoder

theorem buildMap_inTurn (m : StackMap) (pairs : List (StackValue × StackValue))
    (h : StackMap.KeysDistinct (m.entries ++ pairs)) :
    buildMap m (inTurn pairs) = .ok ⟨m.entries ++ pairs⟩ := by
  induction pairs generalizing m with
  | nil => rw [List.append_nil]; rfl
  | cons e pairs ih =>
    have hsplit : m.entries ++ e :: pairs = (m.entries ++ [e]) ++ pairs := by simp
    have hfront : StackMap.KeysDistinct (m.entries ++ [e]) := by
      rw [hsplit] at h
      exact h.sublist ((List.sublist_append_left _ _).map Prod.fst)
    have hnew : m.get? e.1 = none :=
      StackMap.get?_eq_none_iff.mpr (StackMap.keysDistinct_append_singleton.mp hfront).2
    have hturn : inTurn (e :: pairs) = e.1 :: e.2 :: inTurn pairs := rfl
    rw [hturn, buildMap, StackMap.insert_of_get?_eq_none hnew, hsplit]
    exact ih ⟨m.entries ++ [e]⟩ (by rwa [← hsplit])

end Decoder

namespace StackValue

/-- What stands for a value among copies: a container, or the value itself. -/
def CopiedAs (value copy : StackValue) : Prop := copy.container? = none → copy = value

theorem container?_eq_of_keyEq {a b : StackValue} (h : a.keyEq b = true) :
    a.container? = b.container? := by
  cases a <;> cases b <;> simp_all [keyEq, container?]

end StackValue

private theorem exists_original {values copies : List StackValue} {copy : StackValue}
    (h : List.Forall₂ StackValue.CopiedAs values copies) (hmem : copy ∈ copies) :
    ∃ value ∈ values, value.CopiedAs copy := by
  induction h with
  | nil => cases hmem
  | @cons value first values copies hfirst _ ih =>
    rcases List.mem_cons.mp hmem with rfl | hmem
    · exact ⟨value, List.mem_cons_self, hfirst⟩
    · obtain ⟨value, hvalue, hcopy⟩ := ih hmem
      exact ⟨value, List.mem_cons_of_mem _ hvalue, hcopy⟩

theorem exists_pairs_of_copies {pairs : List (StackValue × StackValue)} {copies : List StackValue}
    (h : List.Forall₂ StackValue.CopiedAs (inTurn pairs) copies) :
    ∃ pairs', copies = inTurn pairs' ∧
      List.Forall₂ StackValue.CopiedAs (pairs.map Prod.fst) (pairs'.map Prod.fst) := by
  induction pairs generalizing copies with
  | nil =>
    cases h
    exact ⟨[], rfl, .nil⟩
  | cons e pairs ih =>
    obtain ⟨key, rest, hkey, hrest, rfl⟩ := List.forall₂_cons_left_iff.mp h
    obtain ⟨value, below, -, hbelow, rfl⟩ := List.forall₂_cons_left_iff.mp hrest
    obtain ⟨pairs', rfl, hkeys⟩ := ih hbelow
    exact ⟨(key, value) :: pairs', rfl, .cons hkey hkeys⟩

theorem pairwise_keyEq_of_copies {keys copies : List StackValue}
    (h : List.Forall₂ StackValue.CopiedAs keys copies)
    (hkeys : keys.Pairwise fun a b => a.keyEq b = false)
    (hown : (copies.filterMap StackValue.container?).Nodup) :
    copies.Pairwise fun a b => a.keyEq b = false := by
  induction h with
  | nil => exact .nil
  | @cons key copy keys copies hcopy hrest ih =>
    rw [List.pairwise_cons] at hkeys
    have htail : (copies.filterMap StackValue.container?).Nodup :=
      hown.sublist ((List.sublist_cons_self _ _).filterMap _)
    refine List.pairwise_cons.mpr ⟨fun other hother => ?_, ih hkeys.2 htail⟩
    by_contra heq
    have heq : copy.keyEq other = true := by simpa using heq
    have hsame := StackValue.container?_eq_of_keyEq heq
    cases hid : copy.container? with
    | none =>
      obtain ⟨original, horiginal, hplain⟩ := exists_original hrest hother
      rw [hcopy hid, hplain (hsame ▸ hid), hkeys.1 original horiginal] at heq
      cases heq
    | some id =>
      rw [List.filterMap_cons_some hid, List.nodup_cons] at hown
      exact hown.1 (List.mem_filterMap.mpr ⟨other, hother, hsame ▸ hid⟩)

end ContractHost
