import Mathlib.Data.List.Induction
import ContractHost.Proofs.InOrder
import ContractHost.Proofs.State.View

/-!
# What a cache keeps from reading

The values read are held in the order of their last use. Their weights are counted in 64 bits, so
that the count is their sum as far as 64 bits hold it. While the sum stays below, nothing is ever
taken from the count that it does not hold, and reading a value keeps the longest run of values used
last that fits the limit.
-/

namespace ContractHost

/-- What may be asked of a cache. -/
inductive CacheCall
  | insertRead (key : StateKey) (value : StoredValue)
  | insertWrite (key : StateKey) (value : StoredValue)
  | insertPrune (key : StateKey)
  | get (key : StateKey)

abbrev CacheHistory := List CacheCall

namespace CacheCall

def run (c : Cache) : CacheCall → Cache
  | insertRead key value => c.insertRead key value
  | insertWrite key value => c.insertWrite key value
  | insertPrune key => c.insertPrune key
  | get key => (c.get key).2

/-- The call writes or prunes the key. -/
def Hides (key : StateKey) : CacheCall → Prop
  | insertWrite k _ | insertPrune k => k = key
  | _ => False

/-- The call reads the key anew, or looks it up after calls of which none has hidden it. -/
def Uses (earlier : CacheHistory) (key : StateKey) : CacheCall → Prop
  | insertRead k _ => k = key
  | get k => k = key ∧ ∀ call ∈ earlier, ¬call.Hides key
  | _ => False

end CacheCall

namespace Cache

variable {limit : UInt64} {weigh : StateKey → StoredValue → UInt64}
  {pairs kept : List (StateKey × StoredValue)}

/-! ## Weights -/

/-- The weights of entries together, however large. -/
def total (weigh : StateKey → StoredValue → UInt64) : List (StateKey × StoredValue) → Nat
  | [] => 0
  | e :: rest => (weigh e.1 e.2).toNat + total weigh rest

@[simp] theorem total_nil : total weigh [] = 0 := rfl

@[simp] theorem total_cons (e : StateKey × StoredValue) :
    total weigh (e :: pairs) = (weigh e.1 e.2).toNat + total weigh pairs := rfl

@[simp] theorem total_append :
    total weigh (pairs ++ kept) = total weigh pairs + total weigh kept := by
  induction pairs with
  | nil => simp
  | cons e pairs ih => simp [ih, Nat.add_assoc]

theorem total_eq_of_perm (h : pairs.Perm kept) : total weigh pairs = total weigh kept := by
  induction h with
  | nil => rfl
  | cons e _ ih => rw [total_cons, total_cons, ih]
  | swap a b rest => simp only [total_cons, Nat.add_left_comm]
  | trans _ _ ihfirst ihthen => exact ihfirst.trans ihthen

theorem ofNat_total_cons (e : StateKey × StoredValue) :
    UInt64.ofNat (total weigh (e :: pairs)) - weigh e.1 e.2 = .ofNat (total weigh pairs) := by
  rw [total_cons, UInt64.ofNat_add, UInt64.ofNat_toNat, UInt64.add_comm, UInt64.add_sub_cancel]

theorem ofNat_total_concat (e : StateKey × StoredValue) :
    UInt64.ofNat (total weigh (pairs ++ [e])) = .ofNat (total weigh pairs) + weigh e.1 e.2 := by
  simp

theorem without_of_find?_eq_none {key : StateKey} (h : find? pairs key = none) :
    without pairs key = pairs := by
  refine List.filter_eq_self.mpr fun e he => ?_
  have hne : e.1 ≠ key := by
    rintro rfl
    have hfound := find?_isSome_iff.mpr (List.mem_map_of_mem he)
    simp [h] at hfound
  simpa using hne

theorem moveLast_perm (hpairs : (pairs.map Prod.fst).Nodup) {key : StateKey} {value : StoredValue}
    (hfound : find? pairs key = some value) : (without pairs key ++ [(key, value)]).Perm pairs := by
  have hmoved := (nodup_moveLast hpairs key value).of_map
  refine (List.perm_ext_iff_of_nodup hmoved hpairs.of_map).mpr fun e => ?_
  have hmem := mem_of_find? hfound
  simp only [List.mem_append, mem_without, List.mem_singleton]
  constructor
  · rintro (⟨he, -⟩ | rfl)
    · exact he
    · exact hmem
  · intro he
    by_cases hkey : e.1 = key
    · exact .inr (List.inj_on_of_nodup_map hpairs he hmem hkey)
    · exact .inl ⟨he, hkey⟩

theorem total_without (weigh : StateKey → StoredValue → UInt64)
    (hpairs : (pairs.map Prod.fst).Nodup) {key : StateKey} {value : StoredValue}
    (hfound : find? pairs key = some value) :
    total weigh (without pairs key) + (weigh key value).toNat = total weigh pairs := by
  rw [← total_eq_of_perm (moveLast_perm hpairs hfound), total_append, total_cons, total_nil,
    Nat.add_zero]

theorem total_without_le (weigh : StateKey → StoredValue → UInt64)
    (pairs : List (StateKey × StoredValue)) (key : StateKey) :
    total weigh (without pairs key) ≤ total weigh pairs := by
  induction pairs with
  | nil => exact Nat.le_refl _
  | cons e pairs ih =>
    simp only [without, List.filter_cons] at ih ⊢
    split
    · exact Nat.add_le_add_left ih _
    · exact Nat.le_trans ih (Nat.le_add_left _ _)

/-- The entries at the end that fit a limit together, as many as there can be. -/
structure LongestFitting (limit : UInt64) (weigh : StateKey → StoredValue → UInt64)
    (pairs kept : List (StateKey × StoredValue)) : Prop where
  suffix : kept <:+ pairs
  fits : total weigh kept ≤ limit.toNat
  longest : ∀ other, other <:+ pairs → total weigh other ≤ limit.toNat → other <:+ kept

theorem LongestFitting.of_cons {e : StateKey × StoredValue}
    (h : LongestFitting limit weigh pairs kept) (hlimit : limit.toNat < total weigh (e :: pairs)) :
    LongestFitting limit weigh (e :: pairs) kept := by
  refine ⟨h.suffix.trans (List.suffix_cons e pairs), h.fits, fun other hother hfits => ?_⟩
  rcases List.suffix_cons_iff.mp hother with rfl | hother
  · exact absurd hfits (Nat.not_le.mpr hlimit)
  · exact h.longest other hother hfits

theorem LongestFitting.eq_nil {e : StateKey × StoredValue}
    (h : LongestFitting limit weigh (pairs ++ [e]) kept) (hheavy : limit < weigh e.1 e.2) :
    kept = [] := by
  rcases List.suffix_concat_iff.mp h.suffix with rfl | ⟨others, rfl, -⟩
  · rfl
  · have hfits := h.fits
    have hlimit := UInt64.lt_iff_toNat_lt.mp hheavy
    rw [total_append, total_cons] at hfits
    omega

/-- Dropping entries from the front keeps the count equal to the sum in 64 bits and ends within the
limit. If 64 bits hold the whole sum, the longest end that fits is kept. -/
theorem evict_total (limit : UInt64) (weigh : StateKey → StoredValue → UInt64)
    (pairs : List (StateKey × StoredValue)) :
    ∃ kept, evict limit weigh (.ofNat (total weigh pairs)) pairs =
        (.ofNat (total weigh kept), kept) ∧
      UInt64.ofNat (total weigh kept) ≤ limit ∧
      (total weigh pairs < UInt64.size → LongestFitting limit weigh pairs kept) := by
  induction pairs with
  | nil =>
    refine ⟨[], rfl, UInt64.zero_le, fun _ => ?_⟩
    exact ⟨List.suffix_refl _, Nat.zero_le _, fun other hother _ => hother⟩
  | cons e pairs ih =>
    rw [evict]
    split
    next hlimit =>
      obtain ⟨kept, hkept, hbelow, hlongest⟩ := ih
      refine ⟨kept, by rw [ofNat_total_cons, hkept], hbelow, fun hfits => ?_⟩
      have htail : total weigh pairs < UInt64.size :=
        Nat.lt_of_le_of_lt (Nat.le_add_left _ _) hfits
      rw [UInt64.lt_iff_toNat_lt, UInt64.toNat_ofNat_of_lt' hfits] at hlimit
      exact (hlongest htail).of_cons hlimit
    next hlimit =>
      have hbelow := UInt64.not_lt.mp hlimit
      refine ⟨e :: pairs, rfl, hbelow, fun hfits => ?_⟩
      rw [UInt64.le_iff_toNat_le, UInt64.toNat_ofNat_of_lt' hfits] at hbelow
      exact ⟨List.suffix_refl _, hbelow, fun other hother _ => hother⟩

/-! ## Looking up -/

def Hidden (c : Cache) (key : StateKey) : Prop :=
  c.isPruned key = true ∨ (find? c.writes key).isSome = true

theorem snd_get (c : Cache) (key : StateKey) :
    (c.get key).2 = c ∧ (c.Hidden key ∨ find? c.reads key = none) ∨
      ∃ value, ¬c.Hidden key ∧ find? c.reads key = some value ∧
        (c.get key).2 = { c with reads := without c.reads key ++ [(key, value)] } := by
  by_cases hpruned : c.isPruned key
  · exact .inl ⟨by simp [get, hpruned], .inl (.inl hpruned)⟩
  · cases hwritten : find? c.writes key with
    | some value => exact .inl ⟨by simp [get, hpruned, hwritten], .inl (.inr (by simp [hwritten]))⟩
    | none =>
      cases hread : find? c.reads key with
      | none => exact .inl ⟨by simp [get, hpruned, hwritten, hread], .inr rfl⟩
      | some value =>
        refine .inr ⟨value, by simp [Hidden, hpruned, hwritten], rfl, ?_⟩
        simp [get, hpruned, hwritten, hread]

/-! ## Counting -/

def minus? (a b : UInt64) : Option UInt64 := if b ≤ a then some (a - b) else none

def plus? (a b : UInt64) : Option UInt64 :=
  if a.toNat + b.toNat < UInt64.size then some (a + b) else none

/-- Dropping entries with a count that is refused below zero. -/
def evictChecked (limit : UInt64) (weigh : StateKey → StoredValue → UInt64) (weight : UInt64) :
    List (StateKey × StoredValue) → Option (UInt64 × List (StateKey × StoredValue))
  | [] => some (weight, [])
  | (key, value) :: rest =>
    if limit < weight then do
      let weight ← minus? weight (weigh key value)
      evictChecked limit weigh weight rest
    else some (weight, (key, value) :: rest)

def countWithout? (c : Cache) (key : StateKey) : Option UInt64 :=
  match find? c.reads key with
  | some previous => minus? c.weight (c.weigh key previous)
  | none => some c.weight

/-- Keeping a value that was read with a count that is refused below zero and above what 64 bits
hold. -/
def insertReadChecked (c : Cache) (key : StateKey) (value : StoredValue) : Option Cache := do
  let replaced ← c.countWithout? key
  let added ← plus? replaced (c.weigh key value)
  let (weight, reads) ← evictChecked c.limit c.weigh added (without c.reads key ++ [(key, value)])
  return { c with weight := weight, reads := reads }

/-- 64 bits hold the weights of the values read together with that of one more. -/
def HasRoom (c : Cache) (key : StateKey) (value : StoredValue) : Prop :=
  total c.weigh (without c.reads key) + (c.weigh key value).toNat < UInt64.size

instance (c : Cache) (key : StateKey) (value : StoredValue) : Decidable (c.HasRoom key value) :=
  inferInstanceAs (Decidable (_ < _))

theorem evictChecked_total (limit : UInt64) (weigh : StateKey → StoredValue → UInt64)
    (pairs : List (StateKey × StoredValue)) (hfits : total weigh pairs < UInt64.size) :
    evictChecked limit weigh (.ofNat (total weigh pairs)) pairs =
      some (evict limit weigh (.ofNat (total weigh pairs)) pairs) := by
  induction pairs with
  | nil => rfl
  | cons e pairs ih =>
    have hhead : weigh e.1 e.2 ≤ .ofNat (total weigh (e :: pairs)) := by
      rw [UInt64.le_iff_toNat_le, UInt64.toNat_ofNat_of_lt' hfits]
      exact Nat.le_add_right _ _
    rw [evictChecked, evict]
    split
    next =>
      simp only [minus?, if_pos hhead, ofNat_total_cons, Option.bind_eq_bind, Option.bind_some]
      exact ih (Nat.lt_of_le_of_lt (Nat.le_add_left _ _) hfits)
    next => rfl

/-- The count of the weights is their sum in 64 bits, it is within the limit, and no key is held
twice. -/
structure Counted (c : Cache) : Prop where
  weight_eq : c.weight = .ofNat (total c.weigh c.reads)
  weight_le : c.weight ≤ c.limit
  distinct : c.Distinct

/-- The weights themselves are within the limit, and not only what 64 bits hold of them. -/
def Light (c : Cache) : Prop := total c.weigh c.reads ≤ c.limit.toNat

namespace Light

variable {c : Cache}

theorem total_lt (h : c.Light) : total c.weigh c.reads < UInt64.size :=
  Nat.lt_of_le_of_lt h c.limit.toNat_lt_size

theorem hasRoom (h : c.Light) {key : StateKey} {value : StoredValue}
    (hsum : c.limit.toNat + (c.weigh key value).toNat < UInt64.size) : c.HasRoom key value :=
  Nat.lt_of_le_of_lt
    (Nat.add_le_add_right (Nat.le_trans (total_without_le c.weigh c.reads key) h) _) hsum

end Light

namespace Counted

variable {c : Cache}

theorem new (limit : UInt64) (weigh : StateKey → StoredValue → UInt64) :
    (Cache.new limit weigh).Counted :=
  ⟨rfl, UInt64.zero_le, List.nodup_nil⟩

theorem toNat_weight (h : c.Counted) (hlight : c.Light) :
    c.weight.toNat = total c.weigh c.reads := by
  rw [h.weight_eq, UInt64.toNat_ofNat_of_lt' hlight.total_lt]

theorem weight_of_none (h : c.Counted) {key : StateKey} (hfound : find? c.reads key = none) :
    c.weight = .ofNat (total c.weigh (without c.reads key)) := by
  rw [without_of_find?_eq_none hfound, h.weight_eq]

theorem weight_sub_of_some (h : c.Counted) {key : StateKey} {previous : StoredValue}
    (hfound : find? c.reads key = some previous) :
    c.weight - c.weigh key previous = .ofNat (total c.weigh (without c.reads key)) := by
  rw [h.weight_eq, ← total_without c.weigh h.distinct hfound, UInt64.ofNat_add,
    UInt64.ofNat_toNat, UInt64.add_sub_cancel]

theorem insertRead_evict (h : c.Counted) (key : StateKey) (value : StoredValue) :
    let moved := without c.reads key ++ [(key, value)]
    let result := evict c.limit c.weigh (.ofNat (total c.weigh moved)) moved
    c.insertRead key value = { c with weight := result.1, reads := result.2 } := by
  intro moved result
  simp only [result, moved, ofNat_total_concat, insertRead]
  cases hfound : find? c.reads key with
  | none =>
    dsimp only
    rw [h.weight_of_none hfound]
  | some previous =>
    dsimp only
    rw [h.weight_sub_of_some hfound]

theorem insertRead_eq (h : c.Counted) (key : StateKey) (value : StoredValue) :
    ∃ kept, c.insertRead key value = { c with weight := .ofNat (total c.weigh kept), reads := kept } ∧
      UInt64.ofNat (total c.weigh kept) ≤ c.limit ∧
      (c.HasRoom key value →
        LongestFitting c.limit c.weigh (without c.reads key ++ [(key, value)]) kept) := by
  obtain ⟨kept, hevict, hbelow, hlongest⟩ :=
    evict_total c.limit c.weigh (without c.reads key ++ [(key, value)])
  refine ⟨kept, ?_, hbelow, fun hroom => hlongest ?_⟩
  · rw [h.insertRead_evict key value, hevict]
  · rw [total_append]
    exact hroom

theorem countWithout?_eq (h : c.Counted) (hlight : c.Light) (key : StateKey) :
    c.countWithout? key = some (.ofNat (total c.weigh (without c.reads key))) := by
  rw [countWithout?]
  cases hfound : find? c.reads key with
  | none => exact congrArg some (h.weight_of_none hfound)
  | some previous =>
    have hpart : c.weigh key previous ≤ c.weight := by
      rw [UInt64.le_iff_toNat_le, h.toNat_weight hlight, ← total_without c.weigh h.distinct hfound]
      exact Nat.le_add_left _ _
    dsimp only
    rw [minus?, if_pos hpart, h.weight_sub_of_some hfound]

/-- Only the addition can be refused, and only if 64 bits do not hold the sum. -/
theorem insertReadChecked_eq (h : c.Counted) (hlight : c.Light) (key : StateKey)
    (value : StoredValue) :
    c.insertReadChecked key value =
      if c.HasRoom key value then some (c.insertRead key value) else none := by
  have hothers : total c.weigh (without c.reads key) < UInt64.size :=
    Nat.lt_of_le_of_lt (total_without_le c.weigh c.reads key) hlight.total_lt
  rw [insertReadChecked, h.countWithout?_eq hlight key]
  simp only [Option.bind_eq_bind, Option.bind_some, plus?, UInt64.toNat_ofNat_of_lt' hothers]
  rw [← ofNat_total_concat (key, value)]
  change Option.bind (if c.HasRoom key value then _ else none) _ = _
  by_cases hroom : c.HasRoom key value
  · have hfits : total c.weigh (without c.reads key ++ [(key, value)]) < UInt64.size := by
      rw [total_append]
      exact hroom
    have hchecked := evictChecked_total c.limit c.weigh _ hfits
    rw [if_pos hroom, if_pos hroom, Option.bind_some, hchecked, h.insertRead_evict key value]
    rfl
  · rw [if_neg hroom, if_neg hroom]
    rfl

theorem insertRead (h : c.Counted) (key : StateKey) (value : StoredValue) :
    (c.insertRead key value).Counted := by
  obtain ⟨kept, heq, hbelow, -⟩ := h.insertRead_eq key value
  refine ⟨?_, ?_, h.distinct.insertRead key value⟩
  · rw [heq]
  · rw [heq]
    exact hbelow

theorem get_reads_perm (h : c.Counted) (key : StateKey) : (c.get key).2.reads.Perm c.reads := by
  rcases c.snd_get key with ⟨heq, -⟩ | ⟨value, -, hfound, heq⟩
  · rw [heq]
  · rw [heq]
    exact moveLast_perm h.distinct hfound

theorem get (h : c.Counted) (key : StateKey) : (c.get key).2.Counted := by
  rcases c.snd_get key with ⟨heq, -⟩ | ⟨value, -, hfound, heq⟩
  · rwa [heq]
  · have hsum : total c.weigh (without c.reads key ++ [(key, value)]) = total c.weigh c.reads :=
      total_eq_of_perm (moveLast_perm h.distinct hfound)
    rw [heq]
    exact ⟨h.weight_eq.trans (congrArg UInt64.ofNat hsum.symm), h.weight_le,
      nodup_moveLast h.distinct key value⟩

theorem run (h : c.Counted) (call : CacheCall) : (call.run c).Counted := by
  cases call with
  | insertRead key value => exact h.insertRead key value
  | insertWrite key value => exact ⟨h.weight_eq, h.weight_le, h.distinct⟩
  | insertPrune key => exact ⟨h.weight_eq, h.weight_le, h.distinct⟩
  | get key => exact h.get key

theorem light_run (h : c.Counted) (hlight : c.Light) {call : CacheCall}
    (hroom : ∀ key value, call = .insertRead key value → c.HasRoom key value) :
    (call.run c).Light := by
  cases call with
  | insertRead key value =>
    obtain ⟨kept, heq, -, hlongest⟩ := h.insertRead_eq key value
    rw [CacheCall.run, heq]
    exact (hlongest (hroom key value rfl)).fits
  | insertWrite key value => exact hlight
  | insertPrune key => exact hlight
  | get key =>
    have hsum : total c.weigh (c.get key).2.reads = total c.weigh c.reads :=
      total_eq_of_perm (h.get_reads_perm key)
    obtain ⟨weight, reads, heq⟩ := c.sameChanges_get key
    rw [heq] at hsum
    rw [CacheCall.run, heq, Light, hsum]
    exact hlight

end Counted

/-! ## Written and pruned keys -/

def Disjoint (c : Cache) : Prop := ∀ key, c.isPruned key = true → find? c.writes key = none

theorem Disjoint.run {c : Cache} (h : c.Disjoint) (call : CacheCall) : (call.run c).Disjoint := by
  intro key hpruned
  cases call with
  | insertRead k value => exact h key hpruned
  | insertWrite k value =>
    obtain ⟨hbefore, hne⟩ : c.isPruned key = true ∧ key ≠ k := by
      simpa [CacheCall.run, insertWrite, isPruned] using hpruned
    simp only [CacheCall.run, insertWrite]
    rw [find?_cons, if_neg hne.symm, find?_without, if_neg hne.symm]
    exact h key hbefore
  | insertPrune k =>
    simp only [CacheCall.run, insertPrune]
    rw [find?_without]
    split
    next => rfl
    next hne =>
      refine h key ?_
      simpa [CacheCall.run, insertPrune, isPruned, Ne.symm hne] using hpruned
  | get k =>
    obtain ⟨weight, reads, heq⟩ := c.sameChanges_get k
    rw [CacheCall.run, heq] at hpruned ⊢
    exact h key hpruned

theorem SameChanges.hidden {c c' : Cache} (h : c.SameChanges c') (key : StateKey) :
    c'.Hidden key ↔ c.Hidden key := by
  obtain ⟨weight, reads, rfl⟩ := h
  rfl

theorem hidden_run {c : Cache} {key : StateKey} (call : CacheCall) :
    (call.run c).Hidden key ↔ c.Hidden key ∨ call.Hides key := by
  cases call with
  | insertRead k value =>
    simpa [CacheCall.run, CacheCall.Hides] using (c.sameChanges_insertRead k value).hidden key
  | insertWrite k value =>
    by_cases hkey : k = key
    · simp [CacheCall.run, CacheCall.Hides, Hidden, insertWrite, find?_cons, hkey]
    · simp [CacheCall.run, CacheCall.Hides, Hidden, insertWrite, isPruned, find?_cons,
        find?_without, hkey, Ne.symm hkey]
  | insertPrune k =>
    by_cases hkey : k = key
    · simp [CacheCall.run, CacheCall.Hides, Hidden, insertPrune, isPruned, hkey]
    · simp [CacheCall.run, CacheCall.Hides, Hidden, insertPrune, isPruned, find?_without, hkey,
        Ne.symm hkey]
  | get k => simpa [CacheCall.run, CacheCall.Hides] using (c.sameChanges_get k).hidden key

/-! ## Runs -/

def afterAll (c : Cache) (history : CacheHistory) : Cache :=
  history.foldl (fun c call => call.run c) c

theorem afterAll_concat (c : Cache) (history : CacheHistory) (call : CacheCall) :
    c.afterAll (history ++ [call]) = call.run (c.afterAll history) := by
  simp [afterAll]

theorem afterAll_holds {P : Cache → Prop} (hstep : ∀ c (call : CacheCall), P c → P (call.run c))
    {c : Cache} (h : P c) (history : CacheHistory) : P (c.afterAll history) := by
  induction history using List.reverseRecOn with
  | nil => exact h
  | append_singleton history call ih =>
    rw [afterAll_concat]
    exact hstep _ call ih

end Cache

namespace CacheHistory

def UsedAt (history : CacheHistory) (time : Nat) (key : StateKey) : Prop :=
  ∃ call, history[time]? = some call ∧ call.Uses (history.take time) key

def LastUsedAt (history : CacheHistory) (time : Nat) (key : StateKey) : Prop :=
  history.UsedAt time key ∧ ∀ later, history.UsedAt later key → later ≤ time

/-- The keys have been used, one before the other when it comes to their last use. -/
structure InOrderOfUse (history : CacheHistory) (keys : List StateKey) : Prop where
  used : ∀ key ∈ keys, ∃ time, history.LastUsedAt time key
  ordered : InOrder history.LastUsedAt keys

variable {history : CacheHistory} {call : CacheCall} {key : StateKey} {time : Nat}
  {keys keys' : List StateKey}

theorem UsedAt.time_lt (h : history.UsedAt time key) : time < history.length := by
  obtain ⟨call, hcall, -⟩ := h
  exact (List.getElem?_eq_some_iff.mp hcall).1

theorem usedAt_concat :
    UsedAt (history ++ [call]) time key ↔
      history.UsedAt time key ∨ time = history.length ∧ call.Uses history key := by
  rcases Nat.lt_trichotomy time history.length with hlt | rfl | hgt
  · have htake : (history ++ [call]).take time = history.take time :=
      List.take_append_of_le_length (Nat.le_of_lt hlt)
    simp [UsedAt, List.getElem?_append_left hlt, htake, Nat.ne_of_lt hlt]
  · have hnever : ¬history.UsedAt history.length key := fun h => Nat.lt_irrefl _ h.time_lt
    simp [UsedAt] at hnever ⊢
  · have hnever : ¬history.UsedAt time key := fun h => Nat.lt_asymm hgt h.time_lt
    have hnone : (history ++ [call])[time]? = none := by
      rw [List.getElem?_eq_none_iff, List.length_append, List.length_singleton]
      exact hgt
    rw [UsedAt, hnone]
    simp [hnever, Nat.ne_of_gt hgt]

theorem lastUsedAt_concat_of_not_uses (h : ¬call.Uses history key) :
    LastUsedAt (history ++ [call]) time key ↔ history.LastUsedAt time key := by
  simp [LastUsedAt, usedAt_concat, h]

theorem lastUsedAt_concat_of_uses (h : call.Uses history key) :
    LastUsedAt (history ++ [call]) time key ↔ time = history.length := by
  constructor
  · rintro ⟨hused, hlast⟩
    have hle := hlast history.length (usedAt_concat.mpr (.inr ⟨rfl, h⟩))
    have hlt := hused.time_lt
    rw [List.length_append, List.length_singleton] at hlt
    omega
  · rintro rfl
    refine ⟨usedAt_concat.mpr (.inr ⟨rfl, h⟩), fun later hlater => ?_⟩
    have hlt := hlater.time_lt
    rw [List.length_append, List.length_singleton] at hlt
    omega

namespace InOrderOfUse

theorem sublist (h : history.InOrderOfUse keys) (hkeys : keys'.Sublist keys) :
    history.InOrderOfUse keys' :=
  ⟨fun key hkey => h.used key (hkeys.subset hkey), h.ordered.mono hkeys fun _ _ _ => id⟩

theorem unused (h : history.InOrderOfUse keys) (hunused : ∀ key ∈ keys, ¬call.Uses history key) :
    InOrderOfUse (history ++ [call]) keys := by
  refine ⟨fun key hkey => ?_, h.ordered.mono (.refl keys) fun key hkey _ => ?_⟩
  · obtain ⟨time, htime⟩ := h.used key hkey
    exact ⟨time, (lastUsedAt_concat_of_not_uses (hunused key hkey)).mpr htime⟩
  · exact (lastUsedAt_concat_of_not_uses (hunused key hkey)).mp

theorem used_last (h : history.InOrderOfUse keys) (hunused : ∀ k ∈ keys, ¬call.Uses history k)
    (hused : call.Uses history key) : InOrderOfUse (history ++ [call]) (keys ++ [key]) := by
  have hkeys := h.unused hunused
  refine ⟨?_, hkeys.ordered.concat fun a ha s t hs ht => ?_⟩
  · rw [List.forall_mem_append]
    refine ⟨hkeys.used, ?_⟩
    simpa using ⟨history.length, (lastUsedAt_concat_of_uses hused).mpr rfl⟩
  · rw [lastUsedAt_concat_of_uses hused] at ht
    rw [lastUsedAt_concat_of_not_uses (hunused a ha)] at hs
    exact ht ▸ hs.1.time_lt

end InOrderOfUse

end CacheHistory

namespace Cache

theorem inOrderOfUse_moveLast {history : CacheHistory} {call : CacheCall} {key : StateKey}
    {value : StoredValue} {pairs : List (StateKey × StoredValue)}
    (h : history.InOrderOfUse (pairs.map Prod.fst)) (hused : ∀ k, call.Uses history k ↔ k = key) :
    CacheHistory.InOrderOfUse (history ++ [call])
      ((without pairs key ++ [(key, value)]).map Prod.fst) := by
  have hothers : history.InOrderOfUse ((without pairs key).map Prod.fst) :=
    h.sublist (List.filter_sublist.map Prod.fst)
  rw [List.map_append]
  refine hothers.used_last (fun k hk huses => ?_) ((hused key).mpr rfl)
  obtain ⟨e, he, rfl⟩ := List.mem_map.mp hk
  exact (mem_without.mp he).2 ((hused e.1).mp huses)

variable (limit : UInt64) (weigh : StateKey → StoredValue → UInt64)

theorem counted_afterAll (history : CacheHistory) :
    ((Cache.new limit weigh).afterAll history).Counted :=
  afterAll_holds (fun _ call h => h.run call) (Counted.new limit weigh) history

theorem disjoint_afterAll (history : CacheHistory) :
    ((Cache.new limit weigh).afterAll history).Disjoint := by
  refine afterAll_holds (fun _ call h => h.run call) (fun key hpruned => ?_) history
  simp [Cache.new, isPruned] at hpruned

theorem hidden_afterAll (history : CacheHistory) (key : StateKey) :
    ((Cache.new limit weigh).afterAll history).Hidden key ↔ ∃ call ∈ history, call.Hides key := by
  induction history using List.reverseRecOn with
  | nil => simp [afterAll, Cache.new, Hidden, isPruned, find?]
  | append_singleton history call ih =>
    rw [afterAll_concat, hidden_run, ih]
    simp [or_and_right, exists_or]

theorem limits_run (c : Cache) (call : CacheCall) :
    (call.run c).limit = c.limit ∧ (call.run c).weigh = c.weigh := by
  cases call with
  | insertRead key value => exact ⟨rfl, rfl⟩
  | insertWrite key value => exact ⟨rfl, rfl⟩
  | insertPrune key => exact ⟨rfl, rfl⟩
  | get key =>
    obtain ⟨weight, reads, heq⟩ := c.sameChanges_get key
    rw [CacheCall.run, heq]
    exact ⟨rfl, rfl⟩

theorem limits_afterAll (c : Cache) (history : CacheHistory) :
    (c.afterAll history).limit = c.limit ∧ (c.afterAll history).weigh = c.weigh := by
  refine afterAll_holds (P := fun c' => c'.limit = c.limit ∧ c'.weigh = c.weigh)
    (fun c' call h => ?_) ⟨rfl, rfl⟩ history
  exact ⟨(limits_run c' call).1.trans h.1, (limits_run c' call).2.trans h.2⟩

theorem inOrderOfUse_afterAll (history : CacheHistory) :
    history.InOrderOfUse (((Cache.new limit weigh).afterAll history).reads.map Prod.fst) := by
  induction history using List.reverseRecOn with
  | nil => exact ⟨fun key hkey => absurd hkey List.not_mem_nil, List.Pairwise.nil⟩
  | append_singleton history call ih =>
    have hhidden := hidden_afterAll limit weigh history
    have hcounted := counted_afterAll limit weigh history
    rw [afterAll_concat]
    generalize (Cache.new limit weigh).afterAll history = c at *
    cases call with
    | insertRead key value =>
      have hused : ∀ k, (CacheCall.insertRead key value).Uses history k ↔ k = key :=
        fun k => eq_comm
      have hmoved := @inOrderOfUse_moveLast _ _ _ value _ ih hused
      exact hmoved.sublist ((reads_insertRead_suffix c key value).sublist.map Prod.fst)
    | insertWrite key value => exact ih.unused fun _ _ huses => huses
    | insertPrune key => exact ih.unused fun _ _ huses => huses
    | get key =>
      rw [CacheCall.run]
      rcases c.snd_get key with ⟨heq, hmissed⟩ | ⟨value, hshown, -, heq⟩
      · rw [heq]
        refine ih.unused fun k hk huses => ?_
        obtain ⟨rfl, hnever⟩ := huses
        rcases hmissed with hmissed | hmissed
        · obtain ⟨call, hcall, hhides⟩ := (hhidden _).mp hmissed
          exact hnever call hcall hhides
        · rw [← find?_isSome_iff, hmissed] at hk
          cases hk
      · rw [heq]
        refine inOrderOfUse_moveLast ih fun k => ⟨fun huses => huses.1.symm, fun hk => ?_⟩
        subst hk
        exact ⟨rfl, fun call hcall hhides => hshown ((hhidden k).mpr ⟨call, hcall, hhides⟩)⟩

end Cache

namespace CacheHistory

variable {limit : UInt64} {weigh : StateKey → StoredValue → UInt64}

/-- Whenever a value is kept from reading, 64 bits hold its weight with those of the others. -/
def HasRoom (limit : UInt64) (weigh : StateKey → StoredValue → UInt64)
    (history : CacheHistory) : Prop :=
  ∀ before key value, before ++ [.insertRead key value] <+: history →
    ((Cache.new limit weigh).afterAll before).HasRoom key value

theorem HasRoom.of_concat {history : CacheHistory} {call : CacheCall}
    (h : HasRoom limit weigh (history ++ [call])) :
    history.HasRoom limit weigh ∧ ∀ key value, call = .insertRead key value →
      ((Cache.new limit weigh).afterAll history).HasRoom key value := by
  constructor
  · intro before key value hbefore
    exact h before key value (hbefore.trans (List.prefix_append history [call]))
  · rintro key value rfl
    exact h history key value (List.prefix_refl _)

theorem HasRoom.light {history : CacheHistory} (h : history.HasRoom limit weigh) :
    ((Cache.new limit weigh).afterAll history).Light := by
  induction history using List.reverseRecOn with
  | nil => exact Nat.zero_le _
  | append_singleton history call ih =>
    obtain ⟨hbefore, hcall⟩ := h.of_concat
    rw [Cache.afterAll_concat]
    exact (Cache.counted_afterAll limit weigh history).light_run (ih hbefore) hcall

theorem hasRoom_of_le {history : CacheHistory}
    (h : ∀ key value, .insertRead key value ∈ history →
      limit.toNat + (weigh key value).toNat < UInt64.size) :
    history.HasRoom limit weigh := by
  induction history using List.reverseRecOn with
  | nil =>
    intro before key value hbefore
    simp at hbefore
  | append_singleton history call ih =>
    have hhistory := ih fun key value hmem => h key value (List.mem_append_left _ hmem)
    intro before key value hbefore
    rcases List.prefix_concat_iff.mp hbefore with hall | hbefore
    · obtain ⟨rfl, hcall⟩ := List.append_inj' hall rfl
      cases hcall
      obtain ⟨hlimit, hweigh⟩ := Cache.limits_afterAll (Cache.new limit weigh) before
      refine hhistory.light.hasRoom ?_
      rw [hlimit, hweigh]
      exact h key value (List.mem_append_right _ (List.mem_singleton_self _))
    · exact hhistory before key value hbefore

end CacheHistory

namespace Cache

variable (limit : UInt64) (weigh : StateKey → StoredValue → UInt64)

/-- The values read that a cache keeps through any calls weigh what it counts in 64 bits and stand
in the order of their last use, with no key both written and pruned. Looking one up changes only the
order. If 64 bits have always held the weights, the count is their sum. Keeping one more value is
then refused by nothing but an addition that 64 bits do not hold, and otherwise keeps as many of the
values used last as fit the limit. -/
theorem keeps_longest_recent (history : CacheHistory) :
    let c := (Cache.new limit weigh).afterAll history
    (c.weight = .ofNat (total weigh c.reads) ∧ c.weight ≤ limit ∧ c.Distinct ∧ c.Disjoint ∧
      history.InOrderOfUse (c.reads.map Prod.fst)) ∧
    (∀ key, (c.get key).2.reads.Perm c.reads) ∧
    (history.HasRoom limit weigh →
      c.weight.toNat = total weigh c.reads ∧
      ∀ key value,
        (c.HasRoom key value →
          c.insertReadChecked key value = some (c.insertRead key value) ∧
          (c.insertRead key value).weight ≤ limit ∧
          LongestFitting limit weigh (without c.reads key ++ [(key, value)])
            (c.insertRead key value).reads ∧
          (limit < weigh key value → (c.insertRead key value).reads = [])) ∧
        (¬c.HasRoom key value → c.insertReadChecked key value = none)) := by
  intro c
  have hcounted : c.Counted := counted_afterAll limit weigh history
  obtain ⟨hlimit, hweigh⟩ : c.limit = limit ∧ c.weigh = weigh := limits_afterAll _ history
  refine ⟨⟨?_, ?_, hcounted.distinct, disjoint_afterAll limit weigh history,
    inOrderOfUse_afterAll limit weigh history⟩, hcounted.get_reads_perm, fun hhistory => ?_⟩
  · rw [← hweigh]
    exact hcounted.weight_eq
  · rw [← hlimit]
    exact hcounted.weight_le
  · have hlight : c.Light := hhistory.light
    refine ⟨by rw [← hweigh, hcounted.toNat_weight hlight], fun key value => ?_⟩
    have hchecked := hcounted.insertReadChecked_eq hlight key value
    obtain ⟨kept, heq, hbelow, hlongest⟩ := hcounted.insertRead_eq key value
    rw [hlimit, hweigh] at hbelow hlongest
    refine ⟨fun hroom => ?_, fun hfull => ?_⟩
    · rw [if_pos hroom] at hchecked
      refine ⟨hchecked, ?_⟩
      rw [heq]
      dsimp only
      rw [hweigh]
      exact ⟨hbelow, hlongest hroom, (hlongest hroom).eq_nil⟩
    · rwa [if_neg hfull] at hchecked

/-- Two of three values that each count as one are kept, and the one looked up in between is one of
them. -/
theorem keeps_longest_recent_lookedUp :
    let weigh : StateKey → StoredValue → UInt64 := fun _ _ => 1
    let entry height := (StateKey.blockHashAtHeight height, StoredValue.blockHash default)
    let history : CacheHistory := [.insertRead (entry 1).1 (entry 1).2,
      .insertRead (entry 2).1 (entry 2).2, .get (entry 1).1]
    let c := (Cache.new 2 weigh).afterAll history
    history.HasRoom 2 weigh ∧ c.HasRoom (entry 3).1 (entry 3).2 ∧
      c.weight.toNat = total weigh [entry 2, entry 1] ∧
      (c.insertRead (entry 3).1 (entry 3).2).reads = [entry 1, entry 3] ∧
      LongestFitting 2 weigh [entry 2, entry 1, entry 3] [entry 1, entry 3] := by
  intro weigh entry history c
  have hnext : (c.insertRead (entry 3).1 (entry 3).2).reads = [entry 1, entry 3] := by
    decide +kernel +revert
  have hhistory : history.HasRoom 2 weigh :=
    CacheHistory.hasRoom_of_le fun _ _ _ => (by decide : 2 + 1 < UInt64.size)
  have hroom : c.HasRoom (entry 3).1 (entry 3).2 := by decide
  have hreads : c.reads = [entry 2, entry 1] := rfl
  obtain ⟨hweight, hinsert⟩ := (keeps_longest_recent 2 weigh history).2.2 hhistory
  obtain ⟨-, -, hlongest, -⟩ := (hinsert (entry 3).1 (entry 3).2).1 hroom
  have hothers : without c.reads (entry 3).1 = [entry 2, entry 1] := rfl
  change c.weight.toNat = total weigh c.reads at hweight
  change LongestFitting 2 weigh (without c.reads _ ++ _) (c.insertRead _ _).reads at hlongest
  rw [hreads] at hweight
  rw [hothers, hnext] at hlongest
  exact ⟨hhistory, hroom, hweight, hnext, hlongest⟩

/-- A value whose weight 64 bits do not hold beside another is above the limit and is kept, since the
count comes to less. Reading the other again would take more from the count than it holds. -/
theorem heavy_value_stays :
    let weigh : StateKey → StoredValue → UInt64 :=
      fun key _ => if key == .chainTip then 5 else 0xFFFFFFFFFFFFFFFF
    let tip := (StateKey.chainTip, StoredValue.chainTip default)
    let heavy := (StateKey.blockHashAtHeight 0, StoredValue.blockHash default)
    let c := (Cache.new 10 weigh).afterAll [.insertRead tip.1 tip.2, .insertRead heavy.1 heavy.2]
    c.limit < weigh heavy.1 heavy.2 ∧ c.reads = [tip, heavy] ∧ c.weight = 4 ∧
      total weigh c.reads = 0x10000000000000004 ∧
      ¬LongestFitting c.limit weigh [tip, heavy] c.reads ∧ c.countWithout? tip.1 = none := by
  intro weigh tip heavy c
  have htotal : total weigh c.reads = 0x10000000000000004 := by decide +kernel +revert
  refine ⟨by decide +kernel +revert, by decide +kernel +revert, by decide +kernel +revert, htotal,
    fun h => ?_, by decide +kernel +revert⟩
  have hfits := h.fits
  rw [htotal] at hfits
  exact absurd (Nat.lt_of_le_of_lt hfits c.limit.toNat_lt_size) (by decide)

end Cache

end ContractHost
