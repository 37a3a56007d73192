import Mathlib.Data.List.Forall2
import ContractHost.Serial.Json

/-!
# Spellings of JSON forms

A value has one JSON document that is written and others that say the same. The fields of a record
come in any order or as an array, hexadecimal digits have either case, and a kind without contents
is its name or an object with `null` at its name. All spellings of a value are read as the value.
-/

namespace ContractHost

/-! ## Hexadecimal digits -/

/-- Digits that are the same, but for some that are upper case. -/
def SameDigits : List Char → List Char → Prop :=
  List.Forall₂ fun c d => c = d ∨ c = d.toUpper

private theorem hexValue?_digitChar (n : Fin 16) :
    hexValue? (Nat.digitChar n) = some n.val ∧
      hexValue? (Nat.digitChar n).toUpper = some n.val := by
  decide +revert

private theorem hexValue?_of_digit {c : Char} {n : Nat} (hn : n < 16)
    (h : c = Nat.digitChar n ∨ c = (Nat.digitChar n).toUpper) : hexValue? c = some n := by
  obtain ⟨hlower, hupper⟩ := hexValue?_digitChar ⟨n, hn⟩
  rcases h with rfl | rfl
  · exact hlower
  · exact hupper

theorem ofHexDigits?_of_sameDigits {digits : List Char} {bytes : Bytes}
    (h : SameDigits digits (bytes.flatMap hexDigits)) : ofHexDigits? digits = some bytes := by
  induction bytes generalizing digits with
  | nil =>
    cases h
    rfl
  | cons b bytes ih =>
    cases h with
    | cons hhigh h =>
      cases h with
      | cons hlow h =>
        have hb : b.toNat < 256 := b.toNat_lt
        have hbyte : UInt8.ofNat (16 * (b.toNat / 16) + b.toNat % 16) = b := by
          rw [Nat.div_add_mod]
          exact UInt8.ofNat_toNat
        rw [ofHexDigits?, hexValue?_of_digit (by omega) hhigh, hexValue?_of_digit (by omega) hlow,
          ih h]
        exact congrArg (fun first => some (first :: bytes)) hbyte

/-! ## Records and kinds -/

namespace Json

/-- A document with these fields, whose values are spelled as told: an object that has them in any
order, or the array of the values in order. -/
inductive Record (names : List String) (spelled : List (Json → Prop)) : Json → Prop
  | object {values : List Json} {members : List (String × Json)}
      (hvalues : List.Forall₂ (fun p v => p v) spelled values)
      (hmembers : members.Perm (names.zip values)) : Record names spelled (.object members)
  | array {values : List Json} (hvalues : List.Forall₂ (fun p v => p v) spelled values) :
      Record names spelled (.array values)

/-- A document of a kind with contents that are spelled as told. -/
def Tagged (name : String) (spelled : Json → Prop) (j : Json) : Prop :=
  ∃ contents, spelled contents ∧ j = .object [(name, contents)]

/-- A document of a kind without contents. -/
def Bare (name : String) (j : Json) : Prop := j = .string name ∨ j = .object [(name, .null)]

theorem Record.ofValues {names : List String} {spelled : List (Json → Prop)} (values : List Json)
    (h : List.Forall₂ (fun p v => p v) spelled values) :
    Record names spelled (.object (names.zip values)) := .object h (.refl _)

private theorem lookup_of_mem {members : List (String × Json)} {name : String} {value : Json}
    (hnames : (members.map Prod.fst).Nodup) (h : (name, value) ∈ members) :
    members.lookup name = some value := by
  obtain ⟨before, after, rfl⟩ := List.append_of_mem h
  apply List.lookup_eq_some_iff.mpr
  refine ⟨before, after, rfl, ?_⟩
  intro member hmem
  rw [List.map_append, List.nodup_append] at hnames
  have hother : member.1 ≠ name :=
    hnames.2.2 member.1 (List.mem_map_of_mem hmem) name List.mem_cons_self
  exact bne_iff_ne.mpr hother.symm

private theorem mapM_lookup {members : List (String × Json)} {names : List String}
    {values : List Json} (hlength : values.length = names.length)
    (h : ∀ member ∈ names.zip values, members.lookup member.1 = some member.2) :
    names.mapM (fun name => members.lookup name) = some values := by
  induction names generalizing values with
  | nil =>
    obtain rfl := List.length_eq_zero_iff.mp hlength
    rfl
  | cons name names ih =>
    cases values with
    | nil => cases hlength
    | cons value values =>
      rw [List.zip_cons_cons, List.forall_mem_cons] at h
      rw [List.mapM_cons, h.1, ih (Nat.succ.inj hlength) h.2]
      rfl

theorem Record.fields? {names : List String} {spelled : List (Json → Prop)} {j : Json}
    (h : Record names spelled j) (hnames : names.Nodup) (hlength : spelled.length = names.length) :
    ∃ values, j.fields? names = some values ∧ List.Forall₂ (fun p v => p v) spelled values := by
  cases h with
  | @object values members hvalues hmembers =>
    have hcount : values.length = names.length := hvalues.length_eq.symm.trans hlength
    have hmapped : (names.zip values).map Prod.fst = names :=
      List.map_fst_zip (Nat.le_of_eq hcount.symm)
    have hdistinct : (members.map Prod.fst).Nodup := by
      rw [(hmembers.map Prod.fst).nodup_iff, hmapped]
      exact hnames
    have hmembersLength : members.length = names.length := by
      rw [hmembers.length_eq, List.length_zip, hcount, Nat.min_self]
    refine ⟨values, ?_, hvalues⟩
    rw [Json.fields?, if_pos hmembersLength]
    apply mapM_lookup hcount
    intro member hmem
    exact lookup_of_mem hdistinct (hmembers.mem_iff.mpr hmem)
  | @array values hvalues =>
    exact ⟨values, if_pos (hvalues.length_eq.symm.trans hlength), hvalues⟩

end Json

/-! ## Types -/

/-- The documents that say a value of a type. -/
class JsonSpelling (α : Type) where
  Spelled : α → Json → Prop

/-- What is written of a value is a spelling of it, and all spellings are read as the value. -/
class LawfulJson (α : Type) [JsonForm α] [JsonSpelling α] : Prop where
  spelled_toJson : ∀ x : α, JsonSpelling.Spelled x (JsonForm.toJson x)
  ofJson?_of_spelled : ∀ {x : α} {j : Json}, JsonSpelling.Spelled x j → JsonForm.ofJson? j = some x

namespace LawfulJson

open JsonForm JsonSpelling

variable {α β : Type}

theorem of_exact [JsonForm α] [JsonSpelling α] (hspelled : ∀ (x : α) j, Spelled x j ↔ j = toJson x)
    (hread : ∀ x : α, ofJson? (toJson x) = some x) : LawfulJson α where
  spelled_toJson x := (hspelled x _).mpr rfl
  ofJson?_of_spelled := by
    intro x j h
    rw [(hspelled x j).mp h]
    exact hread x

theorem map [JsonForm α] [JsonSpelling α] [LawfulJson α] {x : α} {j : Json} (make : α → β)
    (h : Spelled x j) : (ofJson? j).map make = some (make x) := by
  rw [ofJson?_of_spelled h]
  rfl

theorem bind [JsonForm α] [JsonSpelling α] [LawfulJson α] {x : α} {j : Json}
    {next : α → Option β} {y : β} (h : Spelled x j) (hnext : next x = some y) :
    (ofJson? j >>= next) = some y := by
  rw [ofJson?_of_spelled h]
  exact hnext

theorem fields {names : List String} {values : List Json} {j : Json}
    {next : List Json → Option β} {y : β} (h : j.fields? names = some values)
    (hnext : next values = some y) : (j.fields? names >>= next) = some y := by
  rw [h]
  exact hnext

private theorem below?_integer {n bound : Nat} (h : n < bound) :
    (Json.integer n).below? bound = some n := by
  rw [Json.below?, if_pos ⟨Int.natCast_nonneg n, Int.ofNat_lt.mpr h⟩, Int.toNat_natCast]

instance : JsonSpelling Bool := ⟨fun b j => j = toJson b⟩

instance : LawfulJson Bool := of_exact (fun _ _ => .rfl) fun _ => rfl

instance : JsonSpelling String := ⟨fun text j => j = toJson text⟩

instance : LawfulJson String := of_exact (fun _ _ => .rfl) fun _ => rfl

instance : JsonSpelling UInt8 := ⟨fun n j => j = toJson n⟩

instance : LawfulJson UInt8 := of_exact (fun _ _ => .rfl) fun n => by
  change ((Json.integer n.toNat).below? UInt8.size).map UInt8.ofNat = some n
  rw [below?_integer n.toNat_lt, Option.map_some, UInt8.ofNat_toNat]

instance : JsonSpelling UInt32 := ⟨fun n j => j = toJson n⟩

instance : LawfulJson UInt32 := of_exact (fun _ _ => .rfl) fun n => by
  change ((Json.integer n.toNat).below? UInt32.size).map UInt32.ofNat = some n
  rw [below?_integer n.toNat_lt, Option.map_some, UInt32.ofNat_toNat]

instance : JsonSpelling UInt64 := ⟨fun n j => j = toJson n⟩

instance : LawfulJson UInt64 := of_exact (fun _ _ => .rfl) fun n => by
  change ((Json.integer n.toNat).below? UInt64.size).map UInt64.ofNat = some n
  rw [below?_integer n.toNat_lt, Option.map_some, UInt64.ofNat_toNat]

instance [JsonSpelling α] : JsonSpelling (List α) where
  Spelled xs j := ∃ items, List.Forall₂ Spelled xs items ∧ j = .array items

instance [JsonForm α] [JsonSpelling α] [LawfulJson α] : LawfulJson (List α) where
  spelled_toJson xs := by
    refine ⟨xs.map toJson, ?_, rfl⟩
    induction xs with
    | nil => exact .nil
    | cons x xs ih => exact .cons (spelled_toJson x) ih
  ofJson?_of_spelled := by
    rintro xs _ ⟨items, hitems, rfl⟩
    change items.mapM ofJson? = some xs
    induction hitems with
    | nil => rfl
    | cons h _ ih =>
      rw [List.mapM_cons, ofJson?_of_spelled h, ih]
      rfl

/-- Fixed byte strings are texts of hexadecimal digits. -/
instance (n : Nat) : JsonSpelling (FixedBytes n) where
  Spelled f j := ∃ text, SameDigits text.toList f.hex.toList ∧ j = .string text

instance (n : Nat) : LawfulJson (FixedBytes n) where
  spelled_toJson f := ⟨f.hex, List.forall₂_same.mpr fun _ _ => .inl rfl, rfl⟩
  ofJson?_of_spelled := by
    rintro f _ ⟨text, hdigits, rfl⟩
    have hbytes : ofHex? text = some f.bytes := by
      rw [FixedBytes.hex, toHex, String.toList_ofList] at hdigits
      exact ofHexDigits?_of_sameDigits hdigits
    change (ofHex? text >>= FixedBytes.ofBytes? n) = some f
    rw [hbytes]
    exact FixedBytes.ofBytes?_bytes f

end LawfulJson

end ContractHost
