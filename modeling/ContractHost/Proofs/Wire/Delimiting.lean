import ContractHost.Proofs.Wire.Shortest

/-!
# Readers that know where a value ends

A reader that delimits the values of a set reads a form of such a value back whatever follows it,
runs out of bytes when any of the form is missing, and accepts nothing but forms. Readers that do
are put together from smaller ones.
-/

namespace ContractHost.Wire

variable {α β : Type}

theorem exists_of_run_map {reader : WireReader α} {f : α → β} {bytes rest : Bytes} {y : β}
    (h : (do return f (← reader) : WireReader β).run bytes = .ok (y, rest)) :
    ∃ x, reader.run bytes = .ok (x, rest) ∧ y = f x := by
  rw [StateT.run_bind] at h
  cases hread : reader.run bytes with
  | error e =>
    rw [hread] at h
    cases h
  | ok found =>
    rw [hread] at h
    cases h
    exact ⟨_, rfl, rfl⟩

/-- The reader takes exactly the forms of the values in `s` off the front. -/
structure Delimits (reader : WireReader α) (s : α → Prop) (Form : α → Bytes → Prop) : Prop where
  read_back : ∀ {x form}, s x → Form x form → ∀ rest, reader.run (form ++ rest) = .ok (x, rest)
  cut_short : ∀ {x form part}, s x → Form x form → part <+: form → part ≠ form →
    reader.run part = .error .earlyEnd
  only_form : ∀ {x bytes rest}, s x → reader.run bytes = .ok (x, rest) →
    ∃ form, Form x form ∧ bytes = form ++ rest

/-- Every value is meant. -/
abbrev Any (_ : α) : Prop := True

namespace Delimits

variable {reader : WireReader α} {s : α → Prop} {Form Form' : α → Bytes → Prop}

theorem congr (h : Delimits reader s Form)
    (hform : ∀ x bytes, s x → (Form' x bytes ↔ Form x bytes)) : Delimits reader s Form' := by
  refine ⟨fun hs hx => h.read_back hs ((hform _ _ hs).mp hx),
    fun hs hx => h.cut_short hs ((hform _ _ hs).mp hx), fun {x} {bytes} {rest} hs hread => ?_⟩
  obtain ⟨form, hx, hbytes⟩ := h.only_form hs hread
  exact ⟨form, (hform _ _ hs).mpr hx, hbytes⟩

theorem pure (a : α) : Delimits (pure a) s fun x bytes => x = a ∧ bytes = [] := by
  refine ⟨?_, ?_, ?_⟩
  · rintro x form - ⟨rfl, rfl⟩ rest
    rfl
  · rintro x form part - ⟨rfl, rfl⟩ hpart hne
    exact absurd (List.prefix_nil.mp hpart) hne
  · intro x bytes rest _ hread
    cases hread
    exact ⟨[], ⟨rfl, rfl⟩, rfl⟩

theorem throw (e : WireError) : Delimits (throw e : WireReader α) s fun _ _ => False := by
  refine ⟨fun _ h => h.elim, fun _ h => h.elim, fun _ hread => ?_⟩
  cases hread

/-- A form of a pair is a form of the one before a form of the other. -/
theorem bind {next : α → WireReader β} {t : β → Prop} {Next : α → β → Bytes → Prop}
    (hr : Delimits reader Any Form) (hn : ∀ a, Delimits (next a) t (Next a)) :
    Delimits (reader >>= next) t fun y bytes =>
      ∃ x front back, Form x front ∧ Next x y back ∧ bytes = front ++ back := by
  refine ⟨?_, ?_, ?_⟩
  · rintro y _ ht ⟨x, front, back, hfront, hback, rfl⟩ rest
    rw [StateT.run_bind, List.append_assoc, hr.read_back trivial hfront]
    exact (hn x).read_back ht hback rest
  · rintro y _ part ht ⟨x, front, back, hfront, hback, rfl⟩ ⟨missing, hmissing⟩ hne
    rw [StateT.run_bind]
    -- the bytes end inside the one form or inside the other
    rcases List.append_eq_append_iff.mp hmissing with ⟨tail, rfl, -⟩ | ⟨inside, rfl, hinside⟩
    · by_cases htail : tail = []
      · subst htail
        rw [List.append_nil] at hfront hne
        have hread := hr.read_back trivial hfront []
        rw [List.append_nil] at hread
        rw [hread]
        refine (hn x).cut_short ht hback List.nil_prefix fun hnil => hne ?_
        rw [← hnil, List.append_nil]
      · have hcut := hr.cut_short trivial hfront (List.prefix_append part tail)
          (fun h => htail (List.self_eq_append_right.mp h))
        rw [hcut]
        rfl
    · rw [hr.read_back trivial hfront]
      exact (hn x).cut_short ht hback ⟨missing, hinside.symm⟩ fun h => hne (congrArg (front ++ ·) h)
  · intro y bytes rest ht hread
    rw [StateT.run_bind] at hread
    cases hfirst : reader.run bytes with
    | error e =>
      rw [hfirst] at hread
      cases hread
    | ok first =>
      obtain ⟨x, middle⟩ := first
      rw [hfirst] at hread
      obtain ⟨front, hfront, rfl⟩ := hr.only_form trivial hfirst
      obtain ⟨back, hback, rfl⟩ := (hn x).only_form ht hread
      exact ⟨front ++ back, ⟨x, front, back, hfront, hback, rfl⟩, (List.append_assoc ..).symm⟩

theorem finish {next : α → WireReader β} {t : β → Prop} {Gives : α → β → Prop}
    (hr : Delimits reader Any Form)
    (hn : ∀ x, Delimits (next x) t fun y bytes => Gives x y ∧ bytes = []) :
    Delimits (reader >>= next) t fun y bytes => ∃ x, Form x bytes ∧ Gives x y := by
  refine (hr.bind hn).congr fun y bytes _ => ?_
  constructor
  · rintro ⟨x, hx, hy⟩
    exact ⟨x, bytes, [], hx, ⟨hy, rfl⟩, (List.append_nil bytes).symm⟩
  · rintro ⟨x, front, _, hx, ⟨hy, rfl⟩, rfl⟩
    rw [List.append_nil]
    exact ⟨x, hx, hy⟩

theorem map (hr : Delimits reader Any Form) (f : α → β) {t : β → Prop} :
    Delimits (do return f (← reader)) t fun y bytes => ∃ x, Form x bytes ∧ y = f x :=
  hr.finish fun x => .pure (f x)

theorem check (hr : Delimits reader Any Form) {f : α → Option β} {e : WireError}
    {next : α → WireReader β} (hsome : ∀ x y, f x = some y → next x = Pure.pure y)
    (hnone : ∀ x, f x = none → next x = MonadExcept.throw e) :
    Delimits (reader >>= next) Any fun y bytes => ∃ x, Form x bytes ∧ f x = some y := by
  refine hr.finish fun x => ?_
  cases hx : f x with
  | none =>
    rw [hnone x hx]
    exact (throw e).congr fun y bytes _ => by simp
  | some y =>
    rw [hsome x y hx]
    exact (pure y).congr fun y' bytes _ => by simp [eq_comm]

/-! ## Bytes and numbers -/

theorem byte : Delimits readByte Any fun b bytes => bytes = [b] := by
  refine ⟨?_, ?_, ?_⟩
  · rintro b _ - rfl rest
    rfl
  · rintro b _ part - rfl hpart hne
    cases part with
    | nil => rfl
    | cons first part =>
      exact absurd (hpart.eq_of_length_le (by simp)) hne
  · rintro b (_ | ⟨first, bytes⟩) rest - hread
    · cases hread
    · cases hread
      exact ⟨[b], rfl, rfl⟩

theorem split (n : Nat) :
    Delimits (split n) Any fun head bytes => bytes = head ∧ head.length = n := by
  refine ⟨?_, ?_, ?_⟩
  · rintro _ head - ⟨rfl, rfl⟩ rest
    exact split_append head rest
  · rintro _ head part - ⟨rfl, rfl⟩ hpart hne
    have hshort : ¬head.length ≤ part.length := fun hle => hne (hpart.eq_of_length_le hle)
    rw [StateT.run, split_eq, if_neg hshort]
  · intro head bytes rest _ hread
    obtain ⟨hlength, hbytes⟩ := split_eq_ok hread
    exact ⟨head, ⟨rfl, hlength⟩, hbytes⟩

theorem number (width : Nat) :
    Delimits (readNat width) Any fun n bytes =>
      n < byteSpan width ∧ bytes = littleEndian width n := by
  refine ((split width).map ofLittleEndian).congr fun n bytes _ => ?_
  constructor
  · rintro ⟨hn, rfl⟩
    refine ⟨_, ⟨rfl, littleEndian_length width n⟩, ?_⟩
    rw [ofLittleEndian_littleEndian, Nat.mod_eq_of_lt hn]
  · rintro ⟨_, ⟨rfl, rfl⟩, rfl⟩
    exact ⟨ofLittleEndian_lt bytes, (littleEndian_ofLittleEndian bytes).symm⟩

theorem word {width : Nat} {ofNat : Nat → α} {toNat : α → Nat} (hlt : ∀ x, toNat x < byteSpan width)
    (hof : ∀ x, ofNat (toNat x) = x) (hto : ∀ n, n < byteSpan width → toNat (ofNat n) = n) :
    Delimits (do return ofNat (← readNat width)) Any
      fun x bytes => bytes = littleEndian width (toNat x) := by
  refine ((number width).map ofNat).congr fun x bytes _ => ?_
  constructor
  · rintro rfl
    exact ⟨toNat x, ⟨hlt x, rfl⟩, (hof x).symm⟩
  · rintro ⟨n, ⟨hn, rfl⟩, rfl⟩
    rw [hto n hn]

/-! ## Framed payloads -/

theorem varInt (max : Nat) :
    Delimits (VarInt.read max) Any fun n bytes => VarInt.Form n bytes ∧ n ≤ max := by
  refine ⟨?_, ?_, ?_⟩
  · rintro n form - ⟨hform, hle⟩ rest
    rw [VarInt.read_form hform, if_neg (Nat.not_lt.mpr hle)]
  · rintro n form part - ⟨hform, -⟩ hpart hne
    have hlength : part.length < form.length :=
      Nat.lt_of_not_le fun hle => hne (hpart.eq_of_length_le hle)
    exact VarInt.read_cutShort ⟨n, form, hform, hpart, hlength⟩ max
  · intro n bytes rest _ hread
    rcases VarInt.exists_form_or_cutShort bytes with ⟨m, form, after, hform, rfl⟩ | hcut
    · rw [VarInt.read_form hform] at hread
      split at hread
      next => cases hread
      next hle =>
        cases hread
        exact ⟨form, ⟨hform, Nat.not_lt.mp hle⟩, rfl⟩
    · rw [VarInt.read_cutShort hcut] at hread
      cases hread

theorem varBytes (max : Nat) :
    Delimits (VarBytes.read max) Any fun payload bytes =>
      payload.length ≤ max ∧ ∃ length, VarInt.Form payload.length length ∧
        bytes = length ++ payload := by
  refine ((varInt max).bind split).congr fun payload bytes _ => ?_
  constructor
  · rintro ⟨hle, length, hlength, rfl⟩
    exact ⟨_, length, payload, ⟨hlength, hle⟩, ⟨rfl, rfl⟩, rfl⟩
  · rintro ⟨n, length, _, ⟨hlength, hle⟩, ⟨rfl, rfl⟩, rfl⟩
    exact ⟨hle, length, hlength, rfl⟩

end Delimits

end ContractHost.Wire
