import ContractHost.Ledger.Chain
import ContractHost.Proofs.Wire.Unambiguous

/-!
# Names commit to every field

The wire form of a transaction is a script of any length and a list of signers of any length, one
behind the other with their counts in front. It can be split in one way only, so that two
transactions of one name are equal or their wire forms are a collision of the digest. The same holds
of headers, and a block has the name of its header.
-/

namespace ContractHost

/-- Two byte strings that show the digest to be no injection. -/
def Digest.Collide (x y : Bytes) : Prop := x ≠ y ∧ Digest.hash x = Digest.hash y

namespace Wire

/-- Two objects are written as `x` and `y` and named after these bytes. The bytes tell the objects
apart, neither is a part of the other, and the names tell the objects apart too unless the digest
collides on these bytes. -/
structure ToldApart {α : Type} [WireWrite α] (name : α → Digest) (a b : α) (x y : Bytes) :
    Prop where
  written : Written a x ∧ Written b y
  named : name a = Digest.hash x ∧ name b = Digest.hash y
  eq_of_bytes_eq : x = y → a = b
  not_proper_prefix : x <+: y → x = y
  name_eq_iff : ¬Digest.Collide x y → (name a = name b ↔ a = b)

theorem digest_serialize {α : Type} [WireWrite α] {value : α} {bytes : Bytes}
    (h : Written value bytes) : Digest.hash ((serialize value).toOption.getD []) =
      Digest.hash bytes := by
  rw [serialize, h]
  rfl

theorem Separates.toldApart {α : Type} [WireWrite α] [LawfulWrite α] {s : α → Prop}
    (h : Separates (WireWrite.encode (α := α)) s)
    (hsize : ∀ value, s value → WireWrite.size value ≤ maxBufferSize) {a b : α} (ha : s a)
    (hb : s b) : ToldApart (fun value => Digest.hash ((serialize value).toOption.getD [])) a b
      (WireWrite.encode a) (WireWrite.encode b) := by
  have hwritten : ∀ value : α, s value → Written value (WireWrite.encode value) :=
    fun value hvalue => LawfulWrite.toBytes_eq value (hsize value hvalue)
  have hname := fun value hvalue => digest_serialize (hwritten value hvalue)
  refine ⟨⟨hwritten a ha, hwritten b hb⟩, ⟨hname a ha, hname b hb⟩, fun heq => ?_,
    fun hpart => ?_, fun hcollide => ⟨fun heq => ?_, fun heq => ?_⟩⟩
  · exact h.eq_of_prefix ha hb (heq ▸ List.prefix_refl _)
  · rw [h.eq_of_prefix ha hb hpart]
  · rw [hname a ha, hname b hb] at heq
    have hbytes : WireWrite.encode a = WireWrite.encode b :=
      Decidable.byContradiction fun hne => hcollide ⟨hne, heq⟩
    exact h.eq_of_prefix ha hb (hbytes ▸ List.prefix_refl _)
  · rw [heq]

end Wire

namespace Transaction

theorem size_signers (signers : List ScriptHash) :
    (signers.map WireWrite.size).foldr (· + ·) 0 = 20 * signers.length := by
  induction signers with
  | nil => rfl
  | cons signer signers ih =>
    have hsigner : WireWrite.size signer = 20 := rfl
    simp only [List.map_cons, List.foldr_cons, List.length_cons, ih, hsigner]
    omega

theorem counts_lt {t : Transaction} (h : WireWrite.size t ≤ Wire.maxBufferSize) :
    t.script.length < UInt64.size ∧ t.signers.length < UInt64.size := by
  have hsize : 4 + 8 + (VarInt.size t.script.length + t.script.length) +
      VarInt.size t.signers.length + 20 * t.signers.length ≤ Wire.maxBufferSize := by
    rw [← size_signers]
    exact h
  have hmax : Wire.maxBufferSize < UInt64.size := by decide
  constructor <;> omega

theorem separates : Wire.Separates (WireWrite.encode (α := Transaction))
    (WireWrite.size · ≤ Wire.maxBufferSize) := by
  intro a b ha hb rest rest' h
  have hcounts := counts_lt ha
  have hcounts' := counts_lt hb
  change encode a ++ rest = encode b ++ rest' at h
  simp only [encode, List.append_assoc] at h
  obtain ⟨hversion, h⟩ := Wire.Delimits.uint32.separates trivial trivial h
  obtain ⟨hnonce, h⟩ := Wire.Delimits.uint64.separates trivial trivial h
  obtain ⟨hscript, h⟩ := VarBytes.separates hcounts.1 hcounts'.1 h
  simp only [← List.append_assoc] at h
  obtain ⟨hsigners, hrest⟩ := Wire.Delimits.scriptHash.separates.counted
    ⟨hcounts.2, fun _ _ => trivial⟩ ⟨hcounts'.2, fun _ _ => trivial⟩ h
  refine ⟨?_, hrest⟩
  cases a
  cases b
  simp only [mk.injEq]
  exact ⟨hversion, hnonce, hscript, hsigners⟩

/-- Transactions that no buffer can hold share a name. -/
theorem hash_of_oversized {t : Transaction} (h : Wire.maxBufferSize < t.size) :
    t.hash = ⟨Digest.hash []⟩ := by
  have hbytes : Wire.serialize t = .error .outOfMemory := by
    change Wire.intoBuffer size encode t = _
    rw [Wire.intoBuffer_eq, if_neg (Nat.not_le.mpr h)]
  rw [hash, hbytes]
  rfl

end Transaction

namespace Header

theorem size_eq (header : Header) : WireWrite.size header = 100 := rfl

theorem separates : Wire.Separates (WireWrite.encode (α := Header)) Wire.Any := by
  intro a b _ _ rest rest' h
  change encode a ++ rest = encode b ++ rest' at h
  simp only [encode, List.append_assoc] at h
  obtain ⟨hversion, h⟩ := Wire.Delimits.uint32.separates trivial trivial h
  obtain ⟨hprev, h⟩ := Wire.Delimits.blockHash.separates trivial trivial h
  obtain ⟨hroot, h⟩ := Wire.Delimits.digest.separates trivial trivial h
  obtain ⟨htimestamp, h⟩ := Wire.Delimits.uint64.separates trivial trivial h
  obtain ⟨hindex, h⟩ := Wire.Delimits.uint32.separates trivial trivial h
  obtain ⟨hconsensus, hrest⟩ := Wire.Delimits.scriptHash.separates trivial trivial h
  refine ⟨?_, hrest⟩
  cases a
  cases b
  simp only [mk.injEq]
  exact ⟨hversion, hprev, hroot, htimestamp, hindex, hconsensus⟩

end Header

/-- The wire forms of transactions that a buffer can hold, and of all headers, tell their objects
apart and do not begin one another, and so the names are equal for equal objects only, unless the
digest collides on these very forms. A block has the name of its header. -/
theorem names_commit_to_fields :
    (∀ a b : Transaction, WireWrite.size a ≤ Wire.maxBufferSize →
      WireWrite.size b ≤ Wire.maxBufferSize →
        ∃ x y, Wire.ToldApart (fun t => t.hash.digest) a b x y) ∧
    (∀ a b : Header, ∃ x y, Wire.ToldApart (fun h => h.hash.digest) a b x y) ∧
    ∀ block : Block, block.hash = block.header.hash := by
  refine ⟨fun a b ha hb => ?_, fun a b => ?_, fun block => rfl⟩
  · exact ⟨_, _, Transaction.separates.toldApart (fun _ h => h) ha hb⟩
  · have hsize : ∀ header : Header, Wire.Any header →
        WireWrite.size header ≤ Wire.maxBufferSize := by
      intro header _
      rw [Header.size_eq]
      decide
    exact ⟨_, _, Header.separates.toldApart hsize trivial trivial⟩

namespace Transaction

def signedOnly : Transaction := ⟨0, 0, [], [⟨.zero 20⟩]⟩

/-- The script consists of what is written of the other's signers. -/
def scriptOnly : Transaction := ⟨0, 0, 1 :: List.replicate 20 0, []⟩

end Transaction

theorem names_commit_to_fields_signedOnly :
    WireWrite.size Transaction.signedOnly ≤ Wire.maxBufferSize ∧
    WireWrite.size Transaction.scriptOnly ≤ Wire.maxBufferSize ∧
    ∃ x y, ¬Digest.Collide x y ∧
      Wire.ToldApart (fun t => t.hash.digest) Transaction.signedOnly Transaction.scriptOnly
        x y := by
  have hsigned : WireWrite.size Transaction.signedOnly ≤ Wire.maxBufferSize := by decide
  have hscript : WireWrite.size Transaction.scriptOnly ≤ Wire.maxBufferSize := by decide
  obtain ⟨x, y, h⟩ := names_commit_to_fields.1 _ _ hsigned hscript
  have hx : x = WireWrite.encode Transaction.signedOnly :=
    Except.ok.inj (h.written.1.symm.trans (LawfulWrite.toBytes_eq _ hsigned))
  have hy : y = WireWrite.encode Transaction.scriptOnly :=
    Except.ok.inj (h.written.2.symm.trans (LawfulWrite.toBytes_eq _ hscript))
  refine ⟨hsigned, hscript, x, y, ?_, h⟩
  rintro ⟨-, hcollide⟩
  rw [hx, hy] at hcollide
  revert hcollide
  decide +kernel

end ContractHost
