import Mathlib.Logic.Relation
import ContractHost.Proofs.Value.FirstPass
import ContractHost.Proofs.Value.SecondPass

/-!
# The two passes balance

Every token of a value but the first is a child of another, so there is one token more than there
are children. The first pass counts what is missing to that, and the counts stay small because
every token is paid for with two bytes. The second pass has as many values at hand behind a token as
the first had pending there, so it never lacks a child.
-/

namespace ContractHost

open Decoder

variable {maxArraySize : Nat}

namespace ValueToken

def childTotal : List ValueToken → Nat
  | [] => 0
  | token :: tokens => token.childCount + childTotal tokens

@[simp] theorem childTotal_nil : childTotal [] = 0 := rfl

@[simp] theorem childTotal_cons (token : ValueToken) (tokens : List ValueToken) :
    childTotal (token :: tokens) = token.childCount + childTotal tokens := rfl

@[simp] theorem childTotal_append (front back : List ValueToken) :
    childTotal (front ++ back) = childTotal front + childTotal back := by
  induction front with
  | nil => simp
  | cons token front ih => simp [ih, Nat.add_assoc]

theorem childCount_le_childTotal {token : ValueToken} {tokens : List ValueToken}
    (h : token ∈ tokens) : token.childCount ≤ childTotal tokens := by
  induction h with
  | head => simp
  | tail _ _ ih =>
    rw [childTotal_cons]
    omega

theorem count_le_childCount (kind : ContainerKind) (count : Nat) :
    count ≤ (container kind count).childCount := by
  cases kind <;> simp only [childCount] <;> omega

end ValueToken

open ValueToken

/-! ## The first pass -/

/-- Where the first pass is: how many values are pending, the tokens it took, last one first, and
the bytes that are left. -/
structure Scan where
  pending : Nat
  tokens : List ValueToken
  left : Bytes

namespace Scan

def start (bytes : Bytes) : Scan := ⟨1, [], bytes⟩

/-- A turn of the first pass in numbers of any size: a pending value gives way to the children of
its token. -/
inductive Turn (maxArraySize : Nat) : Scan → Scan → Prop
  | take {pending : Nat} {tokens : List ValueToken} {left rest : Bytes} {token : ValueToken}
      (hread : (readToken maxArraySize).run left = .ok (token, rest)) :
      Turn maxArraySize ⟨pending + 1, tokens, left⟩
        ⟨pending + token.childCount, token :: tokens, rest⟩

/-- The first pass over some bytes gets to a point. -/
def Reached (maxArraySize : Nat) (bytes : Bytes) : Scan → Prop :=
  Relation.ReflTransGen (Turn maxArraySize) (start bytes)

/-- What every point of the first pass over some bytes has in common. -/
structure Balanced (maxArraySize : Nat) (bytes : Bytes) (scan : Scan) : Prop where
  room : Room maxArraySize scan.pending scan.left
  /-- The tokens and the values that are pending are the first value and all children. -/
  counted : scan.tokens.length + scan.pending = 1 + childTotal scan.tokens
  /-- Every token took two bytes or more. -/
  paid : 2 * scan.tokens.length + scan.left.length ≤ bytes.length
  left_suffix : scan.left <:+ bytes
  /-- Something was pending after every earlier token, and before the first. -/
  open_before : ∀ earlier, earlier <:+ scan.tokens → earlier ≠ scan.tokens →
    earlier.length ≤ childTotal earlier

theorem balanced_start {bytes : Bytes} (hroom : Room maxArraySize 1 bytes) :
    Balanced maxArraySize bytes (start bytes) := by
  refine ⟨hroom, rfl, Nat.le_of_eq (Nat.zero_add _), List.suffix_refl _, ?_⟩
  intro earlier hsuffix hne
  exact absurd (List.suffix_nil.mp hsuffix) hne

theorem Balanced.turn {bytes : Bytes} {scan next : Scan} (h : Balanced maxArraySize bytes scan)
    (hturn : Turn maxArraySize scan next) : Balanced maxArraySize bytes next := by
  obtain ⟨hroom, hcounted, hpaid, hsuffix, hopen⟩ := h
  cases hturn with
  | @take pending tokens left rest token hread =>
    obtain ⟨head, hhead, rfl⟩ := form_of_readToken hread
    have htwo := hhead.two_le_length
    have hbelow := (hroom.step hhead).2
    dsimp only at hcounted hpaid hsuffix hopen
    rw [List.length_append] at hpaid
    refine ⟨?_, ?_, ?_, ?_, ?_⟩
    · rwa [Nat.add_comm] at hbelow
    · simp only [List.length_cons, childTotal_cons]
      omega
    · simp only [List.length_cons]
      omega
    · exact (List.suffix_append head rest).trans hsuffix
    · intro earlier hearlier hne
      have hbefore : earlier <:+ tokens := (List.suffix_cons_iff.mp hearlier).resolve_left hne
      by_cases hall : earlier = tokens
      · -- the value that this turn took was pending after all tokens so far
        subst hall
        omega
      · exact hopen earlier hbefore hall

theorem Reached.balanced {bytes : Bytes} {scan : Scan} (hroom : Room maxArraySize 1 bytes)
    (h : Reached maxArraySize bytes scan) : Balanced maxArraySize bytes scan := by
  induction h with
  | refl => exact balanced_start hroom
  | tail _ hturn ih => exact ih.turn hturn

theorem readTokens_turn {scan next : Scan} (hroom : Room maxArraySize scan.pending scan.left)
    (hturn : Turn maxArraySize scan next) :
    readTokens maxArraySize scan.pending scan.tokens scan.left =
      readTokens maxArraySize next.pending next.tokens next.left := by
  cases hturn with
  | take hread =>
    obtain ⟨head, hhead, rfl⟩ := form_of_readToken hread
    dsimp only at hroom ⊢
    rw [readTokens_form hroom hhead, Nat.add_comm]

theorem Reached.flatten_eq {bytes : Bytes} {scan : Scan} (hroom : Room maxArraySize 1 bytes)
    (h : Reached maxArraySize bytes scan) :
    flatten maxArraySize bytes = readTokens maxArraySize scan.pending scan.tokens scan.left := by
  induction h with
  | refl => rfl
  | tail hreached hturn ih =>
    rw [ih]
    exact readTokens_turn (Reached.balanced hroom hreached).room hturn

theorem exists_last (maxArraySize : Nat) (scan : Scan) :
    ∃ last, Relation.ReflTransGen (Turn maxArraySize) scan last ∧
      (last.pending = 0 ∨
        0 < last.pending ∧ ∃ e, (readToken maxArraySize).run last.left = .error e) := by
  obtain ⟨pending, tokens, left⟩ := scan
  induction hsize : left.length using Nat.strongRecOn generalizing pending tokens left with
  | ind size ih =>
    subst hsize
    cases pending with
    | zero => exact ⟨_, .refl, .inl rfl⟩
    | succ pending =>
      cases hread : (readToken maxArraySize).run left with
      | error e => exact ⟨_, .refl, .inr ⟨Nat.succ_pos _, e, hread⟩⟩
      | ok taken =>
        obtain ⟨token, rest⟩ := taken
        have hshorter := length_lt_of_readToken hread
        obtain ⟨last, hreached, hlast⟩ :=
          ih _ hshorter (pending + token.childCount) (token :: tokens) rest rfl
        exact ⟨last, .head (.take hread) hreached, hlast⟩

theorem flatten_ends {bytes : Bytes} (hroom : Room maxArraySize 1 bytes) :
    ∃ last, Reached maxArraySize bytes last ∧
      (last.pending = 0 ∧ flatten maxArraySize bytes = .ok last.tokens ∨
        0 < last.pending ∧ ∃ e, (readToken maxArraySize).run last.left = .error e ∧
          flatten maxArraySize bytes = .error e) := by
  obtain ⟨last, hreached, hend⟩ := exists_last maxArraySize (start bytes)
  have hflatten := Reached.flatten_eq hroom hreached
  refine ⟨last, hreached, ?_⟩
  rcases hend with hzero | ⟨hpending, e, hread⟩
  · rw [hzero, readTokens] at hflatten
    exact .inl ⟨hzero, hflatten⟩
  · obtain ⟨pending, hsucc⟩ := Nat.exists_eq_add_one.mpr hpending
    rw [hsucc, readTokens_succ, hread] at hflatten
    exact .inr ⟨hpending, e, hread, hflatten⟩

theorem Reached.turn_lt {bytes rest : Bytes} {scan : Scan} {token : ValueToken}
    (hroom : Room maxArraySize 1 bytes) (h : Reached maxArraySize bytes scan)
    (hpending : 0 < scan.pending)
    (hread : (readToken maxArraySize).run scan.left = .ok (token, rest)) :
    token.childCount < UInt64.size ∧ scan.pending - 1 + token.childCount < UInt64.size := by
  obtain ⟨pending, tokens, left⟩ := scan
  cases pending with
  | zero => cases hpending
  | succ pending =>
    have hnext : Reached maxArraySize bytes
        ⟨pending + token.childCount, token :: tokens, rest⟩ := h.tail (.take hread)
    have hbelow := (hnext.balanced hroom).room
    unfold Room pendingBound at hbelow
    dsimp only at hbelow ⊢
    omega

end Scan

/-! ## The second pass -/

namespace Decoder

theorem build_length {token : ValueToken} {built built' : List StackValue} {heap heap' : Heap}
    (h : build token built heap = .ok (built', heap')) :
    built'.length + token.childCount = built.length + 1 := by
  obtain ⟨items, rest, hcount, rfl, -, rfl, -⟩ := build_ok h
  rw [List.length_append, List.length_cons, hcount]
  omega

theorem rebuild_length {tokens : List ValueToken} {built built' : List StackValue}
    {heap heap' : Heap} (h : rebuild built heap tokens = .ok (built', heap')) :
    built'.length + childTotal tokens = built.length + tokens.length := by
  induction tokens generalizing built heap with
  | nil =>
    cases h
    rfl
  | cons token tokens ih =>
    rw [rebuild] at h
    cases hbuild : build token built heap with
    | error e =>
      rw [hbuild] at h
      cases h
    | ok result =>
      rw [hbuild] at h
      have hhere := build_length hbuild
      have hbelow := ih h
      rw [childTotal_cons, List.length_cons]
      omega

theorem exists_of_rebuild_error {tokens : List ValueToken} {built : List StackValue} {heap : Heap}
    {e : DecodeError} (h : rebuild built heap tokens = .error e) :
    ∃ behind token before built' later, tokens = behind ++ token :: before ∧
      rebuild built heap behind = .ok (built', later) ∧ build token built' later = .error e := by
  induction tokens generalizing built heap with
  | nil => cases h
  | cons token tokens ih =>
    rw [rebuild] at h
    cases hbuild : build token built heap with
    | error e' =>
      rw [hbuild] at h
      cases h
      exact ⟨[], token, tokens, built, heap, rfl, rfl, hbuild⟩
    | ok result =>
      rw [hbuild] at h
      obtain ⟨behind, last, before, built', later, rfl, hrun, hlast⟩ := ih h
      refine ⟨token :: behind, last, before, built', later, rfl, ?_, hlast⟩
      rw [rebuild, hbuild]
      exact hrun

theorem repeated_of_build_error {token : ValueToken} {built : List StackValue} {heap : Heap}
    {e : DecodeError} (h : build token built heap = .error e)
    (hchildren : token.childCount ≤ built.length) :
    e = .malformedData ∧ ∃ count, token = .container .map count ∧
      ¬StackMap.KeysDistinct (pairUp (built.take (2 * count))) := by
  have hitems := List.length_take_of_le hchildren
  obtain ⟨hok, herror⟩ := build_value heap hitems (built.drop token.childCount)
  rw [List.take_append_drop, h] at hok herror
  by_cases hadmits : token.Admits (built.take token.childCount)
  · cases hok hadmits
  · cases herror hadmits
    refine ⟨rfl, ?_⟩
    cases token with
    | byteString | boolean | integer => exact absurd trivial hadmits
    | container kind count =>
      cases kind with
      | array | struct => exact absurd trivial hadmits
      | map => exact ⟨count, rfl, hadmits⟩

/-- Some tokens, last one first, are those of one value at the front of the bytes. -/
structure Complete (maxArraySize : Nat) (bytes : Bytes) (tokens : List ValueToken) : Prop where
  /-- Every token but the first is a child of another. -/
  counted : tokens.length = 1 + childTotal tokens
  /-- Children are missing behind every earlier token. -/
  counted_late : ∀ earlier, earlier <:+ tokens → earlier ≠ tokens →
    earlier.length < 1 + childTotal earlier
  /-- The first pass ends with these tokens, and took two bytes or more for each. -/
  consumed : ∃ rest, rest <:+ bytes ∧ Scan.Reached maxArraySize bytes ⟨0, tokens, rest⟩ ∧
    2 * tokens.length + rest.length ≤ bytes.length
  /-- There are more tokens, and more than twice as many bytes, than any of them declares. -/
  declared : ∀ kind count, .container kind count ∈ tokens →
    count < tokens.length ∧ 2 * count < bytes.length

/-- The second pass over some tokens has what it needs. -/
structure Provided (tokens : List ValueToken) (heap : Heap) : Prop where
  /-- The pass has the children of every token when it gets there. -/
  children : ∀ behind token before built later, tokens = behind ++ token :: before →
    rebuild [] heap behind = .ok (built, later) → token.childCount ≤ built.length
  /-- The pass ends with one value. -/
  one : ∀ built later, rebuild [] heap tokens = .ok (built, later) → ∃ value, built = [value]
  /-- The only failure is at a map with two equal keys. -/
  failing : ∀ e, reconstruct tokens heap = .error e → e = .malformedData ∧
    ∃ behind count before built later, tokens = behind ++ .container .map count :: before ∧
      rebuild [] heap behind = .ok (built, later) ∧
      ¬StackMap.KeysDistinct (pairUp (built.take (2 * count)))

theorem complete_of_reached {bytes rest : Bytes} {tokens : List ValueToken}
    (hroom : Room maxArraySize 1 bytes)
    (h : Scan.Reached maxArraySize bytes ⟨0, tokens, rest⟩) :
    Complete maxArraySize bytes tokens := by
  obtain ⟨-, hcounted, hpaid, hsuffix, hopen⟩ := h.balanced hroom
  dsimp only at hcounted hpaid hsuffix hopen
  refine ⟨hcounted, ?_, ⟨rest, hsuffix, h, hpaid⟩, ?_⟩
  · intro earlier hearlier hne
    have hmissing := hopen earlier hearlier hne
    omega
  · intro kind count hmem
    have hown := count_le_childCount kind count
    have hall := childCount_le_childTotal hmem
    omega

namespace Complete

variable {bytes : Bytes} {tokens : List ValueToken} {heap : Heap}

/-- Behind a token there are as many values as the first pass had pending there. -/
theorem childCount_le (h : Complete maxArraySize bytes tokens) {behind before : List ValueToken}
    {token : ValueToken} {built : List StackValue} {later : Heap}
    (htokens : tokens = behind ++ token :: before)
    (hrun : rebuild [] heap behind = .ok (built, later)) : token.childCount ≤ built.length := by
  have hbuilt := rebuild_length hrun
  have hcounted := h.counted
  have hmissing : before.length < 1 + childTotal before := by
    apply h.counted_late before
    · rw [htokens]
      exact (List.suffix_cons token before).trans (List.suffix_append behind _)
    · intro hsame
      have hlength := congrArg List.length (hsame.trans htokens)
      rw [List.length_append, List.length_cons] at hlength
      omega
  rw [htokens] at hcounted
  simp only [List.length_append, List.length_cons, List.length_nil, childTotal_append,
    childTotal_cons] at hcounted hbuilt
  omega

theorem exists_one (h : Complete maxArraySize bytes tokens) {built : List StackValue}
    {later : Heap} (hrun : rebuild [] heap tokens = .ok (built, later)) :
    ∃ value, built = [value] := by
  have hbuilt := rebuild_length hrun
  have hcounted := h.counted
  rw [List.length_nil] at hbuilt
  apply List.length_eq_one_iff.mp
  omega

theorem provided (h : Complete maxArraySize bytes tokens) (heap : Heap) :
    Provided tokens heap where
  children _ _ _ _ _ := h.childCount_le
  one _ _ := h.exists_one
  failing := by
    intro e herror
    rw [reconstruct] at herror
    cases hrun : rebuild [] heap tokens with
    | error e' =>
      rw [hrun] at herror
      cases herror
      obtain ⟨behind, token, before, built, later, htokens, hbehind, hbuild⟩ :=
        exists_of_rebuild_error hrun
      have hchildren := h.childCount_le htokens hbehind
      obtain ⟨rfl, count, rfl, hrepeated⟩ := repeated_of_build_error hbuild hchildren
      exact ⟨rfl, behind, count, before, built, later, htokens, hbehind, hrepeated⟩
    | ok result =>
      obtain ⟨built, later⟩ := result
      obtain ⟨value, rfl⟩ := h.exists_one hrun
      rw [hrun] at herror
      cases herror

end Complete

/-- Over bytes that a length of 32 bits can count, with arrays of at most as many elements, no
number of the first pass leaves 64 bits and every turn takes bytes. So the pass ends, with the
tokens of one value or with the error of a token that cannot be read. In the first case no declared
count reaches half the length of the bytes, and the second pass never lacks a child and never has a
value too many: it fails at a map with two equal keys or not at all. -/
theorem passes_balance {limits : ValueLimits} {bytes : Bytes}
    (hlimit : limits.maxArraySize.toNat ≤ 0xFFFFFFFF) (hbytes : bytes.length < 0x100000000) :
    (∀ scan token rest, Scan.Reached limits.maxArraySize.toNat bytes scan → 0 < scan.pending →
      (readToken limits.maxArraySize.toNat).run scan.left = .ok (token, rest) →
      token.childCount < UInt64.size ∧ scan.pending - 1 + token.childCount < UInt64.size ∧
        rest.length < scan.left.length) ∧
    (∃ last, Scan.Reached limits.maxArraySize.toNat bytes last ∧
      (last.pending = 0 ∧ flatten limits.maxArraySize.toNat bytes = .ok last.tokens ∨
        0 < last.pending ∧ ∃ e, (readToken limits.maxArraySize.toNat).run last.left = .error e ∧
          flatten limits.maxArraySize.toNat bytes = .error e)) ∧
    ∀ tokens, flatten limits.maxArraySize.toNat bytes = .ok tokens →
      Complete limits.maxArraySize.toNat bytes tokens ∧ ∀ heap, Provided tokens heap := by
  have hroom := room_of_length_lt hlimit hbytes
  have hends := Scan.flatten_ends hroom
  refine ⟨?_, hends, ?_⟩
  · intro scan token rest hreached hpending hread
    obtain ⟨hchildren, hsum⟩ := hreached.turn_lt hroom hpending hread
    exact ⟨hchildren, hsum, length_lt_of_readToken hread⟩
  · intro tokens hok
    obtain ⟨⟨pending, taken, left⟩, hreached, ⟨hzero, hflatten⟩ | ⟨-, e, -, hflatten⟩⟩ := hends
    · rw [hflatten] at hok
      cases hok
      cases hzero
      have hcomplete := complete_of_reached hroom hreached
      exact ⟨hcomplete, hcomplete.provided⟩
    · rw [hflatten] at hok
      cases hok

/-- A map that has the key true twice, in ten bytes for its five tokens. -/
theorem passes_balance_repeatedKey :
    flatten 2 [0x82, 2, 0x01, 7, 0x80, 0, 0x01, 1, 0x80, 0] =
        .ok [.container .array 0, .boolean true, .container .array 0, .boolean true,
          .container .map 2] ∧
      Complete 2 [0x82, 2, 0x01, 7, 0x80, 0, 0x01, 1, 0x80, 0]
        [.container .array 0, .boolean true, .container .array 0, .boolean true,
          .container .map 2] ∧
      reconstruct [.container .array 0, .boolean true, .container .array 0, .boolean true,
        .container .map 2] .empty = .error .malformedData := by
  have hflatten : flatten 2 [0x82, 2, 0x01, 7, 0x80, 0, 0x01, 1, 0x80, 0] =
      .ok [.container .array 0, .boolean true, .container .array 0, .boolean true,
        .container .map 2] := by
    have hmap : (ValueToken.container .map 2).Form 2 [0x82, 2] :=
      .container .map (.one 2 (by decide)) (by decide)
    have harray : (ValueToken.container .array 0).Form 2 [0x80, 0] :=
      .container .array (.one 0 (by decide)) (by decide)
    have hderives : Derives 2 _ [0x82, 2, 0x01, 7, 0x80, 0, 0x01, 1, 0x80, 0] :=
      .cons hmap rfl (.cons (.boolean 7) rfl .nil (.cons harray rfl .nil
        (.cons (.boolean 1) rfl .nil (.cons harray rfl .nil .nil)))) .nil
    have hroom : Room 2 1 [0x82, 2, 0x01, 7, 0x80, 0, 0x01, 1, 0x80, 0] :=
      room_of_length_lt (by decide) (by decide)
    have hread := (readTokens_derived hderives 0 [] [] hroom).1
    rwa [readTokens] at hread
  obtain ⟨-, -, htokens⟩ := @passes_balance ⟨100, 2⟩
    [0x82, 2, 0x01, 7, 0x80, 0, 0x01, 1, 0x80, 0] (by decide) (by decide)
  exact ⟨hflatten, (htokens _ hflatten).1, rfl⟩

end Decoder

end ContractHost
