import ContractHost.Proofs.Value.NestedWriting
import ContractHost.Proofs.Wire.Framing

/-!
# The work list of the encoder

The encoder works off a list of tasks. The containers it has to leave later are those that enclose
the value it is at, each once, so the list does what recursion does; and because every value adds
two bytes at least, the size limit also bounds how many values are entered.
-/

namespace ContractHost

namespace Encoder

/-- The tasks worked off as by `run`, with the number of values entered. -/
def runCounting (heap : Heap) (maxSize : Nat) (tasks : List EncodeTask)
    (path : Std.HashSet ContainerId) (output : Array UInt8) :
    Except EncodeError (Array UInt8) × Nat :=
  match tasks with
  | [] => (.ok output, 0)
  | .leave id :: rest => runCounting heap maxSize rest (path.erase id) output
  | .enter value :: rest =>
    match descend path value with
    | .error e => (.error e, 1)
    | .ok (path, after) =>
      match item heap value with
      | .error e => (.error e, 1)
      | .ok entry =>
        if maxSize < (entry.appendTo output).size then
          (.error (.itemTooLarge (entry.appendTo output).size maxSize), 1)
        else
          let (result, entered) :=
            runCounting heap maxSize (entry.children.map .enter ++ (after ++ rest)) path
              (entry.appendTo output)
          (result, entered + 1)
termination_by (maxSize + 1 - output.size, tasks.length)
decreasing_by
  · apply Prod.Lex.right
    simp
  · apply Prod.Lex.left
    have := entry.size_appendTo output
    omega

theorem runCounting_fst (heap : Heap) (maxSize : Nat) (tasks : List EncodeTask)
    (path : Std.HashSet ContainerId) (output : Array UInt8) :
    (runCounting heap maxSize tasks path output).1 = run heap maxSize tasks path output := by
  fun_induction run heap maxSize tasks path output with
  | case1 => rw [runCounting]
  | case2 path output id rest ih => rw [runCounting, ih]
  | case3 path output value rest e hd => simp only [runCounting, hd]
  | case4 path output value rest path' after hd e hi => simp only [runCounting, hd, hi]
  | case5 path output value rest path' after hd entry hi hlarge =>
    simp only [runCounting, hd, hi, if_pos hlarge]
  | case6 path output value rest path' after hd entry hi hlarge ih =>
    simp only [runCounting, hd, hi, if_neg hlarge]
    exact ih

theorem toList_appendTo (entry : EncodedItem) (output : Bytes) :
    entry.appendTo output.toArray = (output ++ ownBytes entry).toArray := by
  simp [EncodedItem.appendTo, ownBytes]

theorem two_le_length_ownBytes {heap : Heap} {value : StackValue} {entry : EncodedItem}
    (h : item heap value = .ok entry) : 2 ≤ (ownBytes entry).length := by
  have hcount := fun n => VarInt.size_pos n
  cases value <;> cases h <;>
    simp only [ownBytes, List.length_cons, VarBytes.length_write, VarBytes.size, VarInt.length_write,
      List.length_nil] <;>
    grind

theorem runCounting_snd_le (heap : Heap) (maxSize : Nat) (tasks : List EncodeTask)
    (path : Std.HashSet ContainerId) (output : Array UInt8) (hout : output.size ≤ maxSize) :
    2 * (runCounting heap maxSize tasks path output).2 + output.size ≤ maxSize + 2 := by
  fun_induction runCounting heap maxSize tasks path output with
  | case1 => simp only; omega
  | case2 path output id rest ih => exact ih hout
  | case3 path output value rest e hd => simp only; omega
  | case4 path output value rest path' after hd e hi => simp only; omega
  | case5 path output value rest path' after hd entry hi hlarge => simp only; omega
  | case6 path output value rest path' after hd entry hi hlarge result entered hrec ih =>
    have hown := two_le_length_ownBytes hi
    have hsize := entry.size_appendTo output
    rw [hrec] at ih
    have := ih (by omega)
    simp only [ownBytes, List.length_cons] at hown this ⊢
    omega

def Holds (path : Std.HashSet ContainerId) (enclosing : List ContainerId) : Prop :=
  ∀ id, id ∈ path ↔ id ∈ enclosing

private theorem descend_met {path : Std.HashSet ContainerId} {enclosing : List ContainerId}
    {value : StackValue} (hpath : Holds path enclosing)
    (hmet : ¬∀ id ∈ value.container?, id ∉ enclosing) :
    descend path value = .error .cyclicStructure := by
  cases hid : value.container? with
  | none => simp [hid] at hmet
  | some id =>
    have hmem : path.contains id = true := (hpath id).mpr (by simpa [hid] using hmet)
    simp only [descend, hid, hmem, if_true]

private theorem descend_free {path : Std.HashSet ContainerId} {enclosing : List ContainerId}
    {value : StackValue} (hpath : Holds path enclosing)
    (hfree : ∀ id ∈ value.container?, id ∉ enclosing) :
    ∃ inner after, descend path value = .ok (inner, after) ∧
      Holds inner (enclose enclosing value) ∧
      ∀ heap maxSize last rest output, Holds last (enclose enclosing value) →
        ∃ path', Holds path' enclosing ∧
          run heap maxSize (after ++ rest) last output = run heap maxSize rest path' output := by
  cases hid : value.container? with
  | none =>
    have hsame : enclose enclosing value = enclosing := by simp [enclose, hid]
    refine ⟨path, [], by simp only [descend, hid], by rwa [hsame], ?_⟩
    intro heap maxSize last rest output hlast
    exact ⟨last, by rwa [hsame] at hlast, rfl⟩
  | some id =>
    have hout : id ∉ enclosing := hfree id hid
    have hnew : ¬path.contains id = true := fun h => hout ((hpath id).mp h)
    have hcons : enclose enclosing value = id :: enclosing := by simp [enclose, hid]
    refine ⟨path.insert id, [.leave id], by simp only [descend, hid, if_neg hnew], ?_, ?_⟩
    · intro other
      rw [Std.HashSet.mem_insert, hpath other, hcons, List.mem_cons, beq_iff_eq, eq_comm]
    · intro heap maxSize last rest output hlast
      refine ⟨last.erase id, fun other => ?_, by rw [List.singleton_append, run]⟩
      rw [Std.HashSet.mem_erase, hlast other, hcons, List.mem_cons]
      constructor
      · rintro ⟨hne, heq | hmem⟩
        · simp [heq] at hne
        · exact hmem
      · intro hmem
        refine ⟨?_, .inr hmem⟩
        have hne : id ≠ other := fun h => hout (h ▸ hmem)
        simpa using hne

private theorem run_entered {heap : Heap} {maxSize : Nat} {enclosing : List ContainerId}
    (children : List StackValue)
    (hone : ∀ child ∈ children, ∀ output path rest, Holds path enclosing →
      ∃ path', Holds path' enclosing ∧
        run heap maxSize (.enter child :: rest) path output.toArray =
          (writeNested heap maxSize enclosing output child).bind fun out =>
            run heap maxSize rest path' out.toArray)
    (output : Bytes) (path : Std.HashSet ContainerId) (rest : List EncodeTask)
    (hpath : Holds path enclosing) :
    ∃ path', Holds path' enclosing ∧
      run heap maxSize (children.map .enter ++ rest) path output.toArray =
        (children.foldlM (writeNested heap maxSize enclosing) output).bind fun out =>
          run heap maxSize rest path' out.toArray := by
  induction children generalizing output path with
  | nil => exact ⟨path, hpath, rfl⟩
  | cons child children ih =>
    obtain ⟨middle, hmiddle, hrun⟩ :=
      hone child List.mem_cons_self output path (children.map .enter ++ rest) hpath
    cases hchild : writeNested heap maxSize enclosing output child with
    | error e =>
      refine ⟨path, hpath, ?_⟩
      rw [List.map_cons, List.cons_append, hrun, List.foldlM_cons, hchild]
      rfl
    | ok out =>
      obtain ⟨last, hlast, hrest⟩ := ih (fun c hc => hone c (List.mem_cons_of_mem _ hc))
        out middle hmiddle
      refine ⟨last, hlast, ?_⟩
      rw [List.map_cons, List.cons_append, hrun, List.foldlM_cons, hchild]
      exact hrest

/-- Entering a value from the work list writes it as recursion does, and goes on with the rest of
the list on a path that holds the same containers. -/
theorem run_enter (heap : Heap) (maxSize : Nat) (enclosing : List ContainerId) (output : Bytes)
    (value : StackValue) (path : Std.HashSet ContainerId) (rest : List EncodeTask)
    (hpath : Holds path enclosing) :
    ∃ path', Holds path' enclosing ∧
      run heap maxSize (.enter value :: rest) path output.toArray =
        (writeNested heap maxSize enclosing output value).bind fun out =>
          run heap maxSize rest path' out.toArray := by
  induction hroom : heap.room enclosing using Nat.strongRecOn
    generalizing enclosing output value path rest with
  | ind room ih =>
  subst hroom
  rw [writeNested_eq, run]
  by_cases hmet : ¬∀ id ∈ value.container?, id ∉ enclosing
  · rw [if_neg hmet, descend_met hpath hmet]
    exact ⟨path, hpath, rfl⟩
  have hfree := Decidable.not_not.mp hmet
  obtain ⟨inner, after, hdescend, hinner, hleave⟩ := descend_free hpath hfree
  rw [if_pos hfree, hdescend]
  cases hitem : item heap value with
  | error e => exact ⟨path, hpath, rfl⟩
  | ok entry =>
    simp only [toList_appendTo, List.size_toArray]
    by_cases hlarge : maxSize < (output ++ ownBytes entry).length
    · rw [if_pos hlarge, if_pos hlarge]
      exact ⟨path, hpath, rfl⟩
    · rw [if_neg hlarge, if_neg hlarge]
      obtain ⟨last, hlast, hrun⟩ := run_entered entry.children
        (fun child hc output path rest hp =>
          ih _ (room_enclose_lt hfree hitem hc) _ output child path rest hp rfl)
        (output ++ ownBytes entry) inner (after ++ rest) hinner
      cases hbelow : entry.children.foldlM (writeNested heap maxSize (enclose enclosing value))
          (output ++ ownBytes entry) with
      | error e =>
        rw [hrun, hbelow]
        exact ⟨path, hpath, rfl⟩
      | ok out =>
        obtain ⟨path', hpath', hrest⟩ := hleave heap maxSize last rest out.toArray hlast
        rw [hrun, hbelow]
        exact ⟨path', hpath', hrest⟩

/-- The encoder gives what writing by recursion gives. -/
theorem run_eq_writeNested (heap : Heap) (maxSize : Nat) (value : StackValue) :
    (run heap maxSize [.enter value] ∅ #[]).map Array.toList =
      writeNested heap maxSize [] [] value := by
  have hempty : Holds ∅ [] := fun id => by simp
  obtain ⟨path', -, hrun⟩ := run_enter heap maxSize [] [] value ∅ [] hempty
  rw [hrun]
  cases writeNested heap maxSize [] [] value with
  | error e => rfl
  | ok out =>
    change (run heap maxSize [] path' out.toArray).map Array.toList = _
    rw [run]
    rfl

end Encoder

/-- Over any graph of containers the encoder enters at most one value more than half the size limit
and gives what writing by recursion below the enclosing containers gives. It succeeds exactly if
nothing at or inside the value contains itself or is a handle and the whole form fits the limit;
a cycle is reported only where a container really is inside itself. -/
theorem StackValue.encode_graph (heap : Heap) (limits : ValueLimits) (value : StackValue) :
    (∃ entered ≤ limits.maxItemSize.toNat / 2 + 1,
      Encoder.runCounting heap limits.maxItemSize.toNat [.enter value] ∅ #[] =
        (Encoder.run heap limits.maxItemSize.toNat [.enter value] ∅ #[], entered)) ∧
    value.encode heap limits =
      Encoder.writeNested heap limits.maxItemSize.toNat [] [] value ∧
    (∀ bytes, value.encode heap limits = .ok bytes ↔
      (∀ inner, heap.Reaches value inner → ¬heap.ContainsItself inner) ∧
      (∀ inner, heap.Reaches value inner → inner.handle? = none) ∧
      Encoder.form heap [] value = bytes ∧ bytes.length ≤ limits.maxItemSize.toNat) ∧
    (value.encode heap limits = .error .cyclicStructure →
      ∃ inner, heap.Reaches value inner ∧ heap.ContainsItself inner) := by
  have hnested : value.encode heap limits =
      Encoder.writeNested heap limits.maxItemSize.toNat [] [] value :=
    Encoder.run_eq_writeNested heap limits.maxItemSize.toNat value
  refine ⟨⟨(Encoder.runCounting heap limits.maxItemSize.toNat [.enter value] ∅ #[]).2, ?_,
    Prod.ext (Encoder.runCounting_fst ..) rfl⟩, hnested, fun bytes => ?_, fun h => ?_⟩
  · have hle := Encoder.runCounting_snd_le heap limits.maxItemSize.toNat [.enter value] ∅ #[]
      (Nat.zero_le _)
    simp only [List.size_toArray, List.length_nil] at hle ⊢
    omega
  · rw [hnested, Encoder.writeNested_eq_ok_iff heap _ [] [] bytes value (Nat.zero_le _),
      List.nil_append]
    constructor
    · rintro ⟨hwritable, rfl, hfit⟩
      exact ⟨fun inner hr => (hwritable inner hr).2.1, fun inner hr => (hwritable inner hr).1,
        rfl, hfit⟩
    · rintro ⟨hself, hhandle, rfl, hfit⟩
      exact ⟨fun inner hr => ⟨hhandle inner hr, hself inner hr, fun _ _ => List.not_mem_nil⟩,
        rfl, hfit⟩
  · rw [hnested] at h
    obtain ⟨inner, hr, hself | ⟨id, -, hmem⟩⟩ := Encoder.cyclic_of_writeNested heap _ [] [] value h
    · exact ⟨inner, hr, hself⟩
    · exact absurd hmem List.not_mem_nil

end ContractHost
