import ContractHost.Proofs.Host.Quiet
import ContractHost.Proofs.Value.Integers

/-!
# Operands on the stack

A call that needs an operand takes the top of the stack, and what it finds is pushed in its place.
Plain data may be taken as bytes or as an integer: the integer is the one that the bytes denote.
-/

namespace ContractHost

namespace Session

variable {σ : Type}

def pushed (s : Session σ) (value : StackValue) : Session σ :=
  { s with machine := { s.machine with stack := value :: s.machine.stack } }

theorem pushed_inj {s t : Session σ} {a b : StackValue} (h : s.pushed a = t.pushed b) :
    s = t ∧ a = b := by
  obtain ⟨service, snapshot, store, ⟨stack, scriptHash, container⟩, heap, delivered, released⟩ := s
  obtain ⟨service', snapshot', store', ⟨stack', scriptHash', container'⟩, heap', delivered',
    released'⟩ := t
  simp only [pushed, mk.injEq, Machine.mk.injEq, List.cons.injEq] at h
  obtain ⟨rfl, rfl, rfl, ⟨⟨rfl, rfl⟩, rfl, rfl⟩, rfl, rfl, rfl⟩ := h
  exact ⟨rfl, rfl⟩

/-- A session with a new handle to what was found on its stack, or else an empty byte string. -/
def given (s : Session σ) : Option HostObject → Session σ
  | some object =>
    pushed { s with heap := (s.heap.newHandle object).2 } (s.heap.newHandle object).1
  | none => s.pushed (.byteString [])

end Session

namespace Call

variable {σ : Type} {s s' : Session σ}

theorem run_pop {value : StackValue} {below : List StackValue}
    (hstack : s.machine.stack = value :: below) :
    pop.run s = (.ok value, { s with machine := { s.machine with stack := below } }) := by
  rw [pop, run_bind_ok (run_get s), hstack]
  rfl

theorem run_pop_nil (hstack : s.machine.stack = []) :
    pop.run s = (.error .stackUnderflow, s) := by
  rw [pop, run_bind_ok (run_get s), hstack]
  rfl

theorem run_popBytes {operand : StackValue} {below : List StackValue} {bytes : Bytes}
    (hstack : s.machine.stack = operand :: below) (hbytes : operand.bytes? = some bytes) :
    popBytes.run s = (.ok bytes, { s with machine := { s.machine with stack := below } }) := by
  rw [popBytes, run_bind_ok (run_pop hstack), hbytes]
  rfl

theorem run_popBytes_pushed {operand : StackValue} {bytes : Bytes}
    (hbytes : operand.bytes? = some bytes) : popBytes.run (s.pushed operand) = (.ok bytes, s) :=
  run_popBytes rfl hbytes

theorem run_popBytes_of_none {operand : StackValue} (hbytes : operand.bytes? = none) :
    popBytes.run (s.pushed operand) =
      (.error (.unexpectedOperand .byteString operand.type), s) := by
  rw [popBytes, run_bind_ok (run_pop rfl), hbytes]
  rfl

theorem run_popInteger (s : Session σ) (operand : StackValue) :
    popInteger.run (s.pushed operand) =
      (match operand.integer? with
        | some n => .ok n
        | none => .error (.unexpectedOperand .integer operand.type), s) := by
  rw [popInteger, run_bind_ok (run_pop rfl)]
  cases operand.integer? <;> rfl

theorem run_popHandle_pushed (handle : Handle) :
    popHandle.run (s.pushed (.handle handle)) = (.ok handle, s) := rfl

theorem run_pushFound (found : Option HostObject) (s : Session σ) :
    (pushFound found).run s = (.ok (), s.given found) := by
  cases found <;> rfl

theorem pop_ok {value : StackValue}
    (h : pop.run s = (.ok value, s')) :
    ∃ rest, s.machine.stack = value :: rest ∧
      s' = { s with machine := { s.machine with stack := rest } } := by
  obtain ⟨t, middle, hget, hrest⟩ := exists_of_run_bind h
  cases hget
  split at hrest
  next => cases hrest
  next top rest hstack =>
    cases hrest
    exact ⟨rest, hstack, rfl⟩

theorem popBytes_ok {bytes : Bytes}
    (h : popBytes.run s = (.ok bytes, s')) :
    ∃ operand rest, s.machine.stack = operand :: rest ∧ operand.bytes? = some bytes ∧
      s' = { s with machine := { s.machine with stack := rest } } := by
  obtain ⟨operand, middle, hpop, hbytes⟩ := exists_of_run_bind h
  obtain ⟨rest, hstack, rfl⟩ := pop_ok hpop
  split at hbytes
  next found hfound =>
    cases hbytes
    exact ⟨operand, rest, hstack, hfound, rfl⟩
  next => cases hbytes

theorem popHandle_ok {handle : Handle}
    (h : popHandle.run s = (.ok handle, s')) :
    ∃ rest, s.machine.stack = .handle handle :: rest ∧
      s' = { s with machine := { s.machine with stack := rest } } := by
  obtain ⟨value, middle, hpop, hvalue⟩ := exists_of_run_bind h
  obtain ⟨rest, hstack, rfl⟩ := pop_ok hpop
  split at hvalue
  next found hfound =>
    cases hvalue
    obtain rfl : value = .handle handle := by
      cases value <;> cases hfound
      rfl
    exact ⟨rest, hstack, rfl⟩
  next => cases hvalue

theorem expectObject_ok {α : Type} {kind : ObjectKind} {accessor : HostObject → Option α}
    {handle : Handle} {a : α}
    (h : (expectObject kind accessor handle).run s = (.ok a, s')) :
    accessor handle.object = some a ∧ s' = s := by
  rw [expectObject] at h
  split at h
  next hobject =>
    cases h
    exact ⟨hobject, rfl⟩
  next => cases h

theorem popObject_ok {α : Type} {kind : ObjectKind} {accessor : HostObject → Option α}
    {a : α}
    (h : (do expectObject kind accessor (← popHandle) : Call σ α).run s = (.ok a, s')) :
    ∃ handle rest, s.machine.stack = .handle handle :: rest ∧ accessor handle.object = some a ∧
      s' = { s with machine := { s.machine with stack := rest } } := by
  obtain ⟨handle, middle, hhandle, hexpect⟩ := exists_of_run_bind h
  obtain ⟨rest, hstack, rfl⟩ := popHandle_ok hhandle
  obtain ⟨hobject, rfl⟩ := expectObject_ok hexpect
  exact ⟨handle, rest, hstack, hobject, rfl⟩

theorem onSnapshot_ok {α : Type} {step : SnapshotM σ α} {a : α}
    (h : (onSnapshot step).run s = (.ok a, s')) :
    step.run s.workspace = (.ok a, s'.workspace) ∧ s'.machine = s.machine := by
  rw [run_onSnapshot] at h
  obtain ⟨hresult, rfl⟩ := Prod.mk.inj h
  cases hstep : step.run s.workspace with
  | mk result w =>
    rw [hstep] at hresult
    cases result with
    | error e => cases hresult
    | ok b =>
      cases hresult
      exact ⟨rfl, rfl⟩

end Call

theorem StackValue.integer?_eq (value : StackValue) :
    value.integer? = value.bytes?.map TwosComplement.read := by
  cases value with
  | byteString bytes => rfl
  | boolean flag => cases flag <;> rfl
  | integer n => exact congrArg some (TwosComplement.read_write n).symm
  | handle | array | struct | map => rfl

open TwosComplement in
/-- Every integer has one shortest form, and what bytes denote neither needs more bytes than these
nor changes when their sign is repeated. Byte strings, flags and integers are taken off the stack
as bytes and as the integer that the bytes denote; nothing else is taken as either. -/
theorem Call.integer_operands_cohere {σ : Type} :
    (∀ n : Int, read (write n) = n ∧ Shortest (write n)) ∧
    (∀ bytes, (∀ n, Denotes bytes n ↔ n = read bytes) ∧
      (write (read bytes)).length ≤ bytes.length ∧
      ∀ count, read (bytes ++ List.replicate count (signByte bytes)) = read bytes) ∧
    ∀ value : StackValue, value.integer? = value.bytes?.map read ∧
      (value.bytes?.isSome ↔ value.type ∈ [.byteString, .boolean, .integer]) ∧
      ∀ s : Session σ,
        popBytes.run (s.pushed value) = (match value.bytes? with
          | some bytes => .ok bytes
          | none => .error (.unexpectedOperand .byteString value.type), s) ∧
        popInteger.run (s.pushed value) = (match value.bytes? with
          | some bytes => .ok (read bytes)
          | none => .error (.unexpectedOperand .integer value.type), s) := by
  refine ⟨?_, ?_, ?_⟩
  · intro n
    have hback := read_write n
    refine ⟨hback, shortest_iff.mpr ?_⟩
    rw [hback]
  · intro bytes
    exact ⟨fun _ => denotes_iff, length_write_read_le bytes, read_signExtend bytes⟩
  · intro value
    refine ⟨value.integer?_eq, ?_, ?_⟩
    · cases value <;> simp [StackValue.bytes?, StackValue.type]
    · intro s
      constructor
      · cases hbytes : value.bytes? with
        | none => exact run_popBytes_of_none hbytes
        | some bytes => exact run_popBytes_pushed hbytes
      · rw [run_popInteger, value.integer?_eq]
        cases value.bytes? <;> rfl

/-- One byte holds the integers from -128 to 127, and zero needs none. -/
example : TwosComplement.write 127 = [0x7F] ∧ TwosComplement.write 128 = [0x80, 0x00] ∧
    TwosComplement.write (-128) = [0x80] ∧ TwosComplement.write 0 = [] := by decide

end ContractHost
