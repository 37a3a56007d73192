import ContractHost.Proofs.Host.Exchanges
import ContractHost.Proofs.Host.MethodHashes

/-!
# How calls end

Called by function, by name or by method hash, a host function does the same. If it fails, nothing
is left of the call but that operands are gone, save what a contract had already destroyed of
itself.
-/

namespace ContractHost

variable {σ : Type} [StateReader σ]

theorem HostFunction.ofName?_eq_none {name : String} (h : ∀ f : HostFunction, f.name ≠ name) :
    ofName? name = none := by
  refine List.find?_eq_none.mpr fun f _ hname => h f (eq_of_beq hname)

theorem HostFunction.ofMethodHash?_eq_none {hash : UInt32}
    (h : ∀ f : HostFunction, f.methodHash ≠ hash) : ofMethodHash? hash = none := by
  refine List.find?_eq_none.mpr fun f _ hhash => h f (eq_of_beq hhash)

theorem Call.performByName_name (f : HostFunction) :
    (performByName f.name : Call σ Unit) = perform f := by
  rw [performByName, f.ofName?_name]

theorem Call.performByMethodHash_methodHash (f : HostFunction) :
    (performByMethodHash f.methodHash : Call σ Unit) = perform f := by
  rw [performByMethodHash, f.ofMethodHash?_methodHash]

namespace Session

/-- What a failed call leaves: at most three operands are gone, and unless it was to destroy, only
which values read are kept may have changed of the snapshot. -/
structure OnlyPopped (f : HostFunction) (s s' : Session σ) : Prop where
  machine : ∃ count ≤ 3, count ≤ s.machine.stack.length ∧
    s'.machine = { s.machine with stack := s.machine.stack.drop count }
  service : s'.service = s.service
  heap : s'.heap = s.heap
  delivered : s'.delivered = s.delivered
  effects : f ≠ .contractDestroy → s'.snapshot.effects = s.snapshot.effects
  writes : f ≠ .contractDestroy → s'.snapshot.cache.writes = s.snapshot.cache.writes
  prunes : f ≠ .contractDestroy → s'.snapshot.cache.prunes = s.snapshot.cache.prunes

omit [StateReader σ] in
theorem Popped.onlyPopped {f : HostFunction} {s s' : Session σ} {count : Nat}
    (h : s.Popped f.Spares count s') (hcount : count ≤ f.operandCount) : s.OnlyPopped f s' := by
  have hcache : f ≠ .contractDestroy → ∃ weight reads, s'.snapshot =
      { s.snapshot with cache := { s.snapshot.cache with weight := weight, reads := reads } } := by
    intro hf
    obtain ⟨_, ⟨weight, reads, rfl⟩, hsnapshot⟩ := (h.workspace hf).snapshot
    exact ⟨weight, reads, hsnapshot⟩
  refine ⟨⟨count, hcount.trans f.operandCount_le, h.count_le, h.machine⟩, h.service, h.heap,
    h.delivered, fun hf => ?_, fun hf => ?_, fun hf => ?_⟩ <;>
  · obtain ⟨weight, reads, hsnapshot⟩ := hcache hf
    rw [hsnapshot]

end Session

open Session in
/-- However a host function is called, it does the same. If it fails, all there is to see of it are
missing operands, three at most; a function that destroys may also have pruned some keys. If it
succeeds, its results stand in the place of its operands: one value, or none if it notifies, logs,
stores, deletes or destroys. An unknown name or method hash changes nothing at all. -/
theorem Session.invoke_leaves_no_trace (s : Session σ) (f : HostFunction) :
    let result := (Call.perform f).run s
    s.invoke f = (result.1.isOk, result.2) ∧
    s.invokeByName f.name = s.invoke f ∧
    s.invokeByMethodHash f.methodHash = s.invoke f ∧
    (∀ e, result.1 = .error e → s.OnlyPopped f result.2) ∧
    (result.1 = .ok () → f.operandCount ≤ s.machine.stack.length ∧
      ∃ pushed : List StackValue, pushed.length = f.resultCount ∧
        result.2.machine.stack = pushed ++ s.machine.stack.drop f.operandCount) ∧
    (∀ name, (∀ g : HostFunction, g.name ≠ name) → s.invokeByName name = (false, s)) ∧
    ∀ hash, (∀ g : HostFunction, g.methodHash ≠ hash) → s.invokeByMethodHash hash = (false, s) := by
  intro result
  have hends := Call.perform_ends (σ := σ) f
  refine ⟨rfl, ?_, ?_, fun e he => ?_, fun hok => ?_, fun name hname => ?_, fun hash hhash => ?_⟩
  · rw [invokeByName, Call.performByName_name]
    rfl
  · rw [invokeByMethodHash, Call.performByMethodHash_methodHash]
    rfl
  · obtain ⟨count, hcount, hpopped⟩ := hends.failed s e result.2 (Prod.ext he rfl)
    exact hpopped.onlyPopped hcount
  · have hexchanged := hends.done s () result.2 (Prod.ext hok rfl)
    exact ⟨hexchanged.operands_le, hexchanged.stack⟩
  · rw [invokeByName, Call.performByName, HostFunction.ofName?_eq_none hname]
    rfl
  · rw [invokeByMethodHash, Call.performByMethodHash, HostFunction.ofMethodHash?_eq_none hhash]
    rfl

end ContractHost
