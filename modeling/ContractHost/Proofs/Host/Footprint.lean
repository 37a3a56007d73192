import ContractHost.Proofs.Host.Authority
import ContractHost.Proofs.Value.Handles

/-!
# What calls do to the stack

A host function takes its operands off the stack, checks them and reads, and does only at its end
what shows, which does not fail. So a call that fails has taken some operands off and done nothing
else, and a call that succeeds has put its results in the place of its operands. The handles that it
brings in are those it makes, all of one kind.
-/

namespace ContractHost

namespace HostFunction

def operandCount : HostFunction → Nat
  | runtimePlatform | runtimeGetTrigger | runtimeGetTime | blockchainGetHeight | contractDestroy
  | storageGetContext | storageGetReadOnlyContext => 0
  | blockGetTransaction | storageGet | storageDelete => 2
  | storagePut => 3
  | _ => 1

def resultCount : HostFunction → Nat
  | runtimeNotify | runtimeLog | contractDestroy | storagePut | storageDelete => 0
  | _ => 1

/-- What the handles refer to that a function makes, if it makes any. -/
def makes : HostFunction → Option ObjectKind
  | blockchainGetHeader => some .header
  | blockchainGetBlock => some .block
  | blockchainGetTransaction | blockGetTransactions | blockGetTransaction => some .transaction
  | blockchainGetContract => some .contract
  | contractGetStorageContext | storageGetContext | storageGetReadOnlyContext
  | storageContextAsReadOnly => some .storageContext
  | _ => none

theorem operandCount_le (f : HostFunction) : f.operandCount ≤ 3 := by
  cases f <;> decide

end HostFunction

namespace Session

variable {σ : Type}

/-- A handle is on the stack, in a container or in the notification log. -/
inductive Holds (s : Session σ) (handle : Handle) : Prop
  | stack (h : .handle handle ∈ s.machine.stack)
  | heap (h : s.heap.Holds handle)
  | noted {notification : Notification} (h : notification ∈ s.service.notifications)
      (hstate : notification.state = .handle handle)

/-- The handles that have come in are those of objects with a property. -/
def Gains (new : HostObject → Prop) (s s' : Session σ) : Prop :=
  ∀ handle, s'.Holds handle → s.Holds handle ∨ new handle.object

/-- Operands have come off the stack, and nothing else has changed but the snapshot and its store,
which are related. -/
structure Popped (R : Workspace σ → Workspace σ → Prop) (count : Nat) (s s' : Session σ) :
    Prop where
  count_le : count ≤ s.machine.stack.length
  machine : s'.machine = { s.machine with stack := s.machine.stack.drop count }
  service : s'.service = s.service
  heap : s'.heap = s.heap
  delivered : s'.delivered = s.delivered
  released : s'.released = s.released
  workspace : R s.workspace s'.workspace

abbrev PoppedAtMost (R : Workspace σ → Workspace σ → Prop) (operands : Nat) (s s' : Session σ) :
    Prop :=
  ∃ count ≤ operands, s.Popped R count s'

/-- Results have come onto the stack in the place of operands. -/
structure Exchanged (new : HostObject → Prop) (operands results : Nat) (s s' : Session σ) :
    Prop where
  operands_le : operands ≤ s.machine.stack.length
  stack : ∃ pushed : List StackValue, pushed.length = results ∧
    s'.machine.stack = pushed ++ s.machine.stack.drop operands
  created : s'.service.created = s.service.created
  gains : s.Gains new s'

variable {R : Workspace σ → Workspace σ → Prop} {new : HostObject → Prop} {s s' s'' : Session σ}

theorem Popped.holds {count : Nat} (h : s.Popped R count s') {handle : Handle}
    (hholds : s'.Holds handle) : s.Holds handle := by
  cases hholds with
  | stack hmem =>
    rw [h.machine] at hmem
    exact .stack (List.mem_of_mem_drop hmem)
  | heap hheap =>
    rw [h.heap] at hheap
    exact .heap hheap
  | noted hmem hstate =>
    rw [h.service] at hmem
    exact .noted hmem hstate

theorem Popped.trans [IsPreorder (Workspace σ) R] {count more : Nat} (h : s.Popped R count s')
    (h' : s'.Popped R more s'') : s.Popped R (more + count) s'' where
  count_le := by
    have hmore := h'.count_le
    rw [h.machine, List.length_drop] at hmore
    have hcount := h.count_le
    omega
  machine := by rw [h'.machine, h.machine, List.drop_drop, Nat.add_comm]
  service := h'.service.trans h.service
  heap := h'.heap.trans h.heap
  delivered := h'.delivered.trans h.delivered
  released := h'.released.trans h.released
  workspace := IsTrans.trans _ _ _ h.workspace h'.workspace

theorem Popped.refl [IsPreorder (Workspace σ) R] (s : Session σ) : s.Popped R 0 s :=
  ⟨Nat.zero_le _, rfl, rfl, rfl, rfl, rfl, Std.Refl.refl _⟩

instance [IsPreorder (Workspace σ) R] : IsPreorder (Session σ) (Popped R 0) where
  refl := .refl
  trans _ _ _ := .trans

theorem reading_popped : Reading (Popped R 0) R :=
  ⟨fun _ _ h => ⟨Nat.zero_le _, rfl, rfl, rfl, rfl, rfl, h⟩⟩

theorem Popped.exchanged {count operands results : Nat} (h : s.Popped R count s')
    (h' : s'.Exchanged new operands results s'') :
    s.Exchanged new (operands + count) results s'' where
  operands_le := by
    have hoperands := h'.operands_le
    rw [h.machine, List.length_drop] at hoperands
    have hcount := h.count_le
    omega
  stack := by
    obtain ⟨pushed, hlength, hstack⟩ := h'.stack
    refine ⟨pushed, hlength, ?_⟩
    rw [hstack, h.machine, List.drop_drop, Nat.add_comm]
  created := by rw [h'.created, h.service]
  gains handle hholds := (h'.gains handle hholds).imp_left h.holds

theorem Exchanged.of_eq (hstack : s'.machine.stack = s.machine.stack) (hheap : s'.heap = s.heap)
    (hservice : s'.service = s.service) : s.Exchanged new 0 0 s' where
  operands_le := Nat.zero_le _
  stack := ⟨[], rfl, hstack⟩
  created := congrArg Service.created hservice
  gains handle hholds := by
    refine .inl ?_
    cases hholds with
    | stack hmem => exact .stack (hstack ▸ hmem)
    | heap h => exact .heap (hheap ▸ h)
    | noted hmem hstate => exact .noted (hservice ▸ hmem) hstate

theorem Exchanged.of_push {value : StackValue}
    (hstack : s'.machine.stack = value :: s.machine.stack)
    (hvalue : ∀ handle, .handle handle = value → new handle.object)
    (hheap : ∀ handle, s'.heap.Holds handle → s.heap.Holds handle ∨ new handle.object)
    (hservice : s'.service = s.service) : s.Exchanged new 0 1 s' where
  operands_le := Nat.zero_le _
  stack := ⟨[value], rfl, hstack⟩
  created := congrArg Service.created hservice
  gains handle hholds := by
    cases hholds with
    | stack hmem =>
      rw [hstack] at hmem
      rcases List.mem_cons.mp hmem with heq | hmem
      · exact .inr (hvalue handle heq)
      · exact .inl (.stack hmem)
    | heap h => exact (hheap handle h).imp_left .heap
    | noted hmem hstate => exact .inl (.noted (hservice ▸ hmem) hstate)

end Session

namespace Call

open Session

variable {σ α β : Type}

/-- However the step ends, it has taken one operand at most, and one if it succeeds. -/
structure Pops (R : Workspace σ → Workspace σ → Prop) (step : Call σ α) : Prop where
  failed : FailsIn (PoppedAtMost R 1) step
  done : ∀ s a s', step.run s = (.ok a, s') → s.Popped R 1 s'

/-- A step that fails has only taken operands, and one that succeeds has exchanged all of them for
its results. -/
structure Ends (R : Workspace σ → Workspace σ → Prop) (new : HostObject → Prop)
    (operands results : Nat) (step : Call σ α) : Prop where
  failed : FailsIn (PoppedAtMost R operands) step
  done : ∀ s a s', step.run s = (.ok a, s') → s.Exchanged new operands results s'

variable {R : Workspace σ → Workspace σ → Prop} {new : HostObject → Prop}
  {operands results : Nat}

theorem failsIn_of_check {step : Call σ α} (h : Moves (Popped R 0) step) (operands : Nat) :
    FailsIn (PoppedAtMost R operands) step :=
  fun _ _ _ hrun => ⟨0, Nat.zero_le _, h.run hrun⟩

theorem Ends.cases {step : Call σ α} (h : Ends R new operands results step) (s : Session σ) :
    (∃ e, (step.run s).1 = .error e ∧ s.PoppedAtMost R operands (step.run s).2) ∨
      ∃ a, (step.run s).1 = .ok a ∧ s.Exchanged new operands results (step.run s).2 := by
  cases hrun : step.run s with
  | mk result s' =>
    cases result with
    | error e => exact .inl ⟨e, rfl, h.failed s e s' hrun⟩
    | ok a => exact .inr ⟨a, rfl, h.done s a s' hrun⟩

theorem Ends.of_total {step : Call σ α} (h : ∀ s, ∃ a s', step.run s = (.ok a, s') ∧
    s.Exchanged new operands results s') : Ends R new operands results step where
  failed := .of_total fun s => by
    obtain ⟨a, s', hrun, -⟩ := h s
    exact ⟨a, congrArg Prod.fst hrun⟩
  done s a s' hrun := by
    obtain ⟨b, s'', hrun', hexchanged⟩ := h s
    rw [hrun] at hrun'
    cases hrun'
    exact hexchanged

theorem Ends.of_check {step : Call σ α} (h : Moves (Popped R 0) step) : Ends R new 0 0 step where
  failed := failsIn_of_check h 0
  done s a s' hrun := by
    have hpopped := h.run hrun
    have hstack : s'.machine.stack = s.machine.stack := by
      rw [hpopped.machine]
      rfl
    exact .of_eq hstack hpopped.heap hpopped.service

section

variable [IsPreorder (Workspace σ) R]

theorem failsIn_after (first more : Nat) {step : Call σ α} {next : α → Call σ β}
    (hstep : FailsIn (PoppedAtMost R first) step)
    (hdone : ∀ s a s', step.run s = (.ok a, s') → s.Popped R first s' ∧
      FailsIn (PoppedAtMost R more) (next a)) :
    FailsIn (PoppedAtMost R (more + first)) (step >>= next) := by
  intro s e s' hrun
  rw [run_bind] at hrun
  cases hfirst : step.run s with
  | mk result middle =>
    rw [hfirst] at hrun
    cases result with
    | error e =>
      cases hrun
      obtain ⟨count, hle, hpopped⟩ := hstep s e s' hfirst
      exact ⟨count, Nat.le_add_left_of_le hle, hpopped⟩
    | ok a =>
      obtain ⟨hpopped, hnext⟩ := hdone s a middle hfirst
      obtain ⟨count, hle, hmore⟩ := hnext middle e s' hrun
      exact ⟨count + first, Nat.add_le_add_right hle first, hpopped.trans hmore⟩

theorem Pops.check {step : Call σ α} {next : α → Call σ β} (h : Pops R step)
    (hnext : ∀ a, Moves (Popped R 0) (next a)) : Pops R (step >>= next) where
  failed := failsIn_after 1 0 h.failed fun s a s' hrun =>
    ⟨h.done s a s' hrun, failsIn_of_check (hnext a) 0⟩
  done s b s' hrun := by
    obtain ⟨a, middle, hstep, hrest⟩ := exists_of_run_bind hrun
    exact (h.done s a middle hstep).trans ((hnext a).run hrest)

theorem Pops.after_check {step : Call σ α} {next : α → Call σ β} (h : Moves (Popped R 0) step)
    (hnext : ∀ a, Pops R (next a)) : Pops R (step >>= next) where
  failed := failsIn_after 0 1 (failsIn_of_check h 0) fun s a s' hrun =>
    ⟨h.run hrun, (hnext a).failed⟩
  done s b s' hrun := by
    obtain ⟨a, middle, hstep, hrest⟩ := exists_of_run_bind hrun
    exact (h.run hstep).trans ((hnext a).done middle b s' hrest)

theorem Ends.after_pop {step : Call σ α} {next : α → Call σ β} (h : Pops R step)
    (hnext : ∀ a, Ends R new operands results (next a)) :
    Ends R new (operands + 1) results (step >>= next) where
  failed := failsIn_after 1 operands h.failed fun s a s' hrun =>
    ⟨h.done s a s' hrun, (hnext a).failed⟩
  done s b s' hrun := by
    obtain ⟨a, middle, hstep, hrest⟩ := exists_of_run_bind hrun
    exact (h.done s a middle hstep).exchanged ((hnext a).done middle b s' hrest)

theorem Ends.after_check_of {step : Call σ α} {next : α → Call σ β}
    (h : Moves (Popped R 0) step) (hnext : ∀ s a s', step.run s = (.ok a, s') →
      Ends R new operands results (next a)) : Ends R new operands results (step >>= next) where
  failed := failsIn_after 0 operands (failsIn_of_check h 0) fun s a s' hrun =>
    ⟨h.run hrun, (hnext s a s' hrun).failed⟩
  done s b s' hrun := by
    obtain ⟨a, middle, hstep, hrest⟩ := exists_of_run_bind hrun
    exact (h.run hstep).exchanged ((hnext s a middle hstep).done middle b s' hrest)

theorem Ends.after_check {step : Call σ α} {next : α → Call σ β} (h : Moves (Popped R 0) step)
    (hnext : ∀ a, Ends R new operands results (next a)) :
    Ends R new operands results (step >>= next) :=
  .after_check_of h fun _ a _ _ => hnext a

theorem Ends.throw (e : HostError) :
    Ends R new operands results (throw e : Call σ α) where
  failed := failsIn_of_check (Moves.throw e) operands
  done s a s' hrun := by cases hrun

/-! ## Operands and results -/

theorem pop_pops : Pops R (pop : Call σ StackValue) where
  failed := by
    refine failsIn_after 0 1 (failsIn_of_check Moves.get 0) fun s t s' hget =>
      ⟨Moves.get.run hget, ?_⟩
    split
    · exact failsIn_of_check (Moves.throw _) 1
    · exact .of_total fun _ => ⟨_, rfl⟩
  done s value s' hrun := by
    obtain ⟨rest, hstack, rfl⟩ := pop_ok hrun
    exact ⟨by rw [hstack]; exact Nat.le_add_left 1 _, by rw [hstack]; rfl, rfl, rfl, rfl, rfl,
      Std.Refl.refl _⟩

theorem popBytes_pops : Pops R (popBytes : Call σ Bytes) := by
  refine pop_pops.check fun value => ?_
  split
  · exact .pure _
  · exact .throw _

theorem popInteger_pops : Pops R (popInteger : Call σ Int) := by
  refine pop_pops.check fun value => ?_
  split
  · exact .pure _
  · exact .throw _

theorem popHandle_pops : Pops R (popHandle : Call σ Handle) := by
  refine pop_pops.check fun value => ?_
  split
  · exact .pure _
  · exact .throw _

theorem popObject_pops (kind : ObjectKind) (accessor : HostObject → Option α) :
    Pops R (do expectObject kind accessor (← popHandle) : Call σ α) :=
  popHandle_pops.check fun handle => expectObject_moves kind accessor handle

end

theorem push_ends {value : StackValue} (h : ∀ handle, .handle handle = value → new handle.object) :
    Ends R new 0 1 (push value : Call σ Unit) :=
  .of_total fun _ => ⟨(), _, rfl, .of_push rfl h (fun _ => .inl) rfl⟩

theorem pushObject_ends {object : HostObject} (h : new object) :
    Ends R new 0 1 (pushObject object : Call σ Unit) := by
  refine .of_total fun s => ⟨(), _, rfl, .of_push rfl (fun handle heq => ?_) (fun _ => .inl) rfl⟩
  cases heq
  exact h

theorem pushFound_ends {found : Option HostObject} (h : ∀ object ∈ found, new object) :
    Ends R new 0 1 (pushFound found : Call σ Unit) := by
  cases found with
  | some object => exact pushObject_ends (h object rfl)
  | none => exact push_ends nofun

end Call
end ContractHost
