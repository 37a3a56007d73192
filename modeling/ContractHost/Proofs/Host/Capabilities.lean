import Mathlib.Data.List.Infix
import ContractHost.Proofs.Host.Events
import ContractHost.Proofs.Host.Exchanges

/-!
# Where storage contexts come from

Four functions make storage contexts, each for a contract that the state of the session names. The
virtual machine only passes handles on. So every context anywhere in a session is one that a call
made, and one to write through was made for the contract that was running, or for a contract that
the running one was last recorded to have created.
-/

namespace ContractHost

def SessionEvent.creator? (contract : ScriptHash) : SessionEvent → Option ScriptHash
  | .created recorded creator => if recorded = contract then some creator else none
  | _ => none

namespace Session

variable {σ : Type}

/-- The contexts that a function may give, in the state in which it is called. -/
inductive Mints (s : Session σ) : HostFunction → StorageContext → Prop
  | getContext : Mints s .storageGetContext ⟨s.machine.scriptHash, false⟩
  | getReadOnlyContext : Mints s .storageGetReadOnlyContext ⟨s.machine.scriptHash, true⟩
  | asReadOnly {operand : Handle} {rest : List StackValue} {context : StorageContext}
      (hstack : s.machine.stack = .handle operand :: rest)
      (hobject : operand.object = .storageContext context) :
      Mints s .storageContextAsReadOnly ⟨context.scriptHash, true⟩
  | ofCreated {operand : Handle} {rest : List StackValue} {contract : ContractState}
      (hstack : s.machine.stack = .handle operand :: rest)
      (hobject : operand.object = .contract contract)
      (hcreator : s.service.created[contract.scriptHash]? = some s.machine.scriptHash) :
      Mints s .contractGetStorageContext ⟨contract.scriptHash, false⟩

/-- A call has left a handle to a context on top of the stack. -/
structure Gave [StateReader σ] (s : Session σ) (f : HostFunction) (handle : Handle)
    (context : StorageContext) (s' : Session σ) : Prop where
  mints : s.Mints f context
  object : handle.object = .storageContext context
  succeeded : (Call.perform f).run s = (.ok (), s')
  top : ∃ rest, s'.machine.stack = .handle handle :: rest

/-- The creator that was last recorded for a contract, in a run or before it. -/
def lastCreator (s : Session σ) (events : List SessionEvent) (contract : ScriptHash) :
    Option ScriptHash :=
  (events.reverse.findSome? (·.creator? contract)).or s.service.created[contract]?

/-- The virtual machine goes on with no handles but such as were held before, then or earlier. -/
def PassesHandlesOn [StateReader σ] (s : Session σ) (events : List SessionEvent) : Prop :=
  ∀ before machine heap rest, events = before ++ .machine machine heap :: rest →
    ∀ handle, (.handle handle ∈ machine.stack ∨ heap.Holds handle) →
      ∃ earlier, earlier <+: before ∧ (s.afterAll earlier).Holds handle

end Session

namespace Call

open Session

variable {σ : Type}

theorem holds_of_pushObject {object : HostObject} {s : Session σ} {handle : Handle}
    (h : ((pushObject object).run s).2.Holds handle) :
    s.Holds handle ∨ handle = ⟨s.heap.handleCount, object⟩ := by
  cases h with
  | stack hmem =>
    rcases List.mem_cons.mp hmem with heq | hmem
    · cases heq
      exact .inr rfl
    · exact .inl (.stack hmem)
  | heap h => exact .inl (.heap h)
  | noted hmem hstate => exact .inl (.noted hmem hstate)

theorem holds_of_rest {s : Session σ} {value : StackValue} {rest : List StackValue}
    (hstack : s.machine.stack = value :: rest) {handle : Handle}
    (h : { s with machine := { s.machine with stack := rest } }.Holds handle) : s.Holds handle := by
  cases h with
  | stack hmem => exact .stack (hstack ▸ List.mem_cons_of_mem _ hmem)
  | heap h => exact .heap h
  | noted hmem hstate => exact .noted hmem hstate

variable [StateReader σ]

/-- What a function that makes contexts gives is the only handle that may be new. -/
theorem perform_gave {f : HostFunction} (hmakes : f.makes = some .storageContext)
    {s s' : Session σ} (hrun : (perform f).run s = (.ok (), s')) :
    ∃ handle context, s.Gave f handle context s' ∧
      ∀ other, s'.Holds other → s.Holds other ∨ other = handle := by
  cases f with
  | storageGetContext =>
    cases hrun
    exact ⟨_, _, ⟨.getContext, rfl, rfl, _, rfl⟩, fun other => holds_of_pushObject⟩
  | storageGetReadOnlyContext =>
    cases hrun
    exact ⟨_, _, ⟨.getReadOnlyContext, rfl, rfl, _, rfl⟩, fun other => holds_of_pushObject⟩
  | storageContextAsReadOnly =>
    obtain ⟨operand, middle, hpop, hrest⟩ := exists_of_run_bind hrun
    obtain ⟨rest, hstack, rfl⟩ := popHandle_ok hpop
    obtain ⟨context, middle, hexpect, hgive⟩ := exists_of_run_bind hrest
    obtain ⟨hobject, rfl⟩ := expectObject_ok hexpect
    obtain ⟨id, object⟩ := operand
    cases object <;> cases hobject
    split at hgive
    next hreadOnly =>
      cases hgive
      obtain ⟨owner, readOnly⟩ := context
      cases hreadOnly
      refine ⟨_, _, ⟨.asReadOnly hstack rfl, rfl, hrun, _, rfl⟩, fun other hholds => .inl ?_⟩
      cases hholds with
      | stack hmem => exact .stack (hstack ▸ hmem)
      | heap h => exact .heap h
      | noted hmem hstate => exact .noted hmem hstate
    next =>
      cases hgive
      exact ⟨_, _, ⟨.asReadOnly hstack rfl, rfl, hrun, _, rfl⟩, fun other hholds =>
        (holds_of_pushObject hholds).imp_left (holds_of_rest hstack)⟩
  | contractGetStorageContext =>
    obtain ⟨contract, middle, hpop, hrest⟩ := exists_of_run_bind hrun
    obtain ⟨operand, rest, hstack, hobject, rfl⟩ := popObject_ok hpop
    obtain ⟨id, object⟩ := operand
    cases object <;> cases hobject
    obtain ⟨caller, middle, hcaller, hrest⟩ := exists_of_run_bind hrest
    cases hcaller
    obtain ⟨context, middle, hcontext, hgive⟩ := exists_of_run_bind hrest
    obtain ⟨_, _, hget, hcontext⟩ := exists_of_run_bind hcontext
    cases hget
    dsimp only at hcontext
    split at hcontext
    next hcreator =>
      cases hcontext
      cases hgive
      exact ⟨_, _, ⟨.ofCreated hstack rfl hcreator, rfl, hrun, _, rfl⟩, fun other hholds =>
        (holds_of_pushObject hholds).imp_left (holds_of_rest hstack)⟩
    next => cases hcontext
  | _ => cases hmakes

end Call

namespace Session

open Call

variable {σ : Type} [StateReader σ]

theorem gains_after_call (s : Session σ) (f : HostFunction) :
    s.Gains (fun object => f.makes = some object.kind) (s.after (.call f)) := by
  rcases (perform_ends f).cases s with ⟨e, -, count, -, hpopped⟩ | ⟨a, -, hexchanged⟩
  · exact fun handle hholds => .inl (hpopped.holds hholds)
  · exact hexchanged.gains

theorem holds_after_call {s : Session σ} {f : HostFunction} {handle : Handle}
    (h : (s.after (.call f)).Holds handle) {context : StorageContext}
    (hobject : handle.object = .storageContext context) :
    s.Holds handle ∨ s.Gave f handle context (s.after (.call f)) := by
  rcases s.gains_after_call f handle h with hheld | hmakes
  · exact .inl hheld
  rcases (perform_ends f).cases s with ⟨e, -, count, -, hpopped⟩ | ⟨a, hok, -⟩
  · exact .inl (hpopped.holds h)
  · rw [hobject] at hmakes
    have hrun : (perform f).run s = (.ok (), s.after (.call f)) := Prod.ext hok rfl
    obtain ⟨given, given', hgave, hnew⟩ := perform_gave hmakes hrun
    refine (hnew handle h).imp_right fun heq => ?_
    subst heq
    rw [hgave.object] at hobject
    cases hobject
    exact hgave

theorem created_after_call (s : Session σ) (f : HostFunction) :
    (s.after (.call f)).service.created = s.service.created := by
  rcases (perform_ends f).cases s with ⟨e, -, count, -, hpopped⟩ | ⟨a, -, hexchanged⟩
  · exact congrArg Service.created hpopped.service
  · exact hexchanged.created

theorem afterAll_concat (s : Session σ) (events : List SessionEvent) (event : SessionEvent) :
    s.afterAll (events ++ [event]) = (s.afterAll events).after event := by
  rw [afterAll, List.foldl_append]
  rfl

theorem created_afterAll (s : Session σ) (events : List SessionEvent) (contract : ScriptHash) :
    (s.afterAll events).service.created[contract]? = s.lastCreator events contract := by
  induction events using List.reverseRecOn with
  | nil => rfl
  | append_singleton events event ih =>
    rw [afterAll_concat, lastCreator, List.reverse_concat, List.findSome?_cons]
    cases event with
    | call f =>
      rw [created_after_call]
      exact ih
    | machine machine heap => exact ih
    | created recorded creator =>
      change ((s.afterAll events).service.created.insert recorded creator)[contract]? = _
      simp only [Std.TreeMap.getElem?_insert, Std.LawfulEqCmp.compare_eq_iff_eq,
        SessionEvent.creator?]
      split
      · rfl
      · exact ih

theorem PassesHandlesOn.of_concat {s : Session σ} {events : List SessionEvent}
    {event : SessionEvent} (h : s.PassesHandlesOn (events ++ [event])) :
    s.PassesHandlesOn events := by
  intro before machine heap rest hevents
  refine h before machine heap (rest ++ [event]) ?_
  rw [hevents, List.append_assoc, List.cons_append]

/-- A context held at any point of a run was given by a call before. -/
theorem exists_gave {s : Session σ} {events : List SessionEvent}
    (hstart : ∀ handle, s.Holds handle → handle.object.kind ≠ .storageContext)
    (hmachine : s.PassesHandlesOn events) {reached : List SessionEvent}
    (hreached : reached <+: events) {handle : Handle} {context : StorageContext}
    (hholds : (s.afterAll reached).Holds handle)
    (hobject : handle.object = .storageContext context) :
    ∃ before f, before ++ [.call f] <+: reached ∧
      (s.afterAll before).Gave f handle context (s.afterAll (before ++ [.call f])) := by
  -- The machine may bring back a handle from any time before, so each point reached is covered.
  induction events using List.reverseRecOn generalizing reached with
  | nil =>
    obtain rfl := List.prefix_nil.mp hreached
    exact absurd (by rw [hobject]; rfl) (hstart handle hholds)
  | append_singleton events event ih =>
    rcases List.prefix_concat_iff.mp hreached with rfl | hearlier
    · have hcarry : ∀ {reached'}, reached' <+: events → (s.afterAll reached').Holds handle →
          ∃ before f, before ++ [.call f] <+: events ++ [event] ∧
            (s.afterAll before).Gave f handle context (s.afterAll (before ++ [.call f])) := by
        intro reached' hwithin hheld
        obtain ⟨before, f, hbefore, hgave⟩ := ih hmachine.of_concat hwithin hheld
        exact ⟨before, f, hbefore.trans (hwithin.trans (List.prefix_append _ _)), hgave⟩
      rw [afterAll_concat] at hholds
      cases event with
      | call f =>
        rcases holds_after_call hholds hobject with hheld | hgave
        · exact hcarry List.prefix_rfl hheld
        · refine ⟨events, f, List.prefix_rfl, ?_⟩
          rwa [afterAll_concat]
      | machine machine heap =>
        have hpassed := hmachine events machine heap [] rfl handle
        cases hholds with
        | stack hmem =>
          obtain ⟨earlier, hwithin, hheld⟩ := hpassed (.inl hmem)
          exact hcarry hwithin hheld
        | heap h =>
          obtain ⟨earlier, hwithin, hheld⟩ := hpassed (.inr h)
          exact hcarry hwithin hheld
        | noted hmem hstate => exact hcarry List.prefix_rfl (.noted hmem hstate)
      | created recorded creator =>
        refine hcarry List.prefix_rfl ?_
        cases hholds with
        | stack hmem => exact .stack hmem
        | heap h => exact .heap h
        | noted hmem hstate => exact .noted hmem hstate
    · exact ih hmachine.of_concat hearlier hholds

/-- Contexts are neither forged nor upgraded. In a run that starts with none, whose machine passes
handles on but makes none, every context to write through that is held in the end, wherever it is,
was given by a call: for the contract that was running, or for a contract whose creator by the last
record was the running one. Calls that give a read-only context give it for the running contract or
for that of their operand. A context held after a call but not before is what the call gave, and
nothing read from bytes has handles in it. -/
theorem context_provenance {s : Session σ} {events : List SessionEvent}
    (hstart : ∀ handle, s.Holds handle → handle.object.kind ≠ .storageContext)
    (hmachine : s.PassesHandlesOn events) :
    (∀ handle contract, (s.afterAll events).Holds handle →
      handle.object = .storageContext ⟨contract, false⟩ →
      ∃ before f, before ++ [.call f] <+: events ∧
        (s.afterAll before).Gave f handle ⟨contract, false⟩ (s.afterAll (before ++ [.call f])) ∧
        (f = .storageGetContext ∧ contract = (s.afterAll before).machine.scriptHash ∨
          f = .contractGetStorageContext ∧
            s.lastCreator before contract = some (s.afterAll before).machine.scriptHash)) ∧
    (∀ t t' : Session σ, (perform .storageGetReadOnlyContext).run t = (.ok (), t') →
      ∃ handle rest, t'.machine.stack = .handle handle :: rest ∧
        handle.object = .storageContext ⟨t.machine.scriptHash, true⟩) ∧
    (∀ t t' : Session σ, (perform .storageContextAsReadOnly).run t = (.ok (), t') →
      ∃ operand below context handle rest, t.machine.stack = .handle operand :: below ∧
        operand.object = .storageContext context ∧ t'.machine.stack = .handle handle :: rest ∧
        handle.object = .storageContext ⟨context.scriptHash, true⟩) ∧
    (∀ (t : Session σ) f handle context, (t.after (.call f)).Holds handle →
      handle.object = .storageContext context →
        t.Holds handle ∨ t.Gave f handle context (t.after (.call f))) ∧
    ∀ (t : Session σ) handle, (t.after (.call .runtimeDeserialize)).Holds handle →
      t.Holds handle := by
  refine ⟨fun handle contract hholds hobject => ?_, fun t t' hrun => ?_, fun t t' hrun => ?_,
    fun t f handle context hholds hobject => holds_after_call hholds hobject,
    fun t handle hholds => ?_⟩
  · obtain ⟨before, f, hwithin, hgave⟩ :=
      exists_gave hstart hmachine List.prefix_rfl hholds hobject
    refine ⟨before, f, hwithin, hgave, ?_⟩
    cases hgave.mints with
    | getContext => exact .inl ⟨rfl, rfl⟩
    | ofCreated hstack hobject hcreator =>
      rw [created_afterAll] at hcreator
      exact .inr ⟨rfl, hcreator⟩
  · obtain ⟨handle, context, hgave, -⟩ := perform_gave rfl hrun
    obtain ⟨rest, htop⟩ := hgave.top
    have hobject := hgave.object
    cases hgave.mints
    exact ⟨handle, rest, htop, hobject⟩
  · obtain ⟨handle, context, hgave, -⟩ := perform_gave rfl hrun
    obtain ⟨rest, htop⟩ := hgave.top
    have hobject := hgave.object
    cases hgave.mints with
    | asReadOnly hstack hoperand =>
      exact ⟨_, _, _, handle, rest, hstack, hoperand, htop, hobject⟩
  · exact (t.gains_after_call .runtimeDeserialize handle hholds).resolve_right nofun

private theorem not_holds_of_no_containers (count : Nat) (handle : Handle) :
    ¬Heap.Holds ⟨#[], #[], count⟩ handle := by
  rintro ⟨container, hmem⟩
  cases container <;> simp [Heap.children, Heap.items, Heap.pairs, StackMap.empty] at hmem

/-- A context that another contract has in an array was given before. -/
theorem context_provenance_nested :
    let s : Session MemoryStore := ⟨.new .application default .session, .new, .empty,
      ⟨[], default, none⟩, .empty, [], []⟩
    let handle : Handle := ⟨0, .storageContext ⟨default, false⟩⟩
    let events : List SessionEvent := [.call .storageGetContext,
      .machine ⟨[.array 0], ⟨⟨List.replicate 20 1, rfl⟩⟩, none⟩
        (Heap.newSequence ⟨#[], #[], 1⟩ [.handle handle]).2]
    (s.afterAll events).Holds handle ∧ ∃ before f, before ++ [.call f] <+: events ∧
      (s.afterAll before).Gave f handle ⟨default, false⟩ (s.afterAll (before ++ [.call f])) := by
  intro s handle events
  have hstart : ∀ handle, s.Holds handle → handle.object.kind ≠ .storageContext := by
    intro handle hholds
    cases hholds with
    | stack hmem => cases hmem
    | heap h => exact absurd h (not_holds_of_no_containers 0 handle)
    | noted hmem => cases hmem
  have hmachine : s.PassesHandlesOn events := by
    intro before machine heap rest hevents passed hpassed
    dsimp only [events] at hevents
    rcases before with _ | ⟨first, _ | ⟨second, before⟩⟩
    · cases hevents
    · cases hevents
      refine ⟨[.call .storageGetContext], List.prefix_rfl, ?_⟩
      rcases hpassed with hmem | ⟨container, hmem⟩
      · cases List.mem_singleton.mp hmem
      · rcases Heap.mem_children_newSequence hmem with hold | hnew
        · exact absurd ⟨container, hold⟩ (not_holds_of_no_containers 1 passed)
        · cases List.mem_singleton.mp hnew
          exact .stack (List.mem_singleton_self _)
    · have hlength := congrArg List.length hevents
      simp at hlength
  have hholds : (s.afterAll events).Holds handle := .heap ⟨.array 0, List.mem_singleton_self _⟩
  obtain ⟨hcontexts, -⟩ := context_provenance hstart hmachine
  obtain ⟨before, f, hwithin, hgave, -⟩ := hcontexts handle default hholds rfl
  exact ⟨hholds, before, f, hwithin, hgave⟩

end Session

end ContractHost
