import Mathlib.Order.Defs.Unbundled

/-!
# Steps that fail and change a state

What a step does to its state can be said whether it fails or not. If states related to where a
step started are all that its parts lead to, they are all that it leads to.
-/

namespace ContractHost

variable {ε S α β : Type}

/-- However the step ends, the state it leaves is related to the state it started from. -/
def Moves (R : S → S → Prop) (step : ExceptT ε (StateM S) α) : Prop := ∀ s, R s (step.run s).2

/-- If the step fails, the state it leaves is related to the state it started from. -/
def FailsIn (R : S → S → Prop) (step : ExceptT ε (StateM S) α) : Prop :=
  ∀ s e s', step.run s = (.error e, s') → R s s'

theorem run_bind (step : ExceptT ε (StateM S) α) (next : α → ExceptT ε (StateM S) β) (s : S) :
    (step >>= next).run s =
      match step.run s with
      | (.ok a, s') => (next a).run s'
      | (.error e, s') => (.error e, s') := by
  change (match step.run s with | (result, s') => ExceptT.bindCont next result s') = _
  rcases step.run s with ⟨e | a, s'⟩ <;> rfl

theorem run_bind_ok {step : ExceptT ε (StateM S) α} {next : α → ExceptT ε (StateM S) β}
    {s s' : S} {a : α} (h : step.run s = (.ok a, s')) :
    (step >>= next).run s = (next a).run s' := by
  rw [run_bind, h]

theorem run_bind_error {step : ExceptT ε (StateM S) α} {next : α → ExceptT ε (StateM S) β}
    {s s' : S} {e : ε} (h : step.run s = (.error e, s')) :
    (step >>= next).run s = (.error e, s') := by
  rw [run_bind, h]

theorem run_modifyGet (f : S → α × S) (s : S) :
    (modifyGet f : ExceptT ε (StateM S) α).run s = (.ok (f s).1, (f s).2) := rfl

/-- A step that succeeds has succeeded in each of its parts. -/
theorem exists_of_run_bind {step : ExceptT ε (StateM S) α} {next : α → ExceptT ε (StateM S) β}
    {s s' : S} {b : β} (h : (step >>= next).run s = (.ok b, s')) :
    ∃ a middle, step.run s = (.ok a, middle) ∧ (next a).run middle = (.ok b, s') := by
  rw [run_bind] at h
  cases hrun : step.run s with
  | mk result middle =>
    rw [hrun] at h
    cases result with
    | error e => cases h
    | ok a => exact ⟨a, middle, rfl, h⟩

theorem related_bind {R : S → S → Prop} {step : ExceptT ε (StateM S) α}
    {next : α → ExceptT ε (StateM S) β} {start s : S} (hs : R start (step.run s).2)
    (hn : ∀ a s', step.run s = (.ok a, s') → R start s' → R start ((next a).run s').2) :
    R start ((step >>= next).run s).2 := by
  rw [run_bind]
  cases hrun : step.run s with
  | mk result s' =>
    rw [hrun] at hs
    cases result with
    | error e => exact hs
    | ok a => exact hn a s' hrun hs

namespace Moves

variable {R : S → S → Prop}

theorem run {step : ExceptT ε (StateM S) α} (h : Moves R step) {s s' : S} {result : Except ε α}
    (hrun : step.run s = (result, s')) : R s s' := by
  have hs := h s
  rwa [hrun] at hs

theorem failsIn {step : ExceptT ε (StateM S) α} (h : Moves R step) : FailsIn R step :=
  fun _ _ _ hrun => h.run hrun

theorem modifyGet {f : S → α × S} (h : ∀ s, R s (f s).2) :
    Moves R (modifyGet f : ExceptT ε (StateM S) α) := h

variable [IsPreorder S R]

theorem pure (a : α) : Moves R (pure a : ExceptT ε (StateM S) α) := fun s => refl s

theorem throw (e : ε) : Moves R (throw e : ExceptT ε (StateM S) α) := fun s => refl s

theorem get : Moves R (MonadState.get : ExceptT ε (StateM S) S) := fun s => refl s

theorem bind {step : ExceptT ε (StateM S) α} {next : α → ExceptT ε (StateM S) β}
    (hs : Moves R step) (hn : ∀ a, Moves R (next a)) : Moves R (step >>= next) := fun s =>
  related_bind (hs s) fun a s' _ h => IsTrans.trans _ _ _ h (hn a s')

theorem mapM {step : α → ExceptT ε (StateM S) β} (hs : ∀ a, Moves R (step a)) (list : List α) :
    Moves R (list.mapM step) := by
  induction list with
  | nil => exact .pure []
  | cons a list ih =>
    rw [List.mapM_cons]
    exact (hs a).bind fun _ => ih.bind fun _ => .pure _

theorem forM {step : α → ExceptT ε (StateM S) PUnit} {list : List α}
    (hs : ∀ a ∈ list, Moves R (step a)) : Moves R (list.forM step) := by
  induction list with
  | nil => exact .pure _
  | cons a list ih =>
    rw [List.forall_mem_cons] at hs
    exact hs.1.bind fun _ => ih hs.2

end Moves

namespace FailsIn

variable {R : S → S → Prop}

theorem of_total {step : ExceptT ε (StateM S) α} (h : ∀ s, ∃ a, (step.run s).1 = .ok a) :
    FailsIn R step := by
  intro s e s' hrun
  obtain ⟨a, ha⟩ := h s
  rw [hrun] at ha
  cases ha

theorem bind [IsPreorder S R] {step : ExceptT ε (StateM S) α} {next : α → ExceptT ε (StateM S) β}
    (hs : Moves R step) (hn : ∀ a, FailsIn R (next a)) : FailsIn R (step >>= next) := by
  intro s e s' hrun
  rw [run_bind] at hrun
  cases hstep : step.run s with
  | mk result middle =>
    rw [hstep] at hrun
    cases result with
    | error e =>
      cases hrun
      exact hs.run hstep
    | ok a => exact IsTrans.trans _ _ _ (hs.run hstep) (hn a middle e s' hrun)

end FailsIn

end ContractHost
