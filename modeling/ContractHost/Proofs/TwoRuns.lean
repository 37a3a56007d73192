import ContractHost.Proofs.Steps

/-!
# Two runs side by side

Two steps match if from related states they succeed with the same value or fail with the same error,
and leave related states. Steps that match in all their parts match.
-/

namespace ContractHost

variable {ε S T α β : Type}

/-- From two states the steps have the same result and leave related states. -/
def MatchesAt (R : S → T → Prop) (s : S) (t : T) (step : ExceptT ε (StateM S) α)
    (step' : ExceptT ε (StateM T) α) : Prop :=
  (step.run s).1 = (step'.run t).1 ∧ R (step.run s).2 (step'.run t).2

/-- The steps match from any related states. -/
def Matches (R : S → T → Prop) (step : ExceptT ε (StateM S) α) (step' : ExceptT ε (StateM T) α) :
    Prop :=
  ∀ s t, R s t → MatchesAt R s t step step'

variable {R : S → T → Prop}

/-- Steps match in two parts if the second parts match for each value and states that the first may
leave. -/
theorem MatchesAt.bind {s : S} {t : T} {step : ExceptT ε (StateM S) α}
    {step' : ExceptT ε (StateM T) α} {next : α → ExceptT ε (StateM S) β}
    {next' : α → ExceptT ε (StateM T) β} (h : MatchesAt R s t step step')
    (hn : ∀ a s' t', step.run s = (.ok a, s') → R s' t' → MatchesAt R s' t' (next a) (next' a)) :
    MatchesAt R s t (step >>= next) (step' >>= next') := by
  rw [MatchesAt, run_bind, run_bind]
  obtain ⟨hresult, hstates⟩ := h
  cases hs : step.run s with
  | mk result s' =>
    cases ht : step'.run t with
    | mk result' t' =>
      rw [hs, ht] at hresult hstates
      dsimp only at hresult hstates
      subst hresult
      cases result with
      | error e => exact ⟨rfl, hstates⟩
      | ok a => exact hn a s' t' hs hstates

namespace Matches

theorem pure (a : α) :
    Matches R (pure a : ExceptT ε (StateM S) α) (pure a : ExceptT ε (StateM T) α) :=
  fun _ _ h => ⟨rfl, h⟩

theorem throw (e : ε) :
    Matches R (throw e : ExceptT ε (StateM S) α) (throw e : ExceptT ε (StateM T) α) :=
  fun _ _ h => ⟨rfl, h⟩

theorem modifyGet {f : S → α × S} {g : T → α × T}
    (h : ∀ s t, R s t → (f s).1 = (g t).1 ∧ R (f s).2 (g t).2) :
    Matches R (modifyGet f : ExceptT ε (StateM S) α) (modifyGet g) := by
  intro s t hst
  obtain ⟨hvalue, hstates⟩ := h s t hst
  exact ⟨congrArg Except.ok hvalue, hstates⟩

theorem bind {step : ExceptT ε (StateM S) α} {step' : ExceptT ε (StateM T) α}
    {next : α → ExceptT ε (StateM S) β} {next' : α → ExceptT ε (StateM T) β}
    (h : Matches R step step') (hn : ∀ a, Matches R (next a) (next' a)) :
    Matches R (step >>= next) (step' >>= next') :=
  fun s t hst => (h s t hst).bind fun a s' t' _ hst' => hn a s' t' hst'

theorem get_bind {next : S → ExceptT ε (StateM S) α} {next' : T → ExceptT ε (StateM T) α}
    (h : ∀ s t, R s t → MatchesAt R s t (next s) (next' t)) :
    Matches R (MonadState.get >>= next) (MonadState.get >>= next') :=
  fun s t hst => h s t hst

theorem mapM {step : α → ExceptT ε (StateM S) β} {step' : α → ExceptT ε (StateM T) β}
    (h : ∀ a, Matches R (step a) (step' a)) (list : List α) :
    Matches R (list.mapM step) (list.mapM step') := by
  induction list with
  | nil => exact .pure []
  | cons a list ih =>
    rw [List.mapM_cons, List.mapM_cons]
    exact (h a).bind fun _ => ih.bind fun _ => .pure _

theorem forM {step : α → ExceptT ε (StateM S) PUnit} {step' : α → ExceptT ε (StateM T) PUnit}
    (h : ∀ a, Matches R (step a) (step' a)) (list : List α) :
    Matches R (list.forM step) (list.forM step') := by
  induction list with
  | nil => exact .pure _
  | cons a list ih => exact (h a).bind fun _ => ih

end Matches

end ContractHost
