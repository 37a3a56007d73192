import Mathlib.Data.List.Basic

/-!
# In the order of time

Things are in order if what happened to one happened before what happened to those behind it.
-/

namespace ContractHost

variable {α : Type} {happened happened' : Nat → α → Prop} {xs ys : List α} {last : α}

def InOrder (happened : Nat → α → Prop) (xs : List α) : Prop :=
  xs.Pairwise fun a b => ∀ s t, happened s a → happened t b → s < t

namespace InOrder

theorem mono (h : InOrder happened xs) (hys : ys.Sublist xs)
    (hless : ∀ y ∈ ys, ∀ time, happened' time y → happened time y) : InOrder happened' ys := by
  refine (List.Pairwise.sublist hys h).imp_of_mem fun {a b} ha hb hab s t hs ht => ?_
  exact hab s t (hless a ha s hs) (hless b hb t ht)

theorem concat (h : InOrder happened xs)
    (hlast : ∀ x ∈ xs, ∀ s t, happened s x → happened t last → s < t) :
    InOrder happened (xs ++ [last]) := by
  refine List.pairwise_append.mpr ⟨h, List.pairwise_singleton _ _, fun x hx y hy => ?_⟩
  rw [List.mem_singleton.mp hy]
  exact hlast x hx

end InOrder

end ContractHost
