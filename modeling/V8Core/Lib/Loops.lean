import Mathlib.Data.List.Basic
import Mathlib.Data.List.Range
import Mathlib.Tactic.Common

/-!
# Loops that may fail

A loop over consecutive numbers whose body may fail, with the rule for invariants: if
the body keeps the invariant and does not fail, the loop does neither.
-/

namespace Loops

variable {σ : Type}

theorem foldlM_range' {f : σ → Nat → Option σ} {P : Nat → σ → Prop} {i n : Nat} {s : σ} (h : P i s)
    (hstep : ∀ j t, i ≤ j → j < i + n → P j t → ∃ t', f t j = some t' ∧ P (j + 1) t') :
    ∃ s', (List.range' i n).foldlM f s = some s' ∧ P (i + n) s' := by
  induction n generalizing i s with
  | zero => exact ⟨s, rfl, h⟩
  | succ n ih =>
    obtain ⟨t, ht, hP⟩ := hstep i s (Nat.le_refl _) (by omega) h
    obtain ⟨s', hs', hP'⟩ := ih hP fun j t hj hlt => hstep j t (by omega) (by omega)
    refine ⟨s', ?_, by rwa [Nat.add_right_comm] at hP'⟩
    rw [List.range'_succ, List.foldlM_cons, ht]
    exact hs'

end Loops
