import PingPong.Runs
import Mathlib.Algebra.GroupWithZero.Nat
import Mathlib.Algebra.BigOperators.Group.Finset.Basic
import Mathlib.Algebra.Order.BigOperators.Group.List

/-! Work along runs. Some actions bring work into a system and others use it up, so
the work left balances what has come in. Where an action that uses up work is enabled
until a goal is met, the goal is reached. -/

namespace Runs

variable {σ α ι π : Type*}

theorem sum_update {M : Type*} [AddCommMonoid M] [Fintype ι] [DecidableEq ι] (w : π → M)
    {f : ι → π} {i : ι} {x y : π} (h : f i = y) :
    (∑ j, w (Function.update f i x j)) + w y = (∑ j, w (f j)) + w x := by
  have hrest : ∑ j ∈ Finset.univ.erase i, w (Function.update f i x j) =
      ∑ j ∈ Finset.univ.erase i, w (f j) := by
    apply Finset.sum_congr rfl
    intro j hj
    rw [Function.update_of_ne (Finset.ne_of_mem_erase hj)]
  rw [← Finset.sum_erase_add _ _ (Finset.mem_univ i), hrest, Function.update_self,
    ← Finset.sum_erase_add _ (fun j => w (f j)) (Finset.mem_univ i), h, add_right_comm]

/-- What is left of the work that came in. -/
theorem run_balance {step : σ → α → Option σ} {P : σ → Prop} {work : σ → Nat} {cost gain : α → Nat}
    (hstep : ∀ s a t, P s → step s a = some t → P t ∧ work t + cost a = work s + gain a) {s u : σ}
    {as : List α} (hs : P s) (hrun : run step s as = some u) :
    work u + (as.map cost).sum = work s + (as.map gain).sum := by
  induction as generalizing s with
  | nil =>
    cases hrun
    rfl
  | cons a as ih =>
    obtain ⟨t, ht, hu⟩ := run_cons.mp hrun
    obtain ⟨hPt, hwork⟩ := hstep s a t hs ht
    have hrest := ih hPt hu
    rw [List.map_cons, List.sum_cons, List.map_cons, List.sum_cons]
    omega

theorem run_budget {step : σ → α → Option σ} {P : σ → Prop} {work : σ → Nat} {cost : α → Nat}
    (hstep : ∀ s a t, P s → step s a = some t → P t ∧ work t + cost a ≤ work s) {s u : σ}
    {as : List α} (hs : P s) (hrun : run step s as = some u) :
    P u ∧ work u + (as.map cost).sum ≤ work s := by
  induction as generalizing s with
  | nil =>
    cases hrun
    exact ⟨hs, le_refl _⟩
  | cons a as ih =>
    obtain ⟨t, ht, hu⟩ := run_cons.mp hrun
    obtain ⟨hPt, hwork⟩ := hstep s a t hs ht
    obtain ⟨hPu, hrest⟩ := ih hPt hu
    refine ⟨hPu, ?_⟩
    rw [List.map_cons, List.sum_cons]
    omega

/-- As long as the goal is not met, some allowed action is enabled and uses up work. -/
theorem exists_run_to {step : σ → α → Option σ} {ok : σ → α → Prop} {P goal : σ → Prop}
    {work : σ → Nat}
    (hnext : ∀ s, P s → ¬goal s → ∃ a t, ok s a ∧ step s a = some t ∧ P t ∧ work t < work s) {s : σ}
    (hs : P s) : ∃ as u, run step s as = some u ∧ Along step ok s as ∧ P u ∧ goal u := by
  induction hw : work s using Nat.strong_induction_on generalizing s with
  | _ w ih =>
    by_cases hgoal : goal s
    · exact ⟨[], s, rfl, trivial, hs, hgoal⟩
    · obtain ⟨a, t, ha, ht, hPt, hlt⟩ := hnext s hs hgoal
      obtain ⟨as, u, hu, has, hPu, hend⟩ := ih (work t) (hw ▸ hlt) hPt rfl
      exact ⟨a :: as, u, run_cons.mpr ⟨t, ht, hu⟩, (along_cons ht).mpr ⟨ha, has⟩, hPu, hend⟩

end Runs
