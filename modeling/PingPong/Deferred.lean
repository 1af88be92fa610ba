import Mathlib.Logic.Function.Conjugate

/-! Deferred commands. A list of commands that are still to be applied, in the
order of their arrival, stands for the state in which they have been applied. A
command that commutes with all the earlier ones may be applied first. -/

namespace Deferred

variable {α σ : Type*} (exec : α → σ → σ)

def applyAll (l : List α) (s : σ) : σ := l.foldl (fun s x => exec x s) s

@[simp] theorem applyAll_nil (s : σ) : applyAll exec [] s = s := rfl

theorem applyAll_cons (x : α) (l : List α) (s : σ) :
    applyAll exec (x :: l) s = applyAll exec l (exec x s) := rfl

theorem applyAll_append (l m : List α) (s : σ) :
    applyAll exec (l ++ m) s = applyAll exec m (applyAll exec l s) :=
  List.foldl_append ..

variable {exec}

theorem commute_applyAll {f : σ → σ} {l : List α}
    (h : ∀ x ∈ l, Function.Commute f (exec x)) (s : σ) :
    f (applyAll exec l s) = applyAll exec l (f s) := by
  induction l generalizing s with
  | nil => rfl
  | cons x l ih =>
    have hx : f (exec x s) = exec x (f s) := h x (List.mem_cons_self ..) s
    rw [applyAll_cons, applyAll_cons, ih (fun y hy => h y (List.mem_cons_of_mem _ hy)), hx]

/-- The command `x` overtakes the earlier ones. -/
theorem applyAll_overtake {pre post : List α} {x : α}
    (h : ∀ y ∈ pre, Function.Commute (exec x) (exec y)) (s : σ) :
    applyAll exec (pre ++ x :: post) s = applyAll exec (pre ++ post) (exec x s) := by
  rw [applyAll_append, applyAll_append, applyAll_cons, commute_applyAll h]

end Deferred
