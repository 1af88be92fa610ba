import PingPong.Simulation

/-! A server with room for one task. A task is accepted when the slot is free and takes
effect when it is completed; meanwhile others may alter the store. -/

namespace Slot

open Runs

variable {τ χ σ : Type*}

structure State (τ σ : Type*) where
  store : σ
  pending : Option τ

inductive Label (τ χ : Type*)
  | accept (t : τ)
  | complete (t : τ)
  | alter (x : χ)

inductive Step (exec : τ → σ → σ) (alter : χ → σ → σ) : State τ σ → Label τ χ → State τ σ → Prop
  | accept {s : σ} {t : τ} : Step exec alter ⟨s, none⟩ (.accept t) ⟨s, some t⟩
  | complete {s : σ} {t : τ} : Step exec alter ⟨s, some t⟩ (.complete t) ⟨exec t s, none⟩
  | alter {s : σ} {p : Option τ} {x : χ} : Step exec alter ⟨s, p⟩ (.alter x) ⟨alter x s, p⟩

def Label.accepted? : Label τ χ → Option τ
  | .accept t => some t
  | _ => none

def Label.completed? : Label τ χ → Option τ
  | .complete t => some t
  | _ => none

def Label.effect (exec : τ → σ → σ) (alter : χ → σ → σ) (s : σ) : Label τ χ → σ
  | .accept _ => s
  | .complete t => exec t s
  | .alter x => alter x s

variable {exec : τ → σ → σ} {alter : χ → σ → σ} {a b : State τ σ} {ls : List (Label τ χ)}

/-- The accepted tasks are completed once each, in their order, up to the pending one. -/
theorem completed_in_order (h : Trace (Step exec alter) a ls b) :
    a.pending.toList ++ ls.filterMap Label.accepted? =
      ls.filterMap Label.completed? ++ b.pending.toList := by
  induction h with
  | nil => simp
  | cons hstep _ ih =>
    cases hstep with
    | accept => exact ih
    | complete => exact congrArg _ ih
    | alter => exact ih

/-- Nothing but completions and the alterations of others change the store. -/
theorem store_eq (h : Trace (Step exec alter) a ls b) :
    b.store = ls.foldl (Label.effect exec alter) a.store := by
  induction h with
  | nil => rfl
  | cons hstep _ ih =>
    cases hstep <;> exact ih

end Slot
