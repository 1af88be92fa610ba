import PingPong.Simulation
import Mathlib.Logic.Function.Basic

/-! A queue with a bounded number of places that any number of clients put values into
and take values from. A client has the value in hand until it reveals it. -/

namespace BoundedQueue

open Runs

variable {κ β : Type*}

structure State (κ β : Type*) where
  queue : List β
  hand : κ → Option β

inductive Label (κ β : Type*)
  | put (k : κ) (v : β)
  | get (k : κ) (v : β)
  | reveal (k : κ) (v : β)

inductive Step [DecidableEq κ] (size : Nat) : State κ β → Label κ β → State κ β → Prop
  | put {s : State κ β} {k : κ} {v : β} (hout : s.hand k = none) (hroom : s.queue.length < size) :
      Step size s (.put k v) ⟨s.queue ++ [v], Function.update s.hand k (some v)⟩
  | get {s : State κ β} {k : κ} {v : β} {q : List β} (hout : s.hand k = none)
      (hfirst : s.queue = v :: q) : Step size s (.get k v) ⟨q, Function.update s.hand k (some v)⟩
  | reveal {s : State κ β} {k : κ} {v : β} (hin : s.hand k = some v) :
      Step size s (.reveal k v) ⟨s.queue, Function.update s.hand k none⟩

def putOf : Label κ β → Option β
  | .put _ v => some v
  | _ => none

def gotOf : Label κ β → Option β
  | .get _ v => some v
  | _ => none

/-- What the client has put or got. -/
def handledOf [DecidableEq κ] (k : κ) : Label κ β → Option β
  | .put k' v | .get k' v => if k' = k then some v else none
  | .reveal _ _ => none

def revealedOf [DecidableEq κ] (k : κ) : Label κ β → Option β
  | .reveal k' v => if k' = k then some v else none
  | _ => none

variable [DecidableEq κ] {size : Nat} {s t : State κ β}

theorem Step.first_in_first_out {l : Label κ β} (h : Step size s l t) :
    s.queue ++ (putOf l).toList = (gotOf l).toList ++ t.queue := by
  cases h with
  | put hout hroom => rfl
  | get hout hfirst => simp [putOf, gotOf, hfirst]
  | reveal hin => simp [putOf, gotOf]

theorem Step.length_le {l : Label κ β} (h : Step size s l t) (hs : s.queue.length ≤ size) :
    t.queue.length ≤ size := by
  cases h with
  | put hout hroom =>
    rw [List.length_append, List.length_singleton]
    omega
  | get hout hfirst =>
    rw [hfirst, List.length_cons] at hs
    exact Nat.le_of_succ_le hs
  | reveal hin => exact hs

theorem Step.in_hand {l : Label κ β} (h : Step size s l t) (k : κ) :
    (s.hand k).toList ++ (handledOf k l).toList =
      (revealedOf k l).toList ++ (t.hand k).toList := by
  have hmove (k' : κ) (x : Option β) (hk : k' ≠ k) : Function.update s.hand k' x k = s.hand k :=
    Function.update_of_ne hk.symm x s.hand
  cases h with
  | @put k' v hout hroom | @get k' v q hout hfirst =>
    by_cases hk : k' = k
    · subst k'
      simp [handledOf, revealedOf, hout]
    · simp [handledOf, revealedOf, hk, hmove k' _ hk]
  | @reveal k' v hin =>
    by_cases hk : k' = k
    · subst k'
      simp [handledOf, revealedOf, hin]
    · simp [handledOf, revealedOf, hk, hmove k' _ hk]

/-- The values are taken in the order in which they were put, no more than `size` of
them wait, and each client reveals what it has put or taken, in that order. -/
theorem trace_account {ls : List (Label κ β)} (h : Trace (Step size) s ls t)
    (hs : s.queue.length ≤ size) :
    s.queue ++ ls.filterMap putOf = ls.filterMap gotOf ++ t.queue ∧ t.queue.length ≤ size ∧
      ∀ k, (s.hand k).toList ++ ls.filterMap (handledOf k) =
        ls.filterMap (revealedOf k) ++ (t.hand k).toList := by
  refine ⟨h.first_in_first_out fun _ _ _ hstep => hstep.first_in_first_out, ?_,
    fun k => h.first_in_first_out fun _ _ _ hstep => hstep.in_hand k⟩
  induction h with
  | nil => exact hs
  | cons hstep _ ih => exact ih (hstep.length_le hs)

end BoundedQueue
