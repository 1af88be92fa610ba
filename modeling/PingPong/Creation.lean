import PingPong.Arrivals
import PingPong.Reference
import Mathlib.Data.Fin.VecNotation

/-! New tasks with static priorities. `task_setprio` writes `iStaticPrio` only, so
the dynamic priority of a new task is the 0 it was allocated with until the
scheduler has chosen it once. -/

namespace PingPong

section Creation

variable {τ : Type*} [DecidableEq τ]

/-- A call of `scheduler` after which the returned task goes to the tail. -/
def requeueStep (s : Ready τ) : Ready τ :=
  match scheduler s.queue s.tasks with
  | (some x, tasks) => ⟨s.queue.erase x ++ [x], tasks⟩
  | (none, tasks) => ⟨s.queue, tasks⟩

def created (taskExec : τ) (prio : τ → Int) (order : List τ) : Ready τ :=
  ⟨order, order.foldl (fun tasks x => taskSetprio taskExec (some x) (prio x) tasks)
    fun _ => ⟨0, 0⟩⟩

def Ready.aged (s : Ready τ) : Aged τ := ⟨s.queue, fun x => (s.tasks x).iDinamPrio⟩

theorem choiceOf_eq (s : Ready τ) : choiceOf s = s.aged.choice := by
  obtain ⟨queue, tasks⟩ := s
  cases queue with
  | nil => rfl
  | cons first l => exact (getHighestPrioTaks_least tasks first l).symm

theorem requeueStep_aged {s : Ready τ} (hnd : s.queue.Nodup) :
    (requeueStep s).aged = s.aged.next (fun x => (s.tasks x).iStaticPrio) ∧
      ∀ x, ((requeueStep s).tasks x).iStaticPrio = (s.tasks x).iStaticPrio := by
  by_cases hne : s.queue = []
  · obtain ⟨queue, tasks⟩ := s
    subst hne
    exact ⟨rfl, fun _ => rfl⟩
  · obtain ⟨x, hx, hchosen⟩ := scheduler_chosen hnd hne s.tasks
    have hchoice : s.aged.choice = some x := (choiceOf_eq s).symm.trans hx
    have hstep : requeueStep s = ⟨s.queue.erase x ++ [x], (scheduler s.queue s.tasks).2⟩ := by
      have hpair : scheduler s.queue s.tasks = (some x, (scheduler s.queue s.tasks).2) :=
        Prod.ext hx rfl
      unfold requeueStep
      rw [hpair]
    rw [hstep]
    refine ⟨?_, hchosen.static⟩
    unfold Aged.next
    rw [hchoice]
    refine congrArg (Aged.mk _) (funext fun y => ?_)
    by_cases hyx : y = x
    · rw [if_pos hyx, hyx]
      exact hchosen.reset
    · rw [if_neg hyx]
      by_cases hy : y ∈ s.queue
      · exact (hchosen.aged y hy hyx).trans (if_pos hy).symm
      · exact (congrArg Task.iDinamPrio (hchosen.others y hy)).trans (if_neg hy).symm

theorem requeueStep_nodup {s : Ready τ} (hnd : s.queue.Nodup) : (requeueStep s).queue.Nodup := by
  unfold requeueStep
  split
  · exact (hnd.erase _).append (List.nodup_singleton _)
      (List.disjoint_singleton.mpr hnd.not_mem_erase)
  · exact hnd

/-- The scheduler refines the abstract machine. -/
theorem iterate_requeueStep {s : Ready τ} {static : τ → Int} (hnd : s.queue.Nodup)
    (hstatic : ∀ x, (s.tasks x).iStaticPrio = static x) (k : Nat) :
    (requeueStep^[k] s).aged = (Aged.next static)^[k] s.aged := by
  induction k generalizing s with
  | zero => rfl
  | succ k ih =>
    obtain ⟨haged, hkept⟩ := requeueStep_aged hnd
    rw [Function.iterate_succ_apply, Function.iterate_succ_apply,
      ih (requeueStep_nodup hnd) fun x => (hkept x).trans (hstatic x), haged]
    exact congrArg (fun p => (Aged.next static)^[k] (s.aged.next p)) (funext hstatic)

theorem created_dinam (taskExec : τ) (prio : τ → Int) (order : List τ) (x : τ) :
    ((created taskExec prio order).tasks x).iDinamPrio = 0 := by
  have hfold (tasks : τ → Task) : ((order.foldl
      (fun tasks x => taskSetprio taskExec (some x) (prio x) tasks) tasks) x).iDinamPrio =
        (tasks x).iDinamPrio := by
    induction order generalizing tasks with
    | nil => rfl
    | cons y order ih => rw [List.foldl_cons, ih, taskSetprio_dinam]
  exact hfold _

theorem created_static {taskExec : τ} {prio : τ → Int} {order : List τ}
    (hprio : ∀ x ∈ order, InRange (prio x)) {x : τ} (hx : x ∈ order) :
    ((created taskExec prio order).tasks x).iStaticPrio = prio x := by
  have hset (tasks : τ → Task) {y : τ} (hy : InRange (prio y)) :
      ((taskSetprio taskExec (some y) (prio y) tasks) x).iStaticPrio =
        if x = y then prio x else (tasks x).iStaticPrio := by
    have hrange : unixMinPrio ≤ prio y ∧ unixMaxPrio ≥ prio y := hy
    simp only [taskSetprio, if_pos hrange]
    by_cases hxy : x = y
    · subst y
      rw [Function.update_self, if_pos rfl]
    · rw [Function.update_of_ne hxy, if_neg hxy]
  have hfold (tasks : τ → Task) : ((order.foldl
      (fun tasks x => taskSetprio taskExec (some x) (prio x) tasks) tasks) x).iStaticPrio =
        if x ∈ order then prio x else (tasks x).iStaticPrio := by
    clear hx
    induction order generalizing tasks with
    | nil => rw [if_neg List.not_mem_nil, List.foldl_nil]
    | cons y order ih =>
      obtain ⟨hy, hrest⟩ := List.forall_mem_cons.mp hprio
      rw [List.foldl_cons, ih hrest, hset tasks hy]
      by_cases hxy : x = y <;> by_cases hxo : x ∈ order <;> simp [hxy, hxo]
  exact (hfold _).trans (if_pos hx)

/-- The tasks are returned in the order in which aging from the static priorities
returns them, the one with the least static priority first. -/
def FollowsReference (taskExec : τ) (prio : τ → Int) (order : List τ) : Prop :=
  (∀ k, choiceOf (requeueStep^[k] (created taskExec prio order)) =
      ((Aged.next prio)^[k] ⟨order, prio⟩).choice) ∧
    ∀ x, choiceOf (created taskExec prio order) = some x → ∀ y ∈ order, prio x ≤ prio y

/-- New tasks are scheduled as if their dynamic priorities started at the static
ones exactly when they are created in order of priority and all but the first
have priority 0 or, next to a first one of at least -1, at most one more. -/
theorem first_schedule {taskExec : τ} {prio : τ → Int} {order : List τ} (hnd : order.Nodup)
    (hne : order ≠ []) (hprio : ∀ x ∈ order, InRange (prio x)) :
    FollowsReference taskExec prio order ↔ Aged.Levelled prio order := by
  have hrun (k : Nat) : choiceOf (requeueStep^[k] (created taskExec prio order)) =
      ((Aged.next prio)^[k] ⟨order, fun _ => 0⟩).choice := by
    rw [choiceOf_eq, iterate_requeueStep (s := created taskExec prio order) hnd fun _ => rfl]
    exact Aged.iterate_congr (a := (created taskExec prio order).aged)
      (b := ⟨order, fun _ => 0⟩) rfl (fun y _ => (created_dinam taskExec prio order y).symm)
      (fun y hy => (created_static hprio hy).symm) k
  rw [← Aged.agree_iff_levelled hnd hne]
  constructor
  · exact fun h k => (hrun k).symm.trans (h.1 k)
  · intro h
    refine ⟨fun k => (hrun k).trans (h k), fun x hx y hy => ?_⟩
    have hfirst : Aged.choice ⟨order, prio⟩ = some x := ((hrun 0).trans (h 0)).symm.trans hx
    exact Aged.choice_le hfirst hy

end Creation

theorem first_schedule_small :
    FollowsReference 3 (![1, 1, 2, 0] : Fin 4 → Int) [0, 1, 2] ∧
      Aged.Levelled (![1, 1, 2, 0] : Fin 4 → Int) [0, 1, 2] := by
  have hlevel : Aged.Levelled (![1, 1, 2, 0] : Fin 4 → Int) [0, 1, 2] := by decide
  exact ⟨(first_schedule (by decide) (by decide) (by decide)).mpr hlevel, hlevel⟩

/-- The priorities of `pingpong-contab-prio.c` for Pang, Peng, Ping, Pong and
Pung; the last task is main. -/
def contabPrio : Fin 6 → Int := ![0, -2, -4, -6, -8, 0]

/-- The first task to run is Pang, which has the greatest static priority. -/
theorem first_schedule_by_creation : ¬FollowsReference 5 contabPrio [0, 1, 2, 3, 4] := by
  intro h
  have hfirst := h.2 0 rfl 4 (by decide)
  exact absurd hfirst (by decide)

end PingPong
