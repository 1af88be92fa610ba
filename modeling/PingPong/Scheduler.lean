import PingPong.Selection

/-! The aging scheduler. The ready queue is the circular list from `readyQueue`
on, and the priorities are exact integers. -/

namespace PingPong

open Selection

structure Task where
  iStaticPrio : Int
  iDinamPrio : Int
  deriving DecidableEq, Repr

def unixMaxPrio : Int := 20
def unixMinPrio : Int := -20
def unixAgingFactor : Int := -1

section Scheduler

variable {τ : Type*}

def highestLoop (tasks : τ → Task) : τ → List τ → τ
  | pstHighestTask, [] => pstHighestTask
  | pstHighestTask, pstListRunner :: l =>
    if (tasks pstListRunner).iDinamPrio < (tasks pstHighestTask).iDinamPrio then
      highestLoop tasks pstListRunner l
    else highestLoop tasks pstHighestTask l

def getHighestPrioTaks (tasks : τ → Task) (pstFirstTask : τ) (l : List τ) : τ :=
  highestLoop tasks pstFirstTask (pstFirstTask :: l)

theorem highestLoop_foldl (tasks : τ → Task) (best : τ) (l : List τ) :
    highestLoop tasks best l = l.foldl (keepLeast fun x => (tasks x).iDinamPrio) best := by
  induction l generalizing best with
  | nil => rfl
  | cons x l ih =>
    rw [List.foldl_cons, ← ih]
    simp only [highestLoop, keepLeast]
    split_ifs <;> rfl

theorem getHighestPrioTaks_foldl (tasks : τ → Task) (first : τ) (l : List τ) :
    getHighestPrioTaks tasks first l = l.foldl (keepLeast fun x => (tasks x).iDinamPrio) first := by
  have hself : keepLeast (fun x => (tasks x).iDinamPrio) first first = first := ite_self _
  rw [getHighestPrioTaks, highestLoop_foldl, List.foldl_cons, hself]

theorem getHighestPrioTaks_firstMin (tasks : τ → Task) (first : τ) (l : List τ) :
    FirstMin (fun x => (tasks x).iDinamPrio) (first :: l) (getHighestPrioTaks tasks first l) := by
  rw [getHighestPrioTaks_foldl]
  exact foldl_keepLeast l first

theorem getHighestPrioTaks_least (tasks : τ → Task) (first : τ) (l : List τ) :
    least (fun x => (tasks x).iDinamPrio) (first :: l) =
      some (getHighestPrioTaks tasks first l) := by
  rw [getHighestPrioTaks_foldl]
  exact least_cons first l

theorem getHighestPrioTaks_first {tasks : τ → Task} {first : τ} {l : List τ}
    (h : ∀ x ∈ l, (tasks first).iDinamPrio ≤ (tasks x).iDinamPrio) :
    getHighestPrioTaks tasks first l = first := by
  rw [getHighestPrioTaks_foldl]
  exact foldl_keepLeast_of_le h

variable [DecidableEq τ]

def agingLoop (pstNextTask : τ) : List τ → (τ → Task) → τ → Task
  | [], tasks => tasks
  | pstListRunner :: l, tasks =>
    if pstListRunner ≠ pstNextTask then
      agingLoop pstNextTask l (Function.update tasks pstListRunner
        { tasks pstListRunner with
          iDinamPrio := (tasks pstListRunner).iDinamPrio + unixAgingFactor })
    else agingLoop pstNextTask l tasks

/-- `none` is the `NULL` that an empty ready queue returns. -/
def scheduler (readyQueue : List τ) (tasks : τ → Task) : Option τ × (τ → Task) :=
  match readyQueue with
  | [] => (none, tasks)
  | pstFirstTask :: l =>
    let pstNextTask := getHighestPrioTaks tasks pstFirstTask l
    (some pstNextTask, agingLoop pstNextTask (pstFirstTask :: l)
      (Function.update tasks pstNextTask
        { tasks pstNextTask with iDinamPrio := (tasks pstNextTask).iStaticPrio }))

def taskSetprio (taskExec : τ) (task : Option τ) (prio : Int) (tasks : τ → Task) : τ → Task :=
  if unixMinPrio ≤ prio ∧ unixMaxPrio ≥ prio then
    match task with
    | some t => Function.update tasks t { tasks t with iStaticPrio := prio }
    | none => Function.update tasks taskExec { tasks taskExec with iStaticPrio := prio }
  else tasks

theorem agingLoop_apply (next : τ) {l : List τ} (hnd : l.Nodup) (tasks : τ → Task) (x : τ) :
    agingLoop next l tasks x =
      if x ∈ l ∧ x ≠ next then
        { tasks x with iDinamPrio := (tasks x).iDinamPrio + unixAgingFactor }
      else tasks x := by
  induction l generalizing tasks with
  | nil => simp [agingLoop]
  | cons y l ih =>
    obtain ⟨hy, hnd'⟩ := List.nodup_cons.mp hnd
    by_cases hyn : y = next
    · subst y
      simp only [agingLoop, ne_eq, not_true_eq_false, if_false, ih hnd', List.mem_cons]
      by_cases hx : x = next
      · simp [hx]
      · simp [hx]
    · simp only [agingLoop, ne_eq, hyn, not_false_eq_true, if_true, ih hnd', List.mem_cons]
      by_cases hx : x = y
      · subst x
        simp [hy, hyn]
      · simp [hx]

/-- What one call of `scheduler` chooses and does to the priorities. -/
structure Chosen (queue : List τ) (tasks tasks' : τ → Task) (x : τ) : Prop where
  mem : x ∈ queue
  least : ∀ y ∈ queue, (tasks x).iDinamPrio ≤ (tasks y).iDinamPrio
  static : ∀ y, (tasks' y).iStaticPrio = (tasks y).iStaticPrio
  reset : (tasks' x).iDinamPrio = (tasks x).iStaticPrio
  aged : ∀ y ∈ queue, y ≠ x → (tasks' y).iDinamPrio = (tasks y).iDinamPrio - 1
  others : ∀ y, y ∉ queue → tasks' y = tasks y

theorem scheduler_chosen {queue : List τ} (hnd : queue.Nodup) (hne : queue ≠ [])
    (tasks : τ → Task) :
    ∃ x, (scheduler queue tasks).1 = some x ∧
      Chosen queue tasks (scheduler queue tasks).2 x := by
  obtain ⟨first, l, rfl⟩ := List.exists_cons_of_ne_nil hne
  have hmin := getHighestPrioTaks_firstMin tasks first l
  have haged := agingLoop_apply (getHighestPrioTaks tasks first l) hnd
  refine ⟨getHighestPrioTaks tasks first l, rfl, hmin.mem, fun y hy => hmin.le hy, ?_, ?_, ?_, ?_⟩
  · intro y
    simp only [scheduler, haged]
    by_cases hy : y = getHighestPrioTaks tasks first l
    · subst y
      simp
    · simp only [Function.update_of_ne hy]
      split_ifs <;> rfl
  · simp [scheduler, haged]
  · intro y hy hne
    simp only [scheduler, haged, Function.update_of_ne hne]
    rw [if_pos ⟨hy, hne⟩]
    rfl
  · intro y hy
    have hne : y ≠ getHighestPrioTaks tasks first l := fun he => hy (he ▸ hmin.mem)
    simp only [scheduler, haged, Function.update_of_ne hne]
    exact if_neg fun h => hy h.1

theorem taskSetprio_dinam (exec : τ) (task : Option τ) (prio : Int) (tasks : τ → Task) (x : τ) :
    (taskSetprio exec task prio tasks x).iDinamPrio = (tasks x).iDinamPrio := by
  have hupdate (t : τ) :
      (Function.update tasks t { tasks t with iStaticPrio := prio } x).iDinamPrio =
        (tasks x).iDinamPrio := by
    by_cases hx : x = t
    · subst x
      rw [Function.update_self]
    · rw [Function.update_of_ne hx]
  unfold taskSetprio
  split_ifs
  · cases task with
    | some t => exact hupdate t
    | none => exact hupdate exec
  · rfl

theorem taskSetprio_static {exec : τ} {task : Option τ} {prio : Int} {tasks : τ → Task} {x : τ}
    (h : unixMinPrio ≤ (tasks x).iStaticPrio ∧ (tasks x).iStaticPrio ≤ unixMaxPrio) :
    unixMinPrio ≤ (taskSetprio exec task prio tasks x).iStaticPrio ∧
      (taskSetprio exec task prio tasks x).iStaticPrio ≤ unixMaxPrio := by
  unfold taskSetprio
  split_ifs with hprio
  · have hupdate (t : τ) :
        unixMinPrio ≤ (Function.update tasks t { tasks t with iStaticPrio := prio } x).iStaticPrio ∧
          (Function.update tasks t { tasks t with iStaticPrio := prio } x).iStaticPrio ≤
            unixMaxPrio := by
      by_cases hx : x = t
      · subst x
        rw [Function.update_self]
        exact hprio
      · rw [Function.update_of_ne hx]
        exact h
    cases task with
    | some t => exact hupdate t
    | none => exact hupdate exec
  · exact h

end Scheduler

end PingPong
