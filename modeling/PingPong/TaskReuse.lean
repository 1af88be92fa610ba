import PingPong.Arrivals
import PingPong.TaskExit

/-! Tasks that come and go. A `task_t` given to `task_create` may have been another task
before; `after_task_create` writes `uiExecTicks` only, so that the other four fields
carry what they held into the new task's life. -/

namespace PingPong

open Runs

/-- The fields that `ppos_data.h` adds to a `task_t`. -/
structure Added extends Task, Metrics
  deriving DecidableEq, Repr

structure Life (τ : Type*) where
  kernel : Kernel τ
  ready : Ready τ

/-- `create` is `after_task_create` and the insertion that follows it, and `exit` is
`after_task_exit`. -/
inductive LifeAction (τ : Type*)
  | create (task : τ)
  | tick
  | switch (task : τ)
  | setprio (task : Option τ) (prio : Int)
  | schedule
  | insert (task : τ)
  | exit

/-- A task that `scheduler` returned, and a report at an exit. -/
inductive Seen (τ : Type*)
  | returned (task : τ)
  | reported (task : τ) (uiProcessorTicks uiActivations : BitVec 32)
  deriving DecidableEq, Repr

section Life

variable {τ : Type*} [DecidableEq τ]

def lifeStep (s : Life τ) : LifeAction τ → Option (Life τ)
  | .create task =>
    if task ≠ s.kernel.taskExec then
      (readyStep s.ready (.insert task)).map fun r => ⟨afterTaskCreate s.kernel task, r⟩
    else none
  | .tick => (kernelStep s.kernel .tick).map fun k => { s with kernel := k }
  | .switch task => (kernelStep s.kernel (.switch task)).map fun k => { s with kernel := k }
  | .setprio task prio =>
    (readyStep s.ready (.setprio s.kernel.taskExec task prio)).map fun r => { s with ready := r }
  | .schedule => (readyStep s.ready .schedule).map fun r => { s with ready := r }
  | .insert task => (readyStep s.ready (.insert task)).map fun r => { s with ready := r }
  | .exit => some { s with kernel := (afterTaskExit s.kernel).1 }

def seenOf (s : Life τ) : LifeAction τ → Option (Seen τ)
  | .schedule => (choiceOf s.ready).map .returned
  | .exit =>
    let info := (afterTaskExit s.kernel).2
    some (.reported info.task info.uiProcessorTicks info.uiActivations)
  | .create _ | .tick | .switch _ | .setprio .. | .insert _ => none

def Life.holding (s : Life τ) (t : τ) (c : Added) : Life τ where
  kernel := { s.kernel with tasks := Function.update s.kernel.tasks t c.toMetrics }
  ready := { s.ready with tasks := Function.update s.ready.tasks t c.toTask }

variable (τ) in
/-- The life of a task does not show which of two contents its `task_t` had before. -/
def SameLife (c c' : Added) : Prop :=
  ∀ (s : Life τ) (t : τ) (as : List (LifeAction τ)),
    traceOf lifeStep seenOf (s.holding t c) (.create t :: as) =
      traceOf lifeStep seenOf (s.holding t c') (.create t :: as)

def Metrics.withoutExec (m : Metrics) : Metrics := { m with uiExecTicks := 0 }

def Kernel.withoutExec (k : Kernel τ) : Kernel τ :=
  { k with tasks := Metrics.withoutExec ∘ k.tasks }

def Life.view (s : Life τ) : Life τ := { s with kernel := s.kernel.withoutExec }

theorem withoutExec_setExecTicks (k : Kernel τ) (t : τ) (e : BitVec 32) :
    (k.setExecTicks t e).withoutExec = k.withoutExec := by
  have htasks : Metrics.withoutExec ∘ (k.setExecTicks t e).tasks =
      Metrics.withoutExec ∘ k.tasks := by
    rw [Kernel.setExecTicks, Function.comp_update]
    exact Function.update_eq_self t (Metrics.withoutExec ∘ k.tasks)
  exact congrArg (fun tasks => { k with tasks := tasks }) htasks

theorem withoutExec_metricsHandler (k : Kernel τ) (prev next : τ) :
    (metricsHandler k prev next).withoutExec = metricsHandler k.withoutExec prev next := by
  have hcharged (charged : τ → Metrics) : Metrics.withoutExec ∘ Function.update charged next
      { charged next with uiActivations := (charged next).uiActivations + 1 } =
        Function.update (Metrics.withoutExec ∘ charged) next
          { (Metrics.withoutExec ∘ charged) next with
            uiActivations := ((Metrics.withoutExec ∘ charged) next).uiActivations + 1 } :=
    Function.comp_update ..
  simp only [Kernel.withoutExec, metricsHandler, hcharged, Function.comp_update]
  rfl

theorem withoutExec_tickHandler (k : Kernel τ) :
    tickHandler k.withoutExec = ((tickHandler k).1.withoutExec, (tickHandler k).2) := by
  unfold tickHandler Kernel.withoutExec
  dsimp only
  split_ifs <;> rfl

theorem withoutExec_taskSwitch (k : Kernel τ) (task : τ) :
    (taskSwitch k task).withoutExec = taskSwitch k.withoutExec task :=
  congrArg (fun k' => { k' with taskExec := task, hist := .switch task :: k.hist })
    (withoutExec_metricsHandler k k.taskExec task)

theorem kernelStep_withoutExec (k : Kernel τ) (a : KernelAction τ) :
    (kernelStep k a).map Kernel.withoutExec = kernelStep k.withoutExec a := by
  cases a with
  | tick =>
    simp only [kernelStep, withoutExec_tickHandler, Option.map_some]
    split_ifs
    · exact congrArg some (withoutExec_taskSwitch _ _)
    · rfl
  | switch task => exact congrArg some (withoutExec_taskSwitch k task)
  | preemptDisable => rfl
  | preemptEnable => rfl

theorem seenOf_view (s : Life τ) (a : LifeAction τ) : seenOf s.view a = seenOf s a := by
  cases a with
  | exit =>
    obtain ⟨hticks, hswitches⟩ := afterTaskExit_counters s.kernel
    obtain ⟨hticks', hswitches'⟩ := afterTaskExit_counters s.view.kernel
    simp only [seenOf, hticks, hswitches, hticks', hswitches']
    rfl
  | _ => rfl

theorem lifeStep_view (s : Life τ) (a : LifeAction τ) :
    (lifeStep s.view a).map Life.view = (lifeStep s a).map Life.view := by
  have hkernel (b : KernelAction τ) :
      ((kernelStep s.view.kernel b).map fun k => { s.view with kernel := k }).map Life.view =
        ((kernelStep s.kernel b).map fun k => { s with kernel := k }).map Life.view := by
    rw [show s.view.kernel = s.kernel.withoutExec from rfl, ← kernelStep_withoutExec,
      Option.map_map, Option.map_map, Option.map_map]
    rfl
  have hready (b : ReadyAction τ) :
      ((readyStep s.ready b).map fun r => { s.view with ready := r }).map Life.view =
        ((readyStep s.ready b).map fun r => { s with ready := r }).map Life.view := by
    rw [Option.map_map, Option.map_map]
    rfl
  have hexec (t t' : τ) (e e' : BitVec 32) : (s.view.kernel.setExecTicks t e).withoutExec =
      (s.kernel.setExecTicks t' e').withoutExec := by
    rw [withoutExec_setExecTicks, withoutExec_setExecTicks]
    rfl
  cases a with
  | create task =>
    show Option.map Life.view (if task ≠ s.kernel.taskExec then _ else none) =
      Option.map Life.view (if task ≠ s.kernel.taskExec then _ else none)
    split_ifs
    · rw [Option.map_map, Option.map_map]
      exact congrArg (fun k => (readyStep s.ready (.insert task)).map (Life.mk k)) (hexec ..)
    · rfl
  | tick => exact hkernel .tick
  | switch task => exact hkernel (.switch task)
  | setprio task prio => exact hready (.setprio s.kernel.taskExec task prio)
  | schedule => exact hready .schedule
  | insert task => exact hready (.insert task)
  | exit =>
    exact congrArg (fun k => some (Life.mk k s.ready)) (hexec ..)

/-- The two contents differ at most in `uiExecTicks`. -/
structure Added.Agree (c c' : Added) : Prop where
  iStaticPrio : c.iStaticPrio = c'.iStaticPrio
  iDinamPrio : c.iDinamPrio = c'.iDinamPrio
  uiProcessorTicks : c.uiProcessorTicks = c'.uiProcessorTicks
  uiActivations : c.uiActivations = c'.uiActivations

theorem Added.Agree.sameLife {c c' : Added} (h : c.Agree c') : SameLife τ c c' := by
  have hprios : c.toTask = c'.toTask := by
    show Task.mk c.iStaticPrio c.iDinamPrio = Task.mk c'.iStaticPrio c'.iDinamPrio
    rw [h.iStaticPrio, h.iDinamPrio]
  have hmetrics : c.toMetrics.withoutExec = c'.toMetrics.withoutExec := by
    show Metrics.mk 0 c.uiProcessorTicks c.uiActivations =
      Metrics.mk 0 c'.uiProcessorTicks c'.uiActivations
    rw [h.uiProcessorTicks, h.uiActivations]
  intro s t as
  refine traceOf_congr Life.view (fun u v a huv => ?_) (fun u v a huv => ?_) ?_ _
  · rw [← seenOf_view, huv, seenOf_view]
  · rw [← lifeStep_view, huv, lifeStep_view]
  · simp only [Life.view, Life.holding, Kernel.withoutExec, Function.comp_update, hprios, hmetrics]

def Life.idle (exec : τ) (queue : List τ) (iDinamPrio : Int) : Life τ where
  kernel := Kernel.start exec exec 1
  ready := ⟨queue, fun _ => ⟨0, iDinamPrio⟩⟩

variable {e t : τ}

theorem trace_exit (hte : t ≠ e) (c : Added) :
    traceOf lifeStep seenOf ((Life.idle e [] 0).holding t c) [.create t, .switch t, .exit] =
      [.reported t c.uiProcessorTicks (c.uiActivations + 1)] := by
  simp [traceOf, lifeStep, seenOf, readyStep, kernelStep, Life.idle, Life.holding, Kernel.start,
    hte, afterTaskCreate, Kernel.setExecTicks, taskSwitch, beforeTaskSwitch, metricsHandler,
    afterTaskExit, printTaskInfo]

theorem trace_schedule (hte : t ≠ e) (c : Added) (iDinamPrio : Int) :
    traceOf lifeStep seenOf ((Life.idle e [e] iDinamPrio).holding t c) [.create t, .schedule] =
      [.returned (if c.iDinamPrio < iDinamPrio then t else e)] := by
  simp [traceOf, lifeStep, seenOf, readyStep, Life.idle, Life.holding, Kernel.start, hte,
    hte.symm, choiceOf, scheduler, getHighestPrioTaks, highestLoop]

theorem trace_reschedule (hte : t ≠ e) (c : Added) (iDinamPrio : Int) :
    traceOf lifeStep seenOf ((Life.idle e [] iDinamPrio).holding t c)
        [.create t, .schedule, .insert e, .insert t, .schedule] =
      [.returned t, .returned (if c.iStaticPrio < iDinamPrio then t else e)] := by
  simp [traceOf, lifeStep, seenOf, readyStep, Life.idle, Life.holding, Kernel.start, hte,
    hte.symm, choiceOf, scheduler, getHighestPrioTaks, highestLoop, agingLoop]

omit [DecidableEq τ] in
theorem choice_iff (hte : t ≠ e) {a b : Prop} [Decidable a] [Decidable b] :
    (if a then t else e) = (if b then t else e) ↔ (a ↔ b) := by
  by_cases ha : a <;> by_cases hb : b <;> simp [ha, hb, hte, hte.symm]

theorem SameLife.agree [Nontrivial τ] {c c' : Added} (h : SameLife τ c c') : c.Agree c' := by
  obtain ⟨t, e, hte⟩ := exists_pair_ne τ
  have hexit := h (Life.idle e [] 0) t [.switch t, .exit]
  rw [trace_exit hte, trace_exit hte] at hexit
  obtain ⟨-, hticks, hswitches⟩ := Seen.reported.inj (List.cons.inj hexit).1
  refine ⟨?_, ?_, hticks, add_right_cancel hswitches⟩
  · refine eq_of_forall_gt_iff fun prio => ?_
    have hsecond := h (Life.idle e [] prio) t [.schedule, .insert e, .insert t, .schedule]
    rw [trace_reschedule hte, trace_reschedule hte] at hsecond
    have hreturn := (List.cons.inj (List.cons.inj hsecond).2).1
    exact (choice_iff hte).mp (Seen.returned.inj hreturn)
  · refine eq_of_forall_gt_iff fun prio => ?_
    have hfirst := h (Life.idle e [e] prio) t [.schedule]
    rw [trace_schedule hte, trace_schedule hte] at hfirst
    exact (choice_iff hte).mp (Seen.returned.inj (List.cons.inj hfirst).1)

/-- What a `task_t` held before shows in the life of the task exactly as far as it is
not in `uiExecTicks`. -/
theorem life_independent [Nontrivial τ] (c c' : Added) : SameLife τ c c' ↔ c.Agree c' :=
  ⟨SameLife.agree, Added.Agree.sameLife⟩

end Life

def Added.zero : Added := ⟨⟨0, 0⟩, ⟨0, 0, 0⟩⟩

theorem life_independent_small :
    SameLife (Fin 2) Added.zero { Added.zero with uiExecTicks := 7 } :=
  (life_independent _ _).mpr ⟨rfl, rfl, rfl, rfl⟩

/-- The second task in a `task_t` whose first one has had 5 ticks and one activation
reports those with its own. -/
theorem life_reports_earlier_task : ¬∀ c c' : Added, SameLife (Fin 2) c c' := by
  intro hall
  have htraces : traceOf lifeStep seenOf ((Life.idle 0 [] 0).holding (1 : Fin 2) Added.zero)
      [.create 1, .switch 1, .exit] = [.reported 1 0 1] := by decide
  have htraces' : traceOf lifeStep seenOf
      ((Life.idle 0 [] 0).holding (1 : Fin 2) ⟨⟨0, 0⟩, ⟨9, 5, 1⟩⟩)
      [.create 1, .switch 1, .exit] = [.reported 1 5 2] := by decide
  have hsame := hall Added.zero ⟨⟨0, 0⟩, ⟨9, 5, 1⟩⟩ (Life.idle 0 [] 0) 1 [.switch 1, .exit]
  rw [htraces, htraces'] at hsame
  exact absurd hsame (by decide)

end PingPong
