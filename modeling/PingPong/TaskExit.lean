import PingPong.CpuTime

/-! The report of a task that exits. It is made by `after_task_exit`, before the switch
to the dispatcher, and a switch is what brings `uiProcessorTicks` up to date; so the
ticks since the last switch are not in it. -/

namespace PingPong

open Runs

/-- What `printTaskInfo` prints. -/
structure TaskInfo (τ : Type*) extends Metrics where
  task : τ
  deriving DecidableEq, Repr

section Exit

variable {τ : Type*}

/-- The counters of `t` are 0, and so is its time if it is the running task already. -/
structure Newborn (k : Kernel τ) (t : τ) : Prop where
  processor : (k.tasks t).uiProcessorTicks = 0
  activations : (k.tasks t).uiActivations = 0
  unused : t = k.taskExec → k.systemTime = k.uiTaskStartingTick

theorem start_newborn (taskExec taskDisp : τ) (preemption : BitVec 8) (t : τ) :
    Newborn (Kernel.start taskExec taskDisp preemption) t :=
  ⟨rfl, rfl, fun _ => rfl⟩

variable [DecidableEq τ]

def Kernel.setExecTicks (k : Kernel τ) (task : τ) (uiExecTicks : BitVec 32) : Kernel τ :=
  { k with
    tasks := Function.update k.tasks task { k.tasks task with uiExecTicks := uiExecTicks } }

def afterTaskCreate (k : Kernel τ) (task : τ) : Kernel τ := k.setExecTicks task k.systemTime

/-- The main task also calls `finishDiskTask` here, which touches no task. -/
def printTaskInfo (k : Kernel τ) : TaskInfo τ := ⟨k.tasks k.taskExec, k.taskExec⟩

def afterTaskExit (k : Kernel τ) : Kernel τ × TaskInfo τ :=
  let exited := k.setExecTicks k.taskExec (k.systemTime - (k.tasks k.taskExec).uiExecTicks)
  (exited, printTaskInfo exited)

theorem setExecTicks_counters (k : Kernel τ) (task t : τ) (uiExecTicks : BitVec 32) :
    ((k.setExecTicks task uiExecTicks).tasks t).uiProcessorTicks = (k.tasks t).uiProcessorTicks ∧
      ((k.setExecTicks task uiExecTicks).tasks t).uiActivations = (k.tasks t).uiActivations := by
  unfold Kernel.setExecTicks
  by_cases ht : t = task
  · subst t
    simp
  · simp [ht]

theorem afterTaskExit_counters (k : Kernel τ) :
    (afterTaskExit k).2.uiProcessorTicks = (k.tasks k.taskExec).uiProcessorTicks ∧
      (afterTaskExit k).2.uiActivations = (k.tasks k.taskExec).uiActivations :=
  setExecTicks_counters k k.taskExec k.taskExec _

theorem afterTaskCreate_newborn {k : Kernel τ} {t : τ} (hexec : t ≠ k.taskExec)
    (hprocessor : (k.tasks t).uiProcessorTicks = 0) (hactivations : (k.tasks t).uiActivations = 0) :
    Newborn (afterTaskCreate k t) t := by
  obtain ⟨hsame, hsame'⟩ := setExecTicks_counters k t t k.systemTime
  exact ⟨hsame.trans hprocessor, hsame'.trans hactivations, fun he => absurd he hexec⟩

/-- The report counts the ticks that hit the task and the switches into it. -/
def ReportsExactly (k : Kernel τ) (events : List (KernelEvent τ)) : Prop :=
  (afterTaskExit k).2.uiProcessorTicks.toNat = events.count (.tick k.taskExec) ∧
    (afterTaskExit k).2.uiActivations.toNat = events.count (.switch k.taskExec)

instance (k : Kernel τ) (events : List (KernelEvent τ)) : Decidable (ReportsExactly k events) :=
  inferInstanceAs (Decidable (_ ∧ _))

structure Since (t : τ) (k : Kernel τ) (events : List (KernelEvent τ)) : Prop
    extends Charged t k events where
  burst : t = k.taskExec → k.systemTime - k.uiTaskStartingTick = (sliceTicks events : BitVec 32)
  own : t = k.taskExec → sliceTicks events ≤ events.count (.tick t)

variable {t : τ} {k u : Kernel τ} {events : List (KernelEvent τ)}

theorem Newborn.since (h : Newborn k t) : Since t k [] where
  processor := by
    have htime : (if t = k.taskExec then k.systemTime - k.uiTaskStartingTick else 0) = 0 := by
      split_ifs with ht
      · rw [h.unused ht, sub_self]
      · rfl
    rw [processorTime, h.processor, htime]
    rfl
  activations := h.activations
  burst ht := by
    rw [h.unused ht, sub_self]
    rfl
  own _ := Nat.le_refl 0

theorem Since.ticked (h : Since t k events) (qty : Int) :
    Since t (k.ticked qty) (.tick k.taskExec :: events) where
  toCharged := h.toCharged.ticked qty
  burst ht := by
    show k.systemTime + 1 - k.uiTaskStartingTick = ((sliceTicks events + 1 : Nat) : BitVec 32)
    rw [Nat.cast_add, Nat.cast_one, ← h.burst ht]
    ring
  own ht := by
    show sliceTicks events + 1 ≤ _
    rw [count_tick_cons, if_pos (show t = k.taskExec from ht)]
    exact Nat.succ_le_succ (h.own ht)

theorem Since.switch (h : Since t k events) (task : τ) :
    Since t (taskSwitch k task) (.switch task :: events) where
  toCharged := h.toCharged.switch task
  burst _ := sub_self _
  own _ := Nat.zero_le _

theorem Since.step (h : Since t k events) {a : KernelAction τ} (hstep : kernelStep k a = some u) :
    ∃ new, u.hist = new ++ k.hist ∧ Since t u (new ++ events) := by
  rcases kernelStep_cases hstep with
    ⟨-, -, rfl⟩ | ⟨-, -, rfl⟩ | ⟨task, -, rfl⟩ | ⟨preemption, rfl⟩
  · exact ⟨[.switch k.taskDisp, .tick k.taskExec], rfl, (h.ticked _).switch _⟩
  · exact ⟨[.tick k.taskExec], rfl, h.ticked _⟩
  · exact ⟨[.switch task], rfl, h.switch task⟩
  · exact ⟨[], rfl, ⟨h.processor, h.activations⟩, h.burst, h.own⟩

theorem run_since {as : List (KernelAction τ)} (hk : Newborn k t)
    (hrun : run kernelStep k as = some u) :
    ∃ events, u.hist = events ++ k.hist ∧ Since t u events := by
  refine run_invariant (P := fun u => ∃ events, u.hist = events ++ k.hist ∧ Since t u events)
    (fun v a w hv _ hw => ?_) ⟨[], rfl, hk.since⟩ (along_trivial _ _ as) hrun
  obtain ⟨events, hhist, hsince⟩ := hv
  obtain ⟨new, hnew, hsince'⟩ := hsince.step hw
  exact ⟨new ++ events, by rw [hnew, hhist, List.append_assoc], hsince'⟩

theorem Since.reported (h : Since k.taskExec k events) :
    (afterTaskExit k).2.uiProcessorTicks.toNat =
        (events.count (.tick k.taskExec) - sliceTicks events) % 2 ^ 32 ∧
      (afterTaskExit k).2.uiActivations.toNat = events.count (.switch k.taskExec) % 2 ^ 32 := by
  rw [(afterTaskExit_counters k).1, (afterTaskExit_counters k).2]
  constructor
  · have hprocessor := h.processor
    rw [processorTime, if_pos rfl, h.burst rfl] at hprocessor
    have hcount := Nat.sub_add_cancel (h.own rfl)
    have hbits : (k.tasks k.taskExec).uiProcessorTicks =
        ((events.count (.tick k.taskExec) - sliceTicks events : Nat) : BitVec 32) := by
      refine add_right_cancel (b := (sliceTicks events : BitVec 32)) ?_
      rw [hprocessor, ← Nat.cast_add, hcount]
    rw [hbits]
    exact BitVec.toNat_ofNat _ _
  · rw [h.activations]
    exact BitVec.toNat_ofNat _ _

/-- The report of a task is exact exactly when the task exits in the tick in which it
was switched in, and neither of its counters has passed 2^32. -/
theorem exit_report_exact {as : List (KernelAction τ)} (hk : Newborn k u.taskExec)
    (hrun : run kernelStep k as = some u) (hevents : u.hist = events ++ k.hist) :
    ReportsExactly u events ↔ sliceTicks events = 0 ∧
      events.count (.tick u.taskExec) < 2 ^ 32 ∧ events.count (.switch u.taskExec) < 2 ^ 32 := by
  obtain ⟨events', hhist, hsince⟩ := run_since hk hrun
  obtain rfl : events' = events := List.append_cancel_right (hhist.symm.trans hevents)
  obtain ⟨hticks, hswitches⟩ := hsince.reported
  have hown := hsince.own rfl
  rw [ReportsExactly, hticks, hswitches]
  omega

end Exit

theorem exit_report_exact_small : ∃ u : Kernel (Fin 3),
    run kernelStep (Kernel.start 0 1 1) [.tick, .switch 2, .tick, .tick, .switch 2] = some u ∧
      ReportsExactly u u.hist := by
  have hrun : (run kernelStep (Kernel.start (0 : Fin 3) 1 1)
      [.tick, .switch 2, .tick, .tick, .switch 2]).map (fun u => (u.taskExec, u.hist)) =
        some (2, [.switch 2, .tick 2, .tick 2, .switch 2, .tick 0]) := by decide
  obtain ⟨u, hu, hpair⟩ := Option.map_eq_some_iff.mp hrun
  obtain ⟨hexec, hhist⟩ := Prod.mk.inj hpair
  refine ⟨u, hu, (exit_report_exact (start_newborn 0 1 1 u.taskExec) hu
    (List.append_nil u.hist).symm).mpr ?_⟩
  rw [hexec, hhist]
  decide

/-- A task that runs for one tick and exits reports no processor time. -/
theorem exit_report_misses_burst : ¬∀ (as : List (KernelAction (Fin 3))) (u : Kernel (Fin 3)),
    run kernelStep (Kernel.start 0 1 1) as = some u → ReportsExactly u u.hist := by
  intro hall
  have hrun : (run kernelStep (Kernel.start (0 : Fin 3) 1 1) [.switch 2, .tick]).map
      (fun u => decide (ReportsExactly u u.hist)) = some false := by decide
  obtain ⟨u, hu, hnot⟩ := Option.map_eq_some_iff.mp hrun
  exact of_decide_eq_false hnot (hall _ u hu)

end PingPong
