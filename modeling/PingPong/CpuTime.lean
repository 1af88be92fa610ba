import PingPong.Preemption
import Mathlib.Algebra.BigOperators.Ring.Finset
import Mathlib.Tactic.Ring

/-! The accounting of processor time. Ticks are charged to a task when it is
switched out, so the time of the running task is its counter and what has passed
since `uiTaskStartingTick`; the sums are taken modulo `2 ^ 32`. -/

namespace PingPong

open Runs

section CpuTime

variable {τ : Type*}

theorem switch_ne_tick (x t : τ) : KernelEvent.switch x ≠ .tick t := by
  intro he
  cases he

variable [DecidableEq τ]

/-- The ticks charged to `t`, and for the running task those not charged yet. -/
def processorTime (k : Kernel τ) (t : τ) : BitVec 32 :=
  (k.tasks t).uiProcessorTicks +
    if t = k.taskExec then k.systemTime - k.uiTaskStartingTick else 0

structure CpuCounts (k : Kernel τ) : Prop where
  time : k.systemTime = (ticks k.hist : BitVec 32)
  processor : ∀ t, processorTime k t = (k.hist.count (.tick t) : BitVec 32)
  activations : ∀ t, (k.tasks t).uiActivations = (k.hist.count (.switch t) : BitVec 32)

theorem count_tick_cons (x t : τ) (hist : List (KernelEvent τ)) :
    (KernelEvent.tick x :: hist).count (.tick t) =
      hist.count (.tick t) + if t = x then 1 else 0 := by
  by_cases ht : t = x
  · rw [ht, List.count_cons_self, if_pos rfl]
  · have hne : KernelEvent.tick x ≠ .tick t := fun he => ht (KernelEvent.tick.inj he).symm
    rw [List.count_cons_of_ne hne, if_neg ht, Nat.add_zero]

theorem count_switch_cons (x t : τ) (hist : List (KernelEvent τ)) :
    (KernelEvent.switch x :: hist).count (.switch t) =
      hist.count (.switch t) + if t = x then 1 else 0 := by
  by_cases ht : t = x
  · rw [ht, List.count_cons_self, if_pos rfl]
  · have hne : KernelEvent.switch x ≠ .switch t := fun he => ht (KernelEvent.switch.inj he).symm
    rw [List.count_cons_of_ne hne, if_neg ht, Nat.add_zero]

theorem sum_count_tick [Fintype τ] (hist : List (KernelEvent τ)) :
    ∑ t, hist.count (.tick t) = ticks hist := by
  induction hist with
  | nil => simp [ticks]
  | cons e hist ih =>
    cases e with
    | tick x =>
      simp only [count_tick_cons, Finset.sum_add_distrib, ih, ticks_tick]
      simp
    | switch x =>
      have hcount (t : τ) : (KernelEvent.switch x :: hist).count (.tick t) =
          hist.count (.tick t) := List.count_cons_of_ne (switch_ne_tick x t)
      simp only [hcount, ih, ticks_switch]

theorem start_cpuCounts (taskExec taskDisp : τ) (preemption : BitVec 8) :
    CpuCounts (Kernel.start taskExec taskDisp preemption) where
  time := rfl
  processor t := by simp [processorTime, Kernel.start]
  activations t := rfl

theorem processorTime_ticked (k : Kernel τ) (qty : Int) (t : τ) :
    processorTime (k.ticked qty) t = processorTime k t + if t = k.taskExec then 1 else 0 := by
  show (k.tasks t).uiProcessorTicks +
    (if t = k.taskExec then k.systemTime + 1 - k.uiTaskStartingTick else 0) = _
  unfold processorTime
  split_ifs
  · ring
  · rw [add_zero, add_zero]

/-- A switch charges the outgoing task what it has used and moves the start
stamp, which changes no task's time; it may be a switch of a task to itself. -/
theorem processorTime_switch (k : Kernel τ) (task t : τ) :
    processorTime (taskSwitch k task) t = processorTime k t := by
  have hstamp : (taskSwitch k task).systemTime - (taskSwitch k task).uiTaskStartingTick = 0 :=
    sub_self _
  simp only [processorTime, taskSwitch_uiProcessorTicks, hstamp, ite_self, add_zero]

/-- The counters of `t` are those of `events`. -/
structure Charged (t : τ) (k : Kernel τ) (events : List (KernelEvent τ)) : Prop where
  processor : processorTime k t = (events.count (.tick t) : BitVec 32)
  activations : (k.tasks t).uiActivations = (events.count (.switch t) : BitVec 32)

theorem Charged.ticked {t : τ} {k : Kernel τ} {events : List (KernelEvent τ)}
    (h : Charged t k events) (qty : Int) :
    Charged t (k.ticked qty) (.tick k.taskExec :: events) where
  processor := by
    rw [processorTime_ticked, count_tick_cons, h.processor, Nat.cast_add, Nat.cast_ite,
      Nat.cast_one, Nat.cast_zero]
  activations := by
    rw [List.count_cons_of_ne (switch_ne_tick t k.taskExec).symm]
    exact h.activations

theorem Charged.switch {t : τ} {k : Kernel τ} {events : List (KernelEvent τ)}
    (h : Charged t k events) (task : τ) :
    Charged t (taskSwitch k task) (.switch task :: events) where
  processor := by
    rw [List.count_cons_of_ne (switch_ne_tick task t), processorTime_switch]
    exact h.processor
  activations := by
    rw [taskSwitch_uiActivations, h.activations, count_switch_cons, Nat.cast_add, Nat.cast_ite,
      Nat.cast_one, Nat.cast_zero]

theorem CpuCounts.charged {k : Kernel τ} (hk : CpuCounts k) (t : τ) : Charged t k k.hist :=
  ⟨hk.processor t, hk.activations t⟩

theorem CpuCounts.ticked {k : Kernel τ} (hk : CpuCounts k) (qty : Int) :
    CpuCounts (k.ticked qty) where
  time := by
    show k.systemTime + 1 = (ticks (.tick k.taskExec :: k.hist) : BitVec 32)
    rw [ticks_tick, hk.time, Nat.cast_add, Nat.cast_one]
  processor t := ((hk.charged t).ticked qty).processor
  activations t := ((hk.charged t).ticked qty).activations

theorem CpuCounts.switch {k : Kernel τ} (hk : CpuCounts k) (task : τ) :
    CpuCounts (taskSwitch k task) where
  time := by
    show k.systemTime = (ticks (.switch task :: k.hist) : BitVec 32)
    rw [ticks_switch]
    exact hk.time
  processor t := ((hk.charged t).switch task).processor
  activations t := ((hk.charged t).switch task).activations

theorem CpuCounts.step {k u : Kernel τ} {a : KernelAction τ} (hk : CpuCounts k)
    (h : kernelStep k a = some u) : CpuCounts u := by
  rcases kernelStep_cases h with
    ⟨-, -, rfl⟩ | ⟨-, -, rfl⟩ | ⟨task, -, rfl⟩ | ⟨preemption, rfl⟩
  · exact (hk.ticked _).switch _
  · exact hk.ticked _
  · exact hk.switch task
  · exact ⟨hk.time, hk.processor, hk.activations⟩

theorem run_cpuCounts {taskExec taskDisp : τ} {preemption : BitVec 8} {as : List (KernelAction τ)}
    {u : Kernel τ} (h : run kernelStep (Kernel.start taskExec taskDisp preemption) as = some u) :
    CpuCounts u :=
  run_invariant (fun _ _ _ hk _ ht => hk.step ht) (start_cpuCounts taskExec taskDisp preemption)
    (along_trivial _ _ as) h

/-- In every run each task's processor time is the number of ticks that hit it,
the times of all tasks add up to `systemTime`, and `uiActivations` is the number
of switches into the task, all modulo `2 ^ 32`. -/
theorem cpu_time_conserved [Fintype τ] {taskExec taskDisp : τ} {preemption : BitVec 8}
    {as : List (KernelAction τ)} {u : Kernel τ}
    (h : run kernelStep (Kernel.start taskExec taskDisp preemption) as = some u) :
    (∀ t, (processorTime u t).toNat = u.hist.count (.tick t) % 2 ^ 32) ∧
      ∑ t, processorTime u t = u.systemTime ∧
      ∀ t, ((u.tasks t).uiActivations).toNat = u.hist.count (.switch t) % 2 ^ 32 := by
  have hu := run_cpuCounts h
  refine ⟨fun t => ?_, ?_, fun t => ?_⟩
  · rw [hu.processor t]
    exact BitVec.toNat_ofNat _ _
  · simp only [hu.processor, hu.time, ← sum_count_tick u.hist, Nat.cast_sum]
  · rw [hu.activations t]
    exact BitVec.toNat_ofNat _ _

theorem cpu_time_conserved_small : ∃ u : Kernel (Fin 3),
    run kernelStep (Kernel.start 0 1 1) [.tick, .switch 2, .tick, .tick, .switch 2, .tick] =
      some u ∧
    (processorTime u 2).toNat = 3 ∧ ∑ t, processorTime u t = u.systemTime := by
  have hrun : (run kernelStep (Kernel.start (0 : Fin 3) 1 1)
      [.tick, .switch 2, .tick, .tick, .switch 2, .tick]).map
        (fun u => u.hist.count (.tick 2)) = some 3 := by decide
  obtain ⟨u, hu, hcount⟩ := Option.map_eq_some_iff.mp hrun
  obtain ⟨hprocessor, hsum, -⟩ := cpu_time_conserved hu
  refine ⟨u, hu, ?_, hsum⟩
  rw [hprocessor, hcount]
  rfl

theorem run_switches (t : τ) (m : Nat) (k : Kernel τ) : ∃ u,
    run kernelStep k (List.replicate m (.switch t)) = some u ∧
      u.hist = List.replicate m (.switch t) ++ k.hist := by
  induction m generalizing k with
  | zero => exact ⟨k, rfl, rfl⟩
  | succ m ih =>
    obtain ⟨u, hu, hhist⟩ := ih (taskSwitch k t)
    refine ⟨u, run_cons.mpr ⟨taskSwitch k t, rfl, hu⟩, ?_⟩
    rw [hhist, List.replicate_succ', List.append_assoc]
    rfl

/-- After `2 ^ 32` switches of a task to itself its `uiActivations` is 0 again. -/
theorem activations_wrap : ¬∀ (as : List (KernelAction Nat)) (u : Kernel Nat),
    run kernelStep (Kernel.start 0 1 1) as = some u →
      ((u.tasks 0).uiActivations).toNat = u.hist.count (.switch 0) := by
  intro hall
  obtain ⟨u, hu, hhist⟩ := run_switches 0 (2 ^ 32) (Kernel.start 0 1 1)
  have hcount : u.hist.count (.switch 0) = 2 ^ 32 := by
    rw [hhist, List.count_append, List.count_replicate_self]
    rfl
  have hexact := hall _ u hu
  rw [(run_cpuCounts hu).activations 0, hcount] at hexact
  exact absurd hexact (by decide)

end CpuTime

end PingPong
