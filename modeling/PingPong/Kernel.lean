import PingPong.Runs
import Mathlib.Data.BitVec
import Mathlib.Logic.Function.Basic

/-! The timer and the task switches. A tick runs `tickHandler`, and a switch of
any cause runs `before_task_switch` and then changes `taskExec`; `task_yield`
switches to the dispatcher. The counters are 32-bit words. The history, newest
event first, is a ghost. -/

namespace PingPong

open Runs

structure Metrics where
  uiExecTicks : BitVec 32
  uiProcessorTicks : BitVec 32
  uiActivations : BitVec 32
  deriving DecidableEq, Repr

inductive KernelEvent (τ : Type*)
  | tick (task : τ)
  | switch (task : τ)
  deriving DecidableEq, Repr

structure Kernel (τ : Type*) where
  taskExec : τ
  taskDisp : τ
  preemption : BitVec 8
  systemTime : BitVec 32
  iTaskTicksQty : Int
  uiTaskStartingTick : BitVec 32
  tasks : τ → Metrics
  hist : List (KernelEvent τ)

inductive KernelAction (τ : Type*)
  | tick
  | switch (task : τ)
  | preemptDisable
  | preemptEnable
  deriving DecidableEq, Repr

def defaultTaskTicks : Int := 40

def Kernel.start {τ : Type*} (taskExec taskDisp : τ) (preemption : BitVec 8) : Kernel τ where
  taskExec := taskExec
  taskDisp := taskDisp
  preemption := preemption
  systemTime := 0
  iTaskTicksQty := defaultTaskTicks
  uiTaskStartingTick := 0
  tasks _ := ⟨0, 0, 0⟩
  hist := []

section Kernel

variable {τ : Type*} [DecidableEq τ]

def metricsHandler (k : Kernel τ) (pstPreviousTask pstNextTask : τ) : Kernel τ :=
  let charged := Function.update k.tasks pstPreviousTask
    { k.tasks pstPreviousTask with
      uiProcessorTicks :=
        (k.tasks pstPreviousTask).uiProcessorTicks + (k.systemTime - k.uiTaskStartingTick) }
  { k with
    tasks := Function.update charged pstNextTask
      { charged pstNextTask with uiActivations := (charged pstNextTask).uiActivations + 1 }
    uiTaskStartingTick := k.systemTime }

def beforeTaskSwitch (k : Kernel τ) (task : τ) : Kernel τ := metricsHandler k k.taskExec task

def taskSwitch (k : Kernel τ) (task : τ) : Kernel τ :=
  { beforeTaskSwitch k task with taskExec := task, hist := .switch task :: k.hist }

def taskYield (k : Kernel τ) : Kernel τ := taskSwitch k k.taskDisp

/-- `true` is the call of `task_yield`. -/
def tickHandler (k : Kernel τ) : Kernel τ × Bool :=
  let ticked := { k with
    iTaskTicksQty := k.iTaskTicksQty - 1
    systemTime := k.systemTime + 1
    hist := .tick k.taskExec :: k.hist }
  if 0 ≥ ticked.iTaskTicksQty then
    ({ ticked with iTaskTicksQty := defaultTaskTicks }, decide (ticked.taskExec ≠ ticked.taskDisp))
  else (ticked, false)

def kernelStep (k : Kernel τ) : KernelAction τ → Option (Kernel τ)
  | .tick => some (if (tickHandler k).2 then taskYield (tickHandler k).1 else (tickHandler k).1)
  | .switch task => some (taskSwitch k task)
  | .preemptDisable => some { k with preemption := 0 }
  | .preemptEnable => some { k with preemption := 1 }

/-- A tick at this moment forces the running task to yield. -/
def Kernel.forcesYield (k : Kernel τ) : Bool := (tickHandler k).2

def Kernel.ticked (k : Kernel τ) (iTaskTicksQty : Int) : Kernel τ :=
  { k with
    iTaskTicksQty := iTaskTicksQty
    systemTime := k.systemTime + 1
    hist := .tick k.taskExec :: k.hist }

theorem tickHandler_expired {k : Kernel τ} (h : k.iTaskTicksQty ≤ 1) :
    tickHandler k = (k.ticked defaultTaskTicks, decide (k.taskExec ≠ k.taskDisp)) := by
  have hle : 0 ≥ k.iTaskTicksQty - 1 := by omega
  simp only [tickHandler, if_pos hle, Kernel.ticked]

theorem tickHandler_counting {k : Kernel τ} (h : 1 < k.iTaskTicksQty) :
    tickHandler k = (k.ticked (k.iTaskTicksQty - 1), false) := by
  have hlt : ¬0 ≥ k.iTaskTicksQty - 1 := by omega
  simp only [tickHandler, if_neg hlt, Kernel.ticked]

theorem Kernel.forcesYield_iff {k : Kernel τ} :
    k.forcesYield = true ↔ k.iTaskTicksQty ≤ 1 ∧ k.taskExec ≠ k.taskDisp := by
  unfold Kernel.forcesYield
  by_cases h : k.iTaskTicksQty ≤ 1
  · simp [tickHandler_expired h, h]
  · simp [tickHandler_counting (Int.not_le.mp h), h]

/-- What one step does: a tick that forces a yield, one that does not, a switch,
or a change of `preemption`. -/
theorem kernelStep_cases {k u : Kernel τ} {a : KernelAction τ} (h : kernelStep k a = some u) :
    (a = .tick ∧ k.forcesYield = true ∧ u = taskYield (k.ticked defaultTaskTicks)) ∨
      (a = .tick ∧ k.forcesYield = false ∧ u = k.ticked
        (if k.iTaskTicksQty ≤ 1 then defaultTaskTicks else k.iTaskTicksQty - 1)) ∨
      (∃ task, a = .switch task ∧ u = taskSwitch k task) ∨
      ∃ preemption, u = { k with preemption := preemption } := by
  cases a with
  | tick =>
    simp only [kernelStep, Option.some.injEq] at h
    by_cases hqty : k.iTaskTicksQty ≤ 1
    · have hforce : k.forcesYield = decide (k.taskExec ≠ k.taskDisp) := by
        rw [Kernel.forcesYield, tickHandler_expired hqty]
      rw [tickHandler_expired hqty] at h
      cases hdisp : decide (k.taskExec ≠ k.taskDisp) with
      | true =>
        rw [hdisp, if_pos rfl] at h
        exact .inl ⟨rfl, hforce.trans hdisp, h.symm⟩
      | false =>
        rw [hdisp, if_neg Bool.false_ne_true] at h
        rw [if_pos hqty]
        exact .inr (.inl ⟨rfl, hforce.trans hdisp, h.symm⟩)
    · have hforce : k.forcesYield = false := by
        rw [Kernel.forcesYield, tickHandler_counting (Int.not_le.mp hqty)]
      rw [tickHandler_counting (Int.not_le.mp hqty), if_neg Bool.false_ne_true] at h
      rw [if_neg hqty]
      exact .inr (.inl ⟨rfl, hforce, h.symm⟩)
  | switch task => exact .inr (.inr (.inl ⟨task, rfl, (Option.some.inj h).symm⟩))
  | preemptDisable => exact .inr (.inr (.inr ⟨0, (Option.some.inj h).symm⟩))
  | preemptEnable => exact .inr (.inr (.inr ⟨1, (Option.some.inj h).symm⟩))

theorem taskSwitch_uiProcessorTicks (k : Kernel τ) (task t : τ) :
    ((taskSwitch k task).tasks t).uiProcessorTicks = (k.tasks t).uiProcessorTicks +
      if t = k.taskExec then k.systemTime - k.uiTaskStartingTick else 0 := by
  by_cases ht : t = task
  · subst t
    by_cases he : task = k.taskExec
    · subst task
      simp [taskSwitch, beforeTaskSwitch, metricsHandler]
    · simp [taskSwitch, beforeTaskSwitch, metricsHandler, he]
  · by_cases he : t = k.taskExec
    · subst t
      simp [taskSwitch, beforeTaskSwitch, metricsHandler, ht]
    · simp [taskSwitch, beforeTaskSwitch, metricsHandler, ht, he]

theorem taskSwitch_uiActivations (k : Kernel τ) (task t : τ) :
    ((taskSwitch k task).tasks t).uiActivations = (k.tasks t).uiActivations +
      if t = task then 1 else 0 := by
  by_cases ht : t = task
  · subst t
    by_cases he : task = k.taskExec
    · subst task
      simp [taskSwitch, beforeTaskSwitch, metricsHandler]
    · simp [taskSwitch, beforeTaskSwitch, metricsHandler, he]
  · by_cases he : t = k.taskExec
    · subst t
      simp [taskSwitch, beforeTaskSwitch, metricsHandler, ht]
    · simp [taskSwitch, beforeTaskSwitch, metricsHandler, ht, he]

end Kernel

end PingPong
