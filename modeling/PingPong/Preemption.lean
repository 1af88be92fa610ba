import PingPong.Kernel

/-! When `tickHandler` takes the processor away. The counter of ticks is one for
all tasks and is reset by nothing but its own end, so the forced yields fall on
every `DEFAULT_TASK_TICKS`-th tick, whatever task runs then and whether or not it
has disabled preemption. -/

namespace PingPong

open Runs

section Preemption

variable {τ : Type*}

def KernelEvent.isTick : KernelEvent τ → Bool
  | .tick _ => true
  | .switch _ => false

def ticks (hist : List (KernelEvent τ)) : Nat := hist.countP KernelEvent.isTick

def sliceTicks (hist : List (KernelEvent τ)) : Nat := (hist.takeWhile KernelEvent.isTick).length

structure Quantum (k : Kernel τ) : Prop where
  count : k.iTaskTicksQty = 40 - (ticks k.hist % 40 : Nat)
  slice : k.taskExec ≠ k.taskDisp → sliceTicks k.hist ≤ ticks k.hist % 40

theorem ticks_tick (task : τ) (hist : List (KernelEvent τ)) :
    ticks (.tick task :: hist) = ticks hist + 1 := List.countP_cons_of_pos rfl

theorem ticks_switch (task : τ) (hist : List (KernelEvent τ)) :
    ticks (.switch task :: hist) = ticks hist := List.countP_cons_of_neg Bool.false_ne_true

theorem start_quantum (taskExec taskDisp : τ) (preemption : BitVec 8) :
    Quantum (Kernel.start taskExec taskDisp preemption) where
  count := rfl
  slice _ := Nat.le_refl 0

variable [DecidableEq τ]

theorem Quantum.step {k u : Kernel τ} {a : KernelAction τ} (hk : Quantum k)
    (h : kernelStep k a = some u) : Quantum u := by
  have hcount := hk.count
  rcases kernelStep_cases h with
    ⟨-, hforce, rfl⟩ | ⟨-, hforce, rfl⟩ | ⟨task, -, rfl⟩ | ⟨preemption, rfl⟩
  · have hqty := (Kernel.forcesYield_iff.mp hforce).1
    refine ⟨?_, fun hne => absurd rfl hne⟩
    show defaultTaskTicks =
      40 - (ticks (.switch k.taskDisp :: .tick k.taskExec :: k.hist) % 40 : Nat)
    rw [ticks_switch, ticks_tick]
    unfold defaultTaskTicks
    omega
  · refine ⟨?_, fun hne => ?_⟩
    · show _ = 40 - ((ticks (.tick k.taskExec :: k.hist) % 40 : Nat) : Int)
      rw [ticks_tick]
      simp only [Kernel.ticked, defaultTaskTicks]
      split_ifs <;> omega
    · have hslice := hk.slice hne
      have hqty : ¬k.iTaskTicksQty ≤ 1 := by
        intro hle
        rw [Kernel.forcesYield_iff.mpr ⟨hle, hne⟩] at hforce
        cases hforce
      show sliceTicks k.hist + 1 ≤ ticks (.tick k.taskExec :: k.hist) % 40
      rw [ticks_tick]
      omega
  · refine ⟨?_, fun _ => Nat.zero_le _⟩
    show k.iTaskTicksQty = 40 - ((ticks (.switch task :: k.hist) % 40 : Nat) : Int)
    rw [ticks_switch]
    exact hcount
  · exact ⟨hcount, hk.slice⟩

theorem Quantum.forcesYield {k : Kernel τ} (hk : Quantum k) :
    k.forcesYield = true ↔ 40 ∣ ticks k.hist + 1 ∧ k.taskExec ≠ k.taskDisp := by
  have hcount := hk.count
  have hlast : k.iTaskTicksQty ≤ 1 ↔ 40 ∣ ticks k.hist + 1 := by omega
  rw [Kernel.forcesYield_iff, hlast]

/-- No tick of the run takes the processor from the dispatcher or from a task
that has disabled preemption. -/
def RespectsPreemption (k : Kernel τ) (as : List (KernelAction τ)) : Prop :=
  Along kernelStep (fun u a => a = .tick → u.forcesYield = true →
    u.preemption = 1 ∧ u.taskExec ≠ u.taskDisp) k as

instance (k : Kernel τ) (as : List (KernelAction τ)) : Decidable (RespectsPreemption k as) :=
  inferInstanceAs (Decidable (Along kernelStep _ k as))

/-- The ticks of a run respect disabled preemption exactly when each tick whose
number is a multiple of `DEFAULT_TASK_TICKS` comes while preemption is enabled
or the dispatcher runs. -/
theorem critical_sections_kept (taskExec taskDisp : τ) (preemption : BitVec 8)
    (as : List (KernelAction τ)) :
    RespectsPreemption (Kernel.start taskExec taskDisp preemption) as ↔
      Along kernelStep (fun u a => a = .tick → 40 ∣ ticks u.hist + 1 →
        u.preemption = 1 ∨ u.taskExec = u.taskDisp)
        (Kernel.start taskExec taskDisp preemption) as := by
  refine along_congr (fun _ _ _ hk h => hk.step h) (fun u a hu => ?_)
    (start_quantum taskExec taskDisp preemption) as
  rw [hu.forcesYield]
  constructor
  · intro hkept htick hlast
    by_cases hdisp : u.taskExec = u.taskDisp
    · exact .inr hdisp
    · exact .inl (hkept htick ⟨hlast, hdisp⟩).1
  · intro hready htick hforce
    exact ⟨(hready htick hforce.1).resolve_right hforce.2, hforce.2⟩

/-- Task 2 disables preemption and loses the processor at the 40th tick. -/
theorem tick_interrupts_critical_section :
    ¬∀ as : List (KernelAction Nat), RespectsPreemption (Kernel.start 2 1 1) as := by
  intro hall
  have hkept := hall (.preemptDisable :: List.replicate 40 .tick)
  revert hkept
  decide

/-- A running task is forced to yield exactly at the ticks whose number, over all
tasks, is a multiple of `DEFAULT_TASK_TICKS`; so it is at the latest when it has
received that many itself. -/
theorem yield_on_common_count (taskExec taskDisp : τ) (preemption : BitVec 8)
    (as : List (KernelAction τ)) :
    Along kernelStep (fun u a => a = .tick → u.taskExec ≠ u.taskDisp →
      (u.forcesYield = true ↔ 40 ∣ ticks u.hist + 1) ∧ sliceTicks u.hist + 1 ≤ 40 ∧
        (sliceTicks u.hist + 1 = 40 → u.forcesYield = true))
      (Kernel.start taskExec taskDisp preemption) as := by
  refine (along_congr (fun _ _ _ hk h => hk.step h) (fun u a hu => ?_)
    (start_quantum taskExec taskDisp preemption) as).mpr (along_trivial _ _ as)
  refine iff_of_true (fun _ hne => ?_) trivial
  have hslice := hu.slice hne
  have hforce : u.forcesYield = true ↔ 40 ∣ ticks u.hist + 1 := by
    rw [hu.forcesYield]
    exact and_iff_left hne
  refine ⟨hforce, by omega, fun hend => hforce.mpr ?_⟩
  omega

/-- Task 2 uses 39 ticks, and task 3, which is switched in then, is forced to
yield at its first one. -/
theorem slice_cut_short :
    ¬∀ as : List (KernelAction Nat), Along kernelStep (fun u a => a = .tick →
      u.taskExec ≠ u.taskDisp → (u.forcesYield = true ↔ sliceTicks u.hist + 1 = 40))
      (Kernel.start 2 1 1) as := by
  intro hall
  have hexact := hall (List.replicate 39 .tick ++ [.switch 1, .switch 3, .tick])
  revert hexact
  decide

end Preemption

end PingPong
