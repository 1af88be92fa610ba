import PingPong.CInt
import PingPong.Linked
import PingPong.Scheduler

/-! The scheduler on the tasks in memory. Its two loops follow `next` until they are
back at `readyQueue`, with at most `fuel` rounds each, and on a ring they do what
`scheduler` does on the sequence of its tasks. -/

namespace PingPong

open Linked

/-- A `task_t`; `rest` is every field that the scheduler does not name. -/
structure TaskT (τ ρ : Type*) extends Task where
  prev : τ
  next : τ
  rest : ρ

structure TaskRing (τ ρ : Type*) where
  readyQueue : Option τ
  tasks : τ → TaskT τ ρ

namespace TaskRing

variable {τ ρ : Type*}

def highestBody (tasks : τ → TaskT τ ρ) (pstHighestTask pstListRunner : τ) : τ :=
  if (tasks pstListRunner).iDinamPrio < (tasks pstHighestTask).iDinamPrio then pstListRunner
  else pstHighestTask

/-- From `readyQueue` on, `next` visits the queue and comes back. -/
structure Circular (s : TaskRing τ ρ) (queue : List τ) : Prop where
  head : s.readyQueue = queue.head?
  ring : ∀ x ∈ s.readyQueue, Path (fun x => (s.tasks x).next) x queue x
  nodup : queue.Nodup

def prios (s : TaskRing τ ρ) (x : τ) : Task := (s.tasks x).toTask

def withPrios (s : TaskRing τ ρ) (prios : τ → Task) : TaskRing τ ρ :=
  { s with tasks := fun x => { s.tasks x with toTask := prios x } }

variable [DecidableEq τ]

def getHighestPrioTaks (fuel : Nat) (tasks : τ → TaskT τ ρ) (pstFirstTask : τ) : Option τ :=
  doRing (highestBody tasks) (fun _ x => (tasks x).next) pstFirstTask fuel pstFirstTask
    pstFirstTask

def resetPrio (tasks : τ → TaskT τ ρ) (pstNextTask : τ) : τ → TaskT τ ρ :=
  Function.update tasks pstNextTask
    { tasks pstNextTask with iDinamPrio := (tasks pstNextTask).iStaticPrio }

def agingBody (ia : IntArith) (pstNextTask : τ) (tasks : τ → TaskT τ ρ) (pstListRunner : τ) :
    τ → TaskT τ ρ :=
  if pstListRunner ≠ pstNextTask then
    Function.update tasks pstListRunner
      { tasks pstListRunner with
        iDinamPrio := ia.add (tasks pstListRunner).iDinamPrio unixAgingFactor }
  else tasks

def agingRing (ia : IntArith) (fuel : Nat) (pstNextTask : τ) (tasks : τ → TaskT τ ρ)
    (pstFirstTask : τ) : Option (τ → TaskT τ ρ) :=
  doRing (agingBody ia pstNextTask) (fun tasks x => (tasks x).next) pstFirstTask fuel tasks
    pstFirstTask

def scheduler (ia : IntArith) (fuel : Nat) (s : TaskRing τ ρ) :
    Option (Option τ × TaskRing τ ρ) :=
  match s.readyQueue with
  | none => some (none, s)
  | some readyQueue =>
    (getHighestPrioTaks fuel s.tasks readyQueue).bind fun pstNextTask =>
      (agingRing ia fuel pstNextTask (resetPrio s.tasks pstNextTask) readyQueue).map fun tasks =>
        (some pstNextTask, { s with tasks := tasks })

theorem resetPrio_next (tasks : τ → TaskT τ ρ) (x : τ) :
    (fun y => (resetPrio tasks x y).next) = fun y => (tasks y).next := by
  funext y
  unfold resetPrio
  by_cases hy : y = x
  · subst y
    rw [Function.update_self]
  · rw [Function.update_of_ne hy]

theorem agingBody_next (ia : IntArith) (next : τ) (tasks : τ → TaskT τ ρ) (x : τ) :
    (fun y => (agingBody ia next tasks x y).next) = fun y => (tasks y).next := by
  funext y
  unfold agingBody
  split_ifs
  · by_cases hy : y = x
    · subst y
      rw [Function.update_self]
    · rw [Function.update_of_ne hy]
  · rfl

theorem foldl_agingBody (ia : IntArith) (next : τ) {l : List τ} (hnd : l.Nodup)
    (tasks : τ → TaskT τ ρ) (x : τ) :
    l.foldl (agingBody ia next) tasks x =
      if x ∈ l ∧ x ≠ next then
        { tasks x with iDinamPrio := ia.add (tasks x).iDinamPrio unixAgingFactor }
      else tasks x := by
  induction l generalizing tasks with
  | nil => simp
  | cons y l ih =>
    obtain ⟨hy, hnd'⟩ := List.nodup_cons.mp hnd
    rw [List.foldl_cons, ih hnd']
    by_cases hyn : y = next
    · subst y
      by_cases hx : x = next <;> simp [agingBody, hx]
    · by_cases hx : x = y
      · subst x
        simp [agingBody, hy, hyn]
      · simp [agingBody, hx, hyn]

theorem foldl_aging_reset (ia : IntArith) {l : List τ} (hnd : l.Nodup) (tasks : τ → TaskT τ ρ)
    (x y : τ) :
    l.foldl (agingBody ia x) (resetPrio tasks x) y =
      if y = x then { tasks x with iDinamPrio := (tasks x).iStaticPrio }
      else if y ∈ l then { tasks y with iDinamPrio := ia.add (tasks y).iDinamPrio unixAgingFactor }
      else tasks y := by
  rw [foldl_agingBody ia x hnd, resetPrio]
  by_cases hy : y = x
  · subst y
    rw [if_neg fun h => h.2 rfl, if_pos rfl, Function.update_self]
  · simp only [Function.update_of_ne hy, ne_eq, hy, not_false_eq_true, and_true, if_false]

theorem foldl_aging_next (ia : IntArith) (x : τ) (l : List τ) (tasks : τ → TaskT τ ρ) :
    (fun y => (l.foldl (agingBody ia x) tasks y).next) = fun y => (tasks y).next := by
  induction l generalizing tasks with
  | nil => rfl
  | cons y l ih => rw [List.foldl_cons, ih, agingBody_next]

end TaskRing

theorem aged_wrap32 {d : Int} (hlo : intMin < d) (hhi : d ≤ intMax) :
    IntArith.wrap32.add d unixAgingFactor = d + unixAgingFactor := by
  refine wrapInt_of_inInt ?_ ?_
  · show intMin ≤ d + -1
    omega
  · show d + -1 ≤ intMax
    omega

section Refines

variable {τ ρ : Type*}

variable [DecidableEq τ]

theorem TaskRing.getHighestPrioTaks_eq {s : TaskRing τ ρ} {first : τ} {l : List τ}
    (hs : s.Circular (first :: l)) {fuel : Nat} (hfuel : (first :: l).length ≤ fuel) :
    TaskRing.getHighestPrioTaks fuel s.tasks first =
      some (PingPong.getHighestPrioTaks s.prios first l) := by
  have hloop : TaskRing.getHighestPrioTaks fuel s.tasks first =
      some ((first :: l).foldl (TaskRing.highestBody s.tasks) first) :=
    doRing_of_path _ (fun _ x => (s.tasks x).next) (fun _ _ => rfl) (hs.ring first hs.head)
      (List.cons_ne_nil first l) (List.nodup_cons.mp hs.nodup).1 hfuel
  rw [hloop, PingPong.getHighestPrioTaks, highestLoop_foldl]
  rfl

theorem TaskRing.agingRing_eq {ia : IntArith} {s : TaskRing τ ρ} {first : τ} {l : List τ}
    (hs : s.Circular (first :: l)) (next : τ) {fuel : Nat} (hfuel : (first :: l).length ≤ fuel) :
    TaskRing.agingRing ia fuel next (TaskRing.resetPrio s.tasks next) first =
      some ((first :: l).foldl (TaskRing.agingBody ia next)
        (TaskRing.resetPrio s.tasks next)) := by
  have hpath := hs.ring first hs.head
  rw [← TaskRing.resetPrio_next s.tasks next] at hpath
  exact doRing_of_path _ (fun (tasks : τ → TaskT τ ρ) x => (tasks x).next)
    (TaskRing.agingBody_next ia next) hpath (List.cons_ne_nil first l)
    (List.nodup_cons.mp hs.nodup).1 hfuel

/-- The reset and the second loop write the priorities that `scheduler` computes, and
nothing else. -/
theorem TaskRing.foldl_aging_prios {ia : IntArith} {s : TaskRing τ ρ} {first : τ} {l : List τ}
    (hnd : (first :: l).Nodup)
    (hadd : ∀ x ∈ first :: l, ia.add (s.tasks x).iDinamPrio unixAgingFactor =
      (s.tasks x).iDinamPrio + unixAgingFactor) :
    (first :: l).foldl (TaskRing.agingBody ia (PingPong.getHighestPrioTaks s.prios first l))
        (TaskRing.resetPrio s.tasks (PingPong.getHighestPrioTaks s.prios first l)) =
      (s.withPrios (PingPong.scheduler (first :: l) s.prios).2).tasks := by
  funext x
  rw [TaskRing.foldl_aging_reset ia hnd]
  simp only [TaskRing.withPrios, PingPong.scheduler, agingLoop_apply _ hnd]
  by_cases hx : x = PingPong.getHighestPrioTaks s.prios first l
  · simp [hx, TaskRing.prios]
  · by_cases hmem : x ∈ first :: l
    · simp [hx, hmem, TaskRing.prios, hadd x hmem]
    · simp [hx, hmem, TaskRing.prios]

theorem TaskRing.scheduler_run {ia : IntArith} {s : TaskRing τ ρ} {first : τ} {l : List τ}
    (hs : s.Circular (first :: l)) {fuel : Nat} (hfuel : (first :: l).length ≤ fuel) :
    s.scheduler ia fuel = some (some (PingPong.getHighestPrioTaks s.prios first l), { s with
      tasks := (first :: l).foldl
        (TaskRing.agingBody ia (PingPong.getHighestPrioTaks s.prios first l))
        (TaskRing.resetPrio s.tasks (PingPong.getHighestPrioTaks s.prios first l)) }) := by
  have hhead : s.readyQueue = some first := hs.head
  simp only [TaskRing.scheduler, hhead, TaskRing.getHighestPrioTaks_eq hs hfuel,
    Option.bind_some, TaskRing.agingRing_eq hs _ hfuel, Option.map_some]

/-- In memory the scheduler does what it does on the sequence of tasks, as long as no
priority that it lowers leaves the range of the arithmetic. -/
theorem TaskRing.scheduler_eq {ia : IntArith} {s : TaskRing τ ρ} {queue : List τ}
    (hs : s.Circular queue)
    (hadd : ∀ x ∈ queue, ia.add (s.tasks x).iDinamPrio unixAgingFactor =
      (s.tasks x).iDinamPrio + unixAgingFactor) {fuel : Nat} (hfuel : queue.length ≤ fuel) :
    s.scheduler ia fuel = some ((PingPong.scheduler queue s.prios).1,
      s.withPrios (PingPong.scheduler queue s.prios).2) := by
  cases queue with
  | nil =>
    have hhead : s.readyQueue = none := hs.head
    simp only [TaskRing.scheduler, hhead]
    rfl
  | cons first l =>
    rw [TaskRing.scheduler_run hs hfuel, TaskRing.foldl_aging_prios hs.nodup hadd]
    rfl

/-- Over 32-bit words the scheduler computes the exact priorities, unless a task in the
queue is at `INT_MIN`. -/
theorem TaskRing.scheduler_wrap32 {s : TaskRing τ ρ} {queue : List τ} (hs : s.Circular queue)
    (hint : ∀ x ∈ queue, intMin < (s.tasks x).iDinamPrio ∧ (s.tasks x).iDinamPrio ≤ intMax)
    {fuel : Nat} (hfuel : queue.length ≤ fuel) :
    s.scheduler .wrap32 fuel = s.scheduler .exact fuel := by
  have hexact : s.scheduler .exact fuel = _ := TaskRing.scheduler_eq hs (fun _ _ => rfl) hfuel
  rw [hexact]
  exact TaskRing.scheduler_eq hs (fun x hx => aged_wrap32 (hint x hx).1 (hint x hx).2) hfuel

/-- On a ring of any length `scheduler` returns the first task of least dynamic
priority, resets it and ages the others by one, and changes nothing else; only a task at
`INT_MIN` comes out above instead of below. -/
theorem ring_scheduler_chooses {s : TaskRing τ ρ} {queue : List τ} (hs : s.Circular queue)
    (hne : queue ≠ [])
    (hint : ∀ x ∈ queue, intMin ≤ (s.tasks x).iDinamPrio ∧ (s.tasks x).iDinamPrio ≤ intMax)
    {fuel : Nat} (hfuel : queue.length ≤ fuel) :
    ∃ x u pre post, s.scheduler .wrap32 fuel = some (some x, u) ∧ queue = pre ++ x :: post ∧
      (∀ y ∈ pre, (s.tasks x).iDinamPrio < (s.tasks y).iDinamPrio) ∧
      (∀ y ∈ post, (s.tasks x).iDinamPrio ≤ (s.tasks y).iDinamPrio) ∧
      u.tasks x = { s.tasks x with iDinamPrio := (s.tasks x).iStaticPrio } ∧
      (∀ y ∈ queue, y ≠ x →
        u.tasks y = { s.tasks y with iDinamPrio := wrapInt ((s.tasks y).iDinamPrio - 1) }) ∧
      (∀ y ∈ queue, y ≠ x → intMin < (s.tasks y).iDinamPrio →
        (u.tasks y).iDinamPrio = (s.tasks y).iDinamPrio - 1) ∧
      (∀ y ∉ queue, u.tasks y = s.tasks y) ∧ u.Circular queue := by
  obtain ⟨first, l, rfl⟩ := List.exists_cons_of_ne_nil hne
  have hrun : s.scheduler .wrap32 fuel = _ := TaskRing.scheduler_run hs hfuel
  obtain ⟨pre, post, hsplit, hpre, hpost⟩ := getHighestPrioTaks_firstMin s.prios first l
  generalize PingPong.getHighestPrioTaks s.prios first l = x at hrun hsplit hpre hpost
  have hmem : x ∈ first :: l := by
    rw [hsplit]
    simp
  have htasks := TaskRing.foldl_aging_reset .wrap32 hs.nodup s.tasks x
  have hnext := TaskRing.foldl_aging_next .wrap32 x (first :: l) (TaskRing.resetPrio s.tasks x)
  rw [TaskRing.resetPrio_next] at hnext
  have haged (y : τ) (hy : y ∈ first :: l) (hyx : y ≠ x) :
      (first :: l).foldl (TaskRing.agingBody .wrap32 x) (TaskRing.resetPrio s.tasks x) y =
        { s.tasks y with iDinamPrio := wrapInt ((s.tasks y).iDinamPrio - 1) } := by
    rw [htasks y, if_neg hyx, if_pos hy]
    rfl
  refine ⟨x, _, pre, post, hrun, hsplit, hpre, hpost, ?_, haged, fun y hy hyx hlow => ?_,
    fun y hy => ?_, hs.head, fun start hstart => ?_, hs.nodup⟩
  · exact (htasks x).trans (if_pos rfl)
  · exact (congrArg (·.iDinamPrio) (haged y hy hyx)).trans (aged_wrap32 hlow (hint y hy).2)
  · have hyx : y ≠ x := fun he => hy (he ▸ hmem)
    exact (htasks y).trans ((if_neg hyx).trans (if_neg hy))
  · show Path (fun y => ((first :: l).foldl (TaskRing.agingBody .wrap32 x)
      (TaskRing.resetPrio s.tasks x) y).next) _ _ _
    rw [hnext]
    exact hs.ring start hstart

end Refines

def threeRing : TaskRing Nat Unit where
  readyQueue := some 1
  tasks i := ⟨⟨i, if i = 1 then 4 else -2⟩, (i + 2) % 3, (i + 1) % 3, ()⟩

theorem ring_scheduler_chooses_small : ∃ x u pre post,
    threeRing.scheduler .wrap32 3 = some (some x, u) ∧ [1, 2, 0] = pre ++ x :: post ∧
      ∀ y ∈ pre, (threeRing.tasks x).iDinamPrio < (threeRing.tasks y).iDinamPrio := by
  have hring : threeRing.Circular [1, 2, 0] := by
    refine ⟨rfl, fun x hx => ?_, by decide⟩
    obtain rfl : 1 = x := Option.some.inj hx
    exact ⟨rfl, rfl, rfl, rfl⟩
  obtain ⟨x, u, pre, post, hrun, hsplit, hpre, -⟩ :=
    ring_scheduler_chooses hring (List.cons_ne_nil 1 [2, 0]) (by decide) (Nat.le_refl 3)
  exact ⟨x, u, pre, post, hrun, hsplit, hpre⟩

def minRing : TaskRing Nat Unit where
  readyQueue := some 0
  tasks i := ⟨⟨i, intMin⟩, (i + 1) % 2, (i + 1) % 2, ()⟩

/-- Two tasks are at `INT_MIN`, and the one that is not returned goes to `INT_MAX`. -/
theorem ring_scheduler_wraps : minRing.Circular [0, 1] ∧
    ¬∃ x u, minRing.scheduler .wrap32 2 = some (some x, u) ∧
      ∀ y ∈ [0, 1], y ≠ x → (u.tasks y).iDinamPrio = (minRing.tasks y).iDinamPrio - 1 := by
  refine ⟨⟨rfl, fun x hx => ?_, by decide⟩, ?_⟩
  · obtain rfl : 0 = x := Option.some.inj hx
    exact ⟨rfl, rfl, rfl⟩
  · rintro ⟨x, u, hrun, haged⟩
    have hres : (minRing.scheduler .wrap32 2).map (fun r => (r.1, (r.2.tasks 1).iDinamPrio)) =
        some (some 0, intMax) := by decide
    rw [hrun, Option.map_some, Option.some.injEq, Prod.mk.injEq, Option.some.injEq] at hres
    obtain ⟨rfl, hmax⟩ := hres
    have hone := haged 1 (by decide) (by decide)
    rw [hmax] at hone
    exact absurd hone (by decide)

end PingPong
