import PingPong.Scheduler
import PingPong.Simulation
import Mathlib.Data.Finset.Card
import Mathlib.Data.List.Nodup

/-! The scheduler in a closed system: after every call the chosen task is put
back, and the queue may come back in any order. A task that waits below the
least static priority is passed over by each rival at most once, because a chosen
task is reset above it and both age alike. -/

namespace PingPong

open Runs

structure Ready (τ : Type*) where
  queue : List τ
  tasks : τ → Task

section Closed

variable {τ : Type*} [DecidableEq τ]

/-- One call of `scheduler`; `queue` is the ready queue once the chosen task is
back in it. -/
def closedStep (s : Ready τ) (queue : List τ) : Option (Ready τ) :=
  match scheduler s.queue s.tasks with
  | (some _, tasks) => if queue.Perm s.queue then some ⟨queue, tasks⟩ else none
  | (none, _) => none

def choiceOf (s : Ready τ) : Option τ := (scheduler s.queue s.tasks).1

def chosenIn (s : Ready τ) (queues : List (List τ)) : List τ :=
  traceOf closedStep (fun s _ => choiceOf s) s queues

theorem closedStep_chosen {s t : Ready τ} {queue : List τ} (hnd : s.queue.Nodup)
    (h : closedStep s queue = some t) :
    t.queue.Perm s.queue ∧ ∃ x, choiceOf s = some x ∧ Chosen s.queue s.tasks t.tasks x := by
  have hne : s.queue ≠ [] := by
    intro hnil
    simp [closedStep, hnil, scheduler] at h
  obtain ⟨x, hx, hchosen⟩ := scheduler_chosen hnd hne s.tasks
  have hpair : scheduler s.queue s.tasks = (some x, (scheduler s.queue s.tasks).2) :=
    Prod.ext hx rfl
  unfold closedStep at h
  rw [hpair] at h
  simp only [Option.ite_none_right_eq_some, Option.some.injEq] at h
  obtain ⟨hperm, rfl⟩ := h
  exact ⟨hperm, x, hx, hchosen⟩

/-- The tasks that may still be chosen before `t`. -/
def rivals (s : Ready τ) (t : τ) : Finset τ :=
  s.queue.toFinset.filter fun x => x ≠ t ∧ (s.tasks x).iDinamPrio ≤ (s.tasks t).iDinamPrio

theorem rivals_card_lt {s : Ready τ} {t : τ} (hnd : s.queue.Nodup) (ht : t ∈ s.queue) :
    (rivals s t).card < s.queue.length := by
  rw [← List.toFinset_card_of_nodup hnd]
  apply Finset.card_lt_card
  refine (Finset.ssubset_iff_of_subset (Finset.filter_subset _ _)).mpr ⟨t, ?_, ?_⟩
  · simpa using ht
  · simp

/-- A call that passes `t` over, with `t` not above the static priorities, loses
`t` a rival. -/
theorem rivals_pass {s u : Ready τ} {t x : τ} (hperm : u.queue.Perm s.queue)
    (hchosen : Chosen s.queue s.tasks u.tasks x) (ht : t ∈ s.queue) (hne : x ≠ t)
    (hlow : (s.tasks t).iDinamPrio ≤ (s.tasks x).iStaticPrio) :
    (rivals u t).card < (rivals s t).card := by
  have htime := hchosen.aged t ht hne.symm
  apply Finset.card_lt_card
  refine (Finset.ssubset_iff_of_subset ?_).mpr ⟨x, ?_, ?_⟩
  · intro y hy
    simp only [rivals, Finset.mem_filter, List.mem_toFinset, hperm.mem_iff] at hy ⊢
    obtain ⟨hyq, hyt, hle⟩ := hy
    refine ⟨hyq, hyt, ?_⟩
    by_cases hyx : y = x
    · subst y
      exact hchosen.least t ht
    · have hage := hchosen.aged y hyq hyx
      omega
  · simp only [rivals, Finset.mem_filter, List.mem_toFinset]
    exact ⟨hchosen.mem, hne, hchosen.least t ht⟩
  · simp only [rivals, Finset.mem_filter, List.mem_toFinset, not_and, not_le]
    intro _ _
    have hreset := hchosen.reset
    omega

/-- `n` tasks whose static priorities are at least `m`. -/
structure ClosedSystem (n : Nat) (m : Int) (s : Ready τ) : Prop where
  nodup : s.queue.Nodup
  length : s.queue.length = n
  static : ∀ x ∈ s.queue, m ≤ (s.tasks x).iStaticPrio

theorem ClosedSystem.step {n : Nat} {m : Int} {s t : Ready τ} {queue : List τ}
    (hs : ClosedSystem n m s) (h : closedStep s queue = some t) : ClosedSystem n m t := by
  obtain ⟨hperm, x, _, hchosen⟩ := closedStep_chosen hs.nodup h
  refine ⟨hperm.nodup_iff.mpr hs.nodup, hperm.length_eq.trans hs.length, fun y hy => ?_⟩
  rw [hchosen.static]
  exact hs.static y (hperm.mem_iff.mp hy)

/-- How often `t` can still be passed over. -/
def passesLeft (m : Int) (s : Ready τ) (t : τ) : Int :=
  if (s.tasks t).iDinamPrio ≤ m then (rivals s t).card
  else (s.tasks t).iDinamPrio - m + (s.queue.length - 1)

theorem passesLeft_nonneg {m : Int} {s : Ready τ} {t : τ} (ht : t ∈ s.queue) :
    0 ≤ passesLeft m s t := by
  have hpos := List.length_pos_of_mem ht
  unfold passesLeft
  split_ifs <;> omega

theorem passesLeft_le {n : Nat} {m : Int} {s : Ready τ} {t : τ} (hs : ClosedSystem n m s)
    (ht : t ∈ s.queue) : passesLeft m s t ≤ n - 1 + max 0 ((s.tasks t).iDinamPrio - m) := by
  have hcard := rivals_card_lt hs.nodup ht
  have hlen := hs.length
  unfold passesLeft
  split_ifs <;> omega

theorem passesLeft_pass {n : Nat} {m : Int} {s u : Ready τ} {t : τ} {queue : List τ}
    (hs : ClosedSystem n m s) (ht : t ∈ s.queue) (hpass : choiceOf s ≠ some t)
    (h : closedStep s queue = some u) : passesLeft m u t + 1 ≤ passesLeft m s t := by
  have hu := hs.step h
  obtain ⟨hperm, x, hx, hchosen⟩ := closedStep_chosen hs.nodup h
  have hne : x ≠ t := fun he => hpass (he ▸ hx)
  have hage := hchosen.aged t ht hne.symm
  have hcard := rivals_card_lt hu.nodup (hperm.mem_iff.mpr ht)
  have hlen := hperm.length_eq
  have hstatic := hs.static x hchosen.mem
  unfold passesLeft
  by_cases hlow : (s.tasks t).iDinamPrio ≤ m
  · have hlt := rivals_pass hperm hchosen ht hne (hlow.trans hstatic)
    rw [if_pos hlow, if_pos (by omega)]
    omega
  · rw [if_neg hlow]
    split_ifs <;> omega

/-- `t` has been passed over by the tasks `seen` on the way from `s` to `v`. -/
structure PassedOver (n : Nat) (m : Int) (s : Ready τ) (t : τ) (v : Ready τ) (seen : List τ) :
    Prop where
  closed : ClosedSystem n m v
  mem : t ∈ v.queue
  left : seen.length + passesLeft m v t ≤ passesLeft m s t

theorem PassedOver.step {n : Nat} {m : Int} {s v w : Ready τ} {t : τ} {seen queue : List τ}
    (hv : PassedOver n m s t v seen) (hpass : choiceOf v ≠ some t)
    (hw : closedStep v queue = some w) :
    PassedOver n m s t w (seen ++ (choiceOf v).toList) := by
  obtain ⟨hperm, x, hx, _⟩ := closedStep_chosen hv.closed.nodup hw
  have hdrop := passesLeft_pass hv.closed hv.mem hpass hw
  have hleft := hv.left
  refine ⟨hv.closed.step hw, hperm.mem_iff.mpr hv.mem, ?_⟩
  rw [hx, Option.toList_some, List.length_append, List.length_singleton]
  omega

theorem passes_bounded {n : Nat} {m : Int} {s u : Ready τ} {t : τ} {queues : List (List τ)}
    (hs : ClosedSystem n m s) (ht : t ∈ s.queue) (hrun : run closedStep s queues = some u)
    (hpass : t ∉ chosenIn s queues) :
    ((chosenIn s queues).length : Int) ≤ n - 1 + max 0 ((s.tasks t).iDinamPrio - m) := by
  have hinit : PassedOver n m s t s [] := ⟨hs, ht, by simp⟩
  have hinv := trace_invariant (fun _ _ _ _ hv hok hw => hv.step hok hw) hinit
    (along_of_not_mem hpass) hrun
  have hleft := hinv.left
  have hnonneg := passesLeft_nonneg (m := m) hinv.mem
  have hstart := passesLeft_le hs ht
  rw [List.nil_append] at hleft
  unfold chosenIn
  omega

theorem chosenIn_length {n : Nat} {m : Int} {s u : Ready τ} {queues : List (List τ)}
    (hs : ClosedSystem n m s) (hrun : run closedStep s queues = some u) :
    (chosenIn s queues).length = queues.length := by
  induction queues generalizing s with
  | nil => rfl
  | cons queue queues ih =>
    obtain ⟨t, ht, hu⟩ := run_cons.mp hrun
    obtain ⟨_, x, hx, _⟩ := closedStep_chosen hs.nodup ht
    have hrest := ih (hs.step ht) hu
    unfold chosenIn at hrest ⊢
    simp only [traceOf, hx, ht, Option.toList_some, Option.elim_some, List.length_append, hrest,
      List.length_cons, List.length_nil]
    omega

/-- No dynamic priority has sunk deeper than its rivals can still push it. -/
def Floored (n : Nat) (m : Int) (s : Ready τ) : Prop :=
  ∀ t ∈ s.queue, (s.tasks t).iDinamPrio ≤ m →
    m + 1 - n ≤ (s.tasks t).iDinamPrio - (rivals s t).card

theorem Floored.step {n : Nat} {m : Int} {s u : Ready τ} {queue : List τ}
    (hclosed : ClosedSystem n m s) (hs : Floored n m s) (h : closedStep s queue = some u) :
    Floored n m u := by
  intro t ht hlow
  have hu := hclosed.step h
  obtain ⟨hperm, x, hx, hchosen⟩ := closedStep_chosen hclosed.nodup h
  have hmem := hperm.mem_iff.mp ht
  have hcard := rivals_card_lt hu.nodup ht
  have hlen := hu.length
  by_cases he : t = x
  · subst x
    have hreset := hchosen.reset
    have hstatic := hclosed.static t hmem
    omega
  · have hage := hchosen.aged t hmem he
    by_cases hlow' : (s.tasks t).iDinamPrio ≤ m
    · have hstatic := hclosed.static x hchosen.mem
      have hlt := rivals_pass hperm hchosen hmem (Ne.symm he) (hlow'.trans hstatic)
      have hfloor := hs t hmem hlow'
      omega
    · omega

theorem dinam_floor {n : Nat} {m : Int} {s u : Ready τ} {queues : List (List τ)}
    (hclosed : ClosedSystem n m s) (hdin : ∀ x ∈ s.queue, m ≤ (s.tasks x).iDinamPrio)
    (hrun : run closedStep s queues = some u) {t : τ} (ht : t ∈ u.queue) :
    m + 1 - n ≤ (u.tasks t).iDinamPrio := by
  have hstart : Floored n m s := by
    intro x hx hlow
    have hcard := rivals_card_lt hclosed.nodup hx
    have hlen := hclosed.length
    have hx' := hdin x hx
    omega
  obtain ⟨hu, hfloor⟩ := run_invariant (P := fun v => ClosedSystem n m v ∧ Floored n m v)
    (fun v queue w hv _ hw => ⟨hv.1.step hw, hv.2.step hv.1 hw⟩) ⟨hclosed, hstart⟩
    (along_trivial _ _ queues) hrun
  by_cases hlow : (u.tasks t).iDinamPrio ≤ m
  · have hle := hfloor t ht hlow
    omega
  · have hpos := List.length_pos_of_mem ht
    have hlen := hu.length
    omega

/-- In a closed system a task is passed over at most `n - 1 + max 0 (d - m)`
times in a row; with static priorities in the Unix range a chosen task is chosen
again within `n + 40` calls, and with all priorities in it no dynamic priority
falls below `-(19 + n)`. -/
theorem closed_no_starvation {s : Ready τ} (hnd : s.queue.Nodup) :
    (∀ t ∈ s.queue, ∀ m : Int, (∀ x ∈ s.queue, m ≤ (s.tasks x).iStaticPrio) →
      ∀ queues u, run closedStep s queues = some u → t ∉ chosenIn s queues →
        (queues.length : Int) ≤ s.queue.length - 1 + max 0 ((s.tasks t).iDinamPrio - m)) ∧
    ((∀ x ∈ s.queue, -20 ≤ (s.tasks x).iStaticPrio ∧ (s.tasks x).iStaticPrio ≤ 20) →
      (∀ t queue v queues u, choiceOf s = some t → closedStep s queue = some v →
        run closedStep v queues = some u → queues.length = s.queue.length + 40 →
          t ∈ chosenIn v queues) ∧
      ((∀ x ∈ s.queue, -20 ≤ (s.tasks x).iDinamPrio ∧ (s.tasks x).iDinamPrio ≤ 20) →
        ∀ queues u, run closedStep s queues = some u →
          ∀ x ∈ u.queue, -(19 + s.queue.length : Int) ≤ (u.tasks x).iDinamPrio)) := by
  refine ⟨?_, fun hstatic => ⟨?_, ?_⟩⟩
  · intro t ht m hm queues u hrun hpass
    have hclosed : ClosedSystem s.queue.length m s := ⟨hnd, rfl, hm⟩
    rw [← chosenIn_length hclosed hrun]
    exact passes_bounded hclosed ht hrun hpass
  · intro t queue v queues u hchoice hstep hrun hlen
    have hclosed : ClosedSystem s.queue.length (-20) s := ⟨hnd, rfl, fun x hx => (hstatic x hx).1⟩
    have hv := hclosed.step hstep
    obtain ⟨hperm, x, hx, hchosen⟩ := closedStep_chosen hnd hstep
    have he : x = t := Option.some.inj (hx.symm.trans hchoice)
    subst x
    by_contra hpass
    have hbound := passes_bounded hv (hperm.mem_iff.mpr hchosen.mem) hrun hpass
    have hreset := hchosen.reset
    have hmax := (hstatic t hchosen.mem).2
    have hcount := chosenIn_length hv hrun
    omega
  · intro hdin queues u hrun x hx
    have hclosed : ClosedSystem s.queue.length (-20) s := ⟨hnd, rfl, fun x hx => (hstatic x hx).1⟩
    have hfloor := dinam_floor hclosed (fun x hx => (hdin x hx).1) hrun hx
    omega

end Closed

def threeTasks : Ready (Fin 3) := ⟨[0, 1, 2], fun i => ⟨2 * i.val, 2 * i.val⟩⟩

theorem closed_no_starvation_small :
    ∃ u, run closedStep threeTasks [[1, 2, 0], [1, 2, 0], [1, 2, 0]] = some u ∧
      ∀ x ∈ u.queue, -(22 : Int) ≤ (u.tasks x).iDinamPrio := by
  have hrun : (run closedStep threeTasks [[1, 2, 0], [1, 2, 0], [1, 2, 0]]).isSome = true := by
    decide
  obtain ⟨u, hu⟩ := Option.isSome_iff_exists.mp hrun
  have hnd : threeTasks.queue.Nodup := by decide
  have hfloor := ((closed_no_starvation hnd).2 (by decide)).2 (by decide) _ u hu
  exact ⟨u, hu, hfloor⟩

end PingPong
