import PingPong.Arrivals

/-! Overtaking in the ready queue. A task that waits loses one with every task returned
before it, and a task that has overtaken it comes back behind it with its static
priority. So the number of times that one task overtakes another is bounded by how much
better its static priority is, whatever the others do. -/

namespace PingPong

open Runs

section Overtaking

variable {τ : Type*} [DecidableEq τ]

theorem idxOf_lt_of_sublist {l : List τ} {t b : τ} (hnd : l.Nodup) (h : [t, b].Sublist l) :
    l.idxOf t < l.idxOf b := by
  obtain ⟨l₁, l₂, rfl, ht, hb⟩ := List.cons_sublist_iff.mp h
  have hb₂ : b ∈ l₂ := List.singleton_sublist.mp hb
  have hb₁ : b ∉ l₁ := fun hin => (List.nodup_append.mp hnd).2.2 b hin b hb₂ rfl
  rw [List.idxOf_append_of_mem ht, List.idxOf_append_of_notMem hb₁]
  exact Nat.lt_add_right _ (List.idxOf_lt_length_of_mem ht)

theorem readyStep_nodup {s u : Ready τ} {a : ReadyAction τ} (hs : s.queue.Nodup)
    (h : readyStep s a = some u) : u.queue.Nodup := by
  cases a with
  | schedule =>
    by_cases hne : s.queue = []
    · rw [schedule_empty hne h]
      exact hs
    · obtain ⟨x, -, hqueue, -⟩ := schedule_spec hs hne h
      exact hqueue ▸ hs.erase x
  | insert x =>
    obtain ⟨hx, rfl⟩ := insert_spec h
    exact List.nodup_append_comm.mp (List.nodup_cons.mpr ⟨hx, hs⟩ : ([x] ++ s.queue).Nodup)
  | setprio =>
    cases h
    exact hs

/-- Of two equal tasks the one that stands first in the queue is chosen. -/
theorem choice_behind {s : Ready τ} (hnd : s.queue.Nodup) {t b : τ} (hchoice : choiceOf s = some b)
    (h : [t, b].Sublist s.queue) : (s.tasks b).iDinamPrio < (s.tasks t).iDinamPrio := by
  have ht : t ∈ s.queue := h.subset (by simp)
  obtain ⟨first, l, hqueue⟩ := List.exists_cons_of_ne_nil (List.ne_nil_of_mem ht)
  have hmin : b ∈ Selection.least (fun x => (s.tasks x).iDinamPrio) s.queue := by
    rw [hqueue, getHighestPrioTaks_least]
    rw [choiceOf, hqueue] at hchoice
    exact hchoice
  by_contra hle
  have hidx := List.index_of_argmin hmin ht (not_lt.mp hle)
  exact absurd (idxOf_lt_of_sublist hnd h) (not_lt.mpr hidx)

/-- `t` has waited since its dynamic priority was `v`, the tasks `seen` were returned, and
the static priority of `b` has never been better than `p`. -/
structure Overtaken (v p : Int) (t b : τ) (s : Ready τ) (seen : List τ) : Prop where
  nodup : s.queue.Nodup
  mem : t ∈ s.queue
  low : (s.tasks t).iDinamPrio + seen.length ≤ v
  count : (seen.count b : Int) ≤ max 1 (v - p)
  behind : b ∈ seen → b ∈ s.queue → [t, b].Sublist s.queue
  gap : b ∈ seen → p - v + seen.count b ≤ (s.tasks b).iDinamPrio - (s.tasks t).iDinamPrio

theorem Overtaken.returned {v p : Int} {t b : τ} {s u : Ready τ} {seen : List τ}
    (hs : Overtaken v p t b s seen) (hp : p ≤ (s.tasks b).iStaticPrio) (hne : b ≠ t)
    (hchoice : choiceOf s = some b) (hqueue : u.queue = s.queue.erase b)
    (hchosen : Chosen s.queue s.tasks u.tasks b) (hnodup : u.queue.Nodup) :
    Overtaken v p t b u (seen ++ [b]) := by
  have hage := hchosen.aged t hs.mem hne.symm
  have hlow := hs.low
  have hcount : (seen ++ [b]).count b = seen.count b + 1 := by simp
  have hle : seen.count b ≤ seen.length := List.count_le_length
  have hlen : (seen ++ [b]).length = seen.length + 1 := by simp
  refine ⟨hnodup, hqueue ▸ (List.mem_erase_of_ne hne.symm).mpr hs.mem, by omega, ?_, ?_, ?_⟩
  · rw [hcount]
    by_cases hb : b ∈ seen
    · have hlt := choice_behind hs.nodup hchoice (hs.behind hb hchosen.mem)
      have hgap := hs.gap hb
      omega
    · rw [List.count_eq_zero_of_not_mem hb]
      omega
  · intro _ hin
    rw [hqueue] at hin
    exact absurd hin hs.nodup.not_mem_erase
  · intro _
    rw [hcount, hchosen.reset]
    omega

theorem Overtaken.passed {v p : Int} {t b x : τ} {s u : Ready τ} {seen : List τ}
    (hs : Overtaken v p t b s seen) (hxt : x ≠ t) (hxb : x ≠ b)
    (hqueue : u.queue = s.queue.erase x) (hchosen : Chosen s.queue s.tasks u.tasks x)
    (hnodup : u.queue.Nodup) : Overtaken v p t b u (seen ++ [x]) := by
  have hage := hchosen.aged t hs.mem hxt.symm
  have hlow := hs.low
  have hcount : (seen ++ [x]).count b = seen.count b := by simp [hxb]
  have hlen : (seen ++ [x]).length = seen.length + 1 := by simp
  have hmem : b ∈ seen ++ [x] → b ∈ seen := fun hb =>
    (List.mem_append.mp hb).resolve_right fun he => hxb (List.mem_singleton.mp he).symm
  refine ⟨hnodup, hqueue ▸ (List.mem_erase_of_ne hxt.symm).mpr hs.mem, by omega,
    hcount ▸ hs.count, fun hb hin => ?_, fun hb => ?_⟩
  · rw [hqueue] at hin ⊢
    have hsub := (hs.behind (hmem hb) (List.mem_of_mem_erase hin)).erase x
    rwa [List.erase_of_not_mem (by simp [hxt, hxb])] at hsub
  · have hgap := hs.gap (hmem hb)
    rw [hcount]
    by_cases hin : b ∈ s.queue
    · have hageb := hchosen.aged b hin hxb.symm
      omega
    · rw [hchosen.others b hin]
      omega

theorem Overtaken.step {v p : Int} {t b : τ} {s u : Ready τ} {a : ReadyAction τ} {seen : List τ}
    (hs : Overtaken v p t b s seen) (hp : p ≤ (s.tasks b).iStaticPrio) (hne : b ≠ t)
    (hstay : returnOf s a ≠ some t) (hu : readyStep s a = some u) :
    Overtaken v p t b u (seen ++ (returnOf s a).toList) := by
  have hnodup := readyStep_nodup hs.nodup hu
  cases a with
  | schedule =>
    obtain ⟨x, hx, hqueue, hchosen⟩ :=
      schedule_spec hs.nodup (List.ne_nil_of_mem hs.mem) hu
    have hlabel : returnOf s .schedule = some x := hx
    have hxt : x ≠ t := fun he => hstay (he ▸ hx)
    rw [hlabel, Option.toList_some]
    by_cases hxb : x = b
    · subst x
      exact hs.returned hp hne hx hqueue hchosen hnodup
    · exact hs.passed hxt hxb hqueue hchosen hnodup
  | insert x =>
    obtain ⟨hx, rfl⟩ := insert_spec hu
    rw [returnOf, Option.toList_none, List.append_nil]
    refine ⟨hnodup, List.mem_append_left _ hs.mem, hs.low, hs.count, fun hb hin => ?_, hs.gap⟩
    rcases List.mem_append.mp hin with hold | hnew
    · exact (hs.behind hb hold).trans (List.sublist_append_left _ _)
    · rw [← List.mem_singleton.mp hnew]
      exact (List.singleton_sublist.mpr hs.mem).append (List.Sublist.refl [b])
  | setprio taskExec task prio =>
    cases hu
    rw [returnOf, Option.toList_none, List.append_nil]
    refine ⟨hnodup, hs.mem, ?_, hs.count, hs.behind, fun hb => ?_⟩
    · rw [taskSetprio_dinam]
      exact hs.low
    · rw [taskSetprio_dinam, taskSetprio_dinam]
      exact hs.gap hb

/-- While a task waits in a ready queue, another task whose static priority stays at least
`p` is returned at most as often as the waiting task's dynamic priority was above `p` at
the start, or once if it was not: whatever the queue holds, whatever comes in, and
however the priorities of the others change. -/
theorem overtaking_bounded {bs : List (ReadyAction τ)} {s u : Ready τ} {t b : τ} {p : Int}
    (hnd : s.queue.Nodup) (ht : t ∈ s.queue)
    (hp : Along readyStep (fun v _ => p ≤ (v.tasks b).iStaticPrio) s bs)
    (hu : run readyStep s bs = some u) (hstay : t ∉ returnedIn s bs) :
    ((returnedIn s bs).count b : Int) ≤ max 1 ((s.tasks t).iDinamPrio - p) := by
  by_cases hne : b = t
  · subst b
    rw [List.count_eq_zero_of_not_mem hstay]
    omega
  · have hinit : Overtaken (s.tasks t).iDinamPrio p t b s [] :=
      ⟨hnd, ht, by simp, by simp, by simp, by simp⟩
    have hinv := trace_invariant (fun _ _ _ _ hv hok hw => hv.step hok.1 hne hok.2 hw) hinit
      (hp.and (along_of_not_mem hstay)) hu
    exact hinv.count

end Overtaking

/-- Task 1 comes back behind task 0 each time. -/
def overtakings (k : Nat) : List (ReadyAction Nat) :=
  (List.replicate k [.schedule, .insert 1]).flatten

/-- Task 0 waits from the dynamic priority 0 on, and task 1 with the static priority -3
overtakes it three times. -/
theorem overtaking_bounded_small : ∃ s : Ready Nat,
    run readyStep (Ready.start Nat) [.insert 1, .insert 0, .setprio 0 (some 1) (-3)] = some s ∧
    returnedIn s (overtakings 3) = [1, 1, 1] ∧
    ((returnedIn s (overtakings 3)).count 1 : Int) ≤ max 1 ((s.tasks 0).iDinamPrio - -3) := by
  have hrun : run readyStep (Ready.start Nat) [.insert 1, .insert 0, .setprio 0 (some 1) (-3)] =
      some ⟨[1, 0], taskSetprio 0 (some 1) (-3) fun _ => ⟨0, 0⟩⟩ := rfl
  have hp : Along readyStep (fun v _ => -3 ≤ (v.tasks 1).iStaticPrio)
      ⟨[1, 0], taskSetprio 0 (some 1) (-3) fun _ => ⟨0, 0⟩⟩ (overtakings 3) := by decide
  have hu : (run readyStep ⟨[1, 0], taskSetprio 0 (some 1) (-3) fun _ => ⟨0, 0⟩⟩
      (overtakings 3)).isSome = true := by decide
  obtain ⟨u, hu⟩ := Option.isSome_iff_exists.mp hu
  exact ⟨_, hrun, by decide, overtaking_bounded (by decide) (by decide) hp hu (by decide)⟩

end PingPong
