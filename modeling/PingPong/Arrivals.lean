import PingPong.Aging

/-! The scheduler with arrivals. The returned task leaves the ready queue, tasks
come in at its tail and static priorities change at any time. A task outside the
queue has its dynamic priority in the Unix range, so once a waiting task is below
that range, only the tasks that wait with it can be returned before it. -/

namespace PingPong

open Runs

/-- A call of `scheduler` whose task leaves the queue, an insertion at the tail,
and `task_setprio`. -/
inductive ReadyAction (τ : Type*)
  | schedule
  | insert (x : τ)
  | setprio (taskExec : τ) (task : Option τ) (prio : Int)

/-- Every task is new and has both priorities 0. -/
def Ready.start (τ : Type*) : Ready τ := ⟨[], fun _ => ⟨0, 0⟩⟩

def InRange (prio : Int) : Prop := -20 ≤ prio ∧ prio ≤ 20

instance (prio : Int) : Decidable (InRange prio) := inferInstanceAs (Decidable (_ ∧ _))

structure Ranged {τ : Type*} (s : Ready τ) : Prop where
  nodup : s.queue.Nodup
  static : ∀ x, InRange (s.tasks x).iStaticPrio
  outside : ∀ x, x ∉ s.queue → InRange (s.tasks x).iDinamPrio
  inside : ∀ x ∈ s.queue, (s.tasks x).iDinamPrio ≤ 20

theorem start_ranged (τ : Type*) : Ranged (Ready.start τ) where
  nodup := .nil
  static _ := show InRange 0 by decide
  outside _ _ := show InRange 0 by decide
  inside _ hx := nomatch hx

section Arrivals

variable {τ : Type*} [DecidableEq τ]

def readyStep (s : Ready τ) : ReadyAction τ → Option (Ready τ)
  | .schedule =>
    match scheduler s.queue s.tasks with
    | (some x, tasks) => some ⟨s.queue.erase x, tasks⟩
    | (none, tasks) => some ⟨s.queue, tasks⟩
  | .insert x => if x ∈ s.queue then none else some { s with queue := s.queue ++ [x] }
  | .setprio taskExec task prio =>
    some { s with tasks := taskSetprio taskExec task prio s.tasks }

def returnOf (s : Ready τ) : ReadyAction τ → Option τ
  | .schedule => choiceOf s
  | .insert _ | .setprio .. => none

def returnedIn (s : Ready τ) (as : List (ReadyAction τ)) : List τ := traceOf readyStep returnOf s as

theorem schedule_spec {s u : Ready τ} (hnd : s.queue.Nodup) (hne : s.queue ≠ [])
    (h : readyStep s .schedule = some u) :
    ∃ x, choiceOf s = some x ∧ u.queue = s.queue.erase x ∧
      Chosen s.queue s.tasks u.tasks x := by
  obtain ⟨x, hx, hchosen⟩ := scheduler_chosen hnd hne s.tasks
  have hpair : scheduler s.queue s.tasks = (some x, (scheduler s.queue s.tasks).2) :=
    Prod.ext hx rfl
  simp only [readyStep] at h
  rw [hpair] at h
  cases h
  exact ⟨x, hx, rfl, hchosen⟩

theorem schedule_empty {s u : Ready τ} (hnil : s.queue = [])
    (h : readyStep s .schedule = some u) : u = s := by
  obtain ⟨queue, tasks⟩ := s
  subst hnil
  cases h
  rfl

theorem insert_spec {s u : Ready τ} {x : τ} (h : readyStep s (.insert x) = some u) :
    x ∉ s.queue ∧ u = { s with queue := s.queue ++ [x] } := by
  simp only [readyStep, Option.ite_none_left_eq_some, Option.some.injEq] at h
  exact ⟨h.1, h.2.symm⟩

theorem Ranged.step {s u : Ready τ} {a : ReadyAction τ} (hs : Ranged s)
    (h : readyStep s a = some u) : Ranged u := by
  cases a with
  | schedule =>
    by_cases hne : s.queue = []
    · rw [schedule_empty hne h]
      exact hs
    · obtain ⟨x, _, hqueue, hchosen⟩ := schedule_spec hs.nodup hne h
      refine ⟨hqueue ▸ hs.nodup.erase x, fun y => ?_, fun y hy => ?_, fun y hy => ?_⟩
      · rw [hchosen.static]
        exact hs.static y
      · by_cases hyx : y = x
        · subst y
          rw [hchosen.reset]
          exact hs.static x
        · have hout : y ∉ s.queue := by
            rwa [hqueue, List.mem_erase_of_ne hyx] at hy
          rw [hchosen.others y hout]
          exact hs.outside y hout
      · rw [hqueue] at hy
        have hmem := List.mem_of_mem_erase hy
        have hyx : y ≠ x := fun he => (hs.nodup.not_mem_erase (he ▸ hy))
        have hage := hchosen.aged y hmem hyx
        have hle := hs.inside y hmem
        omega
  | insert x =>
    obtain ⟨hx, rfl⟩ := insert_spec h
    refine ⟨?_, hs.static, fun y hy => ?_, fun y hy => ?_⟩
    · have hcons : ([x] ++ s.queue).Nodup := List.nodup_cons.mpr ⟨hx, hs.nodup⟩
      exact List.nodup_append_comm.mp hcons
    · exact hs.outside y fun hin => hy (List.mem_append_left _ hin)
    · rcases List.mem_append.mp hy with hin | hin
      · exact hs.inside y hin
      · rw [List.mem_singleton.mp hin]
        exact (hs.outside x hx).2
  | setprio taskExec task prio =>
    cases h
    refine ⟨hs.nodup, fun y => taskSetprio_static (hs.static y), fun y hy => ?_, fun y hy => ?_⟩
    · rw [taskSetprio_dinam]
      exact hs.outside y hy
    · rw [taskSetprio_dinam]
      exact hs.inside y hy

theorem run_ranged {as : List (ReadyAction τ)} {s : Ready τ}
    (h : run readyStep (Ready.start τ) as = some s) : Ranged s :=
  run_invariant (fun _ _ _ hs _ ht => hs.step ht) (start_ranged τ) (along_trivial _ _ as) h

/-- `t` has waited while the tasks `seen` were returned. -/
structure Sunk (t : τ) (v : Ready τ) (seen : List τ) : Prop where
  ranged : Ranged v
  mem : t ∈ v.queue
  low : (v.tasks t).iDinamPrio + seen.length ≤ 20

theorem Sunk.step {v w : Ready τ} {a : ReadyAction τ} {t : τ} {seen : List τ} (hv : Sunk t v seen)
    (hstay : returnOf v a ≠ some t) (hw : readyStep v a = some w) :
    Sunk t w (seen ++ (returnOf v a).toList) := by
  obtain ⟨hranged, hmem, hle⟩ := hv
  have hranged' := hranged.step hw
  cases a with
  | schedule =>
    obtain ⟨x, hx, hqueue, hchosen⟩ := schedule_spec hranged.nodup (List.ne_nil_of_mem hmem) hw
    have hne : t ≠ x := fun he => hstay (he ▸ hx)
    have hage := hchosen.aged t hmem hne
    have hlabel : returnOf v .schedule = some x := hx
    refine ⟨hranged', hqueue ▸ (List.mem_erase_of_ne hne).mpr hmem, ?_⟩
    rw [hlabel, Option.toList_some, List.length_append, List.length_singleton]
    omega
  | insert x =>
    obtain ⟨_, rfl⟩ := insert_spec hw
    refine ⟨hranged', List.mem_append_left _ hmem, ?_⟩
    simpa [returnOf] using hle
  | setprio taskExec task prio =>
    cases hw
    refine ⟨hranged', hmem, ?_⟩
    rw [taskSetprio_dinam]
    simpa [returnOf] using hle

/-- A task that stays in the queue loses one with every task returned before it. -/
theorem waiting_sinks {s u : Ready τ} {as : List (ReadyAction τ)} {t : τ} (hs : Ranged s)
    (ht : t ∈ s.queue) (hrun : run readyStep s as = some u) (hstay : t ∉ returnedIn s as) :
    t ∈ u.queue ∧ (u.tasks t).iDinamPrio + (returnedIn s as).length ≤ 20 := by
  have hinit : Sunk t s [] := ⟨hs, ht, by simpa using hs.inside t ht⟩
  have hsunk := trace_invariant (fun _ _ _ _ hv hok hw => hv.step hok hw) hinit
    (along_of_not_mem hstay) hrun
  exact ⟨hsunk.mem, hsunk.low⟩

/-- Of the queue `old`, the tasks `seen` have gone before `t`, and whoever came in
later stays behind it. -/
structure Ahead (old : List τ) (t : τ) (v : Ready τ) (seen : List τ) : Prop where
  ranged : Ranged v
  mem : t ∈ v.queue
  low : (v.tasks t).iDinamPrio < -20
  rest : ∀ x ∈ v.queue, (x ∈ old ∧ x ∉ seen) ∨ (v.tasks t).iDinamPrio < (v.tasks x).iDinamPrio
  nodup : seen.Nodup
  old : ∀ x ∈ seen, x ∈ old

theorem Ahead.schedule {old seen : List τ} {v w : Ready τ} {t : τ} (hv : Ahead old t v seen)
    (hstay : choiceOf v ≠ some t) (hw : readyStep v .schedule = some w) :
    Ahead old t w (seen ++ (choiceOf v).toList) := by
  obtain ⟨x, hx, hqueue, hchosen⟩ :=
    schedule_spec hv.ranged.nodup (List.ne_nil_of_mem hv.mem) hw
  have hne : t ≠ x := fun he => hstay (he ▸ hx)
  have hage := hchosen.aged t hv.mem hne
  have hlow := hv.low
  have hfresh : x ∈ old ∧ x ∉ seen := by
    have hleast := hchosen.least t hv.mem
    exact (hv.rest x hchosen.mem).resolve_right (by omega)
  rw [hx, Option.toList_some]
  refine ⟨hv.ranged.step hw, ?_, by omega, fun y hy => ?_, ?_, ?_⟩
  · rw [hqueue]
    exact (List.mem_erase_of_ne hne).mpr hv.mem
  · rw [hqueue] at hy
    have hyx : y ≠ x := fun he => hv.ranged.nodup.not_mem_erase (he ▸ hy)
    have hyq := List.mem_of_mem_erase hy
    have hagey := hchosen.aged y hyq hyx
    rcases hv.rest y hyq with ⟨hyold, hyn⟩ | hlt
    · refine .inl ⟨hyold, ?_⟩
      simp [hyn, hyx]
    · exact .inr (by omega)
  · have hcons : ([x] ++ seen).Nodup := List.nodup_cons.mpr ⟨hfresh.2, hv.nodup⟩
    exact List.nodup_append_comm.mp hcons
  · intro y hy
    rcases List.mem_append.mp hy with hin | hin
    · exact hv.old y hin
    · rw [List.mem_singleton.mp hin]
      exact hfresh.1

theorem Ahead.step {old seen : List τ} {v w : Ready τ} {a : ReadyAction τ} {t : τ}
    (hv : Ahead old t v seen) (hstay : returnOf v a ≠ some t) (hw : readyStep v a = some w) :
    Ahead old t w (seen ++ (returnOf v a).toList) := by
  have hranged := hv.ranged.step hw
  cases a with
  | schedule => exact hv.schedule hstay hw
  | insert x =>
    obtain ⟨hx, rfl⟩ := insert_spec hw
    have hrange := hv.ranged.outside x hx
    rw [returnOf, Option.toList_none, List.append_nil]
    refine ⟨hranged, List.mem_append_left _ hv.mem, hv.low, fun y hy => ?_, hv.nodup, hv.old⟩
    rcases List.mem_append.mp hy with hin | hin
    · exact hv.rest y hin
    · rw [List.mem_singleton.mp hin]
      exact .inr (Int.lt_of_lt_of_le hv.low hrange.1)
  | setprio taskExec task prio =>
    cases hw
    rw [returnOf, Option.toList_none, List.append_nil]
    refine ⟨hranged, hv.mem, ?_, fun y hy => ?_, hv.nodup, hv.old⟩
    · rw [taskSetprio_dinam]
      exact hv.low
    · rw [taskSetprio_dinam, taskSetprio_dinam]
      exact hv.rest y hy

/-- Below the Unix range only the tasks that wait with `t` are returned before
it, each of them once. -/
theorem returned_before {s u : Ready τ} {as : List (ReadyAction τ)} {t : τ} (hs : Ranged s)
    (ht : t ∈ s.queue) (hlow : (s.tasks t).iDinamPrio < -20)
    (hrun : run readyStep s as = some u) (hstay : t ∉ returnedIn s as) :
    (returnedIn s as).Nodup ∧ ∀ x ∈ returnedIn s as, x ∈ s.queue := by
  have hinit : Ahead s.queue t s [] := ⟨hs, ht, hlow, fun x hx => .inl ⟨hx, List.not_mem_nil⟩, .nil,
    fun _ hx => nomatch hx⟩
  have hahead := trace_invariant (fun _ _ _ _ hv hok hw => hv.step hok hw) hinit
    (along_of_not_mem hstay) hrun
  exact ⟨hahead.nodup, hahead.old⟩

/-- A task that stays in the queue sinks below the Unix range when 41 others have
been returned before it; from then on only tasks that are in the queue at that
moment come before it, each at most once. -/
theorem no_starvation_with_arrivals {as bs cs : List (ReadyAction τ)} {s u v : Ready τ} {t : τ}
    (hs : run readyStep (Ready.start τ) as = some s) (ht : t ∈ s.queue)
    (hu : run readyStep s bs = some u) (hstay : t ∉ returnedIn s bs)
    (hpassed : 41 ≤ (returnedIn s bs).length)
    (hv : run readyStep u cs = some v) (hstay' : t ∉ returnedIn u cs) :
    (u.tasks t).iDinamPrio < -20 ∧ (returnedIn u cs).Nodup ∧
      ∀ x ∈ returnedIn u cs, x ∈ u.queue := by
  have hranged := run_ranged hs
  obtain ⟨hmem, hsink⟩ := waiting_sinks hranged ht hu hstay
  have hlow : (u.tasks t).iDinamPrio < -20 := by omega
  have hranged' := run_ranged (run_append.mpr ⟨s, hs, hu⟩)
  exact ⟨hlow, returned_before hranged' hmem hlow hv hstay'⟩

theorem insert_all {l : List τ} {s : Ready τ} (hnd : (s.queue ++ l).Nodup) :
    run readyStep s (l.map .insert) = some { s with queue := s.queue ++ l } := by
  induction l generalizing s with
  | nil =>
    rw [List.append_nil]
    rfl
  | cons x l ih =>
    have hx : x ∉ s.queue := fun hin =>
      (List.nodup_append.mp hnd).2.2 x hin x (List.mem_cons_self ..) rfl
    have hassoc : s.queue ++ [x] ++ l = s.queue ++ x :: l := List.append_assoc ..
    refine run_cons.mpr ⟨{ s with queue := s.queue ++ [x] }, if_neg hx, ?_⟩
    rw [ih (hassoc ▸ hnd), hassoc]

theorem equals_in_order {l m : List τ} {s : Ready τ} {d : Int} (hqueue : s.queue = l ++ m)
    (hnd : s.queue.Nodup) (hequal : ∀ x ∈ s.queue, (s.tasks x).iDinamPrio = d) :
    ∃ u, run readyStep s (List.replicate l.length .schedule) = some u ∧
      returnedIn s (List.replicate l.length .schedule) = l ∧ u.queue = m ∧
      ∀ x ∈ u.queue, (u.tasks x).iDinamPrio = d - l.length := by
  induction l generalizing s d with
  | nil => exact ⟨s, rfl, rfl, hqueue, by simpa using hequal⟩
  | cons x l ih =>
    have hchoice : choiceOf s = some x := by
      have hfirst : getHighestPrioTaks s.tasks x (l ++ m) = x := by
        apply getHighestPrioTaks_first
        intro y hy
        rw [hequal x (by simp [hqueue]), hequal y (by simp [hqueue, List.mem_append.mp hy])]
      simp only [choiceOf, hqueue, List.cons_append, scheduler, hfirst]
    obtain ⟨t, ht⟩ : ∃ t, readyStep s .schedule = some t := by
      simp only [readyStep]
      split <;> exact ⟨_, rfl⟩
    obtain ⟨y, hy, htqueue, hchosen⟩ := schedule_spec hnd (by simp [hqueue]) ht
    obtain rfl : x = y := Option.some.inj (hchoice.symm.trans hy)
    rw [hqueue, List.cons_append, List.erase_cons_head] at htqueue
    rw [hqueue, List.cons_append] at hnd
    obtain ⟨hx, hnd'⟩ := List.nodup_cons.mp hnd
    have hage (z : τ) (hz : z ∈ t.queue) : (t.tasks z).iDinamPrio = d - 1 := by
      rw [htqueue] at hz
      have hzq : z ∈ s.queue := by rw [hqueue]; exact List.mem_cons_of_mem _ hz
      rw [hchosen.aged z hzq (fun he => hx (he ▸ hz)), hequal z hzq]
    obtain ⟨u, hu, hret, huqueue, hudin⟩ := ih htqueue (htqueue ▸ hnd') hage
    refine ⟨u, run_cons.mpr ⟨t, ht, hu⟩, ?_, huqueue, fun z hz => ?_⟩
    · have hlabel : returnOf s .schedule = some x := hchoice
      unfold returnedIn at hret ⊢
      rw [List.length_cons, List.replicate_succ, traceOf, hlabel, ht, Option.elim_some, hret]
      rfl
    · rw [hudin z hz, List.length_cons]
      omega

end Arrivals

/-- 41 equal tasks go before task 42, and then task 41 does. -/
theorem no_starvation_with_arrivals_small : ∃ u : Ready Nat,
    run readyStep (Ready.start Nat)
      ((List.range 43).map .insert ++ List.replicate 41 .schedule) = some u ∧
    (u.tasks 42).iDinamPrio < -20 ∧ (∀ x ∈ returnedIn u [.schedule], x ∈ u.queue) ∧
    returnedIn u [.schedule] = [41] := by
  have hs : run readyStep (Ready.start Nat) ((List.range 43).map .insert) =
      some ⟨List.range 43, fun _ => ⟨0, 0⟩⟩ := insert_all (s := Ready.start Nat) List.nodup_range
  obtain ⟨u, hu, hret, huqueue, hudin⟩ := equals_in_order (l := List.range 41) (m := [41, 42])
    (s := ⟨List.range 43, fun _ => ⟨0, 0⟩⟩) (d := 0) rfl List.nodup_range (fun _ _ => rfl)
  obtain ⟨v, hv, hret', _⟩ := equals_in_order (l := [41]) (m := [42]) huqueue
    (huqueue ▸ (by decide : [41, 42].Nodup)) hudin
  rw [List.length_range] at hu hret
  have hstarve := no_starvation_with_arrivals (t := 42) hs (by decide) hu (by rw [hret]; decide)
    (by rw [hret]; decide) hv (by rw [hret']; decide)
  exact ⟨u, run_append.mpr ⟨_, hs, hu⟩, hstarve.1, hstarve.2.2, hret'⟩

end PingPong
