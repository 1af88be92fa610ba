import PingPong.CInt
import PingPong.Work
import Mathlib.Algebra.Order.BigOperators.Group.Finset

/-! The test program pingpong-racecond: `soma += 1` is a load and a store, and a task may
lose its processor between them. The semaphore admits one task at a time, so no
increment is lost, and the main task finds the sum that it expects. -/

namespace PingPong

open Runs

def wrapLong (a : Int) : Int := a.bmod 18446744073709551616

/-- `taskBody` in its round `i`; between the load and the store of `soma` the task holds
what it has read. -/
inductive RacePc
  | uncreated
  | test (i : Nat)
  | down (i : Nat)
  | load (i : Nat)
  | store (i : Nat) (v : Int)
  | up (i : Nat)
  | exited
  deriving DecidableEq, Repr

inductive RaceMain
  | create (i : Nat)
  | join (i : Nat)
  | destroy
  | compare
  | ended (correct : Bool)
  deriving DecidableEq, Repr

/-- `sem` is `none` once it is destroyed. -/
structure Racecond (n : Nat) where
  soma : Int
  sem : Option Nat
  main : RaceMain
  pc : Fin n → RacePc

def Racecond.start (n : Nat) : Racecond n where
  soma := 0
  sem := some 1
  main := .create 0
  pc _ := .uncreated

section Racecond

variable {n : Nat} (steps : Nat)

def raceMainStep (s : Racecond n) : Option (Racecond n) :=
  match s.main with
  | .create i =>
    if h : i < n then
      some { s with main := .create (i + 1), pc := Function.update s.pc ⟨i, h⟩ (.test 0) }
    else some { s with main := .join 0 }
  | .join i =>
    if h : i < n then
      if s.pc ⟨i, h⟩ = .exited then some { s with main := .join (i + 1) } else none
    else some { s with main := .destroy }
  | .destroy => some { s with sem := none, main := .compare }
  | .compare => some { s with main := .ended (s.soma == wrapInt (n * steps)) }
  | .ended _ => none

/-- A `sem_down` on a destroyed semaphore is no step. -/
def raceTaskStep (s : Racecond n) (t : Fin n) : Option (Racecond n) :=
  match s.pc t with
  | .uncreated => none
  | .test i =>
    some { s with pc := Function.update s.pc t (if i < steps then .down i else .exited) }
  | .down i =>
    match s.sem with
    | some (v + 1) => some { s with sem := some v, pc := Function.update s.pc t (.load i) }
    | _ => none
  | .load i => some { s with pc := Function.update s.pc t (.store i s.soma) }
  | .store i v =>
    some { s with soma := wrapLong (v + 1), pc := Function.update s.pc t (.up i) }
  | .up i =>
    some { s with sem := s.sem.map (· + 1), pc := Function.update s.pc t (.test (i + 1)) }
  | .exited => none

/-- The main task takes its next step, or one of the others does. -/
def raceStep (s : Racecond n) : Option (Fin n) → Option (Racecond n)
  | none => raceMainStep steps s
  | some t => raceTaskStep steps s t

def RacePc.critical : RacePc → Bool
  | .load _ | .store _ _ | .up _ => true
  | _ => false

/-- The increments that the task has stored. -/
def RacePc.stored : RacePc → Nat
  | .uncreated => 0
  | .test i | .down i | .load i | .store i _ => i
  | .up i => i + 1
  | .exited => steps

/-- The steps that the task still has to take, its creation included. -/
def RacePc.left : RacePc → Nat
  | .uncreated => 5 * steps + 2
  | .test i => 5 * (steps - i) + 1
  | .down i => 5 * (steps - i)
  | .load i => 5 * (steps - i) - 1
  | .store i _ => 5 * (steps - i) - 2
  | .up i => 5 * (steps - i) - 3
  | .exited => 0

def RaceMain.left (n : Nat) : RaceMain → Nat
  | .create _ => n + 4
  | .join i => n - i + 3
  | .destroy => 2
  | .compare => 1
  | .ended _ => 0

def Racecond.left (s : Racecond n) : Nat := s.main.left n + ∑ t, (s.pc t).left steps

def RacePc.InRange : RacePc → Prop
  | .test i => i ≤ steps
  | .down i | .load i | .store i _ | .up i => i < steps
  | _ => True

/-- How far the main task has got with the others. -/
def RaceMain.Waits (pc : Fin n → RacePc) : RaceMain → Prop
  | .create i => ∀ t, pc t = .uncreated ↔ i ≤ t
  | .join i => ∀ t, pc t ≠ .uncreated ∧ (t < i → pc t = .exited)
  | .destroy | .compare | .ended _ => ∀ t, pc t = .exited

structure Racecond.Counts (s : Racecond n) : Prop where
  waits : s.main.Waits s.pc
  inRange : ∀ t, (s.pc t).InRange steps
  lock : (∃ t, s.pc t ≠ .exited) → ∃ v, s.sem = some v ∧ v + countAt RacePc.critical s.pc = 1
  soma : s.soma = (∑ t, (s.pc t).stored steps : Nat)
  latest : ∀ t i v, s.pc t = .store i v → v = s.soma
  correct : ∀ b, s.main = .ended b → b = true

variable {steps} {s u : Racecond n} {t : Fin n} {k k' : RacePc}

theorem RacePc.stored_le (h : k.InRange steps) : k.stored steps ≤ steps := by
  cases k with
  | uncreated => exact Nat.zero_le steps
  | test i => exact h
  | down i | load i | store i v => exact Nat.le_of_lt h
  | up i => exact h
  | exited => exact Nat.le_refl steps

theorem start_counts (n steps : Nat) : (Racecond.start n).Counts steps where
  waits _ := iff_of_true rfl (Nat.zero_le _)
  inRange _ := trivial
  lock _ := ⟨1, rfl, by rw [countAt_eq_zero fun _ => rfl]⟩
  soma := by simp [Racecond.start, RacePc.stored]
  latest _ _ _ hk := by cases hk
  correct _ hb := by cases hb

theorem RaceMain.Waits.move {pc : Fin n → RacePc} {m : RaceMain} (h : m.Waits pc)
    (hpc : pc t = k) (hout : k ≠ .exited) (hin : k ≠ .uncreated) (hin' : k' ≠ .uncreated) :
    m.Waits (Function.update pc t k') := by
  cases m with
  | create i =>
    intro t'
    by_cases ht : t' = t
    · subst t'
      rw [Function.update_self, ← h t, hpc]
      exact iff_of_false hin' hin
    · rw [Function.update_of_ne ht]
      exact h t'
  | join i =>
    intro t'
    by_cases ht : t' = t
    · subst t'
      rw [Function.update_self]
      exact ⟨hin', fun hlt => absurd (hpc ▸ (h t).2 hlt) hout⟩
    · rw [Function.update_of_ne ht]
      exact h t'
  | destroy | compare | ended b => exact absurd (hpc ▸ h t) hout

theorem waits_create {pc : Fin n → RacePc} {i : Nat} (h : (RaceMain.create i).Waits pc)
    (hi : i < n) : (RaceMain.create (i + 1)).Waits (Function.update pc ⟨i, hi⟩ (.test 0)) := by
  intro t
  by_cases ht : t = ⟨i, hi⟩
  · subst t
    rw [Function.update_self]
    exact iff_of_false nofun (Nat.not_succ_le_self i)
  · have hne : i ≠ t := fun he => ht (Fin.ext he.symm)
    rw [Function.update_of_ne ht, h t]
    omega

/-- A task is taken from `k` to `k'`. `soma` changes only while the others are not between
their load and their store. -/
theorem Racecond.Counts.change (h : s.Counts steps) (hpc : s.pc t = k) (hout : k ≠ .exited)
    (hupc : u.pc = Function.update s.pc t k') (hwaits : u.main.Waits u.pc)
    (hcorrect : ∀ b, u.main = .ended b → b = true) (hmain : u.main.left n ≤ s.main.left n)
    (hrange : k'.InRange steps)
    (hsem : ∀ v, s.sem = some v →
      ∃ v', u.sem = some v' ∧ v' + k'.critical.toNat = v + k.critical.toNat)
    (hsoma : u.soma + k.stored steps = s.soma + k'.stored steps)
    (hlatest : ∀ i v, k' = .store i v → v = u.soma)
    (hkept : k.critical = true ∨ u.soma = s.soma) (hleft : k'.left steps < k.left steps) :
    u.Counts steps ∧ u.left steps < s.left steps := by
  obtain ⟨v, hv, hlock⟩ := h.lock ⟨t, hpc ▸ hout⟩
  have hcount := countAt_update RacePc.critical (x := k') hpc
  have hsum := sum_update (RacePc.stored steps) (x := k') hpc
  have hrest := sum_update (RacePc.left steps) (x := k') hpc
  have hold := h.soma
  refine ⟨⟨hwaits, fun t' => ?_, fun _ => ?_, ?_, fun t' i w hw => ?_, hcorrect⟩, ?_⟩
  · rw [hupc]
    by_cases ht : t' = t
    · subst t'
      rwa [Function.update_self]
    · rw [Function.update_of_ne ht]
      exact h.inRange t'
  · obtain ⟨v', hv', hmove⟩ := hsem v hv
    refine ⟨v', hv', ?_⟩
    rw [hupc]
    omega
  · rw [hupc]
    omega
  · rw [hupc] at hw
    by_cases ht : t' = t
    · subst t'
      rw [Function.update_self] at hw
      exact hlatest i w hw
    · rw [Function.update_of_ne ht] at hw
      rcases hkept with hk | hsame
      · refine absurd (eq_of_countAt_le_one (p := RacePc.critical) (by omega) ?_ (hpc ▸ hk)) ht
        rw [hw]
        rfl
      · rw [hsame]
        exact h.latest t' i w hw
  · rw [Racecond.left, Racecond.left, hupc]
    omega

theorem Racecond.Counts.move (h : s.Counts steps) (hpc : s.pc t = k) (hout : k ≠ .exited)
    (hin : k ≠ .uncreated) (hupc : u.pc = Function.update s.pc t k') (hmain : u.main = s.main)
    (hin' : k' ≠ .uncreated) (hrange : k'.InRange steps)
    (hsem : ∀ v, s.sem = some v →
      ∃ v', u.sem = some v' ∧ v' + k'.critical.toNat = v + k.critical.toNat)
    (hsoma : u.soma + k.stored steps = s.soma + k'.stored steps)
    (hlatest : ∀ i v, k' = .store i v → v = u.soma)
    (hkept : k.critical = true ∨ u.soma = s.soma) (hleft : k'.left steps < k.left steps) :
    u.Counts steps ∧ u.left steps < s.left steps :=
  h.change hpc hout hupc (hmain ▸ hupc ▸ h.waits.move hpc hout hin hin') (hmain ▸ h.correct)
    (hmain ▸ Nat.le_refl _) hrange hsem hsoma hlatest hkept hleft

/-- The main task goes on, and the semaphore is destroyed only when all tasks are gone. -/
theorem Racecond.Counts.main (h : s.Counts steps) (hpc : u.pc = s.pc) (hsoma : u.soma = s.soma)
    (hsem : u.sem = s.sem ∨ ∀ t, s.pc t = .exited) (hwaits : u.main.Waits s.pc)
    (hcorrect : ∀ b, u.main = .ended b → b = true) (hleft : u.main.left n < s.main.left n) :
    u.Counts steps ∧ u.left steps < s.left steps := by
  refine ⟨⟨hpc ▸ hwaits, hpc ▸ h.inRange, ?_, ?_, ?_, hcorrect⟩, ?_⟩
  · rintro ⟨t, ht⟩
    rw [hpc] at ht ⊢
    rcases hsem with hsame | hgone
    · exact hsame ▸ h.lock ⟨t, ht⟩
    · exact absurd (hgone t) ht
  · rw [hsoma, hpc]
    exact h.soma
  · rw [hsoma, hpc]
    exact h.latest
  · rw [Racecond.left, Racecond.left, hpc]
    omega

theorem sum_stored_le {pc : Fin n → RacePc} (h : ∀ t, (pc t).InRange steps) :
    ∑ t, (pc t).stored steps ≤ n * steps := by
  have hle := Finset.sum_le_card_nsmul Finset.univ (fun t => (pc t).stored steps) steps
    fun t _ => RacePc.stored_le (h t)
  simpa using hle

theorem wrapLong_of_fits {a : Int} (hlo : 0 ≤ a) (hhi : a ≤ intMax) : wrapLong a = a := by
  unfold intMax at hhi
  exact Int.bmod_eq_of_le (by omega) (by omega)

/-- The sum is still below its end while a task has a round to finish. -/
theorem Racecond.Counts.store_fits (h : s.Counts steps)
    (hfits : ((n * steps : Nat) : Int) ≤ intMax) {i : Nat} {v : Int}
    (hpc : s.pc t = .store i v) : wrapLong (v + 1) = s.soma + 1 := by
  have hrange := h.inRange t
  rw [hpc] at hrange
  have hall : ∀ j, (Function.update s.pc t (.up i) j).InRange steps := fun j => by
    by_cases hj : j = t
    · subst j
      rwa [Function.update_self]
    · rw [Function.update_of_ne hj]
      exact h.inRange j
  have hsum := sum_update (RacePc.stored steps) (x := .up i) hpc
  have hle := sum_stored_le hall
  have hsoma := h.soma
  have hone : (∑ j, (s.pc j).stored steps) + 1 ≤ n * steps := by
    have hi : RacePc.stored steps (.store i v) = i := rfl
    have hnext : RacePc.stored steps (.up i) = i + 1 := rfl
    omega
  rw [h.latest t i v hpc]
  exact wrapLong_of_fits (by omega) (by omega)

theorem Racecond.Counts.taskStep (h : s.Counts steps)
    (hfits : ((n * steps : Nat) : Int) ≤ intMax) (hu : raceTaskStep steps s t = some u) :
    u.Counts steps ∧ u.left steps < s.left steps := by
  have hrange := h.inRange t
  cases hpc : s.pc t <;> rw [hpc] at hrange <;> simp only [raceTaskStep, hpc] at hu
  case uncreated | exited => cases hu
  case test i =>
    cases hu
    have hi : i ≤ steps := hrange
    by_cases hlt : i < steps
    · rw [if_pos hlt]
      refine h.move hpc nofun nofun rfl rfl nofun hlt (fun v hv => ⟨v, hv, rfl⟩) rfl nofun
        (.inr rfl) ?_
      exact Nat.lt_succ_self _
    · obtain rfl : i = steps := by omega
      rw [if_neg hlt]
      refine h.move hpc nofun nofun rfl rfl nofun trivial (fun v hv => ⟨v, hv, rfl⟩) rfl nofun
        (.inr rfl) ?_
      exact Nat.succ_pos _
  case down i =>
    have hi : i < steps := hrange
    split at hu
    · rename_i v hsem
      cases hu
      refine h.move hpc nofun nofun rfl rfl nofun hi (fun w hw => ⟨v, rfl, ?_⟩) rfl nofun
        (.inr rfl) ?_
      · rw [hsem, Option.some.injEq] at hw
        exact hw
      · show 5 * (steps - i) - 1 < 5 * (steps - i)
        omega
    · cases hu
  case load i =>
    cases hu
    have hi : i < steps := hrange
    refine h.move hpc nofun nofun rfl rfl nofun hi (fun v hv => ⟨v, hv, rfl⟩) rfl ?_ (.inr rfl) ?_
    · rintro j v hj
      cases hj
      rfl
    · show 5 * (steps - i) - 2 < 5 * (steps - i) - 1
      omega
  case store i v =>
    cases hu
    have hi : i < steps := hrange
    refine h.move hpc nofun nofun rfl rfl nofun hi (fun v hv => ⟨v, hv, rfl⟩) ?_ nofun
      (.inl rfl) ?_
    · show wrapLong (v + 1) + (i : Nat) = s.soma + (i + 1 : Nat)
      rw [h.store_fits hfits hpc]
      omega
    · show 5 * (steps - i) - 3 < 5 * (steps - i) - 2
      omega
  case up i =>
    cases hu
    have hi : i < steps := hrange
    refine h.move hpc nofun nofun rfl rfl nofun hi (fun v hv => ⟨v + 1, ?_, rfl⟩) rfl nofun
      (.inr rfl) ?_
    · rw [hv, Option.map_some]
    · show 5 * (steps - (i + 1)) + 1 < 5 * (steps - i) - 3
      omega

theorem Racecond.Counts.all_stored (h : s.Counts steps) (hgone : ∀ t, s.pc t = .exited) :
    s.soma = (n * steps : Nat) := by
  have hstored (t : Fin n) : (s.pc t).stored steps = steps := by
    rw [hgone]
    rfl
  rw [h.soma, Finset.sum_congr rfl fun t _ => hstored t]
  simp

theorem Racecond.Counts.mainStep (h : s.Counts steps)
    (hfits : ((n * steps : Nat) : Int) ≤ intMax) (hu : raceMainStep steps s = some u) :
    u.Counts steps ∧ u.left steps < s.left steps := by
  have hwaits := h.waits
  cases hmain : s.main <;> rw [hmain] at hwaits <;> simp only [raceMainStep, hmain] at hu
  case create i =>
    split_ifs at hu with hi
    · cases hu
      have hnew : s.pc ⟨i, hi⟩ = .uncreated := (hwaits ⟨i, hi⟩).mpr (Nat.le_refl i)
      refine h.change hnew nofun rfl (waits_create hwaits hi) nofun (hmain ▸ Nat.le_refl _)
        (Nat.zero_le _) (fun v hv => ⟨v, hv, rfl⟩) rfl nofun (.inr rfl) ?_
      show 5 * (steps - 0) + 1 < 5 * steps + 2
      omega
    · cases hu
      refine h.main rfl rfl (.inl rfl) (fun t => ⟨fun hk => ?_, nofun⟩) nofun ?_
      · have hle := (hwaits t).mp hk
        omega
      · rw [hmain]
        show n - 0 + 3 < n + 4
        omega
  case join i =>
    split_ifs at hu with hi hexited
    · cases hu
      refine h.main rfl rfl (.inl rfl) (fun t => ⟨(hwaits t).1, fun ht => ?_⟩) nofun ?_
      · by_cases hti : (t : Nat) = i
        · obtain rfl : t = ⟨i, hi⟩ := Fin.ext hti
          exact hexited
        · exact (hwaits t).2 (by omega)
      · rw [hmain]
        show n - (i + 1) + 3 < n - i + 3
        omega
    · cases hu
      have hgone (t : Fin n) : s.pc t = .exited := (hwaits t).2 (by omega)
      refine h.main rfl rfl (.inl rfl) hgone nofun ?_
      rw [hmain]
      show 2 < n - i + 3
      omega
  case destroy =>
    cases hu
    exact h.main rfl rfl (.inr hwaits) hwaits nofun (by rw [hmain]; exact Nat.lt_succ_self 1)
  case compare =>
    cases hu
    refine h.main rfl rfl (.inl rfl) hwaits (fun b hb => ?_) (by rw [hmain]; exact Nat.one_pos)
    cases hb
    have hmin : -intMax ≤ ((n * steps : Nat) : Int) := by
      unfold intMax
      omega
    rw [h.all_stored hwaits, ← Int.natCast_mul, wrapInt_of_fits hmin hfits]
    exact beq_self_eq_true _
  case ended b => cases hu

theorem Racecond.Counts.task_enabled (h : s.Counts steps) (hcreated : s.pc t ≠ .uncreated)
    (hleft : s.pc t ≠ .exited) : ∃ t' u, raceTaskStep steps s t' = some u := by
  by_contra hstuck
  have hblocked (t' : Fin n) : raceTaskStep steps s t' = none :=
    Option.eq_none_iff_forall_ne_some.mpr fun u hu => hstuck ⟨t', u, hu⟩
  obtain ⟨v, hv, hlock⟩ := h.lock ⟨t, hleft⟩
  have hnone : countAt RacePc.critical s.pc = 0 := countAt_eq_zero fun t' => by
    have hstop := hblocked t'
    cases hpc : s.pc t' <;> simp only [raceTaskStep, hpc] at hstop <;> first | rfl | cases hstop
  obtain rfl : v = 1 := by omega
  have hstop := hblocked t
  cases hpc : s.pc t <;> simp only [raceTaskStep, hpc] at hstop
  case uncreated => exact hcreated hpc
  case exited => exact hleft hpc
  case down i =>
    rw [hv] at hstop
    cases hstop
  all_goals cases hstop

theorem Racecond.Counts.enabled (h : s.Counts steps) (hend : ∀ b, s.main ≠ .ended b) :
    ∃ a u, raceStep steps s a = some u := by
  have hwaits := h.waits
  cases hmain : s.main with
  | create i =>
    refine ⟨none, ?_⟩
    simp only [raceStep, raceMainStep, hmain]
    split_ifs
    · exact ⟨_, rfl⟩
    · exact ⟨_, rfl⟩
  | join i =>
    rw [hmain] at hwaits
    by_cases hi : i < n
    · by_cases hexited : s.pc ⟨i, hi⟩ = .exited
      · refine ⟨none, { s with main := .join (i + 1) }, ?_⟩
        simp only [raceStep, raceMainStep, hmain, dif_pos hi, if_pos hexited]
      · obtain ⟨t', u, hu⟩ := h.task_enabled (hwaits ⟨i, hi⟩).1 hexited
        exact ⟨some t', u, hu⟩
    · refine ⟨none, { s with main := .destroy }, ?_⟩
      simp only [raceStep, raceMainStep, hmain, dif_neg hi]
  | destroy =>
    refine ⟨none, { s with sem := none, main := .compare }, ?_⟩
    simp only [raceStep, raceMainStep, hmain]
  | compare =>
    refine ⟨none, { s with main := .ended (s.soma == wrapInt (n * steps)) }, ?_⟩
    simp only [raceStep, raceMainStep, hmain]
  | ended b => exact absurd hmain (hend b)

/-- In every interleaving the run ends, at the latest after the steps that are counted
here, and the main task then finds the sum right: no increment is lost. -/
theorem racecond_correct {as : List (Option (Fin n))}
    (hfits : ((n * steps : Nat) : Int) ≤ intMax)
    (hrun : run (raceStep steps) (Racecond.start n) as = some u) :
    (∀ b, u.main = .ended b → b = true ∧ u.soma = (n * steps : Nat)) ∧
      as.length ≤ n * (5 * steps + 2) + n + 4 ∧
      ((∀ b, u.main ≠ .ended b) → ∃ a v, raceStep steps u a = some v) := by
  have hstep (s : Racecond n) (a : Option (Fin n)) (t : Racecond n) (hs : s.Counts steps)
      (ht : raceStep steps s a = some t) : t.Counts steps ∧ t.left steps + 1 ≤ s.left steps := by
    cases a with
    | none => exact hs.mainStep hfits ht
    | some i => exact hs.taskStep hfits ht
  obtain ⟨hu, hlength⟩ := run_budget hstep (start_counts n steps) hrun
  have hstart : (Racecond.start n).left steps = n + 4 + n * (5 * steps + 2) := by
    simp [Racecond.left, Racecond.start, RaceMain.left, RacePc.left]
  refine ⟨fun b hb => ⟨hu.correct b hb, hu.all_stored ?_⟩, ?_, hu.enabled⟩
  · have hwaits := hu.waits
    rw [hb] at hwaits
    exact hwaits
  · have hsum : (as.map fun _ => 1).sum = as.length := by simp
    omega

end Racecond

/-- Task `b` comes in while task `a` is between its load and its store. -/
def smallRace (a b : Fin 2) : List (Option (Fin 2)) :=
  [none, none, some a, some a, some a, some b, some a, some a, some b, some a, some b, some b,
    some b, some b, none, none, none, none, none, none]

theorem racecond_correct_small : ∃ u : Racecond 2,
    run (raceStep 1) (Racecond.start 2) (smallRace 0 1) = some u ∧ u.main = .ended true ∧
      u.soma = (2 * 1 : Nat) ∧ (smallRace 0 1).length ≤ 2 * (5 * 1 + 2) + 2 + 4 := by
  have hu : (run (raceStep 1) (Racecond.start 2) (smallRace 0 1)).isSome = true := by decide
  obtain ⟨u, hu⟩ := Option.isSome_iff_exists.mp hu
  obtain ⟨hend, hlength, -⟩ := racecond_correct (by decide) hu
  have hmain : (run (raceStep 1) (Racecond.start 2) (smallRace 0 1)).map (·.main) =
      some (.ended true) := by decide
  rw [hu, Option.map_some, Option.some.injEq] at hmain
  exact ⟨u, hu, hmain, (hend true hmain).2, hlength⟩

end PingPong
