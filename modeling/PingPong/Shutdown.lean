import PingPong.Handshake
import PingPong.Simulation

/-! The exit of the main task. `finishDiskTask` frees the list, and ends the disk
task, only if a request is listed at that moment. A disk task that it finds
between the test for an empty list and `removeNode` goes on with a freed list: it
dereferences `NULL`, or it removes and frees a node for the second time, and the
run ends there. -/

namespace PingPong

open Runs

variable {n : Nat} {φ μ : Type}

def finishDiskTask (s : State n φ μ) : State n φ μ × Bool :=
  if s.list.length ≠ 0 then
    ({ s with
      list := []
      mgr := { s.mgr with init := false }
      newReqsSem := s.newReqsSem + 1 }, true)
  else (s, false)

/-- The disk task is between its test for an empty list and `removeNode`. -/
def DiskPc.selecting : DiskPc → Bool
  | .choose | .remove _ => true
  | _ => false

/-- `removeNode` is about to unlink and free a node that is not listed any more. -/
def State.freesTwice (s : State n φ μ) : Bool :=
  match s.disk with
  | .remove p => p ∉ s.list
  | _ => false

def Action.client? : Action n μ → Option (Fin n)
  | .call c _ _ _ _ | .client c | .store c _ => some c
  | .disk | .fire | .tick => none

/-- A step after the exit of the main task, which may have been a client itself. -/
def closingStep (cfg : Config φ μ) (main : Option (Fin n)) (s : State n φ μ) (a : Action n μ) :
    Option (State n φ μ) :=
  match a with
  | .disk => if s.freesTwice then none else diskStep cfg s
  | a => if main.isSome ∧ a.client? = main then none else step cfg s a

/-- The main task is in no call. -/
def State.CanExit (main : Option (Fin n)) (s : State n φ μ) : Prop :=
  ∀ m, main = some m → s.clients m = .outside

def isDisk : Action n μ → Bool
  | .disk => true
  | _ => false

def passOf (s : State n φ μ) : Action n μ → Option Unit
  | .disk => if s.disk = .downNewReqs then some () else none
  | _ => none

def passesIn (cfg : Config φ μ) (main : Option (Fin n)) (s : State n φ μ)
    (as : List (Action n μ)) : Nat :=
  (traceOf (closingStep cfg main) passOf s as).length

/-- However the run goes on, the disk task makes at most one more pass and twelve
more statements, and left to itself it prints its totals and exits. -/
def EndsDiskTask (cfg : Config φ μ) (main : Option (Fin n)) (s : State n φ μ) : Prop :=
  ∀ as u, run (closingStep cfg main) s as = some u →
    passesIn cfg main s as ≤ 1 ∧ as.countP isDisk ≤ 12 ∧
      ∃ k v, run (closingStep cfg main) u (List.replicate k .disk) = some v ∧ v.disk = .exited

/-- What the header promises of `finishDiskTask`. -/
def ShutsDown (cfg : Config φ μ) (main : Option (Fin n)) (s : State n φ μ) : Prop :=
  (finishDiskTask s).1.list = [] ∧ (finishDiskTask s).1.mgr.init = false ∧
    (finishDiskTask s).1.newReqsSem = s.newReqsSem + 1 ∧ EndsDiskTask cfg main (finishDiskTask s).1

def DiskPc.rank : DiskPc → Nat
  | .downNewReqs => 12
  | .checkEmpty => 11
  | .choose => 10
  | .remove _ => 9
  | .askStatus _ _ => 8
  | .setStart _ _ => 7
  | .account _ _ => 6
  | .setCurrBlock _ _ _ => 5
  | .setBuffer _ _ => 4
  | .command _ _ => 3
  | .upTreated _ => 2
  | .whileInit => 1
  | .exited => 0

structure Closing (s : State n φ μ) : Prop where
  init : s.mgr.init = false
  token : s.disk = .downNewReqs → 0 < s.newReqsSem
  listed : s.disk = .choose → s.list ≠ []
  chosen : ∀ p, s.disk = .remove p → p ∈ s.list

section Closing

variable {main : Option (Fin n)}

theorem closingStep_cases {s t : State n φ μ} {a : Action n μ}
    (h : closingStep cfg main s a = some t) :
    Step cfg s a t ∧ ∀ c, a.client? = some c → main ≠ some c := by
  cases a with
  | disk =>
    simp only [closingStep, Option.ite_none_left_eq_some] at h
    exact ⟨diskStep_cases h.2, fun c hc => by cases hc⟩
  | _ =>
    simp only [closingStep, Option.ite_none_left_eq_some] at h
    refine ⟨step_cases h.2, fun c hc hmain => h.1 ⟨?_, hc.trans hmain.symm⟩⟩
    simp [hmain]

theorem closingStep_of_step {s t : State n φ μ} {a : Action n μ} (h : Step cfg s a t)
    (ha : isDisk a = false) (hc : ∀ c, a.client? = some c → main ≠ some c) :
    closingStep cfg main s a = some t := by
  have hothers : ¬(main.isSome ∧ a.client? = main) := by
    rintro ⟨hsome, heq⟩
    obtain ⟨c, hmain⟩ := Option.isSome_iff_exists.mp hsome
    exact hc c (heq.trans hmain) hmain
  cases a with
  | disk => cases ha
  | _ => exact (if_neg hothers).trans h.enabled

theorem finishDiskTask_nonempty {s : State n φ μ} (h : s.list ≠ []) :
    finishDiskTask s = ({ s with
      list := []
      mgr := { s.mgr with init := false }
      newReqsSem := s.newReqsSem + 1 }, true) :=
  if_pos (mt List.length_eq_zero_iff.mp h)

theorem finishDiskTask_empty {s : State n φ μ} (h : s.list = []) :
    finishDiskTask s = (s, false) := by
  simp [finishDiskTask, h]

theorem Closing.frame {s t : State n φ μ} (hs : Closing s) (hdisk : t.disk = s.disk)
    (hmgr : t.mgr.init = s.mgr.init) (hsem : s.newReqsSem ≤ t.newReqsSem)
    (hlist : s.list ⊆ t.list) : Closing t where
  init := hmgr.trans hs.init
  token hd := Nat.lt_of_lt_of_le (hs.token (hdisk ▸ hd)) hsem
  listed hd hnil := hs.listed (hdisk ▸ hd) (List.subset_nil.mp (hnil ▸ hlist))
  chosen p hd := hlist (hs.chosen p (hdisk ▸ hd))

theorem Closing.move {t : State n φ μ} (hinit : t.mgr.init = false)
    (hrank : t.disk.rank < 9 ∨ t.disk.rank = 11) : Closing t where
  init := hinit
  token hd := by simp [hd, DiskPc.rank] at hrank
  listed hd := by simp [hd, DiskPc.rank] at hrank
  chosen p hd := by simp [hd, DiskPc.rank] at hrank

theorem Closing.step {s t : State n φ μ} {a : Action n μ} (hs : Closing s)
    (h : Step cfg s a t) : Closing t := by
  have hinit := hs.init
  cases h with
  | call => exact hs.frame rfl rfl (Nat.le_refl _) (List.subset_append_left _ _)
  | upNew => exact hs.frame rfl rfl (Nat.le_succ _) (List.Subset.refl _)
  | lock | downTreated | unlock | ret | store | fire | tick =>
    exact hs.frame rfl rfl (Nat.le_refl _) (List.Subset.refl _)
  | enterLoop _ htrue => exact absurd (hinit.symm.trans htrue) Bool.false_ne_true
  | nonempty _ hlist => exact ⟨hinit, nofun, fun _ => hlist, nofun⟩
  | choose _ hsched =>
    refine ⟨hinit, nofun, nofun, fun p hp => ?_⟩
    cases hp
    exact (schedChoice_earliest hsched).mem
  | downNew => exact .move hinit (.inr rfl)
  | leaveLoop | empty | remove | notIdle | isIdle | setStart | account | setCurrBlock
  | setBuffer | accept | refuse | upTreated => exact .move hinit (.inl (by simp [DiskPc.rank]))

theorem rank_step {s t : State n φ μ} {a : Action n μ} (hs : Closing s)
    (h : Step cfg s a t) : t.disk.rank + (isDisk a).toNat ≤ s.disk.rank := by
  cases h with
  | enterLoop _ htrue => exact absurd (hs.init.symm.trans htrue) Bool.false_ne_true
  | call | lock | upNew | downTreated | unlock | ret | store | fire | tick => exact Nat.le_refl _
  | leaveLoop hpc | downNew hpc | empty hpc | nonempty hpc | choose hpc | remove hpc
  | notIdle hpc | isIdle hpc | setStart hpc | account hpc | setCurrBlock hpc | setBuffer hpc
  | accept hpc | refuse hpc | upTreated hpc =>
    rw [hpc]
    simp [DiskPc.rank, isDisk]

theorem Closing.enabled {s : State n φ μ} (hs : Closing s)
    (hpc : s.disk ≠ .exited) : ∃ t, closingStep cfg main s .disk = some t := by
  have honce : s.freesTwice = false := by
    unfold State.freesTwice
    split
    · next p hp => simpa using hs.chosen p hp
    · rfl
  have hstep : closingStep cfg main s .disk = diskStep cfg s := by
    simp [closingStep, honce]
  rw [hstep]
  refine Option.isSome_iff_exists.mp ?_
  cases hd : s.disk with
  | exited => exact absurd hd hpc
  | downNewReqs => simp only [diskStep, hd, if_pos (hs.token hd), Option.isSome_some]
  | choose =>
    obtain ⟨p, hp⟩ : ∃ p, schedChoice cfg.ia (fun q => (s.heap q).block) s.mgr.iCurrBlock cfg.alg
        s.list = some p := schedChoice_isSome _ _ _ (hs.listed hd)
    simp only [diskStep, hd, hp, Option.map_some, Option.isSome_some]
  | _ => simp only [diskStep, hd, Option.isSome_some]

theorem Closing.exits {s : State n φ μ} (hs : Closing s) :
    ∃ k t, run (closingStep cfg main) s (List.replicate k .disk) = some t ∧ t.disk = .exited := by
  induction hr : s.disk.rank using Nat.strong_induction_on generalizing s with
  | _ m ih =>
    by_cases hpc : s.disk = .exited
    · exact ⟨0, s, rfl, hpc⟩
    · obtain ⟨t, ht⟩ : ∃ t, closingStep cfg main s .disk = some t := hs.enabled hpc
      have hrank : t.disk.rank + 1 ≤ s.disk.rank := rank_step hs (closingStep_cases ht).1
      obtain ⟨k, u, hu, hex⟩ := ih t.disk.rank (by omega) (hs.step (closingStep_cases ht).1) rfl
      exact ⟨k + 1, u, run_cons.mpr ⟨t, ht, hu⟩, hex⟩

theorem Closing.passOf {s t : State n φ μ} {a : Action n μ} (hs : Closing s)
    (h : Step cfg s a t) : (PingPong.passOf s a).toList.length + (if t.disk = .downNewReqs then 1
      else 0) ≤ if s.disk = .downNewReqs then 1 else 0 := by
  cases h with
  | enterLoop _ htrue => exact absurd (hs.init.symm.trans htrue) Bool.false_ne_true
  | call | lock | upNew | downTreated | unlock | ret | store | fire | tick =>
    simp [PingPong.passOf]
  | leaveLoop hpc | downNew hpc | empty hpc | nonempty hpc | choose hpc | remove hpc
  | notIdle hpc | isIdle hpc | setStart hpc | account hpc | setCurrBlock hpc | setBuffer hpc
  | accept hpc | refuse hpc | upTreated hpc => simp [PingPong.passOf, hpc]

/-- Along a run the passes and the statements of the disk task are paid for by
where it stood at the start. -/
theorem Closing.run {s u : State n φ μ} {as : List (Action n μ)}
    (hs : Closing s) (h : run (closingStep cfg main) s as = some u) :
    Closing u ∧ passesIn cfg main s as ≤ (if s.disk = .downNewReqs then 1 else 0) ∧
      u.disk.rank + as.countP isDisk ≤ s.disk.rank := by
  induction as generalizing s with
  | nil =>
    cases h
    exact ⟨hs, Nat.zero_le _, Nat.le_refl _⟩
  | cons a as ih =>
    obtain ⟨t, ht, hu⟩ := run_cons.mp h
    have hstep := (closingStep_cases ht).1
    have hpass := hs.passOf hstep
    have hrank := rank_step hs hstep
    obtain ⟨hclosing, hpasses, hranks⟩ := ih (hs.step hstep) hu
    refine ⟨hclosing, ?_, ?_⟩
    · simp only [passesIn, traceOf, ht, Option.elim_some, List.length_append] at hpasses ⊢
      omega
    · cases hd : isDisk a with
      | true =>
        rw [List.countP_cons_of_pos hd]
        rw [hd, Bool.toNat_true] at hrank
        omega
      | false =>
        rw [List.countP_cons_of_neg (by simp [hd])]
        rw [hd, Bool.toNat_false] at hrank
        omega

theorem Closing.endsDiskTask {s : State n φ μ} (hs : Closing s) :
    EndsDiskTask cfg main s := by
  intro as u hu
  obtain ⟨hclosing, hpasses, hranks⟩ := hs.run hu
  have hle : s.disk.rank ≤ 12 := by
    cases s.disk <;> simp [DiskPc.rank]
  refine ⟨?_, by omega, hclosing.exits⟩
  split_ifs at hpasses <;> omega

theorem finishDiskTask_closing {s : State n φ μ} (hlist : s.list ≠ [])
    (hsel : s.disk.selecting = false) : Closing (finishDiskTask s).1 := by
  rw [finishDiskTask_nonempty hlist]
  refine ⟨rfl, fun _ => Nat.succ_pos _, fun hd => ?_, fun p hd => ?_⟩
  · have hpc : s.disk = .choose := hd
    simp [hpc, DiskPc.selecting] at hsel
  · have hpc : s.disk = .remove p := hd
    simp [hpc, DiskPc.selecting] at hsel

theorem not_endsDiskTask {s : State n φ μ}
    (hstuck : closingStep cfg main s .disk = none) (hpc : s.disk ≠ .exited) :
    ¬EndsDiskTask cfg main s := by
  intro hends
  obtain ⟨-, -, k, v, hv, hex⟩ := hends [] s rfl
  cases k with
  | zero =>
    cases hv
    exact hpc hex
  | succ k =>
    obtain ⟨t, ht, -⟩ := run_cons.mp hv
    rw [hstuck] at ht
    cases ht

theorem closingStep_selecting {s : State n φ μ} (hlist : s.list = [])
    (hsel : s.disk.selecting = true) : closingStep cfg main s .disk = none := by
  cases hd : s.disk with
  | choose =>
    have hnone : schedChoice cfg.ia (fun q => (s.heap q).block) s.mgr.iCurrBlock cfg.alg [] =
        none := by
      cases cfg.alg <;> rfl
    simp [closingStep, State.freesTwice, diskStep, hd, hlist, hnone]
  | remove p => simp [closingStep, State.freesTwice, hd, hlist]
  | _ => simp [hd, DiskPc.selecting] at hsel

end Closing

end PingPong
