import PingPong.Handshake

/-! The two copies of the head position. `diskScheduler` adds the distance and
stores the block before `disk_cmd` checks the request; the device stores it
after the checks. The copies agree between two dispatches as long as no refused
request moves the manager's one. -/

namespace PingPong

open Runs

variable {n : Nat} {φ μ : Type}

def Event.accepted? : Event → Option Int
  | .dispatched _ _ block _ ret => if ret = 0 then some block else none
  | _ => none

/-- The blocks of the accepted commands, newest first. -/
def acceptedOf (hist : List Event) : List Int := hist.filterMap Event.accepted?

def headOf : List Int → Int
  | [] => 0
  | b :: _ => b

def travel : List Int → Int
  | [] => 0
  | b :: l => (b - headOf l).natAbs + travel l

theorem travel_nonneg (l : List Int) : 0 ≤ travel l := by
  induction l with
  | nil => exact Int.le_refl _
  | cons b l ih =>
    have habs := Int.natCast_nonneg (b - headOf l).natAbs
    show 0 ≤ ((b - headOf l).natAbs : Int) + travel l
    omega

theorem headOf_mem {l : List Int} {P : Int → Prop} (h0 : P 0) (h : ∀ b ∈ l, P b) :
    P (headOf l) := by
  cases l with
  | nil => exact h0
  | cons b l => exact h b (List.mem_cons_self ..)

/-- From the statement that adds the distance to the return of `disk_cmd`. -/
def DiskPc.moving : DiskPc → Bool
  | .setCurrBlock .. | .setBuffer .. | .command .. => true
  | _ => false

/-- What `HeadAgrees` needs of the request at hand: its distance fits the
counter, the block is the counted one or as far from the head, and `disk_cmd`
accepts it or finds the head there already. -/
def DiskPc.HeadSafe (heap : Ptr → Request) (mgr : Manager) (dev : Device) : DiskPc → Prop
  | .account p _ =>
    mgr.totalBlockAccess + ((heap p).block - mgr.iCurrBlock).natAbs ≤ intMax
  | .setCurrBlock p _ counted =>
    ((heap p).block - mgr.iCurrBlock).natAbs = (counted - mgr.iCurrBlock).natAbs
  | .command _ _ =>
    Accepts dev.numblocks mgr.iCurrBlock mgr.buffer ∨ mgr.iCurrBlock = dev.nextBlock
  | _ => True

instance (heap : Ptr → Request) (mgr : Manager) (dev : Device) :
    (pc : DiskPc) → Decidable (pc.HeadSafe heap mgr dev)
  | .account p _ => inferInstanceAs (Decidable
      (mgr.totalBlockAccess + ((heap p).block - mgr.iCurrBlock).natAbs ≤ intMax))
  | .setCurrBlock p _ counted => inferInstanceAs (Decidable
      (((heap p).block - mgr.iCurrBlock).natAbs = (counted - mgr.iCurrBlock).natAbs))
  | .command _ _ => inferInstanceAs (Decidable
      (Accepts dev.numblocks mgr.iCurrBlock mgr.buffer ∨ mgr.iCurrBlock = dev.nextBlock))
  | .whileInit | .downNewReqs | .checkEmpty | .choose | .remove _ | .askStatus .. | .setStart ..
  | .setBuffer .. | .upTreated _ | .exited => inferInstanceAs (Decidable True)

def HeadSafe (s : State n φ μ) : Action n μ → Prop
  | .disk => s.disk.HeadSafe s.heap s.mgr s.dev
  | _ => True

instance (s : State n φ μ) : (a : Action n μ) → Decidable (HeadSafe s a)
  | .disk => inferInstanceAs (Decidable (s.disk.HeadSafe s.heap s.mgr s.dev))
  | .call .. | .client _ | .store .. | .fire | .tick => inferInstanceAs (Decidable True)

def DiskPc.HeadAt (mgr : Manager) (next total : Int) : DiskPc → Prop
  | .setCurrBlock _ _ counted =>
    mgr.iCurrBlock = next ∧ mgr.totalBlockAccess = (counted - next).natAbs + total
  | .setBuffer _ _ | .command _ _ =>
    mgr.totalBlockAccess = (mgr.iCurrBlock - next).natAbs + total
  | _ => mgr.iCurrBlock = next ∧ mgr.totalBlockAccess = total

structure HeadKept (s : State n φ μ) : Prop where
  next : s.dev.nextBlock = headOf (acceptedOf s.hist)
  size : s.mgr.size = s.dev.numblocks
  range : ∀ b ∈ acceptedOf s.hist, 0 ≤ b ∧ b < s.dev.numblocks
  at_pc : s.disk.HeadAt s.mgr s.dev.nextBlock (travel (acceptedOf s.hist))

structure HeadAgrees (s : State n φ μ) : Prop where
  same : s.mgr.iCurrBlock = s.dev.nextBlock
  last : s.dev.nextBlock = headOf (acceptedOf s.hist)
  range : 0 < s.mgr.size → 0 ≤ s.mgr.iCurrBlock ∧ s.mgr.iCurrBlock < s.mgr.size
  total : s.mgr.totalBlockAccess = travel (acceptedOf s.hist)

theorem initial_headKept (numblocks : Int) (heap : Ptr → Request) (store : Store φ μ) :
    HeadKept (initial numblocks heap store : State n φ μ) where
  next := rfl
  size := rfl
  range b hb := by simp [initial, acceptedOf] at hb
  at_pc := ⟨rfl, rfl⟩

theorem HeadKept.frame {s t : State n φ μ} (hs : HeadKept s)
    (hdev : t.dev.nextBlock = s.dev.nextBlock)
    (hnum : t.dev.numblocks = s.dev.numblocks) (hsize : t.mgr.size = s.mgr.size)
    (hacc : acceptedOf t.hist = acceptedOf s.hist)
    (hat : t.disk.HeadAt t.mgr s.dev.nextBlock (travel (acceptedOf s.hist))) : HeadKept t where
  next := by rw [hdev, hacc, hs.next]
  size := by rw [hsize, hnum, hs.size]
  range := by rw [hacc, hnum]; exact hs.range
  at_pc := by rw [hdev, hacc]; exact hat

/-- 32-bit words compute the distance and the sum when the sum fits. -/
theorem wrap32_account {total a b : Int} (h0 : 0 ≤ total) (h : total + (a - b).natAbs ≤ intMax) :
    IntArith.wrap32.add total (IntArith.wrap32.abs (IntArith.wrap32.sub a b)) =
      (a - b).natAbs + total := by
  have hmax : (0 : Int) ≤ intMax := by decide
  have hsub : wrapInt (a - b) = a - b := wrapInt_of_fits (by omega) (by omega)
  have habs : wrapInt ((a - b).natAbs : Int) = (a - b).natAbs :=
    wrapInt_of_fits (by omega) (by omega)
  have hadd : wrapInt (total + (a - b).natAbs) = total + (a - b).natAbs :=
    wrapInt_of_fits (by omega) (by omega)
  simp only [IntArith.wrap32]
  rw [hsub, habs, hadd, Int.add_comm]

theorem HeadKept.step {cfg : Config φ μ} (hia : cfg.ia = .wrap32) {s t : State n φ μ}
    {a : Action n μ} (hshake : Handshake s) (hs : HeadKept s) (hok : HeadSafe s a)
    (h : Step cfg s a t) : HeadKept t := by
  have hat := hs.at_pc
  cases h with
  | call | lock | upNew | downTreated | unlock | ret | store | tick =>
    exact hs.frame rfl rfl rfl rfl hat
  | fire =>
    refine hs.frame rfl rfl rfl rfl ?_
    cases hd : s.disk <;> simpa [hd, DiskPc.HeadAt] using hat
  | enterLoop hpc | leaveLoop hpc | downNew hpc | empty hpc | nonempty hpc | choose hpc | remove hpc
  | notIdle hpc | isIdle hpc | setStart hpc | upTreated hpc =>
    rw [hpc] at hat
    exact hs.frame rfl rfl rfl rfl hat
  | @account p r hpc =>
    rw [hpc] at hat
    simp only [HeadSafe, hpc, DiskPc.HeadSafe] at hok
    refine hs.frame rfl rfl rfl rfl ⟨hat.1, ?_⟩
    have h0 : 0 ≤ s.mgr.totalBlockAccess := hat.2 ▸ travel_nonneg _
    show cfg.ia.add _ _ = _
    rw [hia, wrap32_account h0 hok, hat.1, hat.2]
  | @setCurrBlock p r counted hpc =>
    rw [hpc] at hat
    simp only [HeadSafe, hpc, DiskPc.HeadSafe] at hok
    refine hs.frame rfl rfl rfl rfl ?_
    show s.mgr.totalBlockAccess = _
    rw [hat.2, ← hat.1, hok]
  | setBuffer hpc =>
    rw [hpc] at hat
    exact hs.frame rfl rfl rfl rfl hat
  | accept hpc hdev hacc =>
    rw [hpc] at hat
    refine ⟨rfl, hs.size, List.forall_mem_cons.mpr ⟨hacc.2, hs.range⟩, rfl, ?_⟩
    show s.mgr.totalBlockAccess = (s.mgr.iCurrBlock - headOf (acceptedOf s.hist)).natAbs +
      travel (acceptedOf s.hist)
    rw [← hs.next]
    exact hat
  | refuse hpc hrej =>
    rw [hpc] at hat
    simp only [HeadSafe, hpc, DiskPc.HeadSafe] at hok
    have hidle := hshake.idle (by rw [hpc]; rfl)
    have hsame : s.mgr.iCurrBlock = s.dev.nextBlock :=
      hok.resolve_left fun hacc => hrej ⟨hidle, hacc⟩
    refine hs.frame rfl rfl rfl rfl ⟨hsame, ?_⟩
    have htotal : s.mgr.totalBlockAccess = _ := hat
    rw [htotal, hsame, Int.sub_self]
    exact Int.zero_add _

theorem run_headKept {cfg : Config φ μ} (hia : cfg.ia = .wrap32) {numblocks : Int}
    {heap : Ptr → Request} {store : Store φ μ} {as : List (Action n μ)} {s : State n φ μ}
    (hok : Along (PingPong.step cfg) HeadSafe (initial numblocks heap store) as)
    (h : run (PingPong.step cfg) (initial numblocks heap store) as = some s) : HeadKept s :=
  (run_invariant (P := fun s => Handshake s ∧ HeadKept s)
    (fun _ _ _ hs hok ht => ⟨hs.1.step (step_cases ht), hs.2.step hia hs.1 hok (step_cases ht)⟩)
    ⟨initial_handshake numblocks heap store, initial_headKept numblocks heap store⟩ hok h).2

/-- Between two dispatches of a run whose requests all meet `HeadSafe`, the
manager and the device agree on the head and on the way it has travelled. -/
theorem head_agrees {cfg : Config φ μ} (hia : cfg.ia = .wrap32) {numblocks : Int}
    {heap : Ptr → Request} {store : Store φ μ} {as : List (Action n μ)} {s : State n φ μ}
    (hok : Along (PingPong.step cfg) HeadSafe (initial numblocks heap store) as)
    (h : run (PingPong.step cfg) (initial numblocks heap store) as = some s)
    (hpc : s.disk.moving = false) : HeadAgrees s := by
  have hs := run_headKept hia hok h
  have hat : s.mgr.iCurrBlock = s.dev.nextBlock ∧
      s.mgr.totalBlockAccess = travel (acceptedOf s.hist) := by
    have hat := hs.at_pc
    cases hd : s.disk <;> simp_all [DiskPc.moving, DiskPc.HeadAt]
  refine ⟨hat.1, hs.next, fun hpos => ?_, hat.2⟩
  rw [hat.1, hs.next, hs.size]
  rw [hs.size] at hpos
  exact headOf_mem ⟨Int.le_refl _, hpos⟩ hs.range

theorem head_agrees_small : ∃ s : State 1 (Int → Nat) (Ptr → Nat),
    run (PingPong.step sstfConfig) (smallDisk 1)
      (callAlone 0 .read 3 64 16 ++ callAlone 0 .write 1 64 16) = some s ∧
    HeadAgrees s ∧ s.mgr.totalBlockAccess = 5 := by
  have hrun : (run (PingPong.step sstfConfig) (smallDisk 1)
      (callAlone 0 .read 3 64 16 ++ callAlone 0 .write 1 64 16)).map
        (fun s => (s.disk.moving, s.mgr.totalBlockAccess)) = some (false, 5) := by decide
  obtain ⟨s, hs, hpair⟩ := Option.map_eq_some_iff.mp hrun
  have hmoving := congrArg Prod.fst hpair
  refine ⟨s, hs, head_agrees rfl ?_ hs hmoving, congrArg Prod.snd hpair⟩
  decide

/-- The device refuses block 99, and the manager's head stays there. -/
theorem head_moved_by_refusal :
    ¬∀ (as : List (Action 1 (Ptr → Nat))) (s : State 1 (Int → Nat) (Ptr → Nat)),
      run (PingPong.step sstfConfig) (smallDisk 1) as = some s → s.disk.moving = false →
        HeadAgrees s := by
  intro hall
  have hrun : (run (PingPong.step sstfConfig) (smallDisk 1)
      ((callAlone 0 .read 99 64 16).take 14)).map
        (fun s => (s.disk.moving, s.mgr.iCurrBlock, s.dev.nextBlock)) = some (false, 99, 0) := by
    decide
  obtain ⟨s, hs, htriple⟩ := Option.map_eq_some_iff.mp hrun
  simp only [Prod.mk.injEq] at htriple
  have hsame := (hall _ s hs htriple.1).same
  rw [htriple.2.1, htriple.2.2] at hsame
  exact absurd hsame (by decide)

end PingPong
