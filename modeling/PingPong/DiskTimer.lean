import PingPong.DiskRuns
import Mathlib.Tactic.Linarith

/-! The delay that `disk_settimer` computes. Its product of a distance and 270 ms is an
`int`, and the sum, in nanoseconds, has to be a time that `timer_settime` takes and that
does not disarm the timer, or the process ends. Both hold on every disk of at most
7953644 blocks, and there the disk is a server with room for one transfer. -/

namespace PingPong

open Runs

def timeMs (ia : IntArith) (d : Device) (random : Int) : Int :=
  wrapInt (ia.add ((ia.mul (ia.abs (ia.sub d.nextBlock d.prevBlock))
    (ia.sub d.delayMax d.delayMin)).tdiv d.numblocks) d.delayMin +
      (random.tmod (ia.sub d.delayMax d.delayMin)).tdiv 10)

/-- The `it_value` of the timer; `it_interval` is 0. -/
structure ItValue where
  tvNsec : Int
  tvSec : Int
  deriving DecidableEq, Repr

def itValue (ia : IntArith) (d : Device) (random : Int) : ItValue where
  tvNsec := ia.mul (timeMs ia d random) 1000000
  tvSec := (timeMs ia d random).tdiv 1000

/-- `timer_settime` takes the value and arms the timer with it. -/
def ItValue.Arms (v : ItValue) : Prop :=
  0 ≤ v.tvNsec ∧ v.tvNsec < 1000000000 ∧ 0 ≤ v.tvSec ∧ (v.tvNsec ≠ 0 ∨ v.tvSec ≠ 0)

instance (v : ItValue) : Decidable v.Arms := inferInstanceAs (Decidable (_ ∧ _ ∧ _ ∧ _))

/-- The step that begins a transfer ends the run if `disk_settimer` exits there, or disarms
the timer. -/
def settimerPasses (d d' : Device) (random : Nat) : Bool :=
  d.busy || !d'.busy || decide (itValue .wrap32 d' random).Arms

/-- A system with the disk in it; each step brings with it what `random` returns. -/
def timed {σ α : Type*} (dev : σ → Device) (step : σ → α → Option σ) : σ → α × Nat → Option σ :=
  guarded (fun s random t => settimerPasses (dev s) (dev t) random) step

def timeMsExact (d : Device) (random : Int) : Int :=
  ((d.nextBlock - d.prevBlock).natAbs * 270) / d.numblocks + 30 + random % 270 / 10

def OnDisk (numblocks b : Int) : Prop := 0 ≤ b ∧ (b = 0 ∨ b < numblocks)

/-- What `disk_settimer` finds in an initialised device. -/
structure Device.Placed (d : Device) : Prop where
  known : d.status ≠ .unknown
  next : OnDisk d.numblocks d.nextBlock
  prev : OnDisk d.numblocks d.prevBlock
  target : d.busy = true → d.nextBlock < d.numblocks
  min : d.delayMin = diskDelayMin
  max : d.delayMax = diskDelayMax

theorem TaskCmd.busy_ne_unknown (cmd : TaskCmd) : cmd.busy ≠ .unknown := by
  cases cmd <;> decide

theorem start_placed (fileSize : Nat) (numblocks : Int) :
    (Device.start fileSize numblocks).Placed where
  known := by simp [Device.start]
  next := ⟨Int.le_refl _, .inl rfl⟩
  prev := ⟨Int.le_refl _, .inl rfl⟩
  target h := by simp [Device.start] at h
  min := rfl
  max := rfl

section Runs

variable {φ μ : Type} {md : Medium φ μ}

theorem Device.Placed.cmd {d : Device} (hd : d.Placed) (cmd : DiskCmd) (block : Int)
    (buffer : Ptr) : (diskCmd cmd block buffer d).1.Placed := by
  have htask (task : TaskCmd) : (diskCmd task.toDiskCmd block buffer d).1.Placed := by
    by_cases hok : d.status = .idle ∧ Accepts d.numblocks block buffer
    · obtain ⟨hidle, hbuf, hlo, hhi⟩ := hok
      rw [diskCmd_accept hidle ⟨hbuf, hlo, hhi⟩]
      exact ⟨task.busy_ne_unknown, ⟨hlo, .inr hhi⟩, hd.prev, fun _ => hhi, hd.min, hd.max⟩
    · rw [diskCmd_refuse hok]
      exact hd
  cases cmd with
  | read => exact htask .read
  | write => exact htask .write
  | init =>
    have hsame : (diskCmd .init block buffer d).1 = d := by
      simp [diskCmd, diskInit, hd.known]
    rw [hsame]
    exact hd
  | _ => exact hd

theorem Device.Placed.cmd_numblocks {d : Device} (hd : d.Placed) (cmd : DiskCmd) (block : Int)
    (buffer : Ptr) : (diskCmd cmd block buffer d).1.numblocks = d.numblocks := by
  have htask (task : TaskCmd) :
      (diskCmd task.toDiskCmd block buffer d).1.numblocks = d.numblocks := by
    by_cases hok : d.status = .idle ∧ Accepts d.numblocks block buffer
    · rw [diskCmd_accept hok.1 hok.2]
    · rw [diskCmd_refuse hok]
  cases cmd with
  | read => exact htask .read
  | write => exact htask .write
  | init => simp [diskCmd, diskInit, hd.known]
  | _ => rfl

theorem Device.Placed.step {s t : Disk φ μ} {a : DiskAction μ} (hs : s.dev.Placed)
    (h : diskRunStep md s a = some t) : t.dev.Placed := by
  cases a with
  | cmd cmd block buffer =>
    cases h
    exact hs.cmd cmd block buffer
  | mem mem =>
    cases h
    exact hs
  | sigio =>
    simp only [diskRunStep, Option.ite_none_right_eq_some, Option.map_eq_some_iff] at h
    obtain ⟨-, done, hdone, rfl⟩ := h
    obtain ⟨task, hdev⟩ := diskSighandle_isSome (Option.isSome_of_eq_some hdone)
    rw [diskSighandle_busy md s.store hdev] at hdone
    cases hdone
    exact ⟨by simp, hs.next, hs.next, fun hbusy => by simp at hbusy, hs.min, hs.max⟩

end Runs

section Delay

variable {d : Device} {random : Int}

theorem quotient_lt {a b : Int} (h0 : 0 ≤ a) (hab : a + 1 ≤ b) : a * 270 / b < 270 := by
  apply Int.ediv_lt_of_lt_mul (by omega)
  omega

theorem Device.Placed.timeMs_eq (hd : d.Placed) (hbusy : d.busy = true)
    (hsize : d.numblocks ≤ 7953644) (hlo : 0 ≤ random) :
    timeMs .wrap32 d random = timeMsExact d random ∧ 30 ≤ timeMsExact d random ∧
      timeMsExact d random ≤ 325 := by
  have htarget := hd.target hbusy
  have hnext := hd.next
  have hprev := hd.prev
  unfold OnDisk at hnext hprev
  have hdist : ((d.nextBlock - d.prevBlock).natAbs : Int) + 1 ≤ d.numblocks := by omega
  have hpos : (0 : Int) ≤ (d.nextBlock - d.prevBlock).natAbs := Int.natCast_nonneg _
  have hquot := quotient_lt hpos hdist
  have hquot0 : 0 ≤ ((d.nextBlock - d.prevBlock).natAbs * 270) / d.numblocks :=
    Int.ediv_nonneg (by omega) (by omega)
  have hrandom : 0 ≤ random % 270 / 10 ∧ random % 270 / 10 ≤ 26 := by omega
  refine ⟨?_, ?_, ?_⟩
  · have hsub : wrapInt (d.nextBlock - d.prevBlock) = d.nextBlock - d.prevBlock :=
      wrapInt_of_fits (by unfold intMax; omega) (by unfold intMax; omega)
    have habs : wrapInt (d.nextBlock - d.prevBlock).natAbs = (d.nextBlock - d.prevBlock).natAbs :=
      wrapInt_of_fits (by unfold intMax; omega) (by unfold intMax; omega)
    have hmul : wrapInt ((d.nextBlock - d.prevBlock).natAbs * 270) =
        (d.nextBlock - d.prevBlock).natAbs * 270 :=
      wrapInt_of_fits (by unfold intMax; omega) (by unfold intMax; omega)
    have hrange : wrapInt (diskDelayMax - diskDelayMin) = 270 := by decide
    have hadd : wrapInt (((d.nextBlock - d.prevBlock).natAbs * 270) / d.numblocks + diskDelayMin) =
        ((d.nextBlock - d.prevBlock).natAbs * 270) / d.numblocks + diskDelayMin :=
      wrapInt_of_fits (by unfold intMax diskDelayMin; omega)
        (by unfold intMax diskDelayMin; omega)
    simp only [timeMs, IntArith.wrap32, hd.min, hd.max, hsub, habs, hrange, hmul]
    rw [Int.tdiv_eq_ediv_of_nonneg (by omega), Int.tmod_eq_emod_of_nonneg hlo,
      Int.tdiv_eq_ediv_of_nonneg (by omega), hadd]
    exact wrapInt_of_fits (by unfold intMax diskDelayMin; omega)
      (by unfold intMax diskDelayMin; omega)
  · unfold timeMsExact
    omega
  · unfold timeMsExact
    omega

end Delay

theorem arms_of_short {t : Int} (hlo : 30 ≤ t) (hhi : t ≤ 325) :
    (ItValue.mk (t * 1000000) 0).Arms := by
  simp only [ItValue.Arms]
  omega

theorem itValue_eq {d : Device} {random t : Int} (ht : timeMs .wrap32 d random = t)
    (hlo : 30 ≤ t) (hhi : t ≤ 325) : itValue .wrap32 d random = ⟨t * 1000000, 0⟩ := by
  have hnsec : wrapInt (t * 1000000) = t * 1000000 :=
    wrapInt_of_fits (by unfold intMax; omega) (by unfold intMax; omega)
  have hsec : t.tdiv 1000 = 0 := by
    rw [Int.tdiv_eq_ediv_of_nonneg (by omega)]
    omega
  rw [itValue, ht, hsec]
  exact congrArg (ItValue.mk · 0) hnsec

/-- A device whose transfers the timer takes. -/
structure Device.Timed (d : Device) : Prop extends d.Placed where
  small : d.numblocks ≤ 7953644

theorem fits_of_small {numblocks : Int} (h : numblocks ≤ 7953644) :
    numblocks * diskBlockSize ≤ intMax := by
  unfold diskBlockSize intMax
  omega

theorem Device.Timed.arms {d : Device} (hd : d.Timed) (hbusy : d.busy = true) {random : Int}
    (hrandom : 0 ≤ random) : (itValue .wrap32 d random).Arms := by
  obtain ⟨heq, hmin, hmax⟩ := hd.timeMs_eq hbusy hd.small hrandom
  rw [itValue_eq heq hmin hmax]
  exact arms_of_short hmin hmax

theorem Device.Timed.passes {d' : Device} (hd : d'.Timed) (d : Device) (random : Nat) :
    settimerPasses d d' random = true := by
  by_cases hbusy : d'.busy = true
  · simp [settimerPasses, hd.arms hbusy (Int.natCast_nonneg random)]
  · simp [settimerPasses, hbusy]

section Timed

variable {σ α : Type*} {dev : σ → Device} {step : σ → α → Option σ}

theorem timed_of_step {s t : σ} {a : α} (ht : (dev t).Timed) (h : step s a = some t)
    (random : Nat) : timed dev step s (a, random) = some t :=
  guarded_some.mpr ⟨h, ht.passes (dev s) random⟩

/-- On a disk whose transfers the timer takes, no run is cut short. -/
theorem run_timed {P : σ → Prop} (hdev : ∀ s, P s → (dev s).Timed)
    (hstep : ∀ s a t, P s → step s a = some t → P t) {s u : σ} {as : List α} (hs : P s)
    (h : run step s as = some u) {randoms : List Nat} (hlen : randoms.length = as.length) :
    run (timed dev step) s (as.zip randoms) = some u :=
  run_guarded (fun s a t hs ht => ⟨hstep s a t hs ht, (hdev t (hstep s a t hs ht)).passes _⟩) hs h
    hlen

theorem run_of_timed {s u : σ} {as : List (α × Nat)} (h : run (timed dev step) s as = some u) :
    run step s (as.map Prod.fst) = some u := run_of_guarded h

end Timed

theorem Device.Timed.step {φ μ : Type} {md : Medium φ μ} {s t : Disk φ μ} {a : DiskAction μ}
    (hs : s.dev.Timed) (h : diskRunStep md s a = some t) : t.dev.Timed := by
  refine ⟨hs.toPlaced.step h, ?_⟩
  cases a with
  | cmd cmd block buffer =>
    cases h
    exact (hs.toPlaced.cmd_numblocks cmd block buffer).trans_le hs.small
  | mem mem =>
    cases h
    exact hs.small
  | sigio =>
    simp only [diskRunStep, Option.ite_none_right_eq_some, Option.map_eq_some_iff] at h
    obtain ⟨-, done, hdone, rfl⟩ := h
    obtain ⟨task, hdev⟩ := diskSighandle_isSome (Option.isSome_of_eq_some hdone)
    rw [diskSighandle_busy md s.store hdev] at hdone
    cases hdone
    exact hs.small

section Server

variable {φ μ : Type} {md : Medium φ μ}

/-- Before `disk_init` the device is as it was at power-on. -/
def Device.Powered (fileSize : Nat) (d : Device) : Prop := d = Device.zero fileSize ∨ d.Timed

theorem Device.zero_cmd {fileSize : Nat} (hsize : (fileSize : Int) / diskBlockSize ≤ 7953644)
    (cmd : DiskCmd) (block : Int) (buffer : Ptr) :
    (diskCmd cmd block buffer (Device.zero fileSize)).1.Powered fileSize := by
  cases cmd with
  | init =>
    have hpos : (0 : Int) ≤ fileSize / diskBlockSize :=
      Int.ediv_nonneg (Int.natCast_nonneg _) (by decide)
    have hinit : (diskCmd .init block buffer (Device.zero fileSize)).1 =
        Device.start fileSize (wrapInt (fileSize / diskBlockSize)) := by
      simp [diskCmd, diskInit, Device.zero, Device.start]
    rw [hinit, wrapInt_of_fits (by unfold intMax; omega) (by unfold intMax; omega)]
    exact .inr ⟨start_placed fileSize _, hsize⟩
  | read | write => exact .inl rfl
  | _ => exact .inl rfl

theorem Device.Powered.step {fileSize : Nat} (hsize : (fileSize : Int) / diskBlockSize ≤ 7953644)
    {s t : Disk φ μ} {a : DiskAction μ} (hs : s.dev.Powered fileSize)
    (h : diskRunStep md s a = some t) : t.dev.Powered fileSize := by
  rcases hs with hzero | htimed
  · cases a with
    | cmd cmd block buffer =>
      cases h
      rw [hzero]
      exact Device.zero_cmd hsize cmd block buffer
    | mem mem =>
      cases h
      exact .inl hzero
    | sigio => simp [diskRunStep, hzero, Device.zero] at h
  · exact .inr (htimed.step h)

theorem Device.Powered.passes {fileSize : Nat} {d' : Device} (hd : d'.Powered fileSize)
    (d : Device) (random : Nat) : settimerPasses d d' random = true := by
  rcases hd with rfl | htimed
  · simp [settimerPasses, Device.zero, Device.busy]
  · exact htimed.passes d random

/-- From power-on, whatever its callers do: on a file of at most 7953644 blocks the disk is
a server with room for one transfer, which accepts a transfer exactly when it is
initialised, has none pending and finds the arguments valid, and neither a command nor the
handler ends the process; so the accepted transfers are carried out once each, in order,
and nothing else changes the file. -/
theorem disk_refines_slot {fileSize : Nat} (hsize : (fileSize : Int) / diskBlockSize ≤ 7953644)
    {store : Store φ μ} {as : List (DiskAction μ × Nat)} {s : Disk φ μ}
    (h : run (timed Disk.dev (diskRunStep md)) (Disk.zero fileSize store) as = some s) :
    let ls := diskTrace md (Disk.zero fileSize store) (as.map Prod.fst)
    Trace (Slot.Step md.exec Store.setMem) ⟨store, none⟩ ls ⟨s.store, s.dev.transfer?⟩ ∧
    ls.filterMap Slot.Label.accepted? =
      ls.filterMap Slot.Label.completed? ++ s.dev.transfer?.toList ∧
    s.store = ls.foldl (Slot.Label.effect md.exec Store.setMem) store ∧
    (s.dev.timer = true ↔ s.dev.transfer? ≠ none) ∧
    (s.dev.timer = true →
      ∃ t, ∀ random, timed Disk.dev (diskRunStep md) s (.sigio, random) = some t) ∧
    (∀ cmd block buffer, ∃ t, ∀ random,
      timed Disk.dev (diskRunStep md) s (.cmd cmd block buffer, random) = some t) ∧
    ∀ (cmd : TaskCmd) block buffer, (diskCmd cmd.toDiskCmd block buffer s.dev).2 = 0 ↔
      s.dev.status ≠ .unknown ∧ s.dev.transfer? = none ∧
        Accepts s.dev.numblocks block buffer := by
  intro ls
  have hrun := run_of_timed h
  obtain ⟨⟨_, _⟩, htrace, hsound, rfl, rfl⟩ := simulation (R := DiskRelated)
    (fun _ _ _ _ hs _ ht => hs.step ht) (zero_related fileSize store) (along_trivial _ _ _) hrun
  have hpowered : s.dev.Powered fileSize :=
    run_invariant (P := fun s : Disk φ μ => s.dev.Powered fileSize)
      (fun _ _ _ hs _ ht => hs.step hsize ht) (.inl rfl) (along_trivial _ _ _) hrun
  have hpasses {a : DiskAction μ} (ha : ∃ t, diskRunStep md s a = some t) :
      ∃ t, ∀ random, timed Disk.dev (diskRunStep md) s (a, random) = some t := by
    obtain ⟨t, ht⟩ := ha
    exact ⟨t, fun random => guarded_some.mpr ⟨ht, (hpowered.step hsize ht).passes _ _⟩⟩
  have hbusy : s.dev.timer = true ↔ s.dev.transfer? ≠ none := by
    rw [hsound.timer, ← transfer?_isSome, Option.isSome_iff_ne_none]
  refine ⟨htrace, Slot.completed_in_order htrace, Slot.store_eq htrace, hbusy,
    fun htimer => hpasses ?_, fun cmd block buffer => hpasses ⟨_, rfl⟩, fun cmd block buffer => ?_⟩
  · obtain ⟨task, hdev⟩ := busy_iff_task.mp (hsound.timer ▸ htimer)
    exact ⟨_, by rw [diskRunStep, if_pos htimer, diskSighandle_busy md s.store hdev]; rfl⟩
  · rw [diskCmd_accepted_iff, transfer?_eq_none]
    constructor
    · rintro ⟨hidle, hacc⟩
      exact ⟨by rw [hidle]; decide, .inr hidle, hacc⟩
    · rintro ⟨hknown, hnone, hacc⟩
      exact ⟨hnone.resolve_left hknown, hacc⟩

/-- A transfer before the initialisation, a second one while the first is pending, and one
for a block that there is not are refused. -/
theorem disk_refines_slot_small : ∃ s : Disk (Int → Nat) (Ptr → Nat),
    run (timed Disk.dev (diskRunStep (blockMedium Nat)))
      (Disk.zero 1024 ⟨fun b => b.toNat, fun _ => 7⟩)
      [(.cmd .read 3 64, 1), (.cmd .init 0 0, 2), (.cmd .write 5 64, 269), (.cmd .read 3 64, 4),
        (.cmd .init 0 0, 5), (.sigio, 6), (.cmd .write 16 64, 7)] = some s ∧
    s.store.file 5 = 7 ∧ (s.dev.timer = true ↔ s.dev.transfer? ≠ none) := by
  have hrun : (run (timed Disk.dev (diskRunStep (blockMedium Nat)))
      (Disk.zero 1024 ⟨fun b => b.toNat, fun _ => 7⟩)
      [(.cmd .read 3 64, 1), (.cmd .init 0 0, 2), (.cmd .write 5 64, 269), (.cmd .read 3 64, 4),
        (.cmd .init 0 0, 5), (.sigio, 6), (.cmd .write 16 64, 7)]).map
          (fun s => s.store.file 5) = some 7 := by decide
  obtain ⟨s, hs, hfile⟩ := Option.map_eq_some_iff.mp hrun
  exact ⟨s, hs, hfile, (disk_refines_slot (by decide) hs).2.2.2.1⟩

/-- One block more, and a write to the last block ends the process: the product overflows
to a negative time. -/
example : (run (timed Disk.dev (diskRunStep (blockMedium Nat)))
    (Disk.zero 509033280 ⟨fun b => b.toNat, fun _ => 7⟩)
    [(.cmd .init 0 0, 0), (.cmd .write 7953644 64, 0)]).isNone = true := by decide

end Server

section Manager

variable {n : Nat} {φ μ : Type} {cfg : Config φ μ}

theorem Step.timed {s t : State n φ μ} {a : Action n μ} (h : Step cfg s a t)
    (hs : s.dev.Timed) : t.dev.Timed :=
  run_invariant (P := fun d : Disk φ μ => d.dev.Timed) (fun _ _ _ hs _ ht => hs.step ht) hs
    (along_trivial _ s.drive _) h.drive

theorem initial_timed {numblocks : Int} (hsize : numblocks ≤ 7953644) (heap : Ptr → Request)
    (store : Store φ μ) : (initial numblocks heap store : State n φ μ).dev.Timed :=
  ⟨start_placed _ numblocks, hsize⟩

end Manager

/-- Whatever the clients ask for and `random` returns, each accepted command of a run on a
disk of at most 7953644 blocks arms the timer, and with the exact delay, from 30 to 325 ms. -/
theorem transfer_delay {n : Nat} {φ μ : Type} {cfg : Config φ μ} {numblocks : Int}
    (hsize : numblocks ≤ 7953644) {heap : Ptr → Request} {store : Store φ μ}
    {as : List (Action n μ)} {s : State n φ μ}
    (h : run (PingPong.step cfg) (initial numblocks heap store) as = some s)
    (hbusy : s.dev.busy = true) {random : Int} (hrandom : 0 ≤ random) :
    (itValue .wrap32 s.dev random).Arms ∧
      itValue .wrap32 s.dev random = ⟨timeMsExact s.dev random * 1000000, 0⟩ ∧
      30 ≤ timeMsExact s.dev random ∧ timeMsExact s.dev random ≤ 325 := by
  have htimed : s.dev.Timed :=
    run_invariant (P := fun s : State n φ μ => s.dev.Timed)
      (fun _ _ _ hs _ ht => (step_cases ht).timed hs) (initial_timed hsize heap store)
      (along_trivial _ _ as) h
  obtain ⟨heq, hmin, hmax⟩ := htimed.timeMs_eq hbusy htimed.small hrandom
  have hvalue := itValue_eq heq hmin hmax
  rw [hvalue]
  exact ⟨arms_of_short hmin hmax, rfl, hmin, hmax⟩

theorem transfer_delay_small : ∃ s : State 1 (Int → Nat) (Ptr → Nat),
    run (PingPong.step sstfConfig) (smallDisk 1) ((callAlone 0 .read 15 64 16).take 14) = some s ∧
    (itValue .wrap32 s.dev 269).Arms ∧ timeMsExact s.dev 269 = 309 := by
  have hrun : (run (PingPong.step sstfConfig) (smallDisk 1)
      ((callAlone 0 .read 15 64 16).take 14)).map
        (fun s => (s.dev.busy, timeMsExact s.dev 269)) = some (true, 309) := by decide
  obtain ⟨s, hs, hpair⟩ := Option.map_eq_some_iff.mp hrun
  obtain ⟨hbusy, htime⟩ := Prod.mk.inj hpair
  exact ⟨s, hs, (transfer_delay (by decide) hs hbusy (by decide)).1, htime⟩

end PingPong
