import PingPong.Steps
import PingPong.Slot

/-! The simulated disk by itself, under whatever commands its callers issue and whenever
its timer fires. It follows a server with room for one transfer: a transfer is accepted
when none is pending and takes effect in the timer's handler. -/

namespace PingPong

open Runs

variable {φ μ : Type}

structure Disk (φ μ : Type) where
  dev : Device
  store : Store φ μ

/-- `mem` is what other programs do to the memory. -/
inductive DiskAction (μ : Type)
  | cmd (cmd : DiskCmd) (block : Int) (buffer : Ptr)
  | sigio
  | mem (mem : μ)

/-- A step `sigio` that is not enabled is a timer that is not armed, or the `exit(1)` of
the handler. -/
def diskRunStep (md : Medium φ μ) (s : Disk φ μ) : DiskAction μ → Option (Disk φ μ)
  | .cmd cmd block buffer => some { s with dev := (diskCmd cmd block buffer s.dev).1 }
  | .sigio =>
    if s.dev.timer then (diskSighandle md s.dev s.store).map fun done => ⟨done.1, done.2⟩
    else none
  | .mem mem => some { s with store := { s.store with mem := mem } }

structure Transfer where
  cmd : TaskCmd
  block : Int
  buffer : Ptr
  deriving DecidableEq, Repr

def DiskCmd.task? : DiskCmd → Option TaskCmd
  | .read => some .read
  | .write => some .write
  | _ => none

/-- The transfer that the device is carrying out. -/
def Device.transfer? (d : Device) : Option Transfer :=
  match d.status with
  | .read => some ⟨.read, d.nextBlock, d.buffer⟩
  | .write => some ⟨.write, d.nextBlock, d.buffer⟩
  | _ => none

def diskLabel (s : Disk φ μ) : DiskAction μ → Option (Slot.Label Transfer μ)
  | .cmd cmd block buffer =>
    cmd.task?.bind fun task =>
      if (diskCmd cmd block buffer s.dev).2 = 0 then some (.accept ⟨task, block, buffer⟩) else none
  | .sigio => s.dev.transfer?.map .complete
  | .mem mem => some (.alter mem)

def Medium.exec (md : Medium φ μ) (t : Transfer) (st : Store φ μ) : Store φ μ :=
  md.transfer t.cmd diskBlockSize t.block t.buffer st

def Store.setMem (mem : μ) (st : Store φ μ) : Store φ μ := { st with mem := mem }

abbrev DiskSlot (φ μ : Type) := Slot.State Transfer (Store φ μ)

structure Device.Sound (d : Device) : Prop where
  timer : d.timer = d.busy
  blocksize : d.status ≠ .unknown → d.blocksize = diskBlockSize

structure DiskRelated (s : Disk φ μ) (a : DiskSlot φ μ) : Prop where
  sound : s.dev.Sound
  store : a.store = s.store
  pending : a.pending = s.dev.transfer?

theorem transfer?_busy {d : Device} {cmd : TaskCmd} (h : d.status = cmd.busy) :
    d.transfer? = some ⟨cmd, d.nextBlock, d.buffer⟩ := by
  cases cmd <;> simp [Device.transfer?, h, TaskCmd.busy]

theorem transfer?_isSome {d : Device} : d.transfer?.isSome = d.busy := by
  unfold Device.transfer? Device.busy
  cases d.status <;> rfl

theorem transfer?_eq_none {d : Device} :
    d.transfer? = none ↔ d.status = .unknown ∨ d.status = .idle := by
  unfold Device.transfer?
  cases d.status <;> simp

theorem busy_iff_task {d : Device} : d.busy = true ↔ ∃ cmd : TaskCmd, d.status = cmd.busy := by
  rw [Device.busy_iff]
  constructor
  · rintro (h | h)
    · exact ⟨.read, h⟩
    · exact ⟨.write, h⟩
  · rintro ⟨cmd, h⟩
    rw [h]
    exact cmd.busy_status

theorem diskCmd_accepted_iff {cmd : TaskCmd} {block : Int} {buffer : Ptr} {d : Device} :
    (diskCmd cmd.toDiskCmd block buffer d).2 = 0 ↔
      d.status = .idle ∧ Accepts d.numblocks block buffer := by
  constructor
  · intro h
    by_contra hno
    rw [diskCmd_refuse hno] at h
    exact Int.negSucc_ne_zero 0 h
  · rintro ⟨hidle, hacc⟩
    rw [diskCmd_accept hidle hacc]

/-- A command other than a transfer leaves the pending transfer and the timer alone. -/
theorem diskCmd_control {cmd : DiskCmd} (htask : cmd.task? = none) (block : Int) (buffer : Ptr)
    {d : Device} (hd : d.Sound) :
    (diskCmd cmd block buffer d).1.Sound ∧
      (diskCmd cmd block buffer d).1.transfer? = d.transfer? := by
  cases cmd with
  | read | write => cases htask
  | init =>
    by_cases hun : d.status = .unknown
    · have hinit : (diskCmd .init block buffer d).1 = { d with
          status := .idle
          nextBlock := 0
          prevBlock := 0
          blocksize := diskBlockSize
          numblocks := wrapInt (d.fileSize / diskBlockSize)
          delayMin := diskDelayMin
          delayMax := diskDelayMax } := by
        simp [diskCmd, diskInit, hun]
      have htimer : d.timer = false := by
        rw [hd.timer, Device.busy, hun]
        rfl
      rw [hinit]
      refine ⟨⟨?_, fun _ => rfl⟩, ?_⟩
      · exact htimer
      · rw [transfer?_eq_none.mpr (.inl hun)]
        rfl
    · have hsame : (diskCmd .init block buffer d).1 = d := by
        simp [diskCmd, diskInit, hun]
      rw [hsame]
      exact ⟨hd, rfl⟩
  | _ => exact ⟨hd, rfl⟩

theorem DiskCmd.eq_of_task? {cmd : DiskCmd} {task : TaskCmd} (h : cmd.task? = some task) :
    cmd = task.toDiskCmd := by
  cases cmd <;> cases h <;> rfl

section Step

variable {md : Medium φ μ} {s t : Disk φ μ} {a : DiskSlot φ μ}

theorem DiskRelated.cmd (hs : DiskRelated s a) (cmd : DiskCmd) (block : Int) (buffer : Ptr) :
    ∃ b, Trace (Slot.Step md.exec Store.setMem) a (diskLabel s (.cmd cmd block buffer)).toList b ∧
      DiskRelated { s with dev := (diskCmd cmd block buffer s.dev).1 } b := by
  cases htask : cmd.task? with
  | none =>
    obtain ⟨hsound, hpending⟩ := diskCmd_control htask block buffer hs.sound
    refine ⟨a, ?_, hsound, hs.store, hs.pending.trans hpending.symm⟩
    rw [diskLabel, htask]
    exact .nil
  | some task =>
    obtain rfl := DiskCmd.eq_of_task? htask
    by_cases hok : s.dev.status = .idle ∧ Accepts s.dev.numblocks block buffer
    · have hret : (diskCmd task.toDiskCmd block buffer s.dev).2 = 0 := diskCmd_accepted_iff.mpr hok
      have hlabel : diskLabel s (.cmd task.toDiskCmd block buffer) =
          some (.accept ⟨task, block, buffer⟩) := by
        rw [diskLabel, htask, Option.bind_some, if_pos hret]
      obtain ⟨store, pending⟩ := a
      have hnone : pending = none := hs.pending.trans (transfer?_eq_none.mpr (.inr hok.1))
      subst hnone
      rw [hlabel, diskCmd_accept hok.1 hok.2]
      refine ⟨⟨store, some ⟨task, block, buffer⟩⟩, .single .accept, ⟨?_, fun _ => ?_⟩, hs.store, ?_⟩
      · exact (Device.busy_iff.mpr task.busy_status).symm
      · exact hs.sound.blocksize (by rw [hok.1]; decide)
      · exact (transfer?_busy (d := { s.dev with
          buffer := buffer
          nextBlock := block
          status := task.busy
          timer := true }) rfl).symm
    · have hlabel : diskLabel s (.cmd task.toDiskCmd block buffer) = none := by
        rw [diskLabel, htask, Option.bind_some, if_neg (mt diskCmd_accepted_iff.mp hok)]
      rw [hlabel, diskCmd_refuse hok]
      exact ⟨a, .nil, hs⟩

theorem DiskRelated.sigio (hs : DiskRelated s a) (h : diskRunStep md s .sigio = some t) :
    ∃ b, Trace (Slot.Step md.exec Store.setMem) a (diskLabel s (.sigio : DiskAction μ)).toList b ∧
      DiskRelated t b := by
  simp only [diskRunStep, Option.ite_none_right_eq_some, Option.map_eq_some_iff] at h
  obtain ⟨htimer, done, hdone, rfl⟩ := h
  obtain ⟨task, hdev⟩ := busy_iff_task.mp (hs.sound.timer ▸ htimer)
  rw [diskSighandle_busy md s.store hdev] at hdone
  cases hdone
  obtain ⟨store, pending⟩ := a
  have hstore : store = s.store := hs.store
  have hpending : pending = _ := hs.pending.trans (transfer?_busy hdev)
  have hsize := hs.sound.blocksize (by rw [hdev]; cases task <;> decide)
  subst hstore hpending
  have hlabel : diskLabel s (.sigio : DiskAction μ) =
      some (.complete ⟨task, s.dev.nextBlock, s.dev.buffer⟩) := by
    rw [diskLabel, transfer?_busy hdev]
    rfl
  rw [hlabel]
  refine ⟨⟨md.exec ⟨task, s.dev.nextBlock, s.dev.buffer⟩ s.store, none⟩, .single .complete,
    ⟨rfl, fun _ => hsize⟩, ?_, rfl⟩
  rw [hsize]
  rfl

theorem DiskRelated.step {act : DiskAction μ} (hs : DiskRelated s a)
    (h : diskRunStep md s act = some t) :
    ∃ b, Trace (Slot.Step md.exec Store.setMem) a (diskLabel s act).toList b ∧
      DiskRelated t b := by
  cases act with
  | cmd cmd block buffer =>
    cases h
    exact hs.cmd cmd block buffer
  | sigio => exact hs.sigio h
  | mem mem =>
    cases h
    refine ⟨⟨a.store.setMem mem, a.pending⟩, .single .alter, hs.sound, ?_, hs.pending⟩
    rw [hs.store]
    rfl

end Step

def Disk.zero (fileSize : Nat) (store : Store φ μ) : Disk φ μ := ⟨Device.zero fileSize, store⟩

theorem zero_related (fileSize : Nat) (store : Store φ μ) :
    DiskRelated (Disk.zero fileSize store) ⟨store, none⟩ :=
  ⟨⟨rfl, fun h => absurd rfl h⟩, rfl, rfl⟩

def diskTrace (md : Medium φ μ) (s : Disk φ μ) (as : List (DiskAction μ)) :
    List (Slot.Label Transfer μ) := traceOf (diskRunStep md) diskLabel s as

section Manager

variable {n : Nat} {cfg : Config φ μ}

/-- What a step of the manager asks of the disk. -/
def diskCall (s : State n φ μ) : Action n μ → Option (DiskAction μ)
  | .disk =>
    match s.disk with
    | .askStatus _ _ => some (.cmd .status 0 0)
    | .command p _ =>
      some (.cmd (s.heap p).cTaskAction.toDiskCmd s.mgr.iCurrBlock s.mgr.buffer)
    | _ => none
  | .fire => some .sigio
  | .store _ mem => some (.mem mem)
  | _ => none

def State.drive (s : State n φ μ) : Disk φ μ := ⟨s.dev, s.store⟩

theorem run_call {d d' : Disk φ μ} {call : DiskAction μ} (h : diskRunStep cfg.md d call = some d') :
    run (diskRunStep cfg.md) d (some call).toList = some d' :=
  run_cons.mpr ⟨d', h, rfl⟩

theorem Step.drive {s t : State n φ μ} {a : Action n μ} (h : Step cfg s a t) :
    run (diskRunStep cfg.md) s.drive (diskCall s a).toList = some t.drive := by
  cases h with
  | call | lock | upNew | downTreated | unlock | ret | tick => rfl
  | store => rfl
  | enterLoop hpc | leaveLoop hpc | downNew hpc | empty hpc | nonempty hpc | choose hpc | remove hpc
  | setStart hpc | account hpc | setCurrBlock hpc | setBuffer hpc | upTreated hpc =>
    have hcall : diskCall s (.disk : Action n μ) = none := by simp [diskCall, hpc]
    rw [hcall]
    rfl
  | notIdle hpc | isIdle hpc =>
    have hcall : diskCall s (.disk : Action n μ) = some (.cmd .status 0 0) := by
      simp [diskCall, hpc]
    rw [hcall]
    exact run_call rfl
  | @accept p r hpc hdev hacc =>
    have hcall : diskCall s (.disk : Action n μ) =
        some (.cmd (s.heap p).cTaskAction.toDiskCmd s.mgr.iCurrBlock s.mgr.buffer) := by
      simp [diskCall, hpc]
    rw [hcall]
    refine run_call ?_
    rw [diskRunStep, State.drive, diskCmd_accept hdev hacc]
    rfl
  | @refuse p r hpc hrej =>
    have hcall : diskCall s (.disk : Action n μ) =
        some (.cmd (s.heap p).cTaskAction.toDiskCmd s.mgr.iCurrBlock s.mgr.buffer) := by
      simp [diskCall, hpc]
    rw [hcall]
    refine run_call ?_
    rw [diskRunStep, State.drive, diskCmd_refuse hrej]
    rfl
  | fire htimer hdev =>
    refine run_call ?_
    rw [diskRunStep, State.drive, if_pos htimer, diskSighandle_busy cfg.md s.store hdev]
    rfl

/-- The disk under the manager runs as the disk by itself does under the manager's commands. -/
theorem manager_drives_disk {numblocks : Int} {heap : Ptr → Request} {store : Store φ μ}
    {as : List (Action n μ)} {s : State n φ μ}
    (h : run (PingPong.step cfg) (initial numblocks heap store) as = some s) :
    run (diskRunStep cfg.md) (initial numblocks heap store : State n φ μ).drive
      (traceOf (PingPong.step cfg) diskCall (initial numblocks heap store) as) = some s.drive := by
  have hstart : run (diskRunStep cfg.md) (initial numblocks heap store : State n φ μ).drive [] =
      some (initial numblocks heap store : State n φ μ).drive := rfl
  exact trace_invariant (P := fun u seen =>
    run (diskRunStep cfg.md) (initial numblocks heap store : State n φ μ).drive seen = some u.drive)
    (fun u _ _ _ hu _ ht => run_append.mpr ⟨u.drive, hu, (step_cases ht).drive⟩) hstart
    (along_trivial _ _ as) h

end Manager

end PingPong
