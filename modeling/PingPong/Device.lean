import PingPong.CInt
import Mathlib.Logic.Function.Basic

/-! The simulated disk of `disk.c`: the commands it accepts and the transfer that
its timer handler carries out. The timer is armed or not; it may fire after any
delay. Pointers are numbers and `0` is `NULL`. -/

namespace PingPong

abbrev Ptr := Nat

inductive DiskStatus
  | unknown
  | idle
  | read
  | write
  deriving DecidableEq, Repr

def DiskStatus.code : DiskStatus → Int
  | .unknown => 0
  | .idle => 1
  | .read => 2
  | .write => 3

inductive DiskCmd
  | init
  | read
  | write
  | status
  | disksize
  | blocksize
  | delaymin
  | delaymax
  | other
  deriving DecidableEq, Repr

/-- The `disk_t` of `disk.c`. `fileSize` is what `lseek` to the end of the disk
file reports. -/
structure Device where
  fileSize : Nat
  status : DiskStatus
  numblocks : Int
  blocksize : Int
  buffer : Ptr
  prevBlock : Int
  nextBlock : Int
  delayMin : Int
  delayMax : Int
  timer : Bool
  deriving DecidableEq, Repr

def diskBlockSize : Int := 64
def diskDelayMin : Int := 30
def diskDelayMax : Int := 300

/-- The timer is armed. Its delay is `itValue`, and the exit where `timer_settime` refuses
that is `settimerPasses`. -/
def diskSettimer (d : Device) : Device := { d with timer := true }

def diskInit (d : Device) : Device × Int :=
  if d.status ≠ .unknown then (d, -1)
  else
    ({ d with
      status := .idle
      nextBlock := 0
      prevBlock := 0
      blocksize := diskBlockSize
      numblocks := wrapInt (d.fileSize / diskBlockSize)
      delayMin := diskDelayMin
      delayMax := diskDelayMax }, 0)

def diskTransferCmd (busy : DiskStatus) (block : Int) (buffer : Ptr) (d : Device) : Device × Int :=
  if d.status ≠ .idle then (d, -1)
  else if buffer = 0 then (d, -1)
  else if block < 0 ∨ block ≥ d.numblocks then (d, -1)
  else (diskSettimer { d with buffer := buffer, nextBlock := block, status := busy }, 0)

def diskCmd (cmd : DiskCmd) (block : Int) (buffer : Ptr) (d : Device) : Device × Int :=
  match cmd with
  | .init => diskInit d
  | .status => (d, d.status.code)
  | .disksize => (d, if d.status = .unknown then -1 else d.numblocks)
  | .blocksize => (d, if d.status = .unknown then -1 else d.blocksize)
  | .delaymin => (d, if d.status = .unknown then -1 else d.delayMin)
  | .delaymax => (d, if d.status = .unknown then -1 else d.delayMax)
  | .read => diskTransferCmd .read block buffer d
  | .write => diskTransferCmd .write block buffer d
  | .other => (d, -1)

structure Store (φ μ : Type) where
  file : φ
  mem : μ

/-- What `lseek` followed by `read` or `write` of one block does, as a function
of the block size, the block and the buffer. `blockMedium` is a file of whole
blocks and a memory of whole buffers. -/
structure Medium (φ μ : Type) where
  read : φ → Int → Int → Ptr → μ → μ
  write : μ → Int → Int → Ptr → φ → φ

inductive TaskCmd
  | read
  | write
  deriving DecidableEq, Repr

def TaskCmd.toDiskCmd : TaskCmd → DiskCmd
  | .read => .read
  | .write => .write

def TaskCmd.busy : TaskCmd → DiskStatus
  | .read => .read
  | .write => .write

section Medium

variable {φ μ : Type}

def blockMedium (β : Type) : Medium (Int → β) (Ptr → β) where
  read file _ block buffer mem := Function.update mem buffer (file block)
  write mem _ block buffer file := Function.update file block (mem buffer)

/-- Bytes in the file and in memory; `lseek` gets the product of two `int`s. -/
def byteMedium (ia : IntArith) : Medium (Int → UInt8) (Ptr → UInt8) where
  read file blocksize block buffer mem := fun q =>
    if buffer ≤ q ∧ q < buffer + blocksize.toNat then
      file (ia.mul block blocksize + (q - buffer : Nat))
    else mem q
  write mem blocksize block buffer file := fun o =>
    if ia.mul block blocksize ≤ o ∧ o < ia.mul block blocksize + blocksize then
      mem (buffer + (o - ia.mul block blocksize).toNat)
    else file o

def Medium.transfer (md : Medium φ μ) (cmd : TaskCmd) (blocksize block : Int) (buffer : Ptr)
    (st : Store φ μ) : Store φ μ :=
  match cmd with
  | .read => { st with mem := md.read st.file blocksize block buffer st.mem }
  | .write => { st with file := md.write st.mem blocksize block buffer st.file }

/-- The timer's signal handler; `none` is its `exit(1)` on an unknown state.
The `SIGUSR1` it raises is the caller's. -/
def diskSighandle (md : Medium φ μ) (d : Device) (st : Store φ μ) :
    Option (Device × Store φ μ) :=
  match d.status with
  | .read => some ({ d with prevBlock := d.nextBlock, status := .idle, timer := false },
      md.transfer .read d.blocksize d.nextBlock d.buffer st)
  | .write => some ({ d with prevBlock := d.nextBlock, status := .idle, timer := false },
      md.transfer .write d.blocksize d.nextBlock d.buffer st)
  | _ => none

end Medium

def Device.busy (d : Device) : Bool := d.status = .read || d.status = .write

def Accepts (numblocks block : Int) (buffer : Ptr) : Prop :=
  buffer ≠ 0 ∧ 0 ≤ block ∧ block < numblocks

instance (numblocks block : Int) (buffer : Ptr) : Decidable (Accepts numblocks block buffer) :=
  inferInstanceAs (Decidable (_ ∧ _ ∧ _))

theorem diskCmd_task (cmd : TaskCmd) (block : Int) (buffer : Ptr) (d : Device) :
    diskCmd cmd.toDiskCmd block buffer d = diskTransferCmd cmd.busy block buffer d := by
  cases cmd <;> rfl

theorem diskCmd_accept {cmd : TaskCmd} {block : Int} {buffer : Ptr} {d : Device}
    (hidle : d.status = .idle) (hacc : Accepts d.numblocks block buffer) :
    diskCmd cmd.toDiskCmd block buffer d =
      ({ d with buffer := buffer, nextBlock := block, status := cmd.busy, timer := true }, 0) := by
  obtain ⟨hbuf, hlo, hhi⟩ := hacc
  have hrange : ¬(block < 0 ∨ block ≥ d.numblocks) := by omega
  rw [diskCmd_task]
  simp [diskTransferCmd, hidle, hbuf, hrange, diskSettimer]

theorem diskCmd_refuse {cmd : TaskCmd} {block : Int} {buffer : Ptr} {d : Device}
    (h : ¬(d.status = .idle ∧ Accepts d.numblocks block buffer)) :
    diskCmd cmd.toDiskCmd block buffer d = (d, -1) := by
  rw [diskCmd_task]
  unfold diskTransferCmd
  split_ifs with hs hb hr
  · rfl
  · rfl
  · rfl
  · push Not at hs hr
    exact absurd ⟨hs, hb, by omega, by omega⟩ h

@[simp] theorem Device.busy_iff {d : Device} :
    d.busy = true ↔ d.status = .read ∨ d.status = .write := by
  simp [Device.busy]

theorem TaskCmd.busy_status (cmd : TaskCmd) : cmd.busy = .read ∨ cmd.busy = .write := by
  cases cmd <;> decide

@[simp] theorem TaskCmd.busy_ne_idle (cmd : TaskCmd) : cmd.busy ≠ .idle := by
  cases cmd <;> decide

theorem TaskCmd.busy_injective : Function.Injective TaskCmd.busy := by
  intro a b h
  cases a <;> cases b <;> simp_all [TaskCmd.busy]

theorem diskSighandle_busy {φ μ : Type} (md : Medium φ μ) {d : Device} (st : Store φ μ)
    {cmd : TaskCmd} (h : d.status = cmd.busy) :
    diskSighandle md d st = some
      ({ d with prevBlock := d.nextBlock, status := .idle, timer := false },
      md.transfer cmd d.blocksize d.nextBlock d.buffer st) := by
  cases cmd <;> simp [diskSighandle, h, TaskCmd.busy]

end PingPong
