import PingPong.Device

/-! The disk file as `disk_sighandle` sees it, with the offset that `lseek` moves and
`read` and `write` advance. An `lseek` to a negative offset fails and leaves the offset
where it was. As long as the product of the block and its size is a place in the file,
a transfer depends on the offset no more. -/

namespace PingPong

structure DiskFile where
  bytes : Int → UInt8
  size : Nat
  offset : Nat

def DiskFile.lseek (f : DiskFile) (offset : Int) : DiskFile :=
  if offset < 0 then f else { f with offset := offset.toNat }

/-- Nothing is read beyond the end of the file. -/
def DiskFile.read (f : DiskFile) (buffer : Ptr) (count : Int) (mem : Ptr → UInt8) :
    DiskFile × (Ptr → UInt8) :=
  let got := min count.toNat (f.size - f.offset)
  ({ f with offset := f.offset + got }, fun q =>
    if buffer ≤ q ∧ q < buffer + got then f.bytes (f.offset + (q - buffer : Nat)) else mem q)

/-- A gap between the end of the file and the offset is filled with zeros. -/
def DiskFile.write (f : DiskFile) (buffer : Ptr) (count : Int) (mem : Ptr → UInt8) :
    DiskFile where
  bytes o :=
    if f.offset ≤ o ∧ o < f.offset + count then mem (buffer + (o - f.offset).toNat)
    else if f.size ≤ o ∧ o < f.offset then 0
    else f.bytes o
  size := max f.size (f.offset + count.toNat)
  offset := f.offset + count.toNat

/-- What `disk_init` takes from `lseek` to the end of the file. -/
def DiskFile.numblocks (f : DiskFile) : Int := wrapInt (f.size / diskBlockSize)

abbrev ByteStore := Store (Int → UInt8) (Ptr → UInt8)

abbrev FileStore := Store DiskFile (Ptr → UInt8)

def FileStore.bytes (st : FileStore) : ByteStore := ⟨st.file.bytes, st.mem⟩

def fileTransfer (ia : IntArith) (cmd : TaskCmd) (blocksize block : Int) (buffer : Ptr)
    (st : FileStore) : FileStore :=
  let file := st.file.lseek (ia.mul block blocksize)
  match cmd with
  | .read =>
    let done := file.read buffer blocksize st.mem
    ⟨done.1, done.2⟩
  | .write => ⟨file.write buffer blocksize st.mem, st.mem⟩

/-- `diskSighandle` on a file with an offset. -/
def fileSighandle (ia : IntArith) (d : Device) (st : FileStore) : Option (Device × FileStore) :=
  match d.status with
  | .read => some ({ d with prevBlock := d.nextBlock, status := .idle, timer := false },
      fileTransfer ia .read d.blocksize d.nextBlock d.buffer st)
  | .write => some ({ d with prevBlock := d.nextBlock, status := .idle, timer := false },
      fileTransfer ia .write d.blocksize d.nextBlock d.buffer st)
  | _ => none

theorem fileSighandle_busy (ia : IntArith) {d : Device} (st : FileStore) {cmd : TaskCmd}
    (h : d.status = cmd.busy) :
    fileSighandle ia d st = some
      ({ d with prevBlock := d.nextBlock, status := .idle, timer := false },
      fileTransfer ia cmd d.blocksize d.nextBlock d.buffer st) := by
  cases cmd <;> simp [fileSighandle, h, TaskCmd.busy]

theorem DiskFile.numblocks_le (f : DiskFile) : f.numblocks * diskBlockSize ≤ f.size := by
  unfold DiskFile.numblocks wrapInt diskBlockSize
  have hdiv : (0 : Int) ≤ f.size / 64 := Int.ediv_nonneg (Int.natCast_nonneg _) (by decide)
  have hle : ((f.size : Int) / 64).bmod 4294967296 ≤ f.size / 64 := by
    rw [Int.bmod_def]
    split_ifs <;> omega
  omega

theorem offset_exact {numblocks block : Int} (hfit : numblocks * diskBlockSize ≤ intMax)
    (hlo : 0 ≤ block) (hhi : block < numblocks) :
    IntArith.wrap32.mul block diskBlockSize = block * diskBlockSize := by
  unfold diskBlockSize at *
  exact wrapInt_of_fits (by unfold intMax; omega) (by omega)

section Transfer

variable {ia : IntArith} {block : Int} {st : FileStore}

theorem fileTransfer_size (cmd : TaskCmd) (buffer : Ptr) (hlo : 0 ≤ ia.mul block diskBlockSize)
    (hhi : ia.mul block diskBlockSize + diskBlockSize ≤ st.file.size) :
    (fileTransfer ia cmd diskBlockSize block buffer st).file.size = st.file.size := by
  have hseek : ¬ia.mul block diskBlockSize < 0 := by omega
  unfold diskBlockSize at *
  cases cmd with
  | read => simp only [fileTransfer, DiskFile.lseek, if_neg hseek, DiskFile.read]
  | write =>
    simp only [fileTransfer, DiskFile.lseek, if_neg hseek, DiskFile.write]
    omega

/-- A transfer within the file is that of the medium, wherever the offset was. -/
theorem fileTransfer_bytes (cmd : TaskCmd) (buffer : Ptr) (hlo : 0 ≤ ia.mul block diskBlockSize)
    (hhi : ia.mul block diskBlockSize + diskBlockSize ≤ st.file.size) :
    FileStore.bytes (fileTransfer ia cmd diskBlockSize block buffer st) =
      (byteMedium ia).transfer cmd diskBlockSize block buffer st.bytes := by
  have hseek : ¬ia.mul block diskBlockSize < 0 := by omega
  have hoffset : ((ia.mul block diskBlockSize).toNat : Int) = ia.mul block diskBlockSize :=
    Int.toNat_of_nonneg hlo
  cases cmd with
  | read =>
    have hgot : min diskBlockSize.toNat (st.file.size - (ia.mul block diskBlockSize).toNat) =
        diskBlockSize.toNat := by
      unfold diskBlockSize at *
      omega
    simp only [fileTransfer, DiskFile.lseek, if_neg hseek, DiskFile.read, hgot, hoffset]
    rfl
  | write =>
    simp only [fileTransfer, DiskFile.lseek, if_neg hseek, DiskFile.write, hoffset]
    refine congrArg (Store.mk · st.mem) (funext fun o => ?_)
    have hgap : ¬((st.file.size : Int) ≤ o ∧ o < ia.mul block diskBlockSize) := by
      unfold diskBlockSize at *
      omega
    simp only [if_neg hgap]
    rfl

end Transfer

/-- On a disk whose size in bytes is an `int`, the handler does to the bytes what it does
on the medium that the manager is modelled over. -/
theorem fileSighandle_bytes {d : Device} {st : FileStore} {cmd : TaskCmd}
    (hdev : d.status = cmd.busy) (hsize : d.blocksize = diskBlockSize)
    (hfit : st.file.numblocks * diskBlockSize ≤ intMax) (hlo : 0 ≤ d.nextBlock)
    (hhi : d.nextBlock < st.file.numblocks) :
    (fileSighandle .wrap32 d st).map (fun done => (done.1, FileStore.bytes done.2)) =
      diskSighandle (byteMedium .wrap32) d st.bytes := by
  have hoff := offset_exact hfit hlo hhi
  have hend := st.file.numblocks_le
  rw [fileSighandle_busy _ _ hdev, diskSighandle_busy _ _ hdev, hsize, Option.map_some]
  refine congrArg (fun st => some (_, st)) (fileTransfer_bytes cmd d.buffer ?_ ?_)
  · rw [hoff]
    exact Int.mul_nonneg hlo (by decide)
  · rw [hoff]
    unfold diskBlockSize at *
    omega

end PingPong
