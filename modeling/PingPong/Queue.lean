import PingPong.Manager
import PingPong.Deferred
import PingPong.DiskFile
import Mathlib.Data.Multiset.AddSub

/-! The request queue between its two ends: clients append, and each dispatch runs
to the device's completion before the next one. The three policies may choose in
turn; whichever of them does, the disk and the buffers end as if every request
had been carried out when it was appended, as long as the size of the disk in bytes
is an `int`. Beyond that the offset overflows, `lseek` fails, and where a transfer goes
depends on the one before it. -/

namespace PingPong

open Runs Deferred

structure Queue where
  list : List Request
  iCurrBlock : Int
  dev : Device
  store : FileStore
  executed : List Request

/-- `poke` is a client writing a byte of its own. -/
inductive QueueAction
  | enqueue (r : Request)
  | dispatch (alg : DiskAlgorithm)
  | poke (q : Ptr) (v : UInt8)

def dispatchStep (ia : IntArith) (q : Queue) (alg : DiskAlgorithm) : Option Queue :=
  if q.list = [] then some q
  else
    (schedChoice ia Request.block q.iCurrBlock alg q.list).bind fun r =>
      let answer := diskCmd r.cTaskAction.toDiskCmd r.block r.buffer q.dev
      if answer.2 ≠ 0 then
        some { q with list := q.list.erase r, iCurrBlock := r.block, dev := answer.1 }
      else
        (fileSighandle ia answer.1 q.store).map fun done =>
          { list := q.list.erase r
            iCurrBlock := r.block
            dev := done.1
            store := done.2
            executed := r :: q.executed }

def Store.poke {φ : Type} (st : Store φ (Ptr → UInt8)) (q : Ptr) (v : UInt8) :
    Store φ (Ptr → UInt8) :=
  { st with mem := Function.update st.mem q v }

def queueStep (ia : IntArith) (q : Queue) : QueueAction → Option Queue
  | .enqueue r => some { q with list := q.list ++ [r] }
  | .dispatch alg => dispatchStep ia q alg
  | .poke p v => some { q with store := q.store.poke p v }

def InBuffer (p q : Nat) : Prop := p ≤ q ∧ q < p + diskBlockSize.toNat

instance (p q : Nat) : Decidable (InBuffer p q) := inferInstanceAs (Decidable (_ ∧ _))

def DisjointBuffers (p p' : Nat) : Prop :=
  p + diskBlockSize.toNat ≤ p' ∨ p' + diskBlockSize.toNat ≤ p

instance (p p' : Nat) : Decidable (DisjointBuffers p p') := inferInstanceAs (Decidable (_ ∨ _))

/-- The blocks are in range, the buffers of the pending requests are disjoint,
and no client writes into one of them. -/
def Permitted (numblocks : Int) (q : Queue) : QueueAction → Prop
  | .enqueue r =>
    Accepts numblocks r.block r.buffer ∧ ∀ x ∈ q.list, DisjointBuffers x.buffer r.buffer
  | .dispatch _ => True
  | .poke p _ => ∀ x ∈ q.list, ¬InBuffer x.buffer p

instance (numblocks : Int) (q : Queue) : (a : QueueAction) → Decidable (Permitted numblocks q a)
  | .enqueue r => inferInstanceAs (Decidable (Accepts numblocks r.block r.buffer ∧
      ∀ x ∈ q.list, DisjointBuffers x.buffer r.buffer))
  | .dispatch _ => inferInstanceAs (Decidable True)
  | .poke p _ => inferInstanceAs (Decidable (∀ x ∈ q.list, ¬InBuffer x.buffer p))

/-- The transfer of a request to or from the place of its block. -/
def execute (r : Request) (st : ByteStore) : ByteStore :=
  (byteMedium .exact).transfer r.cTaskAction diskBlockSize r.block r.buffer st

/-- The requests in the order of their arrival, with no queue in between. -/
def inOrder (st : ByteStore) : QueueAction → ByteStore
  | .enqueue r => execute r st
  | .dispatch _ => st
  | .poke p v => st.poke p v

def QueueAction.enqueued? : QueueAction → Option Request
  | .enqueue r => some r
  | _ => none

section Bytes

variable (file : Int → UInt8) (mem : Ptr → UInt8) (block : Int) (buffer : Ptr)

theorem read_apply (q : Ptr) :
    (byteMedium .exact).read file diskBlockSize block buffer mem q =
      if InBuffer buffer q then file (block * diskBlockSize + (q - buffer : Nat)) else mem q := rfl

def InBlock (block o : Int) : Prop :=
  block * diskBlockSize ≤ o ∧ o < block * diskBlockSize + diskBlockSize

instance (block o : Int) : Decidable (InBlock block o) := inferInstanceAs (Decidable (_ ∧ _))

theorem write_apply (o : Int) :
    (byteMedium .exact).write mem diskBlockSize block buffer file o =
      if InBlock block o then mem (buffer + (o - block * diskBlockSize).toNat) else file o := rfl

variable {file mem}

theorem inBlock_of_inBuffer {q : Ptr} (h : InBuffer buffer q) :
    InBlock block (block * diskBlockSize + (q - buffer : Nat)) := by
  unfold InBlock diskBlockSize
  unfold InBuffer diskBlockSize at h
  omega

theorem inBuffer_of_inBlock {o : Int} (h : InBlock block o) :
    InBuffer buffer (buffer + (o - block * diskBlockSize).toNat) := by
  unfold InBuffer diskBlockSize
  unfold InBlock diskBlockSize at h
  omega

variable {block buffer}

theorem InBlock.ne {block' o : Int} (h : InBlock block o) (hne : block ≠ block') :
    ¬InBlock block' o := by
  unfold InBlock diskBlockSize at *
  omega

theorem InBuffer.ne {buffer' q : Ptr} (h : InBuffer buffer q)
    (hdis : DisjointBuffers buffer buffer') : ¬InBuffer buffer' q := by
  unfold InBuffer DisjointBuffers diskBlockSize at *
  omega

end Bytes

theorem execute_commute_read_write {a b : Request} (ha : a.cTaskAction = .read)
    (hb : b.cTaskAction = .write) (hblock : a.block ≠ b.block)
    (hbuf : DisjointBuffers a.buffer b.buffer) : Function.Commute (execute a) (execute b) := by
  intro st
  unfold execute Medium.transfer
  rw [ha, hb]
  refine congrArg₂ Store.mk (funext fun o => ?_) (funext fun q => ?_)
  · simp only [write_apply, read_apply]
    by_cases ho : InBlock b.block o
    · have hout := (inBuffer_of_inBlock b.block b.buffer ho).ne hbuf.symm
      simp only [if_pos ho, if_neg hout]
    · simp only [if_neg ho]
  · simp only [write_apply, read_apply]
    by_cases hq : InBuffer a.buffer q
    · have hout := (inBlock_of_inBuffer a.block a.buffer hq).ne hblock
      simp only [if_pos hq, if_neg hout]
    · simp only [if_neg hq]

theorem execute_commute {a b : Request} (hblock : a.block ≠ b.block)
    (hbuf : DisjointBuffers a.buffer b.buffer) : Function.Commute (execute a) (execute b) := by
  cases ha : a.cTaskAction with
  | read =>
    cases hb : b.cTaskAction with
    | read =>
      intro st
      unfold execute Medium.transfer
      rw [ha, hb]
      refine congrArg (Store.mk st.file) (funext fun q => ?_)
      simp only [read_apply]
      by_cases hq : InBuffer a.buffer q
      · simp only [if_pos hq, if_neg (hq.ne hbuf)]
      · simp only [if_neg hq]
    | write => exact execute_commute_read_write ha hb hblock hbuf
  | write =>
    cases hb : b.cTaskAction with
    | read => exact (execute_commute_read_write hb ha hblock.symm hbuf.symm).symm
    | write =>
      intro st
      unfold execute Medium.transfer
      rw [ha, hb]
      refine congrArg (Store.mk · st.mem) (funext fun o => ?_)
      simp only [write_apply]
      by_cases ho : InBlock a.block o
      · simp only [if_pos ho, if_neg (ho.ne hblock)]
      · simp only [if_neg ho]

theorem poke_commute {r : Request} {q : Ptr} {v : UInt8} (h : ¬InBuffer r.buffer q) :
    Function.Commute (fun st : ByteStore => st.poke q v) (execute r) := by
  intro st
  unfold execute Medium.transfer Store.poke
  cases r.cTaskAction with
  | read =>
    refine congrArg (Store.mk st.file) (funext fun p => ?_)
    by_cases hp : p = q
    · subst p
      simp only [Function.update_self, read_apply, if_neg h]
    · simp only [Function.update_of_ne hp, read_apply]
  | write =>
    refine congrArg (Store.mk · (Function.update st.mem q v)) (funext fun o => ?_)
    simp only [write_apply]
    by_cases ho : InBlock r.block o
    · have hne : r.buffer + (o - r.block * diskBlockSize).toNat ≠ q :=
        fun he => h (he ▸ inBuffer_of_inBlock r.block r.buffer ho)
      simp only [if_pos ho, Function.update_of_ne hne]
    · simp only [if_neg ho]

/-- The transfer at the offset that the 32-bit product gives. -/
theorem transfer_eq_execute {numblocks : Int} (hfit : numblocks * diskBlockSize ≤ intMax)
    {r : Request} (hacc : Accepts numblocks r.block r.buffer) (st : ByteStore) :
    (byteMedium .wrap32).transfer r.cTaskAction diskBlockSize r.block r.buffer st =
      execute r st := by
  have hoff := offset_exact hfit hacc.2.1 hacc.2.2
  unfold execute Medium.transfer
  cases r.cTaskAction with
  | read =>
    refine congrArg (Store.mk st.file) (funext fun q => ?_)
    simp only [byteMedium, hoff]
    rfl
  | write =>
    refine congrArg (Store.mk · st.mem) (funext fun o => ?_)
    simp only [byteMedium, hoff]
    rfl

theorem fileTransfer_execute {numblocks : Int} (hfit : numblocks * diskBlockSize ≤ intMax)
    {r : Request} (hacc : Accepts numblocks r.block r.buffer) {st : FileStore}
    (hfile : numblocks * diskBlockSize ≤ st.file.size) :
    let done := fileTransfer .wrap32 r.cTaskAction diskBlockSize r.block r.buffer st
    done.bytes = execute r st.bytes ∧ done.file.size = st.file.size := by
  obtain ⟨hbuf, hlo, hhi⟩ := hacc
  have hoff := offset_exact hfit hlo hhi
  have hstart : 0 ≤ IntArith.wrap32.mul r.block diskBlockSize := by
    rw [hoff]
    exact Int.mul_nonneg hlo (by decide)
  have hend : IntArith.wrap32.mul r.block diskBlockSize + diskBlockSize ≤ st.file.size := by
    rw [hoff]
    unfold diskBlockSize at *
    omega
  refine ⟨?_, fileTransfer_size r.cTaskAction r.buffer hstart hend⟩
  exact (fileTransfer_bytes r.cTaskAction r.buffer hstart hend).trans
    (transfer_eq_execute hfit ⟨hbuf, hlo, hhi⟩ st.bytes)

structure QueueKept (numblocks : Int) (q : Queue) : Prop where
  idle : q.dev.status = .idle
  size : q.dev.numblocks = numblocks
  blocksize : q.dev.blocksize = diskBlockSize
  file : numblocks * diskBlockSize ≤ q.store.file.size
  valid : ∀ r ∈ q.list, Accepts numblocks r.block r.buffer
  disjoint : q.list.Pairwise fun a b => DisjointBuffers a.buffer b.buffer

theorem dispatchStep_spec {numblocks : Int} (hfit : numblocks * diskBlockSize ≤ intMax) {q : Queue}
    (alg : DiskAlgorithm) (hq : QueueKept numblocks q) (hne : q.list ≠ []) :
    ∃ t r pre post, dispatchStep .wrap32 q alg = some t ∧ q.list = pre ++ r :: post ∧
      (∀ y ∈ pre, y.block ≠ r.block) ∧ t.list = pre ++ post ∧
      t.store.bytes = execute r q.store.bytes ∧ t.executed = r :: q.executed ∧
      QueueKept numblocks t := by
  obtain ⟨r, hr⟩ := @schedChoice_isSome _ .wrap32 Request.block q.iCurrBlock alg _ hne
  obtain ⟨pre, post, hlist, hpre⟩ := schedChoice_earliest hr
  have hmem : r ∈ q.list := by rw [hlist]; simp
  have hacc := hq.valid r hmem
  have hnot : r ∉ pre := fun hin => hpre r hin rfl
  have herase : q.list.erase r = pre ++ post := by
    rw [hlist, List.erase_append_right _ hnot, List.erase_cons_head]
  have hsub : (pre ++ post).Sublist q.list := by
    rw [hlist]
    exact (List.sublist_cons_self r post).append_left pre
  have haccept := @diskCmd_accept r.cTaskAction r.block r.buffer q.dev hq.idle (hq.size ▸ hacc)
  let dev : Device := { q.dev with
    buffer := r.buffer
    prevBlock := r.block
    nextBlock := r.block
    status := .idle
    timer := false }
  let store := fileTransfer .wrap32 r.cTaskAction diskBlockSize r.block r.buffer q.store
  have hdone : fileSighandle .wrap32
      (diskCmd r.cTaskAction.toDiskCmd r.block r.buffer q.dev).1 q.store = some (dev, store) := by
    rw [haccept, fileSighandle_busy _ _ rfl]
    exact congrArg (fun size => some (dev, fileTransfer .wrap32 r.cTaskAction size r.block r.buffer
      q.store)) hq.blocksize
  obtain ⟨hbytes, hsize⟩ : store.bytes = execute r q.store.bytes ∧
      store.file.size = q.store.file.size := fileTransfer_execute hfit hacc hq.file
  refine ⟨⟨pre ++ post, r.block, dev, store, r :: q.executed⟩, r, pre, post, ?_, hlist, hpre, rfl,
    hbytes, rfl, rfl, hq.size, hq.blocksize, ?_, ?_, hq.disjoint.sublist hsub⟩
  · simp only [dispatchStep, if_neg hne, hr, Option.bind_some, hdone, herase]
    simp [haccept]
  · rw [hsize]
    exact hq.file
  · intro x hx
    exact hq.valid x (hsub.subset hx)

/-- The store in which everything pending has been carried out. -/
def Queue.settled (q : Queue) : ByteStore := applyAll execute q.list q.store.bytes

/-- A dispatch carries out a request that commutes with the earlier ones. -/
theorem dispatch_settled {numblocks : Int} (hfit : numblocks * diskBlockSize ≤ intMax) {q : Queue}
    (alg : DiskAlgorithm) (hq : QueueKept numblocks q) :
    ∃ t, dispatchStep .wrap32 q alg = some t ∧ QueueKept numblocks t ∧ t.settled = q.settled ∧
      (t.executed ++ t.list).Perm (q.executed ++ q.list) := by
  by_cases hne : q.list = []
  · refine ⟨q, ?_, hq, rfl, List.Perm.refl _⟩
    rw [dispatchStep, if_pos hne]
  · obtain ⟨t, r, pre, post, hstep, hlist, hpre, htlist, hstore, hexec, ht⟩ :=
      dispatchStep_spec hfit alg hq hne
    refine ⟨t, hstep, ht, ?_, ?_⟩
    · have hdis := hq.disjoint
      rw [hlist] at hdis
      have hcomm (y : Request) (hy : y ∈ pre) : Function.Commute (execute r) (execute y) :=
        execute_commute (hpre y hy).symm
          ((List.pairwise_append.mp hdis).2.2 y hy r (List.mem_cons_self ..)).symm
      rw [Queue.settled, Queue.settled, htlist, hstore, hlist, applyAll_overtake hcomm]
    · rw [htlist, hexec, hlist]
      have hmove : (pre ++ r :: post).Perm (r :: (pre ++ post)) := List.perm_middle
      have hfront : (q.executed ++ r :: (pre ++ post)).Perm (r :: (q.executed ++ (pre ++ post))) :=
        List.perm_middle
      exact hfront.symm.trans (hmove.symm.append_left _)

theorem queueStep_spec {numblocks : Int} (hfit : numblocks * diskBlockSize ≤ intMax) {q : Queue}
    {a : QueueAction} (hq : QueueKept numblocks q) (hok : Permitted numblocks q a) :
    ∃ t, queueStep .wrap32 q a = some t ∧ QueueKept numblocks t ∧ t.settled = inOrder q.settled a ∧
      (t.executed ++ t.list).Perm (q.executed ++ q.list ++ a.enqueued?.toList) := by
  cases a with
  | enqueue r =>
    refine ⟨{ q with list := q.list ++ [r] }, rfl,
      ⟨hq.idle, hq.size, hq.blocksize, hq.file, ?_, ?_⟩, ?_, ?_⟩
    · intro x hx
      rcases List.mem_append.mp hx with hx | hx
      · exact hq.valid x hx
      · rw [List.mem_singleton.mp hx]
        exact hok.1
    · refine List.pairwise_append.mpr ⟨hq.disjoint, List.pairwise_singleton _ _, ?_⟩
      intro x hx y hy
      rw [List.mem_singleton.mp hy]
      exact hok.2 x hx
    · exact applyAll_append execute q.list [r] q.store.bytes
    · rw [List.append_assoc]
      exact List.Perm.refl _
  | dispatch alg =>
    obtain ⟨t, hstep, ht, hsettled, hperm⟩ := dispatch_settled hfit alg hq
    exact ⟨t, hstep, ht, hsettled, by simpa [QueueAction.enqueued?] using hperm⟩
  | poke p v =>
    refine ⟨{ q with store := q.store.poke p v }, rfl,
      ⟨hq.idle, hq.size, hq.blocksize, hq.file, hq.valid, hq.disjoint⟩, ?_, ?_⟩
    · exact (commute_applyAll (fun x hx => poke_commute (hok x hx)) q.store.bytes).symm
    · simp [QueueAction.enqueued?]

def Queue.start (head : Int) (store : FileStore) : Queue where
  list := []
  iCurrBlock := head
  dev := Device.start store.file.size store.file.numblocks
  store := store
  executed := []

theorem start_kept (head : Int) (store : FileStore) :
    QueueKept store.file.numblocks (Queue.start head store) where
  idle := rfl
  size := by simp only [Queue.start, Device.start]
  blocksize := rfl
  file := store.file.numblocks_le
  valid _ hr := absurd hr List.not_mem_nil
  disjoint := .nil

theorem foldl_enqueued (as : List QueueAction) (m : Multiset Request) :
    as.foldl (fun m a => m + (a.enqueued?.toList : Multiset Request)) m =
      m + (as.filterMap QueueAction.enqueued? : Multiset Request) := by
  induction as generalizing m with
  | nil => simp
  | cons a as ih =>
    rw [List.foldl_cons, ih, Multiset.add_assoc]
    cases ha : a.enqueued? with
    | none => simp [List.filterMap_cons_none ha]
    | some r =>
      rw [List.filterMap_cons_some ha]
      rfl

def smallArrivals : List QueueAction :=
  [.enqueue ⟨0, 0, 9, 100, .write, 0⟩, .enqueue ⟨1, 1, 3, 200, .read, 0⟩, .dispatch .sstf,
    .enqueue ⟨2, 0, 9, 300, .read, 0⟩, .poke 200 7, .dispatch .cscan, .dispatch .fcfs]

/-- A disk file of zeros, with the offset where `disk_init` leaves it. -/
def blankDisk (size : Nat) : FileStore := ⟨⟨fun _ => 0, size, size⟩, fun p => p.toUInt8⟩

def farArrivals (alg : DiskAlgorithm) : List QueueAction :=
  [.enqueue ⟨0, 0, 33554432, 100, .write, 0⟩, .enqueue ⟨1, 1, 0, 200, .read, 0⟩, .dispatch alg,
    .dispatch alg]

end PingPong
