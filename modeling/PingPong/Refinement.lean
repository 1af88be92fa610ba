import PingPong.DiskFile
import PingPong.OneTask
import PingPong.Simulation
import PingPong.BlockArray

/-! The manager and the device of a single task refine an array of blocks. The
effect of a call falls into the timer's handler, between the post of `newReqsSem`
and the wake-up; until then the file shows the array before the call, and from
then on the array after it. -/

namespace PingPong

open Runs

abbrev Block := Fin 64 → UInt8

def blockAt (file : Int → UInt8) (b : Int) : Block := fun i => file (b * diskBlockSize + i.val)

def bufferAt (mem : Ptr → UInt8) (p : Ptr) : Block := fun i => mem (p + i.val)

section Medium

variable {numblocks block : Int} (hfit : numblocks * diskBlockSize ≤ intMax) (hlo : 0 ≤ block)
  (hhi : block < numblocks) (file : Int → UInt8) (mem : Ptr → UInt8) (buffer : Ptr)

include hfit hlo hhi

theorem bufferAt_read :
    bufferAt ((byteMedium .wrap32).read file diskBlockSize block buffer mem) buffer =
      blockAt file block := by
  funext i
  have hoff := offset_exact hfit hlo hhi
  have hin : buffer ≤ buffer + i.val ∧ buffer + i.val < buffer + diskBlockSize.toNat :=
    ⟨Nat.le_add_right _ _, Nat.add_lt_add_left i.isLt _⟩
  simp only [bufferAt, byteMedium, blockAt, if_pos hin, hoff, Nat.add_sub_cancel_left]

theorem blockAt_write_self :
    blockAt ((byteMedium .wrap32).write mem diskBlockSize block buffer file) block =
      bufferAt mem buffer := by
  funext i
  have hoff := offset_exact hfit hlo hhi
  have hi : (i.val : Int) < diskBlockSize := Int.ofNat_lt.mpr i.isLt
  have hin : block * diskBlockSize ≤ block * diskBlockSize + i.val ∧
      block * diskBlockSize + i.val < block * diskBlockSize + diskBlockSize := by omega
  have hsub : (block * diskBlockSize + i.val - block * diskBlockSize).toNat = i.val := by omega
  simp only [bufferAt, byteMedium, blockAt, hoff, if_pos hin, hsub]

theorem blockAt_write_other {b : Int} (hne : b ≠ block) :
    blockAt ((byteMedium .wrap32).write mem diskBlockSize block buffer file) b =
      blockAt file b := by
  funext i
  have hoff := offset_exact hfit hlo hhi
  have hi := i.isLt
  have hout : ¬(block * diskBlockSize ≤ b * diskBlockSize + i.val ∧
      b * diskBlockSize + i.val < block * diskBlockSize + diskBlockSize) := by
    unfold diskBlockSize
    omega
  simp only [byteMedium, blockAt, hoff, if_neg hout]

end Medium

abbrev DiskArray := BlockArray.State Int Block

def taskOp (cmd : TaskCmd) (block : Int) (d : Block) : BlockArray.Op Int Block :=
  match cmd with
  | .read => .read block
  | .write => .write block d

/-- What a call has in its hands when it returns: for a read its buffer, for a
write the block on the disk. -/
def resultOf (r : Request) (st : Store (Int → UInt8) (Ptr → UInt8)) : Block :=
  match r.cTaskAction with
  | .read => bufferAt st.mem r.buffer
  | .write => blockAt st.file r.block

def callLabel (s : State 1 (Int → UInt8) (Ptr → UInt8)) :
    Action 1 (Ptr → UInt8) → Option (BlockArray.Label Int Block)
  | .call _ cmd block buffer _ => some (.call (taskOp cmd block (bufferAt s.store.mem buffer)))
  | .client c =>
    match s.clients c with
    | .returning r => some (.ret (resultOf r s.store))
    | _ => none
  | _ => none

def ClientPc.woken : ClientPc → Bool
  | .unlockRequest _ | .returning _ => true
  | _ => false

/-- The transfer of the call in progress has been carried out. -/
def Transferred (s : State 1 (Int → UInt8) (Ptr → UInt8)) : Prop :=
  0 < s.treatedReqSem ∨ (s.clients 0).woken = true

def Shows (numblocks : Int) (file : Int → UInt8) (a : Int → Block) : Prop :=
  ∀ b, 0 ≤ b → b < numblocks → blockAt file b = a b

def Effect (numblocks : Int) (st : Store (Int → UInt8) (Ptr → UInt8)) (r : Request)
    (a : Int → Block) : Prop :=
  match r.cTaskAction with
  | .read => Shows numblocks st.file a ∧ bufferAt st.mem r.buffer = a r.block
  | .write => Shows numblocks st.file (Function.update a r.block (bufferAt st.mem r.buffer))

structure Refines (numblocks : Int) (s : State 1 (Int → UInt8) (Ptr → UInt8)) (a : DiskArray) :
    Prop where
  idle : s.clients 0 = .outside → a.pending = none ∧ Shows numblocks s.store.file a.content
  pending : ∀ r, (s.clients 0).request = some r →
    a.pending = some (taskOp r.cTaskAction r.block (bufferAt s.store.mem r.buffer))
  before : ∀ r, (s.clients 0).request = some r → ¬Transferred s →
    Shows numblocks s.store.file a.content
  after : ∀ r, (s.clients 0).request = some r → Transferred s →
    Effect numblocks s.store r a.content
  accepted : ∀ r, s.disk ≠ .upTreated r

theorem initial_refines (numblocks : Int) (heap : Ptr → Request)
    (store : Store (Int → UInt8) (Ptr → UInt8)) :
    Refines numblocks (initial numblocks heap store) ⟨blockAt store.file, none⟩ where
  idle _ := ⟨rfl, fun _ _ _ => rfl⟩
  pending _ hr := nomatch hr
  before _ hr := nomatch hr
  after _ hr := nomatch hr
  accepted _ hr := nomatch hr

theorem update_alone (clients : Fin 1 → ClientPc) (c : Fin 1) (pc : ClientPc) :
    Function.update clients c pc 0 = pc := by
  rw [Subsingleton.elim c 0, Function.update_self]

theorem Handshake.outside_quiet {s : State 1 (Int → UInt8) (Ptr → UInt8)} (hs : Handshake s)
    (h : (s.clients 0).waiting = false) : s.treatedReqSem = 0 := by
  have hnone (i : Fin 1) : (s.clients i).waiting = false := by rwa [Subsingleton.elim i 0]
  exact (hs.no_token hnone).2.2.2

theorem Refines.frame {numblocks : Int} {s t : State 1 (Int → UInt8) (Ptr → UInt8)} {a : DiskArray}
    (hs : Refines numblocks s a) (hreq : (t.clients 0).request = (s.clients 0).request)
    (hout : t.clients 0 = .outside → s.clients 0 = .outside) (hstore : t.store = s.store)
    (htrans : Transferred t ↔ Transferred s) (hdisk : ∀ r, t.disk ≠ .upTreated r) :
    Refines numblocks t a where
  idle hpc := by
    rw [hstore]
    exact hs.idle (hout hpc)
  pending r hr := by
    rw [hstore]
    exact hs.pending r (hreq ▸ hr)
  before r hr hnot := by
    rw [hstore]
    exact hs.before r (hreq ▸ hr) (mt htrans.mpr hnot)
  after r hr ht := by
    rw [hstore]
    exact hs.after r (hreq ▸ hr) (htrans.mp ht)
  accepted := hdisk

theorem effect_transfer {numblocks : Int} (hfit : numblocks * diskBlockSize ≤ intMax) {r : Request}
    (hacc : Accepts numblocks r.block r.buffer) {st : Store (Int → UInt8) (Ptr → UInt8)}
    {a : Int → Block} (h : Shows numblocks st.file a) :
    Effect numblocks ((byteMedium .wrap32).transfer r.cTaskAction diskBlockSize r.block r.buffer st)
      r a := by
  obtain ⟨_, hlo, hhi⟩ := hacc
  unfold Effect Medium.transfer
  cases r.cTaskAction with
  | read => exact ⟨h, (bufferAt_read hfit hlo hhi _ _ _).trans (h _ hlo hhi)⟩
  | write =>
    intro b hb hb'
    by_cases he : b = r.block
    · subst b
      rw [Function.update_self]
      exact blockAt_write_self hfit hlo hhi _ _ _
    · rw [Function.update_of_ne he]
      exact (blockAt_write_other hfit hlo hhi _ _ _ he).trans (h b hb hb')

theorem taskOp_transfer (md : Medium (Int → UInt8) (Ptr → UInt8)) (r : Request) (blocksize : Int)
    (st : Store (Int → UInt8) (Ptr → UInt8)) :
    taskOp r.cTaskAction r.block
      (bufferAt (md.transfer r.cTaskAction blocksize r.block r.buffer st).mem r.buffer) =
      taskOp r.cTaskAction r.block (bufferAt st.mem r.buffer) := by
  cases r.cTaskAction <;> rfl

theorem effect_return {numblocks : Int} {r : Request} (hacc : Accepts numblocks r.block r.buffer)
    {st : Store (Int → UInt8) (Ptr → UInt8)} {a : Int → Block} (h : Effect numblocks st r a) :
    ∃ b, BlockArray.Step ⟨a, some (taskOp r.cTaskAction r.block (bufferAt st.mem r.buffer))⟩
      (.ret (resultOf r st)) ⟨b, none⟩ ∧ Shows numblocks st.file b := by
  obtain ⟨_, hlo, hhi⟩ := hacc
  unfold Effect at h
  cases hcmd : r.cTaskAction with
  | read =>
    rw [hcmd] at h
    have hres : resultOf r st = a r.block := by
      simp only [resultOf, hcmd]
      exact h.2
    rw [hres]
    exact ⟨a, .read, h.1⟩
  | write =>
    rw [hcmd] at h
    have hres : resultOf r st = bufferAt st.mem r.buffer := by
      simp only [resultOf, hcmd]
      exact (h r.block hlo hhi).trans (Function.update_self ..)
    rw [hres]
    exact ⟨_, .write, h⟩

structure Related (numblocks : Int) (s : State 1 (Int → UInt8) (Ptr → UInt8)) (a : DiskArray) :
    Prop where
  alone : Alone s
  valid : ValidRequests numblocks s
  size : s.dev.numblocks = numblocks
  blocksize : s.dev.blocksize = diskBlockSize
  refines : Refines numblocks s a

section Step

variable {cfg : Config (Int → UInt8) (Ptr → UInt8)} {numblocks : Int}
  {s t : State 1 (Int → UInt8) (Ptr → UInt8)} {x : DiskArray}

theorem Related.call (hs : Related numblocks s x) {c : Fin 1} {cmd : TaskCmd} {block : Int}
    {buffer addr : Ptr} (h : Step cfg s (.call c cmd block buffer addr) t) :
    ∃ y, Trace BlockArray.Step x (callLabel s (.call c cmd block buffer addr)).toList y ∧
      Refines numblocks t y := by
  cases h with
  | @call _ _ _ _ _ r hr hpc hnull hfresh =>
    have hout : s.clients 0 = .outside := by rwa [Subsingleton.elim c 0] at hpc
    have hquiet := hs.alone.handshake.outside_quiet (by rw [hout]; rfl)
    obtain ⟨hpending, hshows⟩ := hs.refines.idle hout
    obtain ⟨content, pending⟩ := x
    subst hpending
    refine ⟨⟨content, some (taskOp cmd block (bufferAt s.store.mem buffer))⟩, .single .call, ?_⟩
    have hzero := update_alone s.clients c (.lockRequest r)
    refine ⟨fun hpc' => ?_, fun r' hr' => ?_, fun _ _ _ => hshows, fun _ _ htrans => ?_, ?_⟩
    · exact nomatch hzero.symm.trans hpc'
    · have he : some r = some r' := (congrArg ClientPc.request hzero).symm.trans hr'
      cases he
      rw [hr]
    · rcases htrans with hpos | hwoken
      · exact absurd hpos (by show ¬0 < s.treatedReqSem; omega)
      · exact nomatch (congrArg ClientPc.woken hzero).symm.trans hwoken
    · exact hs.refines.accepted

theorem Related.client (hs : Related numblocks s x) {c : Fin 1} (h : Step cfg s (.client c) t) :
    ∃ y, Trace BlockArray.Step x (callLabel s (.client c)).toList y ∧ Refines numblocks t y := by
  have hc : c = 0 := Subsingleton.elim c 0
  subst c
  have hmove {pc pc' : ClientPc} (hpc : s.clients 0 = pc)
      (hclients : t.clients = Function.update s.clients 0 pc') (hreq : pc'.request = pc.request)
      (hout : pc' ≠ .outside) (hstore : t.store = s.store) (hdisk : t.disk = s.disk)
      (htrans : Transferred t ↔ Transferred s) : Refines numblocks t x := by
    have hzero : t.clients 0 = pc' := by rw [hclients, Function.update_self]
    refine hs.refines.frame (by rw [hzero, hpc, hreq]) (fun he => ?_) hstore htrans ?_
    · exact absurd (hzero.symm.trans he) hout
    · rw [hdisk]
      exact hs.refines.accepted
  cases h with
  | lock hpc | upNew hpc =>
    refine ⟨x, ?_, hmove hpc rfl rfl (by simp) rfl rfl ?_⟩
    · simp only [callLabel, hpc]
      exact .nil
    · simp [Transferred, hpc, ClientPc.woken]
  | downTreated hpc hsem =>
    refine ⟨x, ?_, hmove hpc rfl rfl (by simp) rfl rfl ?_⟩
    · simp only [callLabel, hpc]
      exact .nil
    · simp [Transferred, hsem, ClientPc.woken]
  | unlock hpc =>
    refine ⟨x, ?_, hmove hpc rfl rfl (by simp) rfl rfl ?_⟩
    · simp only [callLabel, hpc]
      exact .nil
    · simp [Transferred, hpc, ClientPc.woken]
  | @ret _ r hpc =>
    have hreq : (s.clients 0).request = some r := by rw [hpc]; rfl
    have heffect := hs.refines.after r hreq (.inr (by rw [hpc]; rfl))
    obtain ⟨b, hstep, hshows⟩ := effect_return (hs.valid 0 r hreq) heffect
    rw [← hs.refines.pending r hreq] at hstep
    refine ⟨⟨b, none⟩, ?_, ?_⟩
    · simp only [callLabel, hpc]
      exact .single hstep
    · have hzero := update_alone s.clients 0 .outside
      have hnone (r' : Request) : (Function.update s.clients 0 .outside 0).request ≠ some r' := by
        rw [hzero]
        exact fun he => nomatch he
      exact ⟨fun _ => ⟨rfl, hshows⟩, fun r' hr' => absurd hr' (hnone r'),
        fun r' hr' => absurd hr' (hnone r'), fun r' hr' => absurd hr' (hnone r'),
        hs.refines.accepted⟩

theorem Related.disk (hs : Related numblocks s x) (h : Step cfg s .disk t) :
    Refines numblocks t x := by
  cases h with
  | refuse hpc hrej =>
    have hshake := hs.alone.handshake
    have hdisp : s.disk.dispatching = true := by rw [hpc]; rfl
    obtain ⟨r, hrc⟩ := waiting_iff.mp (hshake.alone_waiting hdisp)
    have hacc := hs.valid 0 r (by rw [hrc]; rfl)
    have hcopied := hs.alone.faithful.copied
    have hown := (hs.alone.ownership.waits hrc).onDisk
    rw [hpc] at hcopied hown
    cases hown
    rw [hs.size, hcopied.1, hcopied.2] at hrej
    exact absurd ⟨hshake.idle hdisp, hacc⟩ hrej
  | upTreated hpc => exact absurd hpc (hs.refines.accepted _)
  | _ => exact hs.refines.frame rfl id rfl Iff.rfl (by simp)

theorem Related.fire (hmd : cfg.md = byteMedium .wrap32)
    (hfit : numblocks * diskBlockSize ≤ intMax) (hs : Related numblocks s x)
    (h : Step cfg s .fire t) : Refines numblocks t x := by
  cases h with
  | @fire cmd htimer hdev =>
    have hshake := hs.alone.handshake
    have hbusy : s.dev.busy = true := hshake.timer ▸ htimer
    obtain ⟨⟨c, hwait⟩, _, _, hquiet⟩ := hshake.busy_alone hbusy
    rw [Subsingleton.elim c 0] at hwait
    obtain ⟨r, hrc⟩ := waiting_iff.mp hwait
    have hreq : (s.clients 0).request = some r := by rw [hrc]; rfl
    have hserved := (hs.alone.ownership.waits hrc).served hbusy
    have hcmd : cmd = r.cTaskAction := TaskCmd.busy_injective (hdev.symm.trans hserved.status)
    have hnot : ¬Transferred s := by
      rintro (hpos | hwoken)
      · omega
      · rw [hrc] at hwoken
        cases hwoken
    have heffect := effect_transfer hfit (hs.valid 0 r hreq) (hs.refines.before r hreq hnot)
    have hstore : cfg.md.transfer cmd s.dev.blocksize s.dev.nextBlock s.dev.buffer s.store =
        (byteMedium .wrap32).transfer r.cTaskAction diskBlockSize r.block r.buffer s.store := by
      rw [hmd, hs.blocksize, hserved.block, hserved.buffer, hcmd]
    have honly (r' : Request) (hr' : (s.clients 0).request = some r') : r = r' :=
      Option.some.inj (hreq.symm.trans hr')
    refine ⟨fun hout => ?_, fun r' hr' => ?_, fun r' hr' hnot' => ?_, fun r' hr' _ => ?_,
      hs.refines.accepted⟩
    · exact nomatch hrc.symm.trans hout
    · cases honly r' hr'
      show x.pending =
        some (taskOp r.cTaskAction r.block (bufferAt (cfg.md.transfer ..).mem r.buffer))
      rw [hstore, taskOp_transfer]
      exact hs.refines.pending r hreq
    · exact absurd (.inl (Nat.succ_pos _)) hnot'
    · cases honly r' hr'
      show Effect numblocks (cfg.md.transfer ..) r x.content
      rw [hstore]
      exact heffect

theorem Related.step (hmd : cfg.md = byteMedium .wrap32)
    (hfit : numblocks * diskBlockSize ≤ intMax) {a : Action 1 (Ptr → UInt8)}
    (hs : Related numblocks s x) (hok : ValidCall numblocks a) (h : Step cfg s a t) :
    ∃ y, Trace BlockArray.Step x (callLabel s a).toList y ∧ Related numblocks t y := by
  have hrest (y : DiskArray) (hy : Refines numblocks t y) : Related numblocks t y :=
    ⟨hs.alone.step h, hs.valid.step hok h, h.numblocks.trans hs.size,
      h.blocksize.trans hs.blocksize, hy⟩
  cases a with
  | call =>
    obtain ⟨y, htrace, hy⟩ := hs.call h
    exact ⟨y, htrace, hrest y hy⟩
  | client =>
    obtain ⟨y, htrace, hy⟩ := hs.client h
    exact ⟨y, htrace, hrest y hy⟩
  | store c mem =>
    refine ⟨x, .nil, hrest x ?_⟩
    cases h with
    | store hpc =>
      have hout : s.clients 0 = .outside := by rwa [Subsingleton.elim c 0] at hpc
      have hnone (r : Request) : (s.clients 0).request ≠ some r := by
        rw [hout]
        exact fun he => nomatch he
      exact ⟨hs.refines.idle, fun r hr => absurd hr (hnone r), fun r hr => absurd hr (hnone r),
        fun r hr => absurd hr (hnone r), hs.refines.accepted⟩
  | disk => exact ⟨x, .nil, hrest x (hs.disk h)⟩
  | fire => exact ⟨x, .nil, hrest x (hs.fire hmd hfit h)⟩
  | tick =>
    refine ⟨x, .nil, hrest x ?_⟩
    cases h with
    | tick => exact hs.refines.frame rfl id rfl Iff.rfl hs.refines.accepted

end Step

/-- Every run of one task with valid calls is a run of the array: the trace of its
calls and returns, with what each call wrote or holds at its return, is one of
the array's, and the disk shows the array's blocks. -/
theorem manager_refines_array {cfg : Config (Int → UInt8) (Ptr → UInt8)}
    (hmd : cfg.md = byteMedium .wrap32) {numblocks : Int}
    (hfit : numblocks * diskBlockSize ≤ intMax) {heap : Ptr → Request}
    {store : Store (Int → UInt8) (Ptr → UInt8)} {as : List (Action 1 (Ptr → UInt8))}
    {s : State 1 (Int → UInt8) (Ptr → UInt8)}
    (hok : Along (PingPong.step cfg) (fun _ a => ValidCall numblocks a)
      (initial numblocks heap store) as)
    (h : run (PingPong.step cfg) (initial numblocks heap store) as = some s) :
    ∃ a, Trace BlockArray.Step ⟨blockAt store.file, none⟩
      (traceOf (PingPong.step cfg) callLabel (initial numblocks heap store) as) a ∧
      Refines numblocks s a := by
  have hinit : Related numblocks (initial numblocks heap store) ⟨blockAt store.file, none⟩ :=
    ⟨initial_alone numblocks heap store, fun _ _ hr => (nomatch hr), rfl, rfl,
      initial_refines numblocks heap store⟩
  obtain ⟨a, htrace, hrel⟩ := simulation (R := Related numblocks)
    (fun _ _ _ _ hrel hok ht => hrel.step hmd hfit hok (step_cases ht)) hinit hok h
  exact ⟨a, htrace, hrel.refines⟩

def byteConfig : Config (Int → UInt8) (Ptr → UInt8) := ⟨.sstf, .wrap32, byteMedium .wrap32⟩

def byteDisk : State 1 (Int → UInt8) (Ptr → UInt8) :=
  initial 16 (fun _ => ⟨0, 0, 0, 0, .read, 0⟩) ⟨fun _ => 0, fun p => p.toUInt8⟩

theorem manager_refines_array_small : ∃ s a,
    run (PingPong.step byteConfig) byteDisk
      (callAlone 0 .write 3 64 16 ++ callAlone 0 .read 3 128 16) = some s ∧
    Trace BlockArray.Step ⟨blockAt byteDisk.store.file, none⟩
      (traceOf (PingPong.step byteConfig) callLabel byteDisk
        (callAlone 0 .write 3 64 16 ++ callAlone 0 .read 3 128 16)) a ∧
    Refines 16 s a := by
  have hrun : (run (PingPong.step byteConfig) byteDisk
      (callAlone 0 .write 3 64 16 ++ callAlone 0 .read 3 128 16)).isSome = true := by decide
  have hok : Along (PingPong.step byteConfig) (fun _ a => ValidCall 16 a) byteDisk
      (callAlone 0 .write 3 64 16 ++ callAlone 0 .read 3 128 16) := by decide
  obtain ⟨s, hs⟩ := Option.isSome_iff_exists.mp hrun
  obtain ⟨a, htrace, hrefines⟩ := manager_refines_array rfl (by decide) hok hs
  exact ⟨s, a, hs, htrace, hrefines⟩

end PingPong
