import PingPong.Dispatch

/-! Whose request a wake-up stands for. The completion semaphore carries no name,
so a caller's return says something about its own request only while each
dispatch selects the request of the client that holds `mRequest`. The invariant
follows the waiting client's request with the token: in the list, in the disk
task's hands, in the device, and settled. -/

namespace PingPong

open Runs

variable {n : Nat} {φ μ : Type}

def Carried (hist : List Event) (r : Request) : Prop :=
  .dispatched r r.cTaskAction r.block r.buffer 0 ∈ hist ∧
    .completed r r.cTaskAction r.block r.buffer ∈ hist

def Settled (numblocks : Int) (hist : List Event) (r : Request) : Prop :=
  Accepts numblocks r.block r.buffer → Carried hist r

def Pending (list : List Ptr) (heap : Ptr → Request) (r : Request) : Prop :=
  ∃ p ∈ list, heap p = r

structure Served (s : State n φ μ) (r : Request) : Prop where
  serving : s.serving = r
  block : s.dev.nextBlock = r.block
  buffer : s.dev.buffer = r.buffer
  status : s.dev.status = r.cTaskAction.busy
  accepted : .dispatched r r.cTaskAction r.block r.buffer 0 ∈ s.hist

/-- The disk task, if it holds the token, is about to dispatch `r`. -/
def DiskPc.Owns (s : State n φ μ) (r : Request) : DiskPc → Prop
  | .checkEmpty | .choose => Pending s.list s.heap r
  | .remove p => s.heap p = r
  | .askStatus _ r' | .setStart _ r' | .account _ r' | .setCurrBlock _ r' _ | .setBuffer _ r'
  | .command _ r' => r' = r
  | .upTreated _ => Settled s.dev.numblocks s.hist r
  | .whileInit | .downNewReqs | .exited => True

structure Waits (s : State n φ μ) (r : Request) : Prop where
  posted : 0 < s.newReqsSem → Pending s.list s.heap r
  onDisk : s.disk.Owns s r
  served : s.dev.busy = true → Served s r
  treated : 0 < s.treatedReqSem → Settled s.dev.numblocks s.hist r

def ClientPc.Owns (s : State n φ μ) : ClientPc → Prop
  | .outside => True
  | .lockRequest r | .upNewReqs r => Pending s.list s.heap r
  | .downTreated r => Waits s r
  | .unlockRequest r | .returning r => Settled s.dev.numblocks s.hist r

def ClientPc.request : ClientPc → Option Request
  | .outside => none
  | .lockRequest r | .upNewReqs r | .downTreated r | .unlockRequest r | .returning r => some r

/-- The policy picks the request of the client that waits. -/
def OwnDispatch (cfg : Config φ μ) (s : State n φ μ) : Action n μ → Prop
  | .disk => s.disk = .choose →
    ∀ p ∈ schedChoice cfg.ia (fun q => (s.heap q).block) s.mgr.iCurrBlock cfg.alg s.list,
      ∀ c, (s.clients c).waiting = true → (s.clients c).request = some (s.heap p)
  | _ => True

instance (cfg : Config φ μ) (s : State n φ μ) : (a : Action n μ) → Decidable (OwnDispatch cfg s a)
  | .disk => inferInstanceAs (Decidable (s.disk = .choose →
      ∀ p ∈ schedChoice cfg.ia (fun q => (s.heap q).block) s.mgr.iCurrBlock cfg.alg s.list,
        ∀ c, (s.clients c).waiting = true → (s.clients c).request = some (s.heap p)))
  | .call .. | .client _ | .store .. | .fire | .tick => inferInstanceAs (Decidable True)

structure Ownership (s : State n φ μ) : Prop where
  task : ∀ c r, (s.clients c).request = some r → r.task = c
  owns : ∀ c, (s.clients c).Owns s

theorem initial_ownership (numblocks : Int) (heap : Ptr → Request) (store : Store φ μ) :
    Ownership (initial numblocks heap store : State n φ μ) where
  task c r hr := by simp [initial, ClientPc.request] at hr
  owns _ := trivial

theorem waiting_iff {pc : ClientPc} : pc.waiting = true ↔ ∃ r, pc = .downTreated r := by
  cases pc <;> simp [ClientPc.waiting]

theorem Ownership.owns_at {s : State n φ μ} (hs : Ownership s) {c : Fin n} {pc : ClientPc}
    (hpc : s.clients c = pc) : pc.Owns s := hpc ▸ hs.owns c

theorem Ownership.waits {s : State n φ μ} (hs : Ownership s) {c : Fin n} {r : Request}
    (hpc : s.clients c = .downTreated r) : Waits s r := by
  have howns := hs.owns c
  rwa [hpc] at howns

theorem Settled.mono {numblocks : Int} {hist hist' : List Event} {r : Request}
    (h : Settled numblocks hist r) (hsub : hist ⊆ hist') : Settled numblocks hist' r :=
  fun hacc => ⟨hsub (h hacc).1, hsub (h hacc).2⟩

/-- What a state owes a client survives a step that keeps the nodes of the list,
the history and the waiting client's bookkeeping. -/
theorem ClientPc.Owns.mono {s t : State n φ μ} {pc : ClientPc} (h : pc.Owns s)
    (hpend : ∀ r, Pending s.list s.heap r → pc.queued = true → Pending t.list t.heap r)
    (hwait : ∀ r, Waits s r → pc = .downTreated r → Waits t r)
    (hnum : t.dev.numblocks = s.dev.numblocks) (hhist : s.hist ⊆ t.hist) : pc.Owns t := by
  cases pc with
  | outside => trivial
  | lockRequest r => exact hpend r h rfl
  | upNewReqs r => exact hpend r h rfl
  | downTreated r => exact hwait r h rfl
  | unlockRequest r | returning r =>
    have hsettled : Settled s.dev.numblocks t.hist r := Settled.mono h hhist
    show Settled t.dev.numblocks t.hist r
    rwa [hnum]

theorem DiskPc.Owns.mono {s t : State n φ μ} {pc : DiskPc} {r : Request} (h : pc.Owns s r)
    (hpend : Pending s.list s.heap r → Pending t.list t.heap r)
    (hremove : ∀ p, pc = .remove p → t.heap p = s.heap p)
    (hnum : t.dev.numblocks = s.dev.numblocks) (hhist : s.hist ⊆ t.hist) : pc.Owns t r := by
  cases pc with
  | checkEmpty | choose => exact hpend h
  | remove p => exact (hremove p rfl).trans h
  | upTreated r' =>
    have hsettled : Settled s.dev.numblocks t.hist r := Settled.mono h hhist
    show Settled t.dev.numblocks t.hist r
    rwa [hnum]
  | _ => exact h

theorem Waits.move {s t : State n φ μ} {r : Request} (h : Waits s r)
    (hpend : Pending s.list s.heap r → Pending t.list t.heap r) (hnew : t.newReqsSem ≤ s.newReqsSem)
    (htreated : t.treatedReqSem ≤ s.treatedReqSem) (hdev : t.dev = s.dev)
    (hserving : t.serving = s.serving) (hhist : s.hist ⊆ t.hist) (hdisk : t.disk.Owns t r) :
    Waits t r where
  posted hpos := hpend (h.posted (Nat.lt_of_lt_of_le hpos hnew))
  onDisk := hdisk
  served hbusy := by
    have hserved := h.served (hdev ▸ hbusy)
    exact ⟨hserving.trans hserved.serving, hdev ▸ hserved.block, hdev ▸ hserved.buffer,
      hdev ▸ hserved.status, hhist hserved.accepted⟩
  treated hpos := by
    rw [hdev]
    exact (h.treated (Nat.lt_of_lt_of_le hpos htreated)).mono hhist

/-- A client moves to `pc'`, and no client waits whose bookkeeping is touched. -/
theorem Ownership.moveClient {s t : State n φ μ} (hs : Ownership s) {c : Fin n} {pc' : ClientPc}
    (hclients : t.clients = Function.update s.clients c pc')
    (htask : ∀ r, pc'.request = some r → r.task = c)
    (hpend : ∀ r, Pending s.list s.heap r → Pending t.list t.heap r)
    (hwait : ∀ i r, i ≠ c → s.clients i = .downTreated r → Waits s r → Waits t r)
    (hnum : t.dev.numblocks = s.dev.numblocks) (hhist : s.hist ⊆ t.hist) (hself : pc'.Owns t) :
    Ownership t where
  task i r hr := by
    rw [hclients] at hr
    by_cases hi : i = c
    · subst i
      rw [Function.update_self] at hr
      exact htask r hr
    · rw [Function.update_of_ne hi] at hr
      exact hs.task i r hr
  owns i := by
    rw [hclients]
    by_cases hi : i = c
    · subst i
      rw [Function.update_self]
      exact hself
    · rw [Function.update_of_ne hi]
      exact (hs.owns i).mono (fun r hr _ => hpend r hr) (fun r hr hpc => hwait i r hi hpc hr) hnum
        hhist

theorem Ownership.moveDisk {s t : State n φ μ} (hs : Ownership s) (hclients : t.clients = s.clients)
    (hpend : ∀ c r, Pending s.list s.heap r → (s.clients c).queued = true →
      (s.clients c).request = some r → Pending t.list t.heap r)
    (hwait : ∀ c r, s.clients c = .downTreated r → Waits s r → Waits t r)
    (hnum : t.dev.numblocks = s.dev.numblocks) (hhist : s.hist ⊆ t.hist) : Ownership t where
  task c r hr := hs.task c r (hclients ▸ hr)
  owns c := by
    rw [hclients]
    have howns := hs.owns c
    cases hpc : s.clients c with
    | lockRequest r | upNewReqs r =>
      rw [hpc] at howns
      exact hpend c r howns (by rw [hpc]; rfl) (by rw [hpc]; rfl)
    | _ =>
      rw [hpc] at howns
      exact howns.mono (fun r _ hq => by simp [ClientPc.queued] at hq)
        (fun r hr he => hwait c r (hpc.trans he) hr) hnum hhist

theorem Pending.append {list : List Ptr} {heap : Ptr → Request} {r r' : Request} {addr : Ptr}
    (h : Pending list heap r) (hfresh : addr ∉ list) :
    Pending (list ++ [addr]) (Function.update heap addr r') r := by
  obtain ⟨p, hp, he⟩ := h
  have hne : p ≠ addr := fun he => hfresh (he ▸ hp)
  exact ⟨p, List.mem_append_left _ hp, by rwa [Function.update_of_ne hne]⟩

theorem Pending.erase {list : List Ptr} {heap : Ptr → Request} {r : Request} {p : Ptr}
    (h : Pending list heap r) (hne : heap p ≠ r) : Pending (list.erase p) heap r := by
  obtain ⟨q, hq, rfl⟩ := h
  have hqp : q ≠ p := fun he => hne (he ▸ rfl)
  exact ⟨q, (List.mem_erase_of_ne hqp).mpr hq, rfl⟩

theorem Ownership.clientMoves {s t : State n φ μ} (hs : Ownership s) {c : Fin n} {pc pc' : ClientPc}
    (hpc : s.clients c = pc) (hclients : t.clients = Function.update s.clients c pc')
    (hreq : pc'.request = pc.request) (hlist : t.list = s.list)
    (hheap : t.heap = s.heap) (hhist : t.hist = s.hist) (hdev : t.dev = s.dev)
    (hwait : ∀ i r, i ≠ c → s.clients i = .downTreated r → Waits s r → Waits t r)
    (hself : pc'.Owns t) : Ownership t := by
  refine hs.moveClient hclients ?_ ?_ hwait (by rw [hdev]) (by rw [hhist]; exact List.Subset.refl _)
    hself
  · intro r hr
    exact hs.task c r (by rw [hpc, ← hreq, hr])
  · intro r hr
    rwa [hlist, hheap]

theorem Ownership.diskMoves {s : State n φ μ} (hs : Ownership s) {mgr : Manager} {pc : DiskPc}
    {hist : List Event} (hhist : s.hist ⊆ hist)
    (hown : ∀ c r, s.clients c = .downTreated r → s.disk.Owns s r →
      pc.Owns { s with mgr := mgr, disk := pc, hist := hist } r) :
    Ownership { s with mgr := mgr, disk := pc, hist := hist } := by
  refine hs.moveDisk rfl (fun _ _ hr _ _ => hr) (fun c r hpc hw => ?_) rfl hhist
  exact hw.move id (Nat.le_refl _) (Nat.le_refl _) rfl rfl hhist (hown c r hpc hw.onDisk)

theorem Ownership.call {s : State n φ μ} (hs : Ownership s) (hshake : Handshake s) {c : Fin n}
    {addr : Ptr} {r : Request} (htask : r.task = c) (hfresh : addr ∉ s.list) :
    Ownership { s with
      heap := Function.update s.heap addr r
      list := s.list ++ [addr]
      clients := Function.update s.clients c (.lockRequest r)
      nextId := s.nextId + 1
      hist := .enqueued r :: s.hist } := by
  have hsub := List.subset_cons_self (Event.enqueued r) s.hist
  refine hs.moveClient rfl ?_ (fun r' hr' => hr'.append hfresh) ?_ rfl hsub ?_
  · intro r' hr'
    cases hr'
    exact htask
  · intro i r' hi hpci hwait
    refine hwait.move (fun hr' => hr'.append hfresh) (Nat.le_refl _) (Nat.le_refl _) rfl rfl hsub ?_
    refine hwait.onDisk.mono (fun hr' => hr'.append hfresh) ?_ rfl hsub
    intro p hp
    have hmem := hshake.chosen p hp
    exact Function.update_of_ne (fun he : p = addr => hfresh (he ▸ hmem)) _ _
  · exact ⟨addr, by simp, Function.update_self ..⟩

/-- The token that a client posts is its own, because no other one is under way. -/
theorem Ownership.upNew {s : State n φ μ} (hs : Ownership s) (hshake : Handshake s) {c : Fin n}
    {r : Request} (hpc : s.clients c = .upNewReqs r) :
    Ownership { s with
      newReqsSem := s.newReqsSem + 1
      clients := Function.update s.clients c (.downTreated r) } := by
  have howns := hs.owns_at hpc
  have hnone (i : Fin n) : (s.clients i).waiting = false := by
    apply Bool.eq_false_iff.mpr
    intro hi
    have he : c = i := hshake.holding_unique (by rw [hpc]; rfl) (waiting_holding hi)
    subst i
    rw [hpc] at hi
    cases hi
  obtain ⟨_, hdisp, hbusy, htreated⟩ := hshake.no_token hnone
  refine hs.clientMoves hpc rfl rfl rfl rfl rfl rfl ?_ ⟨fun _ => howns, ?_, ?_, ?_⟩
  · intro i r' hi hpci
    have hwait := hnone i
    rw [hpci] at hwait
    cases hwait
  · show s.disk.Owns _ r
    cases hd : s.disk <;> simp_all [DiskPc.dispatching, DiskPc.Owns]
  · intro hb
    exact absurd (hbusy.symm.trans hb) (by decide)
  · intro hpos
    have hpos' : 0 < s.treatedReqSem := hpos
    omega

/-- The removed node is the waiting client's, so the queued clients keep theirs. -/
theorem Ownership.remove {s : State n φ μ} (hs : Ownership s) (hshake : Handshake s) {p : Ptr}
    (hpc : s.disk = .remove p) :
    Ownership { s with
      list := s.list.erase p
      disk := .askStatus p (s.heap p)
      hist := .removed (s.heap p) :: s.hist } := by
  obtain ⟨⟨c, hwc⟩, hnew, hbusy, htreated⟩ := hshake.dispatching_alone (by rw [hpc]; rfl)
  obtain ⟨r, hrc⟩ := waiting_iff.mp hwc
  have hown := (hs.waits hrc).onDisk
  rw [hpc] at hown
  refine hs.moveDisk rfl ?_ ?_ rfl (List.subset_cons_self _ _)
  · intro i r' hr' hq hreq
    refine hr'.erase fun he => ?_
    have hrr : r = r' := hown.symm.trans he
    have htc := hs.task c r (by rw [hrc]; rfl)
    have hti := hs.task i r' hreq
    have hci : c = i := Fin.ext (htc.symm.trans (hrr ▸ hti))
    rw [← hci, hrc] at hq
    cases hq
  · intro i r' hri hw
    have hown' := hw.onDisk
    rw [hpc] at hown'
    refine ⟨fun hpos => ?_, hown', fun hb => ?_, fun hpos => ?_⟩
    · have hpos' : 0 < s.newReqsSem := hpos
      omega
    · exact absurd (hbusy.symm.trans hb) (by decide)
    · have hpos' : 0 < s.treatedReqSem := hpos
      omega

theorem Ownership.accept {s : State n φ μ} (hs : Ownership s) (hfaith : Faithful s) {p : Ptr}
    {r : Request} (hpc : s.disk = .command p r) :
    Ownership { s with
      dev := { s.dev with
        buffer := s.mgr.buffer
        nextBlock := s.mgr.iCurrBlock
        status := (s.heap p).cTaskAction.busy
        timer := true }
      disk := .whileInit
      serving := r
      hist := .dispatched r (s.heap p).cTaskAction s.mgr.iCurrBlock s.mgr.buffer 0 :: s.hist } := by
  have hcopied := hfaith.copied
  have hunread := hfaith.unread
  rw [hpc] at hcopied hunread
  refine hs.moveDisk rfl (fun _ _ hr _ _ => hr) (fun _ r' _ hw => ?_) rfl
    (List.subset_cons_self _ _)
  have hown := hw.onDisk
  rw [hpc] at hown
  obtain rfl : r = r' := hown
  refine ⟨hw.posted, trivial, fun _ => ⟨rfl, hcopied.1, hcopied.2, ?_, ?_⟩, ?_⟩
  · exact congrArg TaskCmd.busy (hunread _ rfl)
  · rw [hunread _ rfl, hcopied.1, hcopied.2]
    exact List.mem_cons_self ..
  · intro hpos
    exact (hw.treated hpos).mono (List.subset_cons_self _ _)

theorem Ownership.refuse {s : State n φ μ} (hs : Ownership s) (hshake : Handshake s)
    (hfaith : Faithful s) {p : Ptr} {r : Request} (hpc : s.disk = .command p r)
    (hrej : ¬(s.dev.status = .idle ∧ Accepts s.dev.numblocks s.mgr.iCurrBlock s.mgr.buffer)) :
    Ownership { s with
      disk := .upTreated r
      hist :=
        .dispatched r (s.heap p).cTaskAction s.mgr.iCurrBlock s.mgr.buffer (-1) :: s.hist } := by
  have hidle := hshake.idle (by rw [hpc]; rfl)
  have hcopied := hfaith.copied
  rw [hpc] at hcopied
  refine hs.diskMoves (List.subset_cons_self _ _) (fun c r' _ hown => ?_)
  rw [hpc] at hown
  obtain rfl : r = r' := hown
  intro hacc
  rw [hcopied.1, hcopied.2] at hrej
  exact absurd ⟨hidle, hacc⟩ hrej

theorem Ownership.fire {cfg : Config φ μ} {s : State n φ μ} (hs : Ownership s) {cmd : TaskCmd}
    {mgr : Manager} (hbusy : s.dev.busy = true) (hdev : s.dev.status = cmd.busy) :
    Ownership { s with
      treatedReqSem := s.treatedReqSem + 1
      mgr := mgr
      dev := { s.dev with prevBlock := s.dev.nextBlock, status := .idle, timer := false }
      store := cfg.md.transfer cmd s.dev.blocksize s.dev.nextBlock s.dev.buffer s.store
      hist := .completed s.serving cmd s.dev.nextBlock s.dev.buffer :: s.hist } := by
  refine hs.moveDisk rfl (fun _ _ hr _ _ => hr) (fun _ r _ hw => ?_) rfl
    (List.subset_cons_self _ _)
  have hserved := hw.served hbusy
  have hcmd : cmd = r.cTaskAction :=
    TaskCmd.busy_injective (hdev.symm.trans hserved.status)
  refine ⟨hw.posted, ?_, by simp, fun _ _ => ⟨?_, ?_⟩⟩
  · exact hw.onDisk.mono id (fun _ _ => rfl) rfl (List.subset_cons_self _ _)
  · exact List.mem_cons_of_mem _ hserved.accepted
  · rw [hserved.serving, hserved.block, hserved.buffer, hcmd]
    exact List.mem_cons_self ..

theorem Ownership.step {cfg : Config φ μ} {s t : State n φ μ} {a : Action n μ} (hs : Ownership s)
    (hshake : Handshake s) (hfaith : Faithful s) (hok : OwnDispatch cfg s a) (h : Step cfg s a t) :
    Ownership t := by
  cases h with
  | call hr hpc hnull hfresh => exact hs.call hshake (by rw [hr]) hfresh
  | lock hpc | unlock hpc =>
    refine hs.clientMoves hpc rfl rfl rfl rfl rfl rfl (fun _ _ _ _ hw => ?_) (hs.owns_at hpc)
    exact hw.move id (Nat.le_refl _) (Nat.le_refl _) rfl rfl (List.Subset.refl _) hw.onDisk
  | downTreated hpc hsem =>
    have hwaits := hs.waits hpc
    refine hs.clientMoves hpc rfl rfl rfl rfl rfl rfl (fun _ _ _ _ hw => ?_) (hwaits.treated hsem)
    exact hw.move id (Nat.le_refl _) (Nat.sub_le _ _) rfl rfl (List.Subset.refl _) hw.onDisk
  | @ret c r hpc =>
    have hsub := List.subset_cons_self (Event.returned r 0) s.hist
    refine hs.moveClient rfl (fun r' hr' => nomatch hr') (fun _ hr' => hr') ?_ rfl hsub trivial
    intro i r' hi hpci hw
    exact hw.move id (Nat.le_refl _) (Nat.le_refl _) rfl rfl hsub
      (hw.onDisk.mono id (fun _ _ => rfl) rfl hsub)
  | upNew hpc => exact hs.upNew hshake hpc
  | store | tick =>
    refine hs.moveDisk rfl (fun _ _ hr _ _ => hr) (fun _ _ _ hw => ?_) rfl (List.Subset.refl _)
    exact hw.move id (Nat.le_refl _) (Nat.le_refl _) rfl rfl (List.Subset.refl _) hw.onDisk
  | downNew hpc hsem =>
    refine hs.moveDisk rfl (fun _ _ hr _ _ => hr) (fun _ _ _ hw => ?_) rfl (List.Subset.refl _)
    exact hw.move id (Nat.sub_le _ _) (Nat.le_refl _) rfl rfl (List.Subset.refl _) (hw.posted hsem)
  | enterLoop hpc | leaveLoop hpc | empty hpc =>
    exact hs.diskMoves (List.Subset.refl _) (fun _ _ _ _ => trivial)
  | nonempty hpc | isIdle hpc | setStart hpc | account hpc | setCurrBlock hpc | setBuffer hpc =>
    refine hs.diskMoves (List.Subset.refl _) (fun _ _ _ hown => ?_)
    rw [hpc] at hown
    exact hown
  | @choose p hpc hsched =>
    refine hs.diskMoves (List.subset_cons_self _ _) (fun c r hwc _ => ?_)
    have hreq := hok hpc p hsched c (by rw [hwc]; rfl)
    rw [hwc] at hreq
    exact (Option.some.inj hreq).symm
  | remove hpc => exact hs.remove hshake hpc
  | notIdle hpc hdev => exact absurd (hshake.idle (by rw [hpc]; rfl)) hdev
  | accept hpc hdev hacc => exact hs.accept hfaith hpc
  | refuse hpc hrej => exact hs.refuse hshake hfaith hpc hrej
  | upTreated hpc =>
    refine hs.moveDisk rfl (fun _ _ hr _ _ => hr) (fun _ r _ hw => ?_) rfl (List.Subset.refl _)
    have hown := hw.onDisk
    rw [hpc] at hown
    refine ⟨hw.posted, trivial, fun hb => ?_, fun _ => hown⟩
    obtain ⟨hserving, hblock, hbuffer, hstatus, haccepted⟩ := hw.served hb
    exact ⟨hserving, hblock, hbuffer, hstatus, haccepted⟩
  | fire htimer hdev => exact hs.fire (hshake.timer ▸ htimer) hdev

theorem run_ownership {cfg : Config φ μ} {numblocks : Int} {heap : Ptr → Request}
    {store : Store φ μ} {as : List (Action n μ)} {s : State n φ μ}
    (hok : Along (PingPong.step cfg) (fun s a => KeepsDispatch s a ∧ OwnDispatch cfg s a)
      (initial numblocks heap store) as)
    (h : run (PingPong.step cfg) (initial numblocks heap store) as = some s) : Ownership s := by
  have hinv := run_invariant (P := fun s => Handshake s ∧ Faithful s ∧ Ownership s)
    (fun s a t hs hok ht => ⟨hs.1.step (step_cases ht), hs.2.1.step hok.1 (step_cases ht),
      hs.2.2.step hs.1 hs.2.1 hok.2 (step_cases ht)⟩)
    ⟨initial_handshake numblocks heap store, initial_faithful numblocks heap store,
      initial_ownership numblocks heap store⟩ hok h
  exact hinv.2.2

/-- The block is in range and the buffer is not null. -/
def ValidCall (numblocks : Int) : Action n μ → Prop
  | .call _ _ block buffer _ => Accepts numblocks block buffer
  | _ => True

instance (numblocks : Int) : (a : Action n μ) → Decidable (ValidCall numblocks a)
  | .call _ _ block buffer _ => inferInstanceAs (Decidable (Accepts numblocks block buffer))
  | .client _ | .store .. | .disk | .fire | .tick => inferInstanceAs (Decidable True)

def ValidRequests (numblocks : Int) (s : State n φ μ) : Prop :=
  ∀ c r, (s.clients c).request = some r → Accepts numblocks r.block r.buffer

theorem ValidRequests.step {cfg : Config φ μ} {numblocks : Int} {s t : State n φ μ} {a : Action n μ}
    (hs : ValidRequests numblocks s) (hok : ValidCall numblocks a) (h : Step cfg s a t) :
    ValidRequests numblocks t := by
  have hmove {i : Fin n} {pc pc' : ClientPc} (hpc : s.clients i = pc)
      (hkeep : ∀ r, pc'.request = some r → pc.request = some r) :
      ∀ c r, (Function.update s.clients i pc' c).request = some r →
        Accepts numblocks r.block r.buffer := by
    intro c r hr
    by_cases hc : c = i
    · subst c
      rw [Function.update_self] at hr
      exact hs i r (hpc ▸ hkeep r hr)
    · rw [Function.update_of_ne hc] at hr
      exact hs c r hr
  cases h with
  | @call i cmd block buffer addr r hr hpc hnull hfresh =>
    intro c r' hr'
    by_cases hc : c = i
    · subst c
      have he : r = r' := by simpa [ClientPc.request] using hr'
      subst r'
      rw [hr]
      exact hok
    · have hold : (s.clients c).request = some r' := by
        simpa only [Function.update_of_ne hc] using hr'
      exact hs c r' hold
  | lock hpc | upNew hpc | downTreated hpc | unlock hpc => exact hmove hpc fun _ hr => hr
  | ret hpc => exact hmove hpc fun _ hr => nomatch hr
  | _ => exact hs

/-- The device carried out `r` at one step of the run, and that step put the
block into the buffer or the buffer into the block. -/
def CompletedDuring (cfg : Config φ μ) (s₀ : State n φ μ) (as : List (Action n μ)) (r : Request) :
    Prop :=
  ∃ pre post u v, as = pre ++ .fire :: post ∧ run (PingPong.step cfg) s₀ pre = some u ∧
    PingPong.step cfg u .fire = some v ∧
    v.hist = .completed r r.cTaskAction r.block r.buffer :: u.hist ∧
    v.store = cfg.md.transfer r.cTaskAction diskBlockSize r.block r.buffer u.store

theorem run_blocksize {cfg : Config φ μ} {numblocks : Int} {heap : Ptr → Request}
    {store : Store φ μ} {as : List (Action n μ)} {s : State n φ μ}
    (h : run (PingPong.step cfg) (initial numblocks heap store) as = some s) :
    s.dev.blocksize = diskBlockSize :=
  run_invariant (P := fun s => s.dev.blocksize = diskBlockSize)
    (fun _ _ _ hs _ ht => (step_cases ht).blocksize.trans hs) rfl (along_trivial _ _ as) h

theorem run_numblocks {cfg : Config φ μ} {numblocks : Int} {heap : Ptr → Request}
    {store : Store φ μ} {as : List (Action n μ)} {s : State n φ μ}
    (h : run (PingPong.step cfg) (initial numblocks heap store) as = some s) :
    s.dev.numblocks = numblocks :=
  run_invariant (P := fun s => s.dev.numblocks = numblocks)
    (fun _ _ _ hs _ ht => (step_cases ht).numblocks.trans hs) rfl (along_trivial _ _ as) h

theorem completedDuring_of_mem {cfg : Config φ μ} {numblocks : Int} {heap : Ptr → Request}
    {store : Store φ μ} {as : List (Action n μ)} {s : State n φ μ} {r : Request}
    (h : run (PingPong.step cfg) (initial numblocks heap store) as = some s)
    (hmem : .completed r r.cTaskAction r.block r.buffer ∈ s.hist) :
    CompletedDuring cfg (initial numblocks heap store) as r := by
  obtain ⟨pre, a, post, u, v, has, hpre, hstep, _, hu, hv⟩ := exists_step_of_run
    (P := fun s => .completed r r.cTaskAction r.block r.buffer ∈ s.hist) h (by simp [initial]) hmem
  have hsize := run_blocksize hpre
  cases step_cases hstep with
  | fire htimer hdev =>
    refine ⟨pre, post, u, _, has, hpre, hstep, ?_⟩
    rcases List.mem_cons.mp hv with he | hold
    · simp only [Event.completed.injEq] at he
      obtain ⟨hr, hcmd, hblock, hbuffer⟩ := he
      refine ⟨?_, ?_⟩
      · show _ :: u.hist = _
        rw [hcmd, hblock, hbuffer, ← hr]
      · show cfg.md.transfer _ _ _ _ _ = _
        rw [hsize, hcmd, hblock, hbuffer]
    · exact absurd hold hu
  | call | ret | choose | remove | accept | refuse =>
    rcases List.mem_cons.mp hv with he | hold
    · cases he
    · exact absurd hold hu
  | _ => exact absurd hv hu

/-- When a call is about to return, the device has completed its request. -/
def ReturnsCompleted (cfg : Config φ μ) (s₀ : State n φ μ) (as : List (Action n μ))
    (s : State n φ μ) : Prop :=
  ∀ c r, s.clients c = .returning r →
    .completed r r.cTaskAction r.block r.buffer ∈ s.hist ∧ CompletedDuring cfg s₀ as r

def OwnCalls (numblocks : Int) (cfg : Config φ μ) (s : State n φ μ) (a : Action n μ) : Prop :=
  ValidCall numblocks a ∧ KeepsDispatch s a ∧ OwnDispatch cfg s a

instance (numblocks : Int) (cfg : Config φ μ) (s : State n φ μ) (a : Action n μ) :
    Decidable (OwnCalls numblocks cfg s a) := inferInstanceAs (Decidable (_ ∧ _ ∧ _))

/-- In a run of valid calls in which every dispatch takes the request of the
client that waits, each call returns after its own request was carried out. -/
theorem call_returns_completed {cfg : Config φ μ} {numblocks : Int} {heap : Ptr → Request}
    {store : Store φ μ} {as : List (Action n μ)} {s : State n φ μ}
    (hok : Along (PingPong.step cfg) (OwnCalls numblocks cfg) (initial numblocks heap store) as)
    (h : run (PingPong.step cfg) (initial numblocks heap store) as = some s) :
    ReturnsCompleted cfg (initial numblocks heap store) as s := by
  intro c r hpc
  have hown := run_ownership (hok.mono fun _ _ ha => ha.2) h
  have hvalid : ValidRequests numblocks s :=
    run_invariant (fun _ _ _ hs ha ht => hs.step ha.1 (step_cases ht))
      (fun c r hr => by simp [initial, ClientPc.request] at hr) hok h
  have hacc := hvalid c r (by rw [hpc]; rfl)
  rw [← run_numblocks h] at hacc
  have hmem := (hown.owns_at hpc hacc).2
  exact ⟨hmem, completedDuring_of_mem h hmem⟩

theorem call_returns_completed_small : ∃ s : State 2 (Int → Nat) (Ptr → Nat),
    run (PingPong.step sstfConfig) (smallDisk 2)
      (callAlone 0 .read 3 64 16 ++ (callAlone 1 .write 5 80 16).take 17) = some s ∧
    ReturnsCompleted sstfConfig (smallDisk 2)
      (callAlone 0 .read 3 64 16 ++ (callAlone 1 .write 5 80 16).take 17) s ∧
    s.clients 1 = .returning ⟨1, 1, 5, 80, .write, 0⟩ := by
  have hrun : (run (PingPong.step sstfConfig) (smallDisk 2)
      (callAlone 0 .read 3 64 16 ++ (callAlone 1 .write 5 80 16).take 17)).map (·.clients 1) =
      some (.returning ⟨1, 1, 5, 80, .write, 0⟩) := by decide
  obtain ⟨s, hs, hpc⟩ := Option.map_eq_some_iff.mp hrun
  have hok : Along (PingPong.step sstfConfig) (OwnCalls 16 sstfConfig) (smallDisk 2)
      (callAlone 0 .read 3 64 16 ++ (callAlone 1 .write 5 80 16).take 17) := by decide
  exact ⟨s, hs, call_returns_completed hok hs, hpc⟩

/-- Client 1 takes `mRequest` and is woken by the completion of client 0's
request, while its own one is still in the list. -/
theorem call_returns_early :
    ¬∀ (as : List (Action 2 (Ptr → Nat))) (s : State 2 (Int → Nat) (Ptr → Nat)),
      Along (PingPong.step sstfConfig) (fun _ a => ValidCall 16 a) (smallDisk 2) as →
      run (PingPong.step sstfConfig) (smallDisk 2) as = some s →
        ReturnsCompleted sstfConfig (smallDisk 2) as s := by
  intro hall
  let r : Request := ⟨0, 0, 3, 64, .read, 0⟩
  let r' : Request := ⟨1, 1, 5, 80, .read, 0⟩
  have hrun : (run (PingPong.step sstfConfig) (smallDisk 2)
      ([.call 0 .read 3 64 16, .call 1 .read 5 80 32, .client 1, .client 1] ++
        List.replicate 11 .disk ++ [.fire, .client 1, .client 1])).map
          (fun s => (s.clients 1, s.hist)) =
      some (.returning r', [.completed r .read 3 64, .dispatched r .read 3 64 0, .removed r,
        .selected r, .enqueued r', .enqueued r]) := by decide
  obtain ⟨s, hs, hpair⟩ := Option.map_eq_some_iff.mp hrun
  obtain ⟨hpc, hhist⟩ := Prod.mk.inj hpair
  have hcompleted := (hall _ s (by decide) hs 1 r' hpc).1
  rw [hhist] at hcompleted
  exact absurd hcompleted (by decide)

end PingPong
