import PingPong.Queue
import PingPong.Refinement
import PingPong.Served

/-! The disk and the memory in the order of the calls. A request that is enqueued and
not yet carried out stands for the transfer that it will make. With these transfers
made, the store is at every moment what the calls would have left if each had been
carried out at once when it was made, whatever the policy, the order of the steps and
the clients that the completions wake. -/

namespace PingPong

open Runs Deferred

section InFlight

variable {n : Nat} {φ μ : Type}

/-- The requests enqueued and not yet carried out, the one that has left the list first. -/
def State.inFlight (s : State n φ μ) : List Request :=
  (if s.dev.busy then [s.serving] else []) ++ s.disk.inHand.toList ++ s.list.map s.heap

theorem inFlight_congr {s t : State n φ μ} (hbusy : t.dev.busy = s.dev.busy)
    (hserving : t.serving = s.serving) (hhand : t.disk.inHand = s.disk.inHand)
    (hlist : t.list = s.list) (hheap : t.heap = s.heap) : t.inFlight = s.inFlight := by
  unfold State.inFlight
  rw [hbusy, hserving, hhand, hlist, hheap]

theorem inFlight_busy {s : State n φ μ} (hs : Handshake s) (h : s.dev.busy = true) :
    s.inFlight = s.serving :: s.list.map s.heap := by
  obtain ⟨-, -, hdisp, -⟩ := hs.busy_alone h
  have hhand : s.disk.inHand = none := by
    cases hd : s.disk <;> simp_all [DiskPc.inHand, DiskPc.dispatching]
  rw [State.inFlight, h, hhand]
  rfl

theorem inFlight_dispatching {s : State n φ μ} (hs : Handshake s)
    (h : s.disk.dispatching = true) :
    s.inFlight = s.disk.inHand.toList ++ s.list.map s.heap := by
  obtain ⟨-, -, hbusy, -⟩ := hs.dispatching_alone h
  rw [State.inFlight, hbusy]
  rfl

theorem inFlight_quiet {s : State n φ μ} (hs : Handshake s)
    (hqueued : ∀ c, (s.clients c).queued = false) (hwaiting : ∀ c, (s.clients c).waiting = false) :
    s.inFlight = [] := by
  obtain ⟨hnew, hdisp, hbusy, -⟩ := hs.no_token hwaiting
  have hhand : s.disk.inHand = none := by
    cases hd : s.disk <;> simp_all [DiskPc.inHand, DiskPc.dispatching]
  have htaken : s.disk.taken = false := by
    cases hd : s.disk <;> simp_all [DiskPc.taken, DiskPc.dispatching]
  have hlen := hs.backlog
  rw [countAt_eq_zero hqueued, hnew, htaken] at hlen
  rw [State.inFlight, hbusy, hhand, List.length_eq_zero_iff.mp hlen]
  rfl

theorem inFlight_outside {s : State n φ μ} (hs : Handshake s)
    (hout : ∀ c, s.clients c = .outside) : s.inFlight = [] :=
  inFlight_quiet hs (fun c => by rw [hout c]; rfl) fun c => by rw [hout c]; rfl

theorem freed_outside {s : State n φ μ} (hs : Handshake s)
    (hout : ∀ c, s.clients c = .outside) : s.disk.freed = none := by
  have hdisp := (hs.no_token fun c => by rw [hout c]; rfl).2.1
  cases hd : s.disk <;> simp_all [DiskPc.freed, DiskPc.dispatching]

theorem inFlight_call {s t : State n φ μ} {addr : Ptr} {r : Request} (hfresh : addr ∉ s.list)
    (hdev : t.dev = s.dev) (hserving : t.serving = s.serving) (hdisk : t.disk = s.disk)
    (hlist : t.list = s.list ++ [addr]) (hheap : t.heap = Function.update s.heap addr r) :
    t.inFlight = s.inFlight ++ [r] := by
  simp only [State.inFlight, hdev, hserving, hdisk, hlist, hheap, List.map_append,
    map_heap_update r hfresh, List.map_singleton, Function.update_self, List.append_assoc]

theorem inFlight_chosen {s : State n φ μ} (hs : Handshake s) {p : Ptr}
    (hpc : s.disk = .remove p) : s.inFlight = s.list.map s.heap := by
  rw [inFlight_dispatching hs (by rw [hpc]; rfl), hpc]
  rfl

theorem inFlight_remove {s t : State n φ μ} (hs : Handshake s) {p : Ptr}
    (hpc : s.disk = .remove p) (hdev : t.dev = s.dev) (hdisk : t.disk = .askStatus p (s.heap p))
    (hlist : t.list = s.list.erase p) (hheap : t.heap = s.heap) :
    t.inFlight = s.heap p :: (s.list.erase p).map s.heap := by
  have hidle := (hs.dispatching_alone (by rw [hpc]; rfl)).2.2.1
  simp [State.inFlight, DiskPc.inHand, hdev, hdisk, hlist, hheap, hidle]

theorem inFlight_accept {s t : State n φ μ} (hs : Handshake s) {p : Ptr} {r : Request}
    (hpc : s.disk = .command p r) (hbusy : t.dev.busy = true) (hserving : t.serving = r)
    (hdisk : t.disk = .whileInit) (hlist : t.list = s.list) (hheap : t.heap = s.heap) :
    t.inFlight = s.inFlight := by
  rw [inFlight_dispatching hs (by rw [hpc]; rfl), hpc]
  simp [State.inFlight, DiskPc.inHand, hbusy, hserving, hdisk, hlist, hheap]

theorem inFlight_fire {s t : State n φ μ} (hs : Handshake s) (hbusy : s.dev.busy = true)
    (hidle : t.dev.busy = false) (hdisk : t.disk = s.disk) (hlist : t.list = s.list)
    (hheap : t.heap = s.heap) : t.inFlight = s.list.map s.heap := by
  have hdisp := (hs.busy_alone hbusy).2.2.1
  have hhand : s.disk.inHand = none := by
    cases hd : s.disk <;> simp_all [DiskPc.inHand, DiskPc.dispatching]
  rw [State.inFlight, hidle, hdisk, hhand, hlist, hheap]
  rfl

end InFlight

variable {n : Nat}

abbrev ByteState (n : Nat) := State n (Int → UInt8) (Ptr → UInt8)

def State.settled (s : ByteState n) : ByteStore := applyAll execute s.inFlight s.store

theorem settled_outside {s : ByteState n} (hs : Handshake s) (hout : ∀ c, s.clients c = .outside) :
    s.settled = s.store := by
  rw [State.settled, inFlight_outside hs hout]
  rfl

/-- A call has a valid block and a buffer that no request in flight uses, and a client
that writes to the memory leaves the buffers of the requests in flight as they are. -/
def KeepsBuffers (numblocks : Int) (s : ByteState n) : Action n (Ptr → UInt8) → Prop
  | .call _ _ block buffer _ =>
    Accepts numblocks block buffer ∧ ∀ x ∈ s.inFlight, DisjointBuffers x.buffer buffer
  | .store _ mem => ∀ x ∈ s.inFlight, bufferAt mem x.buffer = bufferAt s.store.mem x.buffer
  | _ => True

instance (numblocks : Int) (s : ByteState n) : (a : Action n (Ptr → UInt8)) →
    Decidable (KeepsBuffers numblocks s a)
  | .call _ _ block buffer _ => inferInstanceAs (Decidable (Accepts numblocks block buffer ∧
      ∀ x ∈ s.inFlight, DisjointBuffers x.buffer buffer))
  | .store _ mem => inferInstanceAs (Decidable
      (∀ x ∈ s.inFlight, bufferAt mem x.buffer = bufferAt s.store.mem x.buffer))
  | .client _ | .disk | .fire | .tick => inferInstanceAs (Decidable True)

/-- What the clients do to the store, as they do it: a call, or new values for some bytes. -/
inductive Arrival
  | call (r : Request)
  | patch (f : Ptr → Option UInt8)

def Store.patch (f : Ptr → Option UInt8) (st : ByteStore) : ByteStore :=
  { st with mem := fun q => (f q).getD (st.mem q) }

def changes (mem mem' : Ptr → UInt8) (q : Ptr) : Option UInt8 :=
  if mem' q = mem q then none else some (mem' q)

def arrival (s : ByteState n) : Action n (Ptr → UInt8) → Option Arrival
  | .call c cmd block buffer _ => some (.call ⟨s.nextId, c, block, buffer, cmd, s.systemTime⟩)
  | .store _ mem => some (.patch (changes s.store.mem mem))
  | _ => none

def arrive (st : ByteStore) : Arrival → ByteStore
  | .call r => execute r st
  | .patch f => st.patch f

def arrivalsIn (cfg : Config (Int → UInt8) (Ptr → UInt8)) (s : ByteState n)
    (as : List (Action n (Ptr → UInt8))) : List Arrival :=
  traceOf (PingPong.step cfg) arrival s as

theorem patch_changes (st : ByteStore) (mem : Ptr → UInt8) :
    st.patch (changes st.mem mem) = { st with mem := mem } := by
  refine congrArg (Store.mk st.file) (funext fun q => ?_)
  unfold changes
  split_ifs with h
  · exact h.symm
  · rfl

theorem bufferAt_eq {mem mem' : Ptr → UInt8} {p q : Ptr} (h : bufferAt mem p = bufferAt mem' p)
    (hq : InBuffer p q) : mem q = mem' q := by
  obtain ⟨hlo, hhi⟩ := hq
  have hlt : q - p < 64 := Nat.sub_lt_left_of_lt_add hlo hhi
  have heq := congrFun h ⟨q - p, hlt⟩
  simpa only [bufferAt, Nat.add_sub_cancel' hlo] using heq

theorem patch_commute {r : Request} {f : Ptr → Option UInt8}
    (h : ∀ q, InBuffer r.buffer q → f q = none) :
    Function.Commute (Store.patch f) (execute r) := by
  intro st
  unfold execute Medium.transfer Store.patch
  cases r.cTaskAction with
  | read =>
    refine congrArg (Store.mk st.file) (funext fun q => ?_)
    by_cases hq : InBuffer r.buffer q
    · simp only [read_apply, if_pos hq, h q hq, Option.getD_none]
    · simp only [read_apply, if_neg hq]
  | write =>
    refine congrArg (Store.mk · _) (funext fun o => ?_)
    simp only [write_apply]
    by_cases ho : InBlock r.block o
    · have hin := inBuffer_of_inBlock r.block r.buffer ho
      simp only [if_pos ho, h _ hin, Option.getD_none]
    · simp only [if_neg ho]

theorem mem_execute {x : Request} {q : Ptr} (h : ¬InBuffer x.buffer q) (st : ByteStore) :
    (execute x st).mem q = st.mem q := by
  unfold execute Medium.transfer
  cases x.cTaskAction with
  | read => simp only [read_apply, if_neg h]
  | write => rfl

theorem mem_applyAll {l : List Request} {q : Ptr} (h : ∀ x ∈ l, ¬InBuffer x.buffer q)
    (st : ByteStore) : (applyAll execute l st).mem q = st.mem q := by
  induction l generalizing st with
  | nil => rfl
  | cons x l ih =>
    obtain ⟨hx, hl⟩ := List.forall_mem_cons.mp h
    rw [applyAll_cons, ih hl, mem_execute hx]

theorem DisjointBuffers.not_inBuffer {p p' : Ptr} (h : DisjointBuffers p p') (i : Fin 64) :
    ¬InBuffer p (p' + i.val) := by
  have hin : InBuffer p' (p' + i.val) := ⟨Nat.le_add_right _ _, Nat.add_lt_add_left i.isLt _⟩
  exact hin.ne h.symm

theorem bufferAt_execute {x : Request} {p : Ptr} (h : DisjointBuffers x.buffer p)
    (st : ByteStore) : bufferAt (execute x st).mem p = bufferAt st.mem p :=
  funext fun i => mem_execute (h.not_inBuffer i) st

theorem bufferAt_applyAll {l : List Request} {p : Ptr}
    (h : ∀ x ∈ l, DisjointBuffers x.buffer p) (st : ByteStore) :
    bufferAt (applyAll execute l st).mem p = bufferAt st.mem p :=
  funext fun i => mem_applyAll (fun x hx => (h x hx).not_inBuffer i) st

structure Flight (numblocks : Int) (s : ByteState n) : Prop where
  valid : ∀ r ∈ s.inFlight, Accepts numblocks r.block r.buffer
  disjoint : s.inFlight.Pairwise fun a b => DisjointBuffers a.buffer b.buffer
  earliest : ∀ p, s.disk = .remove p → EarliestOfBlock (fun q => (s.heap q).block) s.list p

theorem initial_flight (numblocks : Int) (heap : Ptr → Request) (store : ByteStore) :
    Flight numblocks (initial numblocks heap store : ByteState n) where
  valid _ hr := nomatch hr
  disjoint := .nil
  earliest _ hp := nomatch hp

theorem Flight.frame {numblocks : Int} {s t : ByteState n} (hs : Flight numblocks s)
    (hflight : t.inFlight = s.inFlight) (hearliest : ∀ p, t.disk = .remove p →
      EarliestOfBlock (fun q => (t.heap q).block) t.list p) (hstore : t.store = s.store) :
    Flight numblocks t ∧ t.settled = s.settled := by
  refine ⟨⟨?_, ?_, hearliest⟩, ?_⟩
  · rw [hflight]
    exact hs.valid
  · rw [hflight]
    exact hs.disjoint
  · rw [State.settled, State.settled, hflight, hstore]

section Step

variable {cfg : Config (Int → UInt8) (Ptr → UInt8)} {numblocks : Int} {s t : ByteState n}

theorem Flight.call (hs : Flight numblocks s) (hshake : Handshake s) {addr : Ptr} {r : Request}
    (hfresh : addr ∉ s.list) (hacc : Accepts numblocks r.block r.buffer)
    (hdis : ∀ x ∈ s.inFlight, DisjointBuffers x.buffer r.buffer) (hdev : t.dev = s.dev)
    (hserving : t.serving = s.serving) (hdisk : t.disk = s.disk) (hlist : t.list = s.list ++ [addr])
    (hheap : t.heap = Function.update s.heap addr r) (hstore : t.store = s.store) :
    Flight numblocks t ∧ t.settled = execute r s.settled := by
  have hflight := inFlight_call hfresh hdev hserving hdisk hlist hheap
  refine ⟨⟨fun x hx => ?_, ?_, fun p hp => ?_⟩, ?_⟩
  · rw [hflight] at hx
    rcases List.mem_append.mp hx with hx | hx
    · exact hs.valid x hx
    · rw [List.mem_singleton.mp hx]
      exact hacc
  · rw [hflight]
    refine List.pairwise_append.mpr ⟨hs.disjoint, List.pairwise_singleton _ _, ?_⟩
    intro x hx y hy
    rw [List.mem_singleton.mp hy]
    exact hdis x hx
  · -- The new node stands behind the chosen one, at an address of its own.
    rw [hdisk] at hp
    obtain ⟨pre, post, hsplit, hpre⟩ := hs.earliest p hp
    have hne (q : Ptr) (hq : q ∈ s.list) : q ≠ addr := fun he => hfresh (he ▸ hq)
    refine ⟨pre, post ++ [addr], by rw [hlist, hsplit]; simp, fun y hy => ?_⟩
    have hy' : y ≠ addr := hne y (by rw [hsplit]; exact List.mem_append_left _ hy)
    have hp' : p ≠ addr := hne p (hshake.chosen p hp)
    simp only [hheap, Function.update_of_ne hy', Function.update_of_ne hp']
    exact hpre y hy
  · rw [State.settled, hflight, applyAll_append, hstore]
    rfl

/-- The request that leaves the list overtakes requests for other blocks only. -/
theorem Flight.remove (hs : Flight numblocks s) (hshake : Handshake s) {p : Ptr}
    (hpc : s.disk = .remove p) (hdev : t.dev = s.dev)
    (hdisk : t.disk = .askStatus p (s.heap p)) (hlist : t.list = s.list.erase p)
    (hheap : t.heap = s.heap) (hstore : t.store = s.store) :
    Flight numblocks t ∧ t.settled = s.settled := by
  obtain ⟨pre, post, hsplit, hpre⟩ := hs.earliest p hpc
  have hnot : p ∉ pre := fun hin => hpre p hin rfl
  have herase : s.list.erase p = pre ++ post := by
    rw [hsplit, List.erase_append_right _ hnot, List.erase_cons_head]
  have hold := inFlight_chosen hshake hpc
  have hnew := inFlight_remove hshake hpc hdev hdisk hlist hheap
  rw [hsplit, List.map_append, List.map_cons] at hold
  rw [herase, List.map_append] at hnew
  have hperm : t.inFlight.Perm s.inFlight := by
    rw [hold, hnew]
    exact List.perm_middle.symm
  have hdis := hs.disjoint
  rw [hold] at hdis
  refine ⟨⟨fun x hx => hs.valid x (hperm.subset hx),
    hperm.symm.pairwise hs.disjoint fun h => Or.symm h, by simp [hdisk]⟩, ?_⟩
  have hcomm (y : Request) (hy : y ∈ pre.map s.heap) :
      Function.Commute (execute (s.heap p)) (execute y) := by
    obtain ⟨q, hq, rfl⟩ := List.mem_map.mp hy
    exact execute_commute (hpre q hq).symm
      ((List.pairwise_append.mp hdis).2.2 _ hy _ (List.mem_cons_self ..)).symm
  rw [State.settled, State.settled, hnew, hold, applyAll_overtake hcomm, hstore, applyAll_cons]

/-- The device carries out what stands first, with the values that the caller gave. -/
theorem Flight.fire (hs : Flight numblocks s) (hshake : Handshake s) (hbusy : s.dev.busy = true)
    (hidle : t.dev.busy = false) (hdisk : t.disk = s.disk) (hlist : t.list = s.list)
    (hheap : t.heap = s.heap) (hstore : t.store = execute s.serving s.store) :
    Flight numblocks t ∧ t.settled = s.settled := by
  have hold := inFlight_busy hshake hbusy
  rw [← inFlight_fire hshake hbusy hidle hdisk hlist hheap] at hold
  have hvalid := hs.valid
  have hdis := hs.disjoint
  rw [hold] at hvalid hdis
  refine ⟨⟨fun x hx => ?_, ?_, ?_⟩, ?_⟩
  · exact hvalid x (List.mem_cons_of_mem _ hx)
  · exact (List.pairwise_cons.mp hdis).2
  · rw [hdisk, hlist, hheap]
    exact hs.earliest
  · rw [State.settled, State.settled, hold, applyAll_cons, hstore]

theorem Flight.store (hs : Flight numblocks s) {mem : Ptr → UInt8}
    (hkeep : ∀ x ∈ s.inFlight, bufferAt mem x.buffer = bufferAt s.store.mem x.buffer)
    (hflight : t.inFlight = s.inFlight) (hearliest : ∀ p, t.disk = .remove p →
      EarliestOfBlock (fun q => (t.heap q).block) t.list p)
    (hstore : t.store = { s.store with mem := mem }) :
    Flight numblocks t ∧ t.settled = s.settled.patch (changes s.store.mem mem) := by
  refine ⟨⟨?_, ?_, hearliest⟩, ?_⟩
  · rw [hflight]
    exact hs.valid
  · rw [hflight]
    exact hs.disjoint
  · have hcomm (x : Request) (hx : x ∈ s.inFlight) :
        Function.Commute (Store.patch (changes s.store.mem mem)) (execute x) := by
      apply patch_commute
      intro q hq
      exact if_pos (bufferAt_eq (hkeep x hx) hq)
    rw [State.settled, State.settled, hflight, hstore, commute_applyAll hcomm, patch_changes]

theorem Flight.accepted (hs : Flight numblocks s) (hshake : Handshake s) (hfaith : Faithful s)
    (hsize : s.dev.numblocks = numblocks) {p : Ptr} {r : Request} (hpc : s.disk = .command p r) :
    s.dev.status = .idle ∧ Accepts s.dev.numblocks s.mgr.iCurrBlock s.mgr.buffer := by
  have hdisp : s.disk.dispatching = true := by rw [hpc]; rfl
  have hcopied := hfaith.copied
  rw [hpc] at hcopied
  have hmem : r ∈ s.inFlight := by
    rw [inFlight_dispatching hshake hdisp, hpc]
    simp [DiskPc.inHand]
  rw [hsize, hcopied.1, hcopied.2]
  exact ⟨hshake.idle hdisp, hs.valid r hmem⟩

theorem fire_execute (hmd : cfg.md = byteMedium .wrap32)
    (hfit : numblocks * diskBlockSize ≤ intMax) (hs : Flight numblocks s) (hshake : Handshake s)
    (hfaith : Faithful s) (hans : Answered s) (hsize : s.dev.blocksize = diskBlockSize)
    (hbusy : s.dev.busy = true) {cmd : TaskCmd} (hdev : s.dev.status = cmd.busy) :
    cfg.md.transfer cmd s.dev.blocksize s.dev.nextBlock s.dev.buffer s.store =
      execute s.serving s.store := by
  obtain ⟨hcmd, hblock, hbuffer⟩ := hfaith.own _ (hans.started hbusy)
  rw [Device.command_of_busy hdev] at hcmd
  have hmem : s.serving ∈ s.inFlight := by
    rw [inFlight_busy hshake hbusy]
    exact List.mem_cons_self ..
  have hvalid := hs.valid s.serving hmem
  rw [hmd, hsize, hblock, hbuffer, hcmd]
  exact transfer_eq_execute hfit hvalid s.store

structure Sequenced (numblocks : Int) (s : ByteState n) : Prop where
  handshake : Handshake s
  faithful : Faithful s
  answered : Answered s
  size : s.dev.numblocks = numblocks
  blocksize : s.dev.blocksize = diskBlockSize
  flight : Flight numblocks s

theorem Sequenced.flight_step (hmd : cfg.md = byteMedium .wrap32)
    (hfit : numblocks * diskBlockSize ≤ intMax) (hs : Sequenced numblocks s)
    {a : Action n (Ptr → UInt8)} (hok : KeepsBuffers numblocks s a) (h : Step cfg s a t) :
    Flight numblocks t ∧ t.settled = (arrival s a).toList.foldl arrive s.settled := by
  have hflight := hs.flight
  have hshake := hs.handshake
  cases h with
  | call hr hpc hnull hfresh =>
    obtain ⟨hacc, hdis⟩ := hok
    subst hr
    exact hflight.call hshake hfresh hacc hdis rfl rfl rfl rfl rfl rfl
  | store hpc => exact hflight.store hok rfl hflight.earliest rfl
  | lock | upNew | downTreated | unlock | ret | tick =>
    exact hflight.frame rfl hflight.earliest rfl
  | enterLoop hpc | leaveLoop hpc | downNew hpc | empty hpc | nonempty hpc | isIdle hpc
  | setStart hpc | account hpc | setCurrBlock hpc | setBuffer hpc | upTreated hpc =>
    refine hflight.frame (inFlight_congr rfl rfl ?_ rfl rfl) (by simp) rfl
    rw [hpc]
    rfl
  | notIdle hpc hdev => exact absurd (hshake.idle (by rw [hpc]; rfl)) hdev
  | choose hpc hsched =>
    refine hflight.frame (inFlight_congr rfl rfl (by rw [hpc]; rfl) rfl rfl) (fun p hp => ?_) rfl
    cases hp
    exact schedChoice_earliest hsched
  | remove hpc => exact hflight.remove hshake hpc rfl rfl rfl rfl rfl
  | accept hpc =>
    refine hflight.frame (inFlight_accept hshake hpc ?_ rfl rfl rfl rfl) (by simp) rfl
    exact Device.busy_iff.mpr (TaskCmd.busy_status _)
  | refuse hpc hrej => exact absurd (hflight.accepted hshake hs.faithful hs.size hpc) hrej
  | fire htimer hdev =>
    have hbusy : s.dev.busy = true := hshake.timer ▸ htimer
    exact hflight.fire hshake hbusy rfl rfl rfl rfl
      (fire_execute hmd hfit hflight hshake hs.faithful hs.answered hs.blocksize hbusy hdev)

theorem Sequenced.step (hmd : cfg.md = byteMedium .wrap32)
    (hfit : numblocks * diskBlockSize ≤ intMax) (hs : Sequenced numblocks s)
    {a : Action n (Ptr → UInt8)} (hdis : KeepsDispatch s a) (hok : KeepsBuffers numblocks s a)
    (h : Step cfg s a t) :
    Sequenced numblocks t ∧ t.settled = (arrival s a).toList.foldl arrive s.settled := by
  obtain ⟨hflight, hsettled⟩ := hs.flight_step hmd hfit hok h
  exact ⟨⟨hs.handshake.step h, hs.faithful.step hdis h, hs.answered.step hs.handshake h,
    h.numblocks.trans hs.size, h.blocksize.trans hs.blocksize, hflight⟩, hsettled⟩

end Step

theorem initial_sequenced (numblocks : Int) (heap : Ptr → Request) (store : ByteStore) :
    Sequenced numblocks (initial numblocks heap store : ByteState n) :=
  ⟨initial_handshake numblocks heap store, initial_faithful numblocks heap store,
    initial_answered numblocks heap store, rfl, rfl, initial_flight numblocks heap store⟩

def Careful (numblocks : Int) (s : ByteState n) (a : Action n (Ptr → UInt8)) : Prop :=
  KeepsDispatch s a ∧ KeepsBuffers numblocks s a

instance (numblocks : Int) (s : ByteState n) (a : Action n (Ptr → UInt8)) :
    Decidable (Careful numblocks s a) := inferInstanceAs (Decidable (_ ∧ _))

/-- In every run in which the clients leave the buffers in flight alone, the store with the
requests in flight carried out is the one that the calls make in the order in which they
are made; when no client is in a call, the store itself is. -/
theorem calls_in_order {cfg : Config (Int → UInt8) (Ptr → UInt8)}
    (hmd : cfg.md = byteMedium .wrap32) {numblocks : Int}
    (hfit : numblocks * diskBlockSize ≤ intMax) {heap : Ptr → Request} {store : ByteStore}
    {as : List (Action n (Ptr → UInt8))} {s : ByteState n}
    (hok : Along (PingPong.step cfg) (Careful numblocks) (initial numblocks heap store) as)
    (h : run (PingPong.step cfg) (initial numblocks heap store) as = some s) :
    s.settled = (arrivalsIn cfg (initial numblocks heap store) as).foldl arrive store ∧
    ((∀ c, s.clients c = .outside) →
      s.store = (arrivalsIn cfg (initial numblocks heap store) as).foldl arrive store) := by
  have hstart : Sequenced numblocks (initial numblocks heap store : ByteState n) ∧
      (initial numblocks heap store : ByteState n).settled = [].foldl arrive store :=
    ⟨initial_sequenced numblocks heap store, rfl⟩
  have hinv : Sequenced numblocks s ∧
      s.settled = (arrivalsIn cfg (initial numblocks heap store) as).foldl arrive store :=
    trace_invariant (P := fun s seen => Sequenced numblocks s ∧
      s.settled = seen.foldl arrive store) (fun _ _ _ _ hs hok ht => by
        obtain ⟨hseq, hsettled⟩ := hs.1.step hmd hfit hok.1 hok.2 (step_cases ht)
        exact ⟨hseq, by rw [hsettled, hs.2, List.foldl_append]⟩) hstart hok h
  exact ⟨hinv.2, fun hout => (settled_outside hinv.1.handshake hout).symm.trans hinv.2⟩

/-- The completion of the write wakes the reader, whose own transfer comes after its return. -/
theorem calls_in_order_small : ∃ s : ByteState 2,
    run (PingPong.step byteConfig) (initial 16 (fun _ => ⟨0, 0, 0, 0, .read, 0⟩)
      ⟨fun _ => 0, fun p => p.toUInt8⟩) (crossedCalls 0 1 .write 3) = some s ∧
    s.store = execute ⟨1, 1, 3, 200, .read, 0⟩ (execute ⟨0, 0, 3, 64, .write, 0⟩
      ⟨fun _ => 0, fun p => p.toUInt8⟩) := by
  have hok : Along (PingPong.step byteConfig) (Careful 16) (initial 16
      (fun _ => ⟨0, 0, 0, 0, .read, 0⟩) ⟨fun _ => 0, fun p => p.toUInt8⟩ : ByteState 2)
      (crossedCalls 0 1 .write 3) := by decide
  have hrun : (run (PingPong.step byteConfig) (initial 16 (fun _ => ⟨0, 0, 0, 0, .read, 0⟩)
      ⟨fun _ => 0, fun p => p.toUInt8⟩ : ByteState 2) (crossedCalls 0 1 .write 3)).map
      (fun s => decide (∀ c, s.clients c = .outside)) = some true := by decide
  obtain ⟨s, hs, hout⟩ := Option.map_eq_some_iff.mp hrun
  exact ⟨s, hs, (calls_in_order rfl (by decide) hok hs).2 (of_decide_eq_true hout)⟩

end PingPong
