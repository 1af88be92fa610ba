import PingPong.Steps

/-! The two-semaphore handshake. One token travels from the client that posted
`newReqsSem` through the disk task and the device to `treatedReqSem`, and the
request list holds one node for every dispatch still to be made. The branches of
`diskScheduler` for an empty list and for a busy device are therefore dead. -/

namespace PingPong

open Runs

variable {n : Nat} {φ μ : Type}

/-- The client has enqueued its request and not yet posted `newReqsSem`. -/
def ClientPc.queued : ClientPc → Bool
  | .lockRequest _ | .upNewReqs _ => true
  | _ => false

/-- The client has posted `newReqsSem` and not yet passed its `sem_down`. -/
def ClientPc.waiting : ClientPc → Bool
  | .downTreated _ => true
  | _ => false

def ClientPc.holding : ClientPc → Bool
  | .upNewReqs _ | .downTreated _ | .unlockRequest _ => true
  | _ => false

/-- Between `sem_down(newReqsSem)` and the end of the dispatch. -/
def DiskPc.dispatching : DiskPc → Bool
  | .whileInit | .downNewReqs | .exited => false
  | _ => true

/-- `newReqsSem` is taken, and no node has been removed for it yet. -/
def DiskPc.taken : DiskPc → Bool
  | .checkEmpty | .choose | .remove _ => true
  | _ => false

structure Handshake (s : State n φ μ) : Prop where
  holder : ∀ c, (s.clients c).holding = true ↔ s.mRequest = some c
  token : s.newReqsSem + s.disk.dispatching.toNat + s.dev.busy.toNat + s.treatedReqSem =
    countAt ClientPc.waiting s.clients
  backlog : s.list.length =
    countAt ClientPc.queued s.clients + s.newReqsSem + s.disk.taken.toNat
  chosen : ∀ p, s.disk = .remove p → p ∈ s.list
  init : s.mgr.init = true
  timer : s.dev.timer = s.dev.busy
  known : s.dev.status ≠ .unknown

theorem waiting_holding {pc : ClientPc} (h : pc.waiting = true) : pc.holding = true := by
  cases pc <;> simp_all [ClientPc.waiting, ClientPc.holding]

theorem Handshake.waiting_eq {s : State n φ μ} (hs : Handshake s) :
    countAt ClientPc.waiting s.clients = if ∃ c, (s.clients c).waiting = true then 1 else 0 := by
  apply countAt_of_unique
  intro i j hi hj
  have hci := (hs.holder i).mp (waiting_holding hi)
  have hcj := (hs.holder j).mp (waiting_holding hj)
  exact Option.some.inj (hci.symm.trans hcj)

theorem Device.not_busy {d : Device} (h : d.busy = false) :
    d.status = .idle ∨ d.status = .unknown := by
  cases hd : d.status <;> simp_all [Device.busy]

/-- While the disk task dispatches, it holds the token of a waiting client. -/
theorem Handshake.dispatching_alone {s : State n φ μ} (hs : Handshake s)
    (h : s.disk.dispatching = true) :
    (∃ c, (s.clients c).waiting = true) ∧ s.newReqsSem = 0 ∧ s.dev.busy = false ∧
      s.treatedReqSem = 0 := by
  have htoken := hs.token
  rw [h, hs.waiting_eq, Bool.toNat_true] at htoken
  split_ifs at htoken with hex
  · have hzero : s.dev.busy.toNat = 0 := by omega
    exact ⟨hex, by omega, Bool.toNat_eq_zero.mp hzero, by omega⟩
  · omega

theorem Handshake.no_token {s : State n φ μ} (hs : Handshake s)
    (h : ∀ c, (s.clients c).waiting = false) :
    s.newReqsSem = 0 ∧ s.disk.dispatching = false ∧ s.dev.busy = false ∧ s.treatedReqSem = 0 := by
  have htoken := hs.token
  rw [countAt_eq_zero h] at htoken
  have hdisp : s.disk.dispatching.toNat = 0 := by omega
  have hbusy : s.dev.busy.toNat = 0 := by omega
  exact ⟨by omega, Bool.toNat_eq_zero.mp hdisp, Bool.toNat_eq_zero.mp hbusy, by omega⟩

/-- While the device works, it holds the token of a waiting client. -/
theorem Handshake.busy_alone {s : State n φ μ} (hs : Handshake s) (h : s.dev.busy = true) :
    (∃ c, (s.clients c).waiting = true) ∧ s.newReqsSem = 0 ∧ s.disk.dispatching = false ∧
      s.treatedReqSem = 0 := by
  have htoken := hs.token
  rw [h, hs.waiting_eq, Bool.toNat_true] at htoken
  split_ifs at htoken with hex
  · have hzero : s.disk.dispatching.toNat = 0 := by omega
    exact ⟨hex, by omega, Bool.toNat_eq_zero.mp hzero, by omega⟩
  · omega

theorem Handshake.holding_unique {s : State n φ μ} (hs : Handshake s) {c i : Fin n}
    (hc : (s.clients c).holding = true) (hi : (s.clients i).holding = true) : c = i :=
  Option.some.inj (((hs.holder c).mp hc).symm.trans ((hs.holder i).mp hi))

theorem Handshake.idle {s : State n φ μ} (hs : Handshake s) (h : s.disk.dispatching = true) :
    s.dev.status = .idle :=
  (Device.not_busy (hs.dispatching_alone h).2.2.1).resolve_right hs.known

theorem Handshake.list_ne_nil {s : State n φ μ} (hs : Handshake s) (h : s.disk.taken = true) :
    s.list ≠ [] := by
  intro hnil
  have hlen := hs.backlog
  simp only [hnil, h, List.length_nil, Bool.toNat_true] at hlen
  omega

theorem initial_handshake (numblocks : Int) (heap : Ptr → Request) (store : Store φ μ) :
    Handshake (initial numblocks heap store : State n φ μ) where
  holder c := by simp [initial, ClientPc.holding]
  token := by
    rw [countAt_eq_zero fun _ => rfl]
    rfl
  backlog := by
    rw [countAt_eq_zero fun _ => rfl]
    rfl
  chosen p hp := by simp [initial] at hp
  init := rfl
  timer := rfl
  known := by simp [initial, Device.start]

theorem Handshake.holder_at {s : State n φ μ} (hs : Handshake s) {c : Fin n} {pc pc' : ClientPc}
    (hpc : s.clients c = pc) (h : pc'.holding = pc.holding) :
    pc'.holding = true ↔ s.mRequest = some c := by
  rw [h, ← hpc]
  exact hs.holder c

theorem Handshake.token_at {s : State n φ μ} (hs : Handshake s) {pc pc' : DiskPc}
    (hpc : s.disk = pc) (h : pc'.dispatching = pc.dispatching) :
    s.newReqsSem + pc'.dispatching.toNat + s.dev.busy.toNat + s.treatedReqSem =
      countAt ClientPc.waiting s.clients := by
  rw [h, ← hpc]
  exact hs.token

theorem Handshake.backlog_at {s : State n φ μ} (hs : Handshake s) {pc pc' : DiskPc}
    (hpc : s.disk = pc) (h : pc'.taken = pc.taken) :
    s.list.length = countAt ClientPc.queued s.clients + s.newReqsSem + pc'.taken.toNat := by
  rw [h, ← hpc]
  exact hs.backlog

theorem Handshake.moveClient {s t : State n φ μ} (hs : Handshake s) {c : Fin n} {pc pc' : ClientPc}
    (hpc : s.clients c = pc) (hclients : t.clients = Function.update s.clients c pc')
    (hdisk : t.disk = s.disk) (hdev : t.dev = s.dev) (hmgr : t.mgr = s.mgr)
    (hself : pc'.holding = true ↔ t.mRequest = some c)
    (hother : ∀ i, i ≠ c → (t.mRequest = some i ↔ s.mRequest = some i))
    (htoken : t.newReqsSem + t.treatedReqSem + pc.waiting.toNat =
      s.newReqsSem + s.treatedReqSem + pc'.waiting.toNat)
    (hbacklog : t.list.length + pc.queued.toNat + s.newReqsSem =
      s.list.length + pc'.queued.toNat + t.newReqsSem)
    (hlist : s.list ⊆ t.list) : Handshake t where
  holder := hclients ▸ holder_update (p := ClientPc.holding) hs.holder hself hother
  token := by
    have hold := hs.token
    have hcount := countAt_update (x := pc') ClientPc.waiting hpc
    rw [hclients, hdisk, hdev]
    omega
  backlog := by
    have hold := hs.backlog
    have hcount := countAt_update (x := pc') ClientPc.queued hpc
    rw [hclients, hdisk]
    omega
  chosen p hp := hlist (hs.chosen p (hdisk ▸ hp))
  init := hmgr ▸ hs.init
  timer := hdev ▸ hs.timer
  known := hdev ▸ hs.known

/-- The disk task moves between two statements that change neither the list nor
the device nor a semaphore. -/
theorem Handshake.moveDisk {s : State n φ μ} (hs : Handshake s) {pc : DiskPc} {mgr : Manager}
    {hist : List Event} (hinit : mgr.init = s.mgr.init)
    (hdisp : pc.dispatching = s.disk.dispatching) (htaken : pc.taken = s.disk.taken)
    (hchosen : ∀ p, pc = .remove p → p ∈ s.list) :
    Handshake { s with mgr := mgr, disk := pc, hist := hist } where
  holder := hs.holder
  token := hs.token_at rfl hdisp
  backlog := hs.backlog_at rfl htaken
  chosen := hchosen
  init := hinit.trans hs.init
  timer := hs.timer
  known := hs.known

theorem Handshake.step {cfg : Config φ μ} {s t : State n φ μ} {a : Action n μ}
    (hs : Handshake s) (h : Step cfg s a t) : Handshake t := by
  cases h with
  | call _ hpc =>
    exact hs.moveClient hpc rfl rfl rfl rfl (hs.holder_at hpc rfl) (fun _ _ => Iff.rfl) rfl
      (by simp [ClientPc.queued]) (List.subset_append_left _ _)
  | lock hpc hfree =>
    refine hs.moveClient hpc rfl rfl rfl rfl (by simp [ClientPc.holding]) (fun i hi => ?_) rfl rfl
      (List.Subset.refl _)
    simp [hfree, Ne.symm hi]
  | upNew hpc =>
    exact hs.moveClient hpc rfl rfl rfl rfl (hs.holder_at hpc rfl) (fun _ _ => Iff.rfl)
      (by simp [ClientPc.waiting]; omega) (by simp [ClientPc.queued]; omega) (List.Subset.refl _)
  | downTreated hpc hsem =>
    exact hs.moveClient hpc rfl rfl rfl rfl (hs.holder_at hpc rfl) (fun _ _ => Iff.rfl)
      (by simp [ClientPc.waiting]; omega) rfl (List.Subset.refl _)
  | unlock hpc =>
    have hc := (hs.holder_at hpc rfl).mp rfl
    refine hs.moveClient hpc rfl rfl rfl rfl (by simp [ClientPc.holding]) (fun i hi => ?_) rfl rfl
      (List.Subset.refl _)
    simp [hc, Ne.symm hi]
  | ret hpc =>
    exact hs.moveClient hpc rfl rfl rfl rfl (hs.holder_at hpc rfl) (fun _ _ => Iff.rfl) rfl rfl
      (List.Subset.refl _)
  | store | tick => exact ⟨hs.holder, hs.token, hs.backlog, hs.chosen, hs.init, hs.timer, hs.known⟩
  | enterLoop hpc | nonempty hpc | isIdle hpc | setStart hpc | account hpc | setCurrBlock hpc
  | setBuffer hpc =>
    exact hs.moveDisk rfl (by rw [hpc]; rfl) (by rw [hpc]; rfl) (by simp)
  | leaveLoop _ hinit => simp [hs.init] at hinit
  | downNew hpc hsem =>
    refine ⟨hs.holder, ?_, ?_, by simp, hs.init, hs.timer, hs.known⟩
    · have hold := hs.token_at hpc rfl
      simp only [DiskPc.dispatching, Bool.toNat_false, Bool.toNat_true] at hold ⊢
      omega
    · have hold := hs.backlog_at hpc rfl
      simp only [DiskPc.taken, Bool.toNat_false, Bool.toNat_true] at hold ⊢
      omega
  | empty hpc hlist => exact absurd hlist (hs.list_ne_nil (by rw [hpc]; rfl))
  | choose hpc hsched =>
    refine hs.moveDisk rfl (by rw [hpc]; rfl) (by rw [hpc]; rfl) (fun p hp => ?_)
    cases hp
    exact (schedChoice_earliest hsched).mem
  | remove hpc =>
    refine ⟨hs.holder, hs.token_at hpc rfl, ?_, by simp, hs.init, hs.timer, hs.known⟩
    have hold := hs.backlog_at hpc rfl
    have hmem := hs.chosen _ hpc
    have hpos := List.length_pos_of_mem hmem
    simp only [DiskPc.taken, List.length_erase_of_mem hmem, Bool.toNat_false,
      Bool.toNat_true] at hold ⊢
    omega
  | notIdle hpc hdev => exact absurd (hs.idle (by rw [hpc]; rfl)) hdev
  | @accept p r hpc hdev hacc =>
    have hstatus := (s.heap p).cTaskAction.busy_status
    refine ⟨hs.holder, ?_, hs.backlog_at hpc rfl, by simp, hs.init, ?_, ?_⟩
    · have hold := hs.token_at hpc rfl
      have hidle : s.dev.busy = false := by simp [Device.busy, hdev]
      simp only [hidle, DiskPc.dispatching, Bool.toNat_false, Bool.toNat_true] at hold ⊢
      rw [Device.busy_iff.mpr hstatus, Bool.toNat_true]
      omega
    · exact (Device.busy_iff.mpr hstatus).symm
    · rcases hstatus with h | h <;> simp [h]
  | refuse hpc =>
    exact ⟨hs.holder, hs.token_at hpc rfl, hs.backlog_at hpc rfl, by simp, hs.init, hs.timer,
      hs.known⟩
  | upTreated hpc =>
    refine ⟨hs.holder, ?_, hs.backlog_at hpc rfl, by simp, hs.init, hs.timer, hs.known⟩
    have hold := hs.token_at hpc rfl
    simp only [DiskPc.dispatching, Bool.toNat_false, Bool.toNat_true] at hold ⊢
    omega
  | fire htimer =>
    refine ⟨hs.holder, ?_, hs.backlog, hs.chosen, hs.init, rfl, by simp⟩
    have hold := hs.token
    have hwas : s.dev.busy = true := hs.timer ▸ htimer
    simp only [hwas, Bool.toNat_true] at hold
    simp only [Device.busy, reduceCtorEq, decide_false, Bool.or_false, Bool.toNat_false]
    omega

theorem run_handshake {cfg : Config φ μ} {numblocks : Int} {heap : Ptr → Request}
    {store : Store φ μ} {as : List (Action n μ)} {s : State n φ μ}
    (h : run (PingPong.step cfg) (initial numblocks heap store) as = some s) : Handshake s :=
  run_invariant (fun _ _ _ hs _ ht => hs.step (step_cases ht))
    (initial_handshake numblocks heap store) (along_trivial _ _ as) h

/-- In every reachable state the token is in one place while a client waits and
nowhere otherwise, the list holds one node for each dispatch to come, and the
dead branches of `diskScheduler` and `disk_sighandle` are not reached. -/
theorem request_handshake {cfg : Config φ μ} {numblocks : Int} {heap : Ptr → Request}
    {store : Store φ μ} {as : List (Action n μ)} {s : State n φ μ}
    (h : run (PingPong.step cfg) (initial numblocks heap store) as = some s) :
    (s.newReqsSem + s.disk.dispatching.toNat + s.dev.busy.toNat + s.treatedReqSem =
      if ∃ c, (s.clients c).waiting = true then 1 else 0) ∧
    s.list.length =
      countAt ClientPc.queued s.clients + s.newReqsSem + s.disk.taken.toNat ∧
    (s.disk = .checkEmpty → s.list ≠ []) ∧
    (s.disk.dispatching = true → s.dev.status = .idle) ∧
    (s.dev.timer = true → (diskSighandle cfg.md s.dev s.store).isSome = true) := by
  have hs := run_handshake h
  refine ⟨hs.token.trans hs.waiting_eq, hs.backlog, ?_, hs.idle, ?_⟩
  · intro hpc
    exact hs.list_ne_nil (by rw [hpc]; rfl)
  · intro htimer
    rcases Device.busy_iff.mp (hs.timer ▸ htimer) with hdev | hdev <;>
      simp [diskSighandle, hdev]

theorem request_handshake_small : ∃ s : State 1 (Int → Nat) (Ptr → Nat),
    run (PingPong.step sstfConfig) (smallDisk 1) ((callAlone 0 .read 3 64 16).take 14) = some s ∧
    (s.newReqsSem + s.disk.dispatching.toNat + s.dev.busy.toNat + s.treatedReqSem =
      if ∃ c, (s.clients c).waiting = true then 1 else 0) ∧
    (s.dev.timer = true → (diskSighandle sstfConfig.md s.dev s.store).isSome = true) := by
  have hrun : (run (PingPong.step sstfConfig) (smallDisk 1)
      ((callAlone 0 .read 3 64 16).take 14)).isSome = true := by decide
  obtain ⟨s, hs⟩ := Option.isSome_iff_exists.mp hrun
  have hshake := request_handshake hs
  exact ⟨s, hs, hshake.1, hshake.2.2.2.2⟩

end PingPong
