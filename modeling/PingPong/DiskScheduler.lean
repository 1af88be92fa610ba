import PingPong.Shutdown

/-! `diskScheduler` as one call. `disk_cmd` is a parameter, so that its answers are
arbitrary; with `diskCmd` the call does what the disk task's statements do one after the
other. -/

namespace PingPong

open Runs

/-- What `diskScheduler` reads and writes; `dev` is the state behind `disk_cmd`. -/
structure Scheduling (σ : Type*) where
  mgr : Manager
  list : List Ptr
  heap : Ptr → Request
  treatedReqSem : Nat
  systemTime : Int
  dev : σ

structure Given where
  cmd : DiskCmd
  block : Int
  buffer : Ptr
  ret : Int
  deriving DecidableEq, Repr

/-- The end of a call, with the commands that it gave and their answers, in order. -/
structure Ended (σ : Type*) where
  ret : Int
  state : Scheduling σ
  given : List Given

section Scheduler

variable {σ : Type*} (diskCmd : DiskCmd → Int → Ptr → σ → σ × Int) (ia : IntArith)

/-- From `disk_cmd(DISK_CMD_STATUS)` on; the node `p` is `pstNextReq`. -/
def dispatchNext (p : Ptr) (s : Scheduling σ) : Ended σ :=
  let asked := diskCmd .status 0 0 s.dev
  let s := { s with dev := asked.1, mgr := { s.mgr with status := asked.2 } }
  if DiskStatus.idle.code ≠ s.mgr.status then ⟨-1, s, [⟨.status, 0, 0, asked.2⟩]⟩
  else
    let s := { s with mgr := { s.mgr with
      startingTime := wrapInt s.systemTime
      totalBlockAccess := ia.add s.mgr.totalBlockAccess
        (ia.abs (ia.sub (s.heap p).block s.mgr.iCurrBlock))
      iCurrBlock := (s.heap p).block
      buffer := (s.heap p).buffer } }
    let cmd := (s.heap p).cTaskAction.toDiskCmd
    let moved := diskCmd cmd s.mgr.iCurrBlock s.mgr.buffer s.dev
    let s := { s with dev := moved.1 }
    let given : List Given :=
      [⟨.status, 0, 0, asked.2⟩, ⟨cmd, s.mgr.iCurrBlock, s.mgr.buffer, moved.2⟩]
    if moved.2 ≠ 0 then ⟨-1, { s with treatedReqSem := s.treatedReqSem + 1 }, given⟩
    else ⟨0, s, given⟩

def Scheduling.remove (alg : DiskAlgorithm) (p : Ptr) (s : Scheduling σ) : Scheduling σ :=
  { s with mgr := { s.mgr with enAlgorithm := alg }, list := s.list.erase p }

/-- `none` is a node taken from an empty list. -/
def diskScheduler (alg : DiskAlgorithm) (s : Scheduling σ) : Option (Ended σ) :=
  if s.list = [] then some ⟨0, s, []⟩
  else
    (schedChoice ia (fun p => (s.heap p).block) s.mgr.iCurrBlock alg s.list).map fun p =>
      dispatchNext diskCmd ia p (s.remove alg p)

/-- A request that was taken off the list has been accepted or posted, and a call that
finds the device not idle has left the list alone. -/
structure Accounts (s : Scheduling σ) (e : Ended σ) : Prop where
  removed : ∀ p ∈ s.list, e.state.list = s.list.erase p →
    ⟨(s.heap p).cTaskAction.toDiskCmd, (s.heap p).block, (s.heap p).buffer, 0⟩ ∈ e.given ∨
      e.state.treatedReqSem = s.treatedReqSem + 1
  failed : e.ret ≠ 0 → (∃ status, ⟨.status, 0, 0, status⟩ ∈ e.given ∧
    status ≠ DiskStatus.idle.code) → e.state.list = s.list

def AccountsForRequests (alg : DiskAlgorithm) (s : Scheduling σ) : Prop :=
  ∃ e, diskScheduler diskCmd ia alg s = some e ∧ Accounts s e

variable {s : Scheduling σ} {p : Ptr}

theorem diskScheduler_nonempty (alg : DiskAlgorithm) (hne : s.list ≠ []) :
    ∃ p ∈ s.list, diskScheduler diskCmd ia alg s =
      some (dispatchNext diskCmd ia p (s.remove alg p)) := by
  have hsome : ∃ p, schedChoice ia (fun p => (s.heap p).block) s.mgr.iCurrBlock alg s.list =
      some p := schedChoice_isSome _ _ _ hne
  obtain ⟨p, hp⟩ := hsome
  refine ⟨p, (schedChoice_earliest hp).mem, ?_⟩
  simp only [diskScheduler, if_neg hne, hp, Option.map_some]

variable {diskCmd ia}

theorem erase_inj_of_mem {l : List Ptr} {q : Ptr} (hp : p ∈ l) (he : l.erase p = l.erase q) :
    p = q := by
  by_contra hne
  have hcount := congrArg (List.count p) he
  rw [List.count_erase_self, List.count_erase_of_ne hne] at hcount
  have hpos := List.count_pos_iff.mpr hp
  omega

theorem dispatchNext_list : (dispatchNext diskCmd ia p s).state.list = s.list := by
  simp only [dispatchNext]
  split_ifs <;> rfl

/-- The request that is removed while the device is not idle gets no command and no
post. -/
theorem dispatchNext_busy (hbusy : (diskCmd .status 0 0 s.dev).2 ≠ DiskStatus.idle.code) :
    (dispatchNext diskCmd ia p s).ret = -1 ∧
      (dispatchNext diskCmd ia p s).state.treatedReqSem = s.treatedReqSem ∧
      (dispatchNext diskCmd ia p s).given = [⟨.status, 0, 0, (diskCmd .status 0 0 s.dev).2⟩] := by
  have hend : dispatchNext diskCmd ia p s = ⟨-1, { s with
      dev := (diskCmd .status 0 0 s.dev).1
      mgr := { s.mgr with status := (diskCmd .status 0 0 s.dev).2 } },
      [⟨.status, 0, 0, (diskCmd .status 0 0 s.dev).2⟩]⟩ := if_pos hbusy.symm
  rw [hend]
  exact ⟨rfl, rfl, rfl⟩

theorem dispatchNext_idle (hidle : (diskCmd .status 0 0 s.dev).2 = DiskStatus.idle.code) :
    ∃ ret, (dispatchNext diskCmd ia p s).given =
        [⟨.status, 0, 0, DiskStatus.idle.code⟩, ⟨(s.heap p).cTaskAction.toDiskCmd,
          (s.heap p).block, (s.heap p).buffer, ret⟩] ∧
      (ret = 0 ∨ (dispatchNext diskCmd ia p s).state.treatedReqSem = s.treatedReqSem + 1) := by
  have hnot : ¬DiskStatus.idle.code ≠ (diskCmd .status 0 0 s.dev).2 := not_not_intro hidle.symm
  simp only [dispatchNext, if_neg hnot]
  split_ifs with hret
  · exact ⟨_, by rw [hidle], .inr rfl⟩
  · exact ⟨_, by rw [hidle], .inl (not_not.mp hret)⟩

theorem toDiskCmd_ne_status (cmd : TaskCmd) : cmd.toDiskCmd ≠ .status := by
  cases cmd <;> decide

theorem accounts_of_idle (alg : DiskAlgorithm) (hp : p ∈ s.list)
    (hidle : (diskCmd .status 0 0 s.dev).2 = DiskStatus.idle.code) :
    Accounts s (dispatchNext diskCmd ia p (s.remove alg p)) := by
  obtain ⟨ret, hgiven, hret⟩ :
      ∃ ret, (dispatchNext diskCmd ia p (s.remove alg p)).given = _ ∧ _ :=
    dispatchNext_idle hidle
  constructor
  · intro q hq he
    rw [dispatchNext_list] at he
    obtain rfl := erase_inj_of_mem hp he
    rw [hgiven]
    rcases hret with rfl | hpost
    · exact .inl (List.mem_cons_of_mem _ List.mem_cons_self)
    · exact .inr hpost
  · rintro - ⟨status, hmem, hstatus⟩
    rw [hgiven] at hmem
    rcases List.mem_cons.mp hmem with he | hmem
    · exact absurd (congrArg Given.ret he) hstatus
    · have he := List.mem_singleton.mp hmem
      exact absurd (congrArg Given.cmd he).symm (toDiskCmd_ne_status _)

theorem not_accounts_of_busy (alg : DiskAlgorithm) (hp : p ∈ s.list)
    (hbusy : (diskCmd .status 0 0 s.dev).2 ≠ DiskStatus.idle.code) :
    ¬Accounts s (dispatchNext diskCmd ia p (s.remove alg p)) := by
  intro hacc
  obtain ⟨hret, -, hgiven⟩ : (dispatchNext diskCmd ia p (s.remove alg p)).ret = -1 ∧ _ ∧ _ :=
    dispatchNext_busy hbusy
  have hfail : (dispatchNext diskCmd ia p (s.remove alg p)).ret ≠ 0 := by
    rw [hret]
    decide
  have hlist := hacc.failed hfail ⟨_, hgiven ▸ List.mem_cons_self, hbusy⟩
  rw [dispatchNext_list] at hlist
  have hlen := congrArg List.length hlist
  rw [show (s.remove alg p).list = s.list.erase p from rfl, List.length_erase_of_mem hp] at hlen
  have hpos := List.length_pos_of_mem hp
  omega

/-- A call accounts for every request exactly when it has none to remove or finds the
device idle. -/
theorem diskScheduler_accounts (diskCmd : DiskCmd → Int → Ptr → σ → σ × Int) (ia : IntArith)
    (alg : DiskAlgorithm) (s : Scheduling σ) : AccountsForRequests diskCmd ia alg s ↔
      s.list = [] ∨ (diskCmd .status 0 0 s.dev).2 = DiskStatus.idle.code := by
  by_cases hne : s.list = []
  · refine iff_of_true ⟨⟨0, s, []⟩, if_pos hne, ?_, fun hret => absurd rfl hret⟩ (.inl hne)
    intro p hp
    rw [hne] at hp
    exact absurd hp List.not_mem_nil
  · obtain ⟨p, hp, hcall⟩ := diskScheduler_nonempty diskCmd ia alg hne
    constructor
    · rintro ⟨e, he, hacc⟩
      obtain rfl := Option.some.inj (hcall.symm.trans he)
      by_contra hcond
      exact not_accounts_of_busy alg hp (fun hidle => hcond (.inr hidle)) hacc
    · intro hcond
      exact ⟨_, hcall, accounts_of_idle alg hp (hcond.resolve_left hne)⟩

end Scheduler

def busyCall : Scheduling Device where
  mgr := Manager.start 16
  list := [24]
  heap _ := ⟨2, 1, 5, 64, .read, 0⟩
  treatedReqSem := 0
  systemTime := 0
  dev := { Device.start 1024 16 with status := .read, timer := true }

/-- A request for a device that is reading another block is gone: the device was not
asked for it and its caller is not woken. -/
theorem diskScheduler_loses_request :
    ¬∀ s : Scheduling Device, AccountsForRequests diskCmd .wrap32 .sstf s := by
  intro hall
  obtain ⟨e, he, hacc⟩ := hall busyCall
  have hrun : (diskScheduler diskCmd .wrap32 .sstf busyCall).map
      (fun e => (e.ret, e.state.list, e.state.treatedReqSem, e.given)) =
        some (-1, [], 0, [⟨.status, 0, 0, 2⟩]) := by decide
  rw [he, Option.map_some, Option.some.injEq] at hrun
  simp only [Prod.mk.injEq] at hrun
  obtain ⟨-, hlist, hpost, hgiven⟩ := hrun
  rcases hacc.removed 24 (by decide) hlist with hmem | hup
  · rw [hgiven] at hmem
    exact absurd hmem (by decide)
  · rw [hpost] at hup
    exact absurd hup (by decide)

-- The main task exits while a request is in the device and another one is pending, and a
-- third task calls before the disk task looks at the list.
example : ((run (step sstfConfig) (smallDisk 3)
    ([.call 0 .read 3 64 16, .client 0, .client 0] ++ List.replicate 12 .disk ++
      [.call 1 .read 9 128 24])).bind fun s =>
        (run (closingStep sstfConfig none) (finishDiskTask s).1
          [.call 2 .read 5 192 32, .disk]).map fun u => (u.disk, u.list, u.dev.status)) =
    some (.checkEmpty, [32], .read) := by decide

section Steps

variable {n : Nat} {φ μ : Type}

def State.scheduling (s : State n φ μ) : Scheduling Device :=
  ⟨s.mgr, s.list, s.heap, s.treatedReqSem, s.systemTime, s.dev⟩

def diskAlone (cfg : Config φ μ) (s : State n φ μ) (_ : Unit) : Option (State n φ μ) :=
  diskStep cfg s

theorem Step.alone {cfg : Config φ μ} {s t : State n φ μ} {P : State n φ μ → Prop}
    (h : Step cfg s .disk t) (hrest : Reaches (diskAlone cfg) t P) :
    Reaches (diskAlone cfg) s P :=
  .head (a := ()) h.enabled hrest

theorem dispatchNext_steps {cfg : Config φ μ} {s : State n φ μ} {p : Ptr}
    (hpc : s.disk = .askStatus p (s.heap p)) :
    Reaches (diskAlone cfg) s fun t => t.disk = .whileInit ∧
      t.scheduling = (dispatchNext diskCmd cfg.ia p s.scheduling).state := by
  have hstatus : diskCmd .status 0 0 s.dev = (s.dev, s.dev.status.code) := rfl
  by_cases hidle : s.dev.status = .idle
  · have hcode : ¬DiskStatus.idle.code ≠ s.dev.status.code := by
      rw [hidle]
      exact not_not_intro rfl
    refine Step.alone (.isIdle hpc hidle) ?_
    refine Step.alone (.setStart rfl) ?_
    refine Step.alone (.account rfl) ?_
    refine Step.alone (.setCurrBlock rfl) ?_
    refine Step.alone (.setBuffer rfl) ?_
    by_cases hacc : Accepts s.dev.numblocks (s.heap p).block (s.heap p).buffer
    · have hcmd : diskCmd (s.heap p).cTaskAction.toDiskCmd (s.heap p).block (s.heap p).buffer
          s.dev = _ := diskCmd_accept hidle hacc
      refine Step.alone (.accept rfl hidle hacc) (.here ⟨rfl, ?_⟩)
      simp only [dispatchNext, State.scheduling, hstatus, if_neg hcode, hcmd]
      rfl
    · have hrej := fun h : s.dev.status = .idle ∧ _ => hacc h.2
      have hcmd : diskCmd (s.heap p).cTaskAction.toDiskCmd (s.heap p).block (s.heap p).buffer
          s.dev = _ := diskCmd_refuse hrej
      refine Step.alone (.refuse rfl hrej) ?_
      refine Step.alone (.upTreated rfl) (.here ⟨rfl, ?_⟩)
      simp only [dispatchNext, State.scheduling, hstatus, if_neg hcode, hcmd]
      rfl
  · have hcode : DiskStatus.idle.code ≠ s.dev.status.code := fun he =>
      hidle (status_code_eq_idle.mp he.symm)
    refine Step.alone (.notIdle hpc hidle) (.here ⟨rfl, ?_⟩)
    simp only [dispatchNext, State.scheduling, hstatus, if_pos hcode]

/-- Left to itself the disk task does in its statements what the call does. -/
theorem diskScheduler_steps {cfg : Config φ μ} {s : State n φ μ} (hpc : s.disk = .checkEmpty) :
    Reaches (diskAlone cfg) s fun t => t.disk = .whileInit ∧
      ∃ e, diskScheduler diskCmd cfg.ia cfg.alg s.scheduling = some e ∧
        t.scheduling = e.state := by
  by_cases hne : s.list = []
  · refine Step.alone (.empty hpc hne) (.here ⟨rfl, ⟨0, s.scheduling, []⟩, ?_, rfl⟩)
    exact if_pos hne
  · obtain ⟨p, hp⟩ : ∃ p, schedChoice cfg.ia (fun p => (s.heap p).block) s.mgr.iCurrBlock cfg.alg
        s.list = some p := schedChoice_isSome _ _ _ hne
    have hcall : diskScheduler diskCmd cfg.ia cfg.alg s.scheduling =
        some (dispatchNext diskCmd cfg.ia p (s.scheduling.remove cfg.alg p)) := by
      simp only [diskScheduler, State.scheduling, if_neg hne, hp, Option.map_some]
    refine Step.alone (.nonempty hpc hne) ?_
    refine Step.alone (.choose rfl hp) ?_
    refine Step.alone (.remove rfl) ?_
    refine Reaches.trans (dispatchNext_steps (p := p) rfl) fun t ht => .here ⟨ht.1, _, hcall, ?_⟩
    exact ht.2

end Steps

end PingPong
