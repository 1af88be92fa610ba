import PingPong.Manager

/-! What one step of the system can do. Every invariant is proved by cases on
`Step`, so that the branches of the code are taken apart in this module only. -/

namespace PingPong

variable {n : Nat} {φ μ : Type}

inductive Step (cfg : Config φ μ) (s : State n φ μ) : Action n μ → State n φ μ → Prop
  | call {c : Fin n} {cmd : TaskCmd} {block : Int} {buffer addr : Ptr} {r : Request}
      (hr : r = ⟨s.nextId, c, block, buffer, cmd, s.systemTime⟩)
      (hpc : s.clients c = .outside) (hnull : addr ≠ 0) (hfresh : addr ∉ s.list) :
      Step cfg s (.call c cmd block buffer addr) { s with
        heap := Function.update s.heap addr r
        list := s.list ++ [addr]
        clients := Function.update s.clients c (.lockRequest r)
        nextId := s.nextId + 1
        hist := .enqueued r :: s.hist }
  | lock {c : Fin n} {r : Request} (hpc : s.clients c = .lockRequest r)
      (hfree : s.mRequest = none) :
      Step cfg s (.client c) { s with
        mRequest := some c
        clients := Function.update s.clients c (.upNewReqs r) }
  | upNew {c : Fin n} {r : Request} (hpc : s.clients c = .upNewReqs r) :
      Step cfg s (.client c) { s with
        newReqsSem := s.newReqsSem + 1
        clients := Function.update s.clients c (.downTreated r) }
  | downTreated {c : Fin n} {r : Request} (hpc : s.clients c = .downTreated r)
      (hsem : 0 < s.treatedReqSem) :
      Step cfg s (.client c) { s with
        treatedReqSem := s.treatedReqSem - 1
        clients := Function.update s.clients c (.unlockRequest r) }
  | unlock {c : Fin n} {r : Request} (hpc : s.clients c = .unlockRequest r) :
      Step cfg s (.client c) { s with
        mRequest := none
        clients := Function.update s.clients c (.returning r) }
  | ret {c : Fin n} {r : Request} (hpc : s.clients c = .returning r) :
      Step cfg s (.client c) { s with
        clients := Function.update s.clients c .outside
        hist := .returned r 0 :: s.hist }
  | store {c : Fin n} {mem : μ} (hpc : s.clients c = .outside) :
      Step cfg s (.store c mem) { s with store := { s.store with mem := mem } }
  | enterLoop (hpc : s.disk = .whileInit) (hinit : s.mgr.init = true) :
      Step cfg s .disk { s with disk := .downNewReqs }
  | leaveLoop (hpc : s.disk = .whileInit) (hinit : s.mgr.init = false) :
      Step cfg s .disk { s with disk := .exited }
  | downNew (hpc : s.disk = .downNewReqs) (hsem : 0 < s.newReqsSem) :
      Step cfg s .disk { s with newReqsSem := s.newReqsSem - 1, disk := .checkEmpty }
  | empty (hpc : s.disk = .checkEmpty) (hlist : s.list = []) :
      Step cfg s .disk { s with disk := .whileInit }
  | nonempty (hpc : s.disk = .checkEmpty) (hlist : s.list ≠ []) :
      Step cfg s .disk { s with disk := .choose }
  | choose {p : Ptr} (hpc : s.disk = .choose)
      (hsched : schedChoice cfg.ia (fun q => (s.heap q).block) s.mgr.iCurrBlock cfg.alg s.list =
        some p) :
      Step cfg s .disk { s with
        mgr := { s.mgr with enAlgorithm := cfg.alg }
        disk := .remove p
        hist := .selected (s.heap p) :: s.hist }
  | remove {p : Ptr} (hpc : s.disk = .remove p) :
      Step cfg s .disk { s with
        list := s.list.erase p
        disk := .askStatus p (s.heap p)
        hist := .removed (s.heap p) :: s.hist }
  | notIdle {p : Ptr} {r : Request} (hpc : s.disk = .askStatus p r) (hdev : s.dev.status ≠ .idle) :
      Step cfg s .disk { s with
        mgr := { s.mgr with status := s.dev.status.code }
        disk := .whileInit }
  | isIdle {p : Ptr} {r : Request} (hpc : s.disk = .askStatus p r) (hdev : s.dev.status = .idle) :
      Step cfg s .disk { s with
        mgr := { s.mgr with status := s.dev.status.code }
        disk := .setStart p r }
  | setStart {p : Ptr} {r : Request} (hpc : s.disk = .setStart p r) :
      Step cfg s .disk { s with
        mgr := { s.mgr with startingTime := wrapInt s.systemTime }
        disk := .account p r }
  | account {p : Ptr} {r : Request} (hpc : s.disk = .account p r) :
      Step cfg s .disk { s with
        mgr := { s.mgr with
          totalBlockAccess := cfg.ia.add s.mgr.totalBlockAccess
            (cfg.ia.abs (cfg.ia.sub (s.heap p).block s.mgr.iCurrBlock)) }
        disk := .setCurrBlock p r (s.heap p).block }
  | setCurrBlock {p : Ptr} {r : Request} {b : Int} (hpc : s.disk = .setCurrBlock p r b) :
      Step cfg s .disk { s with
        mgr := { s.mgr with iCurrBlock := (s.heap p).block }
        disk := .setBuffer p r }
  | setBuffer {p : Ptr} {r : Request} (hpc : s.disk = .setBuffer p r) :
      Step cfg s .disk { s with
        mgr := { s.mgr with buffer := (s.heap p).buffer }
        disk := .command p r }
  | accept {p : Ptr} {r : Request} (hpc : s.disk = .command p r) (hdev : s.dev.status = .idle)
      (hacc : Accepts s.dev.numblocks s.mgr.iCurrBlock s.mgr.buffer) :
      Step cfg s .disk { s with
        dev := { s.dev with
          buffer := s.mgr.buffer
          nextBlock := s.mgr.iCurrBlock
          status := (s.heap p).cTaskAction.busy
          timer := true }
        disk := .whileInit
        serving := r
        hist := .dispatched r (s.heap p).cTaskAction s.mgr.iCurrBlock s.mgr.buffer 0 :: s.hist }
  | refuse {p : Ptr} {r : Request} (hpc : s.disk = .command p r)
      (hrej : ¬(s.dev.status = .idle ∧ Accepts s.dev.numblocks s.mgr.iCurrBlock s.mgr.buffer)) :
      Step cfg s .disk { s with
        disk := .upTreated r
        hist := .dispatched r (s.heap p).cTaskAction s.mgr.iCurrBlock s.mgr.buffer (-1) :: s.hist }
  | upTreated {r : Request} (hpc : s.disk = .upTreated r) :
      Step cfg s .disk { s with treatedReqSem := s.treatedReqSem + 1, disk := .whileInit }
  | fire {cmd : TaskCmd} (htimer : s.dev.timer = true) (hdev : s.dev.status = cmd.busy) :
      Step cfg s .fire { s with
        treatedReqSem := s.treatedReqSem + 1
        mgr := { s.mgr with
          packageSync := (s.mgr.packageSync + 1).bmod 65536
          execTime := wrapInt (s.mgr.execTime + (s.systemTime - s.mgr.startingTime)) }
        dev := { s.dev with prevBlock := s.dev.nextBlock, status := .idle, timer := false }
        store := cfg.md.transfer cmd s.dev.blocksize s.dev.nextBlock s.dev.buffer s.store
        hist := .completed s.serving cmd s.dev.nextBlock s.dev.buffer :: s.hist }
  | tick : Step cfg s .tick { s with systemTime := wrapUnsigned (s.systemTime + 1) }

theorem status_code_eq_idle {st : DiskStatus} : st.code = DiskStatus.idle.code ↔ st = .idle := by
  cases st <;> decide

theorem Device.command_of_busy {d : Device} {cmd : TaskCmd} (h : d.status = cmd.busy) :
    d.command = cmd := by
  cases cmd <;> simp [Device.command, h, TaskCmd.busy]

theorem diskSighandle_isSome {md : Medium φ μ} {d : Device} {st : Store φ μ}
    (h : (diskSighandle md d st).isSome) : ∃ cmd : TaskCmd, d.status = cmd.busy := by
  cases hs : d.status with
  | read => exact ⟨.read, rfl⟩
  | write => exact ⟨.write, rfl⟩
  | unknown => simp [diskSighandle, hs] at h
  | idle => simp [diskSighandle, hs] at h

theorem callStep_cases {cfg : Config φ μ} {s t : State n φ μ} {c : Fin n} {cmd : TaskCmd}
    {block : Int} {buffer addr : Ptr} (h : callStep s c cmd block buffer addr = some t) :
    Step cfg s (.call c cmd block buffer addr) t := by
  simp only [callStep, Option.ite_none_right_eq_some, Option.some.injEq] at h
  obtain ⟨⟨hpc, hnull, hfresh⟩, rfl⟩ := h
  exact .call rfl hpc hnull hfresh

theorem clientStep_cases {cfg : Config φ μ} {s t : State n φ μ} {c : Fin n}
    (h : clientStep s c = some t) : Step cfg s (.client c) t := by
  cases hpc : s.clients c with
  | outside => simp [clientStep, hpc] at h
  | lockRequest r =>
    simp only [clientStep, hpc, Option.ite_none_right_eq_some, Option.some.injEq] at h
    obtain ⟨hfree, rfl⟩ := h
    exact .lock hpc hfree
  | upNewReqs r =>
    simp only [clientStep, hpc, Option.some.injEq] at h
    exact h ▸ .upNew hpc
  | downTreated r =>
    simp only [clientStep, hpc, Option.ite_none_right_eq_some, Option.some.injEq] at h
    obtain ⟨hsem, rfl⟩ := h
    exact .downTreated hpc hsem
  | unlockRequest r =>
    simp only [clientStep, hpc, Option.some.injEq] at h
    exact h ▸ .unlock hpc
  | returning r =>
    simp only [clientStep, hpc, Option.some.injEq] at h
    exact h ▸ .ret hpc

theorem commandStep_cases {cfg : Config φ μ} {s t : State n φ μ} {p : Ptr} {r : Request}
    (hpc : s.disk = .command p r) (h : diskStep cfg s = some t) : Step cfg s .disk t := by
  by_cases hacc : s.dev.status = .idle ∧ Accepts s.dev.numblocks s.mgr.iCurrBlock s.mgr.buffer
  · simp only [diskStep, hpc, diskCmd_accept hacc.1 hacc.2, ne_eq, not_true_eq_false, if_false,
      Option.some.injEq] at h
    exact h ▸ .accept hpc hacc.1 hacc.2
  · have hne : (-1 : Int) ≠ 0 := by decide
    simp only [diskStep, hpc, diskCmd_refuse hacc, hne, if_true, ne_eq, not_false_eq_true,
      Option.some.injEq] at h
    exact h ▸ .refuse hpc hacc

theorem diskStep_cases {cfg : Config φ μ} {s t : State n φ μ} (h : diskStep cfg s = some t) :
    Step cfg s .disk t := by
  cases hpc : s.disk with
  | whileInit =>
    simp only [diskStep, hpc, Option.some.injEq] at h
    cases hinit : s.mgr.init with
    | true =>
      simp only [hinit, if_true] at h
      exact h ▸ .enterLoop hpc hinit
    | false =>
      simp only [hinit, Bool.false_eq_true, if_false] at h
      exact h ▸ .leaveLoop hpc hinit
  | downNewReqs =>
    simp only [diskStep, hpc, Option.ite_none_right_eq_some, Option.some.injEq] at h
    obtain ⟨hsem, rfl⟩ := h
    exact .downNew hpc hsem
  | checkEmpty =>
    simp only [diskStep, hpc, Option.some.injEq] at h
    by_cases hlist : s.list = []
    · rw [if_pos hlist] at h
      exact h ▸ .empty hpc hlist
    · rw [if_neg hlist] at h
      exact h ▸ .nonempty hpc hlist
  | choose =>
    simp only [diskStep, hpc, Option.map_eq_some_iff] at h
    obtain ⟨p, hp, rfl⟩ := h
    exact .choose hpc hp
  | remove p =>
    simp only [diskStep, hpc, Option.some.injEq] at h
    exact h ▸ .remove hpc
  | askStatus p r =>
    simp only [diskStep, hpc, diskCmd, Option.some.injEq, ne_eq, status_code_eq_idle] at h
    by_cases hdev : s.dev.status = .idle
    · rw [if_neg (not_not.mpr hdev)] at h
      exact h ▸ .isIdle hpc hdev
    · rw [if_pos hdev] at h
      exact h ▸ .notIdle hpc hdev
  | setStart p r =>
    simp only [diskStep, hpc, Option.some.injEq] at h
    exact h ▸ .setStart hpc
  | account p r =>
    simp only [diskStep, hpc, Option.some.injEq] at h
    exact h ▸ .account hpc
  | setCurrBlock p r b =>
    simp only [diskStep, hpc, Option.some.injEq] at h
    exact h ▸ .setCurrBlock hpc
  | setBuffer p r =>
    simp only [diskStep, hpc, Option.some.injEq] at h
    exact h ▸ .setBuffer hpc
  | command p r => exact commandStep_cases hpc h
  | upTreated r =>
    simp only [diskStep, hpc, Option.some.injEq] at h
    exact h ▸ .upTreated hpc
  | exited => simp [diskStep, hpc] at h

theorem fireStep_cases {cfg : Config φ μ} {s t : State n φ μ} (h : fireStep cfg s = some t) :
    Step cfg s .fire t := by
  simp only [fireStep, Option.ite_none_right_eq_some, Option.map_eq_some_iff] at h
  obtain ⟨htimer, done, hdone, rfl⟩ := h
  obtain ⟨cmd, hdev⟩ := diskSighandle_isSome (Option.isSome_of_eq_some hdone)
  rw [diskSighandle_busy cfg.md s.store hdev] at hdone
  cases hdone
  rw [Device.command_of_busy hdev]
  exact .fire htimer hdev

theorem step_cases {cfg : Config φ μ} {s t : State n φ μ} {a : Action n μ}
    (h : step cfg s a = some t) : Step cfg s a t := by
  cases a with
  | call c cmd block buffer addr => exact callStep_cases h
  | client c => exact clientStep_cases h
  | store c mem =>
    simp only [step, Option.ite_none_right_eq_some, Option.some.injEq] at h
    obtain ⟨hpc, rfl⟩ := h
    exact .store hpc
  | disk => exact diskStep_cases h
  | fire => exact fireStep_cases h
  | tick =>
    simp only [step, Option.some.injEq] at h
    exact h ▸ .tick

/-- `Step` is the graph of the step function. -/
theorem Step.enabled {cfg : Config φ μ} {s t : State n φ μ} {a : Action n μ}
    (h : Step cfg s a t) : step cfg s a = some t := by
  cases h with
  | call hr hpc hnull hfresh => simp [step, callStep, hpc, hnull, hfresh, hr]
  | lock hpc hfree => simp [step, clientStep, hpc, hfree]
  | upNew hpc | unlock hpc | ret hpc => simp [step, clientStep, hpc]
  | downTreated hpc hsem => simp [step, clientStep, hpc, hsem]
  | store hpc => simp [step, hpc]
  | enterLoop hpc hinit | leaveLoop hpc hinit => simp [step, diskStep, hpc, hinit]
  | downNew hpc hsem => simp [step, diskStep, hpc, hsem]
  | empty hpc hlist | nonempty hpc hlist => simp [step, diskStep, hpc, hlist]
  | choose hpc hsched => simp [step, diskStep, hpc, hsched]
  | remove hpc | setStart hpc | account hpc | setCurrBlock hpc | setBuffer hpc | upTreated hpc =>
    simp [step, diskStep, hpc]
  | notIdle hpc hdev | isIdle hpc hdev =>
    simp [step, diskStep, hpc, diskCmd, status_code_eq_idle, hdev]
  | accept hpc hdev hacc => simp [step, diskStep, hpc, diskCmd_accept hdev hacc]
  | refuse hpc hrej => simp [step, diskStep, hpc, diskCmd_refuse hrej]
  | fire htimer hdev =>
    simp [step, fireStep, memActionFinished, htimer, diskSighandle_busy _ _ hdev,
      Device.command_of_busy hdev]
  | tick => rfl

theorem Step.numblocks {cfg : Config φ μ} {s t : State n φ μ} {a : Action n μ}
    (h : Step cfg s a t) : t.dev.numblocks = s.dev.numblocks := by
  cases h <;> rfl

theorem Step.blocksize {cfg : Config φ μ} {s t : State n φ μ} {a : Action n μ}
    (h : Step cfg s a t) : t.dev.blocksize = s.dev.blocksize := by
  cases h <;> rfl

/-- No step reads the history. -/
theorem Step.rehist {cfg : Config φ μ} {s t : State n φ μ} {a : Action n μ} (h : Step cfg s a t)
    (hist : List Event) :
    ∃ new, t.hist = new ++ s.hist ∧
      Step cfg { s with hist := hist } a { t with hist := new ++ hist } := by
  cases h with
  | call hr hpc hnull hfresh => exact ⟨[_], rfl, .call hr hpc hnull hfresh⟩
  | lock hpc hfree => exact ⟨[], rfl, .lock hpc hfree⟩
  | upNew hpc => exact ⟨[], rfl, .upNew hpc⟩
  | downTreated hpc hsem => exact ⟨[], rfl, .downTreated hpc hsem⟩
  | unlock hpc => exact ⟨[], rfl, .unlock hpc⟩
  | ret hpc => exact ⟨[_], rfl, .ret hpc⟩
  | store hpc => exact ⟨[], rfl, .store hpc⟩
  | enterLoop hpc hinit => exact ⟨[], rfl, .enterLoop hpc hinit⟩
  | leaveLoop hpc hinit => exact ⟨[], rfl, .leaveLoop hpc hinit⟩
  | downNew hpc hsem => exact ⟨[], rfl, .downNew hpc hsem⟩
  | empty hpc hlist => exact ⟨[], rfl, .empty hpc hlist⟩
  | nonempty hpc hlist => exact ⟨[], rfl, .nonempty hpc hlist⟩
  | choose hpc hsched => exact ⟨[_], rfl, .choose hpc hsched⟩
  | remove hpc => exact ⟨[_], rfl, .remove hpc⟩
  | notIdle hpc hdev => exact ⟨[], rfl, .notIdle hpc hdev⟩
  | isIdle hpc hdev => exact ⟨[], rfl, .isIdle hpc hdev⟩
  | setStart hpc => exact ⟨[], rfl, .setStart hpc⟩
  | account hpc => exact ⟨[], rfl, .account hpc⟩
  | setCurrBlock hpc => exact ⟨[], rfl, .setCurrBlock hpc⟩
  | setBuffer hpc => exact ⟨[], rfl, .setBuffer hpc⟩
  | accept hpc hdev hacc => exact ⟨[_], rfl, .accept hpc hdev hacc⟩
  | refuse hpc hrej => exact ⟨[_], rfl, .refuse hpc hrej⟩
  | upTreated hpc => exact ⟨[], rfl, .upTreated hpc⟩
  | fire htimer hdev => exact ⟨[_], rfl, .fire htimer hdev⟩
  | tick => exact ⟨[], rfl, .tick⟩

end PingPong
