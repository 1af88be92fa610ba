import PingPong.Steps

/-! The accounting of `memActionFinished` when ticks preempt it. Its three statements
are separate steps, other tasks and further completions come in between, and any
number of its runs may be under way. A run of the handler finds the `startingTime`
of its own request as long as no dispatch has stored another one since. -/

namespace PingPong

open Runs

variable {n : Nat} {φ μ : Type}

inductive HandlerPc
  | incPackageSync
  | upTreated
  | addExecTime
  deriving DecidableEq, Repr

def HandlerPc.exec (s : State n φ μ) : HandlerPc → State n φ μ
  | .incPackageSync =>
    { s with mgr := { s.mgr with packageSync := (s.mgr.packageSync + 1).bmod 65536 } }
  | .upTreated => { s with treatedReqSem := s.treatedReqSem + 1 }
  | .addExecTime =>
    { s with
      mgr := { s.mgr with
        execTime := wrapInt (s.mgr.execTime + (s.systemTime - s.mgr.startingTime)) } }

def HandlerPc.next : HandlerPc → Option HandlerPc
  | .incPackageSync => some .upTreated
  | .upTreated => some .addExecTime
  | .addExecTime => none

def HandlerPc.left : HandlerPc → Nat
  | .incPackageSync => 2
  | .upTreated => 1
  | .addExecTime => 0

theorem HandlerPc.next_of_left {pc : HandlerPc} {k : Nat} (h : pc.left = k + 1) :
    ∃ pc', pc.next = some pc' ∧ pc'.left = k := by
  cases pc with
  | incPackageSync => exact ⟨.upTreated, rfl, Nat.succ.inj h⟩
  | upTreated => exact ⟨.addExecTime, rfl, Nat.succ.inj h⟩
  | addExecTime => cases h

/-- Left alone, the handler is one step of the device. -/
theorem memActionFinished_eq (s : State n φ μ) : memActionFinished s =
    HandlerPc.addExecTime.exec (HandlerPc.upTreated.exec (HandlerPc.incPackageSync.exec s)) := rfl

/-- A run of `memActionFinished` under way, with the request whose completion it
reports and the number of ticks before that request's dispatch. -/
structure HandlerRun where
  pc : HandlerPc
  request : Request
  dispatchedAt : Nat
  deriving DecidableEq, Repr

/-- `ticks` counts the ticks, `startedAt` is its value at the last dispatch, and
`servingAt` the one at the dispatch of the request that the device works on. -/
structure Timed (n : Nat) (φ μ : Type) where
  sys : State n φ μ
  handlers : List HandlerRun
  ticks : Nat
  startedAt : Nat
  servingAt : Nat

inductive TimedAction (n : Nat) (μ : Type)
  | task (a : Action n μ)
  | complete
  | handler (i : Nat)

/-- The device returns to idle and raises the signal. -/
def completeStep (cfg : Config φ μ) (s : State n φ μ) : Option (State n φ μ) :=
  if s.dev.timer then
    (diskSighandle cfg.md s.dev s.store).map fun done =>
      { s with
        dev := done.1
        store := done.2
        hist := .completed s.serving s.dev.command s.dev.nextBlock s.dev.buffer :: s.hist }
  else none

theorem fireStep_eq (cfg : Config φ μ) (s : State n φ μ) :
    fireStep cfg s = (completeStep cfg s).map memActionFinished := by
  unfold fireStep completeStep
  split_ifs
  · rw [Option.map_map]
    rfl
  · rfl

def Timed.advance (s : Timed n φ μ) (a : Action n μ) (t : State n φ μ) : Timed n φ μ :=
  match a, s.sys.disk with
  | .tick, _ => { s with sys := t, ticks := s.ticks + 1 }
  | .disk, .setStart _ _ => { s with sys := t, startedAt := s.ticks }
  | .disk, .command _ _ => { s with sys := t, servingAt := s.startedAt }
  | _, _ => { s with sys := t }

def timedStep (cfg : Config φ μ) (s : Timed n φ μ) : TimedAction n μ → Option (Timed n φ μ)
  | .task .fire => none
  | .task a => (step cfg s.sys a).map (s.advance a)
  | .complete => (completeStep cfg s.sys).map fun t =>
      { s with
        sys := t
        handlers := s.handlers ++ [⟨.incPackageSync, s.sys.serving, s.servingAt⟩] }
  | .handler i => s.handlers[i]?.map fun h =>
      { s with
        sys := h.pc.exec s.sys
        handlers := match h.pc.next with
          | some pc => s.handlers.set i { h with pc := pc }
          | none => s.handlers.eraseIdx i }

def timedStart (numblocks : Int) (heap : Ptr → Request) (store : Store φ μ) : Timed n φ μ :=
  ⟨initial numblocks heap store, [], 0, 0, 0⟩

/-- The handler adds the ticks since the dispatch of the request it reports. -/
def ChargesOwn (cfg : Config φ μ) (s : Timed n φ μ) : TimedAction n μ → Prop
  | .handler i => ∀ h ∈ s.handlers[i]?, h.pc = .addExecTime →
      ∀ t ∈ timedStep cfg s (.handler i),
        t.sys.mgr.execTime = wrapInt (s.sys.mgr.execTime + (s.ticks - h.dispatchedAt))
  | _ => True

def DiskPc.starting : DiskPc → Bool
  | .setStart _ _ => true
  | _ => false

/-- A dispatch that comes while a handler is under way leaves `startingTime` at the
value it has. -/
def KeepsStart (s : Timed n φ μ) : TimedAction n μ → Prop
  | .task .disk => s.sys.disk.starting = true → s.handlers = [] ∨
      wrapInt s.sys.systemTime = s.sys.mgr.startingTime
  | _ => True

instance decidableChargesOwn (cfg : Config φ μ) (s : Timed n φ μ) :
    ∀ a, Decidable (ChargesOwn cfg s a)
  | .handler i => inferInstanceAs (Decidable (∀ h ∈ s.handlers[i]?, _ → ∀ t ∈ _, _))
  | .task _ | .complete => instDecidableTrue

instance decidableKeepsStart (s : Timed n φ μ) : ∀ a, Decidable (KeepsStart s a)
  | .task .disk => inferInstanceAs (Decidable (_ = true → _ ∨ _))
  | .task (.call ..) | .task (.client _) | .task (.store ..) | .task .fire | .task .tick
  | .complete | .handler _ => instDecidableTrue

/-- The disk task has found the device idle and has not commanded it yet. -/
def DiskPc.claimed : DiskPc → Bool
  | .setStart _ _ | .account _ _ | .setCurrBlock _ _ _ | .setBuffer _ _ | .command _ _ => true
  | _ => false

/-- The disk task has stored `startingTime` and has not commanded the device yet. -/
def DiskPc.started : DiskPc → Bool
  | .account _ _ | .setCurrBlock _ _ _ | .setBuffer _ _ | .command _ _ => true
  | _ => false

structure Stamped (s : Timed n φ μ) : Prop where
  clock : s.sys.systemTime = wrapUnsigned s.ticks
  claimed : s.sys.disk.claimed = true → s.sys.dev.busy = false
  started : s.sys.disk.started = true → s.sys.mgr.startingTime = wrapInt s.startedAt
  serving : s.sys.dev.busy = true → s.sys.mgr.startingTime = wrapInt s.servingAt
  pending : ∀ h ∈ s.handlers, s.sys.mgr.startingTime = wrapInt h.dispatchedAt

theorem timedStart_stamped (numblocks : Int) (heap : Ptr → Request) (store : Store φ μ) :
    Stamped (timedStart numblocks heap store : Timed n φ μ) where
  clock := rfl
  claimed := nofun
  started := nofun
  serving := nofun
  pending _ hh := absurd hh List.not_mem_nil

theorem Stamped.frame {s : Timed n φ μ} {t : State n φ μ} (hs : Stamped s)
    (hclock : t.systemTime = s.sys.systemTime)
    (hstart : t.mgr.startingTime = s.sys.mgr.startingTime) (hdev : t.dev = s.sys.dev)
    (hclaimed : t.disk.claimed = true → s.sys.dev.busy = false)
    (hstarted : t.disk.started = true → s.sys.disk.started = true) :
    Stamped { s with sys := t } where
  clock := hclock.trans hs.clock
  claimed hd := hdev ▸ hclaimed hd
  started hd := hstart.trans (hs.started (hstarted hd))
  serving hd := hstart.trans (hs.serving (hdev ▸ hd))
  pending h hh := hstart.trans (hs.pending h hh)

theorem Stamped.task {cfg : Config φ μ} {s : Timed n φ μ} {t : State n φ μ} {a : Action n μ}
    (hs : Stamped s) (hok : KeepsStart s (.task a)) (ha : a ≠ .fire) (h : Step cfg s.sys a t) :
    Stamped (s.advance a t) := by
  have hno {p : Prop} (h : false = true) : p := absurd h Bool.false_ne_true
  cases h with
  | call | lock | upNew | downTreated | unlock | ret | store =>
    exact hs.frame rfl rfl rfl hs.claimed id
  | fire => exact absurd rfl ha
  | tick =>
    refine ⟨?_, hs.claimed, hs.started, hs.serving, hs.pending⟩
    show wrapUnsigned (s.sys.systemTime + 1) = wrapUnsigned ((s.ticks + 1 : Nat) : Int)
    rw [hs.clock, wrapUnsigned_succ, Int.natCast_succ]
  | enterLoop hpc | leaveLoop hpc | downNew hpc | empty hpc | nonempty hpc | choose hpc
  | remove hpc | notIdle hpc | upTreated hpc =>
    simp only [Timed.advance, hpc]
    exact hs.frame rfl rfl rfl hno hno
  | isIdle hpc hdev =>
    simp only [Timed.advance, hpc]
    exact hs.frame rfl rfl rfl (fun _ => by simp [Device.busy, hdev]) hno
  | account hpc | setCurrBlock hpc | setBuffer hpc =>
    simp only [Timed.advance, hpc]
    exact hs.frame rfl rfl rfl (fun _ => hs.claimed (by rw [hpc]; rfl)) fun _ => by rw [hpc]; rfl
  | setStart hpc =>
    have hidle := hs.claimed (by rw [hpc]; rfl)
    have hkeep := hok (by rw [hpc]; rfl)
    simp only [Timed.advance, hpc]
    refine ⟨hs.clock, fun _ => hidle, fun _ => ?_, fun hbusy => ?_, fun h hh => ?_⟩
    · exact (congrArg wrapInt hs.clock).trans (wrapInt_wrapUnsigned _)
    · exact absurd (hbusy.symm.trans hidle) (by decide)
    · rcases hkeep with hnil | hsame
      · exact absurd (hnil ▸ hh) List.not_mem_nil
      · exact hsame.trans (hs.pending h hh)
  | accept hpc =>
    have hstart := hs.started (by rw [hpc]; rfl)
    simp only [Timed.advance, hpc]
    exact ⟨hs.clock, hno, hno, fun _ => hstart, hs.pending⟩
  | refuse hpc =>
    have hidle := hs.claimed (by rw [hpc]; rfl)
    simp only [Timed.advance, hpc]
    refine ⟨hs.clock, hno, hno, fun hbusy => ?_, hs.pending⟩
    exact absurd (hbusy.symm.trans hidle) (by decide)

theorem Stamped.complete {cfg : Config φ μ} {s : Timed n φ μ} {t : State n φ μ} (hs : Stamped s)
    (h : completeStep cfg s.sys = some t) :
    Stamped { s with
      sys := t
      handlers := s.handlers ++ [⟨.incPackageSync, s.sys.serving, s.servingAt⟩] } := by
  simp only [completeStep, Option.ite_none_right_eq_some, Option.map_eq_some_iff] at h
  obtain ⟨-, done, hdone, rfl⟩ := h
  obtain ⟨cmd, hdev⟩ := diskSighandle_isSome (Option.isSome_of_eq_some hdone)
  have hbusy : s.sys.dev.busy = true := Device.busy_iff.mpr (hdev ▸ cmd.busy_status)
  rw [diskSighandle_busy cfg.md s.sys.store hdev] at hdone
  cases hdone
  refine ⟨hs.clock, fun _ => rfl, hs.started, nofun, fun h hh => ?_⟩
  rcases List.mem_append.mp hh with hold | hnew
  · exact hs.pending h hold
  · rw [List.mem_singleton.mp hnew]
    exact hs.serving hbusy

theorem HandlerPc.exec_frame (pc : HandlerPc) (s : State n φ μ) :
    (pc.exec s).systemTime = s.systemTime ∧ (pc.exec s).dev = s.dev ∧
      (pc.exec s).disk = s.disk ∧ (pc.exec s).mgr.startingTime = s.mgr.startingTime := by
  cases pc <;> exact ⟨rfl, rfl, rfl, rfl⟩

theorem Stamped.handler {s : Timed n φ μ} {pc : HandlerPc} {hs' : List HandlerRun}
    (hs : Stamped s)
    (hkept : ∀ h ∈ hs', ∃ g ∈ s.handlers, g.dispatchedAt = h.dispatchedAt) :
    Stamped { s with sys := pc.exec s.sys, handlers := hs' } := by
  obtain ⟨hclock, hdev, hdisk, hstart⟩ := pc.exec_frame s.sys
  refine ⟨hclock.trans hs.clock, fun hd => ?_, fun hd => ?_, fun hd => ?_, fun h hh => ?_⟩
  · exact hdev ▸ hs.claimed (hdisk ▸ hd)
  · exact hstart.trans (hs.started (hdisk ▸ hd))
  · exact hstart.trans (hs.serving (hdev ▸ hd))
  · obtain ⟨g, hg, he⟩ := hkept h hh
    exact hstart.trans (he ▸ hs.pending g hg)

theorem timedStep_task {cfg : Config φ μ} {s : Timed n φ μ} {a : Action n μ} (ha : a ≠ .fire) :
    timedStep cfg s (.task a) = (PingPong.step cfg s.sys a).map (s.advance a) := by
  cases a with
  | fire => exact absurd rfl ha
  | _ => rfl

theorem Stamped.step {cfg : Config φ μ} {s t : Timed n φ μ} {a : TimedAction n μ}
    (hs : Stamped s) (hok : KeepsStart s a) (h : timedStep cfg s a = some t) : Stamped t := by
  cases a with
  | task a =>
    have ha : a ≠ .fire := by
      rintro rfl
      cases h
    rw [timedStep_task ha] at h
    obtain ⟨u, hu, rfl⟩ := Option.map_eq_some_iff.mp h
    exact hs.task hok ha (step_cases hu)
  | complete =>
    obtain ⟨u, hu, rfl⟩ := Option.map_eq_some_iff.mp h
    exact hs.complete hu
  | handler i =>
    obtain ⟨g, hg, rfl⟩ := Option.map_eq_some_iff.mp h
    refine hs.handler fun h hh => ?_
    cases hnext : g.pc.next with
    | some pc =>
      simp only [hnext] at hh
      rcases List.mem_or_eq_of_mem_set hh with hold | rfl
      · exact ⟨h, hold, rfl⟩
      · exact ⟨g, List.mem_of_getElem? hg, rfl⟩
    | none =>
      simp only [hnext] at hh
      exact ⟨h, List.mem_of_mem_eraseIdx hh, rfl⟩

theorem Stamped.chargesOwn {cfg : Config φ μ} {s : Timed n φ μ} {a : TimedAction n μ}
    (hs : Stamped s) : ChargesOwn cfg s a := by
  cases a with
  | handler i =>
    intro h hh hpc t ht
    obtain ⟨g, hg, rfl⟩ := Option.map_eq_some_iff.mp ht
    cases Option.some.inj (hg.symm.trans hh)
    have hstart := hs.pending h (List.mem_of_getElem? hh)
    simp only [hpc, HandlerPc.exec]
    rw [hs.clock, hstart]
    exact wrapInt_elapsed _ _ _
  | task | complete => trivial

theorem mischarges {cfg : Config φ μ} {s : Timed n φ μ} {h : HandlerRun} {i : Nat}
    (hh : s.handlers[i]? = some h) (hclock : s.sys.systemTime = wrapUnsigned s.ticks)
    (hlost : wrapInt s.sys.mgr.startingTime ≠ wrapInt h.dispatchedAt) :
    ∃ k, ¬Along (timedStep cfg) (ChargesOwn cfg) s (List.replicate k (.handler i)) := by
  induction hleft : h.pc.left generalizing s h with
  | zero =>
    have hstep : timedStep cfg s (.handler i) = some _ := congrArg (Option.map _) hh
    have hpc : h.pc = .addExecTime := by
      cases he : h.pc <;> simp_all [HandlerPc.left]
    refine ⟨1, fun hall => hlost ?_⟩
    have hadd := hall.1 h hh hpc _ hstep
    simp only [hpc, HandlerPc.exec] at hadd
    rw [hclock] at hadd
    exact wrapInt_elapsed_inj hadd
  | succ k ih =>
    obtain ⟨pc, hnext, hk⟩ := HandlerPc.next_of_left hleft
    obtain ⟨htime, -, -, hstart⟩ := h.pc.exec_frame s.sys
    have hstep : timedStep cfg s (.handler i) = some _ := congrArg (Option.map _) hh
    simp only [hnext] at hstep
    have hlt := (List.getElem?_eq_some_iff.mp hh).1
    have hset : (s.handlers.set i { h with pc := pc })[i]? = some { h with pc := pc } :=
      List.getElem?_set_self hlt
    obtain ⟨m, hm⟩ : ∃ m, ¬Along (timedStep cfg) (ChargesOwn cfg) { s with
        sys := h.pc.exec s.sys
        handlers := s.handlers.set i { h with pc := pc } } (List.replicate m (.handler i)) :=
      ih hset (htime.trans hclock) (hstart ▸ hlost) hk
    exact ⟨m + 1, fun hall => hm (hall.2 _ hstep)⟩

/-- The condition cannot be left out: a dispatch that changes `startingTime` under a
handler makes that handler add a wrong number of ticks when it resumes. -/
theorem late_dispatch_mischarges {cfg : Config φ μ} {s : Timed n φ μ} {h : HandlerRun} {i : Nat}
    (hs : Stamped s) (hh : s.handlers[i]? = some h) (hstart : s.sys.disk.starting = true)
    (hlost : wrapInt s.sys.systemTime ≠ s.sys.mgr.startingTime) :
    ∃ k, ¬Along (timedStep cfg) (ChargesOwn cfg) s
      (.task .disk :: List.replicate k (.handler i)) := by
  cases hpc : s.sys.disk with
  | setStart p r =>
    have hstep : timedStep cfg s (.task .disk) = some _ :=
      congrArg (Option.map (s.advance .disk)) (Step.setStart hpc).enabled
    simp only [Timed.advance, hpc] at hstep
    have hgone : wrapInt (wrapInt s.sys.systemTime) ≠ wrapInt h.dispatchedAt := by
      rw [← hs.pending h (List.mem_of_getElem? hh)]
      exact fun he => hlost (Int.bmod_bmod.symm.trans he)
    obtain ⟨k, hk⟩ : ∃ k, ¬Along (timedStep cfg) (ChargesOwn cfg) { s with
        sys := { s.sys with
          mgr := { s.sys.mgr with startingTime := wrapInt s.sys.systemTime }
          disk := .account p r }
        startedAt := s.ticks } (List.replicate k (.handler i)) := mischarges hh hs.clock hgone
    exact ⟨k, fun hall => hk (hall.2 _ hstep)⟩
  | _ => simp [hpc, DiskPc.starting] at hstart

/-- Along a run in which no dispatch changes `startingTime` under a handler that is
under way, every handler adds the ticks since its own request's dispatch. -/
theorem exec_time_own {cfg : Config φ μ} {numblocks : Int} {heap : Ptr → Request}
    {store : Store φ μ} {as : List (TimedAction n μ)}
    (hok : Along (timedStep cfg) KeepsStart (timedStart numblocks heap store) as) :
    Along (timedStep cfg) (ChargesOwn cfg) (timedStart numblocks heap store) as :=
  hok.of_invariant (fun _ _ _ hs hok ht => hs.step hok ht) (fun _ _ hs _ => hs.chargesOwn)
    (timedStart_stamped numblocks heap store)

def smallTimed (n : Nat) : Timed n (Int → Nat) (Ptr → Nat) := timedStart 16
  (fun _ => ⟨0, 0, 0, 0, .read, 0⟩) ⟨fun b => b.toNat, fun _ => 0⟩

def ofTasks (as : List (Action n μ)) : List (TimedAction n μ) := as.map .task

/-- One call, with a tick before the completion and one before the update. -/
def chargedCall : List (TimedAction 2 (Ptr → Nat)) :=
  ofTasks ([.call 0 .read 3 64 16, .client 0, .client 0] ++ List.replicate 11 .disk ++ [.tick]) ++
    [.complete, .handler 0, .handler 0, .task .tick, .handler 0]

theorem exec_time_own_small :
    Along (timedStep sstfConfig) (ChargesOwn sstfConfig) (smallTimed 2) chargedCall ∧
      (run (timedStep sstfConfig) (smallTimed 2) chargedCall).map (fun s => s.sys.mgr.execTime) =
        some 2 :=
  ⟨exec_time_own (by decide), by decide⟩

/-- The handler of the first call is preempted after its `sem_up`, and resumes when
the second call has been dispatched. -/
def overtakenHandler : List (TimedAction 2 (Ptr → Nat)) :=
  ofTasks ([.call 0 .read 3 64 16, .call 1 .read 5 80 20, .client 0, .client 0] ++
      List.replicate 11 .disk) ++
    [.complete, .handler 0, .handler 0] ++
    ofTasks ([.tick, .client 0, .client 0, .client 1, .client 1] ++ List.replicate 7 .disk) ++
    [.handler 0]

theorem exec_time_of_another : ¬∀ as : List (TimedAction 2 (Ptr → Nat)),
    Along (timedStep sstfConfig) (ChargesOwn sstfConfig) (smallTimed 2) as := by
  intro hall
  have hrun : ¬Along (timedStep sstfConfig) (ChargesOwn sstfConfig) (smallTimed 2)
      overtakenHandler := by decide
  exact hrun (hall overtakenHandler)

end PingPong
