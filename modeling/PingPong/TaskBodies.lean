import PingPong.CallOrder
import PingPong.Progress
import Mathlib.Data.Fintype.EquivFin

/-! Tasks that run programs on the manager. A body is a task's code as the disk sees
it: what it does next in each of its local states. As long as the bodies keep their
hands off the buffers in flight, they run as if each call were the transfer itself,
in the order in which the tasks take their steps. -/

namespace PingPong

open Runs Deferred

variable {n : Nat} {σ : Type}

/-- What a task does next: a call, an assignment to a byte, the printing of a byte, the
allocation of memory, a step that concerns none of these, or nothing any more. -/
inductive TaskStep (σ : Type)
  | call (cmd : TaskCmd) (block : Int) (buffer : Ptr) (next : σ)
  | assign (p : Ptr) (v : UInt8) (next : σ)
  | print (p : Ptr) (next : σ)
  | malloc (next : Ptr → σ)
  | silent (next : σ)
  | finished

def TaskStep.next? (addr : Ptr) : TaskStep σ → Option σ
  | .call _ _ _ x | .assign _ _ x | .print _ x | .silent x => some x
  | .malloc x => some (x addr)
  | .finished => none

def TaskStep.prints (mem : Ptr → UInt8) : TaskStep σ → Option UInt8
  | .print p _ => some (mem p)
  | _ => none

abbrev Bodies (n : Nat) (σ : Type) := Fin n → σ → TaskStep σ

structure Tasks (n : Nat) (σ : Type) where
  sys : ByteState n
  locals : Fin n → σ
  output : List (Fin n × UInt8)

/-- `own` is a step of the task's body, and `addr` is what `malloc` returns, in the body or
in the call. -/
inductive TasksAction (n : Nat)
  | own (c : Fin n) (addr : Ptr)
  | client (c : Fin n)
  | disk
  | fire
  | tick

def sysAction (body : Bodies n σ) (s : Tasks n σ) :
    TasksAction n → Option (Action n (Ptr → UInt8))
  | .own c addr =>
    match body c (s.locals c) with
    | .call cmd block buffer _ => some (.call c cmd block buffer addr)
    | .assign p v _ => some (.store c (s.sys.store.poke p v).mem)
    | _ => none
  | .client c => some (.client c)
  | .disk => some .disk
  | .fire => some .fire
  | .tick => some .tick

/-- A body goes on when its last call has returned. -/
def tasksStep (cfg : Config (Int → UInt8) (Ptr → UInt8)) (body : Bodies n σ) (s : Tasks n σ)
    (a : TasksAction n) : Option (Tasks n σ) :=
  (run (PingPong.step cfg) s.sys (sysAction body s a).toList).bind fun t =>
    match a with
    | .own c addr =>
      if s.sys.clients c = .outside then
        ((body c (s.locals c)).next? addr).map fun x =>
          { sys := t
            locals := Function.update s.locals c x
            output := s.output ++
              ((body c (s.locals c)).prints s.sys.store.mem).toList.map fun v => (c, v) }
      else none
    | _ => some { s with sys := t }

/-- The process may end at a call: the `exit(1)` of `disk_settimer`. -/
def timedTasks (cfg : Config (Int → UInt8) (Ptr → UInt8)) (body : Bodies n σ) :
    Tasks n σ → TasksAction n × Nat → Option (Tasks n σ) :=
  timed (fun s => s.sys.dev) (tasksStep cfg body)

/-- The bodies on the store itself, each call being the transfer. -/
structure Direct (n : Nat) (σ : Type) where
  store : ByteStore
  locals : Fin n → σ
  output : List (Fin n × UInt8)

def TaskStep.perform (st : ByteStore) : TaskStep σ → ByteStore
  | .call cmd block buffer _ => (byteMedium .exact).transfer cmd diskBlockSize block buffer st
  | .assign p v _ => st.poke p v
  | _ => st

def directStep (body : Bodies n σ) (s : Direct n σ) (a : Fin n × Ptr) : Option (Direct n σ) :=
  ((body a.1 (s.locals a.1)).next? a.2).map fun x =>
    { store := (body a.1 (s.locals a.1)).perform s.store
      locals := Function.update s.locals a.1 x
      output := s.output ++
        ((body a.1 (s.locals a.1)).prints s.store.mem).toList.map fun v => (a.1, v) }

section Transfer

variable (block : Int) (buffer : Ptr) (st : ByteStore)

theorem bufferAt_transfer_read :
    bufferAt ((byteMedium .exact).transfer .read diskBlockSize block buffer st).mem buffer =
      blockAt st.file block := by
  funext i
  have hin : InBuffer buffer (buffer + i.val) :=
    ⟨Nat.le_add_right _ _, Nat.add_lt_add_left i.isLt _⟩
  simp only [Medium.transfer, bufferAt, read_apply, if_pos hin, blockAt, Nat.add_sub_cancel_left]

theorem blockAt_transfer_write (b : Int) :
    blockAt ((byteMedium .exact).transfer .write diskBlockSize block buffer st).file b =
      Function.update (blockAt st.file) block (bufferAt st.mem buffer) b := by
  funext i
  have hi : (i.val : Int) < diskBlockSize := Int.ofNat_lt.mpr i.isLt
  have hself : InBlock b (b * diskBlockSize + i.val) := ⟨by omega, by omega⟩
  by_cases hb : b = block
  · subst b
    have hsub : (block * diskBlockSize + i.val - block * diskBlockSize).toNat = i.val := by omega
    simp only [Medium.transfer, blockAt, write_apply, if_pos hself, hsub, Function.update_self,
      bufferAt]
  · simp only [Medium.transfer, blockAt, write_apply, if_neg (hself.ne hb),
      Function.update_of_ne hb]

variable {block buffer}

theorem bufferAt_transfer_other (cmd : TaskCmd) {p : Ptr} (h : DisjointBuffers buffer p) :
    bufferAt ((byteMedium .exact).transfer cmd diskBlockSize block buffer st).mem p =
      bufferAt st.mem p :=
  bufferAt_execute (x := ⟨0, 0, block, buffer, cmd, 0⟩) h st

theorem blockAt_transfer_other (cmd : TaskCmd) {b : Int} (h : b ≠ block) :
    blockAt ((byteMedium .exact).transfer cmd diskBlockSize block buffer st).file b =
      blockAt st.file b := by
  cases cmd with
  | read => rfl
  | write => rw [blockAt_transfer_write, Function.update_of_ne h]

end Transfer

def TasksAction.own? : TasksAction n → Option (Fin n × Ptr)
  | .own c addr => some (c, addr)
  | _ => none

/-- The step uses no buffer in flight, and its call is valid. -/
def TaskStep.KeepsOff (numblocks : Int) (s : ByteState n) (c : Fin n) (addr : Ptr) :
    TaskStep σ → Prop
  | .call cmd block buffer _ => Careful numblocks s (.call c cmd block buffer addr)
  | .assign p _ _ | .print p _ => ∀ x ∈ s.inFlight, ¬InBuffer x.buffer p
  | .malloc _ | .silent _ | .finished => True

instance (numblocks : Int) (s : ByteState n) (c : Fin n) (addr : Ptr) :
    (x : TaskStep σ) → Decidable (x.KeepsOff numblocks s c addr)
  | .call cmd block buffer _ =>
    inferInstanceAs (Decidable (Careful numblocks s (.call c cmd block buffer addr)))
  | .assign p _ _ | .print p _ =>
    inferInstanceAs (Decidable (∀ x ∈ s.inFlight, ¬InBuffer x.buffer p))
  | .malloc _ | .silent _ | .finished => inferInstanceAs (Decidable True)

def HandsOff (numblocks : Int) (body : Bodies n σ) (s : Tasks n σ) : TasksAction n → Prop
  | .own c addr => (body c (s.locals c)).KeepsOff numblocks s.sys c addr
  | _ => True

instance (numblocks : Int) (body : Bodies n σ) (s : Tasks n σ) :
    (a : TasksAction n) → Decidable (HandsOff numblocks body s a)
  | .own c addr => inferInstanceAs
      (Decidable ((body c (s.locals c)).KeepsOff numblocks s.sys c addr))
  | .client _ | .disk | .fire | .tick => inferInstanceAs (Decidable True)

def Tasks.direct (s : Tasks n σ) : Direct n σ := ⟨s.sys.settled, s.locals, s.output⟩

section Step

variable {cfg : Config (Int → UInt8) (Ptr → UInt8)} {body : Bodies n σ} {s t : Tasks n σ}

theorem tasksStep_own {c : Fin n} {addr : Ptr} (h : tasksStep cfg body s (.own c addr) = some t) :
    ∃ x, run (PingPong.step cfg) s.sys (sysAction body s (.own c addr)).toList = some t.sys ∧
      s.sys.clients c = .outside ∧ (body c (s.locals c)).next? addr = some x ∧
      t.locals = Function.update s.locals c x ∧ t.output = s.output ++
        ((body c (s.locals c)).prints s.sys.store.mem).toList.map fun v => (c, v) := by
  simp only [tasksStep, Option.bind_eq_some_iff, Option.ite_none_right_eq_some,
    Option.map_eq_some_iff] at h
  obtain ⟨u, hu, hout, x, hx, rfl⟩ := h
  exact ⟨x, hu, hout, hx, rfl, rfl⟩

theorem tasksStep_sys {a : TasksAction n} {b : Action n (Ptr → UInt8)} (ha : a.own? = none)
    (hb : sysAction body s a = some b) (h : tasksStep cfg body s a = some t) :
    PingPong.step cfg s.sys b = some t.sys ∧ t.locals = s.locals ∧ t.output = s.output := by
  rw [tasksStep, hb, Option.bind_eq_some_iff] at h
  obtain ⟨u, hu, h⟩ := h
  obtain ⟨v, hv, hend⟩ := run_cons.mp hu
  obtain rfl : v = u := Option.some.inj hend
  cases a with
  | own => cases ha
  | client | disk | fire | tick =>
    cases h
    exact ⟨hv, rfl, rfl⟩

theorem tasksStep_run {a : TasksAction n} (h : tasksStep cfg body s a = some t) :
    run (PingPong.step cfg) s.sys (sysAction body s a).toList = some t.sys := by
  cases a with
  | own c addr =>
    obtain ⟨x, hrun, -⟩ := tasksStep_own h
    exact hrun
  | client | disk | fire | tick =>
    obtain ⟨hstep, -⟩ := tasksStep_sys rfl rfl h
    exact run_cons.mpr ⟨t.sys, hstep, rfl⟩

theorem tasksStep_timed {a : TasksAction n} (hs : s.sys.dev.Timed)
    (h : tasksStep cfg body s a = some t) : t.sys.dev.Timed :=
  run_invariant (P := fun s : ByteState n => s.dev.Timed)
    (fun _ _ _ hs _ ht => (step_cases ht).timed hs) hs (along_trivial _ _ _) (tasksStep_run h)

theorem run_tasks_timed {as : List (TasksAction n)} (hs : s.sys.dev.Timed)
    (h : run (tasksStep cfg body) s as = some t) : t.sys.dev.Timed :=
  run_invariant (P := fun s : Tasks n σ => s.sys.dev.Timed)
    (fun _ _ _ hs _ ht => tasksStep_timed hs ht) hs (along_trivial _ _ as) h

theorem run_timedTasks {as : List (TasksAction n)} (hs : s.sys.dev.Timed)
    (h : run (tasksStep cfg body) s as = some t) {randoms : List Nat}
    (hlen : randoms.length = as.length) :
    run (timedTasks cfg body) s (as.zip randoms) = some t :=
  run_timed (P := fun s : Tasks n σ => s.sys.dev.Timed) (fun _ hs => hs)
    (fun _ _ _ hs ht => tasksStep_timed hs ht) hs h hlen

theorem Sequenced.poke_step (hmd : cfg.md = byteMedium .wrap32) {numblocks : Int}
    (hfit : numblocks * diskBlockSize ≤ intMax) {s t : ByteState n} (hs : Sequenced numblocks s)
    {p : Ptr} {v : UInt8} (hp : ∀ x ∈ s.inFlight, ¬InBuffer x.buffer p) {c : Fin n}
    (h : Step cfg s (.store c (s.store.poke p v).mem) t) :
    Sequenced numblocks t ∧ t.settled = s.settled.poke p v := by
  have hkeep : KeepsBuffers numblocks s (.store c (s.store.poke p v).mem) := by
    intro x hx
    funext i
    have hin : InBuffer x.buffer (x.buffer + i.val) :=
      ⟨Nat.le_add_right _ _, Nat.add_lt_add_left i.isLt _⟩
    have hne : x.buffer + i.val ≠ p := fun he => hp x hx (he ▸ hin)
    simp only [bufferAt, Store.poke, Function.update_of_ne hne]
  have hdis : KeepsDispatch s (.store c (s.store.poke p v).mem) := trivial
  refine ⟨(hs.step hmd hfit hdis hkeep h).1, ?_⟩
  cases h
  exact (commute_applyAll (fun x hx => poke_commute (hp x hx)) s.store).symm

/-- The body of a task that is outside goes on as it does with no manager. -/
theorem Sequenced.own_step (hmd : cfg.md = byteMedium .wrap32) {numblocks : Int}
    (hfit : numblocks * diskBlockSize ≤ intMax) (hs : Sequenced numblocks s.sys) {c : Fin n}
    {addr : Ptr} (hok : HandsOff numblocks body s (.own c addr))
    (h : tasksStep cfg body s (.own c addr) = some t) :
    Sequenced numblocks t.sys ∧ directStep body s.direct (c, addr) = some t.direct := by
  obtain ⟨x, hrun, hout, hnext, hlocals, houtput⟩ := tasksStep_own h
  have hdirect (hstore : (body c (s.locals c)).perform s.sys.settled = t.sys.settled)
      (hprints : (body c (s.locals c)).prints s.sys.settled.mem =
        (body c (s.locals c)).prints s.sys.store.mem) :
      directStep body s.direct (c, addr) = some t.direct := by
    simp only [directStep, Tasks.direct, hnext, Option.map_some, hstore, hprints, hlocals, houtput]
  rw [sysAction, HandsOff] at *
  cases hbody : body c (s.locals c) with
  | call cmd block buffer x =>
    rw [hbody] at hrun hok hdirect
    obtain ⟨v, hv, hend⟩ := run_cons.mp hrun
    obtain rfl : v = t.sys := Option.some.inj hend
    obtain ⟨hseq, hsettled⟩ := hs.step hmd hfit hok.1 hok.2 (step_cases hv)
    exact ⟨hseq, hdirect hsettled.symm rfl⟩
  | assign p v x =>
    rw [hbody] at hrun hok hdirect
    obtain ⟨u, hu, hend⟩ := run_cons.mp hrun
    obtain rfl : u = t.sys := Option.some.inj hend
    obtain ⟨hseq, hsettled⟩ := hs.poke_step hmd hfit hok (step_cases hu)
    exact ⟨hseq, hdirect hsettled.symm rfl⟩
  | print p x =>
    rw [hbody] at hrun hok hdirect
    have hsys : s.sys = t.sys := Option.some.inj hrun
    refine ⟨hsys ▸ hs, hdirect (hsys ▸ rfl) ?_⟩
    rw [TaskStep.prints, TaskStep.prints, State.settled, mem_applyAll hok]
  | malloc | silent =>
    rw [hbody] at hrun hdirect
    have hsys : s.sys = t.sys := Option.some.inj hrun
    exact ⟨hsys ▸ hs, hdirect (hsys ▸ rfl) rfl⟩
  | finished =>
    rw [hbody] at hnext
    cases hnext

theorem Sequenced.tasks_step (hmd : cfg.md = byteMedium .wrap32) {numblocks : Int}
    (hfit : numblocks * diskBlockSize ≤ intMax) (hs : Sequenced numblocks s.sys)
    {a : TasksAction n} (hok : HandsOff numblocks body s a) (h : tasksStep cfg body s a = some t) :
    Sequenced numblocks t.sys ∧
      run (directStep body) s.direct a.own?.toList = some t.direct := by
  cases a with
  | own c addr =>
    obtain ⟨hseq, hdirect⟩ := hs.own_step hmd hfit hok h
    exact ⟨hseq, run_cons.mpr ⟨t.direct, hdirect, rfl⟩⟩
  | client | disk | fire | tick =>
    obtain ⟨hstep, hlocals, houtput⟩ := tasksStep_sys rfl rfl h
    obtain ⟨hseq, hsettled⟩ :=
      hs.step hmd hfit (by trivial) (by trivial) (step_cases hstep)
    refine ⟨hseq, congrArg some ?_⟩
    rw [Tasks.direct, Tasks.direct, hlocals, houtput, hsettled]
    rfl

end Step

theorem run_direct {cfg : Config (Int → UInt8) (Ptr → UInt8)}
    (hmd : cfg.md = byteMedium .wrap32) {numblocks : Int}
    (hfit : numblocks * diskBlockSize ≤ intMax) {body : Bodies n σ} {heap : Ptr → Request}
    {store : ByteStore} {locals : Fin n → σ} {as : List (TasksAction n)} {s : Tasks n σ}
    (hok : Along (tasksStep cfg body) (HandsOff numblocks body)
      ⟨initial numblocks heap store, locals, []⟩ as)
    (h : run (tasksStep cfg body) ⟨initial numblocks heap store, locals, []⟩ as = some s) :
    run (directStep body) ⟨store, locals, []⟩ (as.filterMap TasksAction.own?) = some s.direct ∧
      Sequenced numblocks s.sys := by
  have hstart : Sequenced numblocks (initial numblocks heap store : ByteState n) :=
    initial_sequenced numblocks heap store
  obtain ⟨d, hd, hs, rfl⟩ := run_projected (R := fun (s : Tasks n σ) (d : Direct n σ) =>
      Sequenced numblocks s.sys ∧ s.direct = d) (fun s a t d hs hok ht => by
        obtain ⟨hseq, hrun⟩ := hs.1.tasks_step hmd hfit hok ht
        exact ⟨t.direct, hs.2 ▸ hrun, hseq, rfl⟩) ⟨hstart, rfl⟩ hok h
  exact ⟨hd, hs⟩

/-- The writer changes a byte and writes its buffer to the block that the others read. -/
def handOver (writer : Fin n) (c : Fin n) : Nat → TaskStep Nat
  | 0 => if c = writer then .assign 66 7 1 else .call .read 3 200 2
  | 1 => .call .write 3 64 3
  | 2 => .print 202 3
  | _ => .finished

/-- The reader's call begins while the write is on its way. -/
def handOverRun (c d : Fin n) : List (TasksAction n) :=
  [.own c 0, .own c 16, .client c, .client c, .own d 32] ++ List.replicate 11 .disk ++
    [.fire, .client c, .client c, .client c, .client d, .client d] ++ List.replicate 11 .disk ++
    [.fire, .client d, .client d, .client d, .own d 0]

/-- From the local states that satisfy `P` the bodies make valid calls only. -/
def CallsValid (numblocks : Int) (body : Bodies n σ) (P : σ → Prop) : Prop :=
  ∀ c x, P x → (∀ cmd block buffer y, body c x = .call cmd block buffer y →
    Accepts numblocks block buffer) ∧ ∀ addr y, (body c x).next? addr = some y → P y

/-- Nothing is in flight when the body of a task that is alone takes a step. -/
theorem alone_handsOff {numblocks : Int} {body : Bodies n σ} {P : σ → Prop}
    (hvalid : CallsValid numblocks body P) {s : Tasks n σ} (hs : Handshake s.sys)
    (hout : ∀ c, s.sys.clients c = .outside) {c : Fin n} (hP : P (s.locals c)) (addr : Ptr) :
    HandsOff numblocks body s (.own c addr) := by
  have hflight := inFlight_outside hs hout
  have hfreed := freed_outside hs hout
  obtain ⟨hcalls, -⟩ := hvalid c (s.locals c) hP
  rw [HandsOff]
  cases hbody : body c (s.locals c) with
  | call cmd block buffer x =>
    refine ⟨fun he => ?_, hcalls _ _ _ _ hbody, by simp [hflight]⟩
    rw [hfreed] at he
    cases he
  | assign | print => simp [TaskStep.KeepsOff, hflight]
  | malloc | silent | finished => trivial

/-- A task that is alone always runs as it does on the store itself. -/
theorem alone_run_direct {cfg : Config (Int → UInt8) (Ptr → UInt8)}
    (hmd : cfg.md = byteMedium .wrap32) {numblocks : Int}
    (hfit : numblocks * diskBlockSize ≤ intMax) {body : Bodies 1 σ} {P : σ → Prop}
    (hvalid : CallsValid numblocks body P) {heap : Ptr → Request} {store : ByteStore}
    {locals : Fin 1 → σ} (hP : ∀ c, P (locals c)) {as : List (TasksAction 1)} {s : Tasks 1 σ}
    (h : run (tasksStep cfg body) ⟨initial numblocks heap store, locals, []⟩ as = some s) :
    run (directStep body) ⟨store, locals, []⟩ (as.filterMap TasksAction.own?) =
        some s.direct ∧
      ((∀ c, s.sys.clients c = .outside) → s.sys.settled = s.sys.store) := by
  have hnext (s : Tasks 1 σ) (a : TasksAction 1) (t : Tasks 1 σ)
      (hs : Handshake s.sys ∧ ∀ c, P (s.locals c)) (ht : tasksStep cfg body s a = some t) :
      (Handshake t.sys ∧ ∀ c, P (t.locals c)) ∧ HandsOff numblocks body s a := by
    cases a with
    | own c addr =>
      obtain ⟨x, hrun, hout, hnext, hlocals, -⟩ := tasksStep_own ht
      have hall (d : Fin 1) : s.sys.clients d = .outside := Subsingleton.elim c d ▸ hout
      refine ⟨⟨?_, fun d => ?_⟩, alone_handsOff hvalid hs.1 hall (hs.2 c) addr⟩
      · exact run_invariant (fun _ _ _ hs _ hu => hs.step (step_cases hu)) hs.1
          (along_trivial _ _ _) hrun
      · rw [hlocals, Subsingleton.elim d c, Function.update_self]
        exact (hvalid c _ (hs.2 c)).2 addr x hnext
    | client | disk | fire | tick =>
      obtain ⟨hstep, hlocals, -⟩ := tasksStep_sys rfl rfl ht
      exact ⟨⟨hs.1.step (step_cases hstep), hlocals ▸ hs.2⟩, trivial⟩
  have hstart : Handshake (initial numblocks heap store : ByteState 1) :=
    initial_handshake numblocks heap store
  have hok := (Along.backward (P := fun _ => True) (fun s a t hs ht => (hnext s a t hs ht).1)
    (fun s a t hs _ _ ht => ⟨trivial, (hnext s a t hs ht).2⟩) (along_trivial _ _ as)
    ⟨hstart, hP⟩ trivial h).2
  obtain ⟨hdirect, hseq⟩ := run_direct hmd hfit hok h
  exact ⟨hdirect, settled_outside hseq.handshake⟩

/-- A call is seventeen steps of the manager besides its own. -/
def TaskStep.cost : TaskStep σ → Nat
  | .call .. => 18
  | .assign .. | .print .. | .malloc .. | .silent .. => 1
  | .finished => 0

def Bounded (body : Bodies n σ) (left : σ → Nat) : Prop :=
  ∀ c x addr y, (body c x).next? addr = some y → left y + (body c x).cost ≤ left x

def Tasks.work (left : σ → Nat) (s : Tasks n σ) : Nat := (∑ c, left (s.locals c)) + s.sys.work

def TasksAction.works : TasksAction n → Bool
  | .tick => false
  | _ => true

def TasksAction.cost (a : TasksAction n) : Nat := if a.works then 1 else 0

def Tasks.ended (body : Bodies n σ) (s : Tasks n σ) : Prop :=
  ∀ c, s.sys.clients c = .outside ∧ body c (s.locals c) = .finished

theorem sum_cost_tasks (as : List (TasksAction n)) :
    (as.map TasksAction.cost).sum = as.countP TasksAction.works := by
  induction as with
  | nil => rfl
  | cons a as ih =>
    rw [List.map_cons, List.sum_cons, ih, List.countP_cons, TasksAction.cost, Nat.add_comm]

section Progress

variable {cfg : Config (Int → UInt8) (Ptr → UInt8)} {body : Bodies n σ} {left : σ → Nat}
  {s t : Tasks n σ}

theorem tasks_work_step (hleft : Bounded body left) {a : TasksAction n} (hs : Running s.sys)
    (h : tasksStep cfg body s a = some t) :
    Running t.sys ∧ t.work left + a.cost ≤ s.work left := by
  have hsys {b : Action n (Ptr → UInt8)} (hb : PingPong.step cfg s.sys b = some t.sys) :
      Running t.sys ∧ t.sys.work + b.cost = s.sys.work + b.gain :=
    ⟨hs.step (step_cases hb), work_step hs.handshake (step_cases hb)⟩
  cases a with
  | own c addr =>
    obtain ⟨x, hrun, -, hnext, hlocals, -⟩ := tasksStep_own h
    have hsum := sum_update (x := x) left (f := s.locals) (i := c) rfl
    have hbound := hleft c (s.locals c) addr x hnext
    have hmoved (k : Nat) (hk : k ≤ (body c (s.locals c)).cost)
        (hwork : t.sys.work + 1 = s.sys.work + k) : t.work left + 1 ≤ s.work left := by
      rw [Tasks.work, Tasks.work, hlocals]
      omega
    rw [sysAction] at hrun
    cases hbody : body c (s.locals c) with
    | call cmd block buffer x =>
      rw [hbody] at hrun hmoved
      obtain ⟨v, hv, hend⟩ := run_cons.mp hrun
      obtain rfl : v = t.sys := Option.some.inj hend
      obtain ⟨hrunning, hwork⟩ := hsys hv
      exact ⟨hrunning, hmoved 18 (le_refl _) (congrArg Nat.succ hwork)⟩
    | assign p v x =>
      rw [hbody] at hrun hmoved
      obtain ⟨u, hu, hend⟩ := run_cons.mp hrun
      obtain rfl : u = t.sys := Option.some.inj hend
      obtain ⟨hrunning, hwork⟩ := hsys hu
      exact ⟨hrunning, hmoved 1 (le_refl _) (congrArg Nat.succ hwork)⟩
    | print | malloc | silent =>
      rw [hbody] at hrun hmoved
      have hsame : s.sys = t.sys := Option.some.inj hrun
      exact ⟨hsame ▸ hs, hmoved 1 (le_refl _) (by rw [hsame])⟩
    | finished =>
      rw [hbody] at hnext
      cases hnext
  | client | disk | fire | tick =>
    obtain ⟨hstep, hlocals, -⟩ := tasksStep_sys rfl rfl h
    obtain ⟨hrunning, hwork⟩ := hsys hstep
    refine ⟨hrunning, ?_⟩
    rw [Tasks.work, Tasks.work, hlocals]
    simp only [Action.cost, Action.gain, Action.works, Action.isCall, TasksAction.cost,
      TasksAction.works, if_true, Bool.false_eq_true, if_false] at hwork ⊢
    omega

theorem tasksStep_enabled {a : TasksAction n} {b : Action n (Ptr → UInt8)} {u : ByteState n}
    (ha : a.own? = none) (hb : sysAction body s a = some b)
    (hu : PingPong.step cfg s.sys b = some u) :
    tasksStep cfg body s a = some { s with sys := u } := by
  have hrun : run (PingPong.step cfg) s.sys (some b).toList = some u := run_cons.mpr ⟨u, hu, rfl⟩
  rw [tasksStep, hb, hrun]
  cases a with
  | own => cases ha
  | _ => rfl

theorem manager_moves (hs : Running s.sys) {c : Fin n} (hc : s.sys.clients c ≠ .outside) :
    ∃ a t, a.works = true ∧ a.own? = none ∧ tasksStep cfg body s a = some t := by
  obtain ⟨b, u, hworks, hu⟩ : ∃ b u, b.works = true ∧ PingPong.step cfg s.sys b = some u :=
    hs.call_moves hc
  cases b with
  | client d => exact ⟨.client d, _, rfl, rfl, tasksStep_enabled rfl rfl hu⟩
  | disk => exact ⟨.disk, _, rfl, rfl, tasksStep_enabled rfl rfl hu⟩
  | fire => exact ⟨.fire, _, rfl, rfl, tasksStep_enabled rfl rfl hu⟩
  | call | store | tick => cases hworks

theorem own_moves {c : Fin n} (hout : s.sys.clients c = .outside)
    (hbody : body c (s.locals c) ≠ .finished) {addr : Ptr} (hnull : addr ≠ 0)
    (hfresh : addr ∉ s.sys.list) : ∃ t, tasksStep cfg body s (.own c addr) = some t := by
  have hnext : ∃ x, (body c (s.locals c)).next? addr = some x := by
    cases hb : body c (s.locals c) with
    | finished => exact absurd hb hbody
    | _ => exact ⟨_, rfl⟩
  have hrun : ∃ u, run (PingPong.step cfg) s.sys (sysAction body s (.own c addr)).toList =
      some u := by
    rw [sysAction]
    cases body c (s.locals c) with
    | call cmd block buffer x =>
      exact ⟨_, run_cons.mpr ⟨_, (Step.call rfl hout hnull hfresh).enabled, rfl⟩⟩
    | assign p v x => exact ⟨_, run_cons.mpr ⟨_, (Step.store hout).enabled, rfl⟩⟩
    | _ => exact ⟨s.sys, rfl⟩
  obtain ⟨x, hx⟩ := hnext
  obtain ⟨u, hu⟩ := hrun
  refine Option.isSome_iff_exists.mp ?_
  simp only [tasksStep, hu, Option.bind_some, if_pos hout, hx, Option.map_some, Option.isSome_some]

theorem tasks_move (hs : Running s.sys) (h : ¬s.ended body) :
    ∃ a t, a.works = true ∧ tasksStep cfg body s a = some t := by
  obtain ⟨c, hc⟩ := not_forall.mp h
  by_cases hout : s.sys.clients c = .outside
  · obtain ⟨addr, hfresh⟩ := Infinite.exists_notMem_finset (insert 0 s.sys.list.toFinset)
    simp only [Finset.mem_insert, List.mem_toFinset, not_or] at hfresh
    obtain ⟨t, ht⟩ : ∃ t, tasksStep cfg body s (.own c addr) = some t :=
      own_moves hout (fun he => hc ⟨hout, he⟩) hfresh.1 hfresh.2
    exact ⟨.own c addr, t, rfl, ht⟩
  · obtain ⟨a, t, hworks, -, ht⟩ : ∃ a t, a.works = true ∧ a.own? = none ∧
        tasksStep cfg body s a = some t := manager_moves hs hout
    exact ⟨a, t, hworks, ht⟩

end Progress

/-- The tasks end: the work left pays for every step but the timer's, some such step is
enabled until all bodies are finished and outside, and so every run can be completed. -/
theorem tasks_finish {cfg : Config (Int → UInt8) (Ptr → UInt8)} {numblocks : Int}
    {body : Bodies n σ} {left : σ → Nat} (hleft : Bounded body left) {heap : Ptr → Request}
    {store : ByteStore} {locals : Fin n → σ} {as : List (TasksAction n)} {s : Tasks n σ}
    (h : run (tasksStep cfg body) ⟨initial numblocks heap store, locals, []⟩ as = some s) :
    as.countP TasksAction.works + s.work left ≤ (∑ c, left (locals c)) + 1 ∧
    (¬s.ended body → ∃ a t, a.works = true ∧ tasksStep cfg body s a = some t) ∧
    ∃ bs u, run (tasksStep cfg body) s bs = some u ∧ u.ended body := by
  have hstart : Running (initial numblocks heap store : ByteState n) :=
    initial_running numblocks heap store
  have hstep (v : Tasks n σ) (a : TasksAction n) (t : Tasks n σ) (hv : Running v.sys)
      (ht : tasksStep cfg body v a = some t) :
      Running t.sys ∧ t.work left + a.cost ≤ v.work left := tasks_work_step hleft hv ht
  obtain ⟨hs, hwork⟩ := run_budget hstep hstart h
  refine ⟨?_, tasks_move hs, ?_⟩
  · have hinitial : (⟨initial numblocks heap store, locals, []⟩ : Tasks n σ).work left =
        (∑ c, left (locals c)) + 1 := congrArg _ (work_initial numblocks heap store)
    rw [sum_cost_tasks, hinitial] at hwork
    rwa [Nat.add_comm]
  · have hnext (v : Tasks n σ) (hv : Running v.sys) (hend : ¬v.ended body) :
        ∃ a t, a.works = true ∧ tasksStep cfg body v a = some t ∧ Running t.sys ∧
          t.work left < v.work left := by
      obtain ⟨a, t, ha, ht⟩ : ∃ a t, a.works = true ∧ tasksStep cfg body v a = some t :=
        tasks_move hv hend
      obtain ⟨hrunning, hless⟩ := hstep v a t hv ht
      rw [TasksAction.cost, if_pos ha] at hless
      exact ⟨a, t, ha, ht, hrunning, hless⟩
    obtain ⟨bs, u, hu, -, -, hend⟩ := exists_run_to hnext hs
    exact ⟨bs, u, hu, hend⟩

end PingPong
