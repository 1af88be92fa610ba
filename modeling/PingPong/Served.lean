import PingPong.DiskRuns
import PingPong.Ownership
import PingPong.Work

/-! The fate of every request. A request that is enqueued is returned from once, and as long
as its node is not overwritten it is passed to `disk_cmd` once, and carried out once if
`disk_cmd` accepts it. Whichever client a completion wakes, nothing is lost: at rest the
list is empty and every account is closed. -/

namespace PingPong

open Runs

variable {n : Nat} {φ μ : Type}

def Event.returned? : Event → Option Request
  | .returned r _ => some r
  | _ => none

def Event.completed? : Event → Option Request
  | .completed r _ _ _ => some r
  | _ => none

/-- The request behind a command that `disk_cmd` has accepted. -/
def Event.started? : Event → Option Request
  | .dispatched r _ _ _ ret => if ret = 0 then some r else none
  | _ => none

/-- What the device has to do for the request. -/
def Request.transfer (r : Request) : Transfer := ⟨r.cTaskAction, r.block, r.buffer⟩

/-- The arguments of `disk_cmd`. -/
def Event.command? : Event → Option Transfer
  | .dispatched _ cmd block buffer _ => some ⟨cmd, block, buffer⟩
  | _ => none

/-- The arguments of a command that `disk_cmd` has accepted. -/
def Event.ordered? : Event → Option Transfer
  | .dispatched _ cmd block buffer ret => if ret = 0 then some ⟨cmd, block, buffer⟩ else none
  | _ => none

def Event.carried? : Event → Option Transfer
  | .completed _ cmd block buffer => some ⟨cmd, block, buffer⟩
  | _ => none

def returnedOf (hist : List Event) : List Request := hist.filterMap Event.returned?

def completedOf (hist : List Event) : List Request := hist.filterMap Event.completed?

def startedOf (hist : List Event) : List Request := hist.filterMap Event.started?

def commandsOf (hist : List Event) : List Transfer := hist.filterMap Event.command?

def orderedOf (hist : List Event) : List Transfer := hist.filterMap Event.ordered?

def carriedOf (hist : List Event) : List Transfer := hist.filterMap Event.carried?

def ClientPc.inCall (pc : ClientPc) : Multiset Request := (pc.request.toList : Multiset Request)

theorem inCall_outside : ClientPc.outside.inCall = 0 := rfl

theorem inCall_request {pc : ClientPc} {r : Request} (h : pc.request = some r) :
    pc.inCall = {r} := by
  rw [ClientPc.inCall, h]
  rfl

structure Accounted (s : State n φ μ) : Prop where
  returned : (returnedOf s.hist : Multiset Request) + ∑ c, (s.clients c).inCall =
    (enqueuedOf s.hist : Multiset Request)
  completed : startedOf s.hist = (if s.dev.busy then [s.serving] else []) ++ completedOf s.hist

theorem initial_accounted (numblocks : Int) (heap : Ptr → Request) (store : Store φ μ) :
    Accounted (initial numblocks heap store : State n φ μ) where
  returned := by simp [initial, returnedOf, enqueuedOf, ClientPc.inCall, ClientPc.request]
  completed := by simp [initial, startedOf, completedOf, Device.busy, Device.start]

theorem Accounted.frame {s t : State n φ μ} (hs : Accounted s)
    (hclients : ∑ c, (t.clients c).inCall = ∑ c, (s.clients c).inCall)
    (hbusy : t.dev.busy = s.dev.busy) (hserving : t.serving = s.serving)
    (hret : returnedOf t.hist = returnedOf s.hist) (henq : enqueuedOf t.hist = enqueuedOf s.hist)
    (hstart : startedOf t.hist = startedOf s.hist)
    (hcomp : completedOf t.hist = completedOf s.hist) : Accounted t where
  returned := by
    rw [hret, hclients, henq]
    exact hs.returned
  completed := by
    rw [hstart, hbusy, hserving, hcomp]
    exact hs.completed

theorem inCall_update {clients : Fin n → ClientPc} {c : Fin n} {pc pc' : ClientPc}
    (hpc : clients c = pc) (h : pc'.inCall = pc.inCall) :
    ∑ i, (Function.update clients c pc' i).inCall = ∑ i, (clients i).inCall := by
  have hsum := sum_update (x := pc') ClientPc.inCall hpc
  rw [h] at hsum
  exact add_right_cancel hsum

theorem Accounted.step {cfg : Config φ μ} {s t : State n φ μ} {a : Action n μ}
    (hshake : Handshake s) (hs : Accounted s) (h : Step cfg s a t) : Accounted t := by
  cases h with
  | @call c cmd block buffer addr r hr hpc hnull hfresh =>
    refine ⟨?_, hs.completed⟩
    have hsum := sum_update (x := ClientPc.lockRequest r) ClientPc.inCall hpc
    rw [inCall_outside, add_zero, inCall_request rfl] at hsum
    show (returnedOf s.hist : Multiset Request) + _ = r ::ₘ (enqueuedOf s.hist : Multiset Request)
    rw [hsum, ← add_assoc, hs.returned, add_comm, Multiset.singleton_add]
  | lock hpc | upNew hpc | downTreated hpc | unlock hpc =>
    exact hs.frame (inCall_update hpc rfl) rfl rfl rfl rfl rfl rfl
  | @ret c r hpc =>
    refine ⟨?_, hs.completed⟩
    have hsum := sum_update (x := ClientPc.outside) ClientPc.inCall hpc
    rw [inCall_outside, add_zero, inCall_request rfl] at hsum
    show r ::ₘ (returnedOf s.hist : Multiset Request) + _ = (enqueuedOf s.hist : Multiset Request)
    rw [← hs.returned, ← hsum, Multiset.cons_add, ← add_assoc, ← Multiset.singleton_add, add_comm]
  | store | tick | enterLoop | leaveLoop | downNew | empty | nonempty | choose | remove | notIdle
  | isIdle | setStart | account | setCurrBlock | setBuffer | upTreated =>
    exact hs.frame rfl rfl rfl rfl rfl rfl rfl
  | refuse => exact hs.frame rfl rfl rfl rfl rfl rfl rfl
  | @accept p r hpc hdev hacc =>
    refine ⟨hs.returned, ?_⟩
    have hidle : s.dev.busy = false := by simp [Device.busy, hdev]
    have hold := hs.completed
    rw [hidle] at hold
    show r :: startedOf s.hist = _
    rw [Device.busy_iff.mpr (s.heap p).cTaskAction.busy_status, hold]
    rfl
  | fire htimer hdev =>
    refine ⟨hs.returned, ?_⟩
    have hbusy : s.dev.busy = true := hshake.timer ▸ htimer
    have hold := hs.completed
    rw [hbusy] at hold
    exact hold

/-- What the history says of the commands: `disk_cmd` has answered each by its own checks,
and what the device carries out or has carried out was accepted. -/
structure Answered (s : State n φ μ) : Prop where
  answer : ∀ r cmd block buffer ret, Event.dispatched r cmd block buffer ret ∈ s.hist →
    (ret = 0 ↔ Accepts s.dev.numblocks block buffer)
  started : s.dev.busy = true →
    Event.dispatched s.serving s.dev.command s.dev.nextBlock s.dev.buffer 0 ∈ s.hist
  carried : ∀ r cmd block buffer, Event.completed r cmd block buffer ∈ s.hist →
    Event.dispatched r cmd block buffer 0 ∈ s.hist

theorem initial_answered (numblocks : Int) (heap : Ptr → Request) (store : Store φ μ) :
    Answered (initial numblocks heap store : State n φ μ) where
  answer _ _ _ _ _ he := by simp [initial] at he
  started hbusy := by simp [initial, Device.start] at hbusy
  carried _ _ _ _ he := by simp [initial] at he

theorem Answered.frame {s t : State n φ μ} (hs : Answered s) (hdev : t.dev = s.dev)
    (hserving : t.serving = s.serving)
    (hdis : ∀ r cmd block buffer ret, Event.dispatched r cmd block buffer ret ∈ t.hist ↔
      Event.dispatched r cmd block buffer ret ∈ s.hist)
    (hcomp : ∀ r cmd block buffer, Event.completed r cmd block buffer ∈ t.hist ↔
      Event.completed r cmd block buffer ∈ s.hist) : Answered t where
  answer r cmd block buffer ret he := by
    rw [hdev]
    exact hs.answer r cmd block buffer ret ((hdis ..).mp he)
  started hbusy := by
    rw [hserving, hdev, hdis]
    exact hs.started (hdev ▸ hbusy)
  carried r cmd block buffer he := (hdis ..).mpr (hs.carried r cmd block buffer ((hcomp ..).mp he))

theorem Answered.step {cfg : Config φ μ} {s t : State n φ μ} {a : Action n μ}
    (hshake : Handshake s) (hs : Answered s) (h : Step cfg s a t) : Answered t := by
  cases h with
  | call | ret | choose | remove =>
    exact hs.frame rfl rfl (fun _ _ _ _ _ => by simp) (fun _ _ _ _ => by simp)
  | lock | upNew | downTreated | unlock | store | tick | enterLoop | leaveLoop | downNew | empty
  | nonempty | notIdle | isIdle | setStart | account | setCurrBlock | setBuffer | upTreated =>
    exact hs.frame rfl rfl (fun _ _ _ _ _ => Iff.rfl) (fun _ _ _ _ => Iff.rfl)
  | @accept p r hpc hdev hacc =>
    have hidle : s.dev.busy = false := by simp [Device.busy, hdev]
    have hcmd := Device.command_of_busy (d := { s.dev with
      buffer := s.mgr.buffer
      nextBlock := s.mgr.iCurrBlock
      status := (s.heap p).cTaskAction.busy
      timer := true }) rfl
    refine ⟨fun r' cmd block buffer ret he => ?_, fun _ => ?_, fun r' cmd block buffer he => ?_⟩
    · rcases List.mem_cons.mp he with he | he
      · cases he
        exact iff_of_true rfl hacc
      · exact hs.answer r' cmd block buffer ret he
    · refine List.mem_cons.mpr (.inl ?_)
      rw [hcmd]
    · have hold := (List.mem_cons.mp he).resolve_left (by simp)
      exact List.mem_cons_of_mem _ (hs.carried r' cmd block buffer hold)
  | @refuse p r hpc hrej =>
    have hidle := hshake.idle (by rw [hpc]; rfl)
    refine ⟨fun r' cmd block buffer ret he => ?_, fun hbusy => ?_, fun r' cmd block buffer he => ?_⟩
    · rcases List.mem_cons.mp he with he | he
      · cases he
        exact iff_of_false (by decide) fun hacc => hrej ⟨hidle, hacc⟩
      · exact hs.answer r' cmd block buffer ret he
    · exact List.mem_cons_of_mem _ (hs.started hbusy)
    · have hold := (List.mem_cons.mp he).resolve_left (by simp)
      exact List.mem_cons_of_mem _ (hs.carried r' cmd block buffer hold)
  | @fire cmd htimer hdev =>
    have hstarted := hs.started (hshake.timer ▸ htimer)
    rw [Device.command_of_busy hdev] at hstarted
    refine ⟨fun r' _ block buffer ret he => ?_, fun hbusy => ?_, fun r' _ block buffer he => ?_⟩
    · have hold := (List.mem_cons.mp he).resolve_left (by simp)
      exact hs.answer r' _ block buffer ret hold
    · simp at hbusy
    · rcases List.mem_cons.mp he with he | he
      · cases he
        exact List.mem_cons_of_mem _ hstarted
      · exact List.mem_cons_of_mem _ (hs.carried r' _ block buffer he)

/-- The device carries out what `disk_cmd` has accepted, one transfer after the other. -/
theorem carried_step {cfg : Config φ μ} {s t : State n φ μ} {a : Action n μ}
    (hs : orderedOf s.hist = s.dev.transfer?.toList ++ carriedOf s.hist) (h : Step cfg s a t) :
    orderedOf t.hist = t.dev.transfer?.toList ++ carriedOf t.hist := by
  cases h with
  | @accept p r hpc hdev hacc =>
    have hnone : s.dev.transfer? = none := transfer?_eq_none.mpr (.inr hdev)
    rw [hnone] at hs
    show _ :: orderedOf s.hist = _ ++ carriedOf s.hist
    rw [hs, transfer?_busy rfl]
    rfl
  | @fire cmd htimer hdev =>
    rw [transfer?_busy hdev] at hs
    exact hs
  | _ => exact hs

theorem Handshake.list_le {s : State n φ μ} (hs : Handshake s) : s.list.length ≤ n := by
  have htaken : s.disk.taken.toNat ≤ s.disk.dispatching.toNat := by
    cases s.disk <;> simp [DiskPc.taken, DiskPc.dispatching]
  have hdis (pc : ClientPc) (hq : pc.queued = true) : pc.waiting = false := by
    cases pc <;> simp_all [ClientPc.queued, ClientPc.waiting]
  have hcount := countAt_add_le hdis s.clients
  have hbacklog := hs.backlog
  have htoken := hs.token
  rw [Fintype.card_fin] at hcount
  omega

structure ServedOnce (s : State n φ μ) : Prop where
  bounded : s.list.length ≤ n
  settled : (∀ c, s.clients c = .outside) → s.list = [] ∧ s.dev.status = .idle ∧
    (returnedOf s.hist).Perm (enqueuedOf s.hist) ∧ carriedOf s.hist = orderedOf s.hist

theorem run_accounted {cfg : Config φ μ} {numblocks : Int} {heap : Ptr → Request}
    {store : Store φ μ} {as : List (Action n μ)} {s : State n φ μ}
    (h : run (PingPong.step cfg) (initial numblocks heap store) as = some s) :
    Accounted s ∧ Answered s := by
  have hinv := run_invariant (P := fun s => Handshake s ∧ Accounted s ∧ Answered s)
    (fun s a t hs _ ht => ⟨hs.1.step (step_cases ht), hs.2.1.step hs.1 (step_cases ht),
      hs.2.2.step hs.1 (step_cases ht)⟩)
    ⟨initial_handshake numblocks heap store, initial_accounted numblocks heap store,
      initial_answered numblocks heap store⟩ (along_trivial _ _ as) h
  exact hinv.2

theorem run_carried {cfg : Config φ μ} {numblocks : Int} {heap : Ptr → Request}
    {store : Store φ μ} {as : List (Action n μ)} {s : State n φ μ}
    (h : run (PingPong.step cfg) (initial numblocks heap store) as = some s) :
    orderedOf s.hist = s.dev.transfer?.toList ++ carriedOf s.hist :=
  run_invariant (P := fun s : State n φ μ =>
    orderedOf s.hist = s.dev.transfer?.toList ++ carriedOf s.hist)
    (fun _ _ _ hs _ ht => carried_step hs (step_cases ht)) rfl (along_trivial _ _ as) h

theorem at_rest {cfg : Config φ μ} {numblocks : Int} {heap : Ptr → Request}
    {store : Store φ μ} {as : List (Action n μ)} {s : State n φ μ}
    (h : run (PingPong.step cfg) (initial numblocks heap store) as = some s)
    (hout : ∀ c, s.clients c = .outside) :
    s.list = [] ∧ s.dev.busy = false ∧ (dispatchedOf s.hist).Perm (enqueuedOf s.hist) := by
  have hshake := run_handshake h
  have hcons := run_conserved h
  obtain ⟨hnew, hdisp, hbusy, -⟩ := hshake.no_token fun c => by rw [hout c]; rfl
  have hlen := hshake.backlog
  have htaken : s.disk.taken = false := by
    cases hd : s.disk <;> simp_all [DiskPc.taken, DiskPc.dispatching]
  rw [countAt_eq_zero fun c => by rw [hout c]; rfl, hnew, htaken] at hlen
  have hnil : s.list = [] := List.length_eq_zero_iff.mp hlen
  have hhand : s.disk.inHand = none := by
    cases hd : s.disk <;> simp_all [DiskPc.inHand, DiskPc.dispatching]
  have hperm := hcons.perm
  rw [hnil, hcons.removed, hhand] at hperm
  exact ⟨hnil, hbusy, by simpa using hperm⟩

/-- As long as no node is overwritten while it is being dispatched, `disk_cmd` gets the
arguments of the requests. -/
theorem commandsOf_eq {hist : List Event} (hown : ∀ e ∈ hist, e.Own) :
    commandsOf hist = (dispatchedOf hist).map Request.transfer := by
  induction hist with
  | nil => rfl
  | cons e hist ih =>
    obtain ⟨he, hown⟩ := List.forall_mem_cons.mp hown
    have hrest := ih hown
    cases e with
    | dispatched r cmd block buffer ret =>
      obtain ⟨rfl, rfl, rfl⟩ := he
      exact congrArg (r.transfer :: ·) hrest
    | _ => exact hrest

/-- In every run nothing is left when no client is in a call; and if no call overwrites what
is still to be read, `disk_cmd` has then got the transfer of each enqueued request once. -/
theorem requests_served_once {cfg : Config φ μ} {numblocks : Int} {heap : Ptr → Request}
    {store : Store φ μ} {as : List (Action n μ)} {s : State n φ μ}
    (h : run (PingPong.step cfg) (initial numblocks heap store) as = some s) :
    ServedOnce s ∧
      (Along (PingPong.step cfg) KeepsDispatch (initial numblocks heap store) as →
        (∀ c, s.clients c = .outside) →
        (commandsOf s.hist).Perm ((enqueuedOf s.hist).map Request.transfer)) := by
  have hshake := run_handshake h
  refine ⟨⟨hshake.list_le, fun hout => ?_⟩, fun hok hout => ?_⟩
  · obtain ⟨hnil, hbusy, -⟩ := at_rest h hout
    have hidle := (Device.not_busy hbusy).resolve_right hshake.known
    refine ⟨hnil, hidle, ?_, ?_⟩
    · have hret := (run_accounted h).1.returned
      rw [Finset.sum_eq_zero fun c _ => by rw [hout c]; rfl, add_zero] at hret
      exact Multiset.coe_eq_coe.mp hret
    · have hcarried := run_carried h
      rw [transfer?_eq_none.mpr (.inr hidle)] at hcarried
      exact hcarried.symm
  · rw [commandsOf_eq (run_faithful hok h).own]
    exact (at_rest h hout).2.2.map Request.transfer

/-- `d` takes `mRequest` first, and the disk takes the request of `c` first. -/
def crossedCalls (c d : Fin n) (cmd : TaskCmd) (block : Int) : List (Action n μ) :=
  [.call c cmd 3 64 16, .call d .read block 200 32, .client d, .client d] ++
    List.replicate 11 .disk ++ [.fire, .client d, .client d, .client d, .client c, .client c] ++
    List.replicate 12 .disk ++ [.fire, .client c, .client c, .client c]

/-- Both clients are back, although the completion of block 3 has woken client 1. -/
theorem crossedCalls_run : ∃ s : State 2 (Int → Nat) (Ptr → Nat),
    run (PingPong.step sstfConfig) (smallDisk 2) (crossedCalls 0 1 .read 5) = some s ∧
    (∀ c, s.clients c = .outside) ∧
    completedOf s.hist = [⟨1, 1, 5, 200, .read, 0⟩, ⟨0, 0, 3, 64, .read, 0⟩] := by
  have hrun : (run (PingPong.step sstfConfig) (smallDisk 2) (crossedCalls 0 1 .read 5)).map
      (fun s => (decide (∀ c, s.clients c = .outside), completedOf s.hist)) =
      some (true, [⟨1, 1, 5, 200, .read, 0⟩, ⟨0, 0, 3, 64, .read, 0⟩]) := by decide
  obtain ⟨s, hs, hpair⟩ := Option.map_eq_some_iff.mp hrun
  obtain ⟨hout, hcomp⟩ := Prod.mk.inj hpair
  exact ⟨s, hs, of_decide_eq_true hout, hcomp⟩

theorem requests_served_once_small : ∃ s : State 2 (Int → Nat) (Ptr → Nat),
    run (PingPong.step sstfConfig) (smallDisk 2) (crossedCalls 0 1 .read 5) = some s ∧
    (returnedOf s.hist).Perm (enqueuedOf s.hist) ∧ carriedOf s.hist = orderedOf s.hist ∧
    (commandsOf s.hist).Perm ((enqueuedOf s.hist).map Request.transfer) := by
  obtain ⟨s, hs, hout, -⟩ := crossedCalls_run
  obtain ⟨honce, hcommands⟩ := requests_served_once hs
  obtain ⟨-, -, hret, hcarried⟩ := honce.settled hout
  exact ⟨s, hs, hret, hcarried, hcommands (by decide) hout⟩

theorem startedOf_eq {numblocks : Int} {hist : List Event}
    (hanswer : ∀ r cmd block buffer ret, Event.dispatched r cmd block buffer ret ∈ hist →
      (ret = 0 ↔ Accepts numblocks block buffer)) (hown : ∀ e ∈ hist, e.Own) :
    startedOf hist = (dispatchedOf hist).filter fun r => Accepts numblocks r.block r.buffer := by
  induction hist with
  | nil => rfl
  | cons e hist ih =>
    obtain ⟨he, hown⟩ := List.forall_mem_cons.mp hown
    have hrest := ih (fun r cmd block buffer ret hmem =>
      hanswer r cmd block buffer ret (List.mem_cons_of_mem _ hmem)) hown
    cases e with
    | dispatched r cmd block buffer ret =>
      obtain ⟨-, rfl, rfl⟩ := he
      have hiff := hanswer r cmd r.block r.buffer ret (List.mem_cons_self ..)
      by_cases hret : ret = 0
      · have hsome : (Event.dispatched r cmd r.block r.buffer ret).started? = some r := if_pos hret
        show ((Event.dispatched ..) :: hist).filterMap Event.started? = _
        rw [List.filterMap_cons_some hsome]
        show r :: startedOf hist = (r :: dispatchedOf hist).filter _
        rw [List.filter_cons_of_pos (by simpa using hiff.mp hret), hrest]
      · have hnone : (Event.dispatched r cmd r.block r.buffer ret).started? = none := if_neg hret
        show ((Event.dispatched ..) :: hist).filterMap Event.started? = _
        rw [List.filterMap_cons_none hnone]
        show startedOf hist = (r :: dispatchedOf hist).filter _
        rw [List.filter_cons_of_neg (by simpa using mt hiff.mpr hret), hrest]
    | _ => exact hrest

/-- In every run in which no call overwrites what is still to be read, the device carries
out each enqueued request that is valid once, with its own block and buffer, and no other
one, whichever clients the completions wake. -/
theorem valid_requests_carried_out {cfg : Config φ μ} {numblocks : Int} {heap : Ptr → Request}
    {store : Store φ μ} {as : List (Action n μ)} {s : State n φ μ}
    (hok : Along (PingPong.step cfg) KeepsDispatch (initial numblocks heap store) as)
    (h : run (PingPong.step cfg) (initial numblocks heap store) as = some s)
    (hout : ∀ c, s.clients c = .outside) :
    (completedOf s.hist).Perm
      ((enqueuedOf s.hist).filter fun r => Accepts numblocks r.block r.buffer) ∧
    ∀ r cmd block buffer, Event.completed r cmd block buffer ∈ s.hist →
      cmd = r.cTaskAction ∧ block = r.block ∧ buffer = r.buffer := by
  have hans := (run_accounted h).2
  have hown := (run_faithful hok h).own
  obtain ⟨-, hbusy, hdis⟩ := at_rest h hout
  have hcomp := (run_accounted h).1.completed
  rw [hbusy] at hcomp
  refine ⟨?_, fun r cmd block buffer he => hown _ (hans.carried r cmd block buffer he)⟩
  have hanswer := hans.answer
  rw [run_numblocks h] at hanswer
  have hall : completedOf s.hist = startedOf s.hist := hcomp.symm
  rw [hall, startedOf_eq hanswer hown]
  exact hdis.filter _

theorem valid_requests_carried_out_small : ∃ s : State 2 (Int → Nat) (Ptr → Nat),
    run (PingPong.step sstfConfig) (smallDisk 2) (crossedCalls 0 1 .read 5) = some s ∧
    (completedOf s.hist).Perm
      ((enqueuedOf s.hist).filter fun r => Accepts 16 r.block r.buffer) := by
  obtain ⟨s, hs, hout, -⟩ := crossedCalls_run
  exact ⟨s, hs, (valid_requests_carried_out (by decide) hs hout).1⟩

end PingPong
