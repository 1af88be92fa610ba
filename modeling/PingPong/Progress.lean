import PingPong.DiskTimer
import PingPong.Handshake
import PingPong.Work

/-! What a call costs. It brings in five statements of its own, eleven of the disk task
and the completion, or instead of that the post that follows a refusal, and every step
of a client, the disk task or the device uses up one of these. A call in progress is
never stuck, so the calls of every run return if no further ones are made. -/

namespace PingPong

open Runs

variable {n : Nat} {φ μ : Type}

/-- The statements left to a client, and until it posts `newReqsSem` those of the
dispatch as well. -/
def ClientPc.work : ClientPc → Nat
  | .outside => 0
  | .lockRequest _ => 17
  | .upNewReqs _ => 16
  | .downTreated _ => 3
  | .unlockRequest _ => 2
  | .returning _ => 1

def DiskPc.work : DiskPc → Nat
  | .checkEmpty => 11
  | .choose => 10
  | .remove _ => 9
  | .askStatus _ _ => 8
  | .setStart _ _ => 7
  | .account _ _ => 6
  | .setCurrBlock _ _ _ => 5
  | .setBuffer _ _ => 4
  | .command _ _ => 3
  | .upTreated _ => 2
  | .whileInit => 1
  | .downNewReqs | .exited => 0

def State.work (s : State n φ μ) : Nat :=
  (∑ c, (s.clients c).work) + 12 * s.newReqsSem + s.disk.work + s.dev.busy.toNat

def Action.isCall : Action n μ → Bool
  | .call .. => true
  | _ => false

def Action.works : Action n μ → Bool
  | .client _ | .disk | .fire => true
  | _ => false

def Action.gain (a : Action n μ) : Nat := if a.isCall then 17 else 0

def Action.cost (a : Action n μ) : Nat := if a.works then 1 else 0

theorem sum_gain (as : List (Action n μ)) :
    (as.map Action.gain).sum = 17 * as.countP Action.isCall := by
  induction as with
  | nil => rfl
  | cons a as ih =>
    rw [List.map_cons, List.sum_cons, ih, List.countP_cons, Action.gain]
    split_ifs <;> omega

theorem sum_cost (as : List (Action n μ)) : (as.map Action.cost).sum = as.countP Action.works := by
  induction as with
  | nil => rfl
  | cons a as ih =>
    rw [List.map_cons, List.sum_cons, ih, List.countP_cons, Action.cost, Nat.add_comm]

theorem work_initial (numblocks : Int) (heap : Ptr → Request) (store : Store φ μ) :
    (initial numblocks heap store : State n φ μ).work = 1 := by
  simp [State.work, initial, ClientPc.work, DiskPc.work, Device.busy, Device.start]

/-- A client moves on, and what it loses goes into `newReqsSem` or is used up. -/
theorem work_moveClient {s t : State n φ μ} {c : Fin n} {pc pc' : ClientPc} {cost gain : Nat}
    (hpc : s.clients c = pc) (hclients : t.clients = Function.update s.clients c pc')
    (hdisk : t.disk = s.disk) (hdev : t.dev = s.dev)
    (hwork : pc'.work + 12 * t.newReqsSem + cost = pc.work + 12 * s.newReqsSem + gain) :
    t.work + cost = s.work + gain := by
  have hsum := sum_update (x := pc') ClientPc.work hpc
  unfold State.work
  rw [hclients, hdisk, hdev]
  omega

theorem work_moveDisk {s t : State n φ μ} {pc pc' : DiskPc} (hpc : s.disk = pc)
    (hdisk : t.disk = pc') (hclients : t.clients = s.clients)
    (hwork : pc'.work + 12 * t.newReqsSem + t.dev.busy.toNat + 1 =
      pc.work + 12 * s.newReqsSem + s.dev.busy.toNat) : t.work + 1 = s.work := by
  unfold State.work
  rw [hclients, hdisk, hpc]
  omega

theorem work_step {cfg : Config φ μ} {s t : State n φ μ} {a : Action n μ} (hs : Handshake s)
    (h : Step cfg s a t) : t.work + a.cost = s.work + a.gain := by
  cases h with
  | call _ hpc =>
    refine work_moveClient hpc rfl rfl rfl ?_
    simp [ClientPc.work, Action.cost, Action.works, Action.gain, Action.isCall, Nat.add_comm]
  | lock hpc | upNew hpc | downTreated hpc | unlock hpc | ret hpc =>
    refine work_moveClient hpc rfl rfl rfl ?_
    simp only [ClientPc.work, Action.cost, Action.works, Action.gain, Action.isCall, if_true,
      Bool.false_eq_true, if_false]
    omega
  | store | tick => rfl
  | enterLoop hpc | nonempty hpc | choose hpc | remove hpc | isIdle hpc | setStart hpc
  | account hpc | setCurrBlock hpc | setBuffer hpc | refuse hpc | upTreated hpc =>
    exact work_moveDisk hpc rfl rfl (by simp only [DiskPc.work]; omega)
  | downNew hpc hsem => exact work_moveDisk hpc rfl rfl (by simp only [DiskPc.work]; omega)
  | leaveLoop _ hinit => exact absurd (hs.init.symm.trans hinit) (by decide)
  | empty hpc hlist => exact absurd hlist (hs.list_ne_nil (by rw [hpc]; rfl))
  | notIdle hpc hdev => exact absurd (hs.idle (by rw [hpc]; rfl)) hdev
  | @accept p r hpc hdev hacc =>
    have hidle : s.dev.busy = false := by simp [Device.busy, hdev]
    refine work_moveDisk hpc rfl rfl ?_
    simp only [DiskPc.work, hidle, Bool.toNat_false]
    rw [Device.busy_iff.mpr (s.heap p).cTaskAction.busy_status, Bool.toNat_true]
    omega
  | fire htimer hdev =>
    have hbusy : s.dev.busy = true := hs.timer ▸ htimer
    refine work_moveDisk rfl rfl rfl ?_
    simp only [hbusy]
    simp [Device.busy]

/-- What keeps the manager from getting stuck. -/
structure Running (s : State n φ μ) : Prop where
  handshake : Handshake s
  looping : s.disk ≠ .exited

theorem initial_running (numblocks : Int) (heap : Ptr → Request) (store : Store φ μ) :
    Running (initial numblocks heap store : State n φ μ) :=
  ⟨initial_handshake numblocks heap store, by simp [initial]⟩

theorem Running.step {cfg : Config φ μ} {s t : State n φ μ} {a : Action n μ} (hs : Running s)
    (h : Step cfg s a t) : Running t := by
  refine ⟨hs.handshake.step h, ?_⟩
  cases h with
  | leaveLoop _ hinit => exact absurd (hs.handshake.init.symm.trans hinit) (by decide)
  | call | lock | upNew | downTreated | unlock | ret | store | fire | tick => exact hs.looping
  | _ => simp

theorem run_running {cfg : Config φ μ} {numblocks : Int} {heap : Ptr → Request}
    {store : Store φ μ} {as : List (Action n μ)} {s : State n φ μ}
    (h : run (PingPong.step cfg) (initial numblocks heap store) as = some s) : Running s :=
  run_invariant (fun _ _ _ hs _ ht => hs.step (step_cases ht))
    (initial_running numblocks heap store) (along_trivial _ _ as) h

theorem Running.disk_enabled {cfg : Config φ μ} {s : State n φ μ} (hs : Running s)
    (h : s.disk = .downNewReqs → 0 < s.newReqsSem) : ∃ t, PingPong.step cfg s .disk = some t := by
  refine Option.isSome_iff_exists.mp ?_
  cases hd : s.disk with
  | exited => exact absurd hd hs.looping
  | downNewReqs => simp only [PingPong.step, diskStep, hd, if_pos (h hd), Option.isSome_some]
  | choose =>
    have hlist := hs.handshake.list_ne_nil (by rw [hd]; rfl)
    obtain ⟨p, hp⟩ : ∃ p, schedChoice cfg.ia (fun q => (s.heap q).block) s.mgr.iCurrBlock cfg.alg
        s.list = some p := schedChoice_isSome _ _ _ hlist
    simp only [PingPong.step, diskStep, hd, hp, Option.map_some, Option.isSome_some]
  | _ => simp only [PingPong.step, diskStep, hd, Option.isSome_some]

theorem Running.fire_enabled {cfg : Config φ μ} {s : State n φ μ} (hs : Running s)
    (h : s.dev.busy = true) : ∃ t, PingPong.step cfg s .fire = some t := by
  have htimer : s.dev.timer = true := hs.handshake.timer.trans h
  have hcmd : ∃ cmd : TaskCmd, s.dev.status = cmd.busy := by
    rcases Device.busy_iff.mp h with hdev | hdev
    · exact ⟨.read, hdev⟩
    · exact ⟨.write, hdev⟩
  obtain ⟨cmd, hdev⟩ := hcmd
  exact ⟨_, (Step.fire htimer hdev).enabled⟩

theorem Running.token_moves {cfg : Config φ μ} {s : State n φ μ} (hs : Running s) {c : Fin n}
    {r : Request} (hpc : s.clients c = .downTreated r) :
    ∃ a t, a.works = true ∧ PingPong.step cfg s a = some t := by
  have htoken := hs.handshake.token.trans hs.handshake.waiting_eq
  rw [if_pos ⟨c, by rw [hpc]; rfl⟩] at htoken
  by_cases htreated : 0 < s.treatedReqSem
  · exact ⟨.client c, _, rfl, (Step.downTreated hpc htreated).enabled⟩
  · by_cases hbusy : s.dev.busy = true
    · obtain ⟨t, ht⟩ : ∃ t, PingPong.step cfg s .fire = some t := hs.fire_enabled hbusy
      exact ⟨.fire, t, rfl, ht⟩
    · obtain ⟨t, ht⟩ : ∃ t, PingPong.step cfg s .disk = some t := by
        refine hs.disk_enabled fun hd => ?_
        rw [hd, Bool.eq_false_iff.mpr hbusy] at htoken
        simp only [DiskPc.dispatching, Bool.toNat_false] at htoken
        omega
      exact ⟨.disk, t, rfl, ht⟩

theorem Running.call_moves {cfg : Config φ μ} {s : State n φ μ} (hs : Running s) {c : Fin n}
    (hc : s.clients c ≠ .outside) :
    ∃ a t, a.works = true ∧ PingPong.step cfg s a = some t := by
  have hholder {d : Fin n} (hd : (s.clients d).holding = true) :
      ∃ a t, a.works = true ∧ PingPong.step cfg s a = some t := by
    cases hpc : s.clients d with
    | upNewReqs r => exact ⟨.client d, _, rfl, (Step.upNew hpc).enabled⟩
    | downTreated r => exact hs.token_moves hpc
    | unlockRequest r => exact ⟨.client d, _, rfl, (Step.unlock hpc).enabled⟩
    | _ => simp [hpc, ClientPc.holding] at hd
  cases hpc : s.clients c with
  | outside => exact absurd hpc hc
  | lockRequest r =>
    cases hlock : s.mRequest with
    | none => exact ⟨.client c, _, rfl, (Step.lock hpc hlock).enabled⟩
    | some d => exact hholder ((hs.handshake.holder d).mpr hlock)
  | returning r => exact ⟨.client c, _, rfl, (Step.ret hpc).enabled⟩
  | _ => exact hholder (d := c) (by rw [hpc]; rfl)

theorem exists_return {cfg : Config φ μ} {s : State n φ μ} (hs : Running s) :
    ∃ bs u, run (PingPong.step cfg) s bs = some u ∧ (∀ a ∈ bs, a.works = true) ∧
      ∀ c, u.clients c = .outside := by
  have hnext (v : State n φ μ) (hv : Running v) (hgoal : ¬∀ c, v.clients c = .outside) :
      ∃ a t, a.works = true ∧ PingPong.step cfg v a = some t ∧ Running t ∧ t.work < v.work := by
    obtain ⟨c, hc⟩ := not_forall.mp hgoal
    obtain ⟨a, t, ha, ht⟩ : ∃ a t, a.works = true ∧ PingPong.step cfg v a = some t :=
      hv.call_moves hc
    have hwork := work_step hv.handshake (step_cases ht)
    have hgain : a.gain = 0 := by
      cases a with
      | client | disk | fire => rfl
      | _ => cases ha
    rw [Action.cost, if_pos ha, hgain] at hwork
    exact ⟨a, t, ha, ht, hv.step (step_cases ht), by omega⟩
  obtain ⟨bs, u, hu, hbs, -, hout⟩ := exists_run_to hnext hs
  exact ⟨bs, u, hu, hbs.forall_mem hu, hout⟩

/-- On a disk of at most 7953644 blocks every call of a run is paid for by seventeen steps,
one step pays for the disk task reaching `newReqsSem`, and what is left can be done: no step
ends the process, whatever `random` returns, and from every state some steps of the clients,
the disk task and the device lead to the return of all calls. -/
theorem calls_return {cfg : Config φ μ} {numblocks : Int} (hsize : numblocks ≤ 7953644)
    {heap : Ptr → Request} {store : Store φ μ} {as : List (Action n μ × Nat)} {s : State n φ μ}
    (h : run (timed State.dev (PingPong.step cfg)) (initial numblocks heap store) as = some s) :
    as.countP (fun a => a.1.works) + s.work = 17 * as.countP (fun a => a.1.isCall) + 1 ∧
    (∀ (a : Action n μ) (t : State n φ μ), PingPong.step cfg s a = some t →
      ∀ random, timed State.dev (PingPong.step cfg) s (a, random) = some t) ∧
    ((∃ c, s.clients c ≠ .outside) → ∃ (a : Action n μ) (t : State n φ μ), a.works = true ∧
      ∀ random, timed State.dev (PingPong.step cfg) s (a, random) = some t) ∧
    ∃ (bs : List (Action n μ)) (u : State n φ μ), (∀ a ∈ bs, a.works = true) ∧
      (∀ c, u.clients c = .outside) ∧ ∀ randoms : List Nat, randoms.length = bs.length →
        run (timed State.dev (PingPong.step cfg)) s (bs.zip randoms) = some u := by
  have hrun := run_of_timed h
  have hs := run_running hrun
  have htimed : s.dev.Timed :=
    run_invariant (P := fun s : State n φ μ => s.dev.Timed)
      (fun _ _ _ hs _ ht => (step_cases ht).timed hs) (initial_timed hsize heap store)
      (along_trivial _ _ _) hrun
  have hpasses (a : Action n μ) (t : State n φ μ) (ht : PingPong.step cfg s a = some t)
      (random : Nat) : timed State.dev (PingPong.step cfg) s (a, random) = some t :=
    timed_of_step ((step_cases ht).timed htimed) ht random
  refine ⟨?_, hpasses, fun ⟨c, hc⟩ => ?_, ?_⟩
  · have hbalance := run_balance (fun v a t hv ht => ⟨hv.step (step_cases ht),
      work_step hv.handshake (step_cases ht)⟩) (initial_running numblocks heap store) hrun
    rw [sum_gain, sum_cost, work_initial, List.countP_map, List.countP_map] at hbalance
    simp only [Function.comp_def] at hbalance
    omega
  · obtain ⟨a, t, ha, ht⟩ : ∃ a t, a.works = true ∧ PingPong.step cfg s a = some t :=
      hs.call_moves hc
    exact ⟨a, t, ha, hpasses a t ht⟩
  · obtain ⟨bs, u, hu, hbs, hout⟩ : ∃ bs u, run (PingPong.step cfg) s bs = some u ∧
        (∀ a ∈ bs, a.works = true) ∧ ∀ c, u.clients c = .outside := exists_return hs
    refine ⟨bs, u, hbs, hout, fun randoms hlen => ?_⟩
    exact run_timed (P := fun s : State n φ μ => s.dev.Timed) (fun _ hv => hv)
      (fun _ _ _ hv ht => (step_cases ht).timed hv) htimed hu hlen

/-- Client 1 has posted `newReqsSem`, and the disk task is dispatching. -/
def callsUnderWay (c d : Fin n) : List (Action n μ) :=
  [.call c .read 3 64 16, .call d .write 99 80 32, .client d, .client d] ++ List.replicate 5 .disk

/-- 28 steps are left of the two calls. -/
theorem calls_return_small : ∃ s : State 2 (Int → Nat) (Ptr → Nat),
    run (timed State.dev (PingPong.step sstfConfig)) (smallDisk 2)
      ((callsUnderWay 0 1).zip (List.range 9)) = some s ∧ s.work = 28 ∧
    ∃ (bs : List (Action 2 (Ptr → Nat))) (u : State 2 (Int → Nat) (Ptr → Nat)),
      (∀ c, u.clients c = .outside) ∧ ∀ randoms : List Nat, randoms.length = bs.length →
        run (timed State.dev (PingPong.step sstfConfig)) s (bs.zip randoms) = some u := by
  have hrun : (run (timed State.dev (PingPong.step sstfConfig)) (smallDisk 2)
      ((callsUnderWay 0 1).zip (List.range 9))).isSome = true := by decide
  obtain ⟨s, hs⟩ := Option.isSome_iff_exists.mp hrun
  obtain ⟨hwork, -, -, bs, u, -, hout, hu⟩ := calls_return (by decide) hs
  have hcount : 7 + s.work = 17 * 2 + 1 := hwork
  exact ⟨s, hs, by omega, bs, u, hout, hu⟩

end PingPong
