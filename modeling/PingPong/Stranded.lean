import PingPong.Shutdown
import Mathlib.Data.Fintype.EquivFin

/-! The clients after the exit of the main task. `finishDiskTask` drops the listed
requests without posting `treatedReqSem` for them, and once the disk task has left
its loop nobody takes a request any more, so from every state in which the loop
can be left some client can be led to wait for ever. -/

namespace PingPong

open Runs

variable {n : Nat} {φ μ : Type}

/-- The client waits on `treatedReqSem`, and no completion is under way. -/
def State.TokenLost (s : State n φ μ) (c : Fin n) : Prop :=
  (s.clients c).waiting = true ∧ s.treatedReqSem = 0 ∧ s.dev.busy = false

def State.Blocked (s : State n φ μ) (c : Fin n) : Prop :=
  s.TokenLost c ∨ (∃ r, s.clients c = .lockRequest r) ∧ ∃ i, s.mRequest = some i ∧ s.TokenLost i

/-- However the run goes on after `finishDiskTask`, no client is blocked once the
disk task has left its loop. -/
def ReleasesClients (cfg : Config φ μ) (main : Option (Fin n)) (s : State n φ μ) : Prop :=
  ∀ as u, run (closingStep cfg main) (finishDiskTask s).1 as = some u → u.disk = .exited →
    ∀ c, ¬u.Blocked c

theorem selecting_dispatching {pc : DiskPc} (h : pc.selecting = true) : pc.dispatching = true := by
  cases pc <;> simp_all [DiskPc.selecting, DiskPc.dispatching]

/-- What the shutdown keeps: the mutex, the device's timer and an exited main task. -/
structure Orderly (main : Option (Fin n)) (s : State n φ μ) : Prop where
  holder : ∀ c, (s.clients c).holding = true ↔ s.mRequest = some c
  timer : s.dev.timer = s.dev.busy
  parked : s.CanExit main

theorem Handshake.orderly {main : Option (Fin n)} {s : State n φ μ} (hs : Handshake s)
    (hmain : s.CanExit main) : Orderly main (finishDiskTask s).1 := by
  unfold finishDiskTask
  split_ifs
  · exact ⟨hs.holder, hs.timer, hmain⟩
  · exact ⟨hs.holder, hs.timer, hmain⟩

section Orderly

variable {cfg : Config φ μ} {main : Option (Fin n)}

theorem Orderly.move {s t : State n φ μ} (hs : Orderly main s) {c : Fin n} {pc' : ClientPc}
    (hc : main ≠ some c) (hclients : t.clients = Function.update s.clients c pc')
    (hdev : t.dev = s.dev) (hself : pc'.holding = true ↔ t.mRequest = some c)
    (hother : ∀ i, i ≠ c → (t.mRequest = some i ↔ s.mRequest = some i)) : Orderly main t where
  holder := hclients ▸ holder_update (p := ClientPc.holding) hs.holder hself hother
  timer := hdev ▸ hs.timer
  parked m hm := by
    have hne : m ≠ c := fun he => hc (he ▸ hm)
    rw [hclients, Function.update_of_ne hne]
    exact hs.parked m hm

theorem Orderly.keep {s t : State n φ μ} (hs : Orderly main s) {c : Fin n} {pc pc' : ClientPc}
    (hc : main ≠ some c) (hpc : s.clients c = pc)
    (hclients : t.clients = Function.update s.clients c pc') (hdev : t.dev = s.dev)
    (hlock : t.mRequest = s.mRequest) (hsame : pc'.holding = pc.holding) : Orderly main t := by
  refine hs.move hc hclients hdev ?_ fun i _ => hlock ▸ Iff.rfl
  rw [hlock, hsame, ← hpc]
  exact hs.holder c

theorem Orderly.step {s t : State n φ μ} {a : Action n μ} (hs : Orderly main s)
    (h : Step cfg s a t) (hmain : ∀ c, a.client? = some c → main ≠ some c) : Orderly main t := by
  cases h with
  | call _ hpc => exact hs.keep (hmain _ rfl) hpc rfl rfl rfl rfl
  | lock hpc hfree =>
    refine hs.move (hmain _ rfl) rfl rfl ⟨fun _ => rfl, fun _ => rfl⟩ fun i hi => ?_
    simp only [hfree, Option.some.injEq]
    exact ⟨fun he => absurd he.symm hi, nofun⟩
  | upNew hpc => exact hs.keep (hmain _ rfl) hpc rfl rfl rfl rfl
  | downTreated hpc => exact hs.keep (hmain _ rfl) hpc rfl rfl rfl rfl
  | unlock hpc =>
    refine hs.move (hmain _ rfl) rfl rfl ⟨nofun, nofun⟩ fun i hi => ?_
    have hheld := (hs.holder _).mp (by rw [hpc]; rfl)
    simp only [hheld, Option.some.injEq]
    exact ⟨nofun, fun he => absurd he.symm hi⟩
  | ret hpc => exact hs.keep (hmain _ rfl) hpc rfl rfl rfl rfl
  | @accept p r hpc => exact ⟨hs.holder, by cases (s.heap p).cTaskAction <;> rfl, hs.parked⟩
  | fire => exact ⟨hs.holder, rfl, hs.parked⟩
  | _ => exact ⟨hs.holder, hs.timer, hs.parked⟩

theorem Orderly.run {s t : State n φ μ} {as : List (Action n μ)} (hs : Orderly main s)
    (h : run (closingStep cfg main) s as = some t) : Orderly main t :=
  run_invariant
    (fun _ _ _ hs _ ht => hs.step (closingStep_cases ht).1 (closingStep_cases ht).2) hs
    (along_trivial _ _ as) h

theorem Orderly.other {s : State n φ μ} (hs : Orderly main s) {c : Fin n}
    (hpc : s.clients c ≠ .outside) : main ≠ some c := fun hc => hpc (hs.parked c hc)

theorem only_client {a : Action n μ} {c : Fin n} (hc : main ≠ some c)
    (ha : a.client? = none ∨ a.client? = some c) : ∀ i, a.client? = some i → main ≠ some i := by
  intro i hi
  rcases ha with ha | ha
  · rw [ha] at hi
    cases hi
  · exact Option.some.inj (ha.symm.trans hi) ▸ hc

/-- The disk task has left its loop, the device rests, and `treatedReqSem` still
holds `k` posts. -/
structure Leftover (main : Option (Fin n)) (k : Nat) (s : State n φ μ) : Prop
    extends Orderly main s where
  exited : s.disk = .exited
  idle : s.dev.busy = false
  posts : s.treatedReqSem = k

theorem Leftover.step {k : Nat} {s t : State n φ μ} {a : Action n μ} (hs : Leftover main k s)
    (h : Step cfg s a t) (hmain : ∀ c, a.client? = some c → main ≠ some c) :
    Orderly main t ∧ t.disk = .exited ∧ t.dev.busy = false := by
  refine ⟨hs.toOrderly.step h hmain, ?_⟩
  have hexit := hs.exited
  cases h with
  | call | lock | upNew | downTreated | unlock | ret | store | tick => exact ⟨hexit, hs.idle⟩
  | fire htimer => exact absurd ((hs.timer.symm.trans htimer).symm.trans hs.idle) (by decide)
  | enterLoop hpc | leaveLoop hpc | downNew hpc | empty hpc | nonempty hpc | choose hpc
  | remove hpc | notIdle hpc | isIdle hpc | setStart hpc | account hpc | setCurrBlock hpc
  | setBuffer hpc | accept hpc | refuse hpc | upTreated hpc =>
    rw [hexit] at hpc
    cases hpc

def Leftover.Waits (main : Option (Fin n)) (k : Nat) (s : State n φ μ) : Prop :=
  Leftover main k s ∧ ∃ c, (s.clients c).waiting = true

theorem Leftover.head {k : Nat} {s t : State n φ μ} {a : Action n μ} {c : Fin n}
    {P : State n φ μ → Prop} (hs : Leftover main k s) (h : Step cfg s a t)
    (ha : a.client? = some c) (hc : main ≠ some c) (hposts : t.treatedReqSem = s.treatedReqSem)
    (hnext : Leftover main k t → Reaches (closingStep cfg main) t P) :
    Reaches (closingStep cfg main) s P := by
  have hmain := only_client hc (.inr ha)
  have hdisk : isDisk a = false := by
    cases a <;> first | rfl | cases ha
  obtain ⟨horderly, hexit, hidle⟩ := hs.step h hmain
  exact .head (closingStep_of_step h hdisk hmain)
    (hnext ⟨horderly, hexit, hidle, hposts.trans hs.posts⟩)

variable {k : Nat} {s : State n φ μ} {c : Fin n} {r : Request}

theorem Leftover.upNew (hs : Leftover main k s) (hc : main ≠ some c)
    (hpc : s.clients c = .upNewReqs r) : Reaches (closingStep cfg main) s (Waits main k) := by
  refine hs.head (.upNew hpc) rfl hc rfl fun ht => .here ⟨ht, c, ?_⟩
  simp [ClientPc.waiting]

theorem Leftover.lock (hs : Leftover main k s) (hc : main ≠ some c) (hfree : s.mRequest = none)
    (hpc : s.clients c = .lockRequest r) : Reaches (closingStep cfg main) s (Waits main k) :=
  hs.head (.lock hpc hfree) rfl hc rfl fun ht => ht.upNew hc (Function.update_self ..)

theorem Leftover.call (hs : Leftover main k s) (hc : main ≠ some c) (hfree : s.mRequest = none)
    (hpc : s.clients c = .outside) : Reaches (closingStep cfg main) s (Waits main k) := by
  obtain ⟨addr, haddr⟩ := Infinite.exists_notMem_finset (insert 0 s.list.toFinset)
  rw [Finset.mem_insert, List.mem_toFinset, not_or] at haddr
  have hstep : Step cfg s (.call c .read 0 0 addr) _ := .call rfl hpc haddr.1 haddr.2
  exact hs.head hstep rfl hc rfl fun ht => ht.lock hc hfree (Function.update_self ..)

theorem Leftover.ret (hs : Leftover main k s) (hc : main ≠ some c) (hfree : s.mRequest = none)
    (hpc : s.clients c = .returning r) : Reaches (closingStep cfg main) s (Waits main k) :=
  hs.head (.ret hpc) rfl hc rfl fun ht => ht.call hc hfree (Function.update_self ..)

theorem Leftover.waits (hs : Leftover main k s) (hc : main ≠ some c) :
    Reaches (closingStep cfg main) s (Waits main k) := by
  cases hlock : s.mRequest with
  | none =>
    have hfree : (s.clients c).holding ≠ true := by
      intro hhold
      have hheld := (hs.holder c).mp hhold
      rw [hlock] at hheld
      cases hheld
    cases hpc : s.clients c with
    | outside => exact hs.call hc hlock hpc
    | lockRequest r => exact hs.lock hc hlock hpc
    | returning r => exact hs.ret hc hlock hpc
    | upNewReqs r | downTreated r | unlockRequest r => simp [hpc, ClientPc.holding] at hfree
  | some i =>
    have hhold := (hs.holder i).mpr hlock
    have hi : main ≠ some i := hs.other fun hpc => by simp [hpc, ClientPc.holding] at hhold
    cases hpc : s.clients i with
    | outside | lockRequest r | returning r => simp [hpc, ClientPc.holding] at hhold
    | upNewReqs r => exact hs.upNew hi hpc
    | downTreated r => exact .here ⟨hs, i, by simp [hpc, ClientPc.waiting]⟩
    | unlockRequest r =>
      exact hs.head (.unlock hpc) rfl hi rfl fun ht => ht.ret hi rfl (Function.update_self ..)

def State.Strands (s : State n φ μ) : Prop := s.disk = .exited ∧ ∃ c, s.Blocked c

/-- Each call takes one of the posts that are left, and the next one finds none. -/
theorem Leftover.strands (hs : Leftover main k s) (hc : main ≠ some c) :
    Reaches (closingStep cfg main) s State.Strands := by
  induction k generalizing s with
  | zero =>
    refine (hs.waits hc).trans fun t ⟨htl, i, hi⟩ => .here ⟨htl.exited, i, .inl ⟨hi, ?_⟩⟩
    exact ⟨htl.posts, htl.idle⟩
  | succ k ih =>
    refine (hs.waits hc).trans fun t ⟨htl, i, hi⟩ => ?_
    cases hpc : t.clients i with
    | downTreated r =>
      have hsem : 0 < t.treatedReqSem := by
        rw [htl.posts]
        exact Nat.succ_pos k
      have hmain := only_client (a := (.client i : Action n μ)) (htl.other (by simp [hpc]))
        (.inr rfl)
      have hstep : Step cfg t (.client i) _ := .downTreated hpc hsem
      obtain ⟨horderly, hexit, hidle⟩ := htl.step hstep hmain
      refine .head (closingStep_of_step hstep rfl hmain) (ih ⟨horderly, hexit, hidle, ?_⟩)
      show t.treatedReqSem - 1 = k
      rw [htl.posts, Nat.add_sub_cancel]
    | outside | lockRequest r | upNewReqs r | unlockRequest r | returning r =>
      simp [hpc, ClientPc.waiting] at hi

theorem Orderly.strands (hs : Orderly main s) (hexit : s.disk = .exited) (hc : main ≠ some c) :
    Reaches (closingStep cfg main) s State.Strands := by
  by_cases hbusy : s.dev.busy = true
  · have hcmd : ∃ cmd : TaskCmd, s.dev.status = cmd.busy := by
      rcases Device.busy_iff.mp hbusy with hdev | hdev
      · exact ⟨.read, hdev⟩
      · exact ⟨.write, hdev⟩
    obtain ⟨cmd, hdev⟩ := hcmd
    have hmain := only_client (a := (.fire : Action n μ)) hc (.inl rfl)
    have hstep : Step cfg s .fire _ := .fire (hs.timer.trans hbusy) hdev
    exact .head (closingStep_of_step hstep rfl hmain)
      (Leftover.strands ⟨hs.step hstep hmain, hexit, rfl, rfl⟩ hc)
  · exact Leftover.strands ⟨hs, hexit, Bool.eq_false_iff.mpr hbusy, rfl⟩ hc

theorem Closing.strands (hs : Closing s) (hord : Orderly main s) (hc : main ≠ some c) :
    Reaches (closingStep cfg main) s State.Strands := by
  obtain ⟨k, t, ht, hexit⟩ : ∃ k t, Runs.run (closingStep cfg main) s (List.replicate k .disk) =
      some t ∧ t.disk = .exited := hs.exits
  have hreach : Reaches (closingStep cfg main) s fun t => Orderly main t ∧ t.disk = .exited :=
    ⟨_, t, ht, hord.run ht, hexit⟩
  exact hreach.trans fun u hu => hu.1.strands hu.2 hc

/-- A call that comes in while the disk task is past its test for an empty list
puts a node where the disk task looks for one. -/
theorem Orderly.revives (hs : Orderly main s) (hc : main ≠ some c) (hlist : s.list = [])
    (hinit : s.mgr.init = false) (hsel : s.disk.selecting = true) (hnull : s.disk ≠ .remove 0)
    (hpc : s.clients c = .outside) : Reaches (closingStep cfg main) s State.Strands := by
  have hfresh (addr : Ptr) : addr ∉ s.list := by simp [hlist]
  have hcall {addr : Ptr} := only_client (a := (.call c .read 0 0 addr : Action n μ)) hc (.inr rfl)
  cases hd : s.disk with
  | choose =>
    have hstep : Step cfg s (.call c .read 0 0 1) _ := .call rfl hpc Nat.one_ne_zero (hfresh 1)
    refine .head (closingStep_of_step hstep rfl hcall)
      (Closing.strands ?_ (hs.step hstep hcall) hc)
    refine ⟨hinit, fun hd' => ?_, fun _ => by simp, fun p hd' => ?_⟩
    · exact absurd (hd.symm.trans hd') (by simp)
    · exact absurd (hd.symm.trans hd') (by simp)
  | remove p =>
    have hp : p ≠ 0 := fun he => hnull (he ▸ hd)
    have hstep : Step cfg s (.call c .read 0 0 p) _ := .call rfl hpc hp (hfresh p)
    refine .head (closingStep_of_step hstep rfl hcall)
      (Closing.strands ?_ (hs.step hstep hcall) hc)
    refine ⟨hinit, fun hd' => ?_, fun hd' => ?_, fun q hd' => ?_⟩
    · exact absurd (hd.symm.trans hd') (by simp)
    · exact absurd (hd.symm.trans hd') (by simp)
    · cases hd.symm.trans hd'
      exact List.mem_append_right _ (List.mem_singleton_self p)
  | _ => simp [hd, DiskPc.selecting] at hsel

theorem Orderly.revives_returning (hs : Orderly main s) (hc : main ≠ some c) (hlist : s.list = [])
    (hinit : s.mgr.init = false) (hsel : s.disk.selecting = true) (hnull : s.disk ≠ .remove 0)
    (hpc : s.clients c = .returning r) : Reaches (closingStep cfg main) s State.Strands := by
  have hmain := only_client (a := (.client c : Action n μ)) hc (.inr rfl)
  have hstep : Step cfg s (.client c) _ := .ret hpc
  refine .head (closingStep_of_step hstep rfl hmain) ?_
  exact (hs.step hstep hmain).revives hc hlist hinit hsel hnull (Function.update_self ..)

/-- The disk task runs into the freed list, and no client can make a call. -/
structure Jammed (main : Option (Fin n)) (s : State n φ μ) : Prop where
  list : s.list = []
  selecting : s.disk.selecting = true
  inside : ∀ c, main ≠ some c → (s.clients c).queued = true ∨ (s.clients c).waiting = true
  held : s.mRequest ≠ none
  posts : s.treatedReqSem = 0
  timer : s.dev.timer = false

theorem Jammed.step {t : State n φ μ} {a : Action n μ} (hs : Jammed main s)
    (h : closingStep cfg main s a = some t) : Jammed main t := by
  obtain ⟨hstep, hmain⟩ := closingStep_cases h
  have hinside {i : Fin n} {pc : ClientPc} (ha : a.client? = some i) (hpc : s.clients i = pc) :
      pc.queued = true ∨ pc.waiting = true := hpc ▸ hs.inside i (hmain i ha)
  cases a with
  | disk =>
    rw [closingStep_selecting hs.list hs.selecting] at h
    cases h
  | client c =>
    cases hstep with
    | lock _ hfree => exact absurd hfree hs.held
    | upNew hpc =>
      refine ⟨hs.list, hs.selecting, fun i hi => ?_, hs.held, hs.posts, hs.timer⟩
      by_cases hic : i = c
      · exact .inr (by simp [hic, ClientPc.waiting])
      · simpa [Function.update_of_ne hic] using hs.inside i hi
    | downTreated _ hsem => exact absurd hs.posts hsem.ne'
    | unlock hpc | ret hpc => simpa [ClientPc.queued, ClientPc.waiting] using hinside rfl hpc
  | call =>
    cases hstep with
    | call _ hpc => simpa [ClientPc.queued, ClientPc.waiting] using hinside rfl hpc
  | store =>
    cases hstep with
    | store hpc => simpa [ClientPc.queued, ClientPc.waiting] using hinside rfl hpc
  | fire =>
    cases hstep with
    | fire htimer => exact absurd (htimer.symm.trans hs.timer) (by decide)
  | tick =>
    cases hstep with
    | tick => exact ⟨hs.list, hs.selecting, hs.inside, hs.held, hs.posts, hs.timer⟩

end Orderly

theorem run_null_unlisted {cfg : Config φ μ} {numblocks : Int} {heap : Ptr → Request}
    {store : Store φ μ} {as : List (Action n μ)} {s : State n φ μ}
    (h : run (PingPong.step cfg) (initial numblocks heap store) as = some s) : 0 ∉ s.list := by
  refine run_invariant (P := fun s => 0 ∉ s.list) (fun s a t hs _ ht => ?_) List.not_mem_nil
    (along_trivial _ _ as) h
  cases step_cases ht with
  | call _ _ hnull =>
    rw [List.mem_append, List.mem_singleton, not_or]
    exact ⟨hs, Ne.symm hnull⟩
  | remove => exact fun hmem => hs (List.mem_of_mem_erase hmem)
  | _ => exact hs

theorem Jammed.releases {cfg : Config φ μ} {main : Option (Fin n)} {s : State n φ μ}
    (hs : Jammed main (finishDiskTask s).1) : ReleasesClients cfg main s := by
  intro as u hu hexit
  have hjam : Jammed main u := run_invariant (fun _ _ _ hs _ ht => hs.step ht) hs
    (along_trivial _ _ as) hu
  have hsel := hjam.selecting
  rw [hexit] at hsel
  cases hsel

theorem Handshake.stays {cfg : Config φ μ} {s t : State n φ μ} {a : Action n μ} (hs : Handshake s)
    (hpc : s.disk ≠ .exited) (h : Step cfg s a t) : t.disk ≠ .exited := by
  cases h with
  | call | lock | upNew | downTreated | unlock | ret | store | fire | tick => exact hpc
  | leaveLoop _ hinit => exact absurd (hs.init.symm.trans hinit) (by decide)
  | _ => simp

theorem run_not_exited {cfg : Config φ μ} {numblocks : Int} {heap : Ptr → Request}
    {store : Store φ μ} {as : List (Action n μ)} {s : State n φ μ}
    (h : run (PingPong.step cfg) (initial numblocks heap store) as = some s) :
    s.disk ≠ .exited :=
  (run_invariant (P := fun s => Handshake s ∧ s.disk ≠ .exited)
    (fun _ _ _ hs _ ht => ⟨hs.1.step (step_cases ht), hs.1.stays hs.2 (step_cases ht)⟩)
    ⟨initial_handshake numblocks heap store, nofun⟩ (along_trivial _ _ as) h).2

theorem Handshake.releases {cfg : Config φ μ} {main : Option (Fin n)} {s : State n φ μ}
    (hs : Handshake s) (hpc : s.disk ≠ .exited) (hlist : s.list = []) :
    ReleasesClients cfg main s := by
  intro as u hu hexit
  rw [finishDiskTask_empty hlist] at hu
  have hkept := run_invariant (P := fun s => Handshake s ∧ s.disk ≠ .exited)
    (fun _ _ _ hs _ ht =>
      ⟨hs.1.step (closingStep_cases ht).1, hs.1.stays hs.2 (closingStep_cases ht).1⟩)
    ⟨hs, hpc⟩ (along_trivial _ _ as) hu
  exact absurd hexit hkept.2

theorem Handshake.outside_or_returning {s : State n φ μ} (hs : Handshake s) {c i : Fin n}
    (hi : (s.clients i).waiting = true) (hqueued : (s.clients c).queued = false)
    (hwaiting : (s.clients c).waiting = false) :
    s.clients c = .outside ∨ ∃ r, s.clients c = .returning r := by
  cases hpc : s.clients c with
  | outside => exact .inl rfl
  | returning r => exact .inr ⟨r, rfl⟩
  | unlockRequest r =>
    have hci := hs.holding_unique (c := c) (by rw [hpc]; rfl) (waiting_holding hi)
    rw [hci, hi] at hwaiting
    cases hwaiting
  | lockRequest r | upNewReqs r => simp [hpc, ClientPc.queued] at hqueued
  | downTreated r => simp [hpc, ClientPc.waiting] at hwaiting

/-- A listed request is some client's, and that client is inside its call. -/
theorem Handshake.exists_inside {s : State n φ μ} (hs : Handshake s) (hlist : s.list ≠ []) :
    ∃ c, s.clients c ≠ .outside := by
  by_contra hnone
  push Not at hnone
  obtain ⟨hsem, hdisp, -, -⟩ := hs.no_token fun c => by rw [hnone c]; rfl
  have htaken : s.disk.taken = false := by
    cases hd : s.disk <;> simp_all [DiskPc.taken, DiskPc.dispatching]
  have hlen := hs.backlog
  rw [countAt_eq_zero fun c => by rw [hnone c]; rfl, hsem, htaken] at hlen
  exact hlist (List.length_eq_zero_iff.mp hlen)

theorem Handshake.strands {cfg : Config φ μ} {main : Option (Fin n)} {s : State n φ μ}
    (hs : Handshake s) (hmain : s.CanExit main) (hnull : 0 ∉ s.list) (hlist : s.list ≠ [])
    (hcond : ¬(s.disk.selecting = true ∧
      ∀ c, main ≠ some c → (s.clients c).queued = true ∨ (s.clients c).waiting = true)) :
    Reaches (closingStep cfg main) (finishDiskTask s).1 State.Strands := by
  have hord := hs.orderly hmain
  cases hsel : s.disk.selecting with
  | false =>
    obtain ⟨c, hpc⟩ := hs.exists_inside hlist
    have hc : main ≠ some c := fun he => hpc (hmain c he)
    exact (finishDiskTask_closing hlist hsel).strands hord hc
  | true =>
    obtain ⟨⟨i, hi⟩, -⟩ := hs.dispatching_alone (selecting_dispatching hsel)
    have hall : ¬∀ c, main ≠ some c → (s.clients c).queued = true ∨ (s.clients c).waiting = true :=
      fun hall => hcond ⟨hsel, hall⟩
    push Not at hall
    obtain ⟨c, hc, hqueued, hwaiting⟩ := hall
    have hremove : s.disk ≠ .remove 0 := fun hd => hnull (hs.chosen 0 hd)
    rw [finishDiskTask_nonempty hlist] at hord ⊢
    rcases hs.outside_or_returning hi (Bool.eq_false_iff.mpr hqueued)
      (Bool.eq_false_iff.mpr hwaiting) with hpc | ⟨r, hpc⟩
    · exact hord.revives hc rfl rfl hsel hremove hpc
    · exact hord.revives_returning hc rfl rfl hsel hremove hpc

theorem Handshake.jammed {main : Option (Fin n)} {s : State n φ μ} (hs : Handshake s)
    (hlist : s.list ≠ []) (hsel : s.disk.selecting = true)
    (hinside : ∀ c, main ≠ some c →
      (s.clients c).queued = true ∨ (s.clients c).waiting = true) :
    Jammed main (finishDiskTask s).1 := by
  obtain ⟨⟨i, hi⟩, -, hbusy, hposts⟩ := hs.dispatching_alone (selecting_dispatching hsel)
  have hheld := (hs.holder i).mp (waiting_holding hi)
  rw [finishDiskTask_nonempty hlist]
  exact ⟨rfl, hsel, hinside, by simp [hheld], hposts, hs.timer.trans hbusy⟩

/-- After the exit of the main task the loop is never left with a client blocked
exactly when it is never left: `finishDiskTask` found no request listed, or the
disk task goes on with a freed list and no client is left to make another call. -/
theorem clients_released {cfg : Config φ μ} {main : Option (Fin n)} {numblocks : Int}
    {heap : Ptr → Request} {store : Store φ μ} {as : List (Action n μ)} {s : State n φ μ}
    (h : run (PingPong.step cfg) (initial numblocks heap store) as = some s)
    (hmain : s.CanExit main) :
    ReleasesClients cfg main s ↔ s.list = [] ∨ s.disk.selecting = true ∧
      ∀ c, main ≠ some c → (s.clients c).queued = true ∨ (s.clients c).waiting = true := by
  have hs := run_handshake h
  constructor
  · intro hrel
    by_contra hcond
    rw [not_or] at hcond
    obtain ⟨bs, u, hu, hexit, c, hblocked⟩ : Reaches (closingStep cfg main) _
        State.Strands := hs.strands hmain (run_null_unlisted h) hcond.1 hcond.2
    exact hrel bs u hu hexit c hblocked
  · intro hcond
    by_cases hlist : s.list = []
    · exact hs.releases (run_not_exited h) hlist
    · obtain ⟨hsel, hinside⟩ := hcond.resolve_left hlist
      exact (hs.jammed hlist hsel hinside).releases

theorem clients_released_small : ∃ s : State 2 (Int → Nat) (Ptr → Nat),
    run (PingPong.step sstfConfig) (smallDisk 2) ((callAlone 1 .read 3 64 16).take 6) = some s ∧
      s.list = [16] ∧ ReleasesClients sstfConfig (some 0) s := by
  have hrun : (run (PingPong.step sstfConfig) (smallDisk 2)
      ((callAlone 1 .read 3 64 16).take 6)).map
        (fun s => (s.list, s.disk.selecting, s.clients 0, (s.clients 1).waiting)) =
      some ([16], true, .outside, true) := by decide
  obtain ⟨s, hs, htuple⟩ := Option.map_eq_some_iff.mp hrun
  simp only [Prod.mk.injEq] at htuple
  obtain ⟨hlist, hsel, hmain, hwaiting⟩ := htuple
  have hexit : s.CanExit (some 0) := fun m hm => Option.some.inj hm ▸ hmain
  refine ⟨s, hs, hlist, (clients_released hs hexit).mpr (.inr ⟨hsel, fun c hc => .inr ?_⟩)⟩
  have hc1 : c = 1 := by
    have hne : c ≠ 0 := fun he => hc (he ▸ rfl)
    omega
  rw [hc1]
  exact hwaiting

/-- The main task exits between the client's enqueue and its `sem_up`. The disk
task finds the freed list empty and leaves; the client waits for ever. -/
theorem client_left_waiting :
    ¬∀ (as : List (Action 2 (Ptr → Nat))) (s : State 2 (Int → Nat) (Ptr → Nat)),
      run (PingPong.step sstfConfig) (smallDisk 2) as = some s → s.CanExit (some 0) →
        ReleasesClients sstfConfig (some 0) s := by
  intro hall
  have hrun : ((run (PingPong.step sstfConfig) (smallDisk 2) [.disk, .call 1 .read 3 64 16]).bind
      fun s => (run (closingStep sstfConfig (some 0)) (finishDiskTask s).1
        [.disk, .disk, .disk, .client 1, .client 1]).map fun u =>
          (s.clients 0, u.disk, (u.clients 1).waiting, u.treatedReqSem, u.dev.busy)) =
      some (.outside, .exited, true, 0, false) := by decide
  obtain ⟨s, hs, hrest⟩ := Option.bind_eq_some_iff.mp hrun
  obtain ⟨u, hu, htuple⟩ := Option.map_eq_some_iff.mp hrest
  simp only [Prod.mk.injEq] at htuple
  obtain ⟨hmain, hexit, hwaiting, hposts, hbusy⟩ := htuple
  have hcan : s.CanExit (some 0) := fun m hm => Option.some.inj hm ▸ hmain
  exact hall _ s hs hcan _ u hu hexit 1 (.inl ⟨hwaiting, hposts, hbusy⟩)

end PingPong
