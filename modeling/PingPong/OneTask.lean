import PingPong.Ownership

/-! One task alone. Its request is the only one in the list while it waits, and it
cannot call while the disk task reads the freed node, so the token is always its
own. Every call returns `0`, whatever `disk_cmd` answered. -/

namespace PingPong

open Runs

variable {φ μ : Type}

theorem Handshake.alone_waiting {s : State 1 φ μ} (hs : Handshake s)
    (h : s.disk.dispatching = true) : (s.clients 0).waiting = true := by
  obtain ⟨⟨c, hc⟩, _⟩ := hs.dispatching_alone h
  rwa [Subsingleton.elim c 0] at hc

theorem dispatching_of_freed {pc : DiskPc} {p : Ptr} (h : pc.freed = some p) :
    pc.dispatching = true := by
  cases pc <;> simp_all [DiskPc.freed, DiskPc.dispatching]

theorem keepsDispatch_alone {cfg : Config φ μ} {s t : State 1 φ μ} {a : Action 1 μ}
    (hshake : Handshake s) (h : Step cfg s a t) : KeepsDispatch s a := by
  cases h with
  | @call c cmd block buffer addr r hr hpc hnull hfresh =>
    intro hfreed
    have hwait := hshake.alone_waiting (dispatching_of_freed hfreed)
    rw [Subsingleton.elim c 0] at hpc
    rw [hpc] at hwait
    cases hwait
  | _ => trivial

theorem ownDispatch_alone (cfg : Config φ μ) {s : State 1 φ μ} {a : Action 1 μ}
    (hshake : Handshake s) (hown : Ownership s) : OwnDispatch cfg s a := by
  cases a with
  | disk =>
    intro hpc p hp c hc
    have hdisp : s.disk.dispatching = true := by rw [hpc]; rfl
    obtain ⟨r, hrc⟩ := waiting_iff.mp hc
    have hqueued : countAt ClientPc.queued s.clients = 0 := by
      apply countAt_eq_zero
      intro i
      rw [Subsingleton.elim i c, hrc]
      rfl
    have hlen := hshake.backlog
    rw [hqueued, (hshake.dispatching_alone hdisp).2.1, hpc] at hlen
    obtain ⟨q, hq⟩ := List.length_eq_one_iff.mp hlen
    have hpend := (hown.waits hrc).onDisk
    rw [hpc] at hpend
    obtain ⟨q', hq', hheap⟩ := hpend
    have hmem := (schedChoice_earliest hp).mem
    rw [hq, List.mem_singleton] at hmem hq'
    rw [hrc, hmem, ← hq', hheap]
    rfl
  | _ => trivial

structure Alone (s : State 1 φ μ) : Prop where
  handshake : Handshake s
  faithful : Faithful s
  ownership : Ownership s

theorem Alone.step {cfg : Config φ μ} {s t : State 1 φ μ} {a : Action 1 μ} (hs : Alone s)
    (h : Step cfg s a t) : Alone t where
  handshake := hs.handshake.step h
  faithful := hs.faithful.step (keepsDispatch_alone hs.handshake h) h
  ownership := hs.ownership.step hs.handshake hs.faithful
    (ownDispatch_alone cfg hs.handshake hs.ownership) h

theorem initial_alone (numblocks : Int) (heap : Ptr → Request) (store : Store φ μ) :
    Alone (initial numblocks heap store : State 1 φ μ) :=
  ⟨initial_handshake numblocks heap store, initial_faithful numblocks heap store,
    initial_ownership numblocks heap store⟩

theorem run_alone {cfg : Config φ μ} {numblocks : Int} {heap : Ptr → Request} {store : Store φ μ}
    {as : List (Action 1 μ)} {s : State 1 φ μ}
    (h : run (PingPong.step cfg) (initial numblocks heap store) as = some s) : Alone s :=
  run_invariant (fun _ _ _ hs _ ht => hs.step (step_cases ht))
    (initial_alone numblocks heap store) (along_trivial _ _ as) h

/-- The result `ret` of the call for `r` tells whether the device has accepted
the request and carried it out, and is an error when `disk_cmd` refuses it. -/
def ReportsResult (numblocks : Int) (hist : List Event) (r : Request) (ret : Int) : Prop :=
  (ret = 0 ↔ Carried hist r) ∧ (¬Accepts numblocks r.block r.buffer → ret ≠ 0)

/-- A call of a single task reports what became of its request exactly when the
block is in range and the buffer is not null. -/
theorem call_reports_result {cfg : Config φ μ} {numblocks : Int} {heap : Ptr → Request}
    {store : Store φ μ} {as : List (Action 1 μ)} {s t : State 1 φ μ} {c : Fin 1} {r : Request}
    {ret : Int} (h : run (PingPong.step cfg) (initial numblocks heap store) as = some s)
    (hret : PingPong.step cfg s (.client c) = some t)
    (hhist : t.hist = .returned r ret :: s.hist) :
    ReportsResult numblocks s.hist r ret ↔ Accepts numblocks r.block r.buffer := by
  have hs := run_alone h
  have hpc : s.clients c = .returning r ∧ ret = 0 := by
    cases step_cases hret with
    | ret hpc =>
      obtain ⟨he, _⟩ := List.cons.inj hhist
      cases he
      exact ⟨hpc, rfl⟩
    | _ => exact absurd hhist (List.cons_ne_self _ _).symm
  obtain ⟨hpc, rfl⟩ := hpc
  have hsettled : Settled s.dev.numblocks s.hist r := hs.ownership.owns_at hpc
  rw [run_numblocks h] at hsettled
  constructor
  · intro hreports
    by_contra hrefused
    exact hreports.2 hrefused rfl
  · intro hacc
    exact ⟨⟨fun _ => hsettled hacc, fun _ => rfl⟩, fun hrefused => absurd hacc hrefused⟩

theorem call_reports_result_small : ∃ s t : State 1 (Int → Nat) (Ptr → Nat),
    run (PingPong.step sstfConfig) (smallDisk 1) ((callAlone 0 .read 3 64 16).take 17) = some s ∧
    PingPong.step sstfConfig s (.client 0) = some t ∧
    (ReportsResult 16 s.hist ⟨0, 0, 3, 64, .read, 0⟩ 0 ↔ Accepts 16 3 64) := by
  have hrun : ((run (PingPong.step sstfConfig) (smallDisk 1)
      ((callAlone 0 .read 3 64 16).take 17)).bind fun s =>
        (PingPong.step sstfConfig s (.client 0)).map fun t =>
          decide (t.hist = .returned ⟨0, 0, 3, 64, .read, 0⟩ 0 :: s.hist)) = some true := by decide
  obtain ⟨s, hs, hmap⟩ := Option.bind_eq_some_iff.mp hrun
  obtain ⟨t, ht, hhist⟩ := Option.map_eq_some_iff.mp hmap
  exact ⟨s, t, hs, ht, call_reports_result hs ht (of_decide_eq_true hhist)⟩

/-- The call for block 99 of a disk of 16 blocks returns `0`. -/
theorem call_hides_refusal :
    ¬∀ (as : List (Action 1 (Ptr → Nat))) (s t : State 1 (Int → Nat) (Ptr → Nat)) (r : Request)
      (ret : Int), run (PingPong.step sstfConfig) (smallDisk 1) as = some s →
      PingPong.step sstfConfig s (.client 0) = some t →
      t.hist = .returned r ret :: s.hist → ReportsResult 16 s.hist r ret := by
  intro hall
  have hrun : ((run (PingPong.step sstfConfig) (smallDisk 1)
      ([.call 0 .read 99 64 16, .client 0, .client 0] ++ List.replicate 12 .disk ++
        [.client 0, .client 0])).bind fun s =>
          (PingPong.step sstfConfig s (.client 0)).map fun t =>
            decide (t.hist = .returned ⟨0, 0, 99, 64, .read, 0⟩ 0 :: s.hist)) = some true := by
    decide
  obtain ⟨s, hs, hmap⟩ := Option.bind_eq_some_iff.mp hrun
  obtain ⟨t, ht, hhist⟩ := Option.map_eq_some_iff.mp hmap
  have hreports := hall _ s t _ _ hs ht (of_decide_eq_true hhist)
  exact hreports.2 (by decide) rfl

end PingPong
