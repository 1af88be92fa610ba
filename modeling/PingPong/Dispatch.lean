import PingPong.Requests

/-! The fields that `diskScheduler` reads from the freed node. -/

namespace PingPong

open Runs

variable {n : Nat} {φ μ : Type}

/-- The fields of the selected request `r` that are still to be read from `p`. -/
def DiskPc.Unread (x : Request) : DiskPc → Prop
  | .askStatus _ r | .setStart _ r | .account _ r | .setCurrBlock _ r _ =>
    x.block = r.block ∧ x.buffer = r.buffer ∧ x.cTaskAction = r.cTaskAction
  | .setBuffer _ r => x.buffer = r.buffer ∧ x.cTaskAction = r.cTaskAction
  | .command _ r => x.cTaskAction = r.cTaskAction
  | _ => True

instance (x : Request) : (pc : DiskPc) → Decidable (pc.Unread x)
  | .askStatus _ r | .setStart _ r | .account _ r | .setCurrBlock _ r _ =>
    inferInstanceAs (Decidable (x.block = r.block ∧ x.buffer = r.buffer ∧
      x.cTaskAction = r.cTaskAction))
  | .setBuffer _ r =>
    inferInstanceAs (Decidable (x.buffer = r.buffer ∧ x.cTaskAction = r.cTaskAction))
  | .command _ r => inferInstanceAs (Decidable (x.cTaskAction = r.cTaskAction))
  | .whileInit | .downNewReqs | .checkEmpty | .choose | .remove _ | .upTreated _ | .exited =>
    inferInstanceAs (Decidable True)

/-- The node that `removeNode` has freed and `diskScheduler` still reads. -/
def DiskPc.freed : DiskPc → Option Ptr
  | .askStatus p _ | .setStart p _ | .account p _ | .setCurrBlock p _ _ | .setBuffer p _
  | .command p _ => some p
  | _ => none

/-- A call that gets the freed node from `malloc` writes the same values into
the fields still to be read. -/
def KeepsDispatch (s : State n φ μ) : Action n μ → Prop
  | .call c cmd block buffer addr =>
    s.disk.freed = some addr → s.disk.Unread ⟨s.nextId, c, block, buffer, cmd, s.systemTime⟩
  | _ => True

instance (s : State n φ μ) : (a : Action n μ) → Decidable (KeepsDispatch s a)
  | .call c cmd block buffer addr =>
    inferInstanceAs (Decidable (s.disk.freed = some addr →
      s.disk.Unread ⟨s.nextId, c, block, buffer, cmd, s.systemTime⟩))
  | .client _ | .store _ _ | .disk | .fire | .tick => inferInstanceAs (Decidable True)

/-- What `diskScheduler` has copied out of the node so far. -/
def DiskPc.Copied (mgr : Manager) : DiskPc → Prop
  | .setBuffer _ r => mgr.iCurrBlock = r.block
  | .command _ r => mgr.iCurrBlock = r.block ∧ mgr.buffer = r.buffer
  | _ => True

def Event.Own : Event → Prop
  | .dispatched r cmd block buffer _ => cmd = r.cTaskAction ∧ block = r.block ∧ buffer = r.buffer
  | _ => True

structure Faithful (s : State n φ μ) : Prop where
  unread : ∀ p, s.disk.freed = some p → s.disk.Unread (s.heap p)
  copied : s.disk.Copied s.mgr
  own : ∀ e ∈ s.hist, e.Own

/-- In every state: what was passed to `disk_cmd`, and the block stored in
`iCurrBlock`, are the removed request's; the removed requests are the selected
ones and the dispatched ones are the removed ones, each up to the one at hand;
and none is dispatched twice. -/
structure DispatchesSelected (s : State n φ μ) : Prop where
  command : ∀ r cmd block buffer ret, Event.dispatched r cmd block buffer ret ∈ s.hist →
    cmd = r.cTaskAction ∧ block = r.block ∧ buffer = r.buffer
  head : ∀ p r, s.disk = .setBuffer p r ∨ s.disk = .command p r → s.mgr.iCurrBlock = r.block
  selected : selectedOf s.hist = (s.disk.selection s.heap).toList ++ removedOf s.hist
  removed : removedOf s.hist = s.disk.inHand.toList ++ dispatchedOf s.hist
  once : ((dispatchedOf s.hist).map Request.id).Nodup

theorem Conserved.dispatched_nodup {s : State n φ μ} (hs : Conserved s) :
    ((dispatchedOf s.hist).map Request.id).Nodup := by
  have hnd := hs.nodup
  rw [hs.removed, List.append_assoc, List.map_append, List.map_append] at hnd
  exact (List.nodup_append.mp (List.nodup_append.mp hnd).2.1).1

theorem initial_faithful (numblocks : Int) (heap : Ptr → Request) (store : Store φ μ) :
    Faithful (initial numblocks heap store : State n φ μ) where
  unread p hp := by simp [initial, DiskPc.freed] at hp
  copied := trivial
  own e he := by simp [initial] at he

theorem Faithful.step {cfg : Config φ μ} {s t : State n φ μ} {a : Action n μ}
    (hs : Faithful s) (hok : KeepsDispatch s a) (h : Step cfg s a t) : Faithful t := by
  cases h with
  | @call c cmd block buffer addr r hr hpc hnull hfresh =>
    refine ⟨fun p hp => ?_, hs.copied, List.forall_mem_cons.mpr ⟨trivial, hs.own⟩⟩
    by_cases he : p = addr
    · subst p
      have hkeep := hok hp
      simpa only [Function.update_self, hr] using hkeep
    · simpa only [Function.update_of_ne he] using hs.unread p hp
  | lock | upNew | downTreated | unlock | store | tick => exact ⟨hs.unread, hs.copied, hs.own⟩
  | ret => exact ⟨hs.unread, hs.copied, List.forall_mem_cons.mpr ⟨trivial, hs.own⟩⟩
  | fire =>
    refine ⟨hs.unread, ?_, List.forall_mem_cons.mpr ⟨trivial, hs.own⟩⟩
    have hcopied := hs.copied
    cases hd : s.disk <;> simp_all [DiskPc.Copied]
  | enterLoop | leaveLoop | downNew | empty | nonempty | notIdle | upTreated =>
    exact ⟨by simp [DiskPc.freed], trivial, hs.own⟩
  | choose => exact ⟨by simp [DiskPc.freed], trivial, List.forall_mem_cons.mpr ⟨trivial, hs.own⟩⟩
  | remove =>
    refine ⟨fun p hp => ?_, trivial, List.forall_mem_cons.mpr ⟨trivial, hs.own⟩⟩
    cases hp
    exact ⟨rfl, rfl, rfl⟩
  | isIdle hpc | setStart hpc | account hpc =>
    have hunread := hs.unread
    rw [hpc] at hunread
    exact ⟨hunread, trivial, hs.own⟩
  | setCurrBlock hpc =>
    have hunread := hs.unread
    rw [hpc] at hunread
    refine ⟨fun p hp => ?_, ?_, hs.own⟩
    · exact (hunread p hp).2
    · exact (hunread _ rfl).1
  | setBuffer hpc =>
    have hunread := hs.unread
    have hcopied := hs.copied
    rw [hpc] at hunread hcopied
    refine ⟨fun p hp => ?_, ?_, hs.own⟩
    · exact (hunread p hp).2
    · exact ⟨hcopied, (hunread _ rfl).1⟩
  | accept hpc | refuse hpc =>
    have hunread := hs.unread
    have hcopied := hs.copied
    rw [hpc] at hunread hcopied
    refine ⟨by simp [DiskPc.freed], trivial, List.forall_mem_cons.mpr ⟨?_, hs.own⟩⟩
    exact ⟨hunread _ rfl, hcopied.1, hcopied.2⟩

theorem run_faithful {cfg : Config φ μ} {numblocks : Int} {heap : Ptr → Request}
    {store : Store φ μ} {as : List (Action n μ)} {s : State n φ μ}
    (hok : Along (PingPong.step cfg) KeepsDispatch (initial numblocks heap store) as)
    (h : run (PingPong.step cfg) (initial numblocks heap store) as = some s) : Faithful s :=
  run_invariant (fun _ _ _ hs hok ht => hs.step hok (step_cases ht))
    (initial_faithful numblocks heap store) hok h

/-- In every run in which no call overwrites what is still to be read, the disk
gets the request that was selected, once. -/
theorem dispatch_of_selected {cfg : Config φ μ} {numblocks : Int} {heap : Ptr → Request}
    {store : Store φ μ} {as : List (Action n μ)} {s : State n φ μ}
    (hok : Along (PingPong.step cfg) KeepsDispatch (initial numblocks heap store) as)
    (h : run (PingPong.step cfg) (initial numblocks heap store) as = some s) :
    DispatchesSelected s := by
  have hf := run_faithful hok h
  have hc := run_conserved h
  refine ⟨?_, ?_, hc.selected, hc.removed, hc.dispatched_nodup⟩
  · intro r cmd block buffer ret he
    exact hf.own _ he
  · intro p r hpc
    have hcopied := hf.copied
    rcases hpc with hpc | hpc
    · rw [hpc] at hcopied
      exact hcopied
    · rw [hpc] at hcopied
      exact hcopied.1

theorem dispatch_of_selected_small : ∃ s : State 2 (Int → Nat) (Ptr → Nat),
    run (PingPong.step sstfConfig) (smallDisk 2)
      (callAlone 0 .read 3 64 16 ++ callAlone 1 .write 5 80 16) = some s ∧
    DispatchesSelected s := by
  have hrun : (run (PingPong.step sstfConfig) (smallDisk 2)
      (callAlone 0 .read 3 64 16 ++ callAlone 1 .write 5 80 16)).isSome = true := by decide
  obtain ⟨s, hs⟩ := Option.isSome_iff_exists.mp hrun
  refine ⟨s, hs, dispatch_of_selected ?_ hs⟩
  decide

/-- Client 1 gets the node of client 0 from `malloc` while it is being
dispatched, and the disk writes block 9 instead of reading block 3. -/
theorem dispatch_reads_reused_node :
    ¬∀ (as : List (Action 2 (Ptr → Nat))) (s : State 2 (Int → Nat) (Ptr → Nat)),
      run (PingPong.step sstfConfig) (smallDisk 2) as = some s → DispatchesSelected s := by
  intro hall
  let r : Request := ⟨0, 0, 3, 64, .read, 0⟩
  have hrun : (run (PingPong.step sstfConfig) (smallDisk 2)
      ([.call 0 .read 3 64 16, .client 0, .client 0] ++ List.replicate 5 .disk ++
        [.call 1 .write 9 200 16] ++ List.replicate 6 .disk)).map (·.hist) =
      some [.dispatched r .write 9 200 0, .enqueued ⟨1, 1, 9, 200, .write, 0⟩, .removed r,
        .selected r, .enqueued r] := by decide
  obtain ⟨s, hs, hhist⟩ := Option.map_eq_some_iff.mp hrun
  have hcmd := (hall _ s hs).command r .write 9 200 0 (by rw [hhist]; simp)
  exact absurd hcmd.2.1 (by decide)

end PingPong
