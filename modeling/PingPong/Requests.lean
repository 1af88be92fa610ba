import PingPong.Handshake
import Mathlib.Data.List.Perm.Basic
import Mathlib.Data.List.Range

/-! What becomes of a request. The list and the removed requests together are the
enqueued ones, and the selected, removed and dispatched requests follow each
other in lockstep. `diskScheduler` reads the fields of the node after `removeNode`
has freed it; they are the selected request's as long as no `malloc` in between
returns the same address with other contents. -/

namespace PingPong

open Runs

variable {n : Nat} {φ μ : Type}

def Event.enqueued? : Event → Option Request
  | .enqueued r => some r
  | _ => none

def Event.selected? : Event → Option Request
  | .selected r => some r
  | _ => none

def Event.removed? : Event → Option Request
  | .removed r => some r
  | _ => none

def Event.dispatched? : Event → Option Request
  | .dispatched r _ _ _ _ => some r
  | _ => none

def enqueuedOf (hist : List Event) : List Request := hist.filterMap Event.enqueued?

def selectedOf (hist : List Event) : List Request := hist.filterMap Event.selected?

def removedOf (hist : List Event) : List Request := hist.filterMap Event.removed?

def dispatchedOf (hist : List Event) : List Request := hist.filterMap Event.dispatched?

/-- The request that is selected and not yet removed. -/
def DiskPc.selection (heap : Ptr → Request) : DiskPc → Option Request
  | .remove p => some (heap p)
  | _ => none

/-- The request that is removed and not yet passed to `disk_cmd`. -/
def DiskPc.inHand : DiskPc → Option Request
  | .askStatus _ r | .setStart _ r | .account _ r | .setCurrBlock _ r _ | .setBuffer _ r
  | .command _ r => some r
  | _ => none

structure Conserved (s : State n φ μ) : Prop where
  perm : (removedOf s.hist ++ s.list.map s.heap).Perm (enqueuedOf s.hist)
  ids : (enqueuedOf s.hist).map Request.id = (List.range s.nextId).reverse
  selected : selectedOf s.hist = (s.disk.selection s.heap).toList ++ removedOf s.hist
  removed : removedOf s.hist = s.disk.inHand.toList ++ dispatchedOf s.hist

theorem Conserved.nodup {s : State n φ μ} (hs : Conserved s) :
    ((removedOf s.hist ++ s.list.map s.heap).map Request.id).Nodup := by
  apply (hs.perm.map Request.id).nodup_iff.mpr
  rw [hs.ids]
  exact List.nodup_reverse.mpr List.nodup_range

theorem initial_conserved (numblocks : Int) (heap : Ptr → Request) (store : Store φ μ) :
    Conserved (initial numblocks heap store : State n φ μ) where
  perm := List.Perm.refl _
  ids := rfl
  selected := rfl
  removed := rfl

theorem map_heap_update {l : List Ptr} {heap : Ptr → Request} {addr : Ptr} (r : Request)
    (h : addr ∉ l) : l.map (Function.update heap addr r) = l.map heap := by
  apply List.map_congr_left
  intro p hp
  exact Function.update_of_ne (fun he : p = addr => h (he ▸ hp)) _ _

/-- A step that touches neither the list nor its nodes, and of the history only
what the lockstep does not read. -/
theorem Conserved.frame {s t : State n φ μ} (hs : Conserved s) (hlist : t.list = s.list)
    (hheap : t.heap = s.heap) (hid : t.nextId = s.nextId)
    (hsel : t.disk.selection t.heap = s.disk.selection s.heap)
    (hhand : t.disk.inHand = s.disk.inHand)
    (henq : enqueuedOf t.hist = enqueuedOf s.hist) (hsld : selectedOf t.hist = selectedOf s.hist)
    (hrem : removedOf t.hist = removedOf s.hist)
    (hdis : dispatchedOf t.hist = dispatchedOf s.hist) : Conserved t where
  perm := by
    rw [hlist, hheap, henq, hrem]
    exact hs.perm
  ids := by
    rw [henq, hid]
    exact hs.ids
  selected := by
    rw [hsld, hsel, hrem]
    exact hs.selected
  removed := by
    rw [hrem, hhand, hdis]
    exact hs.removed

theorem Conserved.step {cfg : Config φ μ} {s t : State n φ μ} {a : Action n μ}
    (hshake : Handshake s) (hs : Conserved s) (h : Step cfg s a t) : Conserved t := by
  cases h with
  | @call c cmd block buffer addr r hr hpc hnull hfresh =>
    refine ⟨?_, ?_, ?_, hs.removed⟩
    · show (removedOf s.hist ++ (s.list ++ [addr]).map (Function.update s.heap addr r)).Perm
        (r :: enqueuedOf s.hist)
      rw [List.map_append, map_heap_update r hfresh, List.map_singleton, Function.update_self,
        ← List.append_assoc]
      exact (List.perm_append_singleton _ _).trans (hs.perm.cons r)
    · show r.id :: (enqueuedOf s.hist).map Request.id = (List.range (s.nextId + 1)).reverse
      rw [hs.ids, List.range_succ, List.reverse_append, hr]
      rfl
    · have hsel : s.disk.selection (Function.update s.heap addr r) = s.disk.selection s.heap := by
        cases hd : s.disk with
        | remove p =>
          have hne : p ≠ addr := fun he => hfresh (he ▸ hshake.chosen p hd)
          simp only [DiskPc.selection, Function.update_of_ne hne]
        | _ => rfl
      show selectedOf s.hist = _
      rw [hsel]
      exact hs.selected
  | lock | upNew | downTreated | unlock | ret | store | fire | tick =>
    exact hs.frame rfl rfl rfl rfl rfl rfl rfl rfl rfl
  | enterLoop hpc | leaveLoop hpc | downNew hpc | empty hpc | nonempty hpc | isIdle hpc
  | setStart hpc | account hpc | setCurrBlock hpc | setBuffer hpc | upTreated hpc =>
    exact hs.frame rfl rfl rfl (by rw [hpc]; rfl) (by rw [hpc]; rfl) rfl rfl rfl rfl
  | @choose p hpc hsched =>
    refine ⟨hs.perm, hs.ids, ?_, ?_⟩
    · have hsel := hs.selected
      rw [hpc] at hsel
      exact congrArg (s.heap p :: ·) hsel
    · have hrem := hs.removed
      rw [hpc] at hrem
      exact hrem
  | @remove p hpc =>
    have hmem := hshake.chosen p hpc
    refine ⟨?_, hs.ids, ?_, ?_⟩
    · show ((s.heap p :: removedOf s.hist) ++ (s.list.erase p).map s.heap).Perm (enqueuedOf s.hist)
      have herase := (List.perm_cons_erase hmem).map s.heap
      have hmove : (removedOf s.hist ++ s.heap p :: (s.list.erase p).map s.heap).Perm
          (s.heap p :: (removedOf s.hist ++ (s.list.erase p).map s.heap)) := List.perm_middle
      exact hmove.symm.trans ((herase.symm.append_left _).trans hs.perm)
    · have hsel := hs.selected
      rw [hpc] at hsel
      exact hsel
    · have hrem := hs.removed
      rw [hpc] at hrem
      exact congrArg (s.heap p :: ·) hrem
  | notIdle hpc hdev => exact absurd (hshake.idle (by rw [hpc]; rfl)) hdev
  | accept hpc | refuse hpc =>
    have hsel := hs.selected
    have hrem := hs.removed
    rw [hpc] at hsel hrem
    exact ⟨hs.perm, hs.ids, hsel, hrem⟩

theorem run_conserved {cfg : Config φ μ} {numblocks : Int} {heap : Ptr → Request}
    {store : Store φ μ} {as : List (Action n μ)} {s : State n φ μ}
    (h : run (PingPong.step cfg) (initial numblocks heap store) as = some s) : Conserved s :=
  (run_invariant (P := fun s => Handshake s ∧ Conserved s)
    (fun _ _ _ hs _ ht => ⟨hs.1.step (step_cases ht), hs.2.step hs.1 (step_cases ht)⟩)
    ⟨initial_handshake numblocks heap store, initial_conserved numblocks heap store⟩
    (along_trivial _ _ as) h).2

end PingPong
