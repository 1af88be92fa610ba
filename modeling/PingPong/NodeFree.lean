import PingPong.NodeList
import PingPong.Shutdown

/-! The memory of the request list. Between two calls the allocated nodes are those of
the list, and `finishDiskTask` frees each of them once, so none is leaked whenever the
list is given up. -/

namespace PingPong

open Runs

namespace NodeHeap

/-- The `while` loop; a node is read before it is freed. -/
def freeLoop : Nat → NodeHeap → Ptr → Option NodeHeap
  | fuel, h, aux =>
    if aux = 0 then some h
    else
      match fuel with
      | 0 => none
      | fuel + 1 => do
        let x ← h.load aux
        freeLoop fuel (h.free aux) x.next

/-- The list and the returned value. A loop of more than `iSize` rounds is `none`. -/
def finishDiskTask (h : NodeHeap) : Option (NodeHeap × Bool) :=
  match h.list with
  | none => some (h, false)
  | some pstList =>
    if pstList.iSize = 0 then some (h, false)
    else do
      let h ← freeLoop pstList.iSize.toNat h pstList.firstNode
      some ({ h with list := some ⟨0, 0, 0⟩ }, true)

end NodeHeap

inductive ListCall
  | op (o : ListOp)
  | finishDiskTask
  deriving DecidableEq, Repr

def listCallStep (h : NodeHeap) : ListCall → Option NodeHeap
  | .op o => listOpStep h o
  | .finishDiskTask => h.finishDiskTask.map Prod.fst

def seqCallStep (l : List (Ptr × Request)) : ListCall → Option (List (Ptr × Request))
  | .op o => seqStep l o
  | .finishDiskTask => some []

namespace NodeHeap

variable {h : NodeHeap} {pstList : StRequestList} {l : List (Ptr × Request)} {p : Ptr}

theorem Represents.allocated (hl : Represents h pstList l) (p : Ptr) :
    h.nodes p ≠ none ↔ p ∈ l.map Prod.fst := by
  constructor
  · intro hp
    obtain ⟨x, hx⟩ := Option.ne_none_iff_exists'.mp hp
    have hdata : h.data p = some x.toRequest := by simp [NodeHeap.data, hx]
    exact List.mem_map_of_mem ((hl.data p _).mp hdata)
  · intro hp hnone
    obtain ⟨r, hr⟩ := hl.exists_data hp
    simp [NodeHeap.data, hnone] at hr

/-- The nodes that the loop has freed are not on the rest of its path. -/
theorem freeLoop_of_path (hpath : Linked.Path (h.link (·.next)) p (l.map Prod.fst) 0)
    (hdata : ∀ q r, h.data q = some r ↔ (q, r) ∈ l) (hnodup : (l.map Prod.fst).Nodup)
    (hnull : 0 ∉ l.map Prod.fst) :
    ∃ h', freeLoop l.length h p = some h' ∧ ∀ q, h'.nodes q = none := by
  induction l generalizing h p with
  | nil =>
    obtain rfl : p = 0 := hpath
    refine ⟨h, by simp [freeLoop], fun q => ?_⟩
    rw [Option.eq_none_iff_forall_ne_some]
    intro x hx
    have hmem := (hdata q x.toRequest).mp (by simp [NodeHeap.data, hx])
    cases hmem
  | cons x l ih =>
    obtain ⟨rfl, hrest⟩ := hpath
    obtain ⟨hx, hnodup'⟩ := List.nodup_cons.mp hnodup
    have hx0 : x.1 ≠ 0 := fun h0 => hnull (h0 ▸ List.mem_cons_self)
    have hload := (Holds.refl h).load ((hdata x.1 x.2).mpr List.mem_cons_self) hx0
    have hfree := (Holds.refl h).free x.1
    have hpath' : Linked.Path ((h.free x.1).link (·.next)) (h.link (·.next) x.1)
        (l.map Prod.fst) 0 := by
      rw [hfree.next]
      exact hrest.update hx
    have hdata' : ∀ q r, (h.free x.1).data q = some r ↔ (q, r) ∈ l := fun q r => by
      rw [hfree.data]
      by_cases hq : q = x.1
      · subst q
        have hnot : (x.1, r) ∉ l := fun hmem => hx (List.mem_map.mpr ⟨_, hmem, rfl⟩)
        simp [hnot]
      · rw [Function.update_of_ne hq, hdata, List.mem_cons]
        have hne : (q, r) ≠ x := fun he => hq (he ▸ rfl)
        simp [hne]
    obtain ⟨h', hloop, hnone⟩ := ih hpath' hdata' hnodup'
      fun h0 => hnull (List.mem_cons_of_mem _ h0)
    refine ⟨h', ?_, hnone⟩
    simp [freeLoop, hx0, hload, hloop]

/-- The loop reads only allocated nodes, and has freed them all after `iSize` rounds. -/
theorem Represents.finishDiskTask (hl : Represents h pstList l) :
    ∃ h' pstList', h.finishDiskTask = some (h', decide (l ≠ [])) ∧ Represents h' pstList' [] := by
  by_cases hnil : l = []
  · subst l
    have hsize : pstList.iSize = 0 := hl.size
    refine ⟨h, pstList, ?_, hl⟩
    simp [NodeHeap.finishDiskTask, hl.list, hsize]
  · have hsize : pstList.iSize ≠ 0 := by
      rw [hl.size]
      simpa using hnil
    have hrounds : pstList.iSize.toNat = l.length := by
      rw [hl.size, Int.toNat_natCast]
    obtain ⟨h', hloop, hnone⟩ := freeLoop_of_path hl.links.1 hl.data hl.nodup hl.null
    refine ⟨{ h' with list := some ⟨0, 0, 0⟩ }, ⟨0, 0, 0⟩, ?_, ?_⟩
    · simp [NodeHeap.finishDiskTask, hl.list, hsize, hrounds, hloop, hnil]
    · refine ⟨rfl, rfl, ⟨rfl, rfl⟩, ?_, List.nodup_nil, List.not_mem_nil⟩
      simp [NodeHeap.data, hnone]

end NodeHeap

/-- What the manager is told of the list is what happens to its nodes. -/
theorem finishDiskTask_represents {n : Nat} {φ μ : Type} {h : NodeHeap}
    {pstList : StRequestList} {l : List (Ptr × Request)} (hl : h.Represents pstList l)
    {s : State n φ μ} (hs : s.list = l.map Prod.fst) :
    ∃ h' pstList' l', h.finishDiskTask = some (h', (finishDiskTask s).2) ∧
      h'.Represents pstList' l' ∧ (finishDiskTask s).1.list = l'.map Prod.fst := by
  obtain ⟨h', pstList', hfinish, hrep⟩ := hl.finishDiskTask
  refine ⟨h', pstList', [], ?_, hrep, ?_⟩
  · rw [hfinish]
    by_cases hnil : l = []
    · rw [finishDiskTask_empty (by rw [hs, hnil, List.map_nil])]
      simp [hnil]
    · rw [finishDiskTask_nonempty (by simpa [hs] using hnil)]
      simp [hnil]
  · by_cases hnil : s.list = []
    · rw [finishDiskTask_empty hnil, hnil, List.map_nil]
    · rw [finishDiskTask_nonempty hnil, List.map_nil]

theorem listCallStep_refines {h : NodeHeap} {l l' : List (Ptr × Request)} {call : ListCall}
    (hl : ∃ pstList, h.Represents pstList l) (hstep : seqCallStep l call = some l') :
    ∃ h', listCallStep h call = some h' ∧ ∃ pstList, h'.Represents pstList l' := by
  cases call with
  | op o => exact listOpStep_refines hl hstep
  | finishDiskTask =>
    cases hstep
    obtain ⟨pstList, hl⟩ := hl
    obtain ⟨h', pstList', hfinish, hrep⟩ := hl.finishDiskTask
    exact ⟨h', by rw [listCallStep, hfinish, Option.map_some], pstList', hrep⟩

/-- Address 8 is in use again after it was freed. -/
def smallCalls : List ListCall :=
  [.op (.addNodeInFront 8 ⟨0, 1, 5, 64, .read, 0⟩),
    .op (.addNodeInBack 16 ⟨1, 2, 3, 128, .write, 1⟩), .finishDiskTask,
    .op (.addNodeInFront 8 ⟨2, 3, 7, 192, .read, 2⟩),
    .op (.addNodeInFront 24 ⟨0, 4, 2, 64, .write, 3⟩), .op (.removeNode 8)]

end PingPong
