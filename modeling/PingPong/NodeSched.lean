import PingPong.NodeList

/-! The three policies on the list in memory. Their loops follow `next` and stop at
`NULL` or when they have made `iSize` rounds; the first argument of a loop is the
number of rounds left. On a well-formed list they choose what the policies on the
sequence of requests choose. -/

namespace PingPong

/-- `gpstRequestList` and the field of `disk` that the policies read. -/
structure SchedState where
  heap : NodeHeap
  iCurrBlock : Int

namespace NodeHeap

def fcfsSched (s : SchedState) : Option (Ptr × SchedState) := do
  let pstList ← s.heap.list
  some (pstList.firstNode, s)

def sstfLoop (ia : IntArith) (headBlock : Int) :
    Nat → Ptr → Ptr → Int → SchedState → Option (Ptr × SchedState)
  | 0, _, pstNearestReq, _, s => some (pstNearestReq, s)
  | i + 1, pstIter, pstNearestReq, shortest, s =>
    if pstIter = 0 then some (pstNearestReq, s)
    else do
      let x ← s.heap.load pstIter
      if seekDist ia Request.block headBlock x.toRequest < shortest then
        sstfLoop ia headBlock i x.next pstIter (seekDist ia Request.block headBlock x.toRequest) s
      else sstfLoop ia headBlock i x.next pstNearestReq shortest s

def sstfSched (ia : IntArith) (s : SchedState) : Option (Ptr × SchedState) := do
  let pstList ← s.heap.list
  let x ← s.heap.load pstList.firstNode
  sstfLoop ia s.iCurrBlock pstList.iSize.toNat pstList.firstNode pstList.firstNode
    (seekDist ia Request.block s.iCurrBlock x.toRequest) s

def cscanLoop (ia : IntArith) (head : Int) :
    Nat → Ptr → Int → Int → Ptr → Ptr → Bool → SchedState → Option (Ptr × SchedState)
  | 0, _, _, _, pstShortestReq, pstShortestReq2, cIsInFront, s =>
    some (if cIsInFront then pstShortestReq else pstShortestReq2, s)
  | i + 1, pstIter, iShortestFront, iShortest, pstShortestReq, pstShortestReq2, cIsInFront, s =>
    if pstIter = 0 then some (if cIsInFront then pstShortestReq else pstShortestReq2, s)
    else do
      let x ← s.heap.load pstIter
      let iBlockDist := iBlockDist ia Request.block head x.toRequest
      if 0 ≤ iBlockDist then
        if iBlockDist < iShortestFront then
          cscanLoop ia head i x.next iBlockDist iShortest pstIter pstShortestReq2 true s
        else
          cscanLoop ia head i x.next iShortestFront iShortest pstShortestReq pstShortestReq2 true s
      else if x.block < iShortest then
        cscanLoop ia head i x.next iShortestFront x.block pstShortestReq pstIter cIsInFront s
      else
        cscanLoop ia head i x.next iShortestFront iShortest pstShortestReq pstShortestReq2
          cIsInFront s

def cscanSched (ia : IntArith) (s : SchedState) : Option (Ptr × SchedState) := do
  let pstList ← s.heap.list
  let x ← s.heap.load pstList.firstNode
  cscanLoop ia s.iCurrBlock pstList.iSize.toNat pstList.firstNode
    (iBlockDist ia Request.block s.iCurrBlock x.toRequest) x.block pstList.firstNode
    pstList.firstNode false s

def sched (ia : IntArith) : DiskAlgorithm → SchedState → Option (Ptr × SchedState)
  | .fcfs => fcfsSched
  | .sstf => sstfSched ia
  | .cscan => cscanSched ia

end NodeHeap

section Sched

variable {ia : IntArith} {head : Int} {h : NodeHeap} {pstList : StRequestList}
  {l : List (Ptr × Request)}

/-- The nodes from `p` on hold the requests `l`, and `NULL` comes next. -/
structure Leads (h : NodeHeap) (p : Ptr) (l : List (Ptr × Request)) : Prop where
  path : Linked.Path (h.link (·.next)) p (l.map Prod.fst) 0
  data : ∀ x ∈ l, h.data x.1 = some x.2
  null : 0 ∉ l.map Prod.fst

theorem Leads.end {p : Ptr} (h : Leads h p []) : p = 0 := h.path

theorem Leads.load {p : Ptr} {x : Ptr × Request} (hl : Leads h p (x :: l)) :
    p = x.1 ∧ p ≠ 0 ∧
      ∃ node, h.load p = some node ∧ node.toRequest = x.2 ∧ Leads h node.next l := by
  obtain ⟨rfl, hrest⟩ := hl.path
  have h0 : x.1 ≠ 0 := fun h0 => hl.null (h0 ▸ List.mem_cons_self)
  refine ⟨rfl, h0, _, (NodeHeap.Holds.refl h).load (hl.data x List.mem_cons_self) h0, rfl, hrest,
    fun y hy => hl.data y (List.mem_cons_of_mem x hy), ?_⟩
  exact fun h0 => hl.null (List.mem_cons_of_mem x.1 h0)

theorem NodeHeap.Represents.leads (hl : h.Represents pstList l) : Leads h pstList.firstNode l :=
  ⟨hl.links.1, fun x hx => (hl.data x.1 x.2).mpr hx, hl.null⟩

/-- The policies start at the first node, with enough rounds for the list. -/
theorem NodeHeap.Represents.enter {x : Ptr × Request} (hl : h.Represents pstList (x :: l)) :
    (x :: l).length ≤ pstList.iSize.toNat ∧ pstList.firstNode = x.1 ∧
      ∃ node, h.load pstList.firstNode = some node ∧ node.toRequest = x.2 := by
  obtain ⟨hx, -, node, hload, hreq, -⟩ := hl.leads.load
  refine ⟨?_, hx, node, hload, hreq⟩
  have hsize := hl.size
  omega

theorem NodeHeap.sstfLoop_eq (c : Int) {k : Nat} {p : Ptr} (hl : Leads h p l) (hk : l.length ≤ k)
    (near : Ptr × Request) (shortest : Int) :
    NodeHeap.sstfLoop ia head k p near.1 shortest ⟨h, c⟩ =
      some ((PingPong.sstfLoop ia (fun x => x.2.block) head shortest near l).1, ⟨h, c⟩) := by
  induction l generalizing k p near shortest with
  | nil =>
    cases k with
    | zero => rfl
    | succ k => exact if_pos hl.end
  | cons x l ih =>
    cases k with
    | zero => cases hk
    | succ k =>
      have hk' := Nat.le_of_succ_le_succ hk
      obtain ⟨rfl, h0, node, hload, hreq, hrest⟩ := hl.load
      have hdist : seekDist ia (fun x : Ptr × Request => x.2.block) head x =
          seekDist ia Request.block head node.toRequest := by
        rw [hreq]
        rfl
      simp only [NodeHeap.sstfLoop, if_neg h0, hload, Option.bind_eq_bind, Option.bind_some,
        PingPong.sstfLoop, hdist]
      split_ifs with hlt
      · exact ih hrest hk' x _
      · exact ih hrest hk' near _

theorem NodeHeap.sstfSched_eq (hl : h.Represents pstList l) (head : Int) :
    NodeHeap.sstfSched ia ⟨h, head⟩ =
      (PingPong.sstfSched ia (fun x => x.2.block) head l).map fun x => (x.1, ⟨h, head⟩) := by
  cases l with
  | nil =>
    have hfirst := hl.firstNode_eq.mpr rfl
    simp [NodeHeap.sstfSched, PingPong.sstfSched, hl.list, hfirst, NodeHeap.load]
  | cons x l =>
    obtain ⟨hk, hx, node, hload, hreq⟩ := hl.enter
    have hloop : NodeHeap.sstfLoop ia head _ _ x.1 _ _ = _ :=
      NodeHeap.sstfLoop_eq head hl.leads hk x (seekDist ia Request.block head node.toRequest)
    simp only [NodeHeap.sstfSched, hl.list, Option.bind_eq_bind, Option.bind_some, hload]
    rw [← hx] at hloop
    rw [hloop, hreq]
    rfl

theorem NodeHeap.cscanLoop_eq (c : Int) {k : Nat} {p : Ptr} (hl : Leads h p l) (hk : l.length ≤ k)
    (front low : Int) (a b : Ptr × Request) (inFront : Bool) :
    NodeHeap.cscanLoop ia head k p front low a.1 b.1 inFront ⟨h, c⟩ =
      some ((PingPong.cscanLoop ia (fun x => x.2.block) head front low a b inFront l).1,
        ⟨h, c⟩) := by
  have hstop : some (if inFront then a.1 else b.1, (⟨h, c⟩ : SchedState)) =
      some ((if inFront then a else b).1, ⟨h, c⟩) := by
    cases inFront <;> rfl
  induction l generalizing k p front low a b inFront with
  | nil =>
    cases k with
    | zero => exact hstop
    | succ k => exact (if_pos hl.end).trans hstop
  | cons x l ih =>
    cases k with
    | zero => cases hk
    | succ k =>
      have hk' := Nat.le_of_succ_le_succ hk
      obtain ⟨rfl, h0, node, hload, hreq, hrest⟩ := hl.load
      have hdist : iBlockDist ia (fun x : Ptr × Request => x.2.block) head x =
          iBlockDist ia Request.block head node.toRequest := by
        rw [hreq]
        rfl
      have hblock : x.2.block = node.block := by rw [hreq]
      simp only [NodeHeap.cscanLoop, if_neg h0, hload, Option.bind_eq_bind, Option.bind_some,
        PingPong.cscanLoop, hdist, hblock]
      split_ifs
      · exact ih hrest hk' _ _ x b true rfl
      · exact ih hrest hk' _ _ a b true rfl
      · exact ih hrest hk' _ _ a x inFront (by cases inFront <;> rfl)
      · exact ih hrest hk' _ _ a b inFront hstop

theorem NodeHeap.cscanSched_eq (hl : h.Represents pstList l) (head : Int) :
    NodeHeap.cscanSched ia ⟨h, head⟩ =
      (PingPong.cscanSched ia (fun x => x.2.block) head l).map fun x => (x.1, ⟨h, head⟩) := by
  cases l with
  | nil =>
    have hfirst := hl.firstNode_eq.mpr rfl
    simp [NodeHeap.cscanSched, PingPong.cscanSched, hl.list, hfirst, NodeHeap.load]
  | cons x l =>
    obtain ⟨hk, hx, node, hload, hreq⟩ := hl.enter
    have hloop : NodeHeap.cscanLoop ia head _ _ _ _ x.1 x.1 _ _ = _ :=
      NodeHeap.cscanLoop_eq head hl.leads hk
        (iBlockDist ia Request.block head node.toRequest) node.block x x false
    simp only [NodeHeap.cscanSched, hl.list, Option.bind_eq_bind, Option.bind_some, hload]
    rw [← hx] at hloop
    rw [hloop, hreq]
    rfl

/-- In memory and on the sequence of requests the policies agree. -/
theorem NodeHeap.sched_eq (hl : h.Represents pstList l) (hne : l ≠ []) (head : Int)
    (alg : DiskAlgorithm) : NodeHeap.sched ia alg ⟨h, head⟩ =
      (schedChoice ia (fun x => x.2.block) head alg l).map fun x => (x.1, ⟨h, head⟩) := by
  cases alg with
  | fcfs =>
    obtain ⟨x, l, rfl⟩ := List.exists_cons_of_ne_nil hne
    have hfirst := hl.links.1.start
    simp [NodeHeap.sched, NodeHeap.fcfsSched, schedChoice, PingPong.fcfsSched, hl.list, hfirst]
  | sstf => exact NodeHeap.sstfSched_eq hl head
  | cscan => exact NodeHeap.cscanSched_eq hl head

/-- `sstfSched` returns the first of the nearest nodes, and leaves the list and the
head as they are. -/
theorem sstfSched_first_nearest (hl : h.Represents pstList l) (hne : l ≠ []) (head : Int) :
    ∃ p r pre post, NodeHeap.sstfSched .exact ⟨h, head⟩ = some (p, ⟨h, head⟩) ∧
      l = pre ++ (p, r) :: post ∧
      (∀ y ∈ pre, (r.block - head).natAbs < (y.2.block - head).natAbs) ∧
      ∀ y ∈ post, (r.block - head).natAbs ≤ (y.2.block - head).natAbs := by
  have hsome : ∃ x, PingPong.sstfSched .exact (fun x => x.2.block) head l = some x := by
    obtain ⟨x, l, rfl⟩ := List.exists_cons_of_ne_nil hne
    exact ⟨_, rfl⟩
  obtain ⟨⟨p, r⟩, hx⟩ := hsome
  obtain ⟨pre, post, hl', hpre, hpost⟩ := sstfSched_nearest hx
  refine ⟨p, r, pre, post, ?_, hl', ?_, ?_⟩
  · rw [NodeHeap.sstfSched_eq hl, hx]
    rfl
  · intro y hy
    exact Int.ofNat_lt.mp (hpre y hy)
  · intro y hy
    exact Int.ofNat_le.mp (hpost y hy)

end Sched

theorem sstfSched_first_nearest_small : ∃ (h : NodeHeap) (p : Ptr) (r : Request)
    (pre post : List (Ptr × Request)), NodeHeap.sstfSched .exact ⟨h, 4⟩ = some (p, ⟨h, 4⟩) ∧
      [(16, ⟨1, 2, 3, 128, .write, 1⟩), (24, ⟨2, 3, 5, 192, .read, 2⟩)] =
        pre ++ (p, r) :: post ∧
      ∀ y ∈ pre, (r.block - 4).natAbs < (y.2.block - 4).natAbs := by
  have hrun : Runs.run seqStep [] [.addNodeInFront 16 ⟨1, 2, 3, 128, .write, 1⟩,
      .addNodeInFront 24 ⟨2, 3, 5, 192, .read, 2⟩] =
        some [(16, ⟨1, 2, 3, 128, .write, 1⟩), (24, ⟨2, 3, 5, 192, .read, 2⟩)] := by decide
  obtain ⟨h, -, pstList, hrep⟩ := run_represents hrun
  obtain ⟨p, r, pre, post, hsched, hl, hpre, -⟩ :=
    sstfSched_first_nearest hrep (List.cons_ne_nil _ _) 4
  exact ⟨h, p, r, pre, post, hsched, hl, hpre⟩

end PingPong
