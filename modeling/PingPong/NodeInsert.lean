import PingPong.NodeList

/-! Insertion behind a given node. `addNode` stores the two neighbours in the new
node and never stores the new node in them, so it is counted without being linked
unless the list was empty. -/

namespace PingPong

namespace NodeHeap

def addNode (h : NodeHeap) (pstPreviousNode addr : Ptr) (r : Request) : Option NodeHeap :=
  match h.list with
  | none => none
  | some pstList =>
    if pstPreviousNode ≠ 0 then do
      let x ← h.load pstPreviousNode
      let h ← h.createNode addr pstPreviousNode x.next r
      some { h with list := some ⟨pstList.firstNode,
        if pstPreviousNode = pstList.lastNode then addr else pstList.lastNode,
        pstList.iSize + 1⟩ }
    else do
      let h ← h.createNode addr 0 0 r
      some { h with list := some ⟨addr, addr, pstList.iSize + 1⟩ }

end NodeHeap

def insertAfter (p : Ptr) (x : Ptr × Request) : List (Ptr × Request) → List (Ptr × Request)
  | [] => [x]
  | y :: l => if y.1 = p then y :: x :: l else y :: insertAfter p x l

/-- `addNode` leaves a well-formed list in which the request stands directly
behind `p`, in both directions. -/
def InsertsAfter (h : NodeHeap) (pstList : StRequestList) (l : List (Ptr × Request))
    (p addr : Ptr) (r : Request) : Prop :=
  ∃ h' pstList', h.addNode p addr r = some h' ∧
    h'.Represents pstList' (insertAfter p (addr, r) l) ∧
    h'.walk (·.next) (l.length + 1) pstList'.firstNode = some (insertAfter p (addr, r) l) ∧
    h'.walk (·.prev) (l.length + 1) pstList'.lastNode =
      some (insertAfter p (addr, r) l).reverse ∧
    pstList'.iSize = pstList.iSize + 1 ∧ pstList'.iSize = l.length + 1

section Insert

variable {h : NodeHeap} {pstList : StRequestList} {l : List (Ptr × Request)} {p addr : Ptr}
  {r : Request}

theorem insertAfter_split {x : Ptr × Request} (hp : p ∈ l.map Prod.fst) :
    ∃ a s b, l = a ++ (p, s) :: b ∧ insertAfter p x l = a ++ (p, s) :: x :: b := by
  induction l with
  | nil => cases hp
  | cons y l ih =>
    by_cases hy : y.1 = p
    · subst p
      exact ⟨[], y.2, l, rfl, if_pos rfl⟩
    · obtain ⟨a, s, b, hl, hins⟩ :=
        ih ((List.mem_cons.mp hp).resolve_left fun he => hy he.symm)
      refine ⟨y :: a, s, b, congrArg (y :: ·) hl, ?_⟩
      rw [insertAfter, if_neg hy, hins, List.cons_append]

/-- The node in front of the new one still points to its old successor. -/
theorem not_insertsAfter (hl : h.Represents pstList l) (hp : p ∈ l.map Prod.fst) (h0 : addr ≠ 0)
    (haddr : addr ∉ l.map Prod.fst) : ¬InsertsAfter h pstList l p addr r := by
  rintro ⟨h', pstList', hadd, hrep, -⟩
  have hp0 := hl.ne_null hp
  obtain ⟨s, hs⟩ := hl.exists_data hp
  have hload := (NodeHeap.Holds.refl h).load hs hp0
  obtain ⟨h₁, hnew, -, hh₁⟩ :=
    (NodeHeap.Holds.refl h).createNode h0 p (h.link (·.next) p) r
  have hh' : h'.link (·.next) p = h.link (·.next) p := by
    simp only [NodeHeap.addNode, hl.list, ne_eq, hp0, not_false_eq_true, if_true, hload,
      Option.bind_eq_bind, Option.bind_some, hnew, Option.some.injEq] at hadd
    subst h'
    have hnext := congrFun hh₁.next p
    rwa [Function.update_of_ne (ne_of_mem_of_not_mem hp haddr)] at hnext
  obtain ⟨a, t, b, rfl, hins⟩ := insertAfter_split (x := (addr, r)) hp
  have hold := hl.links.1
  have hnew := hrep.links.1
  rw [NodeHeap.map_fst_split] at hold
  rw [hins, NodeHeap.map_fst_split] at hnew
  have hlink : h.link (·.next) p = addr := hh'.symm.trans hnew.next_eq
  rw [hold.next_eq] at hlink
  have hmem := Linked.head_mem (hlink ▸ h0)
  rw [hlink] at hmem
  apply haddr
  rw [NodeHeap.map_fst_split]
  exact List.mem_append_right _ (List.mem_cons_of_mem p hmem)

theorem insertsAfter_null (hl : h.Represents pstList []) (h0 : addr ≠ 0) :
    InsertsAfter h pstList [] 0 addr r := by
  obtain ⟨h', hnew, hrep⟩ := hl.addFirst h0 r
  refine ⟨_, _, ?_, hrep, hrep.walk_next, hrep.walk_prev, rfl, hrep.size⟩
  simp [NodeHeap.addNode, hl.list, hnew]

/-- `addNode` inserts the request where it is asked to exactly when it is given
`NULL`, for an empty list. -/
theorem addNode_inserts (hl : h.Represents pstList l)
    (hp : p ∈ l.map Prod.fst ∨ p = 0 ∧ l = []) (h0 : addr ≠ 0) (haddr : addr ∉ l.map Prod.fst)
    (r : Request) : InsertsAfter h pstList l p addr r ↔ p = 0 := by
  rcases hp with hp | ⟨rfl, rfl⟩
  · exact iff_of_false (not_insertsAfter hl hp h0 haddr) (hl.ne_null hp)
  · exact iff_of_true (insertsAfter_null hl h0) rfl

end Insert

theorem addNode_inserts_small :
    InsertsAfter NodeHeap.createList ⟨0, 0, 0⟩ [] 0 8 ⟨0, 1, 5, 64, .read, 0⟩ :=
  (addNode_inserts NodeHeap.createList_represents (.inr ⟨rfl, rfl⟩) (by decide) List.not_mem_nil
    ⟨0, 1, 5, 64, .read, 0⟩).mpr rfl

def twoRequests : Option NodeHeap := do
  let h ← NodeHeap.createList.addNodeInFront 8 ⟨0, 1, 5, 64, .read, 0⟩
  h.addNode 8 16 ⟨1, 2, 3, 128, .write, 1⟩

/-- Of two requests that are counted, the list leads to the first one only. -/
theorem addNode_counts_unlinked :
    ¬∀ (h : NodeHeap) (pstList : StRequestList) (l : List (Ptr × Request)) (p addr : Ptr)
      (r : Request), h.Represents pstList l → (p ∈ l.map Prod.fst ∨ p = 0 ∧ l = []) → addr ≠ 0 →
        addr ∉ l.map Prod.fst → InsertsAfter h pstList l p addr r := by
  intro hall
  obtain ⟨h, pstList, hadd, hrep⟩ := NodeHeap.createList_represents.addNodeInFront
    (show (8 : Ptr) ≠ 0 by decide) List.not_mem_nil ⟨0, 1, 5, 64, .read, 0⟩
  obtain ⟨h', pstList', hadd', hrep', hwalk, -⟩ :=
    hall h pstList [(8, ⟨0, 1, 5, 64, .read, 0⟩)] 8 16 ⟨1, 2, 3, 128, .write, 1⟩ hrep
      (.inl (by decide)) (by decide) (by decide)
  have htwo : twoRequests = some h' := by
    simp only [twoRequests, hadd, Option.bind_eq_bind, Option.bind_some, hadd']
  have hseen : (twoRequests.bind fun h => h.list.bind fun pstList =>
      h.walk (·.next) 2 pstList.firstNode) = some [(8, ⟨0, 1, 5, 64, .read, 0⟩)] := by decide
  rw [htwo, Option.bind_some, hrep'.list, Option.bind_some] at hseen
  exact absurd (hseen.symm.trans hwalk) (by decide)

end PingPong
