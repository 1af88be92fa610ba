import PingPong.Linked
import PingPong.Manager
import PingPong.Simulation

/-! The request list in memory, one call of a list function at a time. `none` is
the dereference of `NULL` or of a node that is not allocated, and a `list` that is
`none` is a `NULL` list. The address that `malloc` returns is an argument. A call
runs alone, so `queueMutex` is free whenever it is asked for. -/

namespace PingPong

open Runs

structure StRequestNode extends Request where
  prev : Ptr
  next : Ptr
  deriving DecidableEq, Repr

structure StRequestList where
  firstNode : Ptr
  lastNode : Ptr
  iSize : Int
  deriving DecidableEq, Repr

structure NodeHeap where
  list : Option StRequestList
  nodes : Ptr → Option StRequestNode

namespace NodeHeap

def load (h : NodeHeap) (p : Ptr) : Option StRequestNode := if p = 0 then none else h.nodes p

def store (h : NodeHeap) (p : Ptr) (x : Option StRequestNode) : NodeHeap :=
  { h with nodes := Function.update h.nodes p x }

def setNext (h : NodeHeap) (p q : Ptr) : Option NodeHeap :=
  (h.load p).map fun x => h.store p (some { x with next := q })

def setPrev (h : NodeHeap) (p q : Ptr) : Option NodeHeap :=
  (h.load p).map fun x => h.store p (some { x with prev := q })

def free (h : NodeHeap) (p : Ptr) : NodeHeap := h.store p none

/-- `addr` is also what `createNode` returns. -/
def createNode (h : NodeHeap) (addr pstPreviousNode pstNextNode : Ptr) (r : Request) :
    Option NodeHeap :=
  if addr = 0 then none
  else some (h.store addr (some { toRequest := r, prev := pstPreviousNode, next := pstNextNode }))

def createList : NodeHeap where
  list := some { firstNode := 0, lastNode := 0, iSize := 0 }
  nodes _ := none

def addNodeInFront (h : NodeHeap) (addr : Ptr) (r : Request) : Option NodeHeap :=
  match h.list with
  | none => some h
  | some pstList =>
    if pstList.firstNode = 0 then do
      let h ← h.createNode addr 0 0 r
      some { h with list := some ⟨addr, addr, pstList.iSize + 1⟩ }
    else do
      let h ← h.createNode addr pstList.lastNode 0 r
      let h ← h.setNext pstList.lastNode addr
      some { h with list := some ⟨pstList.firstNode, addr, pstList.iSize + 1⟩ }

def addNodeInBack (h : NodeHeap) (addr : Ptr) (r : Request) : Option NodeHeap :=
  match h.list with
  | none => some h
  | some pstList =>
    if pstList.firstNode = 0 then do
      let h ← h.createNode addr 0 0 r
      some { h with list := some ⟨addr, addr, pstList.iSize + 1⟩ }
    else do
      let h ← h.createNode addr 0 pstList.firstNode r
      let h ← h.setPrev pstList.firstNode addr
      some { h with list := some ⟨addr, pstList.lastNode, pstList.iSize + 1⟩ }

/-- The four branches of `removeNode`; they leave the ends of the list to be
stored. -/
def unlink (h : NodeHeap) (pstList : StRequestList) (pstNode : StRequestNode) :
    Option (NodeHeap × Ptr × Ptr) :=
  if pstNode.next = 0 ∧ pstNode.prev = 0 then some (h, 0, 0)
  else if pstNode.next = 0 then do
    let h ← h.setNext pstNode.prev 0
    some (h, pstList.firstNode, pstNode.prev)
  else if pstNode.prev = 0 then do
    let h ← h.setPrev pstNode.next 0
    some (h, pstNode.next, pstList.lastNode)
  else do
    let h ← h.setNext pstNode.prev pstNode.next
    let h ← h.setPrev pstNode.next pstNode.prev
    some (h, pstList.firstNode, pstList.lastNode)

def removeNode (h : NodeHeap) (pstNode : Ptr) : Option NodeHeap :=
  match h.list with
  | none => some h
  | some pstList =>
    if pstNode = 0 then some h
    else do
      let x ← h.load pstNode
      let (h, firstNode, lastNode) ← h.unlink pstList x
      some { h.free pstNode with list := some ⟨firstNode, lastNode, pstList.iSize - 1⟩ }

def isEmpty (h : NodeHeap) : Bool :=
  match h.list with
  | none => true
  | some pstList => pstList.firstNode = 0

/-- The nodes met from `p` on along one of the two pointers, when `NULL` comes
after at most `fuel` of them. -/
def walk (h : NodeHeap) (ptr : StRequestNode → Ptr) : Nat → Ptr → Option (List (Ptr × Request))
  | fuel, p =>
    if p = 0 then some []
    else
      match fuel with
      | 0 => none
      | fuel + 1 => do
        let x ← h.load p
        let l ← h.walk ptr fuel (ptr x)
        some ((p, x.toRequest) :: l)

end NodeHeap

inductive ListOp
  | addNodeInFront (addr : Ptr) (r : Request)
  | addNodeInBack (addr : Ptr) (r : Request)
  | removeNode (pstNode : Ptr)
  deriving DecidableEq, Repr

def listOpStep (h : NodeHeap) : ListOp → Option NodeHeap
  | .addNodeInFront addr r => h.addNodeInFront addr r
  | .addNodeInBack addr r => h.addNodeInBack addr r
  | .removeNode pstNode => h.removeNode pstNode

/-- The same operations on a plain sequence. `malloc` returns an address that is
not `NULL` and not in use, and only a node of the list is removed. -/
def seqStep (l : List (Ptr × Request)) : ListOp → Option (List (Ptr × Request))
  | .addNodeInFront addr r =>
    if addr = 0 ∨ addr ∈ l.map Prod.fst then none else some (l ++ [(addr, r)])
  | .addNodeInBack addr r =>
    if addr = 0 ∨ addr ∈ l.map Prod.fst then none else some ((addr, r) :: l)
  | .removeNode pstNode =>
    if pstNode ∈ l.map Prod.fst then some (l.eraseP fun x => x.1 = pstNode) else none

namespace NodeHeap

def link (h : NodeHeap) (ptr : StRequestNode → Ptr) (p : Ptr) : Ptr := ((h.nodes p).map ptr).getD 0

def data (h : NodeHeap) (p : Ptr) : Option Request := (h.nodes p).map (·.toRequest)

/-- The nodes as three memories, one for each pointer and one for the request. -/
structure Holds (h : NodeHeap) (next prev : Ptr → Ptr) (data : Ptr → Option Request) : Prop where
  next : h.link (·.next) = next
  prev : h.link (·.prev) = prev
  data : h.data = data

structure Represents (h : NodeHeap) (pstList : StRequestList) (l : List (Ptr × Request)) :
    Prop where
  list : h.list = some pstList
  size : pstList.iSize = l.length
  links : Linked.Doubly (h.link (·.next)) (h.link (·.prev)) 0 pstList.firstNode pstList.lastNode
    (l.map Prod.fst)
  data : ∀ p r, h.data p = some r ↔ (p, r) ∈ l
  nodup : (l.map Prod.fst).Nodup
  null : 0 ∉ l.map Prod.fst

variable {h : NodeHeap} {pstList : StRequestList} {l : List (Ptr × Request)}
  {next prev : Ptr → Ptr} {data : Ptr → Option Request} {p q addr : Ptr} {r : Request}

theorem Holds.store (hh : Holds h next prev data) (p : Ptr) (x : Option StRequestNode) :
    Holds (h.store p x) (Function.update next p ((x.map (·.next)).getD 0))
      (Function.update prev p ((x.map (·.prev)).getD 0))
      (Function.update data p (x.map (·.toRequest))) := by
  obtain ⟨rfl, rfl, rfl⟩ := hh
  have hlink (ptr : StRequestNode → Ptr) : (h.store p x).link ptr =
      Function.update (h.link ptr) p ((x.map ptr).getD 0) := by
    funext q
    by_cases hq : q = p
    · subst q
      simp [NodeHeap.store, link]
    · simp [NodeHeap.store, link, Function.update_of_ne hq]
  exact ⟨hlink _, hlink _, Function.comp_update _ h.nodes p x⟩

theorem Holds.load (hh : Holds h next prev data) (hp : data p = some r) (h0 : p ≠ 0) :
    h.load p = some { toRequest := r, prev := prev p, next := next p } := by
  obtain ⟨rfl, rfl, rfl⟩ := hh
  obtain ⟨x, hx, rfl⟩ := Option.map_eq_some_iff.mp hp
  simp [NodeHeap.load, link, h0, hx]

theorem Holds.createNode (hh : Holds h next prev data) (h0 : addr ≠ 0) (p q : Ptr) (r : Request) :
    ∃ h', h.createNode addr p q r = some h' ∧ h'.list = h.list ∧
      Holds h' (Function.update next addr q) (Function.update prev addr p)
        (Function.update data addr (some r)) :=
  ⟨_, if_neg h0, rfl, hh.store addr _⟩

theorem Holds.rewrite (hh : Holds h next prev data) (hp : data p = some r) (h0 : p ≠ 0)
    (f : StRequestNode → StRequestNode)
    (hf : (f { toRequest := r, prev := prev p, next := next p }).toRequest = r) :
    ∃ h', (h.load p).map (fun x => h.store p (some (f x))) = some h' ∧ h'.list = h.list ∧
      Holds h' (Function.update next p (f { toRequest := r, prev := prev p, next := next p }).next)
        (Function.update prev p (f { toRequest := r, prev := prev p, next := next p }).prev)
        data := by
  have hstore := hh.store p (some (f { toRequest := r, prev := prev p, next := next p }))
  simp only [Option.map_some, Option.getD_some, hf, ← hp, Function.update_eq_self] at hstore
  have hload : (h.load p).map (fun x => h.store p (some (f x))) =
      some (h.store p (some (f { toRequest := r, prev := prev p, next := next p }))) := by
    rw [hh.load hp h0, Option.map_some]
  exact ⟨_, hload, rfl, hstore⟩

theorem Holds.setNext (hh : Holds h next prev data) (hp : data p = some r) (h0 : p ≠ 0) (q : Ptr) :
    ∃ h', h.setNext p q = some h' ∧ h'.list = h.list ∧
      Holds h' (Function.update next p q) prev data := by
  obtain ⟨h', hset, hlist, hh'⟩ := hh.rewrite hp h0 (fun x => { x with next := q }) rfl
  simp only [Function.update_eq_self] at hh'
  exact ⟨h', hset, hlist, hh'⟩

theorem Holds.setPrev (hh : Holds h next prev data) (hp : data p = some r) (h0 : p ≠ 0) (q : Ptr) :
    ∃ h', h.setPrev p q = some h' ∧ h'.list = h.list ∧
      Holds h' next (Function.update prev p q) data := by
  obtain ⟨h', hset, hlist, hh'⟩ := hh.rewrite hp h0 (fun x => { x with prev := q }) rfl
  simp only [Function.update_eq_self] at hh'
  exact ⟨h', hset, hlist, hh'⟩

theorem Holds.free (hh : Holds h next prev data) (p : Ptr) :
    Holds (h.free p) (Function.update next p 0) (Function.update prev p 0)
      (Function.update data p none) :=
  hh.store p none

theorem Holds.refl (h : NodeHeap) : Holds h (h.link (·.next)) (h.link (·.prev)) h.data :=
  ⟨rfl, rfl, rfl⟩

theorem Holds.represents (hh : Holds h next prev data) (hsize : pstList.iSize = l.length)
    (hlinks : Linked.Doubly next prev 0 pstList.firstNode pstList.lastNode (l.map Prod.fst))
    (hdata : ∀ p r, data p = some r ↔ (p, r) ∈ l) (hnodup : (l.map Prod.fst).Nodup)
    (hnull : 0 ∉ l.map Prod.fst) :
    Represents { h with list := some pstList } pstList l := by
  obtain ⟨rfl, rfl, rfl⟩ := hh
  exact ⟨rfl, hsize, hlinks, hdata, hnodup, hnull⟩

theorem Represents.firstNode_eq (hl : Represents h pstList l) : pstList.firstNode = 0 ↔ l = [] := by
  rw [hl.links.1.start, Linked.head_eq_end hl.null, List.map_eq_nil_iff]

theorem Represents.lastNode_eq (hl : Represents h pstList l) : pstList.lastNode = 0 ↔ l = [] := by
  rw [hl.links.last_eq, Linked.last_eq_end hl.null, List.map_eq_nil_iff]

theorem Represents.firstNode_mem (hl : Represents h pstList l) (hne : l ≠ []) :
    pstList.firstNode ∈ l.map Prod.fst := by
  have hfirst := mt hl.firstNode_eq.mp hne
  rw [hl.links.1.start] at hfirst ⊢
  exact Linked.head_mem hfirst

theorem Represents.lastNode_mem (hl : Represents h pstList l) (hne : l ≠ []) :
    pstList.lastNode ∈ l.map Prod.fst := by
  have hlast := mt hl.lastNode_eq.mp hne
  rw [hl.links.last_eq] at hlast ⊢
  exact Linked.last_mem hlast

theorem Represents.exists_data (hl : Represents h pstList l) (hp : p ∈ l.map Prod.fst) :
    ∃ r, h.data p = some r := by
  obtain ⟨x, hx, rfl⟩ := List.mem_map.mp hp
  exact ⟨x.2, (hl.data x.1 x.2).mpr hx⟩

theorem Represents.ne_null (hl : Represents h pstList l) (hp : p ∈ l.map Prod.fst) : p ≠ 0 :=
  fun h0 => hl.null (h0 ▸ hp)

theorem Represents.data_insert (hl : Represents h pstList l) (haddr : addr ∉ l.map Prod.fst)
    (r : Request) (p : Ptr) (s : Request) :
    Function.update h.data addr (some r) p = some s ↔ (p, s) = (addr, r) ∨ (p, s) ∈ l := by
  by_cases hp : p = addr
  · subst p
    have hnot : (addr, s) ∉ l := fun hmem => haddr (List.mem_map_of_mem hmem)
    simp [hnot, eq_comm]
  · simp [hp, hl.data]

theorem createList_represents : Represents createList ⟨0, 0, 0⟩ [] := by
  refine ⟨rfl, rfl, ⟨rfl, rfl⟩, ?_, List.nodup_nil, List.not_mem_nil⟩
  simp [createList, NodeHeap.data]

theorem Represents.addFirst (hl : Represents h pstList []) (h0 : addr ≠ 0) (r : Request) :
    ∃ h', h.createNode addr 0 0 r = some h' ∧
      Represents { h' with list := some ⟨addr, addr, pstList.iSize + 1⟩ }
        ⟨addr, addr, pstList.iSize + 1⟩ [(addr, r)] := by
  obtain ⟨h', hnew, -, hh⟩ := (Holds.refl h).createNode h0 0 0 r
  refine ⟨h', hnew, hh.represents ?_ (Linked.Doubly.single _ _ 0 addr) ?_ ?_ ?_⟩
  · simp [hl.size]
  · intro p s
    simpa using hl.data_insert List.not_mem_nil r p s
  · exact List.nodup_singleton addr
  · simpa using h0.symm

/-- `addNodeInFront` puts the request at the end. -/
theorem Represents.addNodeInFront (hl : Represents h pstList l) (h0 : addr ≠ 0)
    (haddr : addr ∉ l.map Prod.fst) (r : Request) :
    ∃ h' pstList', h.addNodeInFront addr r = some h' ∧
      Represents h' pstList' (l ++ [(addr, r)]) := by
  by_cases hfirst : pstList.firstNode = 0
  · obtain rfl := hl.firstNode_eq.mp hfirst
    obtain ⟨h', hnew, hrep⟩ := hl.addFirst h0 r
    refine ⟨_, _, ?_, hrep⟩
    simp [NodeHeap.addNodeInFront, hl.list, hfirst, hnew]
  · have hmem := hl.lastNode_mem (mt hl.firstNode_eq.mpr hfirst)
    have hlast := hl.ne_null hmem
    obtain ⟨s, hs⟩ := hl.exists_data hmem
    have hs₁ : Function.update h.data addr (some r) pstList.lastNode = some s := by
      rw [Function.update_of_ne (ne_of_mem_of_not_mem hmem haddr), hs]
    obtain ⟨h₁, hnew, -, hh₁⟩ := (Holds.refl h).createNode h0 pstList.lastNode 0 r
    obtain ⟨h₂, hset, -, hh₂⟩ := hh₁.setNext hs₁ hlast addr
    refine ⟨_, ⟨pstList.firstNode, addr, pstList.iSize + 1⟩, ?_, hh₂.represents ?_ ?_ ?_ ?_ ?_⟩
    · simp [NodeHeap.addNodeInFront, hl.list, hfirst, hnew, hset]
    · simp [hl.size]
    · simpa using hl.links.concat haddr hl.nodup hlast
    · intro p s
      rw [hl.data_insert haddr, List.mem_append, List.mem_singleton, or_comm]
    · simpa using hl.nodup.concat haddr
    · simpa [h0.symm] using hl.null

/-- `addNodeInBack` puts the request at the beginning. -/
theorem Represents.addNodeInBack (hl : Represents h pstList l) (h0 : addr ≠ 0)
    (haddr : addr ∉ l.map Prod.fst) (r : Request) :
    ∃ h' pstList', h.addNodeInBack addr r = some h' ∧
      Represents h' pstList' ((addr, r) :: l) := by
  by_cases hfirst : pstList.firstNode = 0
  · obtain rfl := hl.firstNode_eq.mp hfirst
    obtain ⟨h', hnew, hrep⟩ := hl.addFirst h0 r
    refine ⟨_, _, ?_, hrep⟩
    simp [NodeHeap.addNodeInBack, hl.list, hfirst, hnew]
  · have hmem := hl.firstNode_mem (mt hl.firstNode_eq.mpr hfirst)
    obtain ⟨s, hs⟩ := hl.exists_data hmem
    have hs₁ : Function.update h.data addr (some r) pstList.firstNode = some s := by
      rw [Function.update_of_ne (ne_of_mem_of_not_mem hmem haddr), hs]
    obtain ⟨h₁, hnew, -, hh₁⟩ := (Holds.refl h).createNode h0 0 pstList.firstNode r
    obtain ⟨h₂, hset, -, hh₂⟩ := hh₁.setPrev hs₁ hfirst addr
    refine ⟨_, ⟨addr, pstList.lastNode, pstList.iSize + 1⟩, ?_, hh₂.represents ?_ ?_ ?_ ?_ ?_⟩
    · simp [NodeHeap.addNodeInBack, hl.list, hfirst, hnew, hset]
    · simp [hl.size]
    · have hlinks := hl.links.symm.concat (mt List.mem_reverse.mp haddr)
        (List.nodup_reverse.mpr hl.nodup) hfirst
      simpa using hlinks.symm
    · intro p s
      rw [hl.data_insert haddr, List.mem_cons]
    · exact List.nodup_cons.mpr ⟨haddr, hl.nodup⟩
    · simpa [h0.symm] using hl.null

theorem Holds.unlink (hh : Holds h next prev data) (pstList : StRequestList) (r : Request)
    (hnext : next p ≠ 0 → ∃ s, data (next p) = some s)
    (hprev : prev p ≠ 0 → ∃ s, data (prev p) = some s) :
    ∃ h', h.unlink pstList { toRequest := r, prev := prev p, next := next p } =
        some (h', if prev p = 0 then next p else pstList.firstNode,
          if next p = 0 then prev p else pstList.lastNode) ∧
      Holds h' (if prev p = 0 then next else Function.update next (prev p) (next p))
        (if next p = 0 then prev else Function.update prev (next p) (prev p)) data := by
  by_cases hn : next p = 0
  · by_cases hp : prev p = 0
    · refine ⟨h, ?_, ?_⟩
      · simp [NodeHeap.unlink, hn, hp]
      · simpa [hn, hp] using hh
    · obtain ⟨s, hs⟩ := hprev hp
      obtain ⟨h', hset, -, hh'⟩ := hh.setNext hs hp 0
      refine ⟨h', ?_, ?_⟩
      · simp [NodeHeap.unlink, hn, hp, hset]
      · simpa [hn, hp] using hh'
  · obtain ⟨s, hs⟩ := hnext hn
    by_cases hp : prev p = 0
    · obtain ⟨h', hset, -, hh'⟩ := hh.setPrev hs hn 0
      refine ⟨h', ?_, ?_⟩
      · simp [NodeHeap.unlink, hn, hp, hset]
      · simpa [hn, hp] using hh'
    · obtain ⟨t, ht⟩ := hprev hp
      obtain ⟨h₁, hset₁, -, hh₁⟩ := hh.setNext ht hp (next p)
      obtain ⟨h₂, hset₂, -, hh₂⟩ := hh₁.setPrev hs hn (prev p)
      refine ⟨h₂, ?_, ?_⟩
      · simp [NodeHeap.unlink, hn, hp, hset₁, hset₂]
      · simpa [hn, hp] using hh₂

theorem map_fst_split (l m : List (Ptr × Request)) (p : Ptr) (r : Request) :
    (l ++ (p, r) :: m).map Prod.fst = l.map Prod.fst ++ p :: m.map Prod.fst := by
  simp

theorem Represents.removed_nodup {l m : List (Ptr × Request)}
    (hl : Represents h pstList (l ++ (p, r) :: m)) :
    p ∉ (l ++ m).map Prod.fst ∧ ((l ++ m).map Prod.fst).Nodup := by
  have hnodup := hl.nodup
  rw [map_fst_split, List.nodup_middle, List.nodup_cons, ← List.map_append] at hnodup
  exact hnodup

theorem Represents.data_erase {l m : List (Ptr × Request)}
    (hl : Represents h pstList (l ++ (p, r) :: m)) (q : Ptr) (s : Request) :
    Function.update h.data p none q = some s ↔ (q, s) ∈ l ++ m := by
  by_cases hq : q = p
  · subst q
    have hnot : (p, s) ∉ l ++ m := fun hmem => hl.removed_nodup.1 (List.mem_map_of_mem hmem)
    simp [hnot]
  · rw [Function.update_of_ne hq, hl.data]
    simp [hq]

theorem Represents.eraseP_eq {l m : List (Ptr × Request)}
    (hl : Represents h pstList (l ++ (p, r) :: m)) :
    (l ++ (p, r) :: m).eraseP (fun x => x.1 = p) = l ++ m := by
  have hbefore : ∀ x ∈ l, ¬decide (x.1 = p) = true := by
    intro x hx hxp
    have hmem : x.1 ∈ (l ++ m).map Prod.fst := List.mem_map_of_mem (List.mem_append_left m hx)
    exact hl.removed_nodup.1 (of_decide_eq_true hxp ▸ hmem)
  rw [List.eraseP_append_right _ hbefore, List.eraseP_cons_of_pos (by simp)]

theorem Represents.neighbours {l m : List (Ptr × Request)}
    (hl : Represents h pstList (l ++ (p, r) :: m)) :
    (h.link (·.next) p ≠ 0 → ∃ s, h.data (h.link (·.next) p) = some s) ∧
      (h.link (·.prev) p ≠ 0 → ∃ s, h.data (h.link (·.prev) p) = some s) := by
  have hlinks := hl.links
  have hkeys := map_fst_split l m p r
  rw [hkeys] at hlinks
  constructor
  · intro hne
    rw [hlinks.1.next_eq] at hne ⊢
    apply hl.exists_data
    rw [hkeys]
    exact List.mem_append_right _ (List.mem_cons_of_mem p (Linked.head_mem hne))
  · intro hne
    rw [hlinks.prev_eq] at hne ⊢
    apply hl.exists_data
    rw [hkeys]
    exact List.mem_append_left _ (Linked.last_mem hne)

theorem Represents.removeNode {l m : List (Ptr × Request)}
    (hl : Represents h pstList (l ++ (p, r) :: m)) :
    ∃ h' pstList', h.removeNode p = some h' ∧ Represents h' pstList' (l ++ m) := by
  have hmem : (p, r) ∈ l ++ (p, r) :: m := List.mem_append_right l List.mem_cons_self
  have hp : p ≠ 0 := hl.ne_null (List.mem_map_of_mem hmem)
  have hload := (Holds.refl h).load ((hl.data p r).mpr hmem) hp
  obtain ⟨hnext, hprev⟩ := hl.neighbours
  obtain ⟨h', hunlink, hh'⟩ := (Holds.refl h).unlink pstList r hnext hprev
  obtain ⟨hfresh, hrest⟩ := hl.removed_nodup
  have hnodup := hl.nodup
  have hlinks := hl.links
  have hnull := hl.null
  rw [map_fst_split] at hnodup hlinks hnull
  have hout := hlinks.unlink hnodup hnull
  rw [← List.map_append] at hout
  refine ⟨_, ⟨if h.link (·.prev) p = 0 then h.link (·.next) p else pstList.firstNode,
    if h.link (·.next) p = 0 then h.link (·.prev) p else pstList.lastNode, pstList.iSize - 1⟩, ?_,
    (hh'.free p).represents ?_ (hout.update hfresh) hl.data_erase hrest ?_⟩
  · simp [NodeHeap.removeNode, hl.list, hp, hload, hunlink]
  · have hsize := hl.size
    simp only [List.length_append, List.length_cons] at hsize ⊢
    omega
  · simp only [List.map_append, List.mem_append, List.mem_cons, not_or] at hnull ⊢
    exact ⟨hnull.1, hnull.2.2⟩

theorem Represents.isEmpty (hl : Represents h pstList l) : h.isEmpty = true ↔ l = [] := by
  simp [NodeHeap.isEmpty, hl.list, hl.firstNode_eq]

theorem load_link {x : StRequestNode} (hx : h.load p = some x) (ptr : StRequestNode → Ptr) :
    p ≠ 0 ∧ h.link ptr p = ptr x := by
  unfold NodeHeap.load at hx
  split_ifs at hx with h0
  exact ⟨h0, by simp [link, hx]⟩

theorem Represents.prev_first (hl : Represents h pstList l) :
    ∀ x ∈ h.load pstList.firstNode, x.prev = 0 := by
  intro x hx
  obtain ⟨h0, hlink⟩ := load_link hx (·.prev)
  rw [← hlink]
  apply hl.links.prev_first
  rw [ne_eq, List.map_eq_nil_iff]
  exact mt hl.firstNode_eq.mpr h0

theorem Represents.next_last (hl : Represents h pstList l) :
    ∀ x ∈ h.load pstList.lastNode, x.next = 0 := by
  intro x hx
  obtain ⟨h0, hlink⟩ := load_link hx (·.next)
  rw [← hlink]
  apply hl.links.symm.prev_first
  rw [ne_eq, List.reverse_eq_nil_iff, List.map_eq_nil_iff]
  exact mt hl.lastNode_eq.mpr h0

theorem walk_of_path {ptr : StRequestNode → Ptr}
    (hpath : Linked.Path (h.link ptr) p (l.map Prod.fst) 0)
    (hdata : ∀ x ∈ l, h.data x.1 = some x.2) (hnull : 0 ∉ l.map Prod.fst) :
    h.walk ptr l.length p = some l := by
  induction l generalizing p with
  | nil =>
    obtain rfl : p = 0 := hpath
    simp [walk]
  | cons x l ih =>
    obtain ⟨rfl, hrest⟩ := hpath
    obtain ⟨node, hnode, hx⟩ := Option.map_eq_some_iff.mp (hdata x List.mem_cons_self)
    have hx0 : x.1 ≠ 0 := fun h0 => hnull (h0 ▸ List.mem_cons_self)
    have hwalk := ih hrest (fun y hy => hdata y (List.mem_cons_of_mem x hy))
      fun h0 => hnull (List.mem_cons_of_mem x.1 h0)
    have hlink : h.link ptr x.1 = ptr node := by simp [link, hnode]
    rw [hlink] at hwalk
    simp [walk, hx0, NodeHeap.load, hnode, hwalk, hx]

theorem Represents.walk_next (hl : Represents h pstList l) :
    h.walk (·.next) l.length pstList.firstNode = some l :=
  walk_of_path hl.links.1 (fun x hx => (hl.data x.1 x.2).mpr hx) hl.null

theorem Represents.walk_prev (hl : Represents h pstList l) :
    h.walk (·.prev) l.length pstList.lastNode = some l.reverse := by
  rw [← List.length_reverse]
  apply walk_of_path
  · rw [List.map_reverse]
    exact hl.links.2
  · intro x hx
    exact (hl.data x.1 x.2).mpr (List.mem_reverse.mp hx)
  · rw [List.map_reverse, List.mem_reverse]
    exact hl.null

end NodeHeap

theorem listOpStep_refines {h : NodeHeap} {l l' : List (Ptr × Request)} {op : ListOp}
    (hl : ∃ pstList, h.Represents pstList l) (hstep : seqStep l op = some l') :
    ∃ h', listOpStep h op = some h' ∧ ∃ pstList, h'.Represents pstList l' := by
  obtain ⟨pstList, hl⟩ := hl
  cases op with
  | addNodeInFront addr r =>
    simp only [seqStep] at hstep
    split_ifs at hstep with hfresh
    cases hstep
    push Not at hfresh
    obtain ⟨h', pstList', hadd, hrep⟩ := hl.addNodeInFront hfresh.1 hfresh.2 r
    exact ⟨h', hadd, pstList', hrep⟩
  | addNodeInBack addr r =>
    simp only [seqStep] at hstep
    split_ifs at hstep with hfresh
    cases hstep
    push Not at hfresh
    obtain ⟨h', pstList', hadd, hrep⟩ := hl.addNodeInBack hfresh.1 hfresh.2 r
    exact ⟨h', hadd, pstList', hrep⟩
  | removeNode p =>
    simp only [seqStep] at hstep
    split_ifs at hstep with hp
    cases hstep
    obtain ⟨⟨p, r⟩, hmem, rfl⟩ := List.mem_map.mp hp
    obtain ⟨a, b, rfl⟩ := List.append_of_mem hmem
    obtain ⟨h', pstList', hremove, hrep⟩ := hl.removeNode
    refine ⟨h', hremove, pstList', ?_⟩
    rw [hl.eraseP_eq]
    exact hrep

theorem run_represents {ops : List ListOp} {l : List (Ptr × Request)}
    (hrun : run seqStep [] ops = some l) :
    ∃ h, run listOpStep NodeHeap.createList ops = some h ∧ ∃ pstList, h.Represents pstList l := by
  have hstart : ∃ pstList, NodeHeap.createList.Represents pstList [] :=
    ⟨_, NodeHeap.createList_represents⟩
  have hstep (l : List (Ptr × Request)) (op : ListOp) (l' : List (Ptr × Request)) (h : NodeHeap)
      (hl : ∃ pstList, h.Represents pstList l) (hstep : seqStep l op = some l') :
      ∃ h', listOpStep h op = some h' ∧ ∃ pstList, h'.Represents pstList l' :=
    listOpStep_refines hl hstep
  exact run_matched hstep hstart hrun

def smallOps : List ListOp :=
  [.addNodeInFront 8 ⟨0, 1, 5, 64, .read, 0⟩, .addNodeInBack 16 ⟨1, 2, 3, 128, .write, 1⟩,
    .addNodeInFront 24 ⟨2, 3, 7, 192, .read, 2⟩, .removeNode 8]

end PingPong
