import PingPong.Linked
import PingPong.RequestList

/-! What holds of the request list between any two assignments. The pointers
`next` lead through the nodes that no assignment of `removeNode` has passed over
yet, and the pointers `prev` through those whose successor, or `lastNode`, still
points back to them. -/

namespace PingPong

def AddPc.linked : AddPc → List Ptr
  | .setLastToFirst a | .setLast a | .incSize a => [a]
  | _ => []

def AddPc.settingLast : AddPc → Bool
  | .setLastToFirst _ | .setLast _ => true
  | _ => false

def AddPc.copiesFirst : AddPc → Bool
  | .setLastToFirst _ => true
  | _ => false

/-- The task has read `lastNode` and will link its node behind that one. -/
def AddPc.holdsLast : AddPc → Bool
  | .malloc first _ _ | .setPrev first _ _ _ | .setNext first _ _ | .setBlock first _ _ => !first
  | .linkLast _ => true
  | _ => false

/-- The client has counted its request and not yet posted `newReqsSem`. -/
def AddPc.queued : AddPc → Bool
  | .unlockQueue | .upNewReqs => true
  | _ => false

/-- The task has seen a list that is not empty. -/
def AddPc.appending : AddPc → Bool
  | .readLast _ => true
  | k => k.holdsLast

def RemovePc.forward : RemovePc → List Ptr → List Ptr
  | .onlyLast p, l | .tailLast p, l | .innerPrev p, l | .free p, l => l.erase p
  | _, l => l

def RemovePc.backward : RemovePc → List Ptr → List Ptr
  | .onlyLast p, l | .headFirst p, l | .free p, l => l.erase p
  | _, l => l

/-- The disk task has taken no node out of either path. -/
def RemovePc.reading : RemovePc → Bool
  | .onlyLast _ | .tailLast _ | .headFirst _ | .innerPrev _ | .free _ | .decSize => false
  | _ => true

def RemovePc.owing : RemovePc → Int
  | .decSize => 1
  | _ => 0

/-- `newReqsSem` is taken, and no request has been freed for it yet. -/
def RemovePc.taken : RemovePc → Bool
  | .downNewReqs | .decSize => false
  | _ => true

/-- The disk task is bound to empty the list, or its own part of that is done. -/
def RemovePc.emptying (m : RequestList) : RemovePc → Bool
  | .testPrev p => m.prev p = 0
  | .onlyFirst _ | .onlyLast _ => true
  | _ => false

def RemovePc.droppingLast : RemovePc → Bool
  | .tailNext _ | .tailLast _ => true
  | _ => false

def RemovePc.zeroingLast : RemovePc → Bool
  | .onlyLast _ => true
  | _ => false

/-- The disk task takes a branch that an append under way makes wrong. -/
def RequestList.spoilsAppend (m : RequestList) (k : AddPc) : RemovePc → Bool
  | .testNext p => m.next p = 0 && m.prev p = 0 && k.appending
  | .elseTestNext p => m.next p = 0 && k.holdsLast
  | _ => false

/-- A client takes a branch, or reads `lastNode`, in a way that the removal under
way makes wrong. -/
def RequestList.spoilsRemoval (m : RequestList) (d : RemovePc) : AddPc → Bool
  | .testFirst _ => m.firstNode ≠ 0 && d.emptying m
  | .readLast _ => d.droppingLast
  | .setLastToFirst _ => d.zeroingLast
  | _ => false

/-- The ends of the two paths agree on `q`, the `lastNode` that the task uses. -/
def Ends (m : RequestList) (d : RemovePc) (q : Ptr) : Prop :=
  (d.forward m.requests).getLast?.getD 0 = q ∧ (d.backward m.requests).getLast?.getD 0 = q

def NewNode (m : RequestList) (a : Ptr) : Prop := a ∈ m.live ∧ a ∉ m.requests

def AddPc.Ok (m : RequestList) (d : RemovePc) : AddPc → Prop
  | .readLast _ => d.forward m.requests ≠ []
  | .malloc first _ q => Ends m d q ∧ (first = true ↔ q = 0)
  | .setPrev first _ q a => Ends m d q ∧ (first = true ↔ q = 0) ∧ NewNode m a
  | .setNext first _ a => Ends m d (m.prev a) ∧ (first = true ↔ m.prev a = 0) ∧ NewNode m a
  | .setBlock first _ a =>
    Ends m d (m.prev a) ∧ (first = true ↔ m.prev a = 0) ∧ NewNode m a ∧ m.next a = 0
  | .setFirst a => Ends m d (m.prev a) ∧ m.prev a = 0 ∧ NewNode m a ∧ m.next a = 0
  | .linkLast a => Ends m d (m.prev a) ∧ m.prev a ≠ 0 ∧ NewNode m a ∧ m.next a = 0
  | .setLastToFirst a => d.forward (m.requests ++ [a]) = [a]
  | _ => True

def RemovePc.Ok (m : RequestList) (k : AddPc) : RemovePc → Prop
  | .readFirst iSize => 1 ≤ iSize ∧ iSize ≤ m.requests.length
  | .initDist iSize it => iSize ≤ m.requests.length ∧ m.requests[0]? = some it
  | .forTest iSize i it near _ =>
    iSize ≤ m.requests.length ∧ near ∈ m.requests ∧ (i < iSize → m.requests[i]? = some it)
  | .forNext iSize i it near _ =>
    iSize ≤ m.requests.length ∧ near ∈ m.requests ∧ m.requests[i]? = some it
  | .removeNode p | .testNext p | .free p => p ∈ m.requests
  | .testPrev p => p ∈ m.requests ∧ (m.prev p = 0 → m.requests = [p] ∧ k.linked = [])
  | .elseTestNext p => p ∈ m.requests ∧ (m.prev p = 0 → m.next p ≠ 0)
  | .elseTestPrev p => p ∈ m.requests ∧ m.next p ≠ 0
  | .onlyFirst p => m.requests = [p] ∧ k.linked = []
  | .onlyLast p => m.requests = [p] ∧ (k.linked = [] ∨ k.copiesFirst = true)
  | .tailNext p | .tailLast p => k.linked = [] ∧ ∃ l x, m.requests = l ++ [x, p]
  | .headPrev p | .headFirst p => p ∈ m.requests ∧ ∃ y r, m.requests ++ k.linked = p :: y :: r
  | .innerNext p => p ∈ m.requests ∧ ∃ l x y r, m.requests ++ k.linked = l ++ x :: p :: y :: r
  | .innerPrev p =>
    p ∈ m.requests ∧ ∃ l x y r, m.requests ++ k.linked = l ++ x :: p :: y :: r ∧ m.next p = y
  | _ => True

structure ListKept (m : RequestList) (k : AddPc) (d : RemovePc) : Prop where
  nodup : (m.requests ++ k.linked).Nodup
  live : ∀ x ∈ m.requests ++ k.linked, x ∈ m.live
  null : 0 ∉ m.live
  forward : Linked.Path m.next m.firstNode (d.forward (m.requests ++ k.linked)) 0
  backward : Linked.Path m.prev ((d.backward (m.requests ++ k.linked)).getLast?.getD 0)
    (d.backward (m.requests ++ k.linked)).reverse 0
  last : k.settingLast = false → d.zeroingLast = false →
    m.lastNode = (d.backward (m.requests ++ k.linked)).getLast?.getD 0
  size : m.iSize = m.requests.length + d.owing
  noAppend : d.emptying m = true → k.appending = false
  noHold : d.droppingLast = true → k.holdsLast = false
  adder : k.Ok m d
  disk : d.Ok m k

theorem absurd_of_false {b : Bool} {p : Prop} (h : b = false) (hb : b = true) : p := by
  simp [h] at hb

theorem RemovePc.forward_subset (d : RemovePc) (l : List Ptr) : d.forward l ⊆ l := by
  cases d <;> simp [RemovePc.forward, List.erase_subset]

theorem RemovePc.backward_subset (d : RemovePc) (l : List Ptr) : d.backward l ⊆ l := by
  cases d <;> simp [RemovePc.backward, List.erase_subset]

theorem RemovePc.forward_reading {d : RemovePc} (h : d.reading = true) (l : List Ptr) :
    d.forward l = l := by
  cases d with
  | onlyLast p | tailLast p | innerPrev p | free p => cases h
  | _ => rfl

theorem RemovePc.backward_reading {d : RemovePc} (h : d.reading = true) (l : List Ptr) :
    d.backward l = l := by
  cases d with
  | onlyLast p | headFirst p | free p => cases h
  | _ => rfl

theorem RemovePc.owing_reading {d : RemovePc} (h : d.reading = true) : d.owing = 0 := by
  cases d with
  | decSize => cases h
  | _ => rfl

theorem RemovePc.zeroing_reading {d : RemovePc} (h : d.reading = true) : d.zeroingLast = false := by
  cases d with
  | onlyLast p => cases h
  | _ => rfl

theorem AddPc.settingLast_of_copies {k : AddPc} (h : k.copiesFirst = true) :
    k.settingLast = true := by
  cases k with
  | setLastToFirst a => rfl
  | _ => cases h

theorem AddPc.appending_of_holds {k : AddPc} (h : k.holdsLast = true) : k.appending = true := by
  cases k with
  | readLast b => rfl
  | _ => exact h

variable {m : RequestList} {k : AddPc} {d : RemovePc}

theorem ListKept.null_mem (h : ListKept m k d) : 0 ∉ m.requests ++ k.linked :=
  fun hx => h.null (h.live 0 hx)

theorem ListKept.forward_nodup (h : ListKept m k d) :
    (d.forward (m.requests ++ k.linked)).Nodup := by
  cases d with
  | onlyLast p | tailLast p | innerPrev p | free p => exact h.nodup.erase p
  | _ => exact h.nodup

theorem ListKept.ends_agree (h : ListKept m k d) (hd : d.droppingLast = false) :
    (d.forward (m.requests ++ k.linked)).getLast? =
      (d.backward (m.requests ++ k.linked)).getLast? := by
  have hdisk := h.disk
  have hnodup := h.nodup
  cases d with
  | tailLast p => cases hd
  | headFirst p =>
    obtain ⟨_, y, r, hfull⟩ := hdisk
    rw [hfull]
    simp [RemovePc.forward, RemovePc.backward]
  | innerPrev p =>
    obtain ⟨_, l, x, y, r, hfull, _⟩ := hdisk
    rw [hfull] at hnodup ⊢
    simp only [RemovePc.forward, RemovePc.backward, Linked.erase_after hnodup]
    simp [List.getLast?_cons]
  | _ => rfl

theorem ListKept.backward_nil (h : ListKept m k d)
    (hnil : d.forward (m.requests ++ k.linked) = []) :
    d.backward (m.requests ++ k.linked) = [] := by
  have hdisk := h.disk
  have hnodup := h.nodup
  have hd : d.droppingLast = false := by
    cases d with
    | tailNext p =>
      obtain ⟨hk, l, x, hreq⟩ := hdisk
      simp [RemovePc.forward, hreq] at hnil
    | tailLast p =>
      obtain ⟨hk, l, x, hreq⟩ := hdisk
      rw [hk, List.append_nil, hreq] at hnodup hnil
      simp only [RemovePc.forward, Linked.erase_after hnodup] at hnil
      simp at hnil
    | _ => rfl
  have hends := h.ends_agree hd
  rw [hnil, List.getLast?_nil] at hends
  exact List.getLast?_eq_none_iff.mp hends.symm

theorem ListKept.not_emptying (h : ListKept m k d) (happ : k.appending = true) :
    d.emptying m = false := by
  by_contra hd
  have hk := h.noAppend (by simpa using hd)
  simp [happ] at hk

theorem ListKept.not_dropping (h : ListKept m k d) (hhold : k.holdsLast = true) :
    d.droppingLast = false := by
  by_contra hd
  have hk := h.noHold (by simpa using hd)
  simp [hhold] at hk

theorem RemovePc.not_zeroing (h : d.emptying m = false) : d.zeroingLast = false := by
  cases d with
  | onlyLast p => cases h
  | _ => rfl

end PingPong
