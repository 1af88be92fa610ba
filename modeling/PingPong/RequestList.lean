import PingPong.Device
import PingPong.Policies
import PingPong.Runs

/-! The request list one assignment at a time: a tick may preempt a task between
any two of the steps. `addStep` is a statement of `addNodeInFront` and of the
`createNode` it calls, for a task that holds `queueMutex`; `removeStep` is one of
`diskScheduler` up to the end of `removeNode`, with `sstfSched` inlined. `none` is
the dereference of `NULL`. A removed node keeps its fields until `malloc` returns
its address again. The list of requests is a ghost: a request enters it with
`iSize++` and leaves it with `free`. -/

namespace PingPong

structure RequestList where
  next : Ptr → Ptr
  prev : Ptr → Ptr
  block : Ptr → Int
  firstNode : Ptr
  lastNode : Ptr
  iSize : Int
  live : List Ptr
  requests : List Ptr

def createList : RequestList :=
  ⟨fun _ => 0, fun _ => 0, fun _ => 0, 0, 0, 0, [], []⟩

/-- `first` tells which of the two calls of `createNode` is under way, the one
for an empty list or the other. -/
inductive AddPc
  | outside
  | lockQueue (block : Int)
  | testFirst (block : Int)
  | readLast (block : Int)
  | malloc (first : Bool) (block : Int) (pstPreviousNode : Ptr)
  | setPrev (first : Bool) (block : Int) (pstPreviousNode pstNewNode : Ptr)
  | setNext (first : Bool) (block : Int) (pstNewNode : Ptr)
  | setBlock (first : Bool) (block : Int) (pstNewNode : Ptr)
  | setFirst (pstNewNode : Ptr)
  | setLastToFirst (pstNewNode : Ptr)
  | linkLast (pstNewNode : Ptr)
  | setLast (pstNewNode : Ptr)
  | incSize (pstNewNode : Ptr)
  | unlockQueue
  | upNewReqs
  deriving DecidableEq, Repr

/-- The numbers of `forTest` and `forNext` are `iSize`, `i`, `pstIter`,
`pstNearestReq` and `shortest`. -/
inductive RemovePc
  | downNewReqs
  | checkEmpty
  | readSize
  | readFirst (iSize : Int)
  | initDist (iSize : Int) (pstIter : Ptr)
  | forTest (iSize : Int) (i : Nat) (pstIter pstNearestReq : Ptr) (shortest : Int)
  | forNext (iSize : Int) (i : Nat) (pstIter pstNearestReq : Ptr) (shortest : Int)
  | removeNode (pstNode : Ptr)
  | testNext (pstNode : Ptr)
  | testPrev (pstNode : Ptr)
  | elseTestNext (pstNode : Ptr)
  | elseTestPrev (pstNode : Ptr)
  | onlyFirst (pstNode : Ptr)
  | onlyLast (pstNode : Ptr)
  | tailNext (pstNode : Ptr)
  | tailLast (pstNode : Ptr)
  | headPrev (pstNode : Ptr)
  | headFirst (pstNode : Ptr)
  | innerNext (pstNode : Ptr)
  | innerPrev (pstNode : Ptr)
  | free (pstNode : Ptr)
  | decSize
  deriving DecidableEq, Repr

def AddPc.inside : AddPc → Bool
  | .outside | .lockQueue _ | .upNewReqs => false
  | _ => true

def AddPc.allocates : AddPc → Bool
  | .malloc _ _ _ => true
  | _ => false

def addStep (m : RequestList) (addr : Ptr) : AddPc → Option (RequestList × AddPc)
  | .testFirst b => some (m, if m.firstNode = 0 then .malloc true b 0 else .readLast b)
  | .readLast b => some (m, .malloc false b m.lastNode)
  | .malloc first b q => some ({ m with live := addr :: m.live }, .setPrev first b q addr)
  | .setPrev first b q a =>
    some ({ m with prev := Function.update m.prev a q }, .setNext first b a)
  | .setNext first b a =>
    some ({ m with next := Function.update m.next a 0 }, .setBlock first b a)
  | .setBlock first b a =>
    some ({ m with block := Function.update m.block a b },
      if first then .setFirst a else .linkLast a)
  | .setFirst a => some ({ m with firstNode := a }, .setLastToFirst a)
  | .setLastToFirst a => some ({ m with lastNode := m.firstNode }, .incSize a)
  | .linkLast a =>
    if m.lastNode = 0 then none
    else some ({ m with next := Function.update m.next m.lastNode a }, .setLast a)
  | .setLast a => some ({ m with lastNode := a }, .incSize a)
  | .incSize a =>
    some ({ m with iSize := m.iSize + 1, requests := m.requests ++ [a] }, .unlockQueue)
  | pc => some (m, pc)

def removeStep (ia : IntArith) (headBlock : Int) (m : RequestList) :
    RemovePc → Option (RequestList × RemovePc)
  | .downNewReqs => some (m, .checkEmpty)
  | .checkEmpty => some (m, if m.firstNode = 0 then .downNewReqs else .readSize)
  | .readSize => some (m, .readFirst m.iSize)
  | .readFirst iSize => some (m, .initDist iSize m.firstNode)
  | .initDist iSize it =>
    if it = 0 then none
    else some (m, .forTest iSize 0 it it (seekDist ia m.block headBlock it))
  | .forTest iSize i it near shortest =>
    if i < iSize ∧ it ≠ 0 then
      if seekDist ia m.block headBlock it < shortest then
        some (m, .forNext iSize i it it (seekDist ia m.block headBlock it))
      else some (m, .forNext iSize i it near shortest)
    else some (m, .removeNode near)
  | .forNext iSize i it near shortest => some (m, .forTest iSize (i + 1) (m.next it) near shortest)
  | .removeNode p => some (m, if p = 0 then .downNewReqs else .testNext p)
  | .testNext p => some (m, if m.next p = 0 then .testPrev p else .elseTestNext p)
  | .testPrev p => some (m, if m.prev p = 0 then .onlyFirst p else .elseTestNext p)
  | .elseTestNext p => some (m, if m.next p = 0 then .tailNext p else .elseTestPrev p)
  | .elseTestPrev p => some (m, if m.prev p = 0 then .headPrev p else .innerNext p)
  | .onlyFirst p => some ({ m with firstNode := 0 }, .onlyLast p)
  | .onlyLast p => some ({ m with lastNode := 0 }, .free p)
  | .tailNext p =>
    if m.prev p = 0 then none
    else some ({ m with next := Function.update m.next (m.prev p) 0 }, .tailLast p)
  | .tailLast p => some ({ m with lastNode := m.prev p }, .free p)
  | .headPrev p =>
    if m.next p = 0 then none
    else some ({ m with prev := Function.update m.prev (m.next p) 0 }, .headFirst p)
  | .headFirst p => some ({ m with firstNode := m.next p }, .free p)
  | .innerNext p =>
    if m.prev p = 0 then none
    else some ({ m with next := Function.update m.next (m.prev p) (m.next p) }, .innerPrev p)
  | .innerPrev p =>
    if m.next p = 0 then none
    else some ({ m with prev := Function.update m.prev (m.next p) (m.prev p) }, .free p)
  | .free p =>
    some ({ m with live := m.live.erase p, requests := m.requests.erase p }, .decSize)
  | .decSize => some ({ m with iSize := m.iSize - 1 }, .downNewReqs)

/-- `iCurrBlock` may change whenever the disk task is outside the list code. -/
structure ListState (n : Nat) where
  list : RequestList
  queueMutex : Option (Fin n)
  clients : Fin n → AddPc
  disk : RemovePc
  newReqsSem : Nat
  iCurrBlock : Int
  crashed : Bool

inductive ListAction (n : Nat)
  | call (c : Fin n) (block : Int)
  | client (c : Fin n) (addr : Ptr)
  | disk
  | seek (block : Int)
  deriving DecidableEq, Repr

variable {n : Nat}

def ListState.start (n : Nat) : ListState n where
  list := createList
  queueMutex := none
  clients _ := .outside
  disk := .downNewReqs
  newReqsSem := 0
  iCurrBlock := 0
  crashed := false

def ListState.setClient (s : ListState n) (c : Fin n) (pc : AddPc) : ListState n :=
  { s with clients := Function.update s.clients c pc }

def listClientStep (s : ListState n) (c : Fin n) (addr : Ptr) : Option (ListState n) :=
  match s.clients c with
  | .outside => none
  | .lockQueue b =>
    if s.queueMutex = none then
      some { s.setClient c (.testFirst b) with queueMutex := some c }
    else none
  | .unlockQueue => some { s.setClient c .upNewReqs with queueMutex := none }
  | .upNewReqs => some { s.setClient c .outside with newReqsSem := s.newReqsSem + 1 }
  | pc =>
    if pc.allocates = true ∧ (addr = 0 ∨ addr ∈ s.list.live) then none
    else
      match addStep s.list addr pc with
      | none => some { s with crashed := true }
      | some r => some { s.setClient c r.2 with list := r.1 }

def listDiskStep (ia : IntArith) (s : ListState n) : Option (ListState n) :=
  if s.disk = .downNewReqs ∧ s.newReqsSem = 0 then none
  else
    match removeStep ia s.iCurrBlock s.list s.disk with
    | none => some { s with crashed := true }
    | some r =>
      some { s with
        list := r.1
        disk := r.2
        newReqsSem := if s.disk = .downNewReqs then s.newReqsSem - 1 else s.newReqsSem }

def listStep (ia : IntArith) (s : ListState n) : ListAction n → Option (ListState n)
  | .call c block =>
    if s.crashed = false ∧ s.clients c = .outside then some (s.setClient c (.lockQueue block))
    else none
  | .client c addr => if s.crashed = false then listClientStep s c addr else none
  | .disk => if s.crashed = false then listDiskStep ia s else none
  | .seek block =>
    if s.crashed = false ∧ s.disk = .downNewReqs then some { s with iCurrBlock := block }
    else none

end PingPong
