import PingPong.Device
import PingPong.Policies
import PingPong.Runs

/-! The disk manager as a system of any number of client tasks, the disk task and
the device. Each statement of the calls and of `diskScheduler` is one step; the
list, semaphore and mutex operations are atomic, and so is the device's return to
idle together with the `SIGUSR1` handler. The request list is the sequence of its
nodes' addresses, and `heap` holds their fields, which stay readable after `free`
until `malloc` returns the address again. Four things are ghosts: the `id` that
numbers the requests, the copy of the removed request in the disk task's program
point, `serving`, which is the request behind the device's command, and the
history, newest event first. -/

namespace PingPong

structure Request where
  id : Nat
  task : Nat
  block : Int
  buffer : Ptr
  cTaskAction : TaskCmd
  startingTime : Int
  deriving DecidableEq, Repr

structure Manager where
  init : Bool
  size : Int
  iBlockSize : Int
  iCurrBlock : Int
  buffer : Ptr
  status : Int
  packageSync : Int
  enAlgorithm : DiskAlgorithm
  startingTime : Int
  totalBlockAccess : Int
  execTime : Int
  deriving DecidableEq, Repr

def Manager.zero : Manager :=
  ⟨false, 0, 0, 0, 0, 0, 0, .fcfs, 0, 0, 0⟩

def Device.zero (fileSize : Nat) : Device :=
  ⟨fileSize, .unknown, 0, 0, 0, 0, 0, 0, 0, false⟩

def diskMgrInit (m : Manager) (d : Device) : Option (Manager × Device) :=
  let started := diskCmd .init 0 0 d
  if started.2 ≠ 0 then none
  else
    let size := (diskCmd .disksize 0 0 started.1).2
    if size < 0 then none
    else
      let iBlockSize := (diskCmd .blocksize 0 0 started.1).2
      if iBlockSize < 0 then none
      else
        some ({ m with
          size := size
          iBlockSize := iBlockSize
          init := true
          totalBlockAccess := 0
          execTime := 0
          packageSync := 0 }, started.1)

inductive ClientPc
  | outside
  | lockRequest (r : Request)
  | upNewReqs (r : Request)
  | downTreated (r : Request)
  | unlockRequest (r : Request)
  | returning (r : Request)
  deriving DecidableEq, Repr

/-- `p` is `pstNextReq`, and the number in `setCurrBlock` is the block that the
accounting statement read. -/
inductive DiskPc
  | whileInit
  | downNewReqs
  | checkEmpty
  | choose
  | remove (p : Ptr)
  | askStatus (p : Ptr) (r : Request)
  | setStart (p : Ptr) (r : Request)
  | account (p : Ptr) (r : Request)
  | setCurrBlock (p : Ptr) (r : Request) (counted : Int)
  | setBuffer (p : Ptr) (r : Request)
  | command (p : Ptr) (r : Request)
  | upTreated (r : Request)
  | exited
  deriving DecidableEq, Repr

inductive Event
  | enqueued (r : Request)
  | selected (r : Request)
  | removed (r : Request)
  | dispatched (r : Request) (cmd : TaskCmd) (block : Int) (buffer : Ptr) (ret : Int)
  | completed (r : Request) (cmd : TaskCmd) (block : Int) (buffer : Ptr)
  | returned (r : Request) (ret : Int)
  deriving DecidableEq, Repr

structure Config (φ μ : Type) where
  alg : DiskAlgorithm
  ia : IntArith
  md : Medium φ μ

structure State (n : Nat) (φ μ : Type) where
  mgr : Manager
  dev : Device
  newReqsSem : Nat
  treatedReqSem : Nat
  mRequest : Option (Fin n)
  list : List Ptr
  heap : Ptr → Request
  clients : Fin n → ClientPc
  disk : DiskPc
  store : Store φ μ
  systemTime : Int
  nextId : Nat
  serving : Request
  hist : List Event

inductive Action (n : Nat) (μ : Type)
  | call (c : Fin n) (cmd : TaskCmd) (block : Int) (buffer : Ptr) (addr : Ptr)
  | client (c : Fin n)
  | store (c : Fin n) (mem : μ)
  | disk
  | fire
  | tick

variable {n : Nat} {φ μ : Type}

def callStep (s : State n φ μ) (c : Fin n) (cmd : TaskCmd) (block : Int) (buffer addr : Ptr) :
    Option (State n φ μ) :=
  let r : Request := ⟨s.nextId, c, block, buffer, cmd, s.systemTime⟩
  if s.clients c = .outside ∧ addr ≠ 0 ∧ addr ∉ s.list then
    some { s with
      heap := Function.update s.heap addr r
      list := s.list ++ [addr]
      clients := Function.update s.clients c (.lockRequest r)
      nextId := s.nextId + 1
      hist := .enqueued r :: s.hist }
  else none

def clientStep (s : State n φ μ) (c : Fin n) : Option (State n φ μ) :=
  match s.clients c with
  | .outside => none
  | .lockRequest r =>
    if s.mRequest = none then
      some { s with mRequest := some c, clients := Function.update s.clients c (.upNewReqs r) }
    else none
  | .upNewReqs r =>
    some { s with
      newReqsSem := s.newReqsSem + 1
      clients := Function.update s.clients c (.downTreated r) }
  | .downTreated r =>
    if 0 < s.treatedReqSem then
      some { s with
        treatedReqSem := s.treatedReqSem - 1
        clients := Function.update s.clients c (.unlockRequest r) }
    else none
  | .unlockRequest r =>
    some { s with mRequest := none, clients := Function.update s.clients c (.returning r) }
  | .returning r =>
    some { s with
      clients := Function.update s.clients c .outside
      hist := .returned r 0 :: s.hist }

def diskStep (cfg : Config φ μ) (s : State n φ μ) : Option (State n φ μ) :=
  match s.disk with
  | .whileInit => some { s with disk := if s.mgr.init then .downNewReqs else .exited }
  | .downNewReqs =>
    if 0 < s.newReqsSem then
      some { s with newReqsSem := s.newReqsSem - 1, disk := .checkEmpty }
    else none
  | .checkEmpty => some { s with disk := if s.list = [] then .whileInit else .choose }
  | .choose =>
    (schedChoice cfg.ia (fun p => (s.heap p).block) s.mgr.iCurrBlock cfg.alg s.list).map fun p =>
      { s with
        mgr := { s.mgr with enAlgorithm := cfg.alg }
        disk := .remove p
        hist := .selected (s.heap p) :: s.hist }
  | .remove p =>
    some { s with
      list := s.list.erase p
      disk := .askStatus p (s.heap p)
      hist := .removed (s.heap p) :: s.hist }
  | .askStatus p r =>
    let status := (diskCmd .status 0 0 s.dev).2
    some { s with
      mgr := { s.mgr with status := status }
      disk := if status ≠ DiskStatus.idle.code then .whileInit else .setStart p r }
  | .setStart p r =>
    some { s with
      mgr := { s.mgr with startingTime := wrapInt s.systemTime }
      disk := .account p r }
  | .account p r =>
    some { s with
      mgr := { s.mgr with
        totalBlockAccess := cfg.ia.add s.mgr.totalBlockAccess
          (cfg.ia.abs (cfg.ia.sub (s.heap p).block s.mgr.iCurrBlock)) }
      disk := .setCurrBlock p r (s.heap p).block }
  | .setCurrBlock p r _ =>
    some { s with
      mgr := { s.mgr with iCurrBlock := (s.heap p).block }
      disk := .setBuffer p r }
  | .setBuffer p r =>
    some { s with
      mgr := { s.mgr with buffer := (s.heap p).buffer }
      disk := .command p r }
  | .command p r =>
    let answer := diskCmd (s.heap p).cTaskAction.toDiskCmd s.mgr.iCurrBlock s.mgr.buffer s.dev
    some { s with
      dev := answer.1
      disk := if answer.2 ≠ 0 then .upTreated r else .whileInit
      serving := if answer.2 ≠ 0 then s.serving else r
      hist :=
        .dispatched r (s.heap p).cTaskAction s.mgr.iCurrBlock s.mgr.buffer answer.2 :: s.hist }
  | .upTreated _ => some { s with treatedReqSem := s.treatedReqSem + 1, disk := .whileInit }
  | .exited => none

def memActionFinished (s : State n φ μ) : State n φ μ :=
  { s with
    treatedReqSem := s.treatedReqSem + 1
    mgr := { s.mgr with
      packageSync := (s.mgr.packageSync + 1).bmod 65536
      execTime := wrapInt (s.mgr.execTime + (s.systemTime - s.mgr.startingTime)) } }

def Device.command (d : Device) : TaskCmd := if d.status = .write then .write else .read

/-- The process ends, and with it the run, when the handler finds an unknown state. -/
def fireStep (cfg : Config φ μ) (s : State n φ μ) : Option (State n φ μ) :=
  if s.dev.timer then
    (diskSighandle cfg.md s.dev s.store).map fun done =>
      memActionFinished { s with
        dev := done.1
        store := done.2
        hist := .completed s.serving s.dev.command s.dev.nextBlock s.dev.buffer :: s.hist }
  else none

def step (cfg : Config φ μ) (s : State n φ μ) : Action n μ → Option (State n φ μ)
  | .call c cmd block buffer addr => callStep s c cmd block buffer addr
  | .client c => clientStep s c
  | .store c mem =>
    if s.clients c = .outside then some { s with store := { s.store with mem := mem } } else none
  | .disk => diskStep cfg s
  | .fire => fireStep cfg s
  | .tick => some { s with systemTime := wrapUnsigned (s.systemTime + 1) }

def Manager.start (numblocks : Int) : Manager :=
  { Manager.zero with size := numblocks, iBlockSize := diskBlockSize, init := true }

def Device.start (fileSize : Nat) (numblocks : Int) : Device :=
  { Device.zero fileSize with
    status := .idle
    numblocks := numblocks
    blocksize := diskBlockSize
    delayMin := diskDelayMin
    delayMax := diskDelayMax }

theorem diskMgrInit_start {fileSize : Nat} (h : 0 ≤ wrapInt (fileSize / diskBlockSize)) :
    diskMgrInit Manager.zero (Device.zero fileSize) =
      some (Manager.start (wrapInt (fileSize / diskBlockSize)),
        Device.start fileSize (wrapInt (fileSize / diskBlockSize))) := by
  have hneg : ¬wrapInt (fileSize / diskBlockSize) < 0 := by omega
  simp [diskMgrInit, diskCmd, diskInit, Device.zero, Device.start, Manager.start, Manager.zero,
    hneg]
  decide

def initial (numblocks : Int) (heap : Ptr → Request) (store : Store φ μ) : State n φ μ where
  mgr := Manager.start numblocks
  dev := Device.start (numblocks * diskBlockSize).toNat numblocks
  newReqsSem := 0
  treatedReqSem := 0
  mRequest := none
  list := []
  heap := heap
  clients := fun _ => .outside
  disk := .whileInit
  store := store
  systemTime := 0
  nextId := 0
  serving := heap 0
  hist := []

def sstfConfig : Config (Int → Nat) (Ptr → Nat) := ⟨.sstf, .wrap32, blockMedium Nat⟩

def smallDisk (n : Nat) : State n (Int → Nat) (Ptr → Nat) :=
  initial 16 (fun _ => ⟨0, 0, 0, 0, .read, 0⟩) ⟨fun b => b.toNat, fun _ => 0⟩

/-- One call from its entry to its return, with nothing else going on. -/
def callAlone (c : Fin n) (cmd : TaskCmd) (block : Int) (buffer addr : Ptr) : List (Action n μ) :=
  [.call c cmd block buffer addr, .client c, .client c] ++ List.replicate 11 .disk ++
    [.fire, .client c, .client c, .client c]

end PingPong
