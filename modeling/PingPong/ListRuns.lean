import PingPong.ListAppend
import PingPong.ListRemoval

/-! The request list over whole runs of any number of clients and the disk task.
`removeNode` does not take `queueMutex`, so the list survives a run only when the
two never meet at its last node. -/

namespace PingPong

open Runs

variable {n : Nat}

/-- The client that holds `queueMutex`; the others are outside the list code. -/
def ListState.adder (s : ListState n) : AddPc :=
  match s.queueMutex with
  | some c => s.clients c
  | none => .outside

/-- The disk task does not commit itself to a removal of the last node while a
client appends behind it, and no client starts to append while it is removed. -/
def Undisturbed (s : ListState n) : ListAction n → Prop
  | .disk => s.list.spoilsAppend s.adder s.disk = false
  | .client c _ => s.list.spoilsRemoval s.disk (s.clients c) = false
  | _ => True

instance (s : ListState n) : (a : ListAction n) → Decidable (Undisturbed s a)
  | .disk => inferInstanceAs (Decidable (_ = _))
  | .client _ _ => inferInstanceAs (Decidable (_ = _))
  | .call _ _ => inferInstanceAs (Decidable True)
  | .seek _ => inferInstanceAs (Decidable True)

def ListState.Quiescent (s : ListState n) : Prop :=
  (∀ c, (s.clients c).inside = false) ∧ s.disk = .downNewReqs

instance (s : ListState n) : Decidable s.Quiescent := inferInstanceAs (Decidable (_ ∧ _))

def RequestList.WellFormed (m : RequestList) : Prop :=
  Linked.Doubly m.next m.prev 0 m.firstNode m.lastNode m.requests ∧ m.iSize = m.requests.length

instance (m : RequestList) : Decidable m.WellFormed := inferInstanceAs (Decidable (_ ∧ _))

structure ListInv (s : ListState n) : Prop where
  crashed : s.crashed = false
  holder : ∀ c, (s.clients c).inside = true ↔ s.queueMutex = some c
  kept : ListKept s.list s.adder s.disk
  backlog : s.list.requests.length =
    countAt AddPc.queued s.clients + s.newReqsSem + s.disk.taken.toNat

theorem ListState.adder_of_outside {s : ListState n} (h : s.queueMutex = none) :
    s.adder = .outside := by
  rw [ListState.adder, h]

theorem ListState.adder_of_holder {s : ListState n} {c : Fin n} (h : s.queueMutex = some c) :
    s.adder = s.clients c := by
  rw [ListState.adder, h]

theorem start_listKept : ListKept createList .outside .downNewReqs where
  nodup := List.nodup_nil
  live x hx := by simp [createList, AddPc.linked] at hx
  null := List.not_mem_nil
  forward := rfl
  backward := rfl
  last _ _ := rfl
  size := rfl
  noAppend := nofun
  noHold := nofun
  adder := trivial
  disk := trivial

theorem start_listInv (n : Nat) : ListInv (ListState.start n) where
  crashed := rfl
  holder c := by simp [ListState.start, AddPc.inside]
  kept := start_listKept
  backlog := by
    rw [countAt_eq_zero fun _ => rfl]
    rfl

theorem ListInv.moveClient {s t : ListState n} (h : ListInv s) {c : Fin n} {pc pc' : AddPc}
    (hpc : s.clients c = pc) (hclients : t.clients = Function.update s.clients c pc')
    (hdisk : t.disk = s.disk) (hcrashed : t.crashed = s.crashed)
    (hself : pc'.inside = true ↔ t.queueMutex = some c)
    (hother : ∀ i, i ≠ c → (t.queueMutex = some i ↔ s.queueMutex = some i))
    (hbacklog : t.list.requests.length + pc.queued.toNat + s.newReqsSem =
      s.list.requests.length + pc'.queued.toNat + t.newReqsSem)
    (hkept : ListKept t.list t.adder s.disk) : ListInv t where
  crashed := hcrashed.trans h.crashed
  holder := hclients ▸ holder_update (p := AddPc.inside) h.holder hself hother
  kept := hdisk ▸ hkept
  backlog := by
    have hold := h.backlog
    have hcount := countAt_update (x := pc') AddPc.queued hpc
    rw [hclients, hdisk]
    omega

theorem ListState.adder_of_other {s t : ListState n} {c : Fin n} {pc : AddPc}
    (hlock : s.queueMutex ≠ some c) (hclients : t.clients = Function.update s.clients c pc)
    (hsame : t.queueMutex = s.queueMutex) : t.adder = s.adder := by
  unfold ListState.adder
  rw [hsame, hclients]
  cases hs : s.queueMutex with
  | none => rfl
  | some i =>
    have hi : i ≠ c := fun he => hlock (he ▸ hs)
    exact Function.update_of_ne hi pc s.clients

theorem ListState.adder_setClient {s t : ListState n} {c : Fin n} {pc : AddPc}
    (hlock : t.queueMutex = some c) (hclients : t.clients = Function.update s.clients c pc) :
    t.adder = pc := by
  rw [ListState.adder_of_holder hlock, hclients, Function.update_self]

theorem ListInv.not_holding {s : ListState n} (h : ListInv s) {c : Fin n} {pc : AddPc}
    (hpc : s.clients c = pc) (hin : pc.inside = false) : s.queueMutex ≠ some c := by
  intro hlock
  have hinside := (h.holder c).mpr hlock
  simp [hpc, hin] at hinside

theorem ListInv.call {s : ListState n} (h : ListInv s) {c : Fin n} {block : Int}
    (hpc : s.clients c = .outside) : ListInv (s.setClient c (.lockQueue block)) := by
  have hlock := h.not_holding hpc rfl
  have hadder : (s.setClient c (.lockQueue block)).adder = s.adder :=
    ListState.adder_of_other hlock rfl rfl
  refine h.moveClient hpc rfl rfl rfl ⟨nofun, fun hl => absurd hl hlock⟩ (fun _ _ => Iff.rfl) rfl ?_
  rw [hadder]
  exact h.kept

theorem ListInv.lockQueue {s : ListState n} (h : ListInv s) {c : Fin n} {block : Int}
    (hpc : s.clients c = .lockQueue block) (hfree : s.queueMutex = none) :
    ListInv { s.setClient c (.testFirst block) with queueMutex := some c } := by
  refine h.moveClient hpc rfl rfl rfl (by simp [AddPc.inside]) ?_ rfl ?_
  · intro i hi
    simpa [hfree] using hi.symm
  · have hkept := h.kept
    rw [ListState.adder_of_outside hfree] at hkept
    rw [ListState.adder_setClient rfl rfl]
    exact hkept.move rfl rfl rfl (fun _ => rfl) (fun _ => rfl) trivial

theorem ListInv.unlockQueue {s : ListState n} (h : ListInv s) {c : Fin n}
    (hpc : s.clients c = .unlockQueue) :
    ListInv { s.setClient c .upNewReqs with queueMutex := none } := by
  have hlock : s.queueMutex = some c := (h.holder c).mp (by simp [hpc, AddPc.inside])
  refine h.moveClient hpc rfl rfl rfl (by simp [AddPc.inside]) ?_ rfl ?_
  · intro i hi
    simpa [hlock] using hi.symm
  · have hkept := h.kept
    rw [ListState.adder_of_holder hlock, hpc] at hkept
    rw [ListState.adder_of_outside rfl]
    exact hkept.move rfl rfl rfl (fun _ => rfl) (fun _ => rfl) trivial

theorem ListInv.upNewReqs {s : ListState n} (h : ListInv s) {c : Fin n}
    (hpc : s.clients c = .upNewReqs) :
    ListInv { s.setClient c .outside with newReqsSem := s.newReqsSem + 1 } := by
  have hlock := h.not_holding hpc rfl
  have hadder : ListState.adder { s.setClient c .outside with newReqsSem := s.newReqsSem + 1 } =
      s.adder := ListState.adder_of_other hlock rfl rfl
  refine h.moveClient hpc rfl rfl rfl ⟨nofun, fun hl => absurd hl hlock⟩ (fun _ _ => Iff.rfl) ?_ ?_
  · simp only [ListState.setClient, AddPc.queued, Bool.toNat_true, Bool.toNat_false]
    omega
  · rw [hadder]
    exact h.kept

theorem ListInv.addStep {s : ListState n} (h : ListInv s) {c : Fin n} {addr : Ptr} {pc : AddPc}
    (hpc : s.clients c = pc) (hin : pc.inside = true)
    (hok : s.list.spoilsRemoval s.disk pc = false)
    (hnew : pc.allocates = true → addr ≠ 0 ∧ addr ∉ s.list.live) :
    ∃ r, PingPong.addStep s.list addr pc = some r ∧
      ListInv { s.setClient c r.2 with list := r.1 } := by
  have hlock : s.queueMutex = some c := (h.holder c).mp (by rw [hpc, hin])
  have hkept := h.kept
  rw [ListState.adder_of_holder hlock, hpc] at hkept
  obtain ⟨r, hstep, hkept', hinside, hlen⟩ := hkept.addStep hok hnew
  refine ⟨r, hstep, h.moveClient hpc rfl rfl rfl ?_ (fun _ _ => Iff.rfl) ?_ ?_⟩
  · rw [hinside, hin]
    exact ⟨fun _ => hlock, fun _ => rfl⟩
  · dsimp only [ListState.setClient]
    omega
  · have hadder : ListState.adder { s.setClient c r.2 with list := r.1 } = r.2 :=
      ListState.adder_setClient (s := s) hlock rfl
    rw [hadder]
    exact hkept'

theorem listClientStep_inside {s : ListState n} {c : Fin n} {addr : Ptr} {pc : AddPc}
    (hpc : s.clients c = pc) (hin : pc.inside = true) (hunlock : pc ≠ .unlockQueue) :
    listClientStep s c addr =
      if pc.allocates = true ∧ (addr = 0 ∨ addr ∈ s.list.live) then none
      else
        match addStep s.list addr pc with
        | none => some { s with crashed := true }
        | some r => some { s.setClient c r.2 with list := r.1 } := by
  unfold listClientStep
  rw [hpc]
  cases pc with
  | outside | lockQueue b | upNewReqs => cases hin
  | unlockQueue => exact absurd rfl hunlock
  | _ => rfl

theorem ListInv.clientStep {s t : ListState n} (h : ListInv s) {c : Fin n} {addr : Ptr}
    (hok : Undisturbed s (.client c addr)) (hstep : listClientStep s c addr = some t) :
    ListInv t := by
  by_cases hin : (s.clients c).inside = true
  · by_cases hunlock : s.clients c = .unlockQueue
    · simp only [listClientStep, hunlock, Option.some.injEq] at hstep
      exact hstep ▸ h.unlockQueue hunlock
    · rw [listClientStep_inside rfl hin hunlock] at hstep
      split_ifs at hstep with hfresh
      have hnew : (s.clients c).allocates = true → addr ≠ 0 ∧ addr ∉ s.list.live := by
        intro halloc
        simpa [halloc] using hfresh
      obtain ⟨r, hr, hinv⟩ := h.addStep rfl hin hok hnew
      rw [hr] at hstep
      exact Option.some.inj hstep ▸ hinv
  · cases hpc : s.clients c with
    | outside => simp [listClientStep, hpc] at hstep
    | lockQueue b =>
      simp only [listClientStep, hpc, Option.ite_none_right_eq_some, Option.some.injEq] at hstep
      exact hstep.2 ▸ h.lockQueue hpc hstep.1
    | upNewReqs =>
      simp only [listClientStep, hpc, Option.some.injEq] at hstep
      exact hstep ▸ h.upNewReqs hpc
    | _ => simp [hpc, AddPc.inside] at hin

theorem ListInv.diskStep {ia : IntArith} {s t : ListState n} (h : ListInv s)
    (hok : Undisturbed s .disk) (hstep : listDiskStep ia s = some t) : ListInv t := by
  have hready : ¬(s.disk = .downNewReqs ∧ s.newReqsSem = 0) := by
    intro hblocked
    simp [listDiskStep, hblocked] at hstep
  rw [listDiskStep, if_neg hready] at hstep
  by_cases hdown : s.disk = .downNewReqs
  · have hsem : s.newReqsSem ≠ 0 := fun h0 => hready ⟨hdown, h0⟩
    have hkept := h.kept
    have hbacklog := h.backlog
    rw [hdown] at hkept hbacklog
    simp only [hdown, PingPong.removeStep, Option.some.injEq, if_true] at hstep
    subst t
    refine ⟨h.crashed, h.holder, hkept.downNewReqs, ?_⟩
    simp only [RemovePc.taken, Bool.toNat_true, Bool.toNat_false] at hbacklog ⊢
    omega
  · have hne : s.disk.taken = true → s.list.requests ≠ [] := by
      intro htaken hnil
      have hbacklog := h.backlog
      simp only [htaken, hnil, List.length_nil, Bool.toNat_true] at hbacklog
      omega
    obtain ⟨r, hr, hkept, hlen⟩ := h.kept.removeStep ia s.iCurrBlock hdown hok hne
    simp only [hr, if_neg hdown, Option.some.injEq] at hstep
    subst t
    refine ⟨h.crashed, h.holder, hkept, ?_⟩
    have hbacklog := h.backlog
    dsimp only
    omega

theorem ListInv.step {ia : IntArith} {s t : ListState n} {a : ListAction n} (h : ListInv s)
    (hok : Undisturbed s a) (hstep : listStep ia s a = some t) : ListInv t := by
  cases a with
  | call c block =>
    simp only [listStep, Option.ite_none_right_eq_some, Option.some.injEq] at hstep
    exact hstep.2 ▸ h.call hstep.1.2
  | client c addr =>
    simp only [listStep, Option.ite_none_right_eq_some] at hstep
    exact h.clientStep hok hstep.2
  | disk =>
    simp only [listStep, Option.ite_none_right_eq_some] at hstep
    exact h.diskStep hok hstep.2
  | seek block =>
    simp only [listStep, Option.ite_none_right_eq_some, Option.some.injEq] at hstep
    exact hstep.2 ▸ ⟨h.crashed, h.holder, h.kept, h.backlog⟩

theorem ListInv.wellFormed {s : ListState n} (h : ListInv s) (hquiet : s.Quiescent) :
    s.list.WellFormed := by
  have hlock : s.queueMutex = none := by
    cases hl : s.queueMutex with
    | none => rfl
    | some c => simpa [hquiet.1 c] using (h.holder c).mpr hl
  have hkept := h.kept
  rw [ListState.adder_of_outside hlock, hquiet.2] at hkept
  have hforward := hkept.forward
  have hbackward := hkept.backward
  have hlast := hkept.last rfl rfl
  simp only [AddPc.linked, List.append_nil] at hforward hbackward hlast
  refine ⟨⟨hforward, ?_⟩, ?_⟩
  · rw [hlast]
    exact hbackward
  · rw [hkept.size]
    exact Int.add_zero _

/-- In every run in which the disk task and the clients do not meet at the last
node, no task dereferences `NULL`, and whenever no task is inside a list operation
the list is well formed, holds the pending requests and counts them. -/
theorem list_wellFormed (ia : IntArith) (n : Nat) {actions : List (ListAction n)} {t : ListState n}
    (hok : Along (listStep ia) Undisturbed (ListState.start n) actions)
    (hrun : run (listStep ia) (ListState.start n) actions = some t) :
    t.crashed = false ∧ (t.Quiescent → t.list.WellFormed) := by
  have hinv := run_invariant (fun _ _ _ hs hok hstep => ListInv.step hs hok hstep) (start_listInv n)
    hok hrun
  exact ⟨hinv.crashed, hinv.wellFormed⟩

/-- A call and the first `k` statements that its client runs, with the node that
`malloc` returns to it. -/
def enqueueSteps (c : Fin n) (block : Int) (addr : Ptr) (k : Nat) : List (ListAction n) :=
  .call c block :: List.replicate k (.client c addr)

theorem list_wellFormed_small : ∃ s : ListState 3,
    run (listStep .exact) (ListState.start 3) (enqueueSteps 0 5 16 10 ++ enqueueSteps 1 3 32 12 ++
      List.replicate 16 .disk ++ enqueueSteps 2 9 48 2 ++ [.disk, .disk] ++
      List.replicate 9 (.client 2 48)) = some s ∧
    s.list.WellFormed ∧ s.list.requests = [16, 48] := by
  have hrun : (run (listStep .exact) (ListState.start 3) (enqueueSteps 0 5 16 10 ++
      enqueueSteps 1 3 32 12 ++ List.replicate 16 .disk ++ enqueueSteps 2 9 48 2 ++
      [.disk, .disk] ++ List.replicate 9 (.client 2 48))).map
        (fun s => (decide s.Quiescent, s.list.requests)) = some (true, [16, 48]) := by decide
  obtain ⟨s, hs, hpair⟩ := Option.map_eq_some_iff.mp hrun
  have hquiet : s.Quiescent := of_decide_eq_true (congrArg Prod.fst hpair)
  refine ⟨s, hs, (list_wellFormed .exact 3 ?_ hs).2 hquiet, congrArg Prod.snd hpair⟩
  decide

/-- Client 2 has read the last node when the disk task removes that node, and it
links its own node with a pointer back to freed memory. -/
theorem append_behind_freed_node :
    ¬∀ (as : List (ListAction 3)) (s : ListState 3),
      run (listStep .exact) (ListState.start 3) as = some s →
        s.crashed = false ∧ (s.Quiescent → s.list.WellFormed) := by
  intro hall
  have hrun : (run (listStep .exact) (ListState.start 3) (enqueueSteps 0 5 16 10 ++
      enqueueSteps 1 3 32 12 ++ enqueueSteps 2 9 48 7 ++ List.replicate 18 .disk ++
      List.replicate 4 (.client 2 48))).map
        (fun s => (decide s.Quiescent, decide s.list.WellFormed)) = some (true, false) := by decide
  obtain ⟨s, hs, hpair⟩ := Option.map_eq_some_iff.mp hrun
  have hquiet : s.Quiescent := of_decide_eq_true (congrArg Prod.fst hpair)
  exact of_decide_eq_false (congrArg Prod.snd hpair) ((hall _ s hs).2 hquiet)

end PingPong
