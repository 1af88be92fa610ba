import PingPong.Head
import PingPong.Simulation
import Mathlib.Algebra.Order.BigOperators.Group.List
import Mathlib.Algebra.Ring.Int.Defs

/-! The signed arithmetic on block numbers in `sstfSched` and in the accounting of
`diskScheduler`. Both run on requests that nobody has checked. A difference of blocks
fits an `int` as long as the requests and the head that meet are near one another, and
the sum as long as the whole way of the head fits. -/

namespace PingPong

open Runs

def InInt (a : Int) : Prop := intMin ≤ a ∧ a ≤ intMax

instance (a : Int) : Decidable (InInt a) := inferInstanceAs (Decidable (_ ∧ _))

def Action.IntBlock {n : Nat} {μ : Type} : Action n μ → Prop
  | .call _ _ block _ _ => InInt block
  | _ => True

instance {n : Nat} {μ : Type} : (a : Action n μ) → Decidable a.IntBlock
  | .call _ _ block _ _ => inferInstanceAs (Decidable (InInt block))
  | .client _ | .store .. | .disk | .fire | .tick => inferInstanceAs (Decidable True)

/-- The distance of two blocks fits an `int`. -/
def Near (a b : Int) : Prop := ((a - b).natAbs : Int) ≤ intMax

instance (a b : Int) : Decidable (Near a b) := inferInstanceAs (Decidable (_ ≤ _))

theorem Near.symm {a b : Int} (h : Near a b) : Near b a := by
  unfold Near at h ⊢
  omega

theorem Near.refl (a : Int) : Near a a := by
  have h0 : (0 : Int) ≤ intMax := by decide
  unfold Near
  omega

variable {n : Nat} {φ μ : Type}

def State.distance (s : State n φ μ) (p : Ptr) : Int :=
  ((s.heap p).block - s.mgr.iCurrBlock).natAbs

/-- The exact results of the subtractions, `abs` and additions of a step. -/
def exactResults (cfg : Config φ μ) (s : State n φ μ) : Action n μ → List Int
  | .disk => match s.disk with
    | .choose =>
      if cfg.alg = .sstf then
        s.list.flatMap fun p => [(s.heap p).block - s.mgr.iCurrBlock, s.distance p]
      else []
    | .account p _ =>
      [(s.heap p).block - s.mgr.iCurrBlock, s.distance p,
        s.mgr.totalBlockAccess + s.distance p]
    | _ => []
  | _ => []

def NoOverflow (cfg : Config φ μ) (s : State n φ μ) (a : Action n μ) : Prop :=
  ∀ v ∈ exactResults cfg s a, InInt v

instance (cfg : Config φ μ) (s : State n φ μ) (a : Action n μ) : Decidable (NoOverflow cfg s a) :=
  inferInstanceAs (Decidable (∀ _ ∈ _, _))

def distanceOf (s : State n φ μ) : Action n μ → Option Int
  | .disk => match s.disk with
    | .account p _ => some (s.distance p)
    | _ => none
  | _ => none

def distancesIn (cfg : Config φ μ) (s : State n φ μ) (as : List (Action n μ)) : List Int :=
  traceOf (step cfg) distanceOf s as

/-- The chosen node, until the head has its block. -/
def DiskPc.chosen : DiskPc → Option Ptr
  | .remove p | .askStatus p _ | .setStart p _ | .account p _ | .setCurrBlock p _ _ => some p
  | _ => none

def DiskPc.counted : DiskPc → Bool
  | .setCurrBlock .. => true
  | _ => false

/-- Where the head is when the list is looked at next. -/
def State.headTarget (s : State n φ μ) : Int :=
  match s.disk.chosen with
  | some p => (s.heap p).block
  | none => s.mgr.iCurrBlock

/-- Where the head is when it first meets a request that is put in the node `addr`. If
this is the chosen node, the head is sent to the new block instead of the old one. -/
def State.headFor (s : State n φ μ) (addr : Ptr) (block : Int) : Int :=
  match s.disk.chosen with
  | some p =>
    if addr = p then (if s.disk.counted then block else s.mgr.iCurrBlock) else (s.heap p).block
  | none => s.mgr.iCurrBlock

/-- A call is for a block near the head and near the block of every pending request. -/
def NearCall (s : State n φ μ) : Action n μ → Prop
  | .call _ _ block _ addr =>
    Near block (s.headFor addr block) ∧ ∀ q ∈ s.list, Near block (s.heap q).block
  | _ => True

instance (s : State n φ μ) : (a : Action n μ) → Decidable (NearCall s a)
  | .call _ _ block _ addr => inferInstanceAs (Decidable
      (Near block (s.headFor addr block) ∧ ∀ q ∈ s.list, Near block (s.heap q).block))
  | .client _ | .store .. | .disk | .fire | .tick => inferInstanceAs (Decidable True)

/-- A call that gets the chosen node from `malloc` is for the block that stands there. -/
def KeepsBlock (s : State n φ μ) : Action n μ → Prop
  | .call _ _ block _ addr => s.disk.chosen = some addr → block = (s.heap addr).block
  | _ => True

instance (s : State n φ μ) : (a : Action n μ) → Decidable (KeepsBlock s a)
  | .call _ _ block _ addr => inferInstanceAs (Decidable
      (s.disk.chosen = some addr → block = (s.heap addr).block))
  | .client _ | .store .. | .disk | .fire | .tick => inferInstanceAs (Decidable True)

structure Close (s : State n φ μ) : Prop where
  pairs : ∀ p ∈ s.list, ∀ q ∈ s.list, Near (s.heap p).block (s.heap q).block
  target : ∀ q ∈ s.list, Near s.headTarget (s.heap q).block
  moved : ∀ p, s.disk.chosen = some p → s.disk.counted = false →
    Near (s.heap p).block s.mgr.iCurrBlock

theorem close_of_served {s : State n φ μ} (hlist : s.list = []) (hchosen : s.disk.chosen = none) :
    Close s where
  pairs p hp := by
    rw [hlist] at hp
    exact absurd hp List.not_mem_nil
  target q hq := by
    rw [hlist] at hq
    exact absurd hq List.not_mem_nil
  moved p hp := absurd (hchosen.symm.trans hp).symm (Option.some_ne_none p)

theorem Close.frame {s t : State n φ μ} (hs : Close s) (hlist : t.list = s.list)
    (hheap : t.heap = s.heap) (htarget : t.headTarget = s.headTarget)
    (hmoved : ∀ p, t.disk.chosen = some p → t.disk.counted = false →
      Near (s.heap p).block t.mgr.iCurrBlock) : Close t where
  pairs := by
    rw [hlist, hheap]
    exact hs.pairs
  target := by
    rw [hlist, hheap, htarget]
    exact hs.target
  moved := by
    rw [hheap]
    exact hmoved

/-- The request `r` is put in the node `addr` at the end of the list. -/
structure Enqueued (s t : State n φ μ) (addr : Ptr) (r : Request) : Prop where
  fresh : addr ∉ s.list
  list : t.list = s.list ++ [addr]
  heap : t.heap = Function.update s.heap addr r
  disk : t.disk = s.disk
  mgr : t.mgr = s.mgr

theorem Enqueued.new {s t : State n φ μ} {addr : Ptr} {r : Request} (h : Enqueued s t addr r) :
    (t.heap addr).block = r.block := by rw [h.heap, Function.update_self]

theorem Enqueued.old {s t : State n φ μ} {addr q : Ptr} {r : Request} (h : Enqueued s t addr r)
    (hq : q ≠ addr) : (t.heap q).block = (s.heap q).block := by
  rw [h.heap, Function.update_of_ne hq]

theorem Enqueued.forall_mem {s t : State n φ μ} {addr : Ptr} {r : Request}
    (h : Enqueued s t addr r) {P : Int → Prop} :
    (∀ q ∈ t.list, P (t.heap q).block) ↔ (∀ q ∈ s.list, P (s.heap q).block) ∧ P r.block := by
  have hold (q : Ptr) (hq : q ∈ s.list) : (t.heap q).block = (s.heap q).block :=
    h.old (ne_of_mem_of_not_mem hq h.fresh)
  rw [h.list]
  constructor
  · intro hall
    refine ⟨fun q hq => ?_, ?_⟩
    · rw [← hold q hq]
      exact hall q (List.mem_append_left _ hq)
    · rw [← h.new]
      exact hall addr List.mem_concat_self
  · rintro ⟨hall, hr⟩ q hq
    rcases List.mem_append.mp hq with hq | hq
    · rw [hold q hq]
      exact hall q hq
    · rw [List.mem_singleton.mp hq, h.new]
      exact hr

theorem Close.call {s t : State n φ μ} {addr : Ptr} {r : Request} (hs : Close s)
    (h : Enqueued s t addr r) (hhead : Near r.block (s.headFor addr r.block))
    (hnear : ∀ q ∈ s.list, Near r.block (s.heap q).block) : Close t := by
  have htarget : (∀ q ∈ s.list, Near t.headTarget (s.heap q).block) ∧
      Near t.headTarget r.block := by
    have holdTarget := hs.target
    unfold State.headTarget at holdTarget ⊢
    unfold State.headFor at hhead
    rw [h.disk, h.mgr]
    cases hchosen : s.disk.chosen with
    | none =>
      rw [hchosen] at holdTarget hhead
      exact ⟨holdTarget, hhead.symm⟩
    | some p =>
      rw [hchosen] at holdTarget hhead
      by_cases hp : addr = p
      · subst p
        simp only [h.new]
        exact ⟨hnear, Near.refl _⟩
      · simp only [if_neg hp] at hhead
        simp only [h.old (Ne.symm hp)]
        exact ⟨holdTarget, hhead.symm⟩
  refine ⟨?_, h.forall_mem.mpr htarget, fun p hp hcounted => ?_⟩
  · have hnew := h.forall_mem.mpr ⟨hnear, Near.refl _⟩
    refine (h.forall_mem (P := fun b => ∀ q ∈ t.list, Near b (t.heap q).block)).mpr ⟨?_, hnew⟩
    exact fun p hp => h.forall_mem.mpr ⟨hs.pairs p hp, (hnear p hp).symm⟩
  · rw [h.disk] at hp hcounted
    rw [h.mgr]
    by_cases hpa : p = addr
    · subst p
      simp only [State.headFor, hp, hcounted, if_true, Bool.false_eq_true, if_false] at hhead
      rw [h.new]
      exact hhead
    · rw [h.old hpa]
      exact hs.moved p hp hcounted

theorem Close.step {cfg : Config φ μ} {s t : State n φ μ} {a : Action n μ}
    (hshake : Handshake s) (hs : Close s) (hok : NearCall s a) (h : Step cfg s a t) : Close t := by
  cases h with
  | call hr hpc hnull hfresh =>
    subst hr
    exact hs.call ⟨hfresh, rfl, rfl, rfl, rfl⟩ hok.1 hok.2
  | lock | upNew | downTreated | unlock | ret | store | tick | fire =>
    exact hs.frame rfl rfl rfl hs.moved
  | enterLoop hpc | leaveLoop hpc | downNew hpc | empty hpc | nonempty hpc | setBuffer hpc
  | upTreated hpc | accept hpc | refuse hpc =>
    refine hs.frame rfl rfl ?_ fun p hp => ?_
    · simp only [State.headTarget, hpc, DiskPc.chosen]
    · exact absurd hp.symm (Option.some_ne_none p)
  | @choose p hpc hsched =>
    have hp := (schedChoice_earliest hsched).mem
    have htarget := hs.target
    simp only [State.headTarget, hpc, DiskPc.chosen] at htarget
    refine ⟨hs.pairs, hs.pairs p hp, fun q hq _ => ?_⟩
    obtain rfl : p = q := Option.some.inj hq
    exact (htarget p hp).symm
  | @remove p hpc =>
    have htarget := hs.target
    have hmoved := hs.moved
    simp only [State.headTarget, hpc, DiskPc.chosen] at htarget
    rw [hpc] at hmoved
    exact ⟨fun q hq q' hq' => hs.pairs q (List.mem_of_mem_erase hq) q' (List.mem_of_mem_erase hq'),
      fun q hq => htarget q (List.mem_of_mem_erase hq), hmoved⟩
  | notIdle hpc hdev =>
    exact absurd (hshake.idle (by rw [hpc]; rfl)) hdev
  | isIdle hpc | setStart hpc =>
    have hmoved := hs.moved
    rw [hpc] at hmoved
    refine hs.frame rfl rfl ?_ hmoved
    simp only [State.headTarget, hpc, DiskPc.chosen]
  | account hpc =>
    refine hs.frame rfl rfl ?_ fun p _ hcounted => absurd hcounted.symm Bool.false_ne_true
    simp only [State.headTarget, hpc, DiskPc.chosen]
  | setCurrBlock hpc =>
    refine hs.frame rfl rfl ?_ fun p hp => absurd hp.symm (Option.some_ne_none p)
    simp only [State.headTarget, hpc, DiskPc.chosen]

theorem inInt_of_near {a b : Int} (h : Near a b) :
    InInt (a - b) ∧ InInt ((a - b).natAbs : Int) := by
  unfold Near at h
  have hmin : intMin ≤ -intMax := by decide
  unfold InInt
  omega

theorem distanceOf_nonneg (s : State n φ μ) (a : Action n μ) :
    ∀ d ∈ (distanceOf s a).toList, 0 ≤ d := by
  intro d hd
  cases a with
  | disk =>
    cases hpc : s.disk with
    | account p r =>
      simp only [distanceOf, hpc, Option.toList_some, List.mem_singleton] at hd
      rw [hd]
      exact Int.natCast_nonneg _
    | _ =>
      simp only [distanceOf, hpc] at hd
      exact absurd hd List.not_mem_nil
  | _ => exact absurd hd List.not_mem_nil

theorem distancesIn_cons {cfg : Config φ μ} {s t : State n φ μ} {a : Action n μ}
    (h : step cfg s a = some t) (as : List (Action n μ)) :
    distancesIn cfg s (a :: as) = (distanceOf s a).toList ++ distancesIn cfg t as := by
  simp only [distancesIn, traceOf, h, Option.elim_some]

theorem distancesIn_nonneg {cfg : Config φ μ} {s u : State n φ μ} {as : List (Action n μ)}
    (hrun : run (step cfg) s as = some u) : ∀ d ∈ distancesIn cfg s as, 0 ≤ d := by
  induction as generalizing s with
  | nil => exact fun d hd => absurd hd List.not_mem_nil
  | cons a as ih =>
    obtain ⟨t, ht, hu⟩ := run_cons.mp hrun
    rw [distancesIn_cons ht]
    intro d hd
    rcases List.mem_append.mp hd with hd | hd
    · exact distanceOf_nonneg s a d hd
    · exact ih hu d hd

/-- Among near blocks only the sum can leave the range. -/
theorem Close.noOverflow_iff {cfg : Config φ μ} {s : State n φ μ} (hs : Close s)
    (h0 : 0 ≤ s.mgr.totalBlockAccess) (hmax : s.mgr.totalBlockAccess ≤ intMax) (a : Action n μ) :
    NoOverflow cfg s a ↔ s.mgr.totalBlockAccess + (distanceOf s a).toList.sum ≤ intMax := by
  have hnone : s.mgr.totalBlockAccess + (none : Option Int).toList.sum ≤ intMax :=
    (Int.add_zero _).le.trans hmax
  cases a with
  | disk =>
    cases hpc : s.disk with
    | choose =>
      simp only [NoOverflow, exactResults, distanceOf, hpc]
      refine iff_of_true (fun v hv => ?_) hnone
      split_ifs at hv
      · obtain ⟨p, hp, hv⟩ := List.mem_flatMap.mp hv
        have hnear := hs.target p hp
        simp only [State.headTarget, hpc, DiskPc.chosen] at hnear
        obtain ⟨hsub, habs⟩ := inInt_of_near hnear.symm
        rcases List.mem_cons.mp hv with rfl | hv
        · exact hsub
        · rw [List.mem_singleton.mp hv]
          exact habs
      · exact absurd hv List.not_mem_nil
    | account p r =>
      have hmoved := hs.moved
      rw [hpc] at hmoved
      obtain ⟨hsub, habs⟩ := inInt_of_near (hmoved p rfl rfl)
      have hmin : intMin ≤ 0 := by decide
      have hdist : 0 ≤ s.distance p := Int.natCast_nonneg _
      simp only [NoOverflow, exactResults, distanceOf, hpc, List.forall_mem_cons,
        Option.toList_some, List.sum_singleton]
      constructor
      · exact fun h => h.2.2.1.2
      · intro hle
        exact ⟨hsub, habs, ⟨by omega, hle⟩, fun v hv => absurd hv List.not_mem_nil⟩
    | _ =>
      simp only [NoOverflow, exactResults, distanceOf, hpc]
      exact iff_of_true (fun v hv => absurd hv List.not_mem_nil) hnone
  | _ => exact iff_of_true (fun v hv => absurd hv List.not_mem_nil) hnone

theorem NoOverflow.total {cfg : Config φ μ} (hia : cfg.ia = .wrap32) {s t : State n φ μ}
    {a : Action n μ} (h0 : 0 ≤ s.mgr.totalBlockAccess) (hok : NoOverflow cfg s a)
    (h : Step cfg s a t) :
    t.mgr.totalBlockAccess = s.mgr.totalBlockAccess + (distanceOf s a).toList.sum := by
  cases h with
  | call | lock | upNew | downTreated | unlock | ret | store | fire | tick =>
    exact (Int.add_zero _).symm
  | enterLoop hpc | leaveLoop hpc | downNew hpc | empty hpc | nonempty hpc | choose hpc | remove hpc
  | notIdle hpc | isIdle hpc | setStart hpc | setCurrBlock hpc | setBuffer hpc | accept hpc
  | refuse hpc | upTreated hpc =>
    simp only [distanceOf, hpc]
    exact (Int.add_zero _).symm
  | @account p r hpc =>
    simp only [NoOverflow, exactResults, hpc, List.forall_mem_cons] at hok
    simp only [distanceOf, hpc, Option.toList_some, List.sum_singleton]
    rw [hia, wrap32_account h0 hok.2.2.1.2, Int.add_comm]
    rfl

theorem along_noOverflow_iff {cfg : Config φ μ} (hia : cfg.ia = .wrap32) {s u : State n φ μ}
    {as : List (Action n μ)} (hshake : Handshake s) (hs : Close s)
    (h0 : 0 ≤ s.mgr.totalBlockAccess) (hmax : s.mgr.totalBlockAccess ≤ intMax)
    (hnear : Along (step cfg) NearCall s as) (hrun : run (step cfg) s as = some u) :
    Along (step cfg) (NoOverflow cfg) s as ↔
      s.mgr.totalBlockAccess + (distancesIn cfg s as).sum ≤ intMax := by
  induction as generalizing s with
  | nil => exact iff_of_true trivial ((Int.add_zero _).le.trans hmax)
  | cons a as ih =>
    obtain ⟨t, ht, hu⟩ := run_cons.mp hrun
    have hstep := step_cases ht
    have hnow : NoOverflow cfg s a ↔ _ := hs.noOverflow_iff h0 hmax a
    have hgrow := List.sum_nonneg (distanceOf_nonneg s a)
    have hrest := List.sum_nonneg (distancesIn_nonneg hu)
    obtain ⟨hcall, hcalls⟩ := (along_cons ht).mp hnear
    have hlater (hok : NoOverflow cfg s a) : Along (step cfg) (NoOverflow cfg) t as ↔
        s.mgr.totalBlockAccess + (distanceOf s a).toList.sum + (distancesIn cfg t as).sum ≤
          intMax := by
      have htotal := hok.total hia h0 hstep
      rw [← htotal]
      refine ih (hshake.step hstep) (hs.step hshake hcall hstep) ?_ ?_ hcalls hu
      · rw [htotal]
        exact Int.add_nonneg h0 hgrow
      · rw [htotal]
        exact hnow.mp hok
    rw [along_cons ht, distancesIn_cons ht, List.sum_append, ← Int.add_assoc]
    constructor
    · rintro ⟨hok, hall⟩
      exact (hlater hok).mp hall
    · intro hle
      have hok := hnow.mpr (by omega)
      exact ⟨hok, (hlater hok).mpr hle⟩

theorem Close.before_call {s t : State n φ μ} {addr : Ptr} {r : Request} (ht : Close t)
    (h : Enqueued s t addr r) (hkeep : s.disk.chosen = some addr → r.block = (s.heap addr).block) :
    Close s ∧ Near r.block (s.headFor addr r.block) ∧
      ∀ q ∈ s.list, Near r.block (s.heap q).block := by
  have hpairs := (h.forall_mem (P := fun b => ∀ q ∈ t.list, Near b (t.heap q).block)).mp ht.pairs
  have hchosen {p : Ptr} (hp : s.disk.chosen = some p) : (t.heap p).block = (s.heap p).block := by
    by_cases hpa : p = addr
    · subst p
      rw [h.new, hkeep hp]
    · exact h.old hpa
  have hmoved (p : Ptr) (hp : s.disk.chosen = some p) (hcounted : s.disk.counted = false) :
      Near (s.heap p).block s.mgr.iCurrBlock := by
    rw [← hchosen hp, ← h.mgr]
    exact ht.moved p (by rw [h.disk, hp]) (by rw [h.disk, hcounted])
  have htarget : t.headTarget = s.headTarget := by
    unfold State.headTarget
    rw [h.disk, h.mgr]
    cases hp : s.disk.chosen with
    | none => rfl
    | some p => exact hchosen hp
  have hlisted := h.forall_mem.mp ht.target
  rw [htarget] at hlisted
  refine ⟨⟨fun p hp => (h.forall_mem.mp (hpairs.1 p hp)).1, hlisted.1, hmoved⟩, ?_,
    (h.forall_mem.mp hpairs.2).1⟩
  have hhead := hlisted.2.symm
  unfold State.headTarget at hhead
  unfold State.headFor
  cases hp : s.disk.chosen with
  | none =>
    rw [hp] at hhead
    exact hhead
  | some p =>
    rw [hp] at hhead
    simp only
    split_ifs with hpa hcounted
    · exact Near.refl _
    · subst p
      rw [hkeep hp]
      exact hmoved addr hp (Bool.eq_false_iff.mpr hcounted)
    · exact hhead

/-- What has not overflowed was near: backwards over a step. -/
theorem Close.before {cfg : Config φ μ} (halg : cfg.alg = .sstf) {s t : State n φ μ}
    {a : Action n μ} (hshake : Handshake s) (ht : Close t) (hkeep : KeepsBlock s a)
    (hok : NoOverflow cfg s a) (h : Step cfg s a t) : Close s ∧ NearCall s a := by
  cases h with
  | call hr hpc hnull hfresh =>
    subst hr
    exact ht.before_call ⟨hfresh, rfl, rfl, rfl, rfl⟩ hkeep
  | lock | upNew | downTreated | unlock | ret | store | tick | fire =>
    exact ⟨ht.frame rfl rfl rfl ht.moved, trivial⟩
  | enterLoop hpc | leaveLoop hpc | downNew hpc | empty hpc | nonempty hpc | setBuffer hpc
  | upTreated hpc | accept hpc | refuse hpc =>
    refine ⟨ht.frame rfl rfl ?_ fun p hp => ?_, trivial⟩
    · simp only [State.headTarget, hpc, DiskPc.chosen]
    · rw [hpc] at hp
      exact absurd hp.symm (Option.some_ne_none p)
  | @choose p hpc hsched =>
    refine ⟨⟨ht.pairs, fun q hq => ?_, fun q hq => ?_⟩, trivial⟩
    · simp only [NoOverflow, exactResults, hpc, if_pos halg] at hok
      have hdist := hok _ (List.mem_flatMap.mpr ⟨q, hq, List.mem_cons_of_mem _ List.mem_cons_self⟩)
      simp only [State.headTarget, hpc, DiskPc.chosen]
      exact (show Near (s.heap q).block s.mgr.iCurrBlock from hdist.2).symm
    · rw [hpc] at hq
      exact absurd hq.symm (Option.some_ne_none q)
  | @remove p hpc =>
    have hnear (q : Ptr) (hq : q ∈ s.list) : Near (s.heap p).block (s.heap q).block := by
      by_cases hqp : q = p
      · rw [hqp]
        exact Near.refl _
      · exact ht.target q ((List.mem_erase_of_ne hqp).mpr hq)
    refine ⟨⟨fun q hq q' hq' => ?_, fun q hq => ?_, fun q hq _ => ?_⟩, trivial⟩
    · by_cases hqp : q = p
      · rw [hqp]
        exact hnear q' hq'
      · by_cases hqp' : q' = p
        · rw [hqp']
          exact (hnear q hq).symm
        · exact ht.pairs q ((List.mem_erase_of_ne hqp).mpr hq) q'
            ((List.mem_erase_of_ne hqp').mpr hq')
    · simp only [State.headTarget, hpc, DiskPc.chosen]
      exact hnear q hq
    · rw [hpc] at hq
      exact ht.moved q hq rfl
  | notIdle hpc hdev =>
    exact absurd (hshake.idle (by rw [hpc]; rfl)) hdev
  | isIdle hpc | setStart hpc =>
    refine ⟨ht.frame rfl rfl ?_ fun p hp hcounted => ?_, trivial⟩
    · simp only [State.headTarget, hpc, DiskPc.chosen]
    · rw [hpc] at hp
      exact ht.moved p hp rfl
  | @account p r hpc =>
    refine ⟨ht.frame rfl rfl ?_ fun q hq _ => ?_, trivial⟩
    · simp only [State.headTarget, hpc, DiskPc.chosen]
    · rw [hpc] at hq
      obtain rfl : p = q := Option.some.inj hq
      simp only [NoOverflow, exactResults, hpc, List.forall_mem_cons] at hok
      exact hok.2.1.2
  | setCurrBlock hpc =>
    refine ⟨ht.frame rfl rfl ?_ fun p _ hcounted => ?_, trivial⟩
    · simp only [State.headTarget, hpc, DiskPc.chosen]
    · rw [hpc] at hcounted
      exact absurd hcounted.symm Bool.false_ne_true

/-- Nothing overflows in a run whose calls are all for near blocks and whose dispatches
have distances that add up to at most `INT_MAX`. When a run has served its requests
without an overflow, it was such a run, unless a chosen node was used again. -/
theorem no_overflow_iff_near {cfg : Config φ μ} (hia : cfg.ia = .wrap32) {numblocks : Int}
    {heap : Ptr → Request} {store : Store φ μ} {as : List (Action n μ)} {u : State n φ μ}
    (hrun : run (step cfg) (initial numblocks heap store) as = some u) :
    (Along (step cfg) NearCall (initial numblocks heap store) as ∧
          (distancesIn cfg (initial numblocks heap store) as).sum ≤ intMax →
        Along (step cfg) (NoOverflow cfg) (initial numblocks heap store) as) ∧
      (cfg.alg = .sstf → u.list = [] → u.disk.chosen = none →
        Along (step cfg) KeepsBlock (initial numblocks heap store) as →
        Along (step cfg) (NoOverflow cfg) (initial numblocks heap store) as →
          Along (step cfg) NearCall (initial numblocks heap store) as ∧
            (distancesIn cfg (initial numblocks heap store) as).sum ≤ intMax) := by
  have hshake : Handshake (initial numblocks heap store : State n φ μ) :=
    initial_handshake numblocks heap store
  have hclose : Close (initial numblocks heap store : State n φ μ) := close_of_served rfl rfl
  have hiff (hnear : Along (step cfg) NearCall (initial numblocks heap store) as) :
      Along (step cfg) (NoOverflow cfg) (initial numblocks heap store) as ↔
        (distancesIn cfg (initial numblocks heap store) as).sum ≤ intMax := by
    have htotal : (initial numblocks heap store : State n φ μ).mgr.totalBlockAccess = 0 := rfl
    have hsum := along_noOverflow_iff hia hshake hclose (Int.le_of_eq htotal.symm)
      (htotal.le.trans (by decide)) hnear hrun
    rwa [htotal, Int.zero_add] at hsum
  refine ⟨fun h => (hiff h.1).mpr h.2, fun halg hlist hchosen hkeep hok => ?_⟩
  obtain ⟨-, hnear⟩ := (hkeep.and hok).backward
    (fun _ _ _ hs ht => Handshake.step hs (step_cases ht))
    (fun _ _ _ hs ht hok hstep => ht.before halg hs hok.1 hok.2 (step_cases hstep))
    hshake (close_of_served hlist hchosen) hrun
  exact ⟨hnear, (hiff hnear).mp hok⟩

theorem no_overflow_iff_near_small : ∃ s : State 1 (Int → Nat) (Ptr → Nat),
    run (step sstfConfig) (smallDisk 1)
      (callAlone 0 .read 3 64 16 ++ callAlone 0 .write 1 64 16) = some s ∧
    Along (step sstfConfig) (NoOverflow sstfConfig) (smallDisk 1)
      (callAlone 0 .read 3 64 16 ++ callAlone 0 .write 1 64 16) ∧
    Along (step sstfConfig) NearCall (smallDisk 1)
      (callAlone 0 .read 3 64 16 ++ callAlone 0 .write 1 64 16) := by
  have hrun : (run (step sstfConfig) (smallDisk 1)
      (callAlone 0 .read 3 64 16 ++ callAlone 0 .write 1 64 16)).map
        (fun s => (s.list, s.disk.chosen)) = some ([], none) := by decide
  obtain ⟨s, hs, hpair⟩ := Option.map_eq_some_iff.mp hrun
  obtain ⟨hlist, hchosen⟩ := Prod.mk.inj hpair
  obtain ⟨henough, hneeded⟩ := no_overflow_iff_near rfl hs
  have hok := henough ⟨by decide, by decide⟩
  exact ⟨s, hs, hok, (hneeded rfl hlist hchosen (by decide) hok).1⟩

/-- The `abs` of the block `INT_MIN` is no `int`. -/
theorem distance_overflows :
    ¬∀ (as : List (Action 1 (Ptr → Nat))) (s : State 1 (Int → Nat) (Ptr → Nat)),
      Along (step sstfConfig) (fun _ a => a.IntBlock) (smallDisk 1) as →
      run (step sstfConfig) (smallDisk 1) as = some s →
        Along (step sstfConfig) (NoOverflow sstfConfig) (smallDisk 1) as := by
  intro hall
  have hrun : (run (step sstfConfig) (smallDisk 1)
      ((callAlone 0 .read (-2147483648) 64 16).take 7)).isSome := by decide
  obtain ⟨s, hs⟩ := Option.isSome_iff_exists.mp hrun
  exact absurd (hall _ s (by decide) hs) (by decide)

end PingPong
