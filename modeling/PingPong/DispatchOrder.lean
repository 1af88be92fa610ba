import PingPong.Served

/-! The order of the dispatches. Among the requests of a class from which the policy
always takes the oldest, the requests are dispatched in the order in which they were
enqueued. The requests for one block are such a class under every policy, and all
requests are one under first come, first served; there a request waits for no more
dispatches than there are clients. -/

namespace PingPong

open Runs

variable {n : Nat} {φ μ : Type}

/-- `p` is in `l`, and if its request is of the class `q`, none before it is. -/
def OldestOf (q : Request → Bool) (heap : Ptr → Request) (l : List Ptr) (p : Ptr) : Prop :=
  ∃ pre post, l = pre ++ p :: post ∧ (q (heap p) = true → ∀ y ∈ pre, q (heap y) = false)

structure KeepsOrder (q : Request → Bool) (s : State n φ μ) : Prop where
  order : ((s.list.map s.heap).reverse ++ removedOf s.hist).filter q =
    (enqueuedOf s.hist).filter q
  chosen : ∀ p, s.disk = .remove p → OldestOf q s.heap s.list p

theorem initial_keepsOrder (q : Request → Bool) (numblocks : Int) (heap : Ptr → Request)
    (store : Store φ μ) : KeepsOrder q (initial numblocks heap store : State n φ μ) where
  order := rfl
  chosen _ hp := nomatch hp

theorem OldestOf.append {q : Request → Bool} {heap : Ptr → Request} {l : List Ptr} {p addr : Ptr}
    (h : OldestOf q heap l p) (hp : p ∈ l) (hfresh : addr ∉ l) (r : Request) :
    OldestOf q (Function.update heap addr r) (l ++ [addr]) p := by
  obtain ⟨pre, post, rfl, hpre⟩ := h
  have hne (y : Ptr) (hy : y ∈ pre ++ p :: post) : y ≠ addr := fun he => hfresh (he ▸ hy)
  refine ⟨pre, post ++ [addr], by simp, fun hq y hy => ?_⟩
  rw [Function.update_of_ne (hne p hp)] at hq
  rw [Function.update_of_ne (hne y (List.mem_append_left _ hy))]
  exact hpre hq y hy

theorem filter_erase {q : Request → Bool} {heap : Ptr → Request} {l : List Ptr} {p : Ptr}
    (hnd : (l.map heap).Nodup) (h : OldestOf q heap l p) :
    (((l.erase p).map heap).reverse ++ [heap p]).filter q = ((l.map heap).reverse).filter q := by
  obtain ⟨pre, post, rfl, hpre⟩ := h
  have hnot : p ∉ pre := by
    intro hp
    rw [List.map_append, List.map_cons] at hnd
    have hdis := (List.nodup_append.mp hnd).2.2
    exact hdis _ (List.mem_map_of_mem hp) _ (List.mem_cons_self ..) rfl
  rw [List.erase_append_right _ hnot, List.erase_cons_head]
  simp only [List.map_append, List.map_cons, List.reverse_append, List.reverse_cons,
    List.filter_append, List.append_assoc]
  by_cases hq : q (heap p) = true
  · have hnone : (pre.map heap).reverse.filter q = [] := by
      apply List.filter_eq_nil_iff.mpr
      intro x hx
      obtain ⟨y, hy, rfl⟩ := List.mem_map.mp (List.mem_reverse.mp hx)
      simp [hpre hq y hy]
    rw [hnone, List.nil_append, List.append_nil]
  · have hnone : [heap p].filter q = [] := by simpa using hq
    rw [hnone, List.append_nil, List.nil_append]

theorem KeepsOrder.frame {q : Request → Bool} {s t : State n φ μ} (hs : KeepsOrder q s)
    (hlist : t.list = s.list) (hheap : t.heap = s.heap)
    (henq : enqueuedOf t.hist = enqueuedOf s.hist) (hrem : removedOf t.hist = removedOf s.hist)
    (hchosen : ∀ p, t.disk = .remove p → OldestOf q s.heap s.list p) : KeepsOrder q t where
  order := by
    rw [hlist, hheap, henq, hrem]
    exact hs.order
  chosen := by
    rw [hlist, hheap]
    exact hchosen

theorem KeepsOrder.step {q : Request → Bool} {cfg : Config φ μ} {s t : State n φ μ}
    {a : Action n μ}
    (hpolicy : ∀ p, schedChoice cfg.ia (fun p => (s.heap p).block) s.mgr.iCurrBlock cfg.alg s.list =
      some p → OldestOf q s.heap s.list p)
    (hshake : Handshake s) (hcons : Conserved s) (hs : KeepsOrder q s) (h : Step cfg s a t) :
    KeepsOrder q t := by
  cases h with
  | @call c cmd block buffer addr r hr hpc hnull hfresh =>
    refine ⟨?_, fun p hp => (hs.chosen p hp).append (hshake.chosen p hp) hfresh r⟩
    show (((s.list ++ [addr]).map (Function.update s.heap addr r)).reverse ++
      removedOf s.hist).filter q = (r :: enqueuedOf s.hist).filter q
    rw [List.map_append, map_heap_update r hfresh, List.map_singleton, Function.update_self,
      List.reverse_append, List.reverse_singleton, List.singleton_append, List.cons_append,
      List.filter_cons, List.filter_cons, hs.order]
  | lock | upNew | downTreated | unlock | ret | store | fire | tick =>
    exact hs.frame rfl rfl rfl rfl hs.chosen
  | enterLoop | leaveLoop | downNew | empty | nonempty | notIdle | isIdle | setStart | account
  | setCurrBlock | setBuffer | accept | refuse | upTreated =>
    exact hs.frame rfl rfl rfl rfl (by simp)
  | choose hpc hsched =>
    refine hs.frame rfl rfl rfl rfl fun p hp => ?_
    cases hp
    exact hpolicy _ hsched
  | @remove p hpc =>
    have hnd := hcons.nodup.of_map
    refine ⟨?_, by simp⟩
    show (((s.list.erase p).map s.heap).reverse ++ (s.heap p :: removedOf s.hist)).filter q = _
    rw [← List.singleton_append, ← List.append_assoc, List.filter_append,
      filter_erase (List.nodup_append.mp hnd).2.1 (hs.chosen p hpc), ← List.filter_append, hs.order]
    rfl

theorem run_keepsOrder {q : Request → Bool} {cfg : Config φ μ}
    (hpolicy : ∀ (heap : Ptr → Request) (l : List Ptr) (head : Int) (p : Ptr),
      schedChoice cfg.ia (fun p => (heap p).block) head cfg.alg l = some p → OldestOf q heap l p)
    {numblocks : Int} {heap : Ptr → Request} {store : Store φ μ} {as : List (Action n μ)}
    {s : State n φ μ} (h : run (PingPong.step cfg) (initial numblocks heap store) as = some s) :
    KeepsOrder q s := by
  have hinv := run_invariant (P := fun s => Handshake s ∧ Conserved s ∧ KeepsOrder q s)
    (fun s a t hs _ ht => ⟨hs.1.step (step_cases ht), hs.2.1.step hs.1 (step_cases ht),
      hs.2.2.step (hpolicy s.heap s.list s.mgr.iCurrBlock) hs.1 hs.2.1 (step_cases ht)⟩)
    ⟨initial_handshake numblocks heap store, initial_conserved numblocks heap store,
      initial_keepsOrder q numblocks heap store⟩ (along_trivial _ _ as) h
  exact hinv.2.2

/-- Every policy takes the oldest request for the block that it goes to. -/
theorem schedChoice_oldest (cfg : Config φ μ) (b : Int) (heap : Ptr → Request) (l : List Ptr)
    (head : Int) (p : Ptr)
    (h : schedChoice cfg.ia (fun p => (heap p).block) head cfg.alg l = some p) :
    OldestOf (fun r => r.block = b) heap l p := by
  obtain ⟨pre, post, hl, hpre⟩ := schedChoice_earliest h
  refine ⟨pre, post, hl, fun hq y hy => ?_⟩
  simp only [decide_eq_true_eq, decide_eq_false_iff_not] at hq ⊢
  exact hq ▸ hpre y hy

theorem fcfs_oldest {cfg : Config φ μ} (halg : cfg.alg = .fcfs) (heap : Ptr → Request)
    (l : List Ptr) (head : Int) (p : Ptr)
    (h : schedChoice cfg.ia (fun p => (heap p).block) head cfg.alg l = some p) :
    OldestOf (fun _ => true) heap l p := by
  rw [halg] at h
  cases l with
  | nil => exact nomatch h
  | cons x l =>
    obtain rfl : x = p := Option.some.inj h
    exact ⟨[], l, rfl, fun _ _ hy => nomatch hy⟩

/-- What has left the list and has not yet been passed to `disk_cmd` is one of the requests
that the clients wait for. -/
theorem Handshake.undispatched_le {s : State n φ μ} (hs : Handshake s) :
    s.list.length + s.disk.inHand.toList.length ≤ n := by
  have hhand : s.disk.taken.toNat + s.disk.inHand.toList.length ≤ s.disk.dispatching.toNat := by
    cases s.disk <;> simp [DiskPc.taken, DiskPc.dispatching, DiskPc.inHand]
  have hdis (pc : ClientPc) (hq : pc.queued = true) : pc.waiting = false := by
    cases pc <;> simp_all [ClientPc.queued, ClientPc.waiting]
  have hcount := countAt_add_le hdis s.clients
  have hbacklog := hs.backlog
  have htoken := hs.token
  rw [Fintype.card_fin] at hcount
  omega

/-- Newest first, in every run in which no call overwrites what is still to be read: for each
block, what has been passed to `disk_cmd` are the oldest of the requests enqueued, and under
first come, first served this holds of all requests together. There are never more
requests enqueued and not yet passed on than there are clients. -/
theorem dispatched_in_order {cfg : Config φ μ} {numblocks : Int} {heap : Ptr → Request}
    {store : Store φ μ} {as : List (Action n μ)} {s : State n φ μ}
    (hok : Along (PingPong.step cfg) KeepsDispatch (initial numblocks heap store) as)
    (h : run (PingPong.step cfg) (initial numblocks heap store) as = some s) :
    (∀ b, (commandsOf s.hist).filter (fun t => t.block = b) <:+
      ((enqueuedOf s.hist).map Request.transfer).filter fun t => t.block = b) ∧
    (cfg.alg = .fcfs → commandsOf s.hist <:+ (enqueuedOf s.hist).map Request.transfer) ∧
    (enqueuedOf s.hist).length ≤ (commandsOf s.hist).length + n := by
  have hcons := run_conserved h
  rw [commandsOf_eq (run_faithful hok h).own]
  refine ⟨fun b => ?_, fun halg => ?_, ?_⟩
  · have horder := (run_keepsOrder (schedChoice_oldest cfg b) h).order
    rw [hcons.removed, ← List.append_assoc, List.filter_append] at horder
    have holdest : (dispatchedOf s.hist).filter (fun r => r.block = b) <:+
        (enqueuedOf s.hist).filter fun r => r.block = b := ⟨_, horder⟩
    rw [List.filter_map, List.filter_map]
    exact holdest.map Request.transfer
  · have horder := (run_keepsOrder (fcfs_oldest halg) h).order
    rw [hcons.removed, ← List.append_assoc, List.filter_true, List.filter_true] at horder
    have holdest : dispatchedOf s.hist <:+ enqueuedOf s.hist := ⟨_, horder⟩
    exact holdest.map Request.transfer
  · have hlen := hcons.perm.length_eq
    rw [hcons.removed, List.length_append, List.length_append, List.length_map] at hlen
    have hle := (run_handshake h).undispatched_le
    rw [List.length_map]
    omega

theorem dispatched_in_order_small : ∃ s : State 2 (Int → Nat) (Ptr → Nat),
    run (PingPong.step sstfConfig) (smallDisk 2) (crossedCalls 0 1 .read 5) = some s ∧
    (commandsOf s.hist).filter (fun t => t.block = 3) <:+
      ((enqueuedOf s.hist).map Request.transfer).filter fun t => t.block = 3 := by
  obtain ⟨s, hs, -⟩ := crossedCalls_run
  exact ⟨s, hs, (dispatched_in_order (by decide) hs).1 3⟩

end PingPong
