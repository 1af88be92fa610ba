import PingPong.Served
import PingPong.Travel

/-! A time without calls. The requests that are listed when it begins are dispatched as
the drain of that list dispatches them, however the clients, the disk task and the
device interleave, so what holds of the drain holds of the manager. -/

namespace PingPong

open Runs

variable {n : Nat} {φ μ : Type}

/-- No request is chosen, and none is on its way to `disk_cmd`. -/
def DiskPc.between : DiskPc → Bool
  | .whileInit | .downNewReqs | .checkEmpty | .choose | .upTreated _ | .exited => true
  | _ => false

def Action.NoCall : Action n μ → Prop
  | .call .. => False
  | _ => True

instance : (a : Action n μ) → Decidable a.NoCall
  | .call .. => isFalse id
  | .client _ | .store .. | .disk | .fire | .tick => isTrue trivial

def State.drainStart (s : State n φ μ) : Drain Ptr :=
  ⟨s.mgr.iCurrBlock, s.list, s.mgr.totalBlockAccess, []⟩

def State.drained (cfg : Config φ μ) (s : State n φ μ) (k : Nat) : Drain Ptr :=
  drain cfg.ia (fun p => (s.heap p).block) cfg.alg k s.drainStart

/-- The drain has served the request that is on its way, and the manager's numbers follow
at two of the statements of `diskScheduler`. -/
def DiskPc.Follows (ia : IntArith) (block : Ptr → Int) (mgr : Manager) (d : Drain Ptr) :
    DiskPc → Prop
  | .askStatus p _ | .setStart p _ | .account p _ =>
    d.iCurrBlock = block p ∧
      d.totalBlockAccess =
        ia.add mgr.totalBlockAccess (ia.abs (ia.sub (block p) mgr.iCurrBlock))
  | .setCurrBlock p _ _ => d.iCurrBlock = block p ∧ d.totalBlockAccess = mgr.totalBlockAccess
  | _ => d.iCurrBlock = mgr.iCurrBlock ∧ d.totalBlockAccess = mgr.totalBlockAccess

structure Draining (cfg : Config φ μ) (s t : State n φ μ) (d : Drain Ptr) : Prop where
  heap : t.heap = s.heap
  list : t.list = d.list
  removed : removedOf t.hist = (d.served.map s.heap).reverse ++ removedOf s.hist
  follows : t.disk.Follows cfg.ia (fun p => (s.heap p).block) t.mgr d
  chosen : ∀ p, t.disk = .remove p →
    schedChoice cfg.ia (fun p => (s.heap p).block) d.iCurrBlock cfg.alg d.list = some p

section Drain

variable {α : Type*} [DecidableEq α] {ia : IntArith} {block : α → Int} {alg : DiskAlgorithm}

theorem drain_none {k : Nat} {d : Drain α}
    (h : schedChoice ia block d.iCurrBlock alg d.list = none) : drain ia block alg k d = d := by
  cases k with
  | zero => rfl
  | succ k => simp only [drain, h]

theorem drain_add (j k : Nat) (d : Drain α) :
    drain ia block alg (j + k) d = drain ia block alg k (drain ia block alg j d) := by
  induction j generalizing d with
  | zero =>
    rw [Nat.zero_add]
    rfl
  | succ j ih =>
    cases hsched : schedChoice ia block d.iCurrBlock alg d.list with
    | none => rw [drain_none hsched, drain_none hsched, drain_none hsched]
    | some x => rw [Nat.succ_add, drain_succ hsched, drain_succ hsched, ih]

theorem drain_step {k : Nat} {d : Drain α} {x : α}
    (h : schedChoice ia block (drain ia block alg k d).iCurrBlock alg
      (drain ia block alg k d).list = some x) :
    drain ia block alg (k + 1) d = (drain ia block alg k d).serve ia block x := by
  rw [drain_add, drain_succ h]
  rfl

/-- All the drains that leave nothing are one. -/
theorem drain_empty {k : Nat} {d : Drain α} (h : (drain ia block alg k d).list = []) :
    drain ia block alg k d = drain ia block alg d.list.length d := by
  rcases Nat.le_total k d.list.length with hle | hle
  · obtain ⟨r, hr⟩ := Nat.exists_eq_add_of_le hle
    rw [hr, drain_add, drain_nil h]
  · obtain ⟨r, hr⟩ := Nat.exists_eq_add_of_le hle
    rw [hr, drain_add, drain_nil (drain_length alg (Nat.le_refl _))]

end Drain

variable {cfg : Config φ μ} {s t u : State n φ μ} {d : Drain Ptr}

theorem DiskPc.follows_between {k : DiskPc} (hk : k.between = true) (ia : IntArith)
    (block : Ptr → Int) (mgr : Manager) (d : Drain Ptr) :
    k.Follows ia block mgr d ↔
      d.iCurrBlock = mgr.iCurrBlock ∧ d.totalBlockAccess = mgr.totalBlockAccess := by
  cases k <;> first | exact Iff.rfl | cases hk

theorem draining_start (hs : s.disk.between = true) : Draining cfg s s s.drainStart where
  heap := rfl
  list := rfl
  removed := rfl
  follows := (DiskPc.follows_between hs _ _ _ _).mpr ⟨rfl, rfl⟩
  chosen p hp := by
    rw [hp] at hs
    cases hs

theorem Draining.frame (h : Draining cfg s t d) (hheap : u.heap = t.heap) (hlist : u.list = t.list)
    (hhist : removedOf u.hist = removedOf t.hist)
    (hfollows : u.disk.Follows cfg.ia (fun p => (s.heap p).block) u.mgr d)
    (hchosen : ∀ p, u.disk ≠ .remove p) : Draining cfg s u d where
  heap := hheap.trans h.heap
  list := hlist.trans h.list
  removed := hhist.trans h.removed
  follows := hfollows
  chosen p hp := absurd hp (hchosen p)

theorem Draining.step {k : Nat} {a : Action n μ} (hshake : Handshake t)
    (h : Draining cfg s t (s.drained cfg k)) (ha : a.NoCall) (hstep : Step cfg t a u) :
    ∃ k', Draining cfg s u (s.drained cfg k') := by
  have hfollows := h.follows
  have hheap := h.heap
  cases hstep with
  | call => exact absurd ha id
  | lock | upNew | downTreated | unlock | ret | store | tick =>
    exact ⟨k, h.heap, h.list, h.removed, h.follows, h.chosen⟩
  | fire =>
    refine ⟨k, h.heap, h.list, h.removed, ?_, h.chosen⟩
    cases hpc : t.disk <;> rw [hpc] at hfollows <;> exact hfollows
  | enterLoop hpc | leaveLoop hpc | downNew hpc | empty hpc | nonempty hpc | upTreated hpc
  | setBuffer hpc | accept hpc | refuse hpc =>
    rw [hpc] at hfollows
    exact ⟨k, h.frame rfl rfl rfl hfollows (by simp)⟩
  | @choose p hpc hsched =>
    rw [hpc] at hfollows
    refine ⟨k, h.heap, h.list, h.removed, hfollows, fun q hq => ?_⟩
    cases hq
    rw [← h.list, ← hheap, hfollows.1]
    exact hsched
  | @remove p hpc =>
    rw [hpc] at hfollows
    have hserve : s.drained cfg (k + 1) =
        (s.drained cfg k).serve cfg.ia (fun q => (s.heap q).block) p := drain_step (h.chosen p hpc)
    refine ⟨k + 1, h.heap, ?_, ?_, ?_, (by simp)⟩
    · rw [hserve]
      exact congrArg (·.erase p) h.list
    · show t.heap p :: removedOf t.hist = _
      rw [hserve, h.removed, hheap]
      simp [Drain.serve]
    · rw [hserve]
      refine ⟨rfl, ?_⟩
      rw [Drain.serve, hfollows.1, hfollows.2]
  | notIdle hpc hdev => exact absurd (hshake.idle (by rw [hpc]; rfl)) hdev
  | isIdle hpc | setStart hpc =>
    rw [hpc] at hfollows
    exact ⟨k, h.frame rfl rfl rfl hfollows (by simp)⟩
  | account hpc =>
    rw [hpc] at hfollows
    refine ⟨k, h.frame rfl rfl rfl ⟨hfollows.1, ?_⟩ (by simp)⟩
    rw [hheap]
    exact hfollows.2
  | setCurrBlock hpc =>
    rw [hpc] at hfollows
    refine ⟨k, h.frame rfl rfl rfl ⟨?_, hfollows.2⟩ (by simp)⟩
    rw [hheap]
    exact hfollows.1

theorem run_draining {bs : List (Action n μ)} (hshake : Handshake s)
    (hbetween : s.disk.between = true) (hquiet : ∀ a ∈ bs, a.NoCall)
    (hu : run (PingPong.step cfg) s bs = some u) : ∃ k, Draining cfg s u (s.drained cfg k) := by
  have hinv := run_invariant (P := fun t => Handshake t ∧ ∃ k, Draining cfg s t (s.drained cfg k))
    (fun t a v ht ha hv => by
      obtain ⟨k, hk⟩ := ht.2
      exact ⟨ht.1.step (step_cases hv), hk.step ht.1 ha (step_cases hv)⟩)
    ⟨hshake, 0, draining_start hbetween⟩ (along_of_forall_mem hquiet s) hu
  exact hinv.2

theorem Conserved.dispatched (h : Conserved s) (hbetween : s.disk.between = true) :
    removedOf s.hist = dispatchedOf s.hist := by
  have hnone : s.disk.inHand = none := by
    cases hpc : s.disk <;> rw [hpc] at hbetween <;> first | rfl | cases hbetween
  rw [h.removed, hnone]
  rfl

/-- What is passed to `disk_cmd` from a state between dispatches on, while no call is made:
no node can be overwritten, whatever the calls before have done. -/
theorem quiet_own {bs : List (Action n μ)} (hbetween : s.disk.between = true)
    (hquiet : ∀ a ∈ bs, a.NoCall) (hu : run (PingPong.step cfg) s bs = some u) :
    ∃ new, u.hist = new ++ s.hist ∧ ∀ e ∈ new, e.Own := by
  have hstart : Faithful { s with hist := [] } := by
    refine ⟨fun p hp => ?_, ?_, by simp⟩
    · cases hpc : s.disk <;> simp_all [DiskPc.between, DiskPc.freed]
    · cases hpc : s.disk <;> simp_all [DiskPc.between, DiskPc.Copied]
  have hinv := run_invariant
    (P := fun t => ∃ new, t.hist = new ++ s.hist ∧ Faithful { t with hist := new })
    (fun t a v ht ha hv => by
      obtain ⟨new, hnew, hfaith⟩ := ht
      obtain ⟨last, hlast, hstep⟩ := (step_cases hv).rehist new
      have hkeeps : KeepsDispatch { t with hist := new } a := by
        cases a with
        | call => exact absurd ha id
        | _ => trivial
      exact ⟨last ++ new, by rw [hlast, hnew, List.append_assoc], hfaith.step hkeeps hstep⟩)
    ⟨[], rfl, hstart⟩ (along_of_forall_mem hquiet s) hu
  obtain ⟨new, hnew, hfaith⟩ := hinv
  exact ⟨new, hnew, hfaith.own⟩

/-- While no call is made the manager dispatches the listed requests in the order of the
drain, and its numbers are those of the drain, in whatever arithmetic. Where that is
exact on the head and on the listed blocks, the head with `sstfSched` so moves over at
most three times the distance between its start and the blocks, and with a `cscanSched`
that keeps to the sweep at most twice. -/
theorem lull_drains {as bs : List (Action n μ)} {numblocks : Int} {heap : Ptr → Request}
    {store : Store φ μ}
    (hs : run (PingPong.step cfg) (initial numblocks heap store) as = some s)
    (hbetween : s.disk.between = true) (hquiet : ∀ a ∈ bs, a.NoCall)
    (hu : run (PingPong.step cfg) s bs = some u) (hend : u.disk.between = true) :
    ∃ d, (∃ k, d = s.drained cfg k) ∧ u.list = d.list ∧ u.mgr.iCurrBlock = d.iCurrBlock ∧
      u.mgr.totalBlockAccess = d.totalBlockAccess ∧
      dispatchedOf u.hist = (d.served.map s.heap).reverse ++ dispatchedOf s.hist ∧
      commandsOf u.hist = (d.served.map fun p => (s.heap p).transfer).reverse ++
        commandsOf s.hist ∧
      ∀ (norm : Int → Int) (S : Int → Prop) (start : Int), cfg.ia.ExactOn norm S →
        S s.mgr.iCurrBlock → (∀ p ∈ s.list, S (s.heap p).block) →
        s.mgr.totalBlockAccess = norm start →
        (cfg.alg = .sstf →
          ShortTour norm (fun p => (s.heap p).block) s.mgr.iCurrBlock start s.list d) ∧
        (cfg.alg = .cscan → u.list = [] →
          FrontOutlasts (fun p => (s.heap p).block) s.mgr.iCurrBlock s.list →
          d.served = circularSweep (fun p => (s.heap p).block) s.mgr.iCurrBlock s.list ∧
          ∃ gone, 0 ≤ gone ∧
            gone ≤ 2 * ((s.list.map fun p => (s.heap p).block).foldr max s.mgr.iCurrBlock -
              (s.list.map fun p => (s.heap p).block).foldr min s.mgr.iCurrBlock) ∧
            d.totalBlockAccess = norm (start + gone)) := by
  obtain ⟨k, hk⟩ := run_draining (run_handshake hs) hbetween hquiet hu
  obtain ⟨hcurr, htotal⟩ := (DiskPc.follows_between hend _ _ _ _).mp hk.follows
  have hdisp : dispatchedOf u.hist =
      ((s.drained cfg k).served.map s.heap).reverse ++ dispatchedOf s.hist := by
    have hremoved := hk.removed
    have hus : run (PingPong.step cfg) (initial numblocks heap store) (as ++ bs) = some u :=
      run_append.mpr ⟨s, hs, hu⟩
    rw [(run_conserved hs).dispatched hbetween, (run_conserved hus).dispatched hend] at hremoved
    exact hremoved
  refine ⟨_, ⟨k, rfl⟩, hk.list, hcurr.symm, htotal.symm, hdisp, ?_,
    fun norm S start hia hhead hblocks hstart => ?_⟩
  · obtain ⟨new, hnew, hown⟩ := quiet_own hbetween hquiet hu
    have hserved : dispatchedOf new = ((s.drained cfg k).served.map s.heap).reverse := by
      have hsplit : dispatchedOf new ++ dispatchedOf s.hist =
          ((s.drained cfg k).served.map s.heap).reverse ++ dispatchedOf s.hist := by
        rw [← hdisp, hnew]
        exact List.filterMap_append.symm
      exact List.append_cancel_right hsplit
    have hcommands : commandsOf u.hist = commandsOf new ++ commandsOf s.hist := by
      rw [hnew]
      exact List.filterMap_append
    rw [hcommands, commandsOf_eq hown, hserved, List.map_reverse, List.map_map]
    rfl
  have hdrain : s.drained cfg k = drain cfg.ia (fun p => (s.heap p).block) cfg.alg k
      ⟨s.mgr.iCurrBlock, s.list, norm start, []⟩ := by
    rw [State.drained, State.drainStart, hstart]
  refine ⟨fun halg => ?_, fun halg hnil hfront => ?_⟩
  · rw [hdrain, halg]
    obtain ⟨lo, hi, gap, gone, hd⟩ := (touring_start hhead).drain (k := k) hia hblocks
    exact hd.shortTour
  · rw [hk.list, hdrain, halg] at hnil
    rw [hdrain, halg, drain_empty hnil]
    exact drain_sweep_travel hia start hhead hblocks hfront

/-- Both calls of `crossedCalls` are made before the first dispatch. -/
theorem lull_drains_small : ∃ s u : State 2 (Int → Nat) (Ptr → Nat),
    run (PingPong.step sstfConfig) (smallDisk 2) ((crossedCalls 0 1 .read 5).take 2) = some s ∧
    run (PingPong.step sstfConfig) s ((crossedCalls 0 1 .read 5).drop 2) = some u ∧
    ∃ d : Drain Ptr, commandsOf u.hist =
        (d.served.map fun p => (s.heap p).transfer).reverse ++ commandsOf s.hist ∧
      ShortTour wrapInt (fun p => (s.heap p).block) 0 0 s.list d := by
  have hfirst : (run (PingPong.step sstfConfig) (smallDisk 2)
      ((crossedCalls 0 1 .read 5).take 2)).map (fun s => (s.disk.between, s.mgr.iCurrBlock,
        s.mgr.totalBlockAccess, s.list.map fun p => (s.heap p).block)) =
      some (true, 0, 0, [3, 5]) := by decide
  have hall : (run (PingPong.step sstfConfig) (smallDisk 2)
      ((crossedCalls 0 1 .read 5).take 2 ++ (crossedCalls 0 1 .read 5).drop 2)).map
        (fun s => s.disk.between) = some true := by decide
  obtain ⟨u, hrun, hend⟩ := Option.map_eq_some_iff.mp hall
  obtain ⟨s, hs, hu⟩ := run_append.mp hrun
  rw [hs, Option.map_some, Option.some.injEq] at hfirst
  obtain ⟨hbetween, hhead, htotal, hlist⟩ : s.disk.between = true ∧ s.mgr.iCurrBlock = 0 ∧
      s.mgr.totalBlockAccess = 0 ∧ (s.list.map fun p => (s.heap p).block) = [3, 5] := by
    simpa only [Prod.mk.injEq] using hfirst
  have hblocks : ∀ p ∈ s.list, 0 ≤ (s.heap p).block ∧ (s.heap p).block ≤ intMax := by
    have hall : ∀ b ∈ s.list.map fun p => (s.heap p).block, (0 : Int) ≤ b ∧ b ≤ intMax := by
      rw [hlist]
      decide
    exact fun p hp => hall _ (List.mem_map_of_mem hp)
  obtain ⟨d, -, -, -, -, -, hcommands, htravel⟩ := lull_drains hs hbetween (by decide) hu hend
  obtain ⟨hshort, -⟩ := htravel wrapInt _ 0 wrap32_exactOn (by rw [hhead]; decide) hblocks
    (htotal.trans (by decide : (0 : Int) = wrapInt 0))
  exact ⟨s, u, hs, hu, d, hcommands, hhead ▸ hshort rfl⟩

end PingPong
