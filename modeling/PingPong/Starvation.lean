import PingPong.DispatchOrder

/-! The policies that go by distance let a request wait for ever. Two clients that
keep asking for the block under the head pass by a request for a block further on,
one of theirs whose own call has returned long ago; each of them makes one call
after the other, and there is always a nearer request when the disk task chooses. -/

namespace PingPong

open Runs

variable {φ μ : Type} {cfg : Config φ μ}

/-- The request at `p` is the only one in the list, at some distance from the head, and
client `c` is about to take `mRequest` for a call that has already been served. -/
structure Parked (numblocks : Int) (p : Ptr) (r : Request) (c d : Fin 2) (s : State 2 φ μ) :
    Prop where
  locks : ∃ x, s.clients c = .lockRequest x ∧ x.task = c
  outside : s.clients d = .outside
  free : s.mRequest = none
  posted : s.newReqsSem = 0
  treated : s.treatedReqSem = 0
  disk : s.disk = .whileInit
  init : s.mgr.init = true
  head : s.mgr.iCurrBlock = 0
  idle : s.dev.status = .idle
  size : s.dev.numblocks = numblocks
  list : s.list = [p]
  far : s.heap p = r
  ahead : 0 < r.block ∧ r.block < numblocks ∧ r.block ≤ intMax

/-- One call of `d` for the block under the head, and the rest of a call of `c`. -/
def passBy (c d : Fin 2) (addr : Ptr) : List (Action 2 μ) :=
  [.call d .read 0 64 addr, .client c, .client c] ++ ((List.replicate 11 .disk ++ [.fire]) ++
    [.client c, .client c, .client c])

theorem schedChoice_near {ia : IntArith} {alg : DiskAlgorithm} (halg : alg ≠ .fcfs)
    {block : Ptr → Int} {p a : Ptr} (hp : 0 < block p) (hfar : ia.sub (block p) 0 = block p)
    (hnear : ia.sub (block a) 0 = 0) (habs : ia.abs (block p) = block p) (hzero : ia.abs 0 = 0) :
    schedChoice ia block 0 alg [p, a] = some a := by
  cases alg with
  | fcfs => exact absurd rfl halg
  | sstf => simp [schedChoice, sstfSched, sstfLoop, seekDist, hfar, hnear, habs, hzero, hp]
  | cscan => simp [schedChoice, cscanSched, cscanLoop, iBlockDist, hfar, hnear, hp, hp.le]

theorem wrap32_near {b : Int} (hlo : 0 ≤ b) (hhi : b ≤ intMax) :
    IntArith.wrap32.sub b 0 = b ∧ IntArith.wrap32.abs b = b := by
  have hfits : wrapInt b = b := by
    apply wrapInt_of_fits _ hhi
    unfold intMax
    omega
  exact ⟨by simp only [IntArith.wrap32, Int.sub_zero, hfits],
    by simp only [IntArith.wrap32, Int.natAbs_of_nonneg hlo, hfits]⟩

theorem run_step {s t u : State 2 φ μ} {a : Action 2 μ} {as : List (Action 2 μ)}
    (h : Step cfg s a t) (hrest : run (PingPong.step cfg) t as = some u) :
    run (PingPong.step cfg) s (a :: as) = some u :=
  run_cons.mpr ⟨t, h.enabled, hrest⟩

/-- `d` enqueues a request for the block under the head, and `c` posts. -/
theorem Parked.posts (cfg : Config φ μ) {numblocks : Int} {p addr : Ptr} {r : Request} {c d : Fin 2}
    {s : State 2 φ μ} (hs : Parked numblocks p r c d s) (hne : d ≠ c) (hnull : addr ≠ 0)
    (haddr : addr ≠ p) :
    ∃ t x y, run (PingPong.step cfg) s [.call d .read 0 64 addr, .client c, .client c] = some t ∧
      s.clients c = .lockRequest x ∧ t.clients c = .downTreated x ∧
      t.clients d = .lockRequest y ∧ t.newReqsSem = 1 ∧ t.list = [p, addr] ∧ t.heap p = r ∧
      t.heap addr = y ∧ x.task = c ∧ y.task = d ∧ y.block = 0 ∧ y.buffer = 64 ∧
      t.treatedReqSem = 0 ∧ t.mgr = s.mgr ∧ t.dev = s.dev ∧ t.disk = s.disk ∧
      dispatchedOf t.hist = dispatchedOf s.hist ∧ commandsOf t.hist = commandsOf s.hist ∧
      returnedOf t.hist = returnedOf s.hist := by
  obtain ⟨x, hx, htask⟩ := hs.locks
  have hin : addr ∉ s.list := by simp [hs.list, haddr]
  let y : Request := ⟨s.nextId, d, 0, 64, .read, s.systemTime⟩
  refine ⟨_, x, y, run_step (.call rfl hs.outside hnull hin) (run_step (.lock (r := x) ?_ hs.free)
    (run_step (.upNew (r := x) ?_) rfl)), ?_⟩
  · show Function.update s.clients d _ c = _
    rw [Function.update_of_ne hne.symm, hx]
  · exact Function.update_self ..
  · refine ⟨hx, by simp, by simp [hne, y], by simp [hs.posted], by simp [hs.list], ?_, by simp [y],
      htask, rfl, rfl, rfl, hs.treated, rfl, rfl, rfl, rfl, rfl, rfl⟩
    show Function.update s.heap addr _ p = r
    rw [Function.update_of_ne haddr.symm, hs.far]

theorem serves_near (hia : cfg.ia = .wrap32) (halg : cfg.alg ≠ .fcfs) {p addr : Ptr}
    {s : State 2 φ μ} (haddr : addr ≠ p) (hdisk : s.disk = .whileInit)
    (hinit : s.mgr.init = true) (hpost : s.newReqsSem = 1) (hlist : s.list = [p, addr])
    (hhead : s.mgr.iCurrBlock = 0) (hidle : s.dev.status = .idle)
    (hfar : 0 < (s.heap p).block ∧ (s.heap p).block ≤ intMax) (hnear : (s.heap addr).block = 0)
    (hacc : Accepts s.dev.numblocks 0 (s.heap addr).buffer) :
    ∃ t, run (PingPong.step cfg) s (List.replicate 11 .disk ++ [.fire]) = some t ∧
      t.disk = .whileInit ∧ t.mgr.init = true ∧ t.mgr.iCurrBlock = 0 ∧ t.newReqsSem = 0 ∧
      t.treatedReqSem = s.treatedReqSem + 1 ∧ t.list = [p] ∧ t.heap = s.heap ∧
      t.clients = s.clients ∧ t.dev.status = .idle ∧ t.dev.numblocks = s.dev.numblocks ∧
      dispatchedOf t.hist = s.heap addr :: dispatchedOf s.hist ∧
      commandsOf t.hist = (s.heap addr).transfer :: commandsOf s.hist ∧
      returnedOf t.hist = returnedOf s.hist := by
  have hchoice : schedChoice cfg.ia (fun q => (s.heap q).block) s.mgr.iCurrBlock cfg.alg s.list =
      some addr := by
    obtain ⟨hsub, habs⟩ := wrap32_near hfar.1.le hfar.2
    obtain ⟨hsub0, habs0⟩ := wrap32_near (Int.le_refl 0) (by decide)
    rw [hia, hhead, hlist]
    exact schedChoice_near halg hfar.1 hsub (hnear ▸ hsub0) habs habs0
  have hne : s.list ≠ [] := by simp [hlist]
  have hone : 0 < s.newReqsSem := by omega
  refine ⟨_, run_step (.enterLoop hdisk hinit) (run_step (.downNew rfl hone)
    (run_step (.nonempty rfl hne) (run_step (.choose rfl hchoice) (run_step (.remove rfl)
    (run_step (.isIdle rfl hidle) (run_step (.setStart rfl) (run_step (.account rfl)
    (run_step (.setCurrBlock rfl) (run_step (.setBuffer rfl) (run_step (.accept rfl hidle ?_)
    (run_step (.fire rfl rfl) rfl))))))))))), rfl, hinit, hnear, ?_, rfl, ?_, rfl, rfl, rfl, rfl,
    rfl, rfl, rfl⟩
  · show Accepts s.dev.numblocks (s.heap addr).block (s.heap addr).buffer
    rw [hnear]
    exact hacc
  · show s.newReqsSem - 1 = 0
    omega
  · show s.list.erase addr = [p]
    simp [hlist, haddr.symm]

theorem wakes (cfg : Config φ μ) {c : Fin 2} {x : Request} {s : State 2 φ μ}
    (hc : s.clients c = .downTreated x) (htreated : s.treatedReqSem = 1) :
    ∃ t, run (PingPong.step cfg) s [.client c, .client c, .client c] = some t ∧
      t.clients = Function.update s.clients c .outside ∧ t.mRequest = none ∧
      t.treatedReqSem = 0 ∧ t.newReqsSem = s.newReqsSem ∧ t.disk = s.disk ∧ t.mgr = s.mgr ∧
      t.dev = s.dev ∧ t.list = s.list ∧ t.heap = s.heap ∧
      dispatchedOf t.hist = dispatchedOf s.hist ∧ commandsOf t.hist = commandsOf s.hist ∧
      returnedOf t.hist = x :: returnedOf s.hist := by
  have hone : 0 < s.treatedReqSem := by omega
  refine ⟨_, run_step (.downTreated hc hone) (run_step (.unlock (r := x) ?_)
    (run_step (.ret (r := x) ?_) rfl)), ?_, rfl, ?_, rfl, rfl, rfl, rfl, rfl, rfl, rfl, rfl,
    rfl⟩
  · exact Function.update_self ..
  · exact Function.update_self ..
  · show Function.update (Function.update (Function.update s.clients c _) c _) c _ = _
    rw [Function.update_idem, Function.update_idem]
  · show s.treatedReqSem - 1 = 0
    omega

theorem Parked.passed (hia : cfg.ia = .wrap32) (halg : cfg.alg ≠ .fcfs) {numblocks : Int}
    {p addr : Ptr} {r : Request} {c d : Fin 2} {s : State 2 φ μ} (hs : Parked numblocks p r c d s)
    (hne : d ≠ c) (hnull : addr ≠ 0) (haddr : addr ≠ p) :
    ∃ t x y, run (PingPong.step cfg) s (passBy c d addr) = some t ∧
      Parked numblocks p r d c t ∧ s.clients c = .lockRequest x ∧ x.task = c ∧
      dispatchedOf t.hist = y :: dispatchedOf s.hist ∧
      commandsOf t.hist = y.transfer :: commandsOf s.hist ∧
      returnedOf t.hist = x :: returnedOf s.hist := by
  obtain ⟨t, x, y, hposts, hx, hc, hd, hnew, hlist, hp, ha, htask, hytask, hblock, hbuffer,
    htreated, hmgr, hdev, hdisk, hdis, hcmd, hret⟩ := hs.posts cfg hne hnull haddr
  obtain ⟨hpos, hlt, hmax⟩ := hs.ahead
  have hacc : Accepts t.dev.numblocks 0 (t.heap addr).buffer := by
    rw [hdev, hs.size, ha, hbuffer]
    exact ⟨by decide, Int.le_refl 0, by omega⟩
  obtain ⟨u, hserves, hudisk, huinit, huhead, hunew, hutreated, hulist, huheap, huclients,
    huidle, husize, hudis, hucmd, huret⟩ := serves_near hia halg haddr (hdisk.trans hs.disk)
      (by rw [hmgr, hs.init]) hnew hlist (by rw [hmgr, hs.head]) (by rw [hdev, hs.idle])
      (hp ▸ ⟨hpos, hmax⟩) (by rw [ha, hblock]) hacc
  obtain ⟨v, hwakes, hvclients, hvfree, hvtreated, hvnew, hvdisk, hvmgr, hvdev, hvlist, hvheap,
    hvdis, hvcmd, hvret⟩ := wakes cfg (huclients ▸ hc) (by omega)
  refine ⟨v, x, y, ?_, ?_, hx, htask, ?_, ?_, ?_⟩
  · exact run_append.mpr ⟨t, hposts, run_append.mpr ⟨u, hserves, hwakes⟩⟩
  · refine ⟨⟨y, ?_, hytask⟩, ?_, hvfree, by omega, hvtreated, by rw [hvdisk, hudisk],
      by rw [hvmgr, huinit], by rw [hvmgr, huhead], by rw [hvdev, huidle], ?_,
      by rw [hvlist, hulist], by rw [hvheap, huheap, hp], hs.ahead⟩
    · rw [hvclients, Function.update_of_ne hne, huclients, hd]
    · rw [hvclients, Function.update_self]
    · rw [hvdev, husize, hdev, hs.size]
  · rw [hvdis, hudis, ha, hdis]
  · rw [hvcmd, hucmd, ha, hcmd]
  · rw [hvret, huret, hret]

/-- What has happened when each client has gone past the request `r` some times. -/
structure PassedBy (numblocks : Int) (p : Ptr) (r : Request) (k : Nat) (s : State 2 φ μ) :
    Prop where
  parked : Parked numblocks p r 0 1 s
  dispatched : (dispatchedOf s.hist).length = 2 * k
  commands : commandsOf s.hist = (dispatchedOf s.hist).map Request.transfer
  first : k = 0 → s.clients 0 = .lockRequest r
  returned : 0 < k → r ∈ returnedOf s.hist
  going : ∀ c : Fin 2, (returnedOf s.hist).countP (fun x => x.task = c.val) = k

theorem initial_passedBy (cfg : Config φ μ) {numblocks b : Int} (hb : 0 < b) (hlt : b < numblocks)
    (hmax : b ≤ intMax) (heap : Ptr → Request) (store : Store φ μ) :
    ∃ s, run (PingPong.step cfg) (initial numblocks heap store : State 2 φ μ)
      [.call 0 .read b 64 16] = some s ∧
      PassedBy numblocks 16 ⟨0, 0, b, 64, .read, 0⟩ 0 s := by
  refine ⟨_, run_step (.call rfl rfl (by decide) (by simp [initial])) rfl, ?_⟩
  have hparked (t : State 2 φ μ) (hc : t.clients 0 = .lockRequest ⟨0, 0, b, 64, .read, 0⟩)
      (hd : t.clients 1 = .outside) (hfar : t.heap 16 = ⟨0, 0, b, 64, .read, 0⟩)
      (hlist : t.list = [16]) (hmgr : t.mgr = Manager.start numblocks)
      (hdev : t.dev = Device.start (numblocks * diskBlockSize).toNat numblocks)
      (hrest : t.mRequest = none ∧ t.newReqsSem = 0 ∧ t.treatedReqSem = 0 ∧ t.disk = .whileInit) :
      Parked numblocks 16 ⟨0, 0, b, 64, .read, 0⟩ 0 1 t := by
    obtain ⟨hfree, hposted, htreated, hdisk⟩ := hrest
    exact ⟨⟨_, hc, rfl⟩, hd, hfree, hposted, htreated, hdisk, by rw [hmgr]; rfl, by rw [hmgr]; rfl,
      by rw [hdev]; rfl, by rw [hdev]; rfl, hlist, hfar, hb, hlt, hmax⟩
  refine ⟨hparked _ ?_ ?_ ?_ rfl rfl rfl ⟨rfl, rfl, rfl, rfl⟩, rfl, rfl, fun _ => ?_,
    fun h => absurd h (Nat.lt_irrefl 0), fun _ => rfl⟩
  · simp [initial]
  · simp [initial]
  · simp [initial]
  · simp [initial]

theorem PassedBy.succ (hia : cfg.ia = .wrap32) (halg : cfg.alg ≠ .fcfs) {numblocks : Int} {p : Ptr}
    {r : Request} {k : Nat} {s : State 2 φ μ} (hs : PassedBy numblocks p r k s) (hp : 32 ≠ p) :
    ∃ t, run (PingPong.step cfg) s (passBy 0 1 32 ++ passBy 1 0 32) = some t ∧
      PassedBy numblocks p r (k + 1) t := by
  obtain ⟨t, x, y, hrun, ht, hx, hxtask, htdis, htcmd, htret⟩ :=
    hs.parked.passed hia halg (by decide) (by decide) hp
  obtain ⟨u, x', y', hrun', hu, hx', hxtask', hudis, hucmd, huret⟩ :=
    ht.passed hia halg (by decide) (by decide) hp
  refine ⟨u, run_append.mpr ⟨t, hrun, hrun'⟩, hu, ?_, ?_,
    fun hk => absurd hk (Nat.succ_ne_zero k), fun _ => ?_, fun c => ?_⟩
  · rw [hudis, htdis, List.length_cons, List.length_cons, hs.dispatched]
    omega
  · rw [hudis, htdis, hucmd, htcmd, hs.commands]
    rfl
  · rw [huret, htret]
    by_cases hk : k = 0
    · have hr := hs.first hk
      rw [hx] at hr
      cases hr
      simp
    · have hmem := hs.returned (Nat.pos_of_ne_zero hk)
      exact List.mem_cons_of_mem _ (List.mem_cons_of_mem _ hmem)
  · have hgoing := hs.going c
    rw [huret, htret, List.countP_cons, List.countP_cons, hgoing, hxtask, hxtask']
    rcases Fin.exists_fin_two.mp ⟨c, rfl⟩ with rfl | rfl <;> simp

theorem exists_passedBy (hia : cfg.ia = .wrap32) (halg : cfg.alg ≠ .fcfs) {numblocks b : Int}
    (hb : 0 < b) (hlt : b < numblocks) (hmax : b ≤ intMax) (heap : Ptr → Request)
    (store : Store φ μ) (k : Nat) :
    ∃ as s, (∀ a ∈ as, ValidCall numblocks a) ∧
      run (PingPong.step cfg) (initial numblocks heap store : State 2 φ μ) as = some s ∧
      PassedBy numblocks 16 ⟨0, 0, b, 64, .read, 0⟩ k s := by
  induction k with
  | zero =>
    obtain ⟨s, hrun, hs⟩ := initial_passedBy cfg hb hlt hmax heap store
    refine ⟨_, s, fun a ha => ?_, hrun, hs⟩
    rw [List.mem_singleton.mp ha]
    exact ⟨by decide, hb.le, hlt⟩
  | succ k ih =>
    obtain ⟨as, s, hvalid, hrun, hs⟩ := ih
    obtain ⟨t, hrest, ht⟩ := hs.succ hia halg (by decide)
    refine ⟨as ++ (passBy 0 1 32 ++ passBy 1 0 32), t, fun a ha => ?_,
      run_append.mpr ⟨s, hrun, hrest⟩, ht⟩
    rcases List.mem_append.mp ha with ha | ha
    · exact hvalid a ha
    · have hnear : Accepts numblocks 0 64 := ⟨by decide, Int.le_refl 0, by omega⟩
      cases a with
      | call c cmd block buffer addr =>
        simp only [passBy, List.mem_append, List.mem_cons, List.mem_replicate] at ha
        simp only [Action.call.injEq, reduceCtorEq, and_false, or_false,
          List.not_mem_nil] at ha
        rcases ha with ⟨-, -, rfl, rfl, -⟩ | ⟨-, -, rfl, rfl, -⟩
        · exact hnear
        · exact hnear
      | client | store | disk | fire | tick => trivial

/-- Under the two policies that go by distance, a request can be passed by any number of
later ones, while both clients make one valid call after the other and its own call is long
over. -/
theorem seek_policies_starve (hia : cfg.ia = .wrap32) (halg : cfg.alg ≠ .fcfs) {numblocks b : Int}
    (hb : 0 < b) (hlt : b < numblocks) (hmax : b ≤ intMax) (heap : Ptr → Request)
    (store : Store φ μ) (k : Nat) :
    ∃ as s r, (∀ a ∈ as, ValidCall numblocks a) ∧
      run (PingPong.step cfg) (initial numblocks heap store : State 2 φ μ) as = some s ∧
      r.block = b ∧ r ∈ enqueuedOf s.hist ∧ r ∉ dispatchedOf s.hist ∧ s.list.map s.heap = [r] ∧
      (dispatchedOf s.hist).length = 2 * k ∧ (∀ x ∈ dispatchedOf s.hist, r.id < x.id) ∧
      commandsOf s.hist = (dispatchedOf s.hist).map Request.transfer ∧
      (0 < k → r ∈ returnedOf s.hist) ∧
      ∀ c : Fin 2, (returnedOf s.hist).countP (fun x => x.task = c.val) = k := by
  obtain ⟨as, s, hvalid, hrun, hs⟩ := exists_passedBy hia halg hb hlt hmax heap store k
  have hcons := run_conserved hrun
  have hlist : s.list.map s.heap = [⟨0, 0, b, 64, .read, 0⟩] := by
    rw [hs.parked.list, List.map_singleton, hs.parked.far]
  have hids (x : Request) (hx : x ∈ dispatchedOf s.hist) : x.id ≠ 0 := by
    have hnd := hcons.nodup
    rw [hlist, hcons.removed, List.map_append] at hnd
    have hdis := (List.nodup_append.mp hnd).2.2
    exact hdis _ (List.mem_map_of_mem (List.mem_append_right _ hx)) 0 (List.mem_cons_self ..)
  refine ⟨as, s, ⟨0, 0, b, 64, .read, 0⟩, hvalid, hrun, rfl, ?_, fun hmem => hids _ hmem rfl,
    hlist, hs.dispatched, fun x hx => Nat.pos_of_ne_zero (hids x hx), hs.commands, hs.returned,
    hs.going⟩
  apply hcons.perm.subset
  rw [hlist]
  simp

theorem seek_policies_starve_small : ∃ (as : List (Action 2 (Ptr → Nat)))
    (s : State 2 (Int → Nat) (Ptr → Nat)) (r : Request),
    run (PingPong.step sstfConfig) (smallDisk 2) as = some s ∧ r ∈ enqueuedOf s.hist ∧
    r ∉ dispatchedOf s.hist ∧ (dispatchedOf s.hist).length = 2000 ∧
    ∀ x ∈ dispatchedOf s.hist, r.id < x.id := by
  obtain ⟨as, s, r, -, hrun, -, henq, hdis, -, hlen, hlater, -⟩ :=
    @seek_policies_starve _ _ sstfConfig rfl (by decide) 16 15 (by decide) (by decide) (by decide)
      (fun _ => ⟨0, 0, 0, 0, .read, 0⟩) ⟨fun b => b.toNat, fun _ => 0⟩ 1000
  exact ⟨as, s, r, hrun, henq, hdis, hlen, hlater⟩

end PingPong
