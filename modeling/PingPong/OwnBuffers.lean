import PingPong.Atomic
import PingPong.Shutdown
import PingPong.TaskBodies
import Mathlib.Data.Finset.Lattice.Fold

/-! Tasks that hold buffers of their own. A body that uses only what `malloc` has given to
its task keeps its hands off all buffers in flight, unless a call has returned before
its own transfer. -/

namespace PingPong

open Runs Deferred

variable {n : Nat} {σ : Type}

/-- The body uses only the buffers that `owns` gives to its local state, and only `malloc`
adds to them. -/
def UsesOwn (owns : σ → List Ptr) (body : Bodies n σ) : Prop :=
  ∀ c x, match body c x with
    | .call _ _ buffer y => buffer ∈ owns x ∧ owns y = owns x
    | .assign p _ y | .print p y => (∃ b ∈ owns x, InBuffer b p) ∧ owns y = owns x
    | .malloc y => ∀ addr, owns (y addr) = addr :: owns x
    | .silent y => (owns y).Sublist (owns x)
    | .finished => True

theorem UsesOwn.bufferAt_perform {owns : σ → List Ptr} {body : Bodies n σ}
    (h : UsesOwn owns body) (c : Fin n) (x : σ) {p : Ptr}
    (hp : ∀ q ∈ owns x, DisjointBuffers q p) (st : ByteStore) :
    bufferAt ((body c x).perform st).mem p = bufferAt st.mem p := by
  have hown := h c x
  cases hbody : body c x with
  | call cmd block buffer y =>
    rw [hbody] at hown
    exact bufferAt_transfer_other st cmd (hp buffer hown.1)
  | assign q v y =>
    rw [hbody] at hown
    obtain ⟨⟨b, hb, hin⟩, -⟩ := hown
    funext i
    have hne : p + i.val ≠ q := fun he => (hp b hb).not_inBuffer i (he ▸ hin)
    exact Function.update_of_ne hne _ _
  | print | malloc | silent | finished => rfl

/-- `malloc` returns memory that no task holds, a call that gets the node in dispatch writes
what is still to be read, and no call returns while its own request is in flight. -/
def KeepsApart (owns : σ → List Ptr) (body : Bodies n σ) (s : Tasks n σ) : TasksAction n → Prop
  | .own c addr =>
    match body c (s.locals c) with
    | .call cmd block buffer _ => KeepsDispatch s.sys (.call c cmd block buffer addr)
    | .malloc _ => addr ≠ 0 ∧ ∀ d, ∀ p ∈ owns (s.locals d), DisjointBuffers p addr
    | _ => True
  | .client c => ∀ r, s.sys.clients c = .returning r → r ∉ s.sys.inFlight
  | _ => True

structure Owned (owns : σ → List Ptr) (s : Tasks n σ) : Prop where
  apart : ∀ c d, c ≠ d → ∀ p ∈ owns (s.locals c), ∀ q ∈ owns (s.locals d), DisjointBuffers p q
  distinct : ∀ c, (owns (s.locals c)).Pairwise DisjointBuffers
  flight : ∀ x ∈ s.sys.inFlight, ∃ c, (s.sys.clients c).request = some x ∧
    x.buffer ∈ owns (s.locals c)

section Step

variable {cfg : Config (Int → UInt8) (Ptr → UInt8)} {numblocks : Int} {owns : σ → List Ptr}
  {body : Bodies n σ} {s t : Tasks n σ}

/-- The buffers in flight belong to the tasks that are in a call. -/
theorem Owned.apart_flight (hs : Owned owns s) {c : Fin n} (hout : s.sys.clients c = .outside)
    {x : Request} (hx : x ∈ s.sys.inFlight) {p : Ptr} (hp : p ∈ owns (s.locals c)) :
    DisjointBuffers x.buffer p := by
  obtain ⟨d, hd, hbuffer⟩ := hs.flight x hx
  refine hs.apart d c (fun he => ?_) x.buffer hbuffer p hp
  rw [he, hout] at hd
  cases hd

theorem Owned.handsOff (hs : Owned owns s) (huses : UsesOwn owns body) {c : Fin n} {addr : Ptr}
    (hvalid : ∀ cmd block buffer y, body c (s.locals c) = .call cmd block buffer y →
      Accepts numblocks block buffer) (hok : KeepsApart owns body s (.own c addr))
    (hout : s.sys.clients c = .outside) : HandsOff numblocks body s (.own c addr) := by
  have hown := huses c (s.locals c)
  rw [HandsOff]
  rw [KeepsApart] at hok
  cases hbody : body c (s.locals c) with
  | call cmd block buffer y =>
    rw [hbody] at hown hok
    refine ⟨hok, hvalid _ _ _ _ hbody, fun x hx => ?_⟩
    exact hs.apart_flight hout hx hown.1
  | assign p v y =>
    rw [hbody] at hown
    obtain ⟨⟨b, hb, hin⟩, -⟩ := hown
    exact fun x hx => hin.ne (hs.apart_flight hout hx hb).symm
  | print p y =>
    rw [hbody] at hown
    obtain ⟨⟨b, hb, hin⟩, -⟩ := hown
    exact fun x hx => hin.ne (hs.apart_flight hout hx hb).symm
  | malloc | silent | finished => trivial

theorem Step.call_request {s t : ByteState n} {c : Fin n} {cmd : TaskCmd} {block : Int}
    {buffer addr : Ptr} (h : Step cfg s (.call c cmd block buffer addr) t) :
    (t.clients c).request = some ⟨s.nextId, c, block, buffer, cmd, s.systemTime⟩ := by
  cases h with
  | call hr =>
    subst hr
    simp [ClientPc.request]

theorem Step.request_kept {s t : ByteState n} {a : Action n (Ptr → UInt8)} (h : Step cfg s a t)
    {d : Fin n} {r : Request} (hr : (s.clients d).request = some r)
    (hret : a = .client d → s.clients d ≠ .returning r) : (t.clients d).request = some r := by
  cases h with
  | @call c _ _ _ _ _ _ hpc =>
    have hne : d ≠ c := fun he => by
      rw [he, hpc] at hr
      cases hr
    exact (congrArg ClientPc.request (Function.update_of_ne hne ..)).trans hr
  | lock hpc | upNew hpc | downTreated hpc | unlock hpc =>
    refine Eq.trans ?_ hr
    exact request_update hpc (by rfl) d
  | @ret c _ hpc =>
    have hne : d ≠ c := fun he => by
      subst d
      rw [hpc] at hr
      cases hr
      exact hret rfl hpc
    exact (congrArg ClientPc.request (Function.update_of_ne hne ..)).trans hr
  | _ => exact hr

theorem Owned.moved (hs : Owned owns s) {c : Fin n} {x : σ} (hout : s.sys.clients c = .outside)
    (hlocals : t.locals = Function.update s.locals c x)
    (hclients : ∀ d r, (s.sys.clients d).request = some r → (t.sys.clients d).request = some r)
    (hnew : ∀ p ∈ owns x, p ∈ owns (s.locals c) ∨
      ∀ d, ∀ q ∈ owns (s.locals d), DisjointBuffers q p)
    (hdistinct : (owns x).Pairwise DisjointBuffers)
    (hflight : ∀ r ∈ t.sys.inFlight, r ∈ s.sys.inFlight ∨
      ((t.sys.clients c).request = some r ∧ r.buffer ∈ owns x)) : Owned owns t := by
  have hself : t.locals c = x := by rw [hlocals, Function.update_self]
  have hother (d : Fin n) (hd : d ≠ c) : t.locals d = s.locals d := by
    rw [hlocals, Function.update_of_ne hd]
  have hapart (d : Fin n) (hd : d ≠ c) (p : Ptr) (hp : p ∈ owns x) (q : Ptr)
      (hq : q ∈ owns (s.locals d)) : DisjointBuffers q p := by
    rcases hnew p hp with hold | hfresh
    · exact hs.apart d c hd q hq p hold
    · exact hfresh d q hq
  refine ⟨fun d e hne p hp q hq => ?_, fun d => ?_, fun r hr => ?_⟩
  · by_cases hd : d = c
    · subst d
      rw [hself] at hp
      rw [hother e hne.symm] at hq
      exact (hapart e hne.symm p hp q hq).symm
    · rw [hother d hd] at hp
      by_cases he : e = c
      · subst e
        rw [hself] at hq
        exact hapart d hd q hq p hp
      · rw [hother e he] at hq
        exact hs.apart d e hne p hp q hq
  · by_cases hd : d = c
    · subst d
      rwa [hself]
    · rw [hother d hd]
      exact hs.distinct d
  · rcases hflight r hr with hold | ⟨hreq, hbuffer⟩
    · obtain ⟨d, hd, hbuffer⟩ := hs.flight r hold
      have hne : d ≠ c := fun he => by
        rw [he, hout] at hd
        cases hd
      exact ⟨d, hclients d r hd, by rwa [hother d hne]⟩
    · exact ⟨c, hreq, by rwa [hself]⟩

theorem Owned.own_step (hs : Owned owns s) (hshake : Handshake s.sys) (huses : UsesOwn owns body)
    {c : Fin n} {addr : Ptr} (hok : KeepsApart owns body s (.own c addr))
    (h : tasksStep cfg body s (.own c addr) = some t) : Owned owns t := by
  obtain ⟨x, hrun, hout, hnext, hlocals, -⟩ := tasksStep_own h
  have hkept (hsub : (owns x).Sublist (owns (s.locals c)))
      (hclients : ∀ d r, (s.sys.clients d).request = some r →
        (t.sys.clients d).request = some r)
      (hflight : ∀ r ∈ t.sys.inFlight, r ∈ s.sys.inFlight ∨
        ((t.sys.clients c).request = some r ∧ r.buffer ∈ owns x)) : Owned owns t :=
    hs.moved hout hlocals hclients (fun p hp => .inl (hsub.subset hp))
      ((hs.distinct c).sublist hsub) hflight
  have hown := huses c (s.locals c)
  rw [KeepsApart] at hok
  rw [sysAction] at hrun
  cases hbody : body c (s.locals c) with
  | call cmd block buffer y =>
    rw [hbody] at hown hrun hnext
    cases hnext
    obtain ⟨v, hv, hend⟩ := run_cons.mp hrun
    obtain rfl : v = t.sys := Option.some.inj hend
    have hstep := step_cases hv
    refine hkept (hown.2 ▸ List.Sublist.refl _)
      (fun d r hr => hstep.request_kept hr (by simp)) fun r hr => ?_
    rcases hstep.inFlight hshake hr with hold | harrival
    · exact .inl hold
    · cases harrival
      exact .inr ⟨hstep.call_request, hown.2 ▸ hown.1⟩
  | assign p v y =>
    rw [hbody] at hown hrun hnext
    cases hnext
    obtain ⟨u, hu, hend⟩ := run_cons.mp hrun
    obtain rfl : u = t.sys := Option.some.inj hend
    have hstep := step_cases hu
    refine hkept (hown.2 ▸ List.Sublist.refl _)
      (fun d r hr => hstep.request_kept hr (by simp)) fun r hr => ?_
    rcases hstep.inFlight hshake hr with hold | harrival
    · exact .inl hold
    · cases harrival
  | print p y =>
    rw [hbody] at hown hrun hnext
    cases hnext
    have hsys : s.sys = t.sys := Option.some.inj hrun
    exact hkept (hown.2 ▸ List.Sublist.refl _) (fun d r hr => hsys ▸ hr)
      fun r hr => .inl (hsys ▸ hr)
  | malloc y =>
    rw [hbody] at hown hrun hnext hok
    cases hnext
    have hsys : s.sys = t.sys := Option.some.inj hrun
    refine hs.moved hout hlocals (fun d r hr => hsys ▸ hr) (fun p hp => ?_) ?_
      fun r hr => .inl (hsys ▸ hr)
    · rw [hown addr] at hp
      rcases List.mem_cons.mp hp with rfl | hold
      · exact .inr hok.2
      · exact .inl hold
    · rw [hown addr]
      exact List.pairwise_cons.mpr ⟨fun q hq => (hok.2 c q hq).symm, hs.distinct c⟩
  | silent y =>
    rw [hbody] at hown hrun hnext
    cases hnext
    have hsys : s.sys = t.sys := Option.some.inj hrun
    exact hkept hown (fun d r hr => hsys ▸ hr) fun r hr => .inl (hsys ▸ hr)
  | finished =>
    rw [hbody] at hnext
    cases hnext

theorem Owned.sys_step (hs : Owned owns s) (hshake : Handshake s.sys) {a : TasksAction n}
    (ha : a.own? = none) (hok : KeepsApart owns body s a) (h : tasksStep cfg body s a = some t) :
    Owned owns t := by
  have hsame {b : Action n (Ptr → UInt8)} (hstep : Step cfg s.sys b t.sys)
      (harrival : arrival s.sys b = none)
      (hret : ∀ d r, b = .client d → s.sys.clients d = .returning r → r ∉ s.sys.inFlight)
      (hlocals : t.locals = s.locals) : Owned owns t := by
    refine ⟨hlocals ▸ hs.apart, hlocals ▸ hs.distinct, fun r hr => ?_⟩
    rcases hstep.inFlight hshake hr with hold | hcall
    · obtain ⟨d, hd, hbuffer⟩ := hs.flight r hold
      exact ⟨d, hstep.request_kept hd fun hb hpc => hret d r hb hpc hold, hlocals ▸ hbuffer⟩
    · rw [harrival] at hcall
      cases hcall
  cases a with
  | own => cases ha
  | client c =>
    obtain ⟨hstep, hlocals, -⟩ := tasksStep_sys rfl rfl h
    refine hsame (step_cases hstep) rfl (fun d r hb hpc => ?_) hlocals
    cases hb
    exact hok r hpc
  | disk | fire | tick =>
    obtain ⟨hstep, hlocals, -⟩ := tasksStep_sys rfl rfl h
    exact hsame (step_cases hstep) rfl (fun d r hb => by cases hb) hlocals

end Step

/-- An invariant of the bodies on the store itself is one of the tasks on the manager: its
step may rely on the buffers of each task being its own. -/
theorem owned_invariant {cfg : Config (Int → UInt8) (Ptr → UInt8)}
    (hmd : cfg.md = byteMedium .wrap32) {numblocks : Int}
    (hfit : numblocks * diskBlockSize ≤ intMax) {owns : σ → List Ptr} {body : Bodies n σ}
    (huses : UsesOwn owns body) {P : Direct n σ → Prop}
    (hvalid : ∀ d c cmd block buffer y, P d → body c (d.locals c) = .call cmd block buffer y →
      Accepts numblocks block buffer)
    (hstep : ∀ s a d, Owned owns s → P s.direct → KeepsApart owns body s (.own a.1 a.2) →
      directStep body s.direct a = some d → P d)
    {heap : Ptr → Request} {store : ByteStore} {locals : Fin n → σ}
    (hempty : ∀ c, owns (locals c) = []) (hP : P ⟨store, locals, []⟩)
    {as : List (TasksAction n)} {s : Tasks n σ}
    (hok : Along (tasksStep cfg body) (KeepsApart owns body)
      ⟨initial numblocks heap store, locals, []⟩ as)
    (h : run (tasksStep cfg body) ⟨initial numblocks heap store, locals, []⟩ as = some s) :
    P s.direct ∧ ((∀ c, s.sys.clients c = .outside) → s.sys.settled = s.sys.store) := by
  have hstart : Owned owns (⟨initial numblocks heap store, locals, []⟩ : Tasks n σ) :=
    ⟨fun c d _ p hp => by simp [hempty c] at hp, fun c => by simp [hempty c],
      fun x hx => nomatch hx⟩
  have hnext (s : Tasks n σ) (a : TasksAction n) (t : Tasks n σ)
      (hs : Sequenced numblocks s.sys ∧ Owned owns s ∧ P s.direct)
      (hok : KeepsApart owns body s a) (ht : tasksStep cfg body s a = some t) :
      Sequenced numblocks t.sys ∧ Owned owns t ∧ P t.direct := by
    obtain ⟨hseq, howned, hPs⟩ := hs
    cases hown : a.own? with
    | none =>
      have hhands : HandsOff numblocks body s a := by
        cases a with
        | own => cases hown
        | _ => trivial
      obtain ⟨hseq', hdirect⟩ := hseq.tasks_step hmd hfit hhands ht
      rw [hown] at hdirect
      have hsame : s.direct = t.direct := Option.some.inj hdirect
      exact ⟨hseq', howned.sys_step hseq.handshake hown hok ht, hsame ▸ hPs⟩
    | some b =>
      obtain ⟨c, addr, rfl⟩ : ∃ c addr, a = .own c addr := by
        cases a with
        | own c addr => exact ⟨c, addr, rfl⟩
        | _ => cases hown
      obtain ⟨-, -, hout, -⟩ := tasksStep_own ht
      have hhands : HandsOff numblocks body s (.own c addr) :=
        howned.handsOff huses (fun _ _ _ _ hb => hvalid _ _ _ _ _ _ hPs hb) hok hout
      obtain ⟨hseq', hdirect⟩ := hseq.own_step hmd hfit hhands ht
      exact ⟨hseq', howned.own_step hseq.handshake huses hok ht,
        hstep s (c, addr) t.direct howned hPs hok hdirect⟩
  obtain ⟨hseq, -, hend⟩ :=
    run_invariant hnext ⟨initial_sequenced numblocks heap store, hstart, hP⟩ hok h
  exact ⟨hend, settled_outside hseq.handshake⟩

def Serial (s : ByteState n) : Prop :=
  ∀ c d, s.clients c ≠ .outside → s.clients d ≠ .outside → c = d

section Serial

variable {cfg : Config (Int → UInt8) (Ptr → UInt8)} {owns : σ → List Ptr} {body : Bodies n σ}
  {left : σ → Nat} {s t : Tasks n σ}

theorem Step.clients_other {s t : ByteState n} {a : Action n (Ptr → UInt8)} (h : Step cfg s a t)
    {d : Fin n} (hd : a.client? ≠ some d) : t.clients d = s.clients d := by
  cases h with
  | @call c => exact Function.update_of_ne (fun he => hd (congrArg some he.symm)) _ _
  | @lock c | @upNew c | @downTreated c | @unlock c | @ret c =>
    exact Function.update_of_ne (fun he => hd (congrArg some he.symm)) _ _
  | _ => rfl

theorem tasksStep_other {c : Fin n} {addr : Ptr} (h : tasksStep cfg body s (.own c addr) = some t)
    {d : Fin n} (hd : d ≠ c) : t.sys.clients d = s.sys.clients d := by
  obtain ⟨x, hrun, -⟩ := tasksStep_own h
  rw [sysAction] at hrun
  cases hbody : body c (s.locals c) with
  | call cmd block buffer y =>
    rw [hbody] at hrun
    obtain ⟨u, hu, hend⟩ := run_cons.mp hrun
    obtain rfl : u = t.sys := Option.some.inj hend
    exact (step_cases hu).clients_other fun he => hd (Option.some.inj he).symm
  | assign p v y =>
    rw [hbody] at hrun
    obtain ⟨u, hu, hend⟩ := run_cons.mp hrun
    obtain rfl : u = t.sys := Option.some.inj hend
    exact (step_cases hu).clients_other fun he => hd (Option.some.inj he).symm
  | _ =>
    rw [hbody] at hrun
    rw [Option.some.inj hrun]

/-- The request of a call that returns alone is not in flight any more. -/
theorem Serial.settled {s : ByteState n} (h : Serial s) (hs : Handshake s) {c : Fin n}
    {r : Request} (hc : s.clients c = .returning r) : s.inFlight = [] := by
  have hpc (d : Fin n) : s.clients d = .outside ∨ s.clients d = .returning r := by
    by_cases hd : s.clients d = .outside
    · exact .inl hd
    · obtain rfl : c = d := h c d (by simp [hc]) hd
      exact .inr hc
  refine inFlight_quiet hs (fun d => ?_) fun d => ?_
  · rcases hpc d with hd | hd <;> rw [hd] <;> rfl
  · rcases hpc d with hd | hd <;> rw [hd] <;> rfl

theorem exists_fresh (owns : σ → List Ptr) (s : Tasks n σ) : ∃ addr, addr ≠ 0 ∧ addr ∉ s.sys.list ∧
    ∀ d, ∀ p ∈ owns (s.locals d), DisjointBuffers p addr := by
  obtain ⟨m, hm⟩ : ∃ m : Nat, ∀ p ∈ s.sys.list.toFinset ∪
      Finset.univ.biUnion fun d => (owns (s.locals d)).toFinset, p ≤ m :=
    ⟨_, fun p hp => Finset.le_sup (f := id) hp⟩
  refine ⟨m + 64, Nat.succ_ne_zero _, fun hin => ?_, fun d p hp => ?_⟩
  · have hle := hm _ (Finset.mem_union_left _ (List.mem_toFinset.mpr hin))
    exact absurd hle (Nat.not_le.mpr (Nat.lt_add_of_pos_right (by decide)))
  · have hle := hm p (Finset.mem_union_right _
      (Finset.mem_biUnion.mpr ⟨d, Finset.mem_univ d, List.mem_toFinset.mpr hp⟩))
    exact .inl (Nat.add_le_add_right hle 64)

/-- The tasks can take turns: while one is in a call, the others wait. -/
theorem serial_move (hs : Running s.sys) (hserial : Serial s.sys) (h : ¬s.ended body) :
    ∃ a t, (KeepsApart owns body s a ∧ a.works = true) ∧ tasksStep cfg body s a = some t ∧
      Serial t.sys := by
  by_cases hin : ∃ c, s.sys.clients c ≠ .outside
  · obtain ⟨c, hc⟩ := hin
    obtain ⟨a, t, hworks, hown, ht⟩ : ∃ a t, a.works = true ∧ a.own? = none ∧
        tasksStep cfg body s a = some t := manager_moves hs hc
    have hsame {b : Action n (Ptr → UInt8)} (hstep : Step cfg s.sys b t.sys)
        (hb : ∀ d, b.client? = some d → s.sys.clients d ≠ .outside) : Serial t.sys := by
      intro d e hd he
      have hkept (i : Fin n) (hi : t.sys.clients i ≠ .outside) : s.sys.clients i ≠ .outside := by
        by_cases hne : b.client? = some i
        · exact hb i hne
        · rwa [hstep.clients_other hne] at hi
      exact hserial d e (hkept d hd) (hkept e he)
    refine ⟨a, t, ⟨?_, hworks⟩, ht, ?_⟩
    · cases a with
      | own => cases hown
      | client d =>
        intro r hr
        rw [hserial.settled hs.handshake hr]
        exact List.not_mem_nil
      | disk | fire | tick => trivial
    · cases a with
      | own => cases hown
      | client d =>
        obtain ⟨hstep, -, -⟩ := tasksStep_sys rfl rfl ht
        refine hsame (step_cases hstep) fun e he hout => ?_
        cases he
        simp [PingPong.step, clientStep, hout] at hstep
      | disk | fire | tick =>
        obtain ⟨hstep, -, -⟩ := tasksStep_sys rfl rfl ht
        exact hsame (step_cases hstep) fun e he => by cases he
  · push Not at hin
    obtain ⟨c, hc⟩ := not_forall.mp h
    obtain ⟨addr, hnull, hlist, hfresh⟩ := exists_fresh owns s
    obtain ⟨t, ht⟩ : ∃ t, tasksStep cfg body s (.own c addr) = some t :=
      own_moves (hin c) (fun he => hc ⟨hin c, he⟩) hnull hlist
    refine ⟨.own c addr, t, ⟨?_, rfl⟩, ht, ?_⟩
    · have hfreed := freed_outside hs.handshake hin
      rw [KeepsApart]
      cases body c (s.locals c) with
      | call cmd block buffer y =>
        intro he
        rw [hfreed] at he
        cases he
      | malloc y => exact ⟨hnull, hfresh⟩
      | _ => trivial
    · intro d e hd he
      have hself (i : Fin n) (hi : t.sys.clients i ≠ .outside) : i = c := by
        by_contra hne
        exact hi ((tasksStep_other ht hne).trans (hin i))
      rw [hself d hd, hself e he]

end Serial

/-- For every disk there is a run in which no call returns before its own transfer, and
which ends. -/
theorem exists_apart_run {cfg : Config (Int → UInt8) (Ptr → UInt8)} (owns : σ → List Ptr)
    {body : Bodies n σ} {left : σ → Nat} (hleft : Bounded body left) (numblocks : Int)
    (heap : Ptr → Request) (store : ByteStore) (locals : Fin n → σ) :
    ∃ as s, run (tasksStep cfg body) ⟨initial numblocks heap store, locals, []⟩ as = some s ∧
      Along (tasksStep cfg body) (KeepsApart owns body)
        ⟨initial numblocks heap store, locals, []⟩ as ∧ s.ended body := by
  have hnext (s : Tasks n σ) (hs : Running s.sys ∧ Serial s.sys) (hend : ¬s.ended body) :
      ∃ a t, KeepsApart owns body s a ∧ tasksStep cfg body s a = some t ∧
        (Running t.sys ∧ Serial t.sys) ∧ t.work left < s.work left := by
    obtain ⟨a, t, ⟨hok, hworks⟩, ht, hserial⟩ : ∃ a t, (KeepsApart owns body s a ∧ a.works = true) ∧
        tasksStep cfg body s a = some t ∧ Serial t.sys := serial_move hs.1 hs.2 hend
    obtain ⟨hrunning, hwork⟩ := tasks_work_step hleft hs.1 ht
    rw [TasksAction.cost, if_pos hworks] at hwork
    exact ⟨a, t, hok, ht, ⟨hrunning, hserial⟩, hwork⟩
  have hstart : Running (initial numblocks heap store : ByteState n) ∧
      Serial (initial numblocks heap store : ByteState n) :=
    ⟨initial_running numblocks heap store, fun c d hc => absurd rfl hc⟩
  obtain ⟨as, s, hrun, hok, -, hend⟩ :=
    exists_run_to (s := ⟨initial numblocks heap store, locals, []⟩) hnext hstart
  exact ⟨as, s, hrun, hok, hend⟩

end PingPong
