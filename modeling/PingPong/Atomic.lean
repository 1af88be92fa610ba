import PingPong.CallOrder
import PingPong.SharedArray

/-! The manager as an array that its clients share. As long as no call returns while
its own request is in flight, each call takes effect at once when it is made: what a
read has in its buffer at its return is the block's content at its entry. Early
returns are all that stands between the manager and an atomic disk. -/

namespace PingPong

open Runs Deferred

variable {n : Nat}

/-- The buffer of a call is its own until it returns, and the call does not return before
its request is carried out. -/
def KeepsCalls (numblocks : Int) (s : ByteState n) : Action n (Ptr → UInt8) → Prop
  | .call _ _ block buffer _ =>
    Accepts numblocks block buffer ∧
      ∀ c, ∀ r ∈ (s.clients c).request, DisjointBuffers r.buffer buffer
  | .store _ mem =>
    ∀ c, ∀ r ∈ (s.clients c).request, bufferAt mem r.buffer = bufferAt s.store.mem r.buffer
  | .client c => ∀ r ∈ (s.clients c).request, s.clients c = .returning r → r ∉ s.inFlight
  | .disk | .fire | .tick => True

instance (numblocks : Int) (s : ByteState n) : (a : Action n (Ptr → UInt8)) →
    Decidable (KeepsCalls numblocks s a)
  | .call _ _ block buffer _ => inferInstanceAs (Decidable (Accepts numblocks block buffer ∧
      ∀ c, ∀ r ∈ (s.clients c).request, DisjointBuffers r.buffer buffer))
  | .store _ mem => inferInstanceAs (Decidable
      (∀ c, ∀ r ∈ (s.clients c).request, bufferAt mem r.buffer = bufferAt s.store.mem r.buffer))
  | .client c => inferInstanceAs (Decidable
      (∀ r ∈ (s.clients c).request, s.clients c = .returning r → r ∉ s.inFlight))
  | .disk | .fire | .tick => inferInstanceAs (Decidable True)

def inHands (st : ByteStore) (r : Request) : Option Block :=
  match r.cTaskAction with
  | .read => some (bufferAt st.mem r.buffer)
  | .write => none

def sharedLabel (s : ByteState n) :
    Action n (Ptr → UInt8) → Option (SharedArray.Label (Fin n) Int Block)
  | .call c cmd block buffer _ => some (.call c (taskOp cmd block (bufferAt s.store.mem buffer)))
  | .client c =>
    match s.clients c with
    | .returning r => some (.ret c (inHands s.store r))
    | _ => none
  | _ => none

abbrev SharedDisk (n : Nat) := SharedArray.State (Fin n) Int Block

/-- The settled store shows the array, and each client in a call will have its result. -/
structure Shares (numblocks : Int) (s : ByteState n) (a : SharedDisk n) : Prop where
  shows : Shows numblocks s.settled.file a.content
  result : ∀ c, a.result c = (s.clients c).request.map (inHands s.settled)
  owned : ∀ x ∈ s.inFlight, ∃ c, (s.clients c).request = some x
  apart : ∀ c, ∀ r ∈ (s.clients c).request, ∀ x ∈ s.inFlight, x ≠ r →
    DisjointBuffers x.buffer r.buffer

theorem inHands_congr {st st' : ByteStore} {r : Request}
    (h : bufferAt st.mem r.buffer = bufferAt st'.mem r.buffer) : inHands st r = inHands st' r := by
  unfold inHands
  cases r.cTaskAction with
  | read => exact congrArg some h
  | write => rfl

/-- What the settled store holds for a call whose request has been carried out is there. -/
theorem Shares.inHands_settled {numblocks : Int} {s : ByteState n} {a : SharedDisk n}
    (hs : Shares numblocks s a) {c : Fin n} {r : Request} (hr : (s.clients c).request = some r)
    (hdone : r ∉ s.inFlight) : inHands s.settled r = inHands s.store r := by
  apply inHands_congr
  apply bufferAt_applyAll
  intro x hx
  exact hs.apart c r hr x hx fun he => hdone (he ▸ hx)

theorem execute_shows {numblocks : Int} (hfit : numblocks * diskBlockSize ≤ intMax) {r : Request}
    (hacc : Accepts numblocks r.block r.buffer) {st : ByteStore} {a : Int → Block}
    (h : Shows numblocks st.file a) :
    Shows numblocks (execute r st).file
        (SharedArray.apply a (taskOp r.cTaskAction r.block (bufferAt st.mem r.buffer))) ∧
      inHands (execute r st) r =
        SharedArray.answer a (taskOp r.cTaskAction r.block (bufferAt st.mem r.buffer)) := by
  have heffect := effect_transfer hfit hacc h
  have hop := taskOp_transfer (byteMedium .wrap32) r diskBlockSize st
  rw [transfer_eq_execute hfit hacc] at heffect hop
  rw [← hop]
  unfold Effect at heffect
  unfold inHands
  cases hcmd : r.cTaskAction with
  | read =>
    rw [hcmd] at heffect
    exact ⟨heffect.1, congrArg some heffect.2⟩
  | write =>
    rw [hcmd] at heffect
    exact ⟨heffect, rfl⟩

section Step

variable {cfg : Config (Int → UInt8) (Ptr → UInt8)} {numblocks : Int} {s t : ByteState n}
  {x : SharedDisk n}

theorem inFlight_mem {r : Request} {l : List Request} (hr : r ∈ t.inFlight)
    (h : t.inFlight = l) : r ∈ l := h ▸ hr

theorem Step.inFlight {a : Action n (Ptr → UInt8)} (hshake : Handshake s) (h : Step cfg s a t)
    {r : Request} (hr : r ∈ t.inFlight) : r ∈ s.inFlight ∨ arrival s a = some (.call r) := by
  cases h with
  | call hr' hpc hnull hfresh =>
    subst hr'
    have hnew := inFlight_mem hr (inFlight_call hfresh rfl rfl rfl rfl rfl)
    rcases List.mem_append.mp hnew with hold | hlast
    · exact .inl hold
    · rw [List.mem_singleton.mp hlast]
      exact .inr rfl
  | lock | upNew | downTreated | unlock | ret | store | tick => exact .inl hr
  | enterLoop hpc | leaveLoop hpc | downNew hpc | empty hpc | nonempty hpc | choose hpc | isIdle hpc
  | setStart hpc | account hpc | setCurrBlock hpc | setBuffer hpc | upTreated hpc =>
    exact .inl (inFlight_mem hr (inFlight_congr rfl rfl (by rw [hpc]; rfl) rfl rfl))
  | notIdle hpc hdev => exact absurd (hshake.idle (by rw [hpc]; rfl)) hdev
  | @remove p hpc =>
    have hnew := inFlight_mem hr (inFlight_remove hshake hpc rfl rfl rfl rfl)
    rw [inFlight_chosen hshake hpc]
    refine .inl ?_
    rcases List.mem_cons.mp hnew with rfl | hin
    · exact List.mem_map_of_mem (hshake.chosen p hpc)
    · exact List.map_subset _ List.erase_subset hin
  | accept hpc =>
    exact .inl (inFlight_mem hr (inFlight_accept hshake hpc
      (Device.busy_iff.mpr (TaskCmd.busy_status _)) rfl rfl rfl rfl))
  | refuse hpc =>
    have hidle := (hshake.dispatching_alone (by rw [hpc]; rfl)).2.2.1
    simp only [State.inFlight, hidle, DiskPc.inHand] at hr ⊢
    exact .inl (List.mem_append_right _ (by simpa using hr))
  | fire htimer hdev =>
    have hbusy : s.dev.busy = true := hshake.timer ▸ htimer
    have hnew := inFlight_mem hr (inFlight_fire hshake hbusy rfl rfl rfl rfl)
    rw [inFlight_busy hshake hbusy]
    exact .inl (List.mem_cons_of_mem _ hnew)

/-- A call that keeps the buffers of the other calls keeps the buffers in flight. -/
theorem Shares.keepsBuffers (hs : Shares numblocks s x) {a : Action n (Ptr → UInt8)}
    (hok : KeepsCalls numblocks s a) : KeepsBuffers numblocks s a := by
  cases a with
  | call c cmd block buffer addr =>
    refine ⟨hok.1, fun y hy => ?_⟩
    obtain ⟨c', hc'⟩ := hs.owned y hy
    exact hok.2 c' y hc'
  | store c mem =>
    intro y hy
    obtain ⟨c', hc'⟩ := hs.owned y hy
    exact hok c' y hc'
  | client | disk | fire | tick => trivial

theorem Shares.frame (hs : Shares numblocks s x) (hflight : ∀ r ∈ t.inFlight, r ∈ s.inFlight)
    (hreq : ∀ c, (t.clients c).request = (s.clients c).request) (hsettled : t.settled = s.settled) :
    Shares numblocks t x where
  shows := by
    rw [hsettled]
    exact hs.shows
  result c := by
    rw [hreq, hsettled]
    exact hs.result c
  owned r hr := by
    obtain ⟨c, hc⟩ := hs.owned r (hflight r hr)
    exact ⟨c, by rw [hreq, hc]⟩
  apart c r hr y hy := hs.apart c r (hreq c ▸ hr) y (hflight y hy)

theorem request_update {clients : Fin n → ClientPc} {c : Fin n} {pc pc' : ClientPc}
    (hpc : clients c = pc) (h : pc'.request = pc.request) (i : Fin n) :
    (Function.update clients c pc' i).request = (clients i).request := by
  by_cases hi : i = c
  · subst i
    rw [Function.update_self, h, hpc]
  · rw [Function.update_of_ne hi]

theorem Shares.call (hfit : numblocks * diskBlockSize ≤ intMax) (hs : Shares numblocks s x)
    {c : Fin n} {r : Request} (hout : s.clients c = .outside)
    (hacc : Accepts numblocks r.block r.buffer)
    (hdis : ∀ c', ∀ r' ∈ (s.clients c').request, DisjointBuffers r'.buffer r.buffer)
    (hsettled : t.settled = execute r s.settled)
    (hflight : ∀ y ∈ t.inFlight, y ∈ s.inFlight ∨ y = r)
    (hclients : t.clients = Function.update s.clients c (.lockRequest r)) :
    ∃ y, SharedArray.Step x
        (.call c (taskOp r.cTaskAction r.block (bufferAt s.store.mem r.buffer))) y ∧
      Shares numblocks t y := by
  have hfree : x.result c = none := by rw [hs.result, hout]; rfl
  have hapart (y : Request) (hy : y ∈ s.inFlight) : DisjointBuffers y.buffer r.buffer := by
    obtain ⟨c', hc'⟩ := hs.owned y hy
    exact hdis c' y hc'
  have hdata : bufferAt s.settled.mem r.buffer = bufferAt s.store.mem r.buffer :=
    bufferAt_applyAll hapart s.store
  obtain ⟨hshows, hhands⟩ := execute_shows hfit hacc hs.shows
  rw [hdata] at hshows hhands
  have hself : (t.clients c).request = some r := by rw [hclients, Function.update_self]; rfl
  have hother (i : Fin n) (hi : i ≠ c) : t.clients i = s.clients i := by
    rw [hclients, Function.update_of_ne hi]
  refine ⟨_, .call hfree, ⟨hsettled ▸ hshows, fun i => ?_, fun y hy => ?_,
    fun i r' hr' y hy hne => ?_⟩⟩
  · by_cases hi : i = c
    · subst i
      simp only [hself, hsettled, Function.update_self, Option.map_some, hhands]
    · simp only [Function.update_of_ne hi, hother i hi, hs.result i, hsettled]
      cases hr' : (s.clients i).request with
      | none => rfl
      | some r' =>
        refine congrArg some (inHands_congr ?_)
        exact (bufferAt_execute (hdis i r' hr').symm s.settled).symm
  · rcases hflight y hy with hy | rfl
    · obtain ⟨c', hc'⟩ := hs.owned y hy
      have hne : c' ≠ c := fun he => by
        rw [he, hout] at hc'
        exact nomatch hc'
      exact ⟨c', by rw [hother c' hne, hc']⟩
    · exact ⟨c, hself⟩
  · by_cases hi : i = c
    · subst i
      obtain rfl : r = r' := Option.some.inj (hself.symm.trans hr')
      exact hapart y ((hflight y hy).resolve_right hne)
    · rw [hother i hi] at hr'
      rcases hflight y hy with hy | rfl
      · exact hs.apart i r' hr' y hy hne
      · exact (hdis i r' hr').symm

theorem Shares.ret (hs : Shares numblocks s x) {c : Fin n} {r : Request}
    (hpc : s.clients c = .returning r) (hdone : r ∉ s.inFlight)
    (hsettled : t.settled = s.settled)
    (hclients : t.clients = Function.update s.clients c .outside)
    (hflight : t.inFlight = s.inFlight) :
    ∃ y, SharedArray.Step x (.ret c (inHands s.store r)) y ∧ Shares numblocks t y := by
  have hreq : (s.clients c).request = some r := by rw [hpc]; rfl
  have hother (i : Fin n) (hi : i ≠ c) : t.clients i = s.clients i := by
    rw [hclients, Function.update_of_ne hi]
  have hself : (t.clients c).request = none := by rw [hclients, Function.update_self]; rfl
  have hresult : x.result c = some (inHands s.store r) := by
    rw [hs.result, hreq, Option.map_some, hs.inHands_settled hreq hdone]
  refine ⟨_, .ret hresult, ⟨hsettled ▸ hs.shows, fun i => ?_, fun y hy => ?_,
    fun i r' hr' y hy => ?_⟩⟩
  · by_cases hi : i = c
    · subst i
      simp only [hself, Function.update_self, Option.map_none]
    · simp only [Function.update_of_ne hi, hother i hi, hs.result i, hsettled]
  · rw [hflight] at hy
    obtain ⟨c', hc'⟩ := hs.owned y hy
    have hne : c' ≠ c := fun he => by
      rw [he, hreq] at hc'
      exact hdone (Option.some.inj hc' ▸ hy)
    exact ⟨c', by rw [hother c' hne, hc']⟩
  · have hne : i ≠ c := fun he => by
      rw [he, hself] at hr'
      exact nomatch hr'
    rw [hother i hne] at hr'
    exact hs.apart i r' hr' y (hflight ▸ hy)

theorem bufferAt_patch {mem mem' : Ptr → UInt8} {p : Ptr} (h : bufferAt mem' p = bufferAt mem p)
    (st : ByteStore) : bufferAt (st.patch (changes mem mem')).mem p = bufferAt st.mem p := by
  funext i
  have hi : mem' (p + i.val) = mem (p + i.val) := congrFun h i
  simp only [bufferAt, Store.patch, changes, if_pos hi, Option.getD_none]

theorem Shares.store (hs : Shares numblocks s x) {mem : Ptr → UInt8}
    (hkeep : ∀ c, ∀ r ∈ (s.clients c).request,
      bufferAt mem r.buffer = bufferAt s.store.mem r.buffer)
    (hsettled : t.settled = s.settled.patch (changes s.store.mem mem))
    (hclients : t.clients = s.clients) (hflight : t.inFlight = s.inFlight) :
    Shares numblocks t x := by
  refine ⟨?_, fun c => ?_, ?_, ?_⟩
  · rw [hsettled]
    exact hs.shows
  · rw [hs.result, hclients]
    cases hr : (s.clients c).request with
    | none => rfl
    | some r =>
      refine congrArg some (inHands_congr ?_)
      rw [hsettled]
      exact (bufferAt_patch (hkeep c r hr) s.settled).symm
  · rw [hflight, hclients]
    exact hs.owned
  · rw [hflight, hclients]
    exact hs.apart

theorem Shares.client (hshake : Handshake s) (hs : Shares numblocks s x) {c : Fin n}
    (hok : KeepsCalls numblocks s (.client c)) (h : Step cfg s (.client c) t)
    (hsettled : t.settled = s.settled) :
    ∃ y, Trace SharedArray.Step x (sharedLabel s (.client c)).toList y ∧ Shares numblocks t y := by
  have hsame (r : Request) (hr : r ∈ t.inFlight) : r ∈ s.inFlight := by
    rcases h.inFlight hshake hr with hr | hr
    · exact hr
    · exact nomatch hr
  cases h with
  | lock hpc | upNew hpc | downTreated hpc | unlock hpc =>
    refine ⟨x, ?_, hs.frame hsame (request_update hpc rfl) hsettled⟩
    simp only [sharedLabel, hpc]
    exact .nil
  | ret hpc =>
    have hdone := hok _ (by rw [hpc]; rfl) hpc
    obtain ⟨y, hstep, hy⟩ := hs.ret hpc hdone hsettled rfl rfl
    refine ⟨y, ?_, hy⟩
    simp only [sharedLabel, hpc]
    exact .single hstep

theorem Shares.step (hfit : numblocks * diskBlockSize ≤ intMax) (hshake : Handshake s)
    (hs : Shares numblocks s x) {a : Action n (Ptr → UInt8)} (hok : KeepsCalls numblocks s a)
    (h : Step cfg s a t) (hsettled : t.settled = (arrival s a).toList.foldl arrive s.settled) :
    ∃ y, Trace SharedArray.Step x (sharedLabel s a).toList y ∧ Shares numblocks t y := by
  have hflight (r : Request) (hr : r ∈ t.inFlight) := h.inFlight hshake hr
  cases a with
  | call c cmd block buffer addr =>
    have hnew (r : Request) (hr : r ∈ t.inFlight) :
        r ∈ s.inFlight ∨ r = ⟨s.nextId, c, block, buffer, cmd, s.systemTime⟩ := by
      rcases hflight r hr with hr | hr
      · exact .inl hr
      · cases hr
        exact .inr rfl
    cases h with
    | call hr hpc =>
      subst hr
      obtain ⟨y, hstep, hy⟩ := hs.call hfit hpc hok.1 hok.2 hsettled hnew rfl
      exact ⟨y, .single hstep, hy⟩
  | client c => exact hs.client hshake hok h hsettled
  | store c mem =>
    refine ⟨x, .nil, ?_⟩
    cases h with
    | store hpc => exact hs.store hok hsettled rfl rfl
  | disk | fire | tick =>
    have hsame (r : Request) (hr : r ∈ t.inFlight) : r ∈ s.inFlight := by
      rcases hflight r hr with hr | hr
      · exact hr
      · exact nomatch hr
    refine ⟨x, .nil, hs.frame hsame (fun c => ?_) hsettled⟩
    cases h <;> rfl

end Step

theorem initial_shares (numblocks : Int) (heap : Ptr → Request) (store : ByteStore) :
    Shares numblocks (initial numblocks heap store : ByteState n)
      ⟨blockAt store.file, fun _ => none⟩ where
  shows _ _ _ := rfl
  result _ := rfl
  owned _ hx := nomatch hx
  apart _ _ hr := nomatch hr

def Timely (numblocks : Int) (s : ByteState n) (a : Action n (Ptr → UInt8)) : Prop :=
  KeepsDispatch s a ∧ KeepsCalls numblocks s a

instance (numblocks : Int) (s : ByteState n) (a : Action n (Ptr → UInt8)) :
    Decidable (Timely numblocks s a) := inferInstanceAs (Decidable (_ ∧ _))

/-- In every run in which the clients leave the buffers of the others' calls alone and no
call returns while its own request is in flight, the calls and returns are those of an
array that the clients share, and the file shows the array when no client is in a call. -/
theorem calls_atomic {cfg : Config (Int → UInt8) (Ptr → UInt8)}
    (hmd : cfg.md = byteMedium .wrap32) {numblocks : Int}
    (hfit : numblocks * diskBlockSize ≤ intMax) {heap : Ptr → Request} {store : ByteStore}
    {as : List (Action n (Ptr → UInt8))} {s : ByteState n}
    (hok : Along (PingPong.step cfg) (Timely numblocks) (initial numblocks heap store) as)
    (h : run (PingPong.step cfg) (initial numblocks heap store) as = some s) :
    ∃ a, Trace SharedArray.Step ⟨blockAt store.file, fun _ => none⟩
        (traceOf (PingPong.step cfg) sharedLabel (initial numblocks heap store) as) a ∧
      ((∀ c, s.clients c = .outside) →
        Shows numblocks s.store.file a.content ∧ ∀ c, a.result c = none) := by
  obtain ⟨a, htrace, hseq, hshares⟩ := simulation
    (R := fun s x => Sequenced numblocks s ∧ Shares numblocks s x)
    (fun s a t x hs hok ht => by
      have hkeep := hs.2.keepsBuffers hok.2
      obtain ⟨hseq, hsettled⟩ := hs.1.step hmd hfit hok.1 hkeep (step_cases ht)
      obtain ⟨y, hy, hshares⟩ := hs.2.step hfit hs.1.handshake hok.2 (step_cases ht) hsettled
      exact ⟨y, hy, hseq, hshares⟩)
    ⟨initial_sequenced numblocks heap store, initial_shares numblocks heap store⟩ hok h
  refine ⟨a, htrace, fun hout => ?_⟩
  have hempty := inFlight_outside hseq.handshake hout
  have hshows := hshares.shows
  rw [State.settled, hempty] at hshows
  refine ⟨hshows, fun c => ?_⟩
  rw [hshares.result, hout c]
  rfl

/-- `d` asks for the block while `c` is writing it. -/
def overlappingCalls (c d : Fin n) : List (Action n (Ptr → UInt8)) :=
  [.call c .write 3 64 16, .client c, .client c, .call d .read 3 200 32] ++
    List.replicate 11 .disk ++ [.fire, .client c, .client c, .client c, .client d, .client d] ++
    List.replicate 11 .disk ++ [.fire, .client d, .client d, .client d]

theorem calls_atomic_small : ∃ (s : ByteState 2) (a : SharedDisk 2),
    run (PingPong.step byteConfig) (initial 16 (fun _ => ⟨0, 0, 0, 0, .read, 0⟩)
      ⟨fun _ => 0, fun p => p.toUInt8⟩) (overlappingCalls 0 1) = some s ∧
    Shows 16 s.store.file a.content := by
  have hok : Along (PingPong.step byteConfig) (Timely 16) (initial 16
      (fun _ => ⟨0, 0, 0, 0, .read, 0⟩) ⟨fun _ => 0, fun p => p.toUInt8⟩ : ByteState 2)
      (overlappingCalls 0 1) := by decide
  have hrun : (run (PingPong.step byteConfig) (initial 16 (fun _ => ⟨0, 0, 0, 0, .read, 0⟩)
      ⟨fun _ => 0, fun p => p.toUInt8⟩ : ByteState 2) (overlappingCalls 0 1)).map
      (fun s => decide (∀ c, s.clients c = .outside)) = some true := by decide
  obtain ⟨s, hs, hout⟩ := Option.map_eq_some_iff.mp hrun
  obtain ⟨a, -, hrest⟩ := calls_atomic rfl (by decide) hok hs
  exact ⟨s, a, hs, (hrest (of_decide_eq_true hout)).1⟩

end PingPong
