import PingPong.ListInvariant

/-! The statements of `addNodeInFront`. Each of them keeps the list, unless the
task sees a list that the disk task is bound to empty, reads a `lastNode` that is
on its way out, or writes one that the disk task then clears. -/

namespace PingPong

variable {m m' : RequestList} {k k' : AddPc} {d : RemovePc}

theorem RemovePc.Ok.frame (h : d.Ok m k) (hk : k.linked = []) (hk' : k'.linked = [])
    (hreq : m'.requests = m.requests) (hnext : ∀ x ∈ m.requests, m'.next x = m.next x)
    (hprev : ∀ x ∈ m.requests, m'.prev x = m.prev x) : d.Ok m' k' := by
  cases d with
  | testPrev p =>
    obtain ⟨hp, honly⟩ := h
    rw [hk] at honly
    rw [RemovePc.Ok, hreq, hk', hprev p hp]
    exact ⟨hp, honly⟩
  | elseTestNext p =>
    obtain ⟨hp, hne⟩ := h
    rw [RemovePc.Ok, hreq, hprev p hp, hnext p hp]
    exact ⟨hp, hne⟩
  | elseTestPrev p =>
    obtain ⟨hp, hne⟩ := h
    rw [RemovePc.Ok, hreq, hnext p hp]
    exact ⟨hp, hne⟩
  | onlyLast p =>
    rw [RemovePc.Ok, hreq]
    exact ⟨h.1, .inl hk'⟩
  | innerPrev p =>
    obtain ⟨hp, hsplit⟩ := h
    rw [hk] at hsplit
    rw [RemovePc.Ok, hreq, hk', hnext p hp]
    exact ⟨hp, hsplit⟩
  | downNewReqs | checkEmpty | readSize | decSize => trivial
  | _ => simpa only [RemovePc.Ok, hreq, hk, hk'] using h

theorem RemovePc.Ok.emptying_eq (h : d.Ok m k) (hprev : ∀ x ∈ m.requests, m'.prev x = m.prev x) :
    d.emptying m' = d.emptying m := by
  cases d with
  | testPrev p => simp only [RemovePc.emptying, hprev p h.1]
  | _ => rfl

/-- A step of the adding task that changes no linked node keeps the list. -/
theorem ListKept.quiet (h : ListKept m k d) (hk : k.linked = []) (hk' : k'.linked = [])
    (hset : k.settingLast = false)
    (hreq : m'.requests = m.requests) (hsize : m'.iSize = m.iSize)
    (hfirst : m'.firstNode = m.firstNode) (hlast : m'.lastNode = m.lastNode)
    (hnext : ∀ x ∈ m.requests, m'.next x = m.next x)
    (hprev : ∀ x ∈ m.requests, m'.prev x = m.prev x)
    (hlive : ∀ x ∈ m.live, x ∈ m'.live) (hnull : 0 ∉ m'.live)
    (happ : d.emptying m = true → k'.appending = false)
    (hhold : d.droppingLast = true → k'.holdsLast = false) (hok : k'.Ok m' d) :
    ListKept m' k' d := by
  have hfull : m'.requests ++ k'.linked = m.requests ++ k.linked := by rw [hreq, hk, hk']
  have hreqs : m.requests ++ k.linked = m.requests := by simp [hk]
  refine ⟨hfull ▸ h.nodup, ?_, hnull, ?_, ?_, ?_, ?_, ?_, hhold, hok,
    h.disk.frame hk hk' hreq hnext hprev⟩
  · intro x hx
    exact hlive x (h.live x (hfull ▸ hx))
  · rw [hfull, hfirst]
    apply h.forward.congr
    intro x hx
    exact hnext x (hreqs ▸ d.forward_subset _ hx)
  · rw [hfull]
    apply h.backward.congr
    intro x hx
    exact hprev x (hreqs ▸ d.backward_subset _ (List.mem_reverse.mp hx))
  · intro _ hd
    rw [hfull, hlast]
    exact h.last hset hd
  · rw [hsize, hreq]
    exact h.size
  · rw [h.disk.emptying_eq hprev]
    exact happ

theorem ListKept.move (h : ListKept m k d) (hk : k.linked = []) (hk' : k'.linked = [])
    (hset : k.settingLast = false) (happ : d.emptying m = true → k'.appending = false)
    (hhold : d.droppingLast = true → k'.holdsLast = false) (hok : k'.Ok m d) :
    ListKept m k' d :=
  h.quiet hk hk' hset rfl rfl rfl rfl (fun _ _ => rfl) (fun _ _ => rfl) (fun _ hx => hx) h.null
    happ hhold hok

theorem ListKept.testFirst {b : Int} (h : ListKept m (.testFirst b) d)
    (hsafe : m.spoilsRemoval d (.testFirst b) = false) :
    ListKept m (if m.firstNode = 0 then .malloc true b 0 else .readLast b) d := by
  have hstart := h.forward.start
  have hnull : 0 ∉ d.forward (m.requests ++ []) :=
    fun hx => h.null_mem (d.forward_subset _ hx)
  by_cases hfirst : m.firstNode = 0
  · rw [if_pos hfirst]
    have hnil := (Linked.head_eq_end hnull).mp (hstart.symm.trans hfirst)
    have hback := h.backward_nil hnil
    apply h.move rfl rfl rfl (fun _ => rfl) (fun _ => rfl)
    simp only [AddPc.linked, List.append_nil] at hnil hback
    simp [AddPc.Ok, Ends, hnil, hback]
  · rw [if_neg hfirst]
    have hempty : d.emptying m = false := by
      simpa [RequestList.spoilsRemoval, hfirst] using hsafe
    apply h.move rfl rfl rfl (fun hd => absurd hd (by simp [hempty])) (fun _ => rfl)
    intro hnil
    apply hfirst
    rw [hstart]
    simp [AddPc.linked, hnil]

theorem ListKept.readLast {b : Int} (h : ListKept m (.readLast b) d)
    (hsafe : m.spoilsRemoval d (.readLast b) = false) :
    ListKept m (.malloc false b m.lastNode) d := by
  have hne : d.forward m.requests ≠ [] := h.adder
  have hempty := h.not_emptying rfl
  have hzero := RemovePc.not_zeroing hempty
  have hdrop : d.droppingLast = false := hsafe
  have hends := h.ends_agree hdrop
  have hlast := h.last rfl hzero
  simp only [AddPc.linked, List.append_nil] at hends hlast
  have hnull : 0 ∉ d.forward m.requests :=
    fun hx => h.null_mem (List.mem_append_left _ (d.forward_subset _ hx))
  apply h.move rfl rfl rfl (fun hd => absurd hd (by simp [hempty]))
    (fun hd => absurd hd (by simp [hdrop]))
  refine ⟨⟨?_, hlast.symm⟩, ?_⟩
  · rw [hends, hlast]
  · rw [hlast, ← hends, Linked.last_eq_end hnull]
    simp [hne]

theorem ListKept.malloc {first : Bool} {b : Int} {q a : Ptr} (h : ListKept m (.malloc first b q) d)
    (hnull : a ≠ 0) (hfresh : a ∉ m.live) :
    ListKept { m with live := a :: m.live } (.setPrev first b q a) d := by
  have hnew : a ∉ m.requests := fun ha => hfresh (h.live a (List.mem_append_left _ ha))
  obtain ⟨hends, hfirst⟩ := h.adder
  have hnull' : 0 ∉ a :: m.live := by
    simp [hnull.symm, h.null]
  refine h.quiet rfl rfl rfl rfl rfl rfl rfl (fun _ _ => rfl) (fun _ _ => rfl) ?_ hnull'
    h.noAppend h.noHold ⟨hends, hfirst, List.mem_cons_self, hnew⟩
  intro x hx
  exact List.mem_cons_of_mem a hx

theorem ListKept.setPrev {first : Bool} {b : Int} {q a : Ptr}
    (h : ListKept m (.setPrev first b q a) d) :
    ListKept { m with prev := Function.update m.prev a q } (.setNext first b a) d := by
  obtain ⟨hends, hfirst, hnew⟩ := h.adder
  refine h.quiet rfl rfl rfl rfl rfl rfl rfl (fun _ _ => rfl) ?_ (fun _ hx => hx) h.null
    h.noAppend h.noHold ?_
  · intro x hx
    exact Function.update_of_ne (ne_of_mem_of_not_mem hx hnew.2) q m.prev
  · simp only [AddPc.Ok, Function.update_self]
    exact ⟨hends, hfirst, hnew⟩

theorem ListKept.setNext {first : Bool} {b : Int} {a : Ptr}
    (h : ListKept m (.setNext first b a) d) :
    ListKept { m with next := Function.update m.next a 0 } (.setBlock first b a) d := by
  obtain ⟨hends, hfirst, hnew⟩ := h.adder
  refine h.quiet rfl rfl rfl rfl rfl rfl rfl ?_ (fun _ _ => rfl) (fun _ hx => hx) h.null
    h.noAppend h.noHold ⟨hends, hfirst, hnew, Function.update_self a 0 m.next⟩
  intro x hx
  exact Function.update_of_ne (ne_of_mem_of_not_mem hx hnew.2) 0 m.next

theorem ListKept.setBlock {first : Bool} {b : Int} {a : Ptr}
    (h : ListKept m (.setBlock first b a) d) :
    ListKept { m with block := Function.update m.block a b }
      (if first then .setFirst a else .linkLast a) d := by
  obtain ⟨hends, hfirst, hnew, hnext⟩ := h.adder
  cases first with
  | true =>
    exact h.quiet rfl rfl rfl rfl rfl rfl rfl (fun _ _ => rfl) (fun _ _ => rfl) (fun _ hx => hx)
      h.null h.noAppend h.noHold ⟨hends, hfirst.mp rfl, hnew, hnext⟩
  | false =>
    have hprev : m.prev a ≠ 0 := fun h0 => Bool.noConfusion (hfirst.mpr h0)
    exact h.quiet rfl rfl rfl rfl rfl rfl rfl (fun _ _ => rfl) (fun _ _ => rfl) (fun _ hx => hx)
      h.null h.noAppend h.noHold ⟨hends, hprev, hnew, hnext⟩

theorem RemovePc.Ok.forward_append (h : d.Ok m k) (a : Ptr) :
    d.forward (m.requests ++ [a]) = d.forward m.requests ++ [a] := by
  cases d with
  | onlyLast p => exact List.erase_append_left [a] (by simp [h.1])
  | tailLast p =>
    obtain ⟨_, l, x, hreq⟩ := h
    exact List.erase_append_left [a] (by simp [hreq])
  | innerPrev p => exact List.erase_append_left [a] h.1
  | free p => exact List.erase_append_left [a] h
  | _ => rfl

theorem RemovePc.Ok.backward_append (h : d.Ok m k) (a : Ptr) :
    d.backward (m.requests ++ [a]) = d.backward m.requests ++ [a] := by
  cases d with
  | onlyLast p => exact List.erase_append_left [a] (by simp [h.1])
  | headFirst p => exact List.erase_append_left [a] h.1
  | free p => exact List.erase_append_left [a] h
  | _ => rfl

/-- While the list is empty, the disk task has no node in hand that is still linked. -/
theorem RemovePc.Ok.link_first {a : Ptr} (h : d.Ok m (.setFirst a))
    (hnil : d.forward m.requests = []) (hback : d.backward m.requests = []) :
    d.Ok { m with firstNode := a } (.setLastToFirst a) := by
  cases d with
  | onlyLast p => exact ⟨h.1, .inr rfl⟩
  | free p => exact h
  | tailLast p =>
    obtain ⟨_, l, x, hreq⟩ := h
    simp [show m.requests = [] from hback] at hreq
  | innerPrev p => exact absurd h.1 (by simp [show m.requests = [] from hback])
  | downNewReqs | checkEmpty | readSize | decSize => trivial
  | _ => simp_all [RemovePc.Ok, RemovePc.forward, AddPc.linked]

theorem ListKept.nodup_append {a : Ptr} (h : ListKept m k d) (hk : k.linked = [])
    (hnew : NewNode m a) : (m.requests ++ [a]).Nodup := by
  have hnodup := h.nodup
  rw [hk, List.append_nil] at hnodup
  rw [List.nodup_append_comm]
  simpa using ⟨hnew.2, hnodup⟩

theorem ListKept.live_append {a : Ptr} (h : ListKept m k d) (hnew : NewNode m a) :
    ∀ x ∈ m.requests ++ [a], x ∈ m.live := by
  intro x hx
  rcases List.mem_append.mp hx with hx | hx
  · exact h.live x (List.mem_append_left _ hx)
  · rw [List.mem_singleton.mp hx]
    exact hnew.1

theorem ListKept.setFirst {a : Ptr} (h : ListKept m (.setFirst a) d) :
    ListKept { m with firstNode := a } (.setLastToFirst a) d := by
  obtain ⟨hends, hprev, hnew, hnext⟩ := h.adder
  have hnull : ∀ x ∈ m.requests, x ≠ 0 :=
    fun x hx h0 => h.null_mem (h0 ▸ List.mem_append_left _ hx)
  have hnil : d.forward m.requests = [] := by
    apply (Linked.last_eq_end fun hx => hnull 0 (d.forward_subset _ hx) rfl).mp
    exact hends.1.trans hprev
  have hback : d.backward m.requests = [] := by
    apply (Linked.last_eq_end fun hx => hnull 0 (d.backward_subset _ hx) rfl).mp
    exact hends.2.trans hprev
  have hfwd : d.forward (m.requests ++ [a]) = [a] := by
    rw [h.disk.forward_append, hnil, List.nil_append]
  have hbwd : d.backward (m.requests ++ [a]) = [a] := by
    rw [h.disk.backward_append, hback, List.nil_append]
  refine ⟨h.nodup_append rfl hnew, h.live_append hnew, h.null, ?_, ?_, ?_, h.size, fun _ => rfl,
    fun _ => rfl, hfwd, h.disk.link_first hnil hback⟩
  · simp only [AddPc.linked, hfwd, Linked.Path, hnext, and_self]
  · simp only [AddPc.linked, hbwd]
    simp [Linked.Path, hprev]
  · intro hset
    cases hset

theorem RemovePc.Ok.relink (h : d.Ok m k) (hlinked : k'.linked = k.linked)
    (hzero : d.zeroingLast = false) (hreq : m'.requests = m.requests) (hnext : m'.next = m.next)
    (hprev : m'.prev = m.prev) : d.Ok m' k' := by
  cases d with
  | onlyLast p => cases hzero
  | downNewReqs | checkEmpty | readSize | decSize => trivial
  | _ => simpa only [RemovePc.Ok, hreq, hnext, hprev, hlinked] using h

theorem ListKept.writeLast {a x : Ptr} (h : ListKept m k d) (hk : k.linked = [a])
    (hzero : d.zeroingLast = false) (hx : x = a) :
    ListKept { m with lastNode := x } (.incSize a) d := by
  subst x
  obtain ⟨hnodup, hlive, hnull, hforward, hbackward, _, hsize, _, _, _, hdisk⟩ := h
  rw [hk] at hnodup hlive hforward hbackward
  refine ⟨hnodup, hlive, hnull, hforward, hbackward, ?_, hsize, fun _ => rfl, fun _ => rfl, trivial,
    hdisk.relink hk.symm hzero rfl rfl rfl⟩
  intro _ _
  simp only [AddPc.linked, hdisk.backward_append]
  simp

theorem ListKept.setLastToFirst {a : Ptr} (h : ListKept m (.setLastToFirst a) d)
    (hsafe : m.spoilsRemoval d (.setLastToFirst a) = false) :
    ListKept { m with lastNode := m.firstNode } (.incSize a) d := by
  have hfwd : d.forward (m.requests ++ [a]) = [a] := h.adder
  have hfirst := h.forward.start
  simp only [AddPc.linked, hfwd] at hfirst
  exact h.writeLast rfl hsafe hfirst

theorem ListKept.setLast {a : Ptr} (h : ListKept m (.setLast a) d) :
    ListKept { m with lastNode := a } (.incSize a) d := by
  refine h.writeLast rfl ?_ rfl
  have hdisk := h.disk
  cases d with
  | onlyLast p => simp [RemovePc.Ok, AddPc.linked, AddPc.copiesFirst] at hdisk
  | _ => rfl

theorem RemovePc.Ok.link_last {a : Ptr} (h : d.Ok m (.linkLast a)) (ha : a ≠ 0)
    (hempty : d.emptying m = false) (hdrop : d.droppingLast = false)
    (hlast : m.lastNode ∈ d.forward m.requests) (hnodup : m.requests.Nodup) :
    d.Ok { m with next := Function.update m.next m.lastNode a } (.setLast a) := by
  cases d with
  | testPrev p =>
    refine ⟨h.1, fun h0 => ?_⟩
    simp [RemovePc.emptying, show m.prev p = 0 from h0] at hempty
  | elseTestNext p =>
    refine ⟨h.1, fun h0 => ?_⟩
    by_cases hp : p = m.lastNode
    · simpa [hp] using ha
    · simpa only [Function.update_of_ne hp] using h.2 h0
  | elseTestPrev p =>
    refine ⟨h.1, ?_⟩
    by_cases hp : p = m.lastNode
    · simpa [hp] using ha
    · simpa only [Function.update_of_ne hp] using h.2
  | onlyFirst p => cases hempty
  | onlyLast p => cases hempty
  | tailNext p => cases hdrop
  | tailLast p => cases hdrop
  | headPrev p | headFirst p =>
    obtain ⟨hp, y, r, hfull⟩ := h
    refine ⟨hp, y, r ++ [a], ?_⟩
    simp only [AddPc.linked, List.append_nil] at hfull ⊢
    simp [hfull]
  | innerNext p =>
    obtain ⟨hp, l, x, y, r, hfull⟩ := h
    refine ⟨hp, l, x, y, r ++ [a], ?_⟩
    simp only [AddPc.linked, List.append_nil] at hfull ⊢
    simp [hfull]
  | innerPrev p =>
    obtain ⟨hp, l, x, y, r, hfull, hnext⟩ := h
    have hne : p ≠ m.lastNode := fun he => hnodup.not_mem_erase (he ▸ hlast)
    refine ⟨hp, l, x, y, r ++ [a], ?_, ?_⟩
    · simp only [AddPc.linked, List.append_nil] at hfull ⊢
      simp [hfull]
    · exact (Function.update_of_ne hne a m.next).trans hnext
  | _ => exact h

theorem ListKept.linkLast {a : Ptr} (h : ListKept m (.linkLast a) d) :
    m.lastNode ≠ 0 ∧
      ListKept { m with next := Function.update m.next m.lastNode a } (.setLast a) d := by
  obtain ⟨hends, hprev, hnew, hnext⟩ := h.adder
  have hempty := h.not_emptying rfl
  have hlast : m.lastNode = m.prev a := by
    rw [h.last rfl (RemovePc.not_zeroing hempty), ← hends.2]
    simp [AddPc.linked]
  obtain ⟨l, hl⟩ := Linked.eq_concat_of_last hends.1 hprev
  have hmem : m.prev a ∈ d.forward m.requests := by simp [hl]
  have hnodup := h.nodup
  simp only [AddPc.linked, List.append_nil] at hnodup
  have hdisk := h.disk.link_last (fun h0 => h.null (h0 ▸ hnew.1)) hempty (h.not_dropping rfl)
    (hlast ▸ hmem) hnodup
  rw [hlast] at hdisk ⊢
  refine ⟨hprev, h.nodup_append rfl hnew, h.live_append hnew, h.null, ?_, ?_, nofun, h.size,
    fun _ => rfl, fun _ => rfl, trivial, hdisk⟩
  · have hpath := h.forward
    have hnodup := h.forward_nodup
    simp only [AddPc.linked, List.append_nil, hl] at hpath hnodup
    have ha : a ≠ m.prev a := fun he => hnew.2 (d.forward_subset _ (he ▸ hmem))
    simp only [AddPc.linked, h.disk.forward_append, hl]
    refine Linked.path_append.mpr ⟨a, hpath.retarget ?_, rfl, ?_⟩
    · exact fun hx => (List.nodup_append.mp hnodup).2.2 _ hx _ List.mem_cons_self rfl
    · exact (Function.update_of_ne ha a m.next).trans hnext
  · have hpath := h.backward
    simp only [AddPc.linked, List.append_nil, hends.2] at hpath
    simp only [AddPc.linked, h.disk.backward_append]
    simpa [Linked.Path] using hpath

theorem RemovePc.Ok.count {a : Ptr} (h : d.Ok m (.incSize a)) :
    d.Ok { m with iSize := m.iSize + 1, requests := m.requests ++ [a] } .unlockQueue := by
  have hmem (p : Ptr) (hp : p ∈ m.requests) : p ∈ m.requests ++ [a] := List.mem_append_left _ hp
  have hget (i : Nat) (p : Ptr) (hp : m.requests[i]? = some p) :
      (m.requests ++ [a])[i]? = some p := by
    rw [List.getElem?_append_left (List.getElem?_eq_some_iff.mp hp).1, hp]
  cases d with
  | downNewReqs | checkEmpty | readSize | decSize => trivial
  | readFirst iSize =>
    simp only [RemovePc.Ok, List.length_append, List.length_singleton] at h ⊢
    omega
  | initDist iSize it =>
    obtain ⟨hsize, hit⟩ := h
    refine ⟨?_, hget 0 it hit⟩
    simp only [List.length_append, List.length_singleton]
    omega
  | forTest iSize i it near shortest =>
    obtain ⟨hsize, hnear, hit⟩ := h
    refine ⟨?_, hmem near hnear, fun hi => hget i it (hit hi)⟩
    simp only [List.length_append, List.length_singleton]
    omega
  | forNext iSize i it near shortest =>
    obtain ⟨hsize, hnear, hit⟩ := h
    refine ⟨?_, hmem near hnear, hget i it hit⟩
    simp only [List.length_append, List.length_singleton]
    omega
  | removeNode p | testNext p | free p => exact hmem p h
  | elseTestNext p | elseTestPrev p => exact ⟨hmem p h.1, h.2⟩
  | onlyLast p => simp [RemovePc.Ok, AddPc.linked, AddPc.copiesFirst] at h
  | onlyFirst p => cases h.2
  | tailNext p | tailLast p => cases h.1
  | testPrev p => exact ⟨hmem p h.1, fun h0 => nomatch (h.2 h0).2⟩
  | headPrev p | headFirst p | innerNext p | innerPrev p =>
    refine ⟨hmem p h.1, ?_⟩
    simpa only [AddPc.linked, List.append_nil] using h.2

theorem ListKept.incSize {a : Ptr} (h : ListKept m (.incSize a) d) :
    ListKept { m with iSize := m.iSize + 1, requests := m.requests ++ [a] } .unlockQueue d := by
  obtain ⟨hnodup, hlive, hnull, hforward, hbackward, hlast, hsize, _, _, _, hdisk⟩ := h
  refine ⟨?_, ?_, hnull, ?_, ?_, ?_, ?_, fun _ => rfl, fun _ => rfl, trivial, hdisk.count⟩
  · simpa only [AddPc.linked, List.append_nil] using hnodup
  · simpa only [AddPc.linked, List.append_nil] using hlive
  · simpa only [AddPc.linked, List.append_nil] using hforward
  · simpa only [AddPc.linked, List.append_nil] using hbackward
  · intro _ hd
    simpa only [AddPc.linked, List.append_nil] using hlast rfl hd
  · simp only [hsize, List.length_append, List.length_singleton]
    omega

/-- A statement of the adding task keeps the list, and it enters a request where it
counts one. -/
theorem ListKept.addStep {a : Ptr} (h : ListKept m k d) (hsafe : m.spoilsRemoval d k = false)
    (hnew : k.allocates = true → a ≠ 0 ∧ a ∉ m.live) :
    ∃ r, addStep m a k = some r ∧ ListKept r.1 r.2 d ∧ r.2.inside = k.inside ∧
      r.1.requests.length + k.queued.toNat = m.requests.length + r.2.queued.toNat := by
  cases k with
  | outside | lockQueue b | unlockQueue | upNewReqs => exact ⟨_, rfl, h, rfl, rfl⟩
  | testFirst b =>
    refine ⟨_, rfl, h.testFirst hsafe, ?_⟩
    dsimp only
    split_ifs <;> exact ⟨rfl, rfl⟩
  | readLast b => exact ⟨_, rfl, h.readLast hsafe, rfl, rfl⟩
  | malloc first b q => exact ⟨_, rfl, h.malloc (hnew rfl).1 (hnew rfl).2, rfl, rfl⟩
  | setPrev first b q a => exact ⟨_, rfl, h.setPrev, rfl, rfl⟩
  | setNext first b a => exact ⟨_, rfl, h.setNext, rfl, rfl⟩
  | setBlock first b a =>
    refine ⟨_, rfl, h.setBlock, ?_⟩
    cases first <;> exact ⟨rfl, rfl⟩
  | setFirst a => exact ⟨_, rfl, h.setFirst, rfl, rfl⟩
  | setLastToFirst a => exact ⟨_, rfl, h.setLastToFirst hsafe, rfl, rfl⟩
  | linkLast a => exact ⟨_, if_neg h.linkLast.1, h.linkLast.2, rfl, rfl⟩
  | setLast a => exact ⟨_, rfl, h.setLast, rfl, rfl⟩
  | incSize a => exact ⟨_, rfl, h.incSize, rfl, by simp [AddPc.queued]⟩

end PingPong
