import PingPong.ListInvariant

/-! The statements of the disk task: `sstfSched` finds a linked request, and each
assignment of `removeNode` takes it out of one of the two paths, unless the task
enters a branch for the last node while a client appends behind that node. -/

namespace PingPong

variable {m m' : RequestList} {k : AddPc} {d d' : RemovePc}

/-- What the adding task relies on outlives a step of the disk task that keeps
the end of both paths and the task's own node. -/
theorem AddPc.Ok.transfer (h : k.Ok m d)
    (hends : ∀ q, k.linked = [] → Ends m d q → (q ≠ 0 → k.holdsLast = true) → Ends m' d' q)
    (hread : k.appending = true → k.linked = [] → d.forward m.requests ≠ [] →
      d'.forward m'.requests ≠ [])
    (hfirst : ∀ a, k.linked = [a] → d.forward (m.requests ++ [a]) = [a] →
      d'.forward (m'.requests ++ [a]) = [a])
    (hnew : ∀ a, k.linked = [] → NewNode m a →
      NewNode m' a ∧ m'.prev a = m.prev a ∧ m'.next a = m.next a) :
    k.Ok m' d' := by
  have hheld {first : Bool} {q : Ptr} (hq : first = true ↔ q = 0) : q ≠ 0 → (!first) = true := by
    intro hne
    simpa using fun hf => hne (hq.mp hf)
  cases k with
  | readLast b => exact hread rfl rfl h
  | malloc first b q => exact ⟨hends q rfl h.1 (hheld h.2), h.2⟩
  | setPrev first b q a => exact ⟨hends q rfl h.1 (hheld h.2.1), h.2.1, (hnew a rfl h.2.2).1⟩
  | setNext first b a =>
    obtain ⟨he, hq, ha⟩ := h
    obtain ⟨ha', hprev, _⟩ := hnew a rfl ha
    rw [AddPc.Ok, hprev]
    exact ⟨hends _ rfl he (hheld hq), hq, ha'⟩
  | setBlock first b a =>
    obtain ⟨he, hq, ha, h0⟩ := h
    obtain ⟨ha', hprev, hnext⟩ := hnew a rfl ha
    rw [AddPc.Ok, hprev, hnext]
    exact ⟨hends _ rfl he (hheld hq), hq, ha', h0⟩
  | setFirst a =>
    obtain ⟨he, hq, ha, h0⟩ := h
    obtain ⟨ha', hprev, hnext⟩ := hnew a rfl ha
    rw [AddPc.Ok, hprev, hnext]
    exact ⟨hends _ rfl he (absurd hq), hq, ha', h0⟩
  | linkLast a =>
    obtain ⟨he, hq, ha, h0⟩ := h
    obtain ⟨ha', hprev, hnext⟩ := hnew a rfl ha
    rw [AddPc.Ok, hprev, hnext]
    exact ⟨hends _ rfl he (fun _ => rfl), hq, ha', h0⟩
  | setLastToFirst a => exact hfirst a rfl h
  | outside | lockQueue b | testFirst b | setLast a | incSize a | unlockQueue | upNewReqs => trivial

theorem ListKept.goto (h : ListKept m k d) (hd : d.reading = true) (hd' : d'.reading = true)
    (happ : d'.emptying m = true → k.appending = false)
    (hhold : d'.droppingLast = true → k.holdsLast = false) (hdisk : d'.Ok m k) :
    ListKept m k d' := by
  have hforward : ∀ l, d'.forward l = d.forward l := fun l => by
    rw [RemovePc.forward_reading hd, RemovePc.forward_reading hd']
  have hbackward : ∀ l, d'.backward l = d.backward l := fun l => by
    rw [RemovePc.backward_reading hd, RemovePc.backward_reading hd']
  refine ⟨h.nodup, h.live, h.null, ?_, ?_, ?_, ?_, happ, hhold, ?_, hdisk⟩
  · rw [hforward]
    exact h.forward
  · rw [hbackward]
    exact h.backward
  · intro hset _
    rw [hbackward]
    exact h.last hset (RemovePc.zeroing_reading hd)
  · rw [h.size, RemovePc.owing_reading hd, RemovePc.owing_reading hd']
  · apply h.adder.transfer
    · intro q _ hends _
      rwa [Ends, hforward, hbackward]
    · intro _ _ hne
      rwa [hforward]
    · intro a _ hone
      rwa [hforward]
    · exact fun a _ ha => ⟨ha, rfl, rfl⟩

theorem ListKept.advance (h : ListKept m k d) (hd : d.reading = true) (hd' : d'.reading = true)
    (hempty : d'.emptying m = false) (hdrop : d'.droppingLast = false) (hdisk : d'.Ok m k) :
    ListKept m k d' :=
  h.goto hd hd' (absurd_of_false hempty) (absurd_of_false hdrop) hdisk

/-- The pointers of a node while no pointer around it is in flux. -/
theorem ListKept.pointers {p : Ptr} {l r : List Ptr} (h : ListKept m k d)
    (hd : d.reading = true) (hfull : m.requests ++ k.linked = l ++ p :: r) :
    m.next p = r.head?.getD 0 ∧ m.prev p = l.getLast?.getD 0 := by
  have hpath := h.forward
  have hback := h.backward
  rw [RemovePc.forward_reading hd, hfull] at hpath
  rw [RemovePc.backward_reading hd, hfull, List.reverse_append, List.reverse_cons,
    List.append_assoc, List.singleton_append] at hback
  rw [← List.head?_reverse]
  exact ⟨hpath.next_eq, hback.next_eq⟩

theorem ListKept.position {p : Ptr} (h : ListKept m k d) (hd : d.reading = true)
    (hp : p ∈ m.requests) :
    ∃ l r, m.requests ++ k.linked = l ++ p :: r ∧ (m.next p = 0 ↔ r = []) ∧
      (m.prev p = 0 ↔ l = []) := by
  obtain ⟨l, r, hfull⟩ := List.append_of_mem (List.mem_append_left k.linked hp)
  obtain ⟨hnext, hprev⟩ := h.pointers hd hfull
  have hnull := h.null_mem
  rw [hfull] at hnull
  refine ⟨l, r, hfull, ?_, ?_⟩
  · rw [hnext]
    exact Linked.head_eq_end fun hr => hnull (by simp [hr])
  · rw [hprev]
    exact Linked.last_eq_end fun hl => hnull (by simp [hl])

theorem ListKept.downNewReqs (h : ListKept m k .downNewReqs) : ListKept m k .checkEmpty :=
  h.advance rfl rfl rfl rfl trivial

theorem ListKept.checkEmpty (h : ListKept m k .checkEmpty) (hne : m.requests ≠ []) :
    m.firstNode ≠ 0 ∧ ListKept m k .readSize := by
  have hfirst : m.firstNode = (m.requests ++ k.linked).head?.getD 0 := h.forward.start
  refine ⟨fun h0 => ?_, h.advance rfl rfl rfl rfl trivial⟩
  rw [h0] at hfirst
  have hnil := (Linked.head_eq_end h.null_mem).mp hfirst.symm
  exact hne (List.append_eq_nil_iff.mp hnil).1

theorem ListKept.readSize (h : ListKept m k .readSize) (hne : m.requests ≠ []) :
    ListKept m k (.readFirst m.iSize) := by
  refine h.advance rfl rfl rfl rfl ?_
  have hsize : m.iSize = m.requests.length + 0 := h.size
  have hpos := List.length_pos_of_ne_nil hne
  constructor <;> omega

theorem ListKept.readFirst {iSize : Int} (h : ListKept m k (.readFirst iSize)) :
    ListKept m k (.initDist iSize m.firstNode) := by
  refine h.advance rfl rfl rfl rfl ?_
  obtain ⟨hone, hsize⟩ := h.disk
  refine ⟨hsize, ?_⟩
  have hfirst : m.firstNode = (m.requests ++ k.linked).head?.getD 0 := h.forward.start
  cases hreq : m.requests with
  | nil =>
    rw [hreq, List.length_nil] at hsize
    omega
  | cons x l => simp [hfirst, hreq]

theorem ListKept.mem_ne_zero {p : Ptr} (h : ListKept m k d) (hp : p ∈ m.requests) : p ≠ 0 :=
  fun h0 => h.null_mem (h0 ▸ List.mem_append_left k.linked hp)

theorem ListKept.initDist {iSize shortest : Int} {it : Ptr}
    (h : ListKept m k (.initDist iSize it)) :
    it ≠ 0 ∧ ListKept m k (.forTest iSize 0 it it shortest) := by
  obtain ⟨hsize, hit⟩ := h.disk
  have hmem := List.mem_of_getElem? hit
  refine ⟨h.mem_ne_zero hmem, ?_⟩
  exact h.advance rfl rfl rfl rfl ⟨hsize, hmem, fun _ => hit⟩

theorem ListKept.forTest_next {iSize shortest shortest' : Int} {i : Nat} {it near near' : Ptr}
    (h : ListKept m k (.forTest iSize i it near shortest)) (hi : i < iSize)
    (hnear : near' = near ∨ near' = it) :
    ListKept m k (.forNext iSize i it near' shortest') := by
  obtain ⟨hsize, hmem, hit⟩ := h.disk
  refine h.advance rfl rfl rfl rfl ?_
  refine ⟨hsize, ?_, hit hi⟩
  rcases hnear with rfl | rfl
  · exact hmem
  · exact List.mem_of_getElem? (hit hi)

theorem ListKept.forTest_done {iSize shortest : Int} {i : Nat} {it near : Ptr}
    (h : ListKept m k (.forTest iSize i it near shortest)) : ListKept m k (.removeNode near) :=
  h.advance rfl rfl rfl rfl h.disk.2.1

theorem ListKept.forTest (ia : IntArith) (headBlock : Int) {iSize shortest : Int} {i : Nat}
    {it near : Ptr} (h : ListKept m k (.forTest iSize i it near shortest)) :
    ∃ d', removeStep ia headBlock m (.forTest iSize i it near shortest) = some (m, d') ∧
      ListKept m k d' ∧ d'.taken = true := by
  by_cases hi : i < iSize ∧ it ≠ 0
  · by_cases hdist : seekDist ia m.block headBlock it < shortest
    · exact ⟨_, (if_pos hi).trans (if_pos hdist), h.forTest_next hi.1 (.inr rfl), rfl⟩
    · exact ⟨_, (if_pos hi).trans (if_neg hdist), h.forTest_next hi.1 (.inl rfl), rfl⟩
  · exact ⟨_, if_neg hi, h.forTest_done, rfl⟩

theorem ListKept.forNext {iSize shortest : Int} {i : Nat} {it near : Ptr}
    (h : ListKept m k (.forNext iSize i it near shortest)) :
    ListKept m k (.forTest iSize (i + 1) (m.next it) near shortest) := by
  obtain ⟨hsize, hmem, hit⟩ := h.disk
  refine h.advance rfl rfl rfl rfl ?_
  refine ⟨hsize, hmem, fun hi => ?_⟩
  have hpath : Linked.Path m.next m.firstNode (m.requests ++ k.linked) 0 := h.forward
  have hlt : i + 1 < m.requests.length := by omega
  have hfull : (m.requests ++ k.linked)[i]? = some it := by
    rw [List.getElem?_append_left (by omega), hit]
  have hnext := hpath.next_get hfull
  rw [List.getElem?_append_left hlt, List.getElem?_eq_getElem hlt] at hnext
  rw [hnext, List.getElem?_eq_getElem hlt]
  rfl

theorem ListKept.removeNode {p : Ptr} (h : ListKept m k (.removeNode p)) :
    p ≠ 0 ∧ ListKept m k (.testNext p) :=
  ⟨h.mem_ne_zero h.disk, h.advance rfl rfl rfl rfl h.disk⟩

theorem ListKept.testNext {p : Ptr} (h : ListKept m k (.testNext p))
    (hsafe : m.spoilsAppend k (.testNext p) = false) :
    ListKept m k (if m.next p = 0 then .testPrev p else .elseTestNext p) := by
  have hp : p ∈ m.requests := h.disk
  obtain ⟨l, r, hfull, hnext, hprev⟩ := h.position rfl hp
  by_cases h0 : m.next p = 0
  · rw [if_pos h0]
    have happ : m.prev p = 0 → k.appending = false := by
      intro hl
      simpa [RequestList.spoilsAppend, h0, hl] using hsafe
    refine h.goto rfl rfl ?_ (absurd_of_false rfl) ⟨hp, fun hl => ?_⟩
    · intro he
      exact happ (by simpa [RemovePc.emptying] using he)
    · rw [hprev.mp hl, hnext.mp h0, List.nil_append, List.append_eq_singleton_iff] at hfull
      rcases hfull with ⟨hnil, _⟩ | hone
      · simp [hnil] at hp
      · exact hone
  · rw [if_neg h0]
    exact h.advance rfl rfl rfl rfl ⟨hp, fun _ => h0⟩

theorem ListKept.testPrev {p : Ptr} (h : ListKept m k (.testPrev p)) :
    ListKept m k (if m.prev p = 0 then .onlyFirst p else .elseTestNext p) := by
  obtain ⟨hp, hone⟩ := h.disk
  by_cases h0 : m.prev p = 0
  · rw [if_pos h0]
    have happ := h.noAppend (by simp [RemovePc.emptying, h0])
    exact h.goto rfl rfl (fun _ => happ) (absurd_of_false rfl) (hone h0)
  · rw [if_neg h0]
    exact h.advance rfl rfl rfl rfl ⟨hp, fun hl => absurd hl h0⟩

/-- When the last node is a counted request, no client is linking a node. -/
theorem ListKept.last_request {p : Ptr} {l : List Ptr} (h : ListKept m k d) (hp : p ∈ m.requests)
    (hfull : m.requests ++ k.linked = l ++ [p]) : k.linked = [] ∧ m.requests = l ++ [p] := by
  have hnodup := h.nodup
  have hlen : k.linked.length ≤ 1 := by
    cases k <;> simp [AddPc.linked]
  cases hk : k.linked with
  | nil =>
    rw [hk, List.append_nil] at hfull
    exact ⟨rfl, hfull⟩
  | cons a t =>
    obtain rfl : t = [] := by simpa [hk] using hlen
    rw [hk] at hfull hnodup
    obtain ⟨_, ha⟩ := List.append_inj' hfull rfl
    obtain rfl : a = p := by simpa using ha
    exact absurd rfl ((List.nodup_append.mp hnodup).2.2 a hp a List.mem_cons_self)

theorem ListKept.elseTestNext {p : Ptr} (h : ListKept m k (.elseTestNext p))
    (hsafe : m.spoilsAppend k (.elseTestNext p) = false) :
    ListKept m k (if m.next p = 0 then .tailNext p else .elseTestPrev p) := by
  obtain ⟨hp, hne⟩ := h.disk
  obtain ⟨l, r, hfull, hnext, hprev⟩ := h.position rfl hp
  by_cases h0 : m.next p = 0
  · rw [if_pos h0]
    have hhold : k.holdsLast = false := by
      simpa [RequestList.spoilsAppend, h0] using hsafe
    rw [hnext.mp h0] at hfull
    obtain ⟨hk, hreq⟩ := h.last_request hp hfull
    rcases List.eq_nil_or_concat l with hl | ⟨l', x, rfl⟩
    · exact absurd h0 (hne (hprev.mpr hl))
    · refine h.goto rfl rfl (absurd_of_false rfl) (fun _ => hhold) ⟨hk, l', x, ?_⟩
      simpa using hreq
  · rw [if_neg h0]
    exact h.advance rfl rfl rfl rfl ⟨hp, h0⟩

theorem ListKept.elseTestPrev {p : Ptr} (h : ListKept m k (.elseTestPrev p)) :
    ListKept m k (if m.prev p = 0 then .headPrev p else .innerNext p) := by
  obtain ⟨hp, hne⟩ := h.disk
  obtain ⟨l, r, hfull, hnext, hprev⟩ := h.position rfl hp
  obtain ⟨y, r, rfl⟩ := List.exists_cons_of_ne_nil fun hr => hne (hnext.mpr hr)
  by_cases h0 : m.prev p = 0
  · rw [if_pos h0]
    rw [hprev.mp h0] at hfull
    exact h.advance rfl rfl rfl rfl ⟨hp, y, r, hfull⟩
  · rw [if_neg h0]
    rcases List.eq_nil_or_concat l with hl | ⟨l', x, rfl⟩
    · exact absurd (hprev.mpr hl) h0
    · refine h.advance rfl rfl rfl rfl ⟨hp, l', x, y, r, ?_⟩
      simpa using hfull

theorem ListKept.onlyFirst {p : Ptr} (h : ListKept m k (.onlyFirst p)) :
    ListKept { m with firstNode := 0 } k (.onlyLast p) := by
  obtain ⟨hreq, hk⟩ := h.disk
  have happ := h.noAppend rfl
  have hempty : (m.requests ++ k.linked).erase p = [] := by simp [hreq, hk]
  refine ⟨h.nodup, h.live, h.null, ?_, ?_, fun _ hz => absurd hz.symm Bool.false_ne_true, h.size,
    fun _ => happ, absurd_of_false rfl, ?_, hreq, .inl hk⟩
  · simp only [RemovePc.forward, hempty, Linked.Path]
  · simp [RemovePc.backward, hempty, Linked.Path]
  · apply h.adder.transfer
    · intro q _ hends hhold
      have hq : p = q := by simpa [RemovePc.forward, hreq] using hends.1
      have hp : p ≠ 0 := h.mem_ne_zero (by simp [hreq])
      have hheld : k.appending = true := AddPc.appending_of_holds (hhold (hq ▸ hp))
      simp [happ] at hheld
    · intro happ'
      simp [happ] at happ'
    · intro a hk'
      simp [hk] at hk'
    · exact fun a _ ha => ⟨ha, rfl, rfl⟩

theorem ListKept.onlyLast {p : Ptr} (h : ListKept m k (.onlyLast p)) :
    ListKept { m with lastNode := 0 } k (.free p) := by
  obtain ⟨hreq, hk⟩ := h.disk
  have hp : p ∈ m.requests := by simp [hreq]
  refine ⟨h.nodup, h.live, h.null, h.forward, h.backward, ?_, h.size, absurd_of_false rfl,
    absurd_of_false rfl, ?_, hp⟩
  · intro hset _
    rcases hk with hk | hk
    · simp [RemovePc.backward, hreq, hk]
    · have hcopy := AddPc.settingLast_of_copies hk
      simp [hset] at hcopy
  · apply h.adder.transfer
    · exact fun q _ hends _ => hends
    · exact fun _ _ hne => hne
    · exact fun a _ hone => hone
    · exact fun a _ ha => ⟨ha, rfl, rfl⟩

theorem ListKept.tailNext {p : Ptr} (h : ListKept m k (.tailNext p)) :
    m.prev p ≠ 0 ∧
      ListKept { m with next := Function.update m.next (m.prev p) 0 } k (.tailLast p) := by
  obtain ⟨hk, l, x, hreq⟩ := h.disk
  have hhold := h.noHold rfl
  have hfull : m.requests ++ k.linked = l ++ x :: p :: [] := by simp [hk, hreq]
  have hsplit : m.requests ++ k.linked = (l ++ [x]) ++ p :: [] := by simp [hfull]
  obtain ⟨hnext, hprev⟩ := h.pointers rfl hsplit
  have hprev : m.prev p = x := by simpa using hprev
  have hnodup := h.nodup
  have hpath : Linked.Path m.next m.firstNode (m.requests ++ k.linked) 0 := h.forward
  rw [hfull] at hpath hnodup
  have herase := Linked.erase_after hnodup
  rw [hprev]
  have hx : x ≠ 0 := h.mem_ne_zero (by simp [hreq])
  refine ⟨hx, h.nodup, h.live, h.null, ?_, h.backward, h.last, h.size, absurd_of_false rfl,
    fun _ => hhold, ?_, hk, l, x, hreq⟩
  · simp only [RemovePc.forward, hfull, herase]
    have hcut := hpath.bypass hnodup
    rwa [hnext] at hcut
  · apply h.adder.transfer
    · intro q _ hends hheld
      have hq : p = q := by simpa [RemovePc.backward, hreq] using hends.2
      have hp : p ≠ 0 := h.mem_ne_zero (by simp [hreq])
      have hheld := hheld (hq ▸ hp)
      simp [hhold] at hheld
    · intro _ _ _
      simp [RemovePc.forward, hreq, herase]
    · intro a hk'
      simp [hk] at hk'
    · intro a _ ha
      have hax : a ≠ x := fun he => ha.2 (by simp [he, hreq])
      exact ⟨ha, rfl, Function.update_of_ne hax 0 m.next⟩

theorem ListKept.tailLast {p : Ptr} (h : ListKept m k (.tailLast p)) :
    ListKept { m with lastNode := m.prev p } k (.free p) := by
  obtain ⟨hk, l, x, hreq⟩ := h.disk
  have hfull : m.requests ++ k.linked = l ++ x :: p :: [] := by simp [hk, hreq]
  have hnodup := h.nodup
  have hpath := h.backward
  simp only [RemovePc.backward, hfull] at hpath hnodup
  have herase := Linked.erase_after hnodup
  have hback : Linked.Path m.prev p (p :: x :: l.reverse) 0 := by simpa using hpath
  have hprev : m.prev p = x := hback.2.1
  have hp : p ∈ m.requests := by simp [hreq]
  refine ⟨h.nodup, h.live, h.null, h.forward, ?_, ?_, h.size, absurd_of_false rfl,
    absurd_of_false rfl, ?_, hp⟩
  · simp only [RemovePc.backward, hfull, herase]
    simpa [hprev] using hback.2
  · intro _ _
    simp only [RemovePc.backward, hfull, herase, hprev]
    simp
  · apply h.adder.transfer
    · intro q _ hends _
      simp only [Ends, RemovePc.forward, RemovePc.backward, hreq, herase] at hends
      have hxp : x = p := by simpa using hends.1.trans hends.2.symm
      simp [hxp, List.nodup_append] at hnodup
    · exact fun _ _ hne => hne
    · exact fun a _ hone => hone
    · exact fun a _ ha => ⟨ha, rfl, rfl⟩

theorem ListKept.headPrev {p : Ptr} (h : ListKept m k (.headPrev p)) :
    m.next p ≠ 0 ∧
      ListKept { m with prev := Function.update m.prev (m.next p) 0 } k (.headFirst p) := by
  obtain ⟨hp, y, r, hfull⟩ := h.disk
  have hsplit : m.requests ++ k.linked = [] ++ p :: y :: r := hfull
  obtain ⟨hnext, hprev⟩ := h.pointers rfl hsplit
  have hnext : m.next p = y := hnext
  have hprev : m.prev p = 0 := hprev
  have hy : y ∈ m.requests ++ k.linked := by simp [hfull]
  have hpath := h.backward
  have hnodup := List.nodup_reverse.mpr h.nodup
  simp only [RemovePc.backward, hfull] at hpath
  rw [hfull] at hnodup
  have hrev : (p :: y :: r).reverse = r.reverse ++ y :: p :: [] := by simp
  rw [hrev] at hpath hnodup
  rw [hnext]
  refine ⟨fun h0 => h.null_mem (h0 ▸ hy), h.nodup, h.live, h.null, h.forward, ?_, ?_, h.size,
    absurd_of_false rfl, absurd_of_false rfl, ?_, hp, y, r, hfull⟩
  · have hcut := hpath.bypass hnodup
    rw [hprev] at hcut
    simp only [RemovePc.backward, hfull, List.erase_cons_head]
    simpa [List.getLast?_cons] using hcut
  · intro hset _
    rw [h.last hset rfl]
    simp only [RemovePc.backward, hfull, List.erase_cons_head]
    simp [List.getLast?_cons]
  · apply h.adder.transfer
    · intro q hk hends _
      rw [hk, List.append_nil] at hfull
      refine ⟨hends.1, ?_⟩
      rw [← hends.2]
      simp only [RemovePc.backward, hfull, List.erase_cons_head]
      simp [List.getLast?_cons]
    · exact fun _ _ hne => hne
    · exact fun a _ hone => hone
    · intro a hk ha
      rw [hk, List.append_nil] at hy
      have hay : a ≠ y := fun he => ha.2 (he ▸ hy)
      exact ⟨ha, Function.update_of_ne hay 0 m.prev, rfl⟩

theorem ListKept.headFirst {p : Ptr} (h : ListKept m k (.headFirst p)) :
    ListKept { m with firstNode := m.next p } k (.free p) := by
  obtain ⟨hp, y, r, hfull⟩ := h.disk
  have hpath := h.forward
  simp only [RemovePc.forward, hfull] at hpath
  refine ⟨h.nodup, h.live, h.null, ?_, h.backward, h.last, h.size, absurd_of_false rfl,
    absurd_of_false rfl, ?_, hp⟩
  · simp only [RemovePc.forward, hfull, List.erase_cons_head]
    exact hpath.2
  · apply h.adder.transfer
    · intro q hk hends _
      rw [hk, List.append_nil] at hfull
      refine ⟨?_, hends.2⟩
      rw [← hends.1]
      simp only [RemovePc.forward, hfull, List.erase_cons_head]
      simp [List.getLast?_cons]
    · intro _ hk _
      rw [hk, List.append_nil] at hfull
      simp only [RemovePc.forward, hfull, List.erase_cons_head]
      exact List.cons_ne_nil y r
    · intro a _ hone
      have hnil : m.requests = [] := by simpa [RemovePc.forward] using hone
      simp [hnil] at hp
    · exact fun a _ ha => ⟨ha, rfl, rfl⟩

theorem ListKept.innerNext {p : Ptr} (h : ListKept m k (.innerNext p)) :
    m.prev p ≠ 0 ∧
      ListKept { m with next := Function.update m.next (m.prev p) (m.next p) } k
        (.innerPrev p) := by
  obtain ⟨hp, l, x, y, r, hfull⟩ := h.disk
  have hsplit : m.requests ++ k.linked = (l ++ [x]) ++ p :: y :: r := by simp [hfull]
  obtain ⟨hnext, hprev⟩ := h.pointers rfl hsplit
  have hnext : m.next p = y := hnext
  have hprev : m.prev p = x := by simpa using hprev
  have hx : x ∈ m.requests ++ k.linked := by simp [hfull]
  have hnodup := h.nodup
  have hpath := h.forward
  simp only [RemovePc.forward, hfull] at hpath hnodup
  have herase := Linked.erase_after hnodup
  have hxp : p ≠ x := by
    rintro rfl
    simp [List.nodup_append] at hnodup
  rw [hprev]
  refine ⟨fun h0 => h.null_mem (h0 ▸ hx), h.nodup, h.live, h.null, ?_, h.backward, h.last, h.size,
    absurd_of_false rfl, absurd_of_false rfl, ?_, hp, l, x, y, r, hfull, ?_⟩
  · simp only [RemovePc.forward, hfull, herase]
    exact hpath.bypass hnodup
  · apply h.adder.transfer
    · intro q hk hends _
      rw [hk, List.append_nil] at hfull
      refine ⟨?_, hends.2⟩
      rw [← hends.1]
      simp only [RemovePc.forward, hfull, herase]
      simp [List.getLast?_cons]
    · intro _ hk _
      rw [hk, List.append_nil] at hfull
      simp [RemovePc.forward, hfull, herase]
    · intro a _ hone
      have hnil : m.requests = [] := by simpa [RemovePc.forward] using hone
      simp [hnil] at hp
    · intro a hk ha
      rw [hk, List.append_nil] at hx
      have hax : a ≠ x := fun he => ha.2 (he ▸ hx)
      exact ⟨ha, rfl, Function.update_of_ne hax _ m.next⟩
  · exact (Function.update_of_ne hxp _ m.next).trans hnext

theorem ListKept.innerPrev {p : Ptr} (h : ListKept m k (.innerPrev p)) :
    m.next p ≠ 0 ∧
      ListKept { m with prev := Function.update m.prev (m.next p) (m.prev p) } k (.free p) := by
  obtain ⟨hp, l, x, y, r, hfull, hnext⟩ := h.disk
  have hy : y ∈ m.requests ++ k.linked := by simp [hfull]
  have hpath := h.backward
  have hnodup := h.nodup
  have hnodup' := List.nodup_reverse.mpr h.nodup
  simp only [RemovePc.backward, hfull] at hpath hnodup hnodup'
  have herase := Linked.erase_after hnodup
  have hrev : (l ++ x :: p :: y :: r).reverse = r.reverse ++ y :: p :: x :: l.reverse := by simp
  rw [hrev] at hpath hnodup'
  rw [hnext]
  refine ⟨fun h0 => h.null_mem (h0 ▸ hy), h.nodup, h.live, h.null, h.forward, ?_, ?_, h.size,
    absurd_of_false rfl, absurd_of_false rfl, ?_, hp⟩
  · have hcut := hpath.bypass hnodup'
    simp only [RemovePc.backward, hfull, herase]
    simpa [List.getLast?_cons] using hcut
  · intro hset _
    rw [h.last hset rfl]
    simp only [RemovePc.backward, hfull, herase]
    simp [List.getLast?_cons]
  · apply h.adder.transfer
    · intro q hk hends _
      rw [hk, List.append_nil] at hfull
      refine ⟨hends.1, ?_⟩
      rw [← hends.2]
      simp only [RemovePc.backward, hfull, herase]
      simp [List.getLast?_cons]
    · exact fun _ _ hne => hne
    · exact fun a _ hone => hone
    · intro a hk ha
      rw [hk, List.append_nil] at hy
      have hay : a ≠ y := fun he => ha.2 (he ▸ hy)
      exact ⟨ha, Function.update_of_ne hay _ m.prev, rfl⟩

theorem ListKept.free {p : Ptr} (h : ListKept m k (.free p)) :
    ListKept { m with live := m.live.erase p, requests := m.requests.erase p } k .decSize := by
  have hp : p ∈ m.requests := h.disk
  have hfull : m.requests.erase p ++ k.linked = (m.requests ++ k.linked).erase p :=
    (List.erase_append_left k.linked hp).symm
  refine ⟨?_, ?_, ?_, ?_, ?_, ?_, ?_, absurd_of_false rfl, absurd_of_false rfl, ?_, trivial⟩
  · rw [hfull]
    exact h.nodup.erase p
  · intro x hx
    rw [hfull, h.nodup.mem_erase_iff] at hx
    exact (List.mem_erase_of_ne hx.1).mpr (h.live x hx.2)
  · exact fun h0 => h.null (List.erase_subset h0)
  · rw [hfull]
    exact h.forward
  · rw [hfull]
    exact h.backward
  · intro hset hzero
    rw [hfull]
    exact h.last hset hzero
  · have hsize : m.iSize = m.requests.length + 0 := h.size
    have hpos := List.length_pos_of_mem hp
    simp only [List.length_erase_of_mem hp, RemovePc.owing]
    omega
  · have hone (a : Ptr) : (m.requests ++ [a]).erase p = m.requests.erase p ++ [a] :=
      List.erase_append_left [a] hp
    apply h.adder.transfer
    · exact fun q _ hends _ => hends
    · exact fun _ _ hne => hne
    · intro a _ hend
      exact (hone a).symm.trans hend
    · intro a _ ha
      have hap : a ≠ p := fun he => ha.2 (he ▸ hp)
      exact ⟨⟨(List.mem_erase_of_ne hap).mpr ha.1, fun hr => ha.2 (List.erase_subset hr)⟩, rfl, rfl⟩

theorem ListKept.decSize (h : ListKept m k .decSize) :
    ListKept { m with iSize := m.iSize - 1 } k .downNewReqs := by
  refine ⟨h.nodup, h.live, h.null, h.forward, h.backward, ?_, ?_, absurd_of_false rfl,
    absurd_of_false rfl, ?_, trivial⟩
  · exact fun hset _ => h.last hset rfl
  · have hsize : m.iSize = m.requests.length + 1 := h.size
    simp only [hsize, RemovePc.owing]
    omega
  · apply h.adder.transfer
    · exact fun q _ hends _ => hends
    · exact fun _ _ hne => hne
    · exact fun a _ hone => hone
    · exact fun a _ ha => ⟨ha, rfl, rfl⟩

/-- A statement of the disk task keeps the list, and it gives up the token that it
took with the request that it frees. -/
theorem ListKept.removeStep (ia : IntArith) (headBlock : Int) (h : ListKept m k d)
    (hd : d ≠ .downNewReqs) (hsafe : m.spoilsAppend k d = false)
    (hne : d.taken = true → m.requests ≠ []) :
    ∃ r, removeStep ia headBlock m d = some r ∧ ListKept r.1 k r.2 ∧
      r.1.requests.length + d.taken.toNat = m.requests.length + r.2.taken.toNat := by
  cases d with
  | downNewReqs => exact absurd rfl hd
  | checkEmpty =>
    obtain ⟨hfirst, hkept⟩ := h.checkEmpty (hne rfl)
    exact ⟨(m, .readSize), by simp [PingPong.removeStep, hfirst], hkept, rfl⟩
  | readSize => exact ⟨_, rfl, h.readSize (hne rfl), rfl⟩
  | readFirst iSize => exact ⟨_, rfl, h.readFirst, rfl⟩
  | initDist iSize it =>
    obtain ⟨hit, hkept⟩ := h.initDist
    exact ⟨_, if_neg hit, hkept, rfl⟩
  | forTest iSize i it near shortest =>
    obtain ⟨d', hstep, hkept, htaken⟩ := h.forTest ia headBlock
    refine ⟨(m, d'), hstep, hkept, ?_⟩
    dsimp only
    rw [htaken]
    rfl
  | forNext iSize i it near shortest => exact ⟨_, rfl, h.forNext, rfl⟩
  | removeNode p =>
    obtain ⟨hp, hkept⟩ := h.removeNode
    exact ⟨(m, .testNext p), by simp [PingPong.removeStep, hp], hkept, rfl⟩
  | testNext p =>
    refine ⟨_, rfl, h.testNext hsafe, ?_⟩
    dsimp only
    split_ifs <;> rfl
  | testPrev p =>
    refine ⟨_, rfl, h.testPrev, ?_⟩
    dsimp only
    split_ifs <;> rfl
  | elseTestNext p =>
    refine ⟨_, rfl, h.elseTestNext hsafe, ?_⟩
    dsimp only
    split_ifs <;> rfl
  | elseTestPrev p =>
    refine ⟨_, rfl, h.elseTestPrev, ?_⟩
    dsimp only
    split_ifs <;> rfl
  | onlyFirst p => exact ⟨_, rfl, h.onlyFirst, rfl⟩
  | onlyLast p => exact ⟨_, rfl, h.onlyLast, rfl⟩
  | tailNext p => exact ⟨_, if_neg h.tailNext.1, h.tailNext.2, rfl⟩
  | tailLast p => exact ⟨_, rfl, h.tailLast, rfl⟩
  | headPrev p => exact ⟨_, if_neg h.headPrev.1, h.headPrev.2, rfl⟩
  | headFirst p => exact ⟨_, rfl, h.headFirst, rfl⟩
  | innerNext p => exact ⟨_, if_neg h.innerNext.1, h.innerNext.2, rfl⟩
  | innerPrev p => exact ⟨_, if_neg h.innerPrev.1, h.innerPrev.2, rfl⟩
  | free p =>
    refine ⟨_, rfl, h.free, ?_⟩
    have hp : p ∈ m.requests := h.disk
    have hpos := List.length_pos_of_mem hp
    simp only [List.length_erase_of_mem hp, RemovePc.taken, Bool.toNat_true, Bool.toNat_false]
    omega
  | decSize => exact ⟨_, rfl, h.decSize, rfl⟩

end PingPong
