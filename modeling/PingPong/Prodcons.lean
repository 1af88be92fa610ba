import PingPong.BoundedQueue
import Mathlib.Data.Fintype.Sum

/-! The test program pingpong-prodcons, statement by statement, with any number of
producers, consumers and places. `sVaga` and `sItem` are the places that are free and
the items that are in the buffer, less those that a task has laid claim to, so the
buffer is never read empty nor written full, and it is a queue. -/

namespace PingPong

open Runs
open BoundedQueue (putOf gotOf handledOf revealedOf)

/-- Where a task is. The loop variable of `bufferRetrieve` is `j`. -/
inductive ProdconsPc
  | sleepProd
  | draw
  | downVaga (item : Int)
  | downBufferProd (item : Int)
  | place (item : Int)
  | incr (item : Int)
  | upBufferProd (item : Int)
  | upItem (item : Int)
  | printProd (item : Int)
  | downItem
  | downBufferCons
  | readFirst
  | forTest (item : Int) (j : Nat)
  | shift (item : Int) (j : Nat)
  | decr (item : Int)
  | upBufferCons (item : Int)
  | upVaga (item : Int)
  | printCons (item : Int)
  | sleepCons
  deriving DecidableEq, Repr

structure Prodcons (p c : Nat) where
  array : Nat → Int
  i : Nat
  sBuffer : Nat
  sItem : Nat
  sVaga : Nat
  pc : Fin p ⊕ Fin c → ProdconsPc

/-- `tamBuffer` is what `sVaga` is created with. -/
def Prodcons.start (p c tamBuffer : Nat) : Prodcons p c where
  array _ := 0
  i := 0
  sBuffer := 1
  sItem := 0
  sVaga := tamBuffer
  pc := Sum.elim (fun _ => .sleepProd) fun _ => .downItem

section Prodcons

variable {p c : Nat}

def Prodcons.goto (s : Prodcons p c) (t : Fin p ⊕ Fin c) (k : ProdconsPc) : Prodcons p c :=
  { s with pc := Function.update s.pc t k }

/-- A task takes its next step; `r` is what `random` returns if it is called. -/
def prodconsStep (s : Prodcons p c) : (Fin p ⊕ Fin c) × Nat → Option (Prodcons p c)
  | (t, r) =>
    match s.pc t with
    | .sleepProd => some (s.goto t .draw)
    | .draw => some (s.goto t (.downVaga (r % 100 : Nat)))
    | .downVaga item =>
      if s.sVaga = 0 then none
      else some ({ s with sVaga := s.sVaga - 1 }.goto t (.downBufferProd item))
    | .downBufferProd item =>
      if s.sBuffer = 0 then none
      else some ({ s with sBuffer := s.sBuffer - 1 }.goto t (.place item))
    | .place item =>
      some ({ s with array := Function.update s.array s.i item }.goto t (.incr item))
    | .incr item => some ({ s with i := s.i + 1 }.goto t (.upBufferProd item))
    | .upBufferProd item => some ({ s with sBuffer := s.sBuffer + 1 }.goto t (.upItem item))
    | .upItem item => some ({ s with sItem := s.sItem + 1 }.goto t (.printProd item))
    | .printProd _ => some (s.goto t .sleepProd)
    | .downItem =>
      if s.sItem = 0 then none
      else some ({ s with sItem := s.sItem - 1 }.goto t .downBufferCons)
    | .downBufferCons =>
      if s.sBuffer = 0 then none
      else some ({ s with sBuffer := s.sBuffer - 1 }.goto t .readFirst)
    | .readFirst => some (s.goto t (.forTest (s.array 0) 1))
    | .forTest item j =>
      if j < s.i then some (s.goto t (.shift item j)) else some (s.goto t (.decr item))
    | .shift item j =>
      some ({ s with array := Function.update s.array (j - 1) (s.array j) }.goto t
        (.forTest item (j + 1)))
    | .decr item => some ({ s with i := s.i - 1 }.goto t (.upBufferCons item))
    | .upBufferCons item => some ({ s with sBuffer := s.sBuffer + 1 }.goto t (.upVaga item))
    | .upVaga item => some ({ s with sVaga := s.sVaga + 1 }.goto t (.printCons item))
    | .printCons _ => some (s.goto t .sleepCons)
    | .sleepCons => some (s.goto t .downItem)

/-- The moves of the buffer, which take effect with the last write, and the printed
items. -/
def prodconsLabel (s : Prodcons p c) (a : (Fin p ⊕ Fin c) × Nat) :
    Option (BoundedQueue.Label (Fin p ⊕ Fin c) Int) :=
  match s.pc a.1 with
  | .incr item => some (.put a.1 item)
  | .decr item => some (.get a.1 item)
  | .printProd item | .printCons item => some (.reveal a.1 item)
  | _ => none

def prodconsTrace (p c tamBuffer : Nat) (as : List ((Fin p ⊕ Fin c) × Nat)) :
    List (BoundedQueue.Label (Fin p ⊕ Fin c) Int) :=
  traceOf prodconsStep prodconsLabel (Prodcons.start p c tamBuffer) as

def ProdconsPc.critical : ProdconsPc → Bool
  | .place _ | .incr _ | .upBufferProd _ | .readFirst | .forTest _ _ | .shift _ _ | .decr _
  | .upBufferCons _ => true
  | _ => false

/-- The task has a free place, or has freed one and not told. -/
def ProdconsPc.slot : ProdconsPc → Bool
  | .downBufferProd _ | .place _ | .incr _ | .upBufferCons _ | .upVaga _ => true
  | _ => false

/-- The task has a claim to an item, or has placed one and not told. -/
def ProdconsPc.claim : ProdconsPc → Bool
  | .upBufferProd _ | .upItem _ | .downBufferCons | .readFirst | .forTest _ _ | .shift _ _
  | .decr _ => true
  | _ => false

/-- The item that is placed or retrieved, and not printed. -/
def ProdconsPc.inHand : ProdconsPc → Option Int
  | .upBufferProd item | .upItem item | .printProd item | .upBufferCons item | .upVaga item
  | .printCons item => some item
  | _ => none

def ProdconsPc.producing : ProdconsPc → Bool
  | .sleepProd | .draw | .downVaga _ | .downBufferProd _ | .place _ | .incr _ | .upBufferProd _
  | .upItem _ | .printProd _ => true
  | _ => false

def ProdconsPc.InBounds (size i : Nat) : ProdconsPc → Prop
  | .place _ => i < size
  | .readFirst | .decr _ => 0 < i ∧ i ≤ size
  | .shift _ j => 0 < j ∧ j < i ∧ i ≤ size
  | _ => True

def Stores (array : Nat → Int) (q : List Int) : Prop := ∀ k v, q[k]? = some v → array k = v

/-- `bufferRetrieve` has read the first item and moved those before place `j` down. -/
def Shifted (array : Nat → Int) (item : Int) (j : Nat) (q : List Int) : Prop :=
  ∃ rest, q = item :: rest ∧
    ∀ k v, rest[k]? = some v → array (if k + 1 < j then k else k + 1) = v

/-- What a task in the critical section has made of the array. -/
def ProdconsPc.Fits (array : Nat → Int) (q : List Int) : ProdconsPc → Prop
  | .incr item => Stores array (q ++ [item])
  | .forTest item j => Shifted array item j q ∧ 0 < j
  | .shift item j => Shifted array item j q ∧ 0 < j ∧ j < q.length
  | .decr item => ∃ rest, q = item :: rest ∧ Stores array rest
  | .place _ | .upBufferProd _ | .readFirst | .upBufferCons _ => Stores array q
  | _ => True

structure Prodcons.IsQueue (size : Nat) (s : Prodcons p c)
    (x : BoundedQueue.State (Fin p ⊕ Fin c) Int) : Prop where
  critical : s.sBuffer + countAt ProdconsPc.critical s.pc = 1
  slots : s.sVaga + countAt ProdconsPc.slot s.pc + s.i = size
  claims : s.sItem + countAt ProdconsPc.claim s.pc = s.i
  length : x.queue.length = s.i
  hand : ∀ t, x.hand t = (s.pc t).inHand
  fits : ∀ t, (s.pc t).Fits s.array x.queue
  free : 0 < s.sBuffer → Stores s.array x.queue

variable {size : Nat} {s u : Prodcons p c} {x y : BoundedQueue.State (Fin p ⊕ Fin c) Int}
  {t : Fin p ⊕ Fin c} {k k' : ProdconsPc}

theorem ProdconsPc.fits_of_outside (hk : k.critical = false) (array : Nat → Int) (q : List Int) :
    k.Fits array q := by
  cases k <;> trivial

theorem Stores.update {array : Nat → Int} {q : List Int} (h : Stores array q) (v : Int) :
    Stores (Function.update array q.length v) (q ++ [v]) := by
  intro k w hk
  by_cases hlast : k = q.length
  · subst k
    simpa using hk
  · rw [Function.update_of_ne hlast]
    rw [List.getElem?_append] at hk
    split_ifs at hk with hlt
    · exact h k w hk
    · have hnone : [v][k - q.length]? = none := by
        rw [List.getElem?_eq_none_iff, List.length_singleton]
        omega
      rw [hnone] at hk
      cases hk

/-- `bufferRetrieve` has moved nothing yet. -/
theorem Stores.shifted {array : Nat → Int} {q : List Int} (h : Stores array q)
    (hq : 0 < q.length) : Shifted array (array 0) 1 q := by
  obtain ⟨v, rest, rfl⟩ := List.exists_cons_of_length_pos hq
  have hv : array 0 = v := h 0 v rfl
  refine ⟨rest, by rw [hv], fun k w hk => ?_⟩
  rw [if_neg (by omega)]
  exact h (k + 1) w hk

theorem Shifted.shift {array : Nat → Int} {q : List Int} {item : Int} {j : Nat}
    (h : Shifted array item j q) (hj : 0 < j) :
    Shifted (Function.update array (j - 1) (array j)) item (j + 1) q := by
  obtain ⟨rest, hq, hrest⟩ := h
  refine ⟨rest, hq, fun k w hk => ?_⟩
  have hold := hrest k w hk
  by_cases hlast : k = j - 1
  · subst k
    rw [if_pos (by omega), Function.update_self]
    rwa [if_neg (by omega), Nat.sub_add_cancel hj] at hold
  · by_cases hlt : k + 1 < j
    · rw [if_pos (by omega), Function.update_of_ne hlast]
      rwa [if_pos hlt] at hold
    · rw [if_neg (by omega), Function.update_of_ne (by omega)]
      rwa [if_neg hlt] at hold

theorem Shifted.stores {array : Nat → Int} {q : List Int} {item : Int} {j : Nat}
    (h : Shifted array item j q) (hj : q.length ≤ j) :
    ∃ rest, q = item :: rest ∧ Stores array rest := by
  obtain ⟨rest, rfl, hrest⟩ := h
  refine ⟨rest, rfl, fun k w hk => ?_⟩
  obtain ⟨hlt, -⟩ := List.getElem?_eq_some_iff.mp hk
  rw [List.length_cons] at hj
  have hold := hrest k w hk
  rwa [if_pos (by omega)] at hold

theorem start_isQueue (p c size : Nat) :
    (Prodcons.start p c size).IsQueue size ⟨[], fun _ => none⟩ where
  critical := by
    rw [countAt_eq_zero (by rintro (t | t) <;> rfl)]
    rfl
  slots := by
    rw [countAt_eq_zero (by rintro (t | t) <;> rfl)]
    rfl
  claims := by
    rw [countAt_eq_zero (by rintro (t | t) <;> rfl)]
    rfl
  length := rfl
  hand := by rintro (t | t) <;> rfl
  fits := by rintro (t | t) <;> trivial
  free _ := by
    intro k v hk
    cases hk

/-- A task moves from `k` to `k'`. Unless it is alone in the buffer it leaves the buffer
as it is. -/
theorem Prodcons.IsQueue.move (h : s.IsQueue size x) (hpc : s.pc t = k)
    (hupc : u.pc = Function.update s.pc t k')
    (hcritical : u.sBuffer + k'.critical.toNat = s.sBuffer + k.critical.toNat)
    (hslot : u.sVaga + k'.slot.toNat + u.i = s.sVaga + k.slot.toNat + s.i)
    (hclaim : u.sItem + k'.claim.toNat + s.i = s.sItem + k.claim.toNat + u.i)
    (hlength : y.queue.length = u.i) (hhand : y.hand = Function.update x.hand t k'.inHand)
    (hself : k'.Fits u.array y.queue)
    (hothers : k.critical = true ∨ u.array = s.array ∧ y.queue = x.queue)
    (hfree : 0 < u.sBuffer → Stores u.array y.queue) : u.IsQueue size y := by
  have hcount (f : ProdconsPc → Bool) := countAt_update f (x := k') hpc
  have hc := h.critical
  have hs := h.slots
  have hi := h.claims
  refine ⟨?_, ?_, ?_, hlength, fun t' => ?_, fun t' => ?_, hfree⟩
  · have hnew := hcount ProdconsPc.critical
    rw [hupc]
    omega
  · have hnew := hcount ProdconsPc.slot
    rw [hupc]
    omega
  · have hnew := hcount ProdconsPc.claim
    rw [hupc]
    omega
  · rw [hhand, hupc]
    by_cases ht : t' = t
    · subst t'
      rw [Function.update_self, Function.update_self]
    · rw [Function.update_of_ne ht, Function.update_of_ne ht, h.hand]
  · rw [hupc]
    by_cases ht : t' = t
    · subst t'
      rwa [Function.update_self]
    · rw [Function.update_of_ne ht]
      rcases hothers with hk | ⟨harray, hqueue⟩
      · have hout : (s.pc t').critical = false := by
          by_contra hin
          refine ht (eq_of_countAt_le_one (p := ProdconsPc.critical) (by omega) ?_ (hpc ▸ hk))
          simpa using hin
        exact ProdconsPc.fits_of_outside hout _ _
      · rw [harray, hqueue]
        exact h.fits t'

/-- The same for a step that changes neither the buffer nor what the task holds. -/
theorem Prodcons.IsQueue.quiet (h : s.IsQueue size x) (hpc : s.pc t = k)
    (hupc : u.pc = Function.update s.pc t k')
    (hcritical : u.sBuffer + k'.critical.toNat = s.sBuffer + k.critical.toNat)
    (hslot : u.sVaga + k'.slot.toNat = s.sVaga + k.slot.toNat)
    (hclaim : u.sItem + k'.claim.toNat = s.sItem + k.claim.toNat)
    (harray : u.array = s.array) (hi : u.i = s.i) (hhand : k'.inHand = k.inHand)
    (hself : k'.Fits s.array x.queue) (hfree : 0 < u.sBuffer → Stores s.array x.queue) :
    u.IsQueue size x := by
  refine h.move hpc hupc hcritical (by omega) (by omega) (hi ▸ h.length) ?_ (harray ▸ hself)
    (.inr ⟨harray, rfl⟩) (harray ▸ hfree)
  rw [hhand, ← hpc, ← h.hand, Function.update_eq_self]

theorem Prodcons.IsQueue.locked (h : s.IsQueue size x) (hpc : s.pc t = k)
    (hk : k.critical = true) : s.sBuffer = 0 := by
  have hcount := countAt_pos (p := ProdconsPc.critical) (hpc ▸ hk)
  have hc := h.critical
  omega

theorem Prodcons.IsQueue.work (h : s.IsQueue size x) (hpc : s.pc t = k)
    (hk : k.critical = true) (hk' : k'.critical = true)
    (hupc : u.pc = Function.update s.pc t k') (hsBuffer : u.sBuffer = s.sBuffer)
    (hslot : u.sVaga + k'.slot.toNat + u.i = s.sVaga + k.slot.toNat + s.i)
    (hclaim : u.sItem + k'.claim.toNat + s.i = s.sItem + k.claim.toNat + u.i)
    (hlength : y.queue.length = u.i) (hhand : y.hand = Function.update x.hand t k'.inHand)
    (hself : k'.Fits u.array y.queue) : u.IsQueue size y := by
  refine h.move hpc hupc (by rw [hsBuffer, hk, hk']) hslot hclaim hlength hhand hself (.inl hk)
    fun hpos => ?_
  rw [hsBuffer, h.locked hpc hk] at hpos
  exact absurd hpos (Nat.lt_irrefl 0)

theorem Prodcons.IsQueue.idle_hand (h : s.IsQueue size x) (hpc : s.pc t = k)
    (hk : k.inHand = none) : x.hand = Function.update x.hand t none := by
  rw [← hk, ← hpc, ← h.hand, Function.update_eq_self]

/-- The buffer changes with the last write to `i`, and nothing is seen of it before. -/
theorem Prodcons.IsQueue.step {a : (Fin p ⊕ Fin c) × Nat} (h : s.IsQueue size x)
    (hu : prodconsStep s a = some u) :
    ∃ y, Trace (BoundedQueue.Step size) x (prodconsLabel s a).toList y ∧ u.IsQueue size y := by
  obtain ⟨t, r⟩ := a
  have hfits := h.fits t
  have hhand := h.hand t
  have hlength := h.length
  cases hpc : s.pc t <;> rw [hpc] at hfits hhand <;>
    simp only [prodconsStep, prodconsLabel, hpc, Option.toList_none, Option.toList_some] at hu ⊢
  case sleepProd | draw | sleepCons =>
    cases hu
    exact ⟨x, .nil, h.quiet hpc rfl rfl rfl rfl rfl rfl rfl trivial h.free⟩
  case downVaga item =>
    split_ifs at hu with hzero
    cases hu
    refine ⟨x, .nil, h.quiet hpc rfl rfl ?_ rfl rfl rfl rfl trivial h.free⟩
    exact Nat.sub_add_cancel (Nat.pos_of_ne_zero hzero)
  case downItem =>
    split_ifs at hu with hzero
    cases hu
    refine ⟨x, .nil, h.quiet hpc rfl rfl rfl ?_ rfl rfl rfl trivial h.free⟩
    exact Nat.sub_add_cancel (Nat.pos_of_ne_zero hzero)
  case downBufferProd | downBufferCons =>
    split_ifs at hu with hzero
    cases hu
    have hstores := h.free (Nat.pos_of_ne_zero hzero)
    refine ⟨x, .nil, h.quiet hpc rfl ?_ rfl rfl rfl rfl rfl hstores fun _ => hstores⟩
    exact Nat.sub_add_cancel (Nat.pos_of_ne_zero hzero)
  case place item =>
    cases hu
    refine ⟨x, .nil, h.work hpc rfl rfl rfl rfl rfl rfl hlength (h.idle_hand hpc rfl) ?_⟩
    show Stores (Function.update s.array s.i item) (x.queue ++ [item])
    rw [← hlength]
    exact Stores.update hfits item
  case incr item =>
    cases hu
    have hcount : 0 < countAt ProdconsPc.slot s.pc := countAt_pos (i := t) (by rw [hpc]; rfl)
    have hslots := h.slots
    refine ⟨_, .single (.put hhand (by omega)), h.work hpc rfl rfl rfl rfl ?_ ?_ ?_ rfl hfits⟩
    · show s.sVaga + 0 + (s.i + 1) = s.sVaga + 1 + s.i
      omega
    · show s.sItem + 1 + s.i = s.sItem + 0 + (s.i + 1)
      omega
    · show (x.queue ++ [item]).length = s.i + 1
      rw [List.length_append, List.length_singleton, hlength]
  case upBufferProd | upBufferCons =>
    cases hu
    exact ⟨x, .nil, h.quiet hpc rfl rfl rfl rfl rfl rfl rfl trivial fun _ => hfits⟩
  case upItem | upVaga =>
    cases hu
    exact ⟨x, .nil, h.quiet hpc rfl rfl rfl rfl rfl rfl rfl trivial h.free⟩
  case printProd item | printCons item =>
    cases hu
    exact ⟨_, .single (.reveal hhand),
      h.move hpc rfl rfl rfl rfl hlength rfl trivial (.inr ⟨rfl, rfl⟩) h.free⟩
  case readFirst =>
    cases hu
    have hcount : 0 < countAt ProdconsPc.claim s.pc := countAt_pos (i := t) (by rw [hpc]; rfl)
    have hclaims := h.claims
    refine ⟨x, .nil, h.work hpc rfl rfl rfl rfl rfl rfl hlength (h.idle_hand hpc rfl) ?_⟩
    exact ⟨Stores.shifted hfits (by omega), Nat.one_pos⟩
  case forTest item j =>
    split_ifs at hu with hj
    · cases hu
      refine ⟨x, .nil, h.work hpc rfl rfl rfl rfl rfl rfl hlength (h.idle_hand hpc rfl) ?_⟩
      exact ⟨hfits.1, hfits.2, hlength ▸ hj⟩
    · cases hu
      refine ⟨x, .nil, h.work hpc rfl rfl rfl rfl rfl rfl hlength (h.idle_hand hpc rfl) ?_⟩
      exact hfits.1.stores (by omega)
  case shift item j =>
    cases hu
    refine ⟨x, .nil, h.work hpc rfl rfl rfl rfl rfl rfl hlength (h.idle_hand hpc rfl) ?_⟩
    exact ⟨hfits.1.shift hfits.2.1, Nat.succ_pos j⟩
  case decr item =>
    cases hu
    obtain ⟨rest, hqueue, hstores⟩ := hfits
    rw [hqueue, List.length_cons] at hlength
    refine ⟨_, .single (.get hhand hqueue), h.work hpc rfl rfl rfl rfl ?_ ?_ ?_ rfl hstores⟩
    · show s.sVaga + 1 + (s.i - 1) = s.sVaga + 0 + s.i
      omega
    · show s.sItem + 0 + s.i = s.sItem + 1 + (s.i - 1)
      omega
    · show rest.length = s.i - 1
      omega

theorem Prodcons.IsQueue.inBounds (h : s.IsQueue size x) (t : Fin p ⊕ Fin c) :
    (s.pc t).InBounds size s.i := by
  have hfits := h.fits t
  have hlength := h.length
  have hslots := h.slots
  have hclaims := h.claims
  have hslot (hk : (s.pc t).slot = true) := countAt_pos (p := ProdconsPc.slot) hk
  have hclaim (hk : (s.pc t).claim = true) := countAt_pos (p := ProdconsPc.claim) hk
  cases hpc : s.pc t <;> rw [hpc] at hfits hslot hclaim <;> try trivial
  case place item =>
    have hpos := hslot rfl
    show s.i < size
    omega
  case readFirst | decr item =>
    have hpos := hclaim rfl
    show 0 < s.i ∧ s.i ≤ size
    omega
  case shift item j =>
    obtain ⟨-, hj, hlt⟩ := hfits
    show 0 < j ∧ j < s.i ∧ s.i ≤ size
    omega

theorem prodconsStep_producing {a : (Fin p ⊕ Fin c) × Nat} (hu : prodconsStep s a = some u)
    (t' : Fin p ⊕ Fin c) : (u.pc t').producing = (s.pc t').producing := by
  obtain ⟨t, r⟩ := a
  have hmove : ∃ k', u.pc = Function.update s.pc t k' ∧
      k'.producing = (s.pc t).producing := by
    cases hpc : s.pc t <;> simp only [prodconsStep, hpc] at hu <;>
      first
      | (cases hu; exact ⟨_, rfl, rfl⟩)
      | (split_ifs at hu <;> cases hu <;> exact ⟨_, rfl, rfl⟩)
  obtain ⟨k', hupc, hk'⟩ := hmove
  rw [hupc]
  by_cases ht : t' = t
  · subst t'
    rw [Function.update_self, hk']
  · rw [Function.update_of_ne ht]

/-- A task waits only at `sem_down`. -/
theorem enabled_or_blocked (s : Prodcons p c) (t : Fin p ⊕ Fin c) :
    (∃ u, prodconsStep s (t, 0) = some u) ∨ (∃ item, s.pc t = .downVaga item) ∧ s.sVaga = 0 ∨
      s.pc t = .downItem ∧ s.sItem = 0 ∨
        ((∃ item, s.pc t = .downBufferProd item) ∨ s.pc t = .downBufferCons) ∧ s.sBuffer = 0 := by
  cases hpc : s.pc t <;> simp only [prodconsStep, hpc]
  case downVaga item =>
    by_cases hzero : s.sVaga = 0 <;> simp [hzero]
  case downItem =>
    by_cases hzero : s.sItem = 0 <;> simp [hzero]
  case downBufferProd | downBufferCons =>
    by_cases hzero : s.sBuffer = 0 <;> simp [hzero]
  case forTest item j =>
    left
    split_ifs
    · exact ⟨_, rfl⟩
    · exact ⟨_, rfl⟩
  all_goals exact .inl ⟨_, rfl⟩

theorem Prodcons.IsQueue.enabled (h : s.IsQueue size x)
    (hroles : ∀ t, (s.pc t).producing = t.isLeft) (hsize : 0 < size) (hp : 0 < p)
    (hc : 0 < c) : ∃ a u, prodconsStep s a = some u := by
  by_contra hstuck
  have hblocked (t : Fin p ⊕ Fin c) := (enabled_or_blocked s t).resolve_left
    fun ⟨u, hu⟩ => hstuck ⟨_, u, hu⟩
  have hfree : s.sBuffer = 1 := by
    have hnone : countAt ProdconsPc.critical s.pc = 0 := countAt_eq_zero fun t => by
      rcases hblocked t with ⟨⟨item, hk⟩, -⟩ | ⟨hk, -⟩ | ⟨⟨item, hk⟩ | hk, -⟩ <;> rw [hk] <;> rfl
    have hcritical := h.critical
    omega
  have hdown (t : Fin p ⊕ Fin c) : (∃ item, s.pc t = .downVaga item) ∧ s.sVaga = 0 ∨
      s.pc t = .downItem ∧ s.sItem = 0 := by
    rcases hblocked t with hk | hk | ⟨-, hzero⟩
    · exact .inl hk
    · exact .inr hk
    · omega
  have hslot : countAt ProdconsPc.slot s.pc = 0 := countAt_eq_zero fun t => by
    rcases hdown t with ⟨⟨item, hk⟩, -⟩ | ⟨hk, -⟩ <;> rw [hk] <;> rfl
  have hclaim : countAt ProdconsPc.claim s.pc = 0 := countAt_eq_zero fun t => by
    rcases hdown t with ⟨⟨item, hk⟩, -⟩ | ⟨hk, -⟩ <;> rw [hk] <;> rfl
  have hslots := h.slots
  have hclaims := h.claims
  have hprod : s.sVaga = 0 := by
    rcases hdown (.inl ⟨0, hp⟩) with ⟨-, hzero⟩ | ⟨hk, -⟩
    · exact hzero
    · have hrole := hroles (.inl ⟨0, hp⟩)
      rw [hk] at hrole
      cases hrole
  have hcons : s.sItem = 0 := by
    rcases hdown (.inr ⟨0, hc⟩) with ⟨⟨item, hk⟩, -⟩ | ⟨-, hzero⟩
    · have hrole := hroles (.inr ⟨0, hc⟩)
      rw [hk] at hrole
      cases hrole
    · exact hzero
  omega

/-- In every interleaving of the statements the buffer is a queue of `size` places: the
items are retrieved in the order in which they were placed, each once, and each task
prints those that it has placed or retrieved, in that order. The array is never
accessed outside, and the tasks are never all blocked. -/
theorem prodcons_fifo {as : List ((Fin p ⊕ Fin c) × Nat)}
    (hrun : run prodconsStep (Prodcons.start p c size) as = some u) :
    ∃ q hand,
      Trace (BoundedQueue.Step size) ⟨[], fun _ => none⟩ (prodconsTrace p c size as) ⟨q, hand⟩ ∧
      (prodconsTrace p c size as).filterMap putOf =
        (prodconsTrace p c size as).filterMap gotOf ++ q ∧ q.length ≤ size ∧
      (∀ t, (prodconsTrace p c size as).filterMap (handledOf t) =
        (prodconsTrace p c size as).filterMap (revealedOf t) ++ (u.pc t).inHand.toList) ∧
      (0 < u.sBuffer → u.i = q.length ∧ Stores u.array q) ∧
      (∀ t, (u.pc t).InBounds size u.i) ∧
      (0 < size → 0 < p → 0 < c → ∃ a v, prodconsStep u a = some v) := by
  have hstart := start_isQueue p c size
  obtain ⟨⟨q, hand⟩, htrace, hqueue⟩ := simulation (fun s a t x hs _ hstep => hs.step hstep) hstart
    (along_trivial _ _ as) hrun
  have hroles : ∀ t, (u.pc t).producing = t.isLeft := by
    refine run_invariant (P := fun s => ∀ t, (s.pc t).producing = t.isLeft)
      (fun s a v hs _ hstep t => (prodconsStep_producing hstep t).trans (hs t)) ?_
      (along_trivial _ _ as) hrun
    rintro (t | t) <;> rfl
  obtain ⟨hfifo, hlength, hhand⟩ := BoundedQueue.trace_account htrace (Nat.zero_le size)
  refine ⟨q, hand, htrace, hfifo, hlength, fun t => ?_, fun hpos => ⟨hqueue.length.symm,
    hqueue.free hpos⟩, hqueue.inBounds, hqueue.enabled hroles⟩
  rw [← hqueue.hand]
  exact hhand t

end Prodcons

/-- The producer places two items; the consumer moves the second one down and is still
to print the first. -/
def smallProdcons (prod cons : Fin 1 ⊕ Fin 1) : List ((Fin 1 ⊕ Fin 1) × Nat) :=
  List.replicate 9 (prod, 142) ++ List.replicate 9 (prod, 207) ++ List.replicate 9 (cons, 0)

theorem prodcons_fifo_small : ∃ u : Prodcons 1 1, ∃ q,
    run prodconsStep (Prodcons.start 1 1 5) (smallProdcons (.inl 0) (.inr 0)) = some u ∧
      [42, 7] = [42] ++ q ∧ 0 < u.sBuffer ∧ u.i = q.length ∧ Stores u.array q := by
  have hu : (run prodconsStep (Prodcons.start 1 1 5)
      (smallProdcons (.inl 0) (.inr 0))).isSome = true := by decide
  obtain ⟨u, hu⟩ := Option.isSome_iff_exists.mp hu
  obtain ⟨q, hand, -, hfifo, -, -, hstores, -⟩ := prodcons_fifo hu
  have hput : (prodconsTrace 1 1 5 (smallProdcons (.inl 0) (.inr 0))).filterMap putOf =
      [42, 7] := by decide
  have hgot : (prodconsTrace 1 1 5 (smallProdcons (.inl 0) (.inr 0))).filterMap gotOf =
      [42] := by decide
  have hpos : (run prodconsStep (Prodcons.start 1 1 5) (smallProdcons (.inl 0) (.inr 0))).map
      (·.sBuffer) = some 1 := by decide
  rw [hu, Option.map_some, Option.some.injEq] at hpos
  rw [hput, hgot] at hfifo
  exact ⟨u, q, hu, hfifo, by omega, hstores (by omega)⟩

end PingPong
