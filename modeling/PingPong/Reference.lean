import PingPong.Selection
import Mathlib.Data.List.Nodup
import Mathlib.Logic.Function.Iterate

/-! Aging as an abstract machine: the first task with the least dynamic priority
is chosen, reset to its static priority and put at the end of the queue, and the
others age by one. Two machines that differ only in the priorities of the tasks
not chosen yet are compared step by step. -/

namespace PingPong

structure Aged (τ : Type*) where
  queue : List τ
  dinam : τ → Int

namespace Aged

variable {τ : Type*}

def choice (s : Aged τ) : Option τ := Selection.least s.dinam s.queue

theorem choice_isSome {s : Aged τ} (h : s.queue ≠ []) : ∃ x, s.choice = some x := by
  refine Option.ne_none_iff_exists'.mp fun hnone => h ?_
  exact List.argmin_eq_none.mp hnone

theorem choice_mem {s : Aged τ} {x : τ} (h : s.choice = some x) : x ∈ s.queue :=
  List.argmin_mem h

theorem choice_le {s : Aged τ} {x y : τ} (h : s.choice = some x) (hy : y ∈ s.queue) :
    s.dinam x ≤ s.dinam y := List.le_of_mem_argmin hy h

/-- After `k` choices: the tasks `U` are still to be chosen for the first time,
with dynamic priorities that were 0 and `static` at the start, and the tasks `C`
have been chosen. -/
structure Coupled (static : τ → Int) (k : Int) (a b : Aged τ) (U C : List τ) : Prop where
  left : a.queue = U ++ C
  right : b.queue = U ++ C
  nodup : (U ++ C).Nodup
  zero : ∀ u ∈ U, a.dinam u = -k
  fromStatic : ∀ u ∈ U, b.dinam u = static u - k
  same : ∀ y ∈ C, b.dinam y = a.dinam y

theorem start_coupled (static : τ → Int) {order : List τ} (hnd : order.Nodup) :
    Coupled static 0 ⟨order, fun _ => 0⟩ ⟨order, static⟩ order [] where
  left := (List.append_nil order).symm
  right := (List.append_nil order).symm
  nodup := (List.append_nil order).symm ▸ hnd
  zero _ _ := rfl
  fromStatic u _ := (Int.sub_zero (static u)).symm
  same _ hy := absurd hy List.not_mem_nil

variable [DecidableEq τ]

def next (static : τ → Int) (s : Aged τ) : Aged τ :=
  match s.choice with
  | some x =>
    ⟨s.queue.erase x ++ [x], fun y =>
      if y = x then static x else if y ∈ s.queue then s.dinam y - 1 else s.dinam y⟩
  | none => s

theorem next_queue {static : τ → Int} {s : Aged τ} {x : τ} (h : s.choice = some x) :
    (s.next static).queue = s.queue.erase x ++ [x] := by
  simp only [next, h]

theorem next_reset {static : τ → Int} {s : Aged τ} {x : τ} (h : s.choice = some x) :
    (s.next static).dinam x = static x := by
  simp only [next, h, if_true]

theorem next_aged {static : τ → Int} {s : Aged τ} {x y : τ} (h : s.choice = some x)
    (hy : y ∈ s.queue) (hne : y ≠ x) : (s.next static).dinam y = s.dinam y - 1 := by
  simp only [next, h, if_neg hne, if_pos hy]

theorem choice_head {s : Aged τ} {x : τ} {l : List τ} (hq : s.queue = x :: l) :
    s.choice = some x ↔ ∀ y ∈ l, s.dinam x ≤ s.dinam y := by
  rw [choice, Selection.least, List.argmin_eq_some_iff, hq]
  constructor
  · intro h y hy
    exact h.2.1 y (List.mem_cons_of_mem x hy)
  · intro h
    refine ⟨List.mem_cons_self, List.forall_mem_cons.mpr ⟨Int.le_refl _, h⟩, fun y _ _ => ?_⟩
    rw [List.idxOf_cons_self]
    exact Nat.zero_le _

theorem choice_last {s : Aged τ} {x : τ} {l : List τ} (hq : s.queue = l ++ [x]) (hx : x ∉ l) :
    s.choice = some x ↔ ∀ y ∈ l, s.dinam x < s.dinam y := by
  rw [choice, Selection.least, List.argmin_eq_some_iff, hq]
  have hidx : (l ++ [x]).idxOf x = l.length := by
    rw [List.idxOf_append_of_notMem hx, List.idxOf_cons_self, Nat.add_zero]
  constructor
  · intro h y hy
    have hle := h.2.1 y (List.mem_append_left _ hy)
    refine lt_of_le_of_ne hle fun he => ?_
    have hfirst := h.2.2 y (List.mem_append_left _ hy) he.ge
    rw [hidx, List.idxOf_append_of_mem hy] at hfirst
    exact absurd (List.idxOf_lt_length_of_mem hy) (Nat.not_lt.mpr hfirst)
  · intro h
    refine ⟨List.mem_append_right _ List.mem_cons_self, fun y hy => ?_, fun y hy hle => ?_⟩
    · rcases List.mem_append.mp hy with hl | hl
      · exact (h y hl).le
      · rw [List.mem_singleton.mp hl]
    · rcases List.mem_append.mp hy with hl | hl
      · exact absurd hle (Int.not_le.mpr (h y hl))
      · rw [List.mem_singleton.mp hl]

/-- The choice depends only on how the chosen task compares with the others. -/
theorem choice_congr {a b : Aged τ} {x : τ} (hq : b.queue = a.queue)
    (hcmp : ∀ y ∈ a.queue, (a.dinam x ≤ a.dinam y ↔ b.dinam x ≤ b.dinam y) ∧
      (a.dinam y ≤ a.dinam x ↔ b.dinam y ≤ b.dinam x)) :
    a.choice = some x ↔ b.choice = some x := by
  rw [choice, choice, Selection.least, Selection.least, List.argmin_eq_some_iff,
    List.argmin_eq_some_iff, hq]
  refine and_congr_right fun _ => and_congr ?_ ?_
  · exact forall₂_congr fun y hy => (hcmp y hy).1
  · exact forall₂_congr fun y hy => imp_congr (hcmp y hy).2 Iff.rfl

theorem choice_eq_of_same {a b : Aged τ} (hq : b.queue = a.queue)
    (hd : ∀ y ∈ a.queue, b.dinam y = a.dinam y) : a.choice = b.choice := by
  refine Option.ext fun x => ?_
  constructor
  · intro h
    refine (choice_congr hq fun y hy => ?_).mp h
    rw [hd x (choice_mem h), hd y hy]
    exact ⟨Iff.rfl, Iff.rfl⟩
  · intro h
    refine (choice_congr hq fun y hy => ?_).mpr h
    rw [hd x (hq ▸ choice_mem h), hd y hy]
    exact ⟨Iff.rfl, Iff.rfl⟩

/-- What a machine chooses depends on its queue and on the priorities in it. -/
theorem iterate_congr {static static' : τ → Int} {a b : Aged τ} (hq : b.queue = a.queue)
    (hd : ∀ y ∈ a.queue, b.dinam y = a.dinam y) (hs : ∀ y ∈ a.queue, static' y = static y)
    (k : Nat) : ((next static)^[k] a).choice = ((next static')^[k] b).choice := by
  induction k generalizing a b with
  | zero => exact choice_eq_of_same hq hd
  | succ k ih =>
    have hsame := choice_eq_of_same hq hd
    rw [Function.iterate_succ_apply, Function.iterate_succ_apply]
    cases ha : a.choice with
    | none =>
      have hb : b.choice = none := hsame ▸ ha
      simp only [next, ha, hb]
      exact ih hq hd hs
    | some x =>
      have hb : b.choice = some x := hsame ▸ ha
      have hmem (y : τ) (hy : y ∈ (a.next static).queue) : y ∈ a.queue := by
        rw [next_queue ha, List.mem_append, List.mem_singleton] at hy
        rcases hy with hy | rfl
        · exact List.mem_of_mem_erase hy
        · exact choice_mem ha
      refine ih ?_ (fun y hy => ?_) fun y hy => hs y (hmem y hy)
      · rw [next_queue ha, next_queue hb, hq]
      · by_cases hyx : y = x
        · rw [hyx, next_reset ha, next_reset hb, hs x (choice_mem ha)]
        · rw [next_aged ha (hmem y hy) hyx, next_aged hb (hq ▸ hmem y hy) hyx, hd y (hmem y hy)]

def Agree (static : τ → Int) (a b : Aged τ) : Prop :=
  ∀ k, ((next static)^[k] a).choice = ((next static)^[k] b).choice

theorem Agree.next {static : τ → Int} {a b : Aged τ} (h : Agree static a b) :
    Agree static (a.next static) (b.next static) := fun k => h (k + 1)

section Coupled

variable {static : τ → Int} {k : Int} {a b : Aged τ} {U C : List τ}

theorem Coupled.next_fresh {u : τ} (h : Coupled static k a b (u :: U) C)
    (ha : a.choice = some u) (hb : b.choice = some u) :
    Coupled static (k + 1) (a.next static) (b.next static) U (C ++ [u]) := by
  obtain ⟨hu, hnd⟩ := List.nodup_cons.mp h.nodup
  have haged (y : τ) (hy : y ∈ U ++ C) : (a.next static).dinam y = a.dinam y - 1 ∧
      (b.next static).dinam y = b.dinam y - 1 :=
    have hne : y ≠ u := fun he => hu (he ▸ hy)
    ⟨next_aged ha (h.left ▸ List.mem_cons_of_mem u hy) hne,
      next_aged hb (h.right ▸ List.mem_cons_of_mem u hy) hne⟩
  refine ⟨?_, ?_, ?_, fun y hy => ?_, fun y hy => ?_, fun y hy => ?_⟩
  · rw [next_queue ha, h.left, List.cons_append, List.erase_cons_head, List.append_assoc]
  · rw [next_queue hb, h.right, List.cons_append, List.erase_cons_head, List.append_assoc]
  · rw [← List.append_assoc]
    exact hnd.append (List.nodup_singleton u) (List.disjoint_singleton.mpr hu)
  · rw [(haged y (List.mem_append_left C hy)).1, h.zero y (List.mem_cons_of_mem u hy)]
    omega
  · rw [(haged y (List.mem_append_left C hy)).2, h.fromStatic y (List.mem_cons_of_mem u hy)]
    omega
  · rcases List.mem_append.mp hy with hc | hc
    · obtain ⟨hya, hyb⟩ := haged y (List.mem_append_right U hc)
      rw [hya, hyb, h.same y hc]
    · rw [List.mem_singleton.mp hc, next_reset ha, next_reset hb]

theorem Coupled.next_again {x : τ} (h : Coupled static k a b U C) (hx : x ∈ C)
    (ha : a.choice = some x) (hb : b.choice = some x) :
    Coupled static (k + 1) (a.next static) (b.next static) U (C.erase x ++ [x]) := by
  have hxU : x ∉ U := fun hin => (List.nodup_append.mp h.nodup).2.2 x hin x hx rfl
  have hqueue : (U ++ C).erase x ++ [x] = U ++ (C.erase x ++ [x]) := by
    rw [List.erase_append_right _ hxU, List.append_assoc]
  have haged (y : τ) (hy : y ∈ U ++ C) (hne : y ≠ x) :
      (a.next static).dinam y = a.dinam y - 1 ∧ (b.next static).dinam y = b.dinam y - 1 :=
    ⟨next_aged ha (h.left ▸ hy) hne, next_aged hb (h.right ▸ hy) hne⟩
  refine ⟨?_, ?_, ?_, fun y hy => ?_, fun y hy => ?_, fun y hy => ?_⟩
  · rw [next_queue ha, h.left, hqueue]
  · rw [next_queue hb, h.right, hqueue]
  · rw [← hqueue]
    exact (h.nodup.erase x).append (List.nodup_singleton x)
      (List.disjoint_singleton.mpr h.nodup.not_mem_erase)
  · rw [(haged y (List.mem_append_left C hy) (ne_of_mem_of_not_mem hy hxU)).1, h.zero y hy]
    omega
  · rw [(haged y (List.mem_append_left C hy) (ne_of_mem_of_not_mem hy hxU)).2, h.fromStatic y hy]
    omega
  · by_cases hyx : y = x
    · rw [hyx, next_reset ha, next_reset hb]
    · have hc : y ∈ C := by
        rcases List.mem_append.mp hy with hc | hc
        · exact List.mem_of_mem_erase hc
        · exact absurd (List.mem_singleton.mp hc) hyx
      obtain ⟨hya, hyb⟩ := haged y (List.mem_append_right U hc) hyx
      rw [hya, hyb, h.same y hc]

/-- The first of the new tasks is chosen on the left when no chosen task is
below them. -/
theorem Coupled.left_fresh {u : τ} (h : Coupled static k a b (u :: U) C) :
    a.choice = some u ↔ ∀ y ∈ C, -k ≤ a.dinam y := by
  rw [choice_head h.left, h.zero u List.mem_cons_self]
  constructor
  · exact fun hle y hy => hle y (List.mem_append_right U hy)
  · intro hle y hy
    rcases List.mem_append.mp hy with hU | hC
    · exact (h.zero y (List.mem_cons_of_mem u hU)).ge
    · exact hle y hC

theorem Coupled.right_fresh {u : τ} (h : Coupled static k a b (u :: U) C) :
    b.choice = some u ↔
      (∀ y ∈ U, static u ≤ static y) ∧ ∀ y ∈ C, static u - k ≤ a.dinam y := by
  rw [choice_head h.right, h.fromStatic u List.mem_cons_self]
  refine List.forall_mem_append.trans (and_congr (forall₂_congr fun y hy => ?_)
    (forall₂_congr fun y hy => ?_))
  · rw [h.fromStatic y (List.mem_cons_of_mem u hy)]
    omega
  · rw [h.same y hy]

theorem Coupled.left_aged {u y : τ} (h : Coupled static k a b (u :: U) C)
    (ha : a.choice = some u) (hy : y ∈ C) : (a.next static).dinam y = a.dinam y - 1 := by
  have hin := List.mem_append_right U hy
  refine next_aged ha (h.left ▸ List.mem_cons_of_mem u hin) fun he => ?_
  exact (List.nodup_cons.mp h.nodup).1 (he ▸ hin)

/-- Once no chosen task is below the new ones, agreement lets the new tasks come
in order, and each of them before any task chosen by then. -/
theorem Coupled.sorted_of_agree (h : Coupled static k a b U C) (hagree : Agree static a b)
    (hC : ∀ y ∈ C, -k ≤ a.dinam y) (hU : ∀ u ∈ U, -(k + 1) ≤ static u) :
    U.Pairwise (fun u v => static u ≤ static v) ∧ ∀ u ∈ U, ∀ y ∈ C, static u - k ≤ a.dinam y := by
  induction U generalizing k a b C with
  | nil => exact ⟨.nil, fun u hu => absurd hu List.not_mem_nil⟩
  | cons u U ih =>
    have ha := h.left_fresh.mpr hC
    have hb : b.choice = some u := (hagree 0).symm.trans ha
    obtain ⟨hle, hy⟩ := h.right_fresh.mp hb
    obtain ⟨hu, hU⟩ := List.forall_mem_cons.mp hU
    have hC' : ∀ y ∈ C ++ [u], -(k + 1) ≤ (a.next static).dinam y := by
      intro y hy
      rcases List.mem_append.mp hy with hc | hc
      · have hold := hC y hc
        rw [h.left_aged ha hc]
        omega
      · rw [List.mem_singleton.mp hc, next_reset ha]
        exact hu
    obtain ⟨hsorted, hrest⟩ := ih (h.next_fresh ha hb) hagree.next hC' fun v hv => by
      have hold := hU v hv
      omega
    refine ⟨List.pairwise_cons.mpr ⟨hle, hsorted⟩,
      List.forall_mem_cons.mpr ⟨hy, fun v hv y hc => ?_⟩⟩
    have hnew := hrest v hv y (List.mem_append_left _ hc)
    rw [h.left_aged ha hc] at hnew
    omega

/-- While only `x` has been chosen it is chosen again until it is above the new
tasks, which happens on both sides at the same choice `j`. -/
theorem Coupled.first_leaves {x : τ} (h : Coupled static k a b U [x])
    (hx : a.dinam x = static x) (hagree : Agree static a b)
    (hmin : ∀ u ∈ U, static x ≤ static u) :
    ∃ j, (j = k ∧ -j ≤ static x ∨ static x = -j ∧ ∀ u ∈ U, 0 ≤ static u) ∧
      U.Pairwise (fun u v => static u ≤ static v) ∧ ∀ u ∈ U, static u - j ≤ static x := by
  obtain ⟨m, hm⟩ : ∃ m : Nat, -k - static x ≤ m := ⟨(-k - static x).toNat, Int.self_le_toNat _⟩
  induction m generalizing k a b with
  | zero =>
    have hC : ∀ y ∈ [x], -k ≤ a.dinam y := by
      intro y hy
      rw [List.mem_singleton.mp hy, hx]
      omega
    obtain ⟨hsorted, hle⟩ := h.sorted_of_agree hagree hC fun u hu => by
      have := hmin u hu
      omega
    refine ⟨k, .inl ⟨rfl, by omega⟩, hsorted, fun u hu => ?_⟩
    rw [← hx]
    exact hle u hu x List.mem_cons_self
  | succ m ih =>
    by_cases hlow : static x < -k
    · have hxU : x ∉ U := fun hin =>
        (List.nodup_append.mp h.nodup).2.2 x hin x List.mem_cons_self rfl
      have ha : a.choice = some x := by
        rw [choice_last h.left hxU, hx]
        intro u hu
        rw [h.zero u hu]
        exact hlow
      have hb : b.choice = some x := (hagree 0).symm.trans ha
      have habove := (choice_last h.right hxU).mp hb
      have hnext := h.next_again List.mem_cons_self ha hb
      rw [List.erase_cons_head, List.nil_append] at hnext
      obtain ⟨j, hj, hrest⟩ := ih hnext (next_reset ha) hagree.next (by omega)
      refine ⟨j, .inr ?_, hrest⟩
      rcases hj with ⟨rfl, hle⟩ | hzero
      · refine ⟨by omega, fun u hu => ?_⟩
        have hlt := habove u hu
        rw [h.fromStatic u hu, h.same x List.mem_cons_self, hx] at hlt
        omega
      · exact hzero
    · exact ih h hx hagree (by omega)

end Coupled

/-- Static priorities for which it makes no difference whether the dynamic ones
start at 0 or at them. -/
def Levelled (static : τ → Int) : List τ → Prop
  | [] => True
  | x :: l => (x :: l).Pairwise (fun u v => static u ≤ static v) ∧
      ∀ y ∈ l, static y = 0 ∨ (-1 ≤ static x ∧ static y ≤ static x + 1)

instance (static : τ → Int) : (order : List τ) → Decidable (Levelled static order)
  | [] => isTrue trivial
  | _ :: _ => inferInstanceAs (Decidable (_ ∧ _))

theorem levelled_of_agree {static : τ → Int} {order : List τ} (hnd : order.Nodup)
    (h : Agree static ⟨order, fun _ => 0⟩ ⟨order, static⟩) : Levelled static order := by
  cases order with
  | nil => trivial
  | cons x l =>
    have hstart := start_coupled static hnd
    have ha := hstart.left_fresh.mpr fun y hy => absurd hy List.not_mem_nil
    have hb : Aged.choice ⟨x :: l, static⟩ = some x := (h 0).symm.trans ha
    have hmin := (hstart.right_fresh.mp hb).1
    obtain ⟨j, hj, hsorted, hle⟩ :=
      (hstart.next_fresh ha hb).first_leaves (next_reset ha) h.next hmin
    refine ⟨List.pairwise_cons.mpr ⟨hmin, hsorted⟩, fun y hy => ?_⟩
    have hyle := hle y hy
    rcases hj with ⟨rfl, hx⟩ | ⟨hx, hzero⟩
    · exact .inr ⟨by omega, by omega⟩
    · have hy0 := hzero y hy
      exact .inl (by omega)

/-- Two coupled machines at a point from which they agree: the new tasks are in
order, and what has been chosen is above all of them or below all of them. -/
structure Even (static : τ → Int) (k : Int) (a b : Aged τ) (U C : List τ) : Prop
    extends Coupled static k a b U C where
  started : 0 ≤ k
  nonempty : U ++ C ≠ []
  sorted : U.Pairwise (fun u v => static u ≤ static v)
  apart : ∀ u ∈ U, ∀ y ∈ C, -k ≤ a.dinam y ↔ static u - k ≤ a.dinam y
  level : ∀ u ∈ U, ∀ x ∈ U ++ C, x ≠ u → ∀ j, 1 ≤ j → (-j ≤ static x ↔ static u - j ≤ static x)

section Even

variable {static : τ → Int} {k : Int} {a b : Aged τ} {U C : List τ}

theorem Even.step_fresh {u : τ} (h : Even static k a b (u :: U) C)
    (hC : ∀ y ∈ C, -k ≤ a.dinam y) :
    a.choice = b.choice ∧ Even static (k + 1) (a.next static) (b.next static) U (C ++ [u]) := by
  have ha := h.left_fresh.mpr hC
  have hu : u ∈ u :: U := List.mem_cons_self
  obtain ⟨hmin, hsorted⟩ := List.pairwise_cons.mp h.sorted
  have hb := h.right_fresh.mpr ⟨hmin, fun y hy => (h.apart u hu y hy).mp (hC y hy)⟩
  have hk := h.started
  have hmem (x : τ) (hx : x ∈ U ++ (C ++ [u])) : x ∈ u :: U ++ C := by
    simp only [List.mem_append, List.mem_cons] at hx ⊢
    tauto
  refine ⟨ha.trans hb.symm, h.next_fresh ha hb, by omega, by simp, hsorted, ?_, ?_⟩
  · intro v hv y hy
    have hvu : u ≠ v := fun he => (List.nodup_cons.mp h.nodup).1 (he ▸ List.mem_append_left C hv)
    rcases List.mem_append.mp hy with hc | hc
    · have hold := h.apart v (List.mem_cons_of_mem u hv) y hc
      rw [h.left_aged ha hc]
      omega
    · rw [List.mem_singleton.mp hc, next_reset ha]
      exact h.level v (List.mem_cons_of_mem u hv) u (List.mem_append_left C hu) hvu (k + 1)
        (by omega)
  · exact fun v hv x hx => h.level v (List.mem_cons_of_mem u hv) x (hmem x hx)

theorem Even.step_again {x : τ} (h : Even static k a b U C) (hx : x ∈ C)
    (ha : a.choice = some x) (hlow : ∀ u ∈ U, a.dinam x < -k) :
    a.choice = b.choice ∧
      Even static (k + 1) (a.next static) (b.next static) U (C.erase x ++ [x]) := by
  have hk := h.started
  have hb : b.choice = some x := by
    refine (choice_congr (h.right.trans h.left.symm) fun y hy => ?_).mp ha
    rw [h.same x hx]
    rcases List.mem_append.mp (h.left ▸ hy) with hU | hC
    · have hlt := hlow y hU
      have hap := h.apart y hU x hx
      rw [h.zero y hU, h.fromStatic y hU]
      omega
    · rw [h.same y hC]
      exact ⟨Iff.rfl, Iff.rfl⟩
  have hmem (y : τ) (hy : y ∈ C.erase x ++ [x]) : y ∈ C := by
    rcases List.mem_append.mp hy with hc | hc
    · exact List.mem_of_mem_erase hc
    · exact List.mem_singleton.mp hc ▸ hx
  refine ⟨ha.trans hb.symm, h.next_again hx ha hb, by omega, by simp, h.sorted, ?_, ?_⟩
  · intro u hu y hy
    by_cases hyx : y = x
    · have hne : x ≠ u := fun he =>
        (List.nodup_append.mp h.nodup).2.2 u hu x hx he.symm
      rw [hyx, next_reset ha]
      exact h.level u hu x (List.mem_append_right U hx) hne (k + 1) (by omega)
    · have hold := h.apart u hu y (hmem y hy)
      have haged : (a.next static).dinam y = a.dinam y - 1 :=
        next_aged ha (h.left ▸ List.mem_append_right U (hmem y hy)) hyx
      rw [haged]
      omega
  · intro u hu y hy
    refine h.level u hu y ?_
    rcases List.mem_append.mp hy with hU | hC
    · exact List.mem_append_left C hU
    · exact List.mem_append_right U (hmem y hC)

theorem Even.step (h : Even static k a b U C) : a.choice = b.choice ∧
    ∃ U' C', Even static (k + 1) (a.next static) (b.next static) U' C' := by
  obtain ⟨x, ha⟩ := choice_isSome (h.left ▸ h.nonempty)
  have hleast (y : τ) (hy : y ∈ U ++ C) : a.dinam x ≤ a.dinam y := choice_le ha (h.left ▸ hy)
  have hx : x ∈ U ++ C := h.left ▸ choice_mem ha
  have hagain (hxU : x ∉ U) (hlow : ∀ u ∈ U, a.dinam x < -k) : _ :=
    h.step_again ((List.mem_append.mp hx).resolve_left hxU) ha hlow
  cases U with
  | nil => exact ⟨(hagain List.not_mem_nil nofun).1, _, _, (hagain List.not_mem_nil nofun).2⟩
  | cons u U =>
    by_cases hC : ∀ y ∈ C, -k ≤ a.dinam y
    · exact ⟨(h.step_fresh hC).1, _, _, (h.step_fresh hC).2⟩
    · push Not at hC
      obtain ⟨y, hy, hylow⟩ := hC
      have hxlow : a.dinam x < -k :=
        (hleast y (List.mem_append_right _ hy)).trans_lt hylow
      have hxU : x ∉ u :: U := fun hin => by
        rw [h.zero x hin] at hxlow
        exact absurd hxlow (Int.lt_irrefl _)
      exact ⟨(hagain hxU fun _ _ => hxlow).1, _, _, (hagain hxU fun _ _ => hxlow).2⟩

theorem Even.agree (h : Even static k a b U C) : Agree static a b := by
  intro m
  induction m generalizing k a b U C with
  | zero => exact h.step.1
  | succ m ih =>
    obtain ⟨-, U', C', hnext⟩ := h.step
    exact ih hnext

end Even

theorem agree_of_levelled {static : τ → Int} {order : List τ} (hnd : order.Nodup)
    (hne : order ≠ []) (h : Levelled static order) :
    Agree static ⟨order, fun _ => 0⟩ ⟨order, static⟩ := by
  obtain ⟨first, rest, rfl⟩ := List.exists_cons_of_ne_nil hne
  obtain ⟨hsorted, hlevel⟩ := h
  have hmin := (List.pairwise_cons.mp hsorted).1
  refine Even.agree (k := 0) (U := first :: rest) (C := [])
    ⟨start_coupled static hnd, Int.le_refl 0, by simp, hsorted, nofun, ?_⟩
  intro u hu x hx hxu j hj
  rw [List.append_nil] at hx
  rcases List.mem_cons.mp hu with rfl | hu
  · have hx := (List.mem_cons.mp hx).resolve_left hxu
    have hle := hmin x hx
    have hxl := hlevel x hx
    omega
  · have hul := hlevel u hu
    rcases List.mem_cons.mp hx with rfl | hx
    · omega
    · have hxl := hlevel x hx
      have hle := hmin x hx
      omega

/-- Starting the dynamic priorities at 0 instead of at the static ones changes
no choice exactly for levelled priorities. -/
theorem agree_iff_levelled {static : τ → Int} {order : List τ} (hnd : order.Nodup)
    (hne : order ≠ []) :
    Agree static ⟨order, fun _ => 0⟩ ⟨order, static⟩ ↔ Levelled static order :=
  ⟨levelled_of_agree hnd, agree_of_levelled hnd hne⟩

end Aged

end PingPong
