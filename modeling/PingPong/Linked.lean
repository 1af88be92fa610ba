import Mathlib.Data.List.Nodup
import Mathlib.Logic.Function.Basic

/-! Lists threaded through a memory by one pointer field. A path visits the
nodes of a list in order and arrives at `q`; a doubly linked list is a path
over its nodes in each direction. -/

namespace Linked

variable {α : Type*}

def Path (next : α → α) : α → List α → α → Prop
  | s, [], q => s = q
  | s, x :: l, q => s = x ∧ Path next (next x) l q

instance decidablePath [DecidableEq α] (next : α → α) :
    ∀ s l q, Decidable (Path next s l q)
  | s, [], q => inferInstanceAs (Decidable (s = q))
  | s, x :: l, q =>
    have : Decidable (Path next (next x) l q) := decidablePath next (next x) l q
    inferInstanceAs (Decidable (s = x ∧ Path next (next x) l q))

def Doubly (next prev : α → α) (null first last : α) (l : List α) : Prop :=
  Path next first l null ∧ Path prev last l.reverse null

instance [DecidableEq α] (next prev : α → α) (null first last : α) (l : List α) :
    Decidable (Doubly next prev null first last l) :=
  inferInstanceAs (Decidable (_ ∧ _))

theorem path_append {next : α → α} {s q : α} {l m : List α} :
    Path next s (l ++ m) q ↔ ∃ r, Path next s l r ∧ Path next r m q := by
  induction l generalizing s with
  | nil => simp [Path]
  | cons x l ih => simp [Path, ih, and_assoc]

theorem Path.congr {next next' : α → α} {s q : α} {l : List α} (h : Path next s l q)
    (heq : ∀ x ∈ l, next' x = next x) : Path next' s l q := by
  induction l generalizing s with
  | nil => exact h
  | cons x l ih =>
    refine ⟨h.1, ?_⟩
    rw [heq x List.mem_cons_self]
    exact ih h.2 fun y hy => heq y (List.mem_cons_of_mem x hy)

theorem Path.start {next : α → α} {s q : α} {l : List α} (h : Path next s l q) :
    s = l.head?.getD q := by
  cases l with
  | nil => exact h
  | cons x l => exact h.1

theorem Path.next_eq {next : α → α} {s q p : α} {l m : List α} (h : Path next s (l ++ p :: m) q) :
    next p = m.head?.getD q := by
  obtain ⟨r, _, hm⟩ := path_append.mp h
  exact hm.2.start

theorem Path.next_get {next : α → α} {s q x : α} {l : List α} {i : Nat} (h : Path next s l q)
    (hx : l[i]? = some x) : next x = l[i + 1]?.getD q := by
  induction l generalizing s i with
  | nil => simp at hx
  | cons y l ih =>
    cases i with
    | zero =>
      obtain rfl : y = x := by simpa using hx
      have hnext := h.2.start
      rwa [List.head?_eq_getElem?] at hnext
    | succ i => exact ih h.2 (by simpa using hx)

theorem head_eq_end {l : List α} {q : α} (h : q ∉ l) : l.head?.getD q = q ↔ l = [] := by
  cases l with
  | nil => simp
  | cons x l =>
    have hx : x ≠ q := fun he => h (he ▸ List.mem_cons_self)
    simp [hx]

theorem last_eq_end {l : List α} {q : α} (h : q ∉ l) : l.getLast?.getD q = q ↔ l = [] := by
  rw [← List.head?_reverse, head_eq_end (by simpa using h), List.reverse_eq_nil_iff]

theorem eq_concat_of_last {l : List α} {q x : α} (h : l.getLast?.getD q = x) (hx : x ≠ q) :
    ∃ l', l = l' ++ [x] := by
  rcases List.eq_nil_or_concat l with rfl | ⟨l', y, rfl⟩
  · exact absurd h.symm hx
  · simp only [List.concat_eq_append, List.getLast?_append, List.getLast?_singleton] at h ⊢
    obtain rfl : y = x := h
    exact ⟨l', rfl⟩

theorem head_mem {l : List α} {q : α} (h : l.head?.getD q ≠ q) : l.head?.getD q ∈ l := by
  cases l with
  | nil => exact absurd rfl h
  | cons x l => exact List.mem_cons_self

theorem last_mem {l : List α} {q : α} (h : l.getLast?.getD q ≠ q) : l.getLast?.getD q ∈ l := by
  obtain ⟨l', hl⟩ := eq_concat_of_last rfl h
  rw [List.mem_iff_append]
  exact ⟨l', [], hl⟩

theorem Doubly.symm {next prev : α → α} {null first last : α} {l : List α}
    (h : Doubly next prev null first last l) : Doubly prev next null last first l.reverse := by
  refine ⟨h.2, ?_⟩
  rw [List.reverse_reverse]
  exact h.1

theorem Doubly.last_eq {next prev : α → α} {null first last : α} {l : List α}
    (h : Doubly next prev null first last l) : last = l.getLast?.getD null := by
  rw [← List.head?_reverse]
  exact h.2.start

theorem Doubly.prev_eq {next prev : α → α} {null first last p : α} {l m : List α}
    (h : Doubly next prev null first last (l ++ p :: m)) : prev p = l.getLast?.getD null := by
  have hback := h.2
  rw [List.reverse_append, List.reverse_cons, List.append_assoc] at hback
  rw [← List.head?_reverse]
  exact hback.next_eq

theorem Doubly.prev_first {next prev : α → α} {null first last : α} {l : List α}
    (h : Doubly next prev null first last l) (hne : l ≠ []) : prev first = null := by
  obtain ⟨x, l', rfl⟩ := List.exists_cons_of_ne_nil hne
  obtain rfl : first = x := h.1.1
  exact h.prev_eq (l := [])

variable [DecidableEq α]

theorem erase_mid {l r : List α} {p : α} (h : (l ++ p :: r).Nodup) :
    (l ++ p :: r).erase p = l ++ r := by
  have hp : p ∉ l := fun hl => (List.nodup_append.mp h).2.2 p hl p List.mem_cons_self rfl
  rw [List.erase_append_right _ hp, List.erase_cons_head]

theorem erase_after {l m : List α} {x p : α} (h : (l ++ x :: p :: m).Nodup) :
    (l ++ x :: p :: m).erase p = l ++ x :: m := by
  have hsplit : l ++ x :: p :: m = (l ++ [x]) ++ p :: m := by simp
  rw [hsplit] at h ⊢
  rw [erase_mid h]
  simp

theorem Path.update {next : α → α} {s q x a : α} {l : List α} (h : Path next s l q) (hx : x ∉ l) :
    Path (Function.update next x a) s l q := by
  apply h.congr
  intro y hy
  exact Function.update_of_ne (ne_of_mem_of_not_mem hy hx) a next

/-- Writing the pointer of the last node moves the end of the path. -/
theorem Path.retarget {next : α → α} {s q x a : α} {l : List α} (h : Path next s (l ++ [x]) q)
    (hx : x ∉ l) : Path (Function.update next x a) s (l ++ [x]) a := by
  obtain ⟨r, hl, hr⟩ := path_append.mp h
  refine path_append.mpr ⟨r, hl.update hx, hr.1, ?_⟩
  exact Function.update_self x a next

/-- Copying the pointer of a node into its predecessor takes the node out. -/
theorem Path.bypass {next : α → α} {s q x p : α} {l m : List α}
    (h : Path next s (l ++ x :: p :: m) q) (hnodup : (l ++ x :: p :: m).Nodup) :
    Path (Function.update next x (next p)) s (l ++ x :: m) q := by
  obtain ⟨r, hl, hr, hp, hm⟩ := path_append.mp h
  have hxl : x ∉ l := fun hx => (List.nodup_append.mp hnodup).2.2 x hx x List.mem_cons_self rfl
  have hxm : x ∉ m := by
    intro hx
    have hn := (List.nodup_append.mp hnodup).2.1
    exact (List.nodup_cons.mp hn).1 (List.mem_cons_of_mem p hx)
  refine path_append.mpr ⟨r, hl.update hxl, hr, ?_⟩
  rw [Function.update_self]
  exact hm.update hxm

/-- A node is taken out by copying its pointer into its predecessor, or into the
start of the path when it has none. -/
theorem Path.skip {next : α → α} {s q x p : α} {l m : List α} (h : Path next s (l ++ p :: m) q)
    (hnodup : (l ++ p :: m).Nodup) (hq : q ∉ l) (hx : l.getLast?.getD q = x) :
    Path (if x = q then next else Function.update next x (next p))
      (if x = q then next p else s) (l ++ m) q := by
  by_cases hxq : x = q
  · obtain rfl := (last_eq_end hq).mp (hx.trans hxq)
    rw [if_pos hxq, if_pos hxq]
    exact h.2
  · obtain ⟨l', rfl⟩ := eq_concat_of_last hx hxq
    rw [if_neg hxq, if_neg hxq]
    simp only [List.append_assoc, List.singleton_append] at h hnodup ⊢
    exact h.bypass hnodup

theorem Doubly.update {next prev : α → α} {null first last x a b : α} {l : List α}
    (h : Doubly next prev null first last l) (hx : x ∉ l) :
    Doubly (Function.update next x a) (Function.update prev x b) null first last l :=
  ⟨h.1.update hx, h.2.update (by simpa using hx)⟩

theorem Doubly.single (next prev : α → α) (null x : α) :
    Doubly (Function.update next x null) (Function.update prev x null) null x x [x] := by
  simp [Doubly, Path]

/-- A fresh node is linked behind the last one. -/
theorem Doubly.concat {next prev : α → α} {null first last x : α} {l : List α}
    (h : Doubly next prev null first last l) (hx : x ∉ l) (hnodup : l.Nodup)
    (hlast : last ≠ null) :
    Doubly (Function.update (Function.update next x null) last x) (Function.update prev x last)
      null first x (l ++ [x]) := by
  obtain ⟨l', rfl⟩ := eq_concat_of_last h.last_eq.symm hlast
  have hfresh : last ∉ l' := fun hmem => (List.nodup_append.mp hnodup).2.2 last hmem last
    (List.mem_singleton_self last) rfl
  have hne : x ≠ last := fun he => hx (he ▸ List.mem_concat_self)
  refine ⟨path_append.mpr ⟨x, (h.1.update hx).retarget hfresh, rfl, ?_⟩, ?_⟩
  · rw [Function.update_of_ne hne, Function.update_self]
    rfl
  · rw [List.reverse_append]
    refine ⟨rfl, ?_⟩
    rw [Function.update_self]
    exact h.2.update (mt List.mem_reverse.mp hx)

/-- A node is taken out of both paths. -/
theorem Doubly.unlink {next prev : α → α} {null first last p : α} {l m : List α}
    (h : Doubly next prev null first last (l ++ p :: m)) (hnodup : (l ++ p :: m).Nodup)
    (hnull : null ∉ l ++ p :: m) :
    Doubly (if prev p = null then next else Function.update next (prev p) (next p))
      (if next p = null then prev else Function.update prev (next p) (prev p)) null
      (if prev p = null then next p else first) (if next p = null then prev p else last)
      (l ++ m) := by
  simp only [List.mem_append, List.mem_cons, not_or] at hnull
  have hback := h.2
  have hrev : (l ++ p :: m).reverse = m.reverse ++ p :: l.reverse := by simp
  rw [hrev] at hback
  refine ⟨h.1.skip hnodup hnull.1 h.prev_eq.symm, ?_⟩
  rw [List.reverse_append]
  refine hback.skip ?_ (by simpa using hnull.2.2) ?_
  · rw [← hrev]
    exact List.nodup_reverse.mpr hnodup
  · rw [List.getLast?_reverse]
    exact h.1.next_eq.symm

section Ring

variable {σ : Type*}

/-- A `do` loop that goes from node to node until it is back at the first one. The
body may change the pointers' memory; `none` is a loop not ended in so many rounds. -/
def doRing (body : σ → α → σ) (next : σ → α → α) (first : α) : Nat → σ → α → Option σ
  | 0, _, _ => none
  | k + 1, s, x =>
    if first ≠ next (body s x) x then doRing body next first k (body s x) (next (body s x) x)
    else some (body s x)

/-- On a ring the loop visits each node once and in order, if its body keeps the
pointers. -/
theorem doRing_of_path (body : σ → α → σ) (next : σ → α → α)
    (hkeep : ∀ s x, next (body s x) = next s) {first x : α} {l : List α} {s : σ} {k : Nat}
    (hp : Path (next s) x l first) (hne : l ≠ []) (hfirst : first ∉ l.tail) (hk : l.length ≤ k) :
    doRing body next first k s x = some (l.foldl body s) := by
  induction l generalizing s x k with
  | nil => exact absurd rfl hne
  | cons y l ih =>
    obtain ⟨rfl, hrest⟩ := hp
    cases k with
    | zero => cases hk
    | succ k =>
      simp only [doRing, hkeep]
      cases l with
      | nil =>
        obtain rfl : next s x = first := hrest
        exact if_neg (not_not_intro rfl)
      | cons z l =>
        obtain ⟨hz, -⟩ := id hrest
        have hback : first ≠ next s x := fun he => hfirst (by simp [he, hz])
        rw [if_pos hback, List.foldl_cons]
        refine ih ?_ (List.cons_ne_nil z l) (fun hm => hfirst (List.mem_cons_of_mem z hm))
          (Nat.le_of_succ_le_succ hk)
        rw [hkeep]
        exact hrest

end Ring

end Linked
