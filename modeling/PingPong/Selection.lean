import Mathlib.Data.List.MinMax
import Mathlib.Data.List.Sort
import Mathlib.Order.Basic

/-! Repeated selection from a list by a key. The loop that keeps the first candidate
until a strictly smaller one comes finds the first element of minimal key, and
selecting such elements until the list is empty is a stable sort of it. -/

namespace Selection

section Selection

variable {α κ : Type*} [LinearOrder κ] (key : α → κ)

/-- The first element of minimal key. -/
def least (l : List α) : Option α := l.argmin key

/-- No element has a smaller key, and none before it an equal one. -/
def FirstMin (l : List α) (r : α) : Prop :=
  ∃ pre post, l = pre ++ r :: post ∧ (∀ y ∈ pre, key r < key y) ∧ ∀ y ∈ post, key r ≤ key y

def keepLeast (x y : α) : α := if key y < key x then y else x

/-- The elements in ascending order of the key, those of one key in their old order. -/
def ascending (l : List α) : List α := l.insertionSort fun a b => key a ≤ key b

variable {key}

theorem FirstMin.mem {l : List α} {r : α} (h : FirstMin key l r) : r ∈ l := by
  obtain ⟨pre, post, rfl, -⟩ := h
  exact List.mem_append_right _ (List.mem_cons_self ..)

theorem FirstMin.le {l : List α} {r y : α} (h : FirstMin key l r) (hy : y ∈ l) :
    key r ≤ key y := by
  obtain ⟨pre, post, rfl, hpre, hpost⟩ := h
  rcases List.mem_append.mp hy with hy | hy
  · exact (hpre y hy).le
  · rcases List.mem_cons.mp hy with rfl | hy
    · exact le_rfl
    · exact hpost y hy

theorem FirstMin.cons {l : List α} {r x : α} (h : FirstMin key l r) (hlt : key r < key x) :
    FirstMin key (x :: l) r := by
  obtain ⟨pre, post, rfl, hpre, hpost⟩ := h
  exact ⟨x :: pre, post, rfl, List.forall_mem_cons.mpr ⟨hlt, hpre⟩, hpost⟩

/-- The first element of a list is selected before any other of its key. -/
theorem FirstMin.lt_of_ne {l : List α} {r x : α} (h : FirstMin key (x :: l) r) (hne : r ≠ x) :
    key r < key x := by
  obtain ⟨pre, post, hl, hpre, -⟩ := h
  cases pre with
  | nil => exact absurd (List.cons.inj hl).1.symm hne
  | cons y pre =>
    obtain rfl := (List.cons.inj hl).1
    exact hpre x (List.mem_cons_self ..)

theorem FirstMin.behind {l : List α} {r x y : α} (h : FirstMin key (x :: l) r)
    (hle : key x ≤ key y) : FirstMin key (x :: y :: l) r := by
  obtain ⟨pre, post, hl, hpre, hpost⟩ := h
  cases pre with
  | nil =>
    obtain ⟨rfl, rfl⟩ := List.cons.inj hl
    exact ⟨[], y :: l, rfl, hpre, List.forall_mem_cons.mpr ⟨hle, hpost⟩⟩
  | cons z pre =>
    obtain ⟨rfl, rfl⟩ := List.cons.inj hl
    obtain ⟨hx, hpre⟩ := List.forall_mem_cons.mp hpre
    refine ⟨x :: y :: pre, post, rfl, ?_, hpost⟩
    exact List.forall_mem_cons.mpr ⟨hx, List.forall_mem_cons.mpr ⟨lt_of_lt_of_le hx hle, hpre⟩⟩

theorem foldl_keepLeast (l : List α) (x : α) :
    FirstMin key (x :: l) (l.foldl (keepLeast key) x) := by
  induction l generalizing x with
  | nil => exact ⟨[], [], rfl, fun _ hy => absurd hy List.not_mem_nil,
      fun _ hy => absurd hy List.not_mem_nil⟩
  | cons y l ih =>
    have hrest := ih (keepLeast key x y)
    simp only [List.foldl_cons]
    by_cases hlt : key y < key x
    · simp only [keepLeast, if_pos hlt] at hrest ⊢
      exact hrest.cons (lt_of_le_of_lt (hrest.le (List.mem_cons_self ..)) hlt)
    · simp only [keepLeast, if_neg hlt] at hrest ⊢
      exact hrest.behind (not_lt.mp hlt)

theorem least_cons (x : α) (l : List α) :
    least key (x :: l) = some (l.foldl (keepLeast key) x) := by
  show l.foldl (List.argAux fun b c => key b < key c) (some x) = _
  induction l generalizing x with
  | nil => rfl
  | cons y l ih =>
    have hstep : List.argAux (fun b c => key b < key c) (some x) y = some (keepLeast key x y) := by
      by_cases hlt : key y < key x
      · simp only [List.argAux, keepLeast, if_pos hlt]
      · simp only [List.argAux, keepLeast, if_neg hlt]
    rw [List.foldl_cons, List.foldl_cons, hstep, ih]

theorem foldl_keepLeast_of_le {l : List α} {x : α} (h : ∀ y ∈ l, key x ≤ key y) :
    l.foldl (keepLeast key) x = x := by
  induction l with
  | nil => rfl
  | cons y l ih =>
    have hy : ¬key y < key x := not_lt.mpr (h y (List.mem_cons_self ..))
    rw [List.foldl_cons, keepLeast, if_neg hy]
    exact ih fun z hz => h z (List.mem_cons_of_mem y hz)

theorem FirstMin.ascending [DecidableEq α] {l : List α} {r : α} (h : FirstMin key l r) :
    Selection.ascending key l = r :: Selection.ascending key (l.erase r) := by
  obtain ⟨pre, post, rfl, hpre, hpost⟩ := h
  have hnot : r ∉ pre := fun hr => lt_irrefl _ (hpre r hr)
  rw [List.erase_append_right _ hnot, List.erase_cons_head]
  clear hnot
  induction pre with
  | nil => exact List.insertionSort_cons_of_forall_rel _ hpost
  | cons y pre ih =>
    have hy : ¬key y ≤ key r := not_le.mpr (hpre y (List.mem_cons_self ..))
    have hrest := ih fun z hz => hpre z (List.mem_cons_of_mem y hz)
    unfold Selection.ascending at hrest ⊢
    rw [List.cons_append, List.insertionSort_cons, hrest,
      List.orderedInsert_of_not_le (fun a b => key a ≤ key b) _ hy,
      List.cons_append, List.insertionSort_cons]

end Selection

end Selection
