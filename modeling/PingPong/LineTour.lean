import Mathlib.Algebra.Order.Group.Int

/-! A tour of points on a line that always goes to a nearest one. The points visited
fill an interval with the traveller at one end. A crossing of the interval leaves the
end it starts from at least its own length away from the points beyond it, so the
lengths of the crossings add up to no more than the interval. -/

namespace LineTour

/-- The traveller `at` an end of the interval from `lo` to `hi`; no point of `P` lies
inside it, and those beyond the other end are `gap` away from that end. -/
structure Swept (P : Int → Prop) (pos lo hi gap : Int) : Prop where
  side : (pos = hi ∧ ∀ y, P y → hi ≤ y ∨ y + gap ≤ lo) ∨
    (pos = lo ∧ ∀ y, P y → y ≤ lo ∨ hi + gap ≤ y)
  nonneg : 0 ≤ gap
  gap_le : gap ≤ hi - lo

variable {P : Int → Prop} {pos lo hi gap r : Int}

theorem Swept.start (P : Int → Prop) (pos : Int) : Swept P pos pos pos 0 where
  side := .inl ⟨rfl, fun y _ => by omega⟩
  nonneg := Int.le_refl 0
  gap_le := by omega

theorem Swept.outside (h : Swept P pos lo hi gap) {y : Int} (hy : P y) : y ≤ lo ∨ hi ≤ y := by
  have hgap := h.nonneg
  rcases h.side with ⟨-, hside⟩ | ⟨-, hside⟩
  · have hy' := hside y hy
    omega
  · have hy' := hside y hy
    omega

/-- The length of the tour so far is at most the interval and the gap, and the interval
grows to the next point at most. -/
theorem Swept.next {Q : Int → Prop} (h : Swept P pos lo hi gap) (hr : P r)
    (hnear : ∀ y, P y → (r - pos).natAbs ≤ (y - pos).natAbs) (hQ : ∀ y, Q y → P y) :
    ∃ gap', Swept Q r (min lo r) (max hi r) gap' ∧
      hi - lo + gap + (r - pos).natAbs ≤ max hi r - min lo r + gap' := by
  have hgap := h.nonneg
  have hle := h.gap_le
  rcases h.side with ⟨rfl, hside⟩ | ⟨rfl, hside⟩
  · rcases hside r hr with hahead | hbehind
    · refine ⟨gap, ⟨.inl ⟨by omega, fun y hy => ?_⟩, hgap, by omega⟩, by omega⟩
      have hy' := hside y (hQ y hy)
      have hnear' := hnear y (hQ y hy)
      omega
    -- the traveller crosses the interval, and the end it leaves is the far one now
    · refine ⟨pos - r, ⟨.inr ⟨by omega, fun y hy => ?_⟩, by omega, by omega⟩, by omega⟩
      have hy' := hside y (hQ y hy)
      have hnear' := hnear y (hQ y hy)
      omega
  · rcases hside r hr with hahead | hbehind
    · refine ⟨gap, ⟨.inr ⟨by omega, fun y hy => ?_⟩, hgap, by omega⟩, by omega⟩
      have hy' := hside y (hQ y hy)
      have hnear' := hnear y (hQ y hy)
      omega
    · refine ⟨r - pos, ⟨.inl ⟨by omega, fun y hy => ?_⟩, by omega, by omega⟩, by omega⟩
      have hy' := hside y (hQ y hy)
      have hnear' := hnear y (hQ y hy)
      omega

def tour : Int → List Int → Int
  | _, [] => 0
  | pos, y :: l => (y - pos).natAbs + tour y l

theorem tour_nonneg (pos : Int) (l : List Int) : 0 ≤ tour pos l := by
  induction l generalizing pos with
  | nil => exact Int.le_refl 0
  | cons y l ih =>
    have hrest := ih y
    rw [tour]
    omega

theorem tour_ascending {pos hi : Int} {l : List Int} (hsorted : l.Pairwise (· ≤ ·))
    (hl : ∀ y ∈ l, pos ≤ y ∧ y ≤ hi) (hpos : pos ≤ hi) : tour pos l ≤ hi - pos := by
  induction l generalizing pos with
  | nil =>
    rw [tour]
    omega
  | cons y l ih =>
    obtain ⟨hfirst, hrest⟩ := List.pairwise_cons.mp hsorted
    obtain ⟨hy, hl'⟩ := List.forall_mem_cons.mp hl
    have hgone := ih hrest (fun z hz => ⟨hfirst z hz, (hl' z hz).2⟩) hy.2
    rw [tour]
    omega

/-- One way up, one jump back and one way up again. -/
theorem tour_sweeps {start lo hi pos : Int} {l m : List Int} (hl : l.Pairwise (· ≤ ·))
    (hm : m.Pairwise (· ≤ ·)) (hup : ∀ y ∈ l, pos ≤ y ∧ y ≤ hi)
    (hback : ∀ y ∈ m, lo ≤ y ∧ y ≤ start) (hstart : start ≤ pos) (hpos : pos ≤ hi)
    (hlo : lo ≤ start) : tour pos (l ++ m) ≤ (hi - pos) + (hi - lo) + (start - lo) := by
  induction l generalizing pos with
  | nil =>
    cases m with
    | nil =>
      simp only [List.append_nil, tour]
      omega
    | cons y m =>
      obtain ⟨hfirst, hrest⟩ := List.pairwise_cons.mp hm
      obtain ⟨hy, hm'⟩ := List.forall_mem_cons.mp hback
      have hgone := tour_ascending hrest (fun z hz => ⟨hfirst z hz, (hm' z hz).2⟩) hy.2
      rw [List.nil_append, tour]
      omega
  | cons y l ih =>
    obtain ⟨hfirst, hrest⟩ := List.pairwise_cons.mp hl
    obtain ⟨hy, hl'⟩ := List.forall_mem_cons.mp hup
    have hgone := ih hrest (fun z hz => ⟨hfirst z hz, (hl' z hz).2⟩) (by omega) hy.2
    rw [List.cons_append, tour]
    omega

end LineTour
