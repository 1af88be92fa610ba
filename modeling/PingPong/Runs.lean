import Mathlib.Data.Finset.Card
import Mathlib.Data.Fintype.Card

/-! Runs of a partial step function, invariants along them, and the number of
processes that stand at a given program point. -/

namespace Runs

section Run

variable {σ α : Type*}

/-- The state after the actions `as`, when each of them is enabled in turn. -/
def run (step : σ → α → Option σ) : σ → List α → Option σ
  | s, [] => some s
  | s, a :: as => (step s a).bind fun t => run step t as

/-- Every action of the run meets `ok` in the state it is taken in. -/
def Along (step : σ → α → Option σ) (ok : σ → α → Prop) : σ → List α → Prop
  | _, [] => True
  | s, a :: as => ok s a ∧ ∀ t ∈ step s a, Along step ok t as

instance decidableAlong (step : σ → α → Option σ) (ok : σ → α → Prop)
    [∀ s a, Decidable (ok s a)] : ∀ s as, Decidable (Along step ok s as)
  | _, [] => isTrue trivial
  | s, a :: as =>
    have (t : σ) : Decidable (Along step ok t as) := decidableAlong step ok t as
    inferInstanceAs (Decidable (ok s a ∧ ∀ t ∈ step s a, Along step ok t as))

@[simp] theorem run_nil (step : σ → α → Option σ) (s : σ) : run step s [] = some s := rfl

theorem run_cons {step : σ → α → Option σ} {s u : σ} {a : α} {as : List α} :
    run step s (a :: as) = some u ↔ ∃ t, step s a = some t ∧ run step t as = some u := by
  simp [run, Option.bind_eq_some_iff]

theorem run_append {step : σ → α → Option σ} {s u : σ} {as bs : List α} :
    run step s (as ++ bs) = some u ↔ ∃ t, run step s as = some t ∧ run step t bs = some u := by
  induction as generalizing s with
  | nil => simp
  | cons a as ih =>
    simp only [List.cons_append, run_cons, ih]
    constructor
    · rintro ⟨t, ht, v, hv, hu⟩
      exact ⟨v, ⟨t, ht, hv⟩, hu⟩
    · rintro ⟨v, ⟨t, ht, hv⟩, hu⟩
      exact ⟨t, ht, v, hv, hu⟩

theorem Along.mono {step : σ → α → Option σ} {ok ok' : σ → α → Prop} {s : σ} {as : List α}
    (h : Along step ok s as) (himp : ∀ s a, ok s a → ok' s a) : Along step ok' s as := by
  induction as generalizing s with
  | nil => trivial
  | cons a as ih => exact ⟨himp s a h.1, fun t ht => ih (h.2 t ht)⟩

theorem along_trivial (step : σ → α → Option σ) (s : σ) (as : List α) :
    Along step (fun _ _ => True) s as := by
  induction as generalizing s with
  | nil => trivial
  | cons a as ih => exact ⟨trivial, fun t _ => ih t⟩

/-- Two conditions that agree wherever an invariant holds allow the same runs. -/
theorem along_congr {step : σ → α → Option σ} {ok ok' : σ → α → Prop} {P : σ → Prop}
    (hstep : ∀ s a t, P s → step s a = some t → P t) (hiff : ∀ s a, P s → (ok s a ↔ ok' s a))
    {s : σ} (hs : P s) (as : List α) : Along step ok s as ↔ Along step ok' s as := by
  induction as generalizing s with
  | nil => exact Iff.rfl
  | cons a as ih =>
    exact and_congr (hiff s a hs) (forall₂_congr fun t ht => ih (hstep s a t hs ht))

/-- What holds at the start and survives every allowed step holds after every
run whose steps are all allowed. -/
theorem run_invariant {step : σ → α → Option σ} {ok : σ → α → Prop} {P : σ → Prop}
    (hstep : ∀ s a t, P s → ok s a → step s a = some t → P t) {s u : σ} {as : List α}
    (hs : P s) (hok : Along step ok s as) (hrun : run step s as = some u) : P u := by
  induction as generalizing s with
  | nil =>
    cases hrun
    exact hs
  | cons a as ih =>
    obtain ⟨t, ht, hu⟩ := run_cons.mp hrun
    exact ih (hstep s a t hs hok.1 ht) (hok.2 t ht) hu

/-- A condition that an invariant implies holds along every run whose steps are
all allowed. -/
theorem Along.of_invariant {step : σ → α → Option σ} {ok ok' : σ → α → Prop} {P : σ → Prop} {s : σ}
    {as : List α} (h : Along step ok s as)
    (hstep : ∀ s a t, P s → ok s a → step s a = some t → P t)
    (himp : ∀ s a, P s → ok s a → ok' s a) (hs : P s) : Along step ok' s as := by
  induction as generalizing s with
  | nil => trivial
  | cons a as ih =>
    exact ⟨himp s a hs h.1, fun t ht => ih (h.2 t ht) (hstep s a t hs h.1 ht)⟩

theorem along_cons {step : σ → α → Option σ} {ok : σ → α → Prop} {s t : σ} {a : α}
    (h : step s a = some t) {as : List α} :
    Along step ok s (a :: as) ↔ ok s a ∧ Along step ok t as := by
  constructor
  · exact fun hall => ⟨hall.1, hall.2 t h⟩
  · rintro ⟨hok, hall⟩
    refine ⟨hok, fun t' ht' => ?_⟩
    obtain rfl : t = t' := Option.some.inj (h.symm.trans ht')
    exact hall

theorem along_of_forall_mem {step : σ → α → Option σ} {A : α → Prop} {as : List α}
    (h : ∀ a ∈ as, A a) (s : σ) : Along step (fun _ a => A a) s as := by
  induction as generalizing s with
  | nil => trivial
  | cons a as ih =>
    obtain ⟨ha, has⟩ := List.forall_mem_cons.mp h
    exact ⟨ha, fun t _ => ih has t⟩

theorem Along.forall_mem {step : σ → α → Option σ} {A : α → Prop} {s u : σ} {as : List α}
    (h : Along step (fun _ a => A a) s as) (hrun : run step s as = some u) : ∀ a ∈ as, A a := by
  induction as generalizing s with
  | nil => simp
  | cons a as ih =>
    obtain ⟨t, ht, hu⟩ := run_cons.mp hrun
    exact List.forall_mem_cons.mpr ⟨h.1, ih (h.2 t ht) hu⟩

theorem Along.and {step : σ → α → Option σ} {ok ok' : σ → α → Prop} {s : σ} {as : List α}
    (h : Along step ok s as) (h' : Along step ok' s as) :
    Along step (fun s a => ok s a ∧ ok' s a) s as := by
  induction as generalizing s with
  | nil => trivial
  | cons a as ih => exact ⟨⟨h.1, h'.1⟩, fun t ht => ih (h.2 t ht) (h'.2 t ht)⟩

/-- What holds at the end of a run holds at its start, if every allowed step carries it
back; on the way the steps are found to meet `ok'`. -/
theorem Along.backward {step : σ → α → Option σ} {ok ok' : σ → α → Prop} {Q P : σ → Prop}
    (hnext : ∀ s a t, Q s → step s a = some t → Q t)
    (hback : ∀ s a t, Q s → P t → ok s a → step s a = some t → P s ∧ ok' s a) {s u : σ}
    {as : List α} (h : Along step ok s as) (hs : Q s) (hu : P u) (hrun : run step s as = some u) :
    P s ∧ Along step ok' s as := by
  induction as generalizing s with
  | nil =>
    cases hrun
    exact ⟨hu, trivial⟩
  | cons a as ih =>
    obtain ⟨t, ht, hrest⟩ := run_cons.mp hrun
    obtain ⟨hok, hlater⟩ := (along_cons ht).mp h
    obtain ⟨hPt, hok'⟩ := ih hlater (hnext s a t hs ht) hrest
    obtain ⟨hPs, hnow⟩ := hback s a t hs hPt hok ht
    exact ⟨hPs, (along_cons ht).mpr ⟨hnow, hok'⟩⟩

theorem exists_run {step : σ → α → Option σ} {ok : σ → α → Prop} {P : σ → Prop}
    (hstep : ∀ s a, P s → ok s a → ∃ t, step s a = some t ∧ P t) {s : σ} {as : List α}
    (hs : P s) (hok : Along step ok s as) : ∃ u, run step s as = some u := by
  induction as generalizing s with
  | nil => exact ⟨s, rfl⟩
  | cons a as ih =>
    obtain ⟨t, ht, hPt⟩ := hstep s a hs hok.1
    obtain ⟨u, hu⟩ := ih hPt (hok.2 t ht)
    exact ⟨u, run_cons.mpr ⟨t, ht, hu⟩⟩

/-- A value that every step changes by `g` is the fold of `g` over the run. -/
theorem run_foldl {β : Type*} {step : σ → α → Option σ} {ok : σ → α → Prop} {P : σ → Prop}
    {f : σ → β} {g : β → α → β}
    (hstep : ∀ s a t, P s → ok s a → step s a = some t → P t ∧ f t = g (f s) a) {s u : σ}
    {as : List α} (hs : P s) (hok : Along step ok s as) (hrun : run step s as = some u) :
    f u = as.foldl g (f s) := by
  induction as generalizing s with
  | nil =>
    cases hrun
    rfl
  | cons a as ih =>
    obtain ⟨t, ht, hu⟩ := run_cons.mp hrun
    obtain ⟨hPt, hft⟩ := hstep s a t hs hok.1 ht
    rw [List.foldl_cons, ← hft]
    exact ih hPt (hok.2 t ht) hu

/-- What becomes true along a run becomes true at one of its steps. -/
theorem exists_step_of_run {step : σ → α → Option σ} {P : σ → Prop} {s u : σ} {as : List α}
    (hrun : run step s as = some u) (hs : ¬P s) (hu : P u) :
    ∃ pre a post v w, as = pre ++ a :: post ∧ run step s pre = some v ∧ step v a = some w ∧
      run step w post = some u ∧ ¬P v ∧ P w := by
  induction as generalizing s with
  | nil =>
    cases hrun
    exact absurd hu hs
  | cons a as ih =>
    obtain ⟨t, ht, hrest⟩ := run_cons.mp hrun
    by_cases hP : P t
    · exact ⟨[], a, as, s, t, rfl, rfl, ht, hrest, hs, hP⟩
    · obtain ⟨pre, b, post, v, w, rfl, hpre, hstep, hpost, hv, hw⟩ := ih hrest hP
      exact ⟨a :: pre, b, post, v, w, rfl, run_cons.mpr ⟨t, ht, hpre⟩, hstep, hpost, hv, hw⟩

/-- Some run leads from `s` to a state that satisfies `P`. -/
def Reaches (step : σ → α → Option σ) (s : σ) (P : σ → Prop) : Prop :=
  ∃ as u, run step s as = some u ∧ P u

theorem Reaches.here {step : σ → α → Option σ} {s : σ} {P : σ → Prop} (h : P s) :
    Reaches step s P :=
  ⟨[], s, rfl, h⟩

theorem Reaches.head {step : σ → α → Option σ} {s t : σ} {a : α} {P : σ → Prop}
    (hstep : step s a = some t) (h : Reaches step t P) : Reaches step s P := by
  obtain ⟨as, u, hu, hP⟩ := h
  exact ⟨a :: as, u, run_cons.mpr ⟨t, hstep, hu⟩, hP⟩

theorem Reaches.trans {step : σ → α → Option σ} {s : σ} {P Q : σ → Prop}
    (h : Reaches step s P) (hnext : ∀ t, P t → Reaches step t Q) : Reaches step s Q := by
  obtain ⟨as, t, ht, hP⟩ := h
  obtain ⟨bs, u, hu, hQ⟩ := hnext t hP
  exact ⟨as ++ bs, u, run_append.mpr ⟨t, ht, hu⟩, hQ⟩

end Run

theorem holder_update {ι π : Type*} [DecidableEq ι] {p : π → Bool} {pc : ι → π}
    {lock lock' : Option ι} {i : ι} {x : π} (h : ∀ j, p (pc j) = true ↔ lock = some j)
    (hself : p x = true ↔ lock' = some i)
    (hother : ∀ j, j ≠ i → (lock' = some j ↔ lock = some j)) :
    ∀ j, p (Function.update pc i x j) = true ↔ lock' = some j := by
  intro j
  by_cases hj : j = i
  · subst j
    simpa using hself
  · rw [Function.update_of_ne hj, h j, hother j hj]

section Count

variable {ι : Type*} {π : Type*} [Fintype ι]

/-- How many processes stand at a program point that satisfies `p`. -/
def countAt (p : π → Bool) (pc : ι → π) : Nat := (Finset.univ.filter fun i => p (pc i) = true).card

theorem countAt_update [DecidableEq ι] (p : π → Bool) {pc : ι → π} {i : ι} {x y : π}
    (hpc : pc i = y) :
    countAt p (Function.update pc i x) + (p y).toNat = countAt p pc + (p x).toNat := by
  have hsplit (f : ι → π) : countAt p f =
      ((Finset.univ.erase i).filter fun j => p (f j) = true).card + (p (f i)).toNat := by
    unfold countAt
    rw [← Finset.insert_erase (Finset.mem_univ i), Finset.filter_insert]
    cases hp : p (f i) <;> simp
  have hrest : ((Finset.univ.erase i).filter fun j => p (Function.update pc i x j) = true) =
      (Finset.univ.erase i).filter fun j => p (pc j) = true := by
    apply Finset.filter_congr
    intro j hj
    rw [Function.update_of_ne (Finset.ne_of_mem_erase hj)]
  have hnew := hsplit (Function.update pc i x)
  have hold := hsplit pc
  rw [hrest, Function.update_self] at hnew
  rw [hpc] at hold
  omega

theorem countAt_eq_zero {p : π → Bool} {pc : ι → π} (h : ∀ i, p (pc i) = false) :
    countAt p pc = 0 := by
  simp [countAt, h]

theorem countAt_pos {p : π → Bool} {pc : ι → π} {i : ι} (h : p (pc i) = true) :
    0 < countAt p pc :=
  Finset.card_pos.mpr ⟨i, Finset.mem_filter.mpr ⟨Finset.mem_univ i, h⟩⟩

theorem eq_of_countAt_le_one {p : π → Bool} {pc : ι → π} {i j : ι} (h : countAt p pc ≤ 1)
    (hi : p (pc i) = true) (hj : p (pc j) = true) : i = j :=
  Finset.card_le_one.mp h i (Finset.mem_filter.mpr ⟨Finset.mem_univ i, hi⟩) j
    (Finset.mem_filter.mpr ⟨Finset.mem_univ j, hj⟩)

theorem countAt_add_le [DecidableEq ι] {p q : π → Bool} (h : ∀ x, p x = true → q x = false)
    (pc : ι → π) : countAt p pc + countAt q pc ≤ Fintype.card ι := by
  have hdis : Disjoint (Finset.univ.filter fun i => p (pc i) = true)
      (Finset.univ.filter fun i => q (pc i) = true) := by
    refine Finset.disjoint_filter.mpr fun i _ hp hq => ?_
    exact Bool.false_ne_true ((h _ hp).symm.trans hq)
  unfold countAt
  rw [← Finset.card_union_of_disjoint hdis]
  exact Finset.card_le_univ _

/-- At most one process satisfies `p`, so the count says whether there is one. -/
theorem countAt_of_unique {p : π → Bool} {pc : ι → π} [Decidable (∃ i, p (pc i) = true)]
    (huniq : ∀ i j, p (pc i) = true → p (pc j) = true → i = j) :
    countAt p pc = if ∃ i, p (pc i) = true then 1 else 0 := by
  split_ifs with h
  · obtain ⟨i, hi⟩ := h
    refine Finset.card_eq_one.mpr ⟨i, ?_⟩
    ext j
    simp only [Finset.mem_filter, Finset.mem_univ, true_and, Finset.mem_singleton]
    exact ⟨fun hj => huniq j i hj hi, fun hj => hj ▸ hi⟩
  · push Not at h
    exact countAt_eq_zero fun i => by simpa using h i

end Count

end Runs
