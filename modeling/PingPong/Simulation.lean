import PingPong.Runs

/-! Forward simulation. Some steps of a system carry a label, and an abstract
system that follows the labels accepts the trace of every run. -/

namespace Runs

variable {σ α τ ℓ : Type*}

def traceOf (step : σ → α → Option σ) (label : σ → α → Option ℓ) : σ → List α → List ℓ
  | _, [] => []
  | s, a :: as => (label s a).toList ++ (step s a).elim [] fun t => traceOf step label t as

/-- The abstract system goes from one state to another along the labels. -/
inductive Trace (next : τ → ℓ → τ → Prop) : τ → List ℓ → τ → Prop
  | nil {a : τ} : Trace next a [] a
  | cons {a b c : τ} {l : ℓ} {ls : List ℓ} (hstep : next a l b) (hrest : Trace next b ls c) :
      Trace next a (l :: ls) c

theorem Trace.append {next : τ → ℓ → τ → Prop} {a b c : τ} {ls ms : List ℓ}
    (h : Trace next a ls b) (h' : Trace next b ms c) : Trace next a (ls ++ ms) c := by
  induction h with
  | nil => exact h'
  | cons hstep _ ih => exact .cons hstep (ih h')

theorem Trace.single {next : τ → ℓ → τ → Prop} {a b : τ} {l : ℓ} (h : next a l b) :
    Trace next a [l] b := .cons h .nil

theorem filterMap_cons_toList {β : Type*} (f : ℓ → Option β) (l : ℓ) (ls : List ℓ) :
    (l :: ls).filterMap f = (f l).toList ++ ls.filterMap f := by
  cases hl : f l <;> simp [hl]

/-- Values that come in at one end of a list and leave it at the other. -/
theorem Trace.first_in_first_out {β : Type*} {next : τ → ℓ → τ → Prop} {into out : ℓ → Option β}
    {view : τ → List β}
    (hstep : ∀ a l b, next a l b → view a ++ (into l).toList = (out l).toList ++ view b)
    {a b : τ} {ls : List ℓ} (h : Trace next a ls b) :
    view a ++ ls.filterMap into = ls.filterMap out ++ view b := by
  induction h with
  | nil => simp
  | cons hnext _ ih =>
    rw [filterMap_cons_toList, filterMap_cons_toList, ← List.append_assoc, hstep _ _ _ hnext,
      List.append_assoc, ih, List.append_assoc]

/-- A relation that every allowed step keeps, with the abstract system following
the step's label, relates the ends of all runs. -/
theorem simulation {step : σ → α → Option σ} {label : σ → α → Option ℓ} {next : τ → ℓ → τ → Prop}
    {ok : σ → α → Prop} {R : σ → τ → Prop}
    (hstep : ∀ s a t x, R s x → ok s a → step s a = some t →
      ∃ y, Trace next x (label s a).toList y ∧ R t y)
    {s u : σ} {x : τ} {as : List α} (hs : R s x) (hok : Along step ok s as)
    (hrun : run step s as = some u) :
    ∃ y, Trace next x (traceOf step label s as) y ∧ R u y := by
  induction as generalizing s x with
  | nil =>
    cases hrun
    exact ⟨x, .nil, hs⟩
  | cons a as ih =>
    obtain ⟨t, ht, hu⟩ := run_cons.mp hrun
    obtain ⟨y, hy, hty⟩ := hstep s a t x hs hok.1 ht
    obtain ⟨z, hz, huz⟩ := ih hty (hok.2 t ht) hu
    refine ⟨z, ?_, huz⟩
    simp only [traceOf, ht, Option.elim_some]
    exact hy.append hz

/-- One system follows another, action by action. -/
theorem run_matched {step : σ → α → Option σ} {step' : τ → α → Option τ} {R : σ → τ → Prop}
    (hstep : ∀ s a t x, R s x → step s a = some t → ∃ y, step' x a = some y ∧ R t y)
    {s u : σ} {x : τ} {as : List α} (hs : R s x) (hrun : run step s as = some u) :
    ∃ y, run step' x as = some y ∧ R u y := by
  induction as generalizing s x with
  | nil =>
    cases hrun
    exact ⟨x, rfl, hs⟩
  | cons a as ih =>
    obtain ⟨t, ht, hu⟩ := run_cons.mp hrun
    obtain ⟨y, hy, hty⟩ := hstep s a t x hs ht
    obtain ⟨z, hz, huz⟩ := ih hty hu
    exact ⟨z, run_cons.mpr ⟨y, hy, hz⟩, huz⟩

/-- One system follows another along the actions that concern it. -/
theorem run_projected {β : Type*} {step : σ → α → Option σ} {step' : τ → β → Option τ}
    {proj : α → Option β} {ok : σ → α → Prop} {R : σ → τ → Prop}
    (hstep : ∀ s a t x, R s x → ok s a → step s a = some t →
      ∃ y, run step' x (proj a).toList = some y ∧ R t y) {s u : σ} {x : τ} {as : List α}
    (hs : R s x) (hok : Along step ok s as) (hrun : run step s as = some u) :
    ∃ y, run step' x (as.filterMap proj) = some y ∧ R u y := by
  induction as generalizing s x with
  | nil =>
    cases hrun
    exact ⟨x, rfl, hs⟩
  | cons a as ih =>
    obtain ⟨t, ht, hu⟩ := run_cons.mp hrun
    obtain ⟨y, hy, hty⟩ := hstep s a t x hs hok.1 ht
    obtain ⟨z, hz, huz⟩ := ih hty (hok.2 t ht) hu
    refine ⟨z, ?_, huz⟩
    have hsplit : (a :: as).filterMap proj = (proj a).toList ++ as.filterMap proj := by
      cases ha : proj a <;> simp [ha]
    rw [hsplit]
    exact run_append.mpr ⟨y, hy, hz⟩

/-- An invariant of the states together with the labels seen so far. -/
theorem trace_invariant {step : σ → α → Option σ} {label : σ → α → Option ℓ} {ok : σ → α → Prop}
    {P : σ → List ℓ → Prop}
    (hstep : ∀ s a t seen, P s seen → ok s a → step s a = some t →
      P t (seen ++ (label s a).toList)) {s u : σ} {as : List α} {seen : List ℓ} (hs : P s seen)
    (hok : Along step ok s as) (hrun : run step s as = some u) :
    P u (seen ++ traceOf step label s as) := by
  induction as generalizing s seen with
  | nil =>
    cases hrun
    simpa only [traceOf, List.append_nil] using hs
  | cons a as ih =>
    obtain ⟨t, ht, hu⟩ := run_cons.mp hrun
    have hrest := ih (hstep s a t seen hs hok.1 ht) (hok.2 t ht) hu
    simpa only [traceOf, ht, Option.elim_some, List.append_assoc] using hrest

/-- Two states of one view have the same traces, when a step's label and the view
after it depend only on the view before it. -/
theorem traceOf_congr {υ : Type*} (view : σ → υ) {step : σ → α → Option σ}
    {label : σ → α → Option ℓ} (hlabel : ∀ s s' a, view s = view s' → label s a = label s' a)
    (hstep : ∀ s s' a, view s = view s' → (step s a).map view = (step s' a).map view)
    {s s' : σ} (h : view s = view s') (as : List α) :
    traceOf step label s as = traceOf step label s' as := by
  induction as generalizing s s' with
  | nil => rfl
  | cons a as ih =>
    have hnext := hstep s s' a h
    simp only [traceOf, hlabel s s' a h]
    cases ht : step s a with
    | none =>
      rw [ht, Option.map_none, eq_comm, Option.map_eq_none_iff] at hnext
      rw [hnext]
    | some t =>
      rw [ht, Option.map_some, eq_comm, Option.map_eq_some_iff] at hnext
      obtain ⟨t', ht', hview⟩ := hnext
      rw [ht', Option.elim_some, Option.elim_some, ih hview.symm]

section Guarded

variable {β : Type*} {pass : σ → β → σ → Bool} {step : σ → α → Option σ}

/-- The steps of a system that pass a check on what the outside supplies. -/
def guarded (pass : σ → β → σ → Bool) (step : σ → α → Option σ) (s : σ) (a : α × β) : Option σ :=
  (step s a.1).filter (pass s a.2)

theorem guarded_some {s t : σ} {a : α × β} :
    guarded pass step s a = some t ↔ step s a.1 = some t ∧ pass s a.2 t = true :=
  Option.filter_eq_some_iff

theorem run_of_guarded {s u : σ} {as : List (α × β)} (h : run (guarded pass step) s as = some u) :
    run step s (as.map Prod.fst) = some u := by
  induction as generalizing s with
  | nil => exact h
  | cons a as ih =>
    obtain ⟨t, ht, hu⟩ := run_cons.mp h
    exact run_cons.mpr ⟨t, (guarded_some.mp ht).1, ih hu⟩

/-- When an invariant makes every step pass, the check stops no run. -/
theorem run_guarded {P : σ → Prop}
    (hstep : ∀ s a t, P s → step s a = some t → P t ∧ ∀ b, pass s b t = true) {s u : σ}
    {as : List α} (hs : P s) (h : run step s as = some u) {bs : List β}
    (hlen : bs.length = as.length) : run (guarded pass step) s (as.zip bs) = some u := by
  induction as generalizing s bs with
  | nil => exact h
  | cons a as ih =>
    obtain ⟨b, bs, rfl⟩ := List.exists_cons_of_length_eq_add_one hlen
    obtain ⟨t, ht, hu⟩ := run_cons.mp h
    obtain ⟨hPt, hpass⟩ := hstep s a t hs ht
    exact run_cons.mpr ⟨t, guarded_some.mpr ⟨ht, hpass b⟩, ih hPt hu (Nat.succ.inj hlen)⟩

end Guarded

/-- A label that the trace lacks is not the label of any step of the run. -/
theorem along_of_not_mem {step : σ → α → Option σ} {label : σ → α → Option ℓ} {l : ℓ} {s : σ}
    {as : List α} (h : l ∉ traceOf step label s as) :
    Along step (fun s a => label s a ≠ some l) s as := by
  induction as generalizing s with
  | nil => trivial
  | cons a as ih =>
    simp only [traceOf, List.mem_append, not_or] at h
    refine ⟨fun he => h.1 (by simp [he]), fun t ht => ih fun hmem => h.2 ?_⟩
    have ht' : step s a = some t := ht
    simpa only [ht', Option.elim_some] using hmem

end Runs
