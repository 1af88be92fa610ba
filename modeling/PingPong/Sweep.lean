import PingPong.Drain
import Mathlib.Data.List.TakeWhile

/-! `cscanSched` on a fixed list of requests. Both of its candidates start as the first
node, so a first node behind the head is taken as the nearest one ahead of it. The
drain is the circular sweep as long as the requests ahead of the head keep such a
node from becoming the first one. -/

namespace PingPong

open Selection

section Sweep

variable {α : Type*} {ia : IntArith} {norm : Int → Int} {S : Int → Prop} {block : α → Int}
  {head : Int}

def ahead (block : α → Int) (head : Int) (l : List α) : List α :=
  l.filter fun y => head ≤ block y

def behind (block : α → Int) (head : Int) (l : List α) : List α :=
  l.filter fun y => block y < head

/-- The nearest request at or ahead of the head when there is one, and the lowest
block otherwise; of one block the request that arrived first. -/
def CircularChoice (block : α → Int) (head : Int) (l : List α) (r : α) : Prop :=
  FirstMin block (if ahead block head l = [] then l else ahead block head l) r

/-- One sweep upwards from the head, and one from the lowest block. -/
def circularSweep (block : α → Int) (head : Int) (l : List α) : List α :=
  ascending block (ahead block head l) ++ ascending block (behind block head l)

/-- Whatever arrived after a request behind the head is nearer to the head than some
request that arrived before all those behind it. -/
def FrontOutlasts (block : α → Int) (head : Int) (l : List α) : Prop :=
  ∀ y ∈ l.dropWhile (fun x => head ≤ block x), head ≤ block y →
    ∃ w ∈ l.takeWhile (fun x => head ≤ block x), block y < block w

theorem cscanLoop_eq {l : List α} (hd : ∀ y ∈ l, iBlockDist ia block head y = block y - head)
    (a b : α) (inFront : Bool) :
    cscanLoop ia block head (block a - head) (block b) a b inFront l =
      if inFront = true ∨ ahead block head l ≠ [] then
        (ahead block head l).foldl (keepLeast block) a
      else (behind block head l).foldl (keepLeast block) b := by
  induction l generalizing a b inFront with
  | nil => simp [cscanLoop, ahead, behind]
  | cons x l ih =>
    have hx := hd x (List.mem_cons_self ..)
    have hrest := ih fun y hy => hd y (List.mem_cons_of_mem x hy)
    by_cases hside : head ≤ block x
    · have hpos : 0 ≤ block x - head := by omega
      have hahead : ahead block head (x :: l) = x :: ahead block head l := by
        simp [ahead, hside]
      rw [hahead, if_pos (.inr (List.cons_ne_nil _ _)), List.foldl_cons]
      simp only [cscanLoop, hx]
      rw [if_pos hpos]
      by_cases hlt : block x < block a
      · have hnear : block x - head < block a - head := by omega
        rw [if_pos hnear, hrest, if_pos (.inl rfl), keepLeast, if_pos hlt]
      · have hfar : ¬block x - head < block a - head := by omega
        rw [if_neg hfar, hrest, if_pos (.inl rfl), keepLeast, if_neg hlt]
    · have hneg : ¬0 ≤ block x - head := by omega
      have hahead : ahead block head (x :: l) = ahead block head l := by
        simp [ahead, hside]
      have hbehind : behind block head (x :: l) = x :: behind block head l := by
        simp [behind, Int.not_le.mp hside]
      rw [hahead, hbehind, List.foldl_cons]
      simp only [cscanLoop, hx]
      rw [if_neg hneg]
      by_cases hlt : block x < block b
      · rw [if_pos hlt, hrest, keepLeast, if_pos hlt]
      · rw [if_neg hlt, hrest, keepLeast, if_neg hlt]

theorem cscanSched_ahead {x : α} {l : List α}
    (hd : ∀ y ∈ x :: l, iBlockDist ia block head y = block y - head) (hx : head ≤ block x) :
    ∃ r, cscanSched ia block head (x :: l) = some r ∧
      FirstMin block (ahead block head (x :: l)) r := by
  have hahead : ahead block head (x :: l) = x :: ahead block head l := by
    simp [ahead, hx]
  have hloop : cscanSched ia block head (x :: l) =
      some ((ahead block head (x :: l)).foldl (keepLeast block) x) := by
    rw [cscanSched, hd x (List.mem_cons_self ..), cscanLoop_eq hd, if_pos (.inr (by simp [hahead]))]
  refine ⟨_, hloop, ?_⟩
  have hself : keepLeast block x x = x := ite_self x
  rw [hahead, List.foldl_cons, hself]
  exact foldl_keepLeast _ _

theorem cscanSched_first {x : α} {l : List α}
    (hd : ∀ y ∈ x :: l, iBlockDist ia block head y = block y - head) (hx : block x < head)
    (hahead : ahead block head (x :: l) ≠ []) : cscanSched ia block head (x :: l) = some x := by
  rw [cscanSched, hd x (List.mem_cons_self ..), cscanLoop_eq hd, if_pos (.inr hahead)]
  refine congrArg some (foldl_keepLeast_of_le fun y hy => ?_)
  have hy' : head ≤ block y := by simpa [ahead] using (List.mem_filter.mp hy).2
  omega

theorem behind_eq_self {l : List α} (h : ahead block head l = []) : behind block head l = l := by
  refine List.filter_eq_self.mpr fun y hy => ?_
  have hy' := List.filter_eq_nil_iff.mp h y hy
  simpa using hy'

theorem cscanSched_behind {x : α} {l : List α}
    (hd : ∀ y ∈ x :: l, iBlockDist ia block head y = block y - head)
    (hahead : ahead block head (x :: l) = []) :
    ∃ r, cscanSched ia block head (x :: l) = some r ∧ FirstMin block (x :: l) r := by
  have hloop : cscanSched ia block head (x :: l) = some ((x :: l).foldl (keepLeast block) x) := by
    rw [cscanSched, hd x (List.mem_cons_self ..), cscanLoop_eq hd, if_neg (by simp [hahead]),
      behind_eq_self hahead]
  refine ⟨_, hloop, ?_⟩
  have hself : keepLeast block x x = x := ite_self x
  rw [List.foldl_cons, hself]
  exact foldl_keepLeast _ _

theorem ahead_eq_self {l : List α} (h : ∀ y ∈ l, head ≤ block y) : ahead block head l = l :=
  List.filter_eq_self.mpr fun y hy => by simpa using h y hy

theorem IntArith.ExactOn.iBlockDist (hia : ia.ExactOn norm S) {l : List α} (hhead : S head)
    (hl : ∀ y ∈ l, S (block y)) : ∀ y ∈ l, PingPong.iBlockDist ia block head y = block y - head :=
  fun y hy => hia.sub _ _ (hl y hy) hhead

/-- The single choice is the circular one exactly when the first node is not a
request behind the head that others overtake. -/
theorem cscanSched_circular (hia : ia.ExactOn norm S) {l : List α} {r : α} (hhead : S head)
    (hl : ∀ y ∈ l, S (block y)) (h : cscanSched ia block head l = some r) :
    CircularChoice block head l r ↔
      (∀ y ∈ l, block y < head) ∨ ∃ x ∈ l.head?, head ≤ block x := by
  cases l with
  | nil => cases h
  | cons x l =>
    have hd := hia.iBlockDist hhead hl
    by_cases hahead : ahead block head (x :: l) = []
    · obtain ⟨r', hr', hmin⟩ := cscanSched_behind hd hahead
      cases h.symm.trans hr'
      have hall : ∀ y ∈ x :: l, block y < head := fun y hy => by
        simpa using List.filter_eq_nil_iff.mp hahead y hy
      exact iff_of_true (by rwa [CircularChoice, if_pos hahead]) (.inl hall)
    · rw [CircularChoice, if_neg hahead]
      rcases Int.lt_or_le (block x) head with hx | hx
      · cases h.symm.trans (cscanSched_first hd hx hahead)
        refine iff_of_false (fun hmin => ?_) ?_
        · have hmem := (List.mem_filter.mp hmin.mem).2
          simp only [decide_eq_true_eq] at hmem
          omega
        · rintro (hall | ⟨z, hz, hle⟩)
          · refine hahead (List.filter_eq_nil_iff.mpr fun y hy => ?_)
            have hlt := hall y hy
            simpa using hlt
          · cases Option.some.inj hz
            omega
      · obtain ⟨r', hr', hmin⟩ := cscanSched_ahead hd hx
        cases h.symm.trans hr'
        exact iff_of_true hmin (.inr ⟨x, rfl, hx⟩)

theorem frontOutlasts_split {A R : List α} (hA : ∀ x ∈ A, head ≤ block x)
    (hR : ∀ z ∈ R.head?, block z < head) :
    FrontOutlasts block head (A ++ R) ↔
      ∀ y ∈ R, head ≤ block y → ∃ w ∈ A, block y < block w := by
  have hA' : ∀ x ∈ A, decide (head ≤ block x) = true := fun x hx => by simpa using hA x hx
  have hfirst : R.takeWhile (fun x => head ≤ block x) = [] ∧
      R.dropWhile (fun x => head ≤ block x) = R := by
    cases R with
    | nil => exact ⟨rfl, rfl⟩
    | cons z R =>
      have hz : ¬head ≤ block z := Int.not_le.mpr (hR z rfl)
      simp [hz]
  rw [FrontOutlasts, List.takeWhile_append_of_pos hA', List.dropWhile_append_of_pos hA', hfirst.1,
    hfirst.2, List.append_nil]

theorem exists_split (block : α → Int) (head : Int) (l : List α) :
    ∃ A R, l = A ++ R ∧ (∀ x ∈ A, head ≤ block x) ∧ ∀ z ∈ R.head?, block z < head := by
  refine ⟨l.takeWhile fun x => head ≤ block x, l.dropWhile fun x => head ≤ block x,
    List.takeWhile_append_dropWhile.symm, fun x hx => ?_, fun z hz => ?_⟩
  · simpa using List.mem_takeWhile_imp hx
  · have hz' := List.head?_dropWhile_not (fun x => decide (head ≤ block x)) l
    rw [Option.mem_def.mp hz] at hz'
    simpa using hz'

theorem same_side {l : List α} {r : α} (hmin : FirstMin block (ahead block head l) r) :
    head ≤ block r ∧ ∀ y ∈ l, block r ≤ block y ↔ head ≤ block y := by
  have hr : head ≤ block r := by simpa using (List.mem_filter.mp hmin.mem).2
  refine ⟨hr, fun y hy => ⟨fun hle => hr.trans hle, fun hle => ?_⟩⟩
  exact hmin.le (List.mem_filter.mpr ⟨hy, by simpa using hle⟩)

section Drain

variable [DecidableEq α]

theorem drain_ascending (hia : ia.ExactOn norm S) {k : Nat} {d : Drain α} (hhead : S d.iCurrBlock)
    (hl : ∀ y ∈ d.list, S (block y)) (hle : ∀ y ∈ d.list, d.iCurrBlock ≤ block y)
    (hk : d.list.length ≤ k) :
    (drain ia block .cscan k d).served = d.served ++ ascending block d.list := by
  induction k generalizing d with
  | zero =>
    have hnil : d.list = [] := List.length_eq_zero_iff.mp (Nat.le_zero.mp hk)
    rw [drain_nil hnil, hnil]
    exact (List.append_nil _).symm
  | succ k ih =>
    cases hlist : d.list with
    | nil =>
      rw [drain_nil hlist]
      exact (List.append_nil _).symm
    | cons x l =>
      obtain ⟨r, hr, hmin⟩ := cscanSched_ahead (hlist ▸ hia.iBlockDist hhead hl)
        (hle x (hlist ▸ List.mem_cons_self ..))
      rw [ahead_eq_self (hlist ▸ hle), ← hlist] at hmin
      rw [← hlist] at hr ⊢
      have hsched : schedChoice ia block d.iCurrBlock .cscan d.list = some r := hr
      rw [drain_succ hsched, ih (hl r hmin.mem)]
      · rw [Drain.serve, hmin.ascending, List.append_assoc]
        rfl
      · exact fun y hy => hl y (List.mem_of_mem_erase hy)
      · exact fun y hy => hmin.le (List.mem_of_mem_erase hy)
      · have hlen := List.length_erase_of_mem hmin.mem
        have hpos := List.length_pos_of_mem hmin.mem
        show (d.list.erase r).length ≤ k
        omega

theorem circularSweep_serve {l : List α} {r : α} (hmin : FirstMin block (ahead block head l) r) :
    circularSweep block head l = r :: circularSweep block (block r) (l.erase r) := by
  obtain ⟨hr, hside⟩ := same_side hmin
  have hahead : ahead block (block r) (l.erase r) = (ahead block head l).erase r := by
    rw [ahead, ahead, List.erase_filter]
    exact List.filter_congr fun y hy =>
      decide_eq_decide.mpr (hside y (List.mem_of_mem_erase hy))
  have hbehind : behind block (block r) (l.erase r) = behind block head l := by
    have hnot : r ∉ behind block head l := fun hmem => by
      have hlt := (List.mem_filter.mp hmem).2
      simp only [decide_eq_true_eq] at hlt
      omega
    rw [← List.erase_of_not_mem hnot, behind, behind, List.erase_filter]
    refine List.filter_congr fun y hy => decide_eq_decide.mpr ?_
    have hy' := hside y (List.mem_of_mem_erase hy)
    omega
  rw [circularSweep, circularSweep, hahead, hbehind, hmin.ascending, List.cons_append]

theorem frontOutlasts_erase_front {A R : List α} {r : α} (hR : ∀ z ∈ R.head?, block z < head)
    (hr : head ≤ block r) (hleft : ∀ y ∈ A, block r ≤ block y)
    (hright : ∀ y ∈ R, block r ≤ block y ↔ head ≤ block y) (hrA : r ∈ A) :
    FrontOutlasts block (block r) ((A ++ R).erase r) ↔
      ∀ y ∈ R, head ≤ block y → ∃ w ∈ A, block y < block w := by
  rw [List.erase_append_left _ hrA, frontOutlasts_split
    (fun y hy => hleft y (List.mem_of_mem_erase hy)) (fun z hz => (hR z hz).trans_le hr)]
  refine forall₂_congr fun y hy =>
    (imp_congr_left (hright y hy)).trans (imp_congr_right fun hle => ?_)
  constructor
  · rintro ⟨w, hw, hlt⟩
    exact ⟨w, List.mem_of_mem_erase hw, hlt⟩
  · rintro ⟨w, hw, hlt⟩
    have hwr : w ≠ r := fun he => by
      have hry := (hright y hy).mpr hle
      rw [he] at hlt
      omega
    exact ⟨w, (List.mem_erase_of_ne hwr).mpr hw, hlt⟩

theorem frontOutlasts_erase_later {A R : List α} {x r : α} (hR : ∀ z ∈ R.head?, block z < head)
    (hr : head ≤ block r) (hleft : ∀ y ∈ A, block r ≤ block y)
    (hright : ∀ y ∈ R, block r ≤ block y ↔ head ≤ block y) (hrA : r ∉ A) (hxA : x ∈ A)
    (hlt : block r < block x) :
    FrontOutlasts block (block r) ((A ++ R).erase r) ↔
      ∀ y ∈ R, head ≤ block y → ∃ w ∈ A, block y < block w := by
  have hfirst : ∀ z ∈ (R.erase r).head?, block z < block r := by
    cases R with
    | nil => exact fun z hz => by cases hz
    | cons z R =>
      have hz := hR z rfl
      have hzr : z ≠ r := fun he => by
        rw [he] at hz
        omega
      rw [List.erase_cons_tail (by simpa using hzr)]
      rintro y hy
      cases Option.some.inj hy
      omega
  rw [List.erase_append_right _ hrA, frontOutlasts_split hleft hfirst]
  constructor
  · intro hall y hy hle
    by_cases hyr : y = r
    · exact ⟨x, hxA, hyr ▸ hlt⟩
    · exact hall y ((List.mem_erase_of_ne hyr).mpr hy) ((hright y hy).mpr hle)
  · intro hall y hy hle
    have hyR := List.mem_of_mem_erase hy
    exact hall y hyR ((hright y hyR).mp hle)

theorem frontOutlasts_serve {x r : α} {l : List α} (hx : head ≤ block x)
    (hmin : FirstMin block (ahead block head (x :: l)) r) :
    FrontOutlasts block (block r) ((x :: l).erase r) ↔ FrontOutlasts block head (x :: l) := by
  obtain ⟨hr, hside⟩ := same_side hmin
  obtain ⟨A, R, hl, hA, hR⟩ := exists_split block head (x :: l)
  have hxA : x ∈ A := by
    cases A with
    | nil =>
      have hlt := hR x (by rw [← List.nil_append R, ← hl]; rfl)
      omega
    | cons a A =>
      rw [(List.cons.inj hl).1]
      exact List.mem_cons_self ..
  have hnear (hrA : r ∉ A) : block r < block x := by
    have hahead : ahead block head (x :: l) = x :: ahead block head l := by
      simp [ahead, hx]
    exact (hahead ▸ hmin).lt_of_ne fun he => hrA (he ▸ hxA)
  rw [hl] at hside ⊢
  have hleft (y : α) (hy : y ∈ A) : block r ≤ block y :=
    (hside y (List.mem_append_left R hy)).mpr (hA y hy)
  have hright (y : α) (hy : y ∈ R) : block r ≤ block y ↔ head ≤ block y :=
    hside y (List.mem_append_right A hy)
  rw [frontOutlasts_split hA hR]
  by_cases hrA : r ∈ A
  · exact frontOutlasts_erase_front hR hr hleft hright hrA
  · exact frontOutlasts_erase_later hR hr hleft hright hrA hxA (hnear hrA)

theorem drain_served (k : Nat) (d : Drain α) (alg : DiskAlgorithm) :
    ∃ rest, (drain ia block alg k d).served = d.served ++ rest := by
  induction k generalizing d with
  | zero => exact ⟨[], (List.append_nil _).symm⟩
  | succ k ih =>
    cases hsched : schedChoice ia block d.iCurrBlock alg d.list with
    | none => exact ⟨[], by simp only [drain, hsched, List.append_nil]⟩
    | some x =>
      obtain ⟨rest, hrest⟩ := ih (d.serve ia block x)
      exact ⟨x :: rest, by rw [drain_succ hsched, hrest, Drain.serve, List.append_assoc]; rfl⟩

theorem drain_behind (hia : ia.ExactOn norm S) {k : Nat} {d : Drain α} (hhead : S d.iCurrBlock)
    (hl : ∀ y ∈ d.list, S (block y)) (hk : d.list.length ≤ k + 1) (hne : d.list ≠ [])
    (hahead : ahead block d.iCurrBlock d.list = []) :
    (drain ia block .cscan (k + 1) d).served =
      d.served ++ circularSweep block d.iCurrBlock d.list := by
  obtain ⟨x, l, hlist⟩ := List.exists_cons_of_ne_nil hne
  rw [circularSweep, hahead, behind_eq_self hahead, ascending, List.insertionSort_nil,
    List.nil_append]
  rw [hlist] at hahead
  obtain ⟨r, hr, hmin⟩ := cscanSched_behind (hlist ▸ hia.iBlockDist hhead hl) hahead
  rw [← hlist] at hr hmin
  have hsched : schedChoice ia block d.iCurrBlock .cscan d.list = some r := hr
  rw [drain_succ hsched, drain_ascending hia (hl r hmin.mem)]
  · rw [Drain.serve, hmin.ascending, List.append_assoc]
    rfl
  · exact fun y hy => hl y (List.mem_of_mem_erase hy)
  · exact fun y hy => hmin.le (List.mem_of_mem_erase hy)
  · have hlen := List.length_erase_of_mem hmin.mem
    show (d.list.erase r).length ≤ k
    omega

theorem drain_first {k : Nat} {d : Drain α} {x : α} {l : List α}
    (hd : ∀ y ∈ x :: l, iBlockDist ia block d.iCurrBlock y = block y - d.iCurrBlock)
    (hlist : d.list = x :: l) (hx : block x < d.iCurrBlock)
    (hahead : ahead block d.iCurrBlock (x :: l) ≠ []) :
    (drain ia block .cscan (k + 1) d).served ≠
      d.served ++ circularSweep block d.iCurrBlock (x :: l) := by
  have hsched : schedChoice ia block d.iCurrBlock .cscan d.list = some x :=
    hlist ▸ cscanSched_first hd hx hahead
  obtain ⟨rest, hrest⟩ : ∃ rest, (drain ia block .cscan k (d.serve ia block x)).served =
      (d.serve ia block x).served ++ rest := drain_served k _ .cscan
  rw [drain_succ hsched, hrest, Drain.serve, List.append_assoc]
  intro hserved
  have htail := List.append_cancel_left hserved
  obtain ⟨y, m, hm⟩ := List.exists_cons_of_ne_nil hahead
  have hmin : FirstMin block (y :: m) (m.foldl (keepLeast block) y) := foldl_keepLeast m y
  rw [← hm] at hmin
  rw [circularSweep_serve hmin] at htail
  have hxr := (List.cons.inj htail).1
  have hle := (same_side hmin).1
  rw [← hxr] at hle
  omega

theorem drain_sweep (hia : ia.ExactOn norm S) {k : Nat} {d : Drain α} (hhead : S d.iCurrBlock)
    (hl : ∀ y ∈ d.list, S (block y)) (hk : d.list.length ≤ k) :
    (drain ia block .cscan k d).served = d.served ++ circularSweep block d.iCurrBlock d.list ↔
      FrontOutlasts block d.iCurrBlock d.list := by
  induction k generalizing d with
  | zero =>
    have hnil : d.list = [] := List.length_eq_zero_iff.mp (Nat.le_zero.mp hk)
    rw [drain_nil hnil, hnil]
    exact iff_of_true (List.append_nil _).symm (fun y hy => absurd hy List.not_mem_nil)
  | succ k ih =>
    cases hlist : d.list with
    | nil =>
      rw [drain_nil hlist]
      exact iff_of_true (List.append_nil _).symm (fun y hy => absurd hy List.not_mem_nil)
    | cons x l =>
      have hd := hlist ▸ hia.iBlockDist hhead hl
      by_cases hahead : ahead block d.iCurrBlock (x :: l) = []
      · refine iff_of_true (hlist ▸ drain_behind hia hhead hl hk (by simp [hlist])
          (hlist ▸ hahead)) fun y hy hle => ?_
        have hy' := List.filter_eq_nil_iff.mp hahead y (List.dropWhile_sublist _ |>.subset hy)
        exact absurd hle (by simpa using hy')
      · rcases Int.lt_or_le (block x) d.iCurrBlock with hx | hx
        · refine iff_of_false (drain_first hd hlist hx hahead) (fun hout => ?_)
          obtain ⟨y, hy⟩ := List.exists_mem_of_ne_nil _ hahead
          obtain ⟨hyl, hle⟩ := List.mem_filter.mp hy
          have hsplit := (frontOutlasts_split (A := []) nofun
            (fun z hz => Option.some.inj hz ▸ hx)).mp hout
          obtain ⟨w, hw, -⟩ := hsplit y hyl (by simpa using hle)
          cases hw
        · obtain ⟨r, hr, hmin⟩ := cscanSched_ahead hd hx
          have hsched : schedChoice ia block d.iCurrBlock .cscan d.list = some r := hlist ▸ hr
          have hmem : r ∈ d.list := hlist ▸ (List.mem_filter.mp hmin.mem).1
          have hlen := List.length_erase_of_mem hmem
          rw [drain_succ hsched, circularSweep_serve hmin, ← frontOutlasts_serve hx hmin, ← hlist]
          have hrest : (d.list.erase r).length ≤ k := by omega
          rw [List.append_cons]
          exact ih (d := d.serve ia block r) (hl r hmem)
            (fun y hy => hl y (List.mem_of_mem_erase hy)) hrest

end Drain

example : circularSweep id 10 [12, 3, 10, 5] = [10, 12, 3, 5] := by decide

end Sweep

end PingPong
