import PingPong.Sweep
import PingPong.Shortest
import Mathlib.Tactic.Ring

/-! How far the head goes in a drain with `cscanSched`. A circular sweep crosses the
interval of the blocks at most twice. A drain that serves a request behind the head
first may cross it once for every request. -/

namespace PingPong

open LineTour Selection

/-- Pairs of blocks around an interval, each wider by one to both sides, and the lower
of a pair before the upper. -/
def zigzag : Nat → Int → Int → List Int
  | 0, _, _ => []
  | k + 1, a, b => a :: b :: zigzag k (a - 1) (b + 1)

section Travel

variable {α : Type*} {ia : IntArith} {norm : Int → Int} {S : Int → Prop} {block : α → Int}

theorem pairwise_ascending (block : α → Int) (l : List α) :
    ((ascending block l).map block).Pairwise (· ≤ ·) :=
  List.pairwise_map.mpr (List.pairwise_insertionSort (fun a b => block a ≤ block b) l)

theorem mem_ascending_map {l : List α} {b : Int} (hb : b ∈ (ascending block l).map block) :
    ∃ y ∈ l, block y = b := by
  obtain ⟨y, hy, he⟩ := List.mem_map.mp hb
  exact ⟨y, (List.mem_insertionSort _).mp hy, he⟩

theorem tour_circularSweep (block : α → Int) (head : Int) (l : List α) :
    tour head ((circularSweep block head l).map block) ≤
      2 * ((l.map block).foldr max head - (l.map block).foldr min head) := by
  have hbounds := foldr_bounds (l.map block) head
  have hhead := hbounds head (List.mem_cons_self ..)
  have hblock (y : α) (hy : y ∈ l) :=
    hbounds (block y) (List.mem_cons_of_mem _ (List.mem_map_of_mem hy))
  have hup : ∀ b ∈ (ascending block (ahead block head l)).map block,
      head ≤ b ∧ b ≤ (l.map block).foldr max head := fun b hb => by
    obtain ⟨y, hy, rfl⟩ := mem_ascending_map hb
    obtain ⟨hyl, hle⟩ := List.mem_filter.mp hy
    exact ⟨by simpa using hle, (hblock y hyl).2⟩
  have hback : ∀ b ∈ (ascending block (behind block head l)).map block,
      (l.map block).foldr min head ≤ b ∧ b ≤ head := fun b hb => by
    obtain ⟨y, hy, rfl⟩ := mem_ascending_map hb
    obtain ⟨hyl, hlt⟩ := List.mem_filter.mp hy
    exact ⟨(hblock y hyl).1, Int.le_of_lt (by simpa using hlt)⟩
  have hgone := tour_sweeps (pairwise_ascending block _) (pairwise_ascending block _) hup hback
    (Int.le_refl head) hhead.2 hhead.1
  rw [circularSweep, List.map_append]
  omega

theorem zigzag_outside {k : Nat} {a b y : Int} (hy : y ∈ zigzag k a b) : y ≤ a ∨ b ≤ y := by
  induction k generalizing a b with
  | zero => cases hy
  | succ k ih =>
    rcases List.mem_cons.mp hy with rfl | hy
    · exact .inl (Int.le_refl _)
    rcases List.mem_cons.mp hy with rfl | hy
    · exact .inr (Int.le_refl _)
    have hout := ih hy
    omega

theorem mem_zigzag_bounds {k : Nat} {a b y : Int} (hy : y ∈ zigzag k a b) (hab : a < b) :
    a - k < y ∧ y < b + k := by
  induction k generalizing a b with
  | zero => cases hy
  | succ k ih =>
    rcases List.mem_cons.mp hy with rfl | hy
    · omega
    rcases List.mem_cons.mp hy with rfl | hy
    · omega
    have hin := ih hy (by omega)
    omega

theorem tour_zigzag (k : Nat) (a b : Int) (hab : a < b) :
    tour (b - 1) (zigzag k a b) = k * (2 * (b - a) + 2 * k - 3) := by
  induction k generalizing a b with
  | zero => simp [zigzag, tour]
  | succ k ih =>
    have hrest := ih (a - 1) (b + 1) (by omega)
    rw [Int.add_sub_cancel] at hrest
    rw [zigzag, tour, tour, hrest]
    have hdown : ((a - (b - 1)).natAbs : Int) = b - 1 - a := by omega
    have hup : ((b - a).natAbs : Int) = b - a := by omega
    rw [hdown, hup]
    push_cast
    ring

section Drain

variable [DecidableEq α]

theorem drain_tour (hia : ia.ExactOn norm S) (alg : DiskAlgorithm) {k : Nat} {d : Drain α}
    {gone : Int} (hhead : S d.iCurrBlock) (hl : ∀ y ∈ d.list, S (block y))
    (hgone : d.totalBlockAccess = norm gone) :
    ∃ rest, (drain ia block alg k d).served = d.served ++ rest ∧
      (drain ia block alg k d).totalBlockAccess =
        norm (gone + tour d.iCurrBlock (rest.map block)) := by
  induction k generalizing d gone with
  | zero => exact ⟨[], (List.append_nil _).symm, by simpa [drain, tour] using hgone⟩
  | succ k ih =>
    cases hsched : schedChoice ia block d.iCurrBlock alg d.list with
    | none =>
      simp only [drain, hsched]
      exact ⟨[], (List.append_nil _).symm, by simpa [tour] using hgone⟩
    | some x =>
      have hx := hl x (schedChoice_earliest hsched).mem
      have hserve : (d.serve ia block x).totalBlockAccess =
          norm (gone + (block x - d.iCurrBlock).natAbs) := by
        show ia.add d.totalBlockAccess (ia.abs (ia.sub (block x) d.iCurrBlock)) = _
        rw [hia.dist _ _ hx hhead, hgone, hia.add]
      obtain ⟨rest, hserved, htotal⟩ := ih (d := d.serve ia block x) hx
        (fun y hy => hl y (List.mem_of_mem_erase hy)) hserve
      rw [drain_succ hsched]
      refine ⟨x :: rest, ?_, ?_⟩
      · rw [hserved, Drain.serve, List.append_assoc]
        rfl
      · rw [htotal, List.map_cons, tour, Int.add_assoc]
        rfl

theorem drain_sweep_travel (hia : ia.ExactOn norm S) (start : Int) {head : Int} {l : List α}
    (hhead : S head) (hl : ∀ y ∈ l, S (block y)) (hfront : FrontOutlasts block head l) :
    (drain ia block .cscan l.length ⟨head, l, norm start, []⟩).served =
      circularSweep block head l ∧
    ∃ gone, 0 ≤ gone ∧
      gone ≤ 2 * ((l.map block).foldr max head - (l.map block).foldr min head) ∧
      (drain ia block .cscan l.length ⟨head, l, norm start, []⟩).totalBlockAccess =
        norm (start + gone) := by
  obtain ⟨rest, hserved, htotal⟩ := drain_tour (d := ⟨head, l, norm start, []⟩) (k := l.length)
    hia .cscan hhead hl rfl
  have hsweep := (drain_sweep (d := ⟨head, l, norm start, []⟩) hia hhead hl
    (Nat.le_refl _)).mpr hfront
  have hrest : rest = circularSweep block head l :=
    List.append_cancel_left (hserved.symm.trans hsweep)
  rw [hrest] at htotal
  exact ⟨hsweep, _, tour_nonneg _ _, tour_circularSweep block head l, htotal⟩

/-- The lower block of each pair is the first node, and behind the head while the upper
one is ahead of it. -/
theorem drain_zigzag (hia : ia.ExactOn norm S) (k : Nat) {a b : Int} {d : Drain Int}
    (hhead : S d.iCurrBlock) (hl : ∀ y ∈ d.list, S y) (hlist : d.list = zigzag k a b)
    (ha : a < d.iCurrBlock) (hb : d.iCurrBlock ≤ b) :
    (drain ia id .cscan (2 * k) d).served = d.served ++ zigzag k a b := by
  induction k generalizing a b d with
  | zero =>
    rw [zigzag, List.append_nil]
    rfl
  | succ k ih =>
    rw [zigzag] at hlist
    rw [hlist] at hl
    obtain ⟨hSa, hl'⟩ := List.forall_mem_cons.mp hl
    obtain ⟨hSb, -⟩ := List.forall_mem_cons.mp hl'
    have hfirst : schedChoice ia id d.iCurrBlock .cscan d.list = some a := by
      rw [hlist]
      refine cscanSched_first (hia.iBlockDist hhead hl) ha (List.ne_nil_of_mem (a := b) ?_)
      simp [ahead, hb]
    have hlist' : (d.serve ia id a).list = b :: zigzag k (a - 1) (b + 1) := by
      rw [Drain.serve, hlist, List.erase_cons_head]
    have hsecond : schedChoice ia id a .cscan (d.serve ia id a).list = some b := by
      rw [hlist']
      obtain ⟨r, hr, hmin⟩ := cscanSched_ahead (hia.iBlockDist hSa hl') (by omega : a ≤ b)
      obtain ⟨hrl, har⟩ := List.mem_filter.mp hmin.mem
      have hrb : id r ≤ id b := hmin.le (by simp [ahead]; omega)
      have har' : a ≤ r := by simpa using har
      rcases List.mem_cons.mp hrl with rfl | hrl
      · exact hr
      · have hout := zigzag_outside hrl
        simp only [id_eq] at hrb
        omega
    have hlist'' : ((d.serve ia id a).serve ia id b).list = zigzag k (a - 1) (b + 1) := by
      rw [Drain.serve, hlist', List.erase_cons_head]
    have hrest := ih (d := (d.serve ia id a).serve ia id b) hSb
      (fun y hy => hl' y (List.mem_cons_of_mem _ (hlist'' ▸ hy))) hlist''
      (by show a - 1 < b; omega) (by show b ≤ b + 1; omega)
    rw [Nat.mul_succ, drain_succ hfirst, drain_succ hsecond, hrest]
    simp [Drain.serve, zigzag]

/-- When the sweep is circular the head goes over the interval of its start and the
blocks at most twice. In general no number of crossings is enough: on the `2 * k`
requests around a head at `k` it goes `k * (2 * k + 1)` blocks on a disk of
`2 * k + 1`. -/
theorem cscan_travel (hia : ia.ExactOn norm S) (start : Int) :
    (∀ (head : Int) (l : List α), S head → (∀ y ∈ l, S (block y)) → FrontOutlasts block head l →
      ∃ gone, 0 ≤ gone ∧
        gone ≤ 2 * ((l.map block).foldr max head - (l.map block).foldr min head) ∧
        (drain ia block .cscan l.length ⟨head, l, norm start, []⟩).totalBlockAccess =
          norm (start + gone)) ∧
    ∀ k : Nat, (∀ b : Int, 0 ≤ b → b ≤ 2 * k → S b) →
      (drain ia id .cscan (2 * k) ⟨k, zigzag k (k - 1) (k + 1), norm start, []⟩).served =
        zigzag k (k - 1) (k + 1) ∧
      (drain ia id .cscan (2 * k) ⟨k, zigzag k (k - 1) (k + 1), norm start, []⟩).totalBlockAccess =
        norm (start + k * (2 * k + 1)) := by
  constructor
  · intro head l hhead hl hfront
    exact (drain_sweep_travel hia start hhead hl hfront).2
  · intro k hS
    have hl : ∀ y ∈ zigzag k (k - 1) (k + 1), S y := fun y hy => by
      have hin := mem_zigzag_bounds hy (by omega)
      exact hS y (by omega) (by omega)
    have hk : S k := hS k (by omega) (by omega)
    have hserved := drain_zigzag (d := ⟨k, zigzag k (k - 1) (k + 1), norm start, []⟩) hia k hk hl
      rfl (by show (k : Int) - 1 < k; omega) (by show (k : Int) ≤ k + 1; omega)
    refine ⟨hserved, ?_⟩
    obtain ⟨rest, hrest, htotal⟩ := @drain_tour Int ia norm S id _ hia .cscan (2 * k)
      ⟨k, zigzag k (k - 1) (k + 1), norm start, []⟩ start hk hl rfl
    have he : rest = zigzag k (k - 1) (k + 1) := List.append_cancel_left (hrest.symm.trans hserved)
    have hgone := tour_zigzag k (k - 1) (k + 1) (by omega)
    rw [Int.add_sub_cancel] at hgone
    rw [htotal, he, List.map_id, hgone]
    ring_nf

end Drain

theorem cscan_travel_small :
    (∃ gone, 0 ≤ gone ∧ gone ≤ 2 * (12 - 3) ∧
      (drain .wrap32 id .cscan 4 ⟨10, [12, 3, 10, 5], 0, []⟩).totalBlockAccess =
        wrapInt (0 + gone)) ∧
    (drain .wrap32 id .cscan 6 ⟨3, [2, 4, 1, 5, 0, 6], 0, []⟩).totalBlockAccess = 21 := by
  obtain ⟨hsweep, hzigzag⟩ := @cscan_travel Int .wrap32 wrapInt _ id _ wrap32_exactOn 0
  refine ⟨hsweep 10 [12, 3, 10, 5] (by decide) (by decide) ?_, (hzigzag 3 fun b hb hb3 => ?_).2⟩
  · unfold FrontOutlasts
    decide
  · have hmax : (6 : Int) ≤ intMax := by decide
    exact ⟨hb, by omega⟩

end Travel

end PingPong
