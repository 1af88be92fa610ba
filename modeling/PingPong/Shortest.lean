import PingPong.Drain
import PingPong.LineTour

/-! `sstfSched` on a fixed list of requests. The blocks visited fill an interval that no
pending request lies inside of, and the head turns back only over distances that
double, so the way it goes is at most twice as long as the interval. -/

namespace PingPong

open LineTour

section Shortest

variable {α : Type*} {ia : IntArith} {norm : Int → Int} {S : Int → Prop} {block : α → Int}
  {head : Int}

def Drain.Pending (block : α → Int) (d : Drain α) (b : Int) : Prop := ∃ y ∈ d.list, block y = b

def Drain.visited (block : α → Int) (head : Int) (d : Drain α) : List Int :=
  head :: d.served.map block

/-- What is promised of the drain of the requests `l`: the head moves over at most three
times the distance between the outermost of its start and the blocks, and no pending
request lies strictly between two positions that it has had. -/
structure ShortTour (norm : Int → Int) (block : α → Int) (head start : Int) (l : List α)
    (d : Drain α) : Prop where
  total : ∃ gone, 0 ≤ gone ∧
    gone ≤ 3 * ((l.map block).foldr max head - (l.map block).foldr min head) ∧
    d.totalBlockAccess = norm (start + gone)
  clear : ∀ y ∈ d.list, ∀ a ∈ d.visited block head, ∀ b ∈ d.visited block head,
    ¬(a < block y ∧ block y < b)

/-- The drain of the requests `l` from `head` and the total `norm start`, with the
swept interval, the gap of the tour and the distance gone so far. -/
structure Touring (norm : Int → Int) (S : Int → Prop) (block : α → Int) (head start : Int)
    (l : List α) (d : Drain α) (lo hi gap gone : Int) : Prop where
  swept : Swept (d.Pending block) d.iCurrBlock lo hi gap
  visited : ∀ a ∈ d.visited block head, lo ≤ a ∧ a ≤ hi
  reached : lo ∈ head :: l.map block ∧ hi ∈ head :: l.map block
  total : d.totalBlockAccess = norm (start + gone)
  gone_nonneg : 0 ≤ gone
  gone_le : gone ≤ hi - lo + gap
  pending : d.list ⊆ l
  inRange : S d.iCurrBlock

theorem sstfSched_mem_nearest {l : List α} {r : α} (hia : ia.ExactOn norm S) (hhead : S head)
    (hl : ∀ y ∈ l, S (block y)) (h : sstfSched ia block head l = some r) :
    r ∈ l ∧ ∀ y ∈ l, (block r - head).natAbs ≤ (block y - head).natAbs := by
  obtain ⟨pre, post, rfl, hpre, hpost⟩ := sstfSched_nearest h
  have hr : r ∈ pre ++ r :: post := List.mem_append_right _ (List.mem_cons_self ..)
  refine ⟨hr, fun y hy => ?_⟩
  have hle : seekDist ia block head r ≤ seekDist ia block head y := by
    rcases List.mem_append.mp hy with hy | hy
    · exact (hpre y hy).le
    · rcases List.mem_cons.mp hy with rfl | hy
      · exact Int.le_refl _
      · exact hpost y hy
  simp only [seekDist, hia.dist _ _ (hl r hr) hhead, hia.dist _ _ (hl y hy) hhead] at hle
  exact Int.ofNat_le.mp hle

theorem touring_start {start : Int} {l : List α} (hhead : S head) :
    Touring norm S block head start l ⟨head, l, norm start, []⟩ head head 0 0 where
  swept := Swept.start _ _
  visited a ha := by
    have he : a = head := by simpa [Drain.visited] using ha
    omega
  reached := ⟨List.mem_cons_self .., List.mem_cons_self ..⟩
  total := by rw [Int.add_zero]
  gone_nonneg := Int.le_refl 0
  gone_le := by omega
  pending := List.Subset.refl _
  inRange := hhead

theorem foldr_bounds (l : List Int) (a : Int) :
    ∀ b ∈ a :: l, l.foldr min a ≤ b ∧ b ≤ l.foldr max a := by
  induction l with
  | nil => simp
  | cons c l ih =>
    obtain ⟨ha, hl⟩ := List.forall_mem_cons.mp ih
    simp only [List.foldr_cons]
    refine List.forall_mem_cons.mpr ⟨by omega, List.forall_mem_cons.mpr ⟨by omega, ?_⟩⟩
    intro b hb
    have hb' := hl b hb
    omega

theorem Touring.shortTour {start lo hi gap gone : Int} {l : List α} {d : Drain α}
    (hd : Touring norm S block head start l d lo hi gap gone) :
    ShortTour norm block head start l d := by
  have hgap := hd.swept.gap_le
  have hle := hd.gone_le
  have hlo := foldr_bounds _ _ lo hd.reached.1
  have hhi := foldr_bounds _ _ hi hd.reached.2
  refine ⟨⟨gone, hd.gone_nonneg, by omega, hd.total⟩, ?_⟩
  rintro y hy a ha b hb ⟨hay, hyb⟩
  have hout := hd.swept.outside ⟨y, hy, rfl⟩
  have ha' := hd.visited a ha
  have hb' := hd.visited b hb
  omega

section Drain

variable [DecidableEq α]

theorem Touring.serve {start lo hi gap gone : Int} {l : List α} {d : Drain α} {r : α}
    (hd : Touring norm S block head start l d lo hi gap gone) (hia : ia.ExactOn norm S)
    (hl : ∀ y ∈ l, S (block y)) (h : sstfSched ia block d.iCurrBlock d.list = some r) :
    ∃ lo' hi' gap' gone',
      Touring norm S block head start l (d.serve ia block r) lo' hi' gap' gone' := by
  obtain ⟨hr, hnear⟩ := sstfSched_mem_nearest hia hd.inRange (fun y hy => hl y (hd.pending hy)) h
  have hrl := hd.pending hr
  have hdist := hia.dist _ _ (hl r hrl) hd.inRange
  have hnear' : ∀ b, d.Pending block b →
      (block r - d.iCurrBlock).natAbs ≤ (b - d.iCurrBlock).natAbs := by
    rintro b ⟨y, hy, rfl⟩
    exact hnear y hy
  have hrest : ∀ b, (d.serve ia block r).Pending block b → d.Pending block b := by
    rintro b ⟨y, hy, rfl⟩
    exact ⟨y, List.mem_of_mem_erase hy, rfl⟩
  obtain ⟨gap', hswept, hgone⟩ := hd.swept.next ⟨r, hr, rfl⟩ hnear' hrest
  have hnonneg := hd.gone_nonneg
  have hle := hd.gone_le
  obtain ⟨hlo, hhi⟩ := hd.reached
  have hrmem : block r ∈ head :: l.map block :=
    List.mem_cons_of_mem _ (List.mem_map_of_mem hrl)
  refine ⟨min lo (block r), max hi (block r), gap', gone + (block r - d.iCurrBlock).natAbs,
    hswept, fun a ha => ?_, ⟨?_, ?_⟩, ?_, by omega, by omega, ?_, hl r hrl⟩
  · have hold : a ∈ d.visited block head ∨ a = block r := by
      simpa [Drain.visited, Drain.serve, or_assoc] using ha
    rcases hold with hold | rfl
    · have hin := hd.visited a hold
      omega
    · omega
  · rcases min_choice lo (block r) with he | he <;> rw [he] <;> assumption
  · rcases max_choice hi (block r) with he | he <;> rw [he] <;> assumption
  · show ia.add d.totalBlockAccess (ia.abs (ia.sub (block r) d.iCurrBlock)) = _
    rw [hdist, hd.total, hia.add, Int.add_assoc]
  · exact fun y hy => hd.pending (List.mem_of_mem_erase hy)

theorem Touring.drain {k : Nat} {start lo hi gap gone : Int} {l : List α} {d : Drain α}
    (hd : Touring norm S block head start l d lo hi gap gone) (hia : ia.ExactOn norm S)
    (hl : ∀ y ∈ l, S (block y)) :
    ∃ lo' hi' gap' gone',
      Touring norm S block head start l (PingPong.drain ia block .sstf k d) lo' hi' gap' gone' := by
  induction k generalizing d lo hi gap gone with
  | zero => exact ⟨lo, hi, gap, gone, hd⟩
  | succ k ih =>
    cases hsched : schedChoice ia block d.iCurrBlock .sstf d.list with
    | none =>
      simp only [PingPong.drain, hsched]
      exact ⟨lo, hi, gap, gone, hd⟩
    | some r =>
      rw [drain_succ hsched]
      obtain ⟨lo', hi', gap', gone', hd'⟩ := hd.serve hia hl hsched
      exact ih hd'

theorem drain_length (alg : DiskAlgorithm) {k : Nat} {d : Drain α} (hk : d.list.length ≤ k) :
    (PingPong.drain ia block alg k d).list = [] := by
  induction k generalizing d with
  | zero => exact List.length_eq_zero_iff.mp (Nat.le_zero.mp hk)
  | succ k ih =>
    by_cases hlist : d.list = []
    · rw [drain_nil hlist]
      exact hlist
    · obtain ⟨r, hr⟩ : ∃ r, schedChoice ia block d.iCurrBlock alg d.list = some r :=
        schedChoice_isSome _ _ _ hlist
      rw [drain_succ hr]
      refine ih ?_
      have hmem := (schedChoice_earliest hr).mem
      have hlen := List.length_erase_of_mem hmem
      show (d.list.erase r).length ≤ k
      have hpos := List.length_pos_of_mem hmem
      omega

end Drain

example : (drain .wrap32 id .sstf 5 ⟨5, [9, 2, 5, 7, 0], 0, []⟩).served = [5, 7, 9, 2, 0] := by
  decide

end Shortest

end PingPong
