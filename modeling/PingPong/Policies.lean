import PingPong.CInt
import Mathlib.Data.List.Basic

/-! The three choices of the next request. Each of them keeps the arrival order
of the requests for one block, because its loop replaces the candidate only on
a strict comparison. `none` is the dereference of a `NULL` first node, and
`schedChoice` is the `switch` of `diskScheduler`. -/

namespace PingPong

inductive DiskAlgorithm
  | fcfs
  | sstf
  | cscan
  deriving DecidableEq, Repr

section Choice

variable {α : Type*} (ia : IntArith) (block : α → Int) (head : Int)

def seekDist (x : α) : Int := ia.abs (ia.sub (block x) head)

def iBlockDist (x : α) : Int := ia.sub (block x) head

def fcfsSched (l : List α) : Option α := l.head?

def sstfLoop : Int → α → List α → α
  | _, pstNearestReq, [] => pstNearestReq
  | shortest, pstNearestReq, pstIter :: l =>
    if seekDist ia block head pstIter < shortest then
      sstfLoop (seekDist ia block head pstIter) pstIter l
    else sstfLoop shortest pstNearestReq l

def sstfSched : List α → Option α
  | [] => none
  | x :: l => some (sstfLoop ia block head (seekDist ia block head x) x (x :: l))

def cscanLoop : Int → Int → α → α → Bool → List α → α
  | _, _, pstShortestReq, pstShortestReq2, cIsInFront, [] =>
    if cIsInFront then pstShortestReq else pstShortestReq2
  | iShortestFront, iShortest, pstShortestReq, pstShortestReq2, cIsInFront, pstIter :: l =>
    if 0 ≤ iBlockDist ia block head pstIter then
      if iBlockDist ia block head pstIter < iShortestFront then
        cscanLoop (iBlockDist ia block head pstIter) iShortest pstIter pstShortestReq2 true l
      else cscanLoop iShortestFront iShortest pstShortestReq pstShortestReq2 true l
    else if block pstIter < iShortest then
      cscanLoop iShortestFront (block pstIter) pstShortestReq pstIter cIsInFront l
    else cscanLoop iShortestFront iShortest pstShortestReq pstShortestReq2 cIsInFront l

def cscanSched : List α → Option α
  | [] => none
  | x :: l =>
    some (cscanLoop ia block head (iBlockDist ia block head x) (block x) x x false (x :: l))

def schedChoice : DiskAlgorithm → List α → Option α
  | .fcfs => fcfsSched
  | .sstf => sstfSched ia block head
  | .cscan => cscanSched ia block head

theorem sstfLoop_spec (l : List α) (shortest : Int) (near : α) :
    (sstfLoop ia block head shortest near l = near ∧
        ∀ y ∈ l, shortest ≤ seekDist ia block head y) ∨
      ∃ pre post r, l = pre ++ r :: post ∧ sstfLoop ia block head shortest near l = r ∧
        seekDist ia block head r < shortest ∧
        (∀ y ∈ pre, seekDist ia block head r < seekDist ia block head y) ∧
        ∀ y ∈ post, seekDist ia block head r ≤ seekDist ia block head y := by
  induction l generalizing shortest near with
  | nil => simp [sstfLoop]
  | cons x l ih =>
    by_cases hx : seekDist ia block head x < shortest
    · have hloop : sstfLoop ia block head shortest near (x :: l) =
          sstfLoop ia block head (seekDist ia block head x) x l := by
        simp only [sstfLoop]
        exact if_pos hx
      refine .inr ?_
      rcases ih (seekDist ia block head x) x with
        ⟨hr, hall⟩ | ⟨pre, post, r, hl, hr, hlt, hpre, hpost⟩
      · exact ⟨[], l, x, rfl, hloop.trans hr, hx, by simp, hall⟩
      · refine ⟨x :: pre, post, r, by simp [hl], hloop.trans hr, hlt.trans hx, ?_, hpost⟩
        exact List.forall_mem_cons.mpr ⟨hlt, hpre⟩
    · have hloop : sstfLoop ia block head shortest near (x :: l) =
          sstfLoop ia block head shortest near l := by
        simp only [sstfLoop]
        exact if_neg hx
      have hle : shortest ≤ seekDist ia block head x := Int.not_lt.mp hx
      rcases ih shortest near with ⟨hr, hall⟩ | ⟨pre, post, r, hl, hr, hlt, hpre, hpost⟩
      · exact .inl ⟨hloop.trans hr, List.forall_mem_cons.mpr ⟨hle, hall⟩⟩
      · refine .inr ⟨x :: pre, post, r, by simp [hl], hloop.trans hr, hlt, ?_, hpost⟩
        exact List.forall_mem_cons.mpr ⟨Int.lt_of_lt_of_le hlt hle, hpre⟩

theorem sstfSched_nearest {ia : IntArith} {block : α → Int} {head : Int} {l : List α} {r : α}
    (h : sstfSched ia block head l = some r) :
    ∃ pre post, l = pre ++ r :: post ∧
      (∀ y ∈ pre, seekDist ia block head r < seekDist ia block head y) ∧
      ∀ y ∈ post, seekDist ia block head r ≤ seekDist ia block head y := by
  cases l with
  | nil => simp [sstfSched] at h
  | cons x l =>
    have hloop : sstfLoop ia block head (seekDist ia block head x) x (x :: l) =
        sstfLoop ia block head (seekDist ia block head x) x l := by
      simp only [sstfLoop]
      exact if_neg (Int.lt_irrefl _)
    have hr : sstfLoop ia block head (seekDist ia block head x) x l = r :=
      hloop.symm.trans (Option.some.inj h)
    rcases sstfLoop_spec ia block head l (seekDist ia block head x) x with
      ⟨he, hall⟩ | ⟨pre, post, r', hl, he, hlt, hpre, hpost⟩
    · obtain rfl : x = r := he.symm.trans hr
      exact ⟨[], l, rfl, by simp, hall⟩
    · obtain rfl : r' = r := he.symm.trans hr
      exact ⟨x :: pre, post, by simp [hl], List.forall_mem_cons.mpr ⟨hlt, hpre⟩, hpost⟩

/-- `z` lies, on its own side of the head, below the scan's bound and below
every request of `pre` on that side. -/
def BeatsScan (front low : Int) (pre : List α) (z : α) : Prop :=
  (0 ≤ iBlockDist ia block head z ∧ iBlockDist ia block head z < front ∧
      ∀ y ∈ pre, 0 ≤ iBlockDist ia block head y →
        iBlockDist ia block head z < iBlockDist ia block head y) ∨
    (iBlockDist ia block head z < 0 ∧ block z < low ∧
      ∀ y ∈ pre, iBlockDist ia block head y < 0 → block z < block y)

theorem BeatsScan.cons {ia : IntArith} {block : α → Int} {head front front' low low' : Int}
    {pre : List α} {x z : α}
    (h : BeatsScan ia block head front' low' pre z) (hfront : front' ≤ front) (hlow : low' ≤ low)
    (hahead : 0 ≤ iBlockDist ia block head x → front' ≤ iBlockDist ia block head x)
    (hbehind : iBlockDist ia block head x < 0 → low' ≤ block x) :
    BeatsScan ia block head front low (x :: pre) z := by
  rcases h with ⟨h0, hlt, hpre⟩ | ⟨h0, hlt, hpre⟩
  · exact .inl ⟨h0, by omega, List.forall_mem_cons.mpr
      ⟨fun hx => Int.lt_of_lt_of_le hlt (hahead hx), hpre⟩⟩
  · exact .inr ⟨h0, by omega, List.forall_mem_cons.mpr
      ⟨fun hx => Int.lt_of_lt_of_le hlt (hbehind hx), hpre⟩⟩

theorem cscanLoop_spec (l : List α) (front low : Int) (a b : α) (inFront : Bool) :
    let res := cscanLoop ia block head front low a b inFront l
    (res = a ∨ res = b) ∨
      ∃ pre post, l = pre ++ res :: post ∧ BeatsScan ia block head front low pre res := by
  induction l generalizing front low a b inFront with
  | nil =>
    refine .inl ?_
    simp only [cscanLoop]
    cases inFront <;> simp
  | cons x l ih =>
    intro res
    have later {front' low' : Int} {a' b' : α} {inFront' : Bool}
        (hres : res = cscanLoop ia block head front' low' a' b' inFront' l)
        (hfront : front' ≤ front) (hlow : low' ≤ low)
        (hahead : 0 ≤ iBlockDist ia block head x → front' ≤ iBlockDist ia block head x)
        (hbehind : iBlockDist ia block head x < 0 → low' ≤ block x) :
        (res = a' ∨ res = b') ∨
          ∃ pre post, x :: l = pre ++ res :: post ∧ BeatsScan ia block head front low pre res := by
      rw [hres]
      rcases ih front' low' a' b' inFront' with hz | ⟨pre, post, hl, hbeats⟩
      · exact .inl hz
      · exact .inr ⟨x :: pre, post, congrArg (x :: ·) hl,
          hbeats.cons hfront hlow hahead hbehind⟩
    have here (hz : res = x) (hbeats : BeatsScan ia block head front low [] x) :
        ∃ pre post, x :: l = pre ++ res :: post ∧ BeatsScan ia block head front low pre res :=
      ⟨[], l, by rw [hz]; rfl, by rw [hz]; exact hbeats⟩
    by_cases h0 : 0 ≤ iBlockDist ia block head x
    · by_cases hlt : iBlockDist ia block head x < front
      · have hres : res = cscanLoop ia block head (iBlockDist ia block head x) low x b true l := by
          simp only [res, cscanLoop, if_pos h0, if_pos hlt]
        rcases later hres (by omega) (by omega) (fun _ => by omega) (fun hx => by omega) with
          (hz | hz) | hl
        · exact .inr (here hz (.inl ⟨h0, hlt, by simp⟩))
        · exact .inl (.inr hz)
        · exact .inr hl
      · have hres : res = cscanLoop ia block head front low a b true l := by
          simp only [res, cscanLoop, if_pos h0, if_neg hlt]
        exact later hres (by omega) (by omega) (fun _ => by omega) (fun hx => by omega)
    · by_cases hlt : block x < low
      · have hres : res = cscanLoop ia block head front (block x) a x inFront l := by
          simp only [res, cscanLoop, if_neg h0, if_pos hlt]
        rcases later hres (by omega) (by omega) (fun hx => by omega) (fun _ => by omega) with
          (hz | hz) | hl
        · exact .inl (.inl hz)
        · exact .inr (here hz (.inr ⟨by omega, hlt, by simp⟩))
        · exact .inr hl
      · have hres : res = cscanLoop ia block head front low a b inFront l := by
          simp only [res, cscanLoop, if_neg h0, if_neg hlt]
        exact later hres (by omega) (by omega) (fun hx => by omega) (fun _ => by omega)

/-- `r` is in `l`, and no request for its block stands before it. -/
def EarliestOfBlock (block : α → Int) (l : List α) (r : α) : Prop :=
  ∃ pre post, l = pre ++ r :: post ∧ ∀ y ∈ pre, block y ≠ block r

theorem EarliestOfBlock.mem {block : α → Int} {l : List α} {r : α}
    (h : EarliestOfBlock block l r) : r ∈ l := by
  obtain ⟨pre, post, rfl, _⟩ := h
  simp

theorem cscanSched_earliest {ia : IntArith} {block : α → Int} {head : Int} {l : List α} {r : α}
    (h : cscanSched ia block head l = some r) :
    EarliestOfBlock block l r := by
  cases l with
  | nil => simp [cscanSched] at h
  | cons x l =>
    have hr := Option.some.inj h
    rcases cscanLoop_spec ia block head (x :: l)
      (iBlockDist ia block head x) (block x) x x false with (hz | hz) | ⟨pre, post, hl, hside⟩
    · exact ⟨[], l, by rw [← hr, hz]; rfl, by simp⟩
    · exact ⟨[], l, by rw [← hr, hz]; rfl, by simp⟩
    · rw [hr] at hl hside
      refine ⟨pre, post, hl, fun y hy he => ?_⟩
      have hdist : iBlockDist ia block head y = iBlockDist ia block head r := by
        simp only [iBlockDist, he]
      rcases hside with ⟨h0, _, hpre⟩ | ⟨h0, _, hpre⟩
      · have hlt := hpre y hy (by omega)
        omega
      · have hlt := hpre y hy (by omega)
        omega

/-- Whatever the policy, the arithmetic and the head, requests for one block
are chosen in the order in which they were appended. -/
theorem schedChoice_earliest {ia : IntArith} {block : α → Int} {head : Int} {alg : DiskAlgorithm}
    {l : List α} {r : α} (h : schedChoice ia block head alg l = some r) :
    EarliestOfBlock block l r := by
  cases alg with
  | fcfs =>
    cases l with
    | nil => simp [schedChoice, fcfsSched] at h
    | cons x l =>
      obtain rfl : x = r := Option.some.inj h
      exact ⟨[], l, rfl, by simp⟩
  | sstf =>
    obtain ⟨pre, post, hl, hpre, _⟩ := sstfSched_nearest h
    refine ⟨pre, post, hl, fun y hy he => ?_⟩
    have hdist : seekDist ia block head y = seekDist ia block head r := by
      simp only [seekDist, he]
    have hlt := hpre y hy
    omega
  | cscan => exact cscanSched_earliest h

theorem schedChoice_isSome {alg : DiskAlgorithm} {l : List α} (h : l ≠ []) :
    ∃ r, schedChoice ia block head alg l = some r := by
  obtain ⟨x, l, rfl⟩ := List.exists_cons_of_ne_nil h
  cases alg <;> exact ⟨_, rfl⟩

end Choice

end PingPong
