import PingPong.Selection
import PingPong.Steps

/-! Serving a fixed list of pending requests: the policy chooses one, the head moves
to its block, and the request is removed, until the list is empty. -/

namespace PingPong

open Runs

/-- Subtraction and distance do not overflow on the numbers of `S`, and a sum is
exact up to `norm`. -/
structure IntArith.ExactOn (ia : IntArith) (norm : Int → Int) (S : Int → Prop) : Prop where
  sub : ∀ a b, S a → S b → ia.sub a b = a - b
  dist : ∀ a b, S a → S b → ia.abs (ia.sub a b) = (a - b).natAbs
  add : ∀ a b, ia.add (norm a) b = norm (a + b)

theorem exact_exactOn (S : Int → Prop) : IntArith.exact.ExactOn id S :=
  ⟨fun _ _ _ _ => rfl, fun _ _ _ _ => rfl, fun _ _ => rfl⟩

/-- In-range blocks are such numbers for the code's own arithmetic, and its sums are
exact modulo 2^32. -/
theorem wrap32_exactOn : IntArith.wrap32.ExactOn wrapInt fun a => 0 ≤ a ∧ a ≤ intMax := by
  have hsub (a b : Int) (ha : 0 ≤ a ∧ a ≤ intMax) (hb : 0 ≤ b ∧ b ≤ intMax) :
      wrapInt (a - b) = a - b := wrapInt_of_fits (by omega) (by omega)
  refine ⟨hsub, fun a b ha hb => ?_, fun a b => Int.bmod_add_bmod⟩
  simp only [IntArith.wrap32, hsub a b ha hb]
  exact wrapInt_of_fits (by omega) (by omega)

/-- `served` lists the requests in the order of their dispatches. -/
structure Drain (α : Type*) where
  iCurrBlock : Int
  list : List α
  totalBlockAccess : Int
  served : List α
  deriving DecidableEq, Repr

section Drain

variable {α : Type*} [DecidableEq α] (ia : IntArith) (block : α → Int) (alg : DiskAlgorithm)

def Drain.serve (d : Drain α) (x : α) : Drain α where
  iCurrBlock := block x
  list := d.list.erase x
  totalBlockAccess := ia.add d.totalBlockAccess (ia.abs (ia.sub (block x) d.iCurrBlock))
  served := d.served ++ [x]

def drain : Nat → Drain α → Drain α
  | 0, d => d
  | k + 1, d => match schedChoice ia block d.iCurrBlock alg d.list with
    | none => d
    | some x => drain k (d.serve ia block x)

variable {ia block alg}

theorem drain_succ {k : Nat} {d : Drain α} {x : α}
    (h : schedChoice ia block d.iCurrBlock alg d.list = some x) :
    drain ia block alg (k + 1) d = drain ia block alg k (d.serve ia block x) := by
  simp only [drain, h]

theorem drain_nil {k : Nat} {d : Drain α} (h : d.list = []) : drain ia block alg k d = d := by
  cases k with
  | zero => rfl
  | succ k =>
    have hnone : schedChoice ia block d.iCurrBlock alg d.list = none := by
      rw [h]
      cases alg <;> rfl
    simp only [drain, hnone]

end Drain

/-- An uninterrupted dispatch of the disk task serves one request in this sense. -/
theorem dispatch_serves {n : Nat} {φ μ : Type} {cfg : Config φ μ} {s : State n φ μ} {p : Ptr}
    (served : List Ptr) (hpc : s.disk = .choose) (hidle : s.dev.status = .idle)
    (hsched : schedChoice cfg.ia (fun q => (s.heap q).block) s.mgr.iCurrBlock cfg.alg s.list =
      some p) :
    Reaches (step cfg) s fun t => t.heap = s.heap ∧
      (⟨t.mgr.iCurrBlock, t.list, t.mgr.totalBlockAccess, served ++ [p]⟩ : Drain Ptr) =
        Drain.serve cfg.ia (fun q => (s.heap q).block)
          ⟨s.mgr.iCurrBlock, s.list, s.mgr.totalBlockAccess, served⟩ p := by
  refine .head (Step.choose hpc hsched).enabled ?_
  refine .head (Step.enabled (.remove rfl)) ?_
  refine .head (Step.enabled (.isIdle rfl hidle)) ?_
  refine .head (Step.enabled (.setStart rfl)) ?_
  refine .head (Step.enabled (.account rfl)) ?_
  refine .head (Step.enabled (.setCurrBlock rfl)) ?_
  exact .here ⟨rfl, rfl⟩

end PingPong
