import Mathlib.Data.Int.Basic
import Mathlib.Algebra.Order.Group.Int

/-! The arithmetic of the code's `int` expressions. The functions that compute
with block numbers take it as a parameter, so that they can be read over the
exact integers as well as over 32-bit words; `wrapInt` is what an unoptimised
32-bit operation leaves in an `int`. -/

namespace PingPong

structure IntArith where
  add : Int → Int → Int
  sub : Int → Int → Int
  mul : Int → Int → Int
  abs : Int → Int

def intMin : Int := -2147483648

def intMax : Int := 2147483647

def wrapInt (a : Int) : Int := a.bmod 4294967296

def wrapUnsigned (a : Int) : Int := a % 4294967296

def IntArith.exact : IntArith where
  add a b := a + b
  sub a b := a - b
  mul a b := a * b
  abs a := a.natAbs

def IntArith.wrap32 : IntArith where
  add a b := wrapInt (a + b)
  sub a b := wrapInt (a - b)
  mul a b := wrapInt (a * b)
  abs a := wrapInt a.natAbs

theorem wrapInt_of_inInt {a : Int} (hlo : intMin ≤ a) (hhi : a ≤ intMax) : wrapInt a = a := by
  unfold intMin at hlo
  unfold intMax at hhi
  exact Int.bmod_eq_of_le (by omega) (by omega)

theorem wrapInt_of_fits {a : Int} (hlo : -intMax ≤ a) (hhi : a ≤ intMax) : wrapInt a = a := by
  have hmin : intMin ≤ -intMax := by decide
  exact wrapInt_of_inInt (hmin.trans hlo) hhi

theorem wrapInt_wrapUnsigned (a : Int) : wrapInt (wrapUnsigned a) = wrapInt a :=
  Int.emod_bmod a 4294967296

theorem wrapUnsigned_succ (a : Int) : wrapUnsigned (wrapUnsigned a + 1) = wrapUnsigned (a + 1) := by
  unfold wrapUnsigned
  omega

/-- The difference of two times does not depend on how they were wrapped. -/
theorem wrapInt_elapsed (e t d : Int) :
    wrapInt (e + (wrapUnsigned t - wrapInt d)) = wrapInt (e + (t - d)) := by
  unfold wrapInt wrapUnsigned
  calc (e + (t % 4294967296 - d.bmod 4294967296)).bmod 4294967296
      = (e + t % 4294967296 - d.bmod 4294967296).bmod 4294967296 := by rw [Int.add_sub_assoc]
    _ = (e + t % 4294967296 - d).bmod 4294967296 := Int.sub_bmod_bmod
    _ = (e - d + t % 4294967296).bmod 4294967296 := by rw [sub_add_eq_add_sub]
    _ = (e - d + t).bmod 4294967296 := Int.add_emod_bmod t 4294967296
    _ = (e + (t - d)).bmod 4294967296 := by rw [sub_add_eq_add_sub, Int.add_sub_assoc]

theorem wrapInt_elapsed_inj {e t a d : Int}
    (h : wrapInt (e + (wrapUnsigned t - a)) = wrapInt (e + (t - d))) : wrapInt a = wrapInt d := by
  unfold wrapInt wrapUnsigned at *
  have hdiff : (t - a).bmod 4294967296 = (t - d).bmod 4294967296 :=
    (Int.emod_sub_bmod t 4294967296).symm.trans ((Int.bmod_add_cancel_left e).mp h)
  exact (Int.bmod_sub_cancel_left t).mp hdiff

end PingPong
