import PingPong.OwnBuffers
import Mathlib.Tactic.Ring

/-! `pingpong-disco2.c`: each of `n` tasks exchanges its share of the first blocks of the
disk with the blocks that mirror them. If no call returns before its own transfer, the
disk is mirrored when all tasks have ended, in whatever order they have run. -/

namespace PingPong

open Runs

structure MoverVars where
  buffer1 : Ptr
  buffer2 : Ptr
  i : Nat
  blockOrig : Int
  blockDest : Int

/-- Where `moverBody` stands, with its `j`. -/
inductive Mover
  | start
  | malloc2 (buffer1 : Ptr)
  | moveLoop (v : MoverVars)
  | readDest (v : MoverVars)
  | showOrig (v : MoverVars) (j : Nat)
  | showDest (v : MoverVars) (j : Nat)
  | writeOrig (v : MoverVars)
  | free1 (v : MoverVars)
  | free2 (v : MoverVars)
  | taskExit

def Mover.owns : Mover → List Ptr
  | .malloc2 p => [p]
  | .moveLoop v | .readDest v | .showOrig v _ | .showDest v _ | .writeOrig v | .free1 v =>
    [v.buffer2, v.buffer1]
  | .free2 v => [v.buffer2]
  | .start | .taskExit => []

variable (n : Nat) (numblocks : Int)

def blocksPerTask : Int := (numblocks.tdiv n).tdiv 2

def moverBody (myNumber : Fin n) : Mover → TaskStep Mover
  | .start => .malloc .malloc2
  | .malloc2 p => .malloc fun q => .moveLoop
      { buffer1 := p
        buffer2 := q
        i := 0
        blockOrig := myNumber * blocksPerTask n numblocks
        blockDest := numblocks - 1 - myNumber * blocksPerTask n numblocks }
  | .moveLoop v =>
    if (v.i : Int) < blocksPerTask n numblocks then
      .call .read v.blockOrig v.buffer1 (.readDest v)
    else .silent (.free1 v)
  | .readDest v => .call .read v.blockDest v.buffer2 (.showOrig v 0)
  | .showOrig v j =>
    if (j : Int) < diskBlockSize then .print (v.buffer1 + j) (.showOrig v (j + 1))
    else .silent (.showDest v 0)
  | .showDest v j =>
    if (j : Int) < diskBlockSize then .print (v.buffer2 + j) (.showDest v (j + 1))
    else .call .write v.blockDest v.buffer1 (.writeOrig v)
  | .writeOrig v => .call .write v.blockOrig v.buffer2
      (.moveLoop { v with
        i := v.i + 1
        blockOrig := v.blockOrig + 1
        blockDest := v.blockDest - 1 })
  | .free1 v => .silent (.free2 v)
  | .free2 _ => .silent .taskExit
  | .taskExit => .finished

theorem moverBody_usesOwn : UsesOwn Mover.owns (moverBody n numblocks) := by
  intro c x
  cases x with
  | start => exact fun addr => rfl
  | malloc2 p => exact fun addr => rfl
  | moveLoop v =>
    simp only [moverBody]
    split_ifs with hi
    · exact ⟨by simp [Mover.owns], rfl⟩
    · exact List.Sublist.refl _
  | showOrig v j =>
    simp only [moverBody]
    split_ifs with hj
    · exact ⟨⟨v.buffer1, by simp [Mover.owns], Nat.le_add_right _ _,
        Nat.add_lt_add_left (Int.ofNat_lt.mp hj) _⟩, rfl⟩
    · exact List.Sublist.refl _
  | showDest v j =>
    simp only [moverBody]
    split_ifs with hj
    · exact ⟨⟨v.buffer2, by simp [Mover.owns], Nat.le_add_right _ _,
        Nat.add_lt_add_left (Int.ofNat_lt.mp hj) _⟩, rfl⟩
    · exact ⟨by simp [Mover.owns], rfl⟩
  | readDest v | writeOrig v => exact ⟨by simp [Mover.owns], rfl⟩
  | free1 v => exact List.sublist_append_left [v.buffer2] [v.buffer1]
  | free2 v => exact List.nil_sublist _
  | taskExit => trivial

/-- The blocks that a task exchanges in the round `j`. -/
def origBlock (c : Fin n) (j : Nat) : Int := c * blocksPerTask n numblocks + j

def destBlock (c : Fin n) (j : Nat) : Int := numblocks - 1 - origBlock n numblocks c j

section Share

variable {n numblocks} {c d : Fin n} {i j : Nat}

theorem tdiv_nonpos {a b : Int} (ha : a ≤ 0) (hb : 0 ≤ b) : a.tdiv b ≤ 0 := by
  have hneg := Int.tdiv_nonneg (Int.neg_nonneg_of_nonpos ha) hb
  rw [Int.neg_tdiv] at hneg
  omega

theorem blocksPerTask_le (h : 0 < blocksPerTask n numblocks) :
    2 * (n * blocksPerTask n numblocks) ≤ numblocks := by
  have hn : (0 : Int) ≤ n := Int.natCast_nonneg n
  have hnonneg : 0 ≤ numblocks := by
    by_contra hneg
    have hshare : numblocks.tdiv n ≤ 0 := tdiv_nonpos (by omega) hn
    have hhalf : (numblocks.tdiv n).tdiv 2 ≤ 0 := tdiv_nonpos hshare (by omega)
    exact absurd h (not_lt.mpr hhalf)
  have hshare : 0 ≤ numblocks / n := Int.ediv_nonneg hnonneg hn
  have hblocks : blocksPerTask n numblocks = numblocks / n / 2 := by
    rw [blocksPerTask, Int.tdiv_eq_ediv_of_nonneg hnonneg, Int.tdiv_eq_ediv_of_nonneg hshare]
  have hne : (n : Int) ≠ 0 := by
    intro hzero
    rw [hblocks, hzero, Int.ediv_zero] at h
    exact absurd h (by decide)
  calc 2 * (n * blocksPerTask n numblocks)
      = n * (numblocks / n / 2 * 2) := by rw [hblocks]; ring
    _ ≤ n * (numblocks / n) :=
      Int.mul_le_mul_of_nonneg_left (Int.ediv_mul_le _ (by decide)) hn
    _ ≤ numblocks := Int.mul_ediv_self_le hne

theorem origBlock_lt (hi : (i : Int) < blocksPerTask n numblocks) :
    0 ≤ origBlock n numblocks c i ∧
      origBlock n numblocks c i < n * blocksPerTask n numblocks := by
  have hpos : 0 < blocksPerTask n numblocks := by omega
  have hc : ((c.val : Int) + 1) * blocksPerTask n numblocks ≤ n * blocksPerTask n numblocks :=
    Int.mul_le_mul_of_nonneg_right (by exact_mod_cast c.isLt) hpos.le
  have hlow : 0 ≤ (c.val : Int) * blocksPerTask n numblocks :=
    Int.mul_nonneg (Int.natCast_nonneg _) hpos.le
  rw [Int.add_mul, Int.one_mul] at hc
  unfold origBlock
  omega

theorem origBlock_range (hi : (i : Int) < blocksPerTask n numblocks) :
    0 ≤ origBlock n numblocks c i ∧ 2 * (origBlock n numblocks c i + 1) ≤ numblocks := by
  have htotal : 2 * (n * blocksPerTask n numblocks) ≤ numblocks := blocksPerTask_le (by omega)
  obtain ⟨hlow, hhigh⟩ := origBlock_lt (c := c) hi
  omega

theorem origBlock_inj (hi : (i : Int) < blocksPerTask n numblocks)
    (hj : (j : Int) < blocksPerTask n numblocks)
    (h : origBlock n numblocks c i = origBlock n numblocks d j) : c = d ∧ i = j := by
  have hne : blocksPerTask n numblocks ≠ 0 := by omega
  have hdiv (e : Fin n) (l : Nat) (hl : (l : Int) < blocksPerTask n numblocks) :
      origBlock n numblocks e l / blocksPerTask n numblocks = e.val := by
    rw [origBlock, Int.add_comm, Int.add_mul_ediv_right _ _ hne,
      Int.ediv_eq_zero_of_lt (Int.natCast_nonneg l) hl, Int.zero_add]
  have hcd : (c.val : Int) = d.val := by rw [← hdiv c i hi, h, hdiv d j hj]
  have hfin : c = d := Fin.ext (Int.ofNat.inj hcd)
  subst hfin
  unfold origBlock at h
  exact ⟨rfl, by omega⟩

theorem origBlock_ne_destBlock (hi : (i : Int) < blocksPerTask n numblocks)
    (hj : (j : Int) < blocksPerTask n numblocks) :
    origBlock n numblocks c i ≠ destBlock n numblocks d j := by
  have hrange := (origBlock_range (c := c) hi).2
  have hrange' := (origBlock_range (c := d) hj).2
  unfold destBlock
  omega

theorem destBlock_inj (hi : (i : Int) < blocksPerTask n numblocks)
    (hj : (j : Int) < blocksPerTask n numblocks)
    (h : destBlock n numblocks c i = destBlock n numblocks d j) : c = d ∧ i = j := by
  unfold destBlock at h
  exact origBlock_inj hi hj (by omega)

end Share

/-- Of the share of `c` the first `dest` blocks at the end of the disk and the first `orig`
ones at its beginning have been overwritten. -/
def Exchanged (file : Int → UInt8) (c : Fin n) (dest orig : Nat) (now : Int → UInt8) : Prop :=
  ∀ j : Nat, (j : Int) < blocksPerTask n numblocks →
    blockAt now (destBlock n numblocks c j) = blockAt file
      (if j < dest then origBlock n numblocks c j else destBlock n numblocks c j) ∧
    blockAt now (origBlock n numblocks c j) = blockAt file
      (if j < orig then destBlock n numblocks c j else origBlock n numblocks c j)

structure MoverVars.Ready (c : Fin n) (v : MoverVars) : Prop where
  orig : v.blockOrig = origBlock n numblocks c v.i
  dest : v.blockDest = destBlock n numblocks c v.i
  null1 : v.buffer1 ≠ 0
  null2 : v.buffer2 ≠ 0

def shownPair (file : Int → UInt8) (c : Fin n) (j : Nat) : List UInt8 :=
  List.ofFn (blockAt file (origBlock n numblocks c j)) ++
    List.ofFn (blockAt file (destBlock n numblocks c j))

def shownPairs (file : Int → UInt8) (c : Fin n) (i : Nat) : List UInt8 :=
  (List.range i).flatMap (shownPair n numblocks file c)

/-- What holds of the store and the task's output at each point of `moverBody`. -/
def Mover.Holds (file : Int → UInt8) (c : Fin n) (st : ByteStore) (out : List UInt8) :
    Mover → Prop
  | .start => Exchanged n numblocks file c 0 0 st.file ∧ out = []
  | .malloc2 p => p ≠ 0 ∧ Exchanged n numblocks file c 0 0 st.file ∧ out = []
  | .moveLoop v => v.Ready n numblocks c ∧ v.i ≤ (blocksPerTask n numblocks).toNat ∧
      Exchanged n numblocks file c v.i v.i st.file ∧ out = shownPairs n numblocks file c v.i
  | .readDest v => v.Ready n numblocks c ∧ (v.i : Int) < blocksPerTask n numblocks ∧
      Exchanged n numblocks file c v.i v.i st.file ∧
      bufferAt st.mem v.buffer1 = blockAt file v.blockOrig ∧
      out = shownPairs n numblocks file c v.i
  | .showOrig v j => v.Ready n numblocks c ∧ (v.i : Int) < blocksPerTask n numblocks ∧
      Exchanged n numblocks file c v.i v.i st.file ∧
      bufferAt st.mem v.buffer1 = blockAt file v.blockOrig ∧
      bufferAt st.mem v.buffer2 = blockAt file v.blockDest ∧ j ≤ 64 ∧
      out = shownPairs n numblocks file c v.i ++ (List.ofFn (blockAt file v.blockOrig)).take j
  | .showDest v j => v.Ready n numblocks c ∧ (v.i : Int) < blocksPerTask n numblocks ∧
      Exchanged n numblocks file c v.i v.i st.file ∧
      bufferAt st.mem v.buffer1 = blockAt file v.blockOrig ∧
      bufferAt st.mem v.buffer2 = blockAt file v.blockDest ∧ j ≤ 64 ∧
      out = shownPairs n numblocks file c v.i ++ (List.ofFn (blockAt file v.blockOrig) ++
        (List.ofFn (blockAt file v.blockDest)).take j)
  | .writeOrig v => v.Ready n numblocks c ∧ (v.i : Int) < blocksPerTask n numblocks ∧
      Exchanged n numblocks file c (v.i + 1) v.i st.file ∧
      bufferAt st.mem v.buffer2 = blockAt file v.blockDest ∧
      out = shownPairs n numblocks file c (v.i + 1)
  | .free1 _ | .free2 _ | .taskExit =>
      Exchanged n numblocks file c (blocksPerTask n numblocks).toNat
        (blocksPerTask n numblocks).toNat st.file ∧
      out = shownPairs n numblocks file c (blocksPerTask n numblocks).toNat

section Mover

variable {n numblocks} {c d : Fin n} {file : Int → UInt8} {st st' : ByteStore} {out : List UInt8}
  {x y : Mover}

/-- What the others do to their blocks and buffers does not matter. -/
theorem Mover.Holds.frame (h : x.Holds n numblocks file c st out)
    (hfile : ∀ j : Nat, (j : Int) < blocksPerTask n numblocks →
      blockAt st'.file (destBlock n numblocks c j) = blockAt st.file (destBlock n numblocks c j) ∧
      blockAt st'.file (origBlock n numblocks c j) = blockAt st.file (origBlock n numblocks c j))
    (hmem : ∀ p ∈ x.owns, bufferAt st'.mem p = bufferAt st.mem p) :
    x.Holds n numblocks file c st' out := by
  have hshare {dest orig : Nat} (he : Exchanged n numblocks file c dest orig st.file) :
      Exchanged n numblocks file c dest orig st'.file := fun j hj =>
    ⟨(hfile j hj).1.trans (he j hj).1, (hfile j hj).2.trans (he j hj).2⟩
  cases x with
  | start => exact ⟨hshare h.1, h.2⟩
  | malloc2 => exact ⟨h.1, hshare h.2.1, h.2.2⟩
  | moveLoop => exact ⟨h.1, h.2.1, hshare h.2.2.1, h.2.2.2⟩
  | readDest v =>
    obtain ⟨hready, hi, he, hbuf, hout⟩ := h
    exact ⟨hready, hi, hshare he, (hmem _ (by simp [Mover.owns])).trans hbuf, hout⟩
  | showOrig v j | showDest v j =>
    obtain ⟨hready, hi, he, hbuf1, hbuf2, hj, hout⟩ := h
    exact ⟨hready, hi, hshare he, (hmem _ (by simp [Mover.owns])).trans hbuf1,
      (hmem _ (by simp [Mover.owns])).trans hbuf2, hj, hout⟩
  | writeOrig v =>
    obtain ⟨hready, hi, he, hbuf, hout⟩ := h
    exact ⟨hready, hi, hshare he, (hmem _ (by simp [Mover.owns])).trans hbuf, hout⟩
  | free1 | free2 | taskExit => exact ⟨hshare h.1, h.2⟩

/-- The write of `blockOrig` to `blockDest`. -/
theorem Exchanged.writeDest {i : Nat} (h : Exchanged n numblocks file c i i st.file)
    (hi : (i : Int) < blocksPerTask n numblocks)
    (hnow : ∀ b, blockAt st'.file b = Function.update (blockAt st.file) (destBlock n numblocks c i)
      (blockAt file (origBlock n numblocks c i)) b) :
    Exchanged n numblocks file c (i + 1) i st'.file := by
  intro j hj
  obtain ⟨hdest, horig⟩ := h j hj
  refine ⟨?_, ?_⟩
  · rw [hnow]
    by_cases he : j = i
    · subst j
      rw [Function.update_self, if_pos (Nat.lt_succ_self i)]
    · rw [Function.update_of_ne fun heq => he (destBlock_inj hj hi heq).2, hdest]
      have hiff : j < i ↔ j < i + 1 := by omega
      simp only [hiff]
  · rw [hnow, Function.update_of_ne (origBlock_ne_destBlock hj hi), horig]

theorem Exchanged.writeOrig {i : Nat} (h : Exchanged n numblocks file c (i + 1) i st.file)
    (hi : (i : Int) < blocksPerTask n numblocks)
    (hnow : ∀ b, blockAt st'.file b = Function.update (blockAt st.file) (origBlock n numblocks c i)
      (blockAt file (destBlock n numblocks c i)) b) :
    Exchanged n numblocks file c (i + 1) (i + 1) st'.file := by
  intro j hj
  obtain ⟨hdest, horig⟩ := h j hj
  refine ⟨?_, ?_⟩
  · rw [hnow, Function.update_of_ne (origBlock_ne_destBlock hi hj).symm, hdest]
  · rw [hnow]
    by_cases he : j = i
    · subst j
      rw [Function.update_self, if_pos (Nat.lt_succ_self i)]
    · rw [Function.update_of_ne fun heq => he (origBlock_inj hj hi heq).2, horig]
      have hiff : j < i ↔ j < i + 1 := by omega
      simp only [hiff]

/-- The blocks of the round that has begun are as they were. -/
theorem Exchanged.current {i : Nat} (h : Exchanged n numblocks file c i i st.file)
    (hi : (i : Int) < blocksPerTask n numblocks) :
    blockAt st.file (destBlock n numblocks c i) = blockAt file (destBlock n numblocks c i) ∧
    blockAt st.file (origBlock n numblocks c i) = blockAt file (origBlock n numblocks c i) := by
  simpa only [Nat.lt_irrefl, if_false] using h i hi

theorem shownPairs_succ (i : Nat) : shownPairs n numblocks file c (i + 1) =
    shownPairs n numblocks file c i ++ shownPair n numblocks file c i := by
  rw [shownPairs, List.range_succ, List.flatMap_append, List.flatMap_singleton, shownPairs]

theorem take_ofFn_succ (b : Block) {j : Nat} (hj : j < 64) :
    (List.ofFn b).take (j + 1) = (List.ofFn b).take j ++ [b ⟨j, hj⟩] := by
  have hlen : j < (List.ofFn b).length := hj.trans_eq List.length_ofFn.symm
  rw [← List.take_append_getElem hlen, List.getElem_ofFn]

theorem take_ofFn_all (b : Block) : (List.ofFn b).take 64 = List.ofFn b :=
  List.take_of_length_le (by rw [List.length_ofFn])

theorem Mover.Holds.own {addr : Ptr} (h : x.Holds n numblocks file c st out)
    (hdistinct : x.owns.Pairwise DisjointBuffers)
    (hmalloc : ∀ k, moverBody n numblocks c x = .malloc k → addr ≠ 0)
    (hnext : (moverBody n numblocks c x).next? addr = some y) :
    y.Holds n numblocks file c ((moverBody n numblocks c x).perform st)
      (out ++ ((moverBody n numblocks c x).prints st.mem).toList) := by
  cases x with
  | start =>
    cases hnext
    exact ⟨hmalloc _ rfl, h.1, by simp [moverBody, TaskStep.prints, h.2]⟩
  | malloc2 p =>
    cases hnext
    obtain ⟨hp, he, hout⟩ := h
    refine ⟨⟨?_, ?_, hp, hmalloc _ rfl⟩, Nat.zero_le _, he, ?_⟩
    · simp [origBlock]
    · simp [destBlock, origBlock]
    · simp [moverBody, TaskStep.prints, hout, shownPairs]
  | moveLoop v =>
    obtain ⟨hready, hle, he, hout⟩ := h
    simp only [moverBody] at hnext ⊢
    split_ifs at hnext ⊢ with hi <;> cases hnext
    · refine ⟨hready, hi, he, ?_, by simp [TaskStep.prints, hout]⟩
      exact (bufferAt_transfer_read _ _ st).trans (hready.orig ▸ (he.current hi).2)
    · have hall : v.i = (blocksPerTask n numblocks).toNat := by omega
      exact ⟨hall ▸ he, by simp [TaskStep.prints, hout, hall]⟩
  | readDest v =>
    cases hnext
    obtain ⟨hready, hi, he, hbuf, hout⟩ := h
    have hdis : DisjointBuffers v.buffer2 v.buffer1 := by simpa [Mover.owns] using hdistinct
    refine ⟨hready, hi, he, (bufferAt_transfer_other st .read hdis).trans hbuf, ?_,
      Nat.zero_le _, by simp [moverBody, TaskStep.prints, hout]⟩
    exact (bufferAt_transfer_read _ _ st).trans (hready.dest ▸ (he.current hi).1)
  | showOrig v j =>
    obtain ⟨hready, hi, he, hbuf1, hbuf2, hj, hout⟩ := h
    simp only [moverBody] at hnext ⊢
    split_ifs at hnext ⊢ with hlt <;> cases hnext
    · have hj' : j < 64 := Int.ofNat_lt.mp hlt
      have hbyte : st.mem (v.buffer1 + j) = blockAt file v.blockOrig ⟨j, hj'⟩ :=
        congrFun hbuf1 ⟨j, hj'⟩
      refine ⟨hready, hi, he, hbuf1, hbuf2, hj', ?_⟩
      rw [take_ofFn_succ _ hj', TaskStep.prints, hbyte, hout, Option.toList_some,
        List.append_assoc]
    · obtain rfl : j = 64 := le_antisymm hj (Int.ofNat_le.mp (not_lt.mp hlt))
      refine ⟨hready, hi, he, hbuf1, hbuf2, Nat.zero_le _, ?_⟩
      rw [hout, take_ofFn_all, List.take_zero, List.append_nil]
      exact List.append_nil _
  | showDest v j =>
    obtain ⟨hready, hi, he, hbuf1, hbuf2, hj, hout⟩ := h
    simp only [moverBody] at hnext ⊢
    split_ifs at hnext ⊢ with hlt <;> cases hnext
    · have hj' : j < 64 := Int.ofNat_lt.mp hlt
      have hbyte : st.mem (v.buffer2 + j) = blockAt file v.blockDest ⟨j, hj'⟩ :=
        congrFun hbuf2 ⟨j, hj'⟩
      refine ⟨hready, hi, he, hbuf1, hbuf2, hj', ?_⟩
      rw [take_ofFn_succ _ hj', TaskStep.prints, hbyte, hout, Option.toList_some]
      simp only [List.append_assoc]
    · obtain rfl : j = 64 := le_antisymm hj (Int.ofNat_le.mp (not_lt.mp hlt))
      refine ⟨hready, hi, he.writeDest hi fun b => ?_, hbuf2, ?_⟩
      · rw [← hready.dest, ← hready.orig, ← hbuf1]
        exact blockAt_transfer_write _ _ st b
      · rw [hout, take_ofFn_all, shownPairs_succ, shownPair, hready.orig, hready.dest]
        exact List.append_nil _
  | writeOrig v =>
    cases hnext
    obtain ⟨hready, hi, he, hbuf, hout⟩ := h
    refine ⟨⟨?_, ?_, hready.null1, hready.null2⟩, by simp only; omega,
      he.writeOrig hi fun b => ?_, ?_⟩
    · simp only [hready.orig, origBlock]
      omega
    · simp only [hready.dest, destBlock, origBlock]
      omega
    · rw [← hready.dest, ← hready.orig, ← hbuf]
      exact blockAt_transfer_write _ _ st b
    · simp [moverBody, TaskStep.prints, hout]
  | free1 v | free2 v =>
    cases hnext
    exact ⟨h.1, by simp [moverBody, TaskStep.prints, h.2]⟩
  | taskExit => cases hnext

theorem Mover.Holds.blockAt_perform (h : x.Holds n numblocks file c st out) {b : Int}
    (hb : ∀ i : Nat, (i : Int) < blocksPerTask n numblocks →
      b ≠ origBlock n numblocks c i ∧ b ≠ destBlock n numblocks c i) :
    blockAt ((moverBody n numblocks c x).perform st).file b = blockAt st.file b := by
  cases x with
  | moveLoop v =>
    simp only [moverBody]
    split_ifs <;> rfl
  | showOrig v j =>
    simp only [moverBody]
    split_ifs <;> rfl
  | showDest v j =>
    obtain ⟨hready, hi, -⟩ := h
    simp only [moverBody]
    split_ifs
    · rfl
    · exact blockAt_transfer_other st .write (hready.dest ▸ (hb v.i hi).2)
  | writeOrig v =>
    obtain ⟨hready, hi, -⟩ := h
    exact blockAt_transfer_other st .write (hready.orig ▸ (hb v.i hi).1)
  | _ => rfl

theorem Mover.Holds.valid (h : x.Holds n numblocks file c st out) {cmd : TaskCmd} {block : Int}
    {buffer : Ptr} (hbody : moverBody n numblocks c x = .call cmd block buffer y) :
    Accepts numblocks block buffer := by
  have horig {v : MoverVars} (hready : v.Ready n numblocks c)
      (hi : (v.i : Int) < blocksPerTask n numblocks) :
      0 ≤ v.blockOrig ∧ v.blockOrig < numblocks ∧ 0 ≤ v.blockDest ∧ v.blockDest < numblocks := by
    obtain ⟨hlow, hhigh⟩ := origBlock_range (c := c) hi
    rw [hready.dest, hready.orig, destBlock]
    omega
  cases x with
  | moveLoop v =>
    simp only [moverBody] at hbody
    split_ifs at hbody with hi
    cases hbody
    obtain ⟨hlow, hhigh, -⟩ := horig h.1 hi
    exact ⟨h.1.null1, hlow, hhigh⟩
  | readDest v =>
    cases hbody
    obtain ⟨-, -, hlow, hhigh⟩ := horig h.1 h.2.1
    exact ⟨h.1.null2, hlow, hhigh⟩
  | showOrig v j =>
    simp only [moverBody] at hbody
    split_ifs at hbody
  | showDest v j =>
    simp only [moverBody] at hbody
    split_ifs at hbody
    cases hbody
    obtain ⟨-, -, hlow, hhigh⟩ := horig h.1 h.2.1
    exact ⟨h.1.null1, hlow, hhigh⟩
  | writeOrig v =>
    cases hbody
    obtain ⟨hlow, hhigh, -⟩ := horig h.1 h.2.1
    exact ⟨h.1.null2, hlow, hhigh⟩
  | _ => cases hbody

end Mover

def printedBy {n : Nat} (c : Fin n) (output : List (Fin n × UInt8)) : List UInt8 :=
  output.filterMap fun e => if e.1 = c then some e.2 else none

/-- Each task is where its own steps have brought it, and the blocks in no share are as
they were. -/
structure Movers (file : Int → UInt8) (s : Direct n Mover) : Prop where
  holds : ∀ c, (s.locals c).Holds n numblocks file c s.store (printedBy c s.output)
  rest : ∀ b, (∀ (c : Fin n) (i : Nat), (i : Int) < blocksPerTask n numblocks →
    b ≠ origBlock n numblocks c i ∧ b ≠ destBlock n numblocks c i) →
    blockAt s.store.file b = blockAt file b

section Movers

variable {n numblocks} {file : Int → UInt8}

theorem printedBy_self (c : Fin n) (l : List (Fin n × UInt8)) (o : Option UInt8) :
    printedBy c (l ++ o.toList.map fun v => (c, v)) = printedBy c l ++ o.toList := by
  cases o <;> simp [printedBy]

theorem printedBy_other {c d : Fin n} (h : c ≠ d) (l : List (Fin n × UInt8)) (o : Option UInt8) :
    printedBy d (l ++ o.toList.map fun v => (c, v)) = printedBy d l := by
  cases o <;> simp [printedBy, h]

theorem Movers.step {s : Tasks n Mover} {a : Fin n × Ptr} {d : Direct n Mover}
    (howned : Owned Mover.owns s) (hs : Movers n numblocks file s.direct)
    (hok : KeepsApart Mover.owns (moverBody n numblocks) s (.own a.1 a.2))
    (h : directStep (moverBody n numblocks) s.direct a = some d) : Movers n numblocks file d := by
  obtain ⟨c, addr⟩ := a
  obtain ⟨x, hnext, rfl⟩ := Option.map_eq_some_iff.mp h
  have hc := hs.holds c
  refine ⟨fun e => ?_, fun b hb => ?_⟩
  · by_cases he : e = c
    · subst e
      simp only [Function.update_self, printedBy_self]
      refine hc.own (howned.distinct c) (fun k hk => ?_) hnext
      have hbody : moverBody n numblocks c (s.locals c) = .malloc k := hk
      rw [KeepsApart, hbody] at hok
      exact hok.1
    · simp only [Function.update_of_ne he, printedBy_other (Ne.symm he)]
      refine (hs.holds e).frame (fun j hj => ⟨?_, ?_⟩) fun p hp => ?_
      · refine hc.blockAt_perform fun i hi => ⟨(origBlock_ne_destBlock hi hj).symm, fun heq => ?_⟩
        exact he (destBlock_inj hj hi heq).1
      · refine hc.blockAt_perform fun i hi => ⟨fun heq => ?_, origBlock_ne_destBlock hj hi⟩
        exact he (origBlock_inj hj hi heq).1
      · refine (moverBody_usesOwn n numblocks).bufferAt_perform c (s.locals c) (fun q hq => ?_) _
        exact howned.apart c e (Ne.symm he) q hq p hp
  · exact (hc.blockAt_perform (hb c)).trans (hs.rest b hb)

theorem initial_movers (store : ByteStore) :
    Movers n numblocks store.file ⟨store, fun _ => .start, []⟩ where
  holds _ := ⟨fun _ _ => ⟨rfl, rfl⟩, rfl⟩
  rest _ _ := rfl

/-- The blocks of the shares are the first `n * blocksPerTask` ones and the last. -/
theorem exists_origBlock {b : Int} (hlow : 0 ≤ b) (hhigh : b < n * blocksPerTask n numblocks) :
    ∃ (c : Fin n) (j : Nat), (j : Int) < blocksPerTask n numblocks ∧
      b = origBlock n numblocks c j := by
  have hpos : 0 < blocksPerTask n numblocks := by
    by_contra hneg
    have hle : (n : Int) * blocksPerTask n numblocks ≤ 0 :=
      Int.mul_nonpos_of_nonneg_of_nonpos (Int.natCast_nonneg n) (not_lt.mp hneg)
    omega
  have hdiv : b / blocksPerTask n numblocks < n := Int.ediv_lt_of_lt_mul hpos hhigh
  have hdiv0 : 0 ≤ b / blocksPerTask n numblocks := Int.ediv_nonneg hlow hpos.le
  have hmod := Int.emod_lt_of_pos b hpos
  have hmod0 := Int.emod_nonneg b hpos.ne'
  refine ⟨⟨(b / blocksPerTask n numblocks).toNat, by omega⟩,
    (b % blocksPerTask n numblocks).toNat, by omega, ?_⟩
  rw [origBlock, Int.toNat_of_nonneg hdiv0, Int.toNat_of_nonneg hmod0, Int.add_comm,
    Int.mul_comm]
  exact (Int.emod_add_mul_ediv b _).symm

theorem Movers.mirrored {d : Direct n Mover} (hs : Movers n numblocks file d)
    (hend : ∀ c, d.locals c = .taskExit) {b : Int} (hlow : 0 ≤ b) (hhigh : b < numblocks) :
    blockAt d.store.file b = blockAt file
      (if b < n * blocksPerTask n numblocks ∨ numblocks - 1 - b < n * blocksPerTask n numblocks
        then numblocks - 1 - b else b) := by
  have hshare (c : Fin n) := hs.holds c
  simp only [hend] at hshare
  split_ifs with hin
  · rcases hin with hin | hin
    · obtain ⟨c, j, hj, rfl⟩ := exists_origBlock hlow hin
      have hnow := ((hshare c).1 j hj).2
      rwa [if_pos (by omega)] at hnow
    · obtain ⟨c, j, hj, hb⟩ := exists_origBlock (b := numblocks - 1 - b) (by omega) hin
      have hdest : destBlock n numblocks c j = b := by
        unfold destBlock
        omega
      have hnow := ((hshare c).1 j hj).1
      rw [if_pos (by omega), hdest] at hnow
      rw [hnow, hb]
  · push Not at hin
    refine hs.rest b fun c i hi => ?_
    have hlt := (origBlock_lt (c := c) hi).2
    unfold destBlock
    omega

end Movers

def Mover.left : Mover → Nat
  | .start => 201 * (blocksPerTask n numblocks).toNat + 5
  | .malloc2 _ => 201 * (blocksPerTask n numblocks).toNat + 4
  | .moveLoop v => 201 * ((blocksPerTask n numblocks).toNat - v.i) + 3
  | .readDest v => 201 * ((blocksPerTask n numblocks).toNat - (v.i + 1)) + 186
  | .showOrig v j => 201 * ((blocksPerTask n numblocks).toNat - (v.i + 1)) + (64 - j) + 104
  | .showDest v j => 201 * ((blocksPerTask n numblocks).toNat - (v.i + 1)) + (64 - j) + 39
  | .writeOrig v => 201 * ((blocksPerTask n numblocks).toNat - (v.i + 1)) + 21
  | .free1 _ => 2
  | .free2 _ => 1
  | .taskExit => 0

theorem moverBody_bounded : Bounded (moverBody n numblocks) (Mover.left n numblocks) := by
  intro c x addr y h
  cases x with
  | taskExit => cases h
  | start | malloc2 | readDest | writeOrig | free1 | free2 =>
    cases h
    simp only [Mover.left, moverBody, TaskStep.cost]
    omega
  | moveLoop | showOrig | showDest =>
    simp only [moverBody] at h ⊢
    split_ifs at h ⊢ <;> cases h <;> simp only [Mover.left, TaskStep.cost] <;>
      unfold diskBlockSize at * <;> omega

theorem moverBody_finished {n : Nat} {numblocks : Int} {c : Fin n} {x : Mover}
    (h : moverBody n numblocks c x = .finished) : x = .taskExit := by
  cases x with
  | taskExit => rfl
  | moveLoop | showOrig | showDest =>
    simp only [moverBody] at h
    split_ifs at h
  | _ => cases h

/-- On a disk of at most 7953644 blocks, in every run in which no call returns before its own
transfer, `pingpong-disco2` mirrors the blocks of its tasks and each task prints the
blocks of its pairs as they were; every run takes at most 201 steps for each pair, and
there is such a run to the end, whatever `random` returns. -/
theorem disco2_mirrors {cfg : Config (Int → UInt8) (Ptr → UInt8)}
    (hmd : cfg.md = byteMedium .wrap32) {n : Nat} {numblocks : Int}
    (hsize : numblocks ≤ 7953644) (heap : Ptr → Request) (store : ByteStore) :
    (∀ as s, run (timedTasks cfg (moverBody n numblocks))
        ⟨initial numblocks heap store, fun _ => .start, []⟩ as = some s →
      as.countP (fun a => a.1.works) ≤ n * (201 * (blocksPerTask n numblocks).toNat + 5) + 1 ∧
      (Along (tasksStep cfg (moverBody n numblocks)) (KeepsApart Mover.owns (moverBody n numblocks))
          ⟨initial numblocks heap store, fun _ => .start, []⟩ (as.map Prod.fst) →
        s.ended (moverBody n numblocks) →
        (∀ b, 0 ≤ b → b < numblocks → blockAt s.sys.store.file b = blockAt store.file
          (if b < n * blocksPerTask n numblocks ∨
            numblocks - 1 - b < n * blocksPerTask n numblocks then numblocks - 1 - b else b)) ∧
        ∀ c, printedBy c s.output =
          shownPairs n numblocks store.file c (blocksPerTask n numblocks).toNat)) ∧
    ∃ (as : List (TasksAction n)) (s : Tasks n Mover), s.ended (moverBody n numblocks) ∧
      Along (tasksStep cfg (moverBody n numblocks)) (KeepsApart Mover.owns (moverBody n numblocks))
        ⟨initial numblocks heap store, fun _ => .start, []⟩ as ∧
      ∀ randoms : List Nat, randoms.length = as.length →
        run (timedTasks cfg (moverBody n numblocks))
          ⟨initial numblocks heap store, fun _ => .start, []⟩ (as.zip randoms) = some s := by
  have htimed : (initial numblocks heap store : ByteState n).dev.Timed :=
    initial_timed hsize heap store
  refine ⟨fun as s h => ⟨?_, fun hok hended => ?_⟩, ?_⟩
  · obtain ⟨hwork, -, -⟩ := tasks_finish (moverBody_bounded n numblocks) (run_of_timed h)
    rw [Finset.sum_const_nat fun _ _ => rfl, Finset.card_univ, Fintype.card_fin,
      List.countP_map] at hwork
    exact (Nat.le_add_right _ _).trans hwork
  · obtain ⟨hinv, hsettled⟩ := owned_invariant hmd (fits_of_small hsize)
      (moverBody_usesOwn n numblocks) (P := Movers n numblocks store.file)
      (fun d c cmd block buffer y hd hbody => (hd.holds c).valid hbody)
      (fun s a d howned hs hok hd => hs.step howned hok hd) (fun _ => rfl) (initial_movers store)
      hok (run_of_timed h)
    have hend (c : Fin n) : s.locals c = .taskExit := moverBody_finished (hended c).2
    rw [Tasks.direct, hsettled fun c => (hended c).1] at hinv
    refine ⟨fun b hlow hhigh => hinv.mirrored hend hlow hhigh, fun c => ?_⟩
    have hholds := hinv.holds c
    simp only [hend] at hholds
    exact hholds.2
  · obtain ⟨as, s, hrun, hok, hend⟩ := @exists_apart_run n Mover cfg Mover.owns _ _
      (moverBody_bounded n numblocks) numblocks heap store fun _ => .start
    exact ⟨as, s, hend, hok, fun _ => run_timedTasks htimed hrun⟩

/-- Two tasks mirror eight blocks. -/
theorem disco2_mirrors_small : ∃ as s, run (timedTasks byteConfig (moverBody 2 8))
    ⟨initial 8 (fun _ => ⟨0, 0, 0, 0, .read, 0⟩) ⟨fun o => o.toNat.toUInt8, fun _ => 0⟩,
      fun _ => .start, []⟩ as = some s ∧
    blockAt s.sys.store.file 1 = blockAt (fun o => o.toNat.toUInt8) 6 := by
  obtain ⟨hruns, as, s, hend, hok, hrun⟩ := @disco2_mirrors byteConfig rfl 2 8 (by decide)
    (fun _ => ⟨0, 0, 0, 0, .read, 0⟩) ⟨fun o => o.toNat.toUInt8, fun _ => 0⟩
  have hlen : (List.replicate as.length 0).length = as.length := List.length_replicate ..
  have hs := hrun (List.replicate as.length 0) hlen
  rw [← List.map_fst_zip hlen.ge] at hok
  obtain ⟨hblocks, -⟩ := (hruns _ s hs).2 hok hend
  exact ⟨_, s, hs, hblocks 1 (by decide) (by decide)⟩

end PingPong
