import PingPong.TaskBodies

/-! `pingpong-disco1.c`: one task prints every block of the disk and then fills each with
a character of its own. Whatever the timing of the disk, it prints what the file held,
and it leaves in the file what it has written. -/

namespace PingPong

open Runs

/-- Where `main` stands, with its `i` and `j`. -/
inductive Disco1
  | readLoop (i : Nat)
  | showLoop (i j : Nat)
  | writeLoop (i : Nat)
  | fillLoop (i j : Nat)
  | taskExit
  deriving DecidableEq

variable (numblocks : Int) (random : Nat → Nat) (buffer : Ptr)

/-- `c = 32 + random () % 48`, at the block `i`. -/
def fillChar (i : Nat) : UInt8 := UInt8.ofNat (32 + random i % 48)

def disco1Main : Disco1 → TaskStep Disco1
  | .readLoop i =>
    if (i : Int) < numblocks then .call .read i buffer (.showLoop i 0)
    else .silent (.writeLoop 0)
  | .showLoop i j =>
    if (j : Int) < diskBlockSize then .print (buffer + j) (.showLoop i (j + 1))
    else .silent (.readLoop (i + 1))
  | .writeLoop i => if (i : Int) < numblocks then .silent (.fillLoop i 0) else .silent .taskExit
  | .fillLoop i j =>
    if (j : Int) < diskBlockSize then
      .assign (buffer + j) (fillChar random i) (.fillLoop i (j + 1))
    else .call .write i buffer (.writeLoop (i + 1))
  | .taskExit => .finished

def printed (file : Int → UInt8) (i : Nat) : List UInt8 :=
  (List.range i).flatMap fun b : Nat => List.ofFn (blockAt file b)

def filled (file : Int → UInt8) (i : Nat) (b : Int) : Block :=
  if 0 ≤ b ∧ b < i then fun _ => fillChar random b.toNat else blockAt file b

def Disco1.left : Disco1 → Nat
  | .readLoop i => 83 * (numblocks.toNat - i) + 83 * numblocks.toNat + 2
  | .showLoop i j => (64 - j) + 83 * (numblocks.toNat - (i + 1)) + 83 * numblocks.toNat + 3
  | .writeLoop i => 83 * (numblocks.toNat - i) + 1
  | .fillLoop i j => (64 - j) + 83 * (numblocks.toNat - (i + 1)) + 19
  | .taskExit => 0

theorem disco1_bounded :
    Bounded (fun _ : Fin 1 => disco1Main numblocks random buffer) (Disco1.left numblocks) := by
  intro c x addr y h
  cases x with
  | taskExit => cases h
  | readLoop | showLoop | writeLoop | fillLoop =>
    simp only [disco1Main] at h ⊢
    split_ifs at h ⊢ <;> cases h <;> simp only [Disco1.left, TaskStep.cost] <;>
      unfold diskBlockSize at * <;> omega

def Disco1.Holds (file : Int → UInt8) (st : ByteStore) (out : List UInt8) : Disco1 → Prop
  | .readLoop i => i ≤ numblocks.toNat ∧ blockAt st.file = blockAt file ∧ out = printed file i
  | .showLoop i j => i < numblocks.toNat ∧ j ≤ 64 ∧ blockAt st.file = blockAt file ∧
      bufferAt st.mem buffer = blockAt file i ∧
      out = printed file i ++ (List.ofFn (blockAt file i)).take j
  | .writeLoop i => i ≤ numblocks.toNat ∧ blockAt st.file = filled random file i ∧
      out = printed file numblocks.toNat
  | .fillLoop i j => i < numblocks.toNat ∧ j ≤ 64 ∧
      (∀ k : Fin 64, k.val < j → bufferAt st.mem buffer k = fillChar random i) ∧
      blockAt st.file = filled random file i ∧ out = printed file numblocks.toNat
  | .taskExit => blockAt st.file = filled random file numblocks.toNat ∧
      out = printed file numblocks.toNat

variable {numblocks random buffer} {file : Int → UInt8} {st : ByteStore} {out : List UInt8}

theorem printed_succ (i : Nat) :
    printed file (i + 1) = printed file i ++ (List.ofFn (blockAt file i)).take 64 := by
  rw [printed, List.range_succ, List.flatMap_append, List.flatMap_singleton, printed,
    List.take_of_length_le (by rw [List.length_ofFn])]

theorem filled_succ (i : Nat) :
    Function.update (filled random file i) i (fun _ => fillChar random i) =
      filled random file (i + 1) := by
  funext b
  by_cases hb : b = i
  · subst b
    simp [filled]
  · rw [Function.update_of_ne hb, filled, filled]
    have hiff : (0 ≤ b ∧ b < i) ↔ (0 ≤ b ∧ b < (i + 1 : Nat)) := by omega
    simp only [hiff]

theorem disco1_step {x y : Disco1} {addr : Ptr} (h : x.Holds numblocks random buffer file st out)
    (hnext : (disco1Main numblocks random buffer x).next? addr = some y) :
    y.Holds numblocks random buffer file ((disco1Main numblocks random buffer x).perform st)
      (out ++ ((disco1Main numblocks random buffer x).prints st.mem).toList) := by
  cases x with
  | taskExit => cases hnext
  | readLoop i =>
    obtain ⟨hi, hfile, hout⟩ := h
    simp only [disco1Main] at hnext ⊢
    split_ifs at hnext ⊢ with hlt <;> cases hnext
    · refine ⟨by omega, by omega, hfile, ?_, by simp [TaskStep.prints, hout]⟩
      exact (bufferAt_transfer_read i buffer st).trans (congrFun hfile i)
    · have hall : i = numblocks.toNat := by omega
      refine ⟨Nat.zero_le _, hfile.trans ?_, by simp [TaskStep.prints, hout, hall]⟩
      funext b
      exact (if_neg (by omega)).symm
  | showLoop i j =>
    obtain ⟨hi, hj, hfile, hmem, hout⟩ := h
    simp only [disco1Main] at hnext ⊢
    split_ifs at hnext ⊢ with hlt <;> cases hnext
    · have hj' : j < 64 := Int.ofNat_lt.mp hlt
      have hbyte : st.mem (buffer + j) = blockAt file i ⟨j, hj'⟩ := congrFun hmem ⟨j, hj'⟩
      refine ⟨hi, hj', hfile, hmem, ?_⟩
      have hlen : j < (List.ofFn (blockAt file i)).length := hj'.trans_eq List.length_ofFn.symm
      rw [← List.take_append_getElem hlen, List.getElem_ofFn, TaskStep.prints, hbyte, hout,
        Option.toList_some, List.append_assoc]
    · obtain rfl : j = 64 := le_antisymm hj (Int.ofNat_le.mp (not_lt.mp hlt))
      refine ⟨hi, hfile, ?_⟩
      rw [printed_succ, hout]
      exact List.append_nil _
  | writeLoop i =>
    obtain ⟨hi, hfile, hout⟩ := h
    simp only [disco1Main] at hnext ⊢
    split_ifs at hnext ⊢ with hlt <;> cases hnext
    · exact ⟨by omega, by omega, by simp, hfile, by simp [TaskStep.prints, hout]⟩
    · have hall : i = numblocks.toNat := by omega
      exact ⟨hall ▸ hfile, by simp [TaskStep.prints, hout]⟩
  | fillLoop i j =>
    obtain ⟨hi, hj, hmem, hfile, hout⟩ := h
    simp only [disco1Main] at hnext ⊢
    split_ifs at hnext ⊢ with hlt <;> cases hnext
    · refine ⟨hi, Int.ofNat_lt.mp hlt, fun k hk => ?_, hfile, by simp [TaskStep.prints, hout]⟩
      simp only [TaskStep.perform, Store.poke, bufferAt]
      by_cases he : k.val = j
      · rw [he, Function.update_self]
      · have hne : buffer + k.val ≠ buffer + j := fun h => he (Nat.add_left_cancel h)
        rw [Function.update_of_ne hne]
        exact hmem k (by omega)
    · obtain rfl : j = 64 := le_antisymm hj (Int.ofNat_le.mp (not_lt.mp hlt))
      refine ⟨hi, ?_, by simp [TaskStep.prints, hout]⟩
      have hbuffer : bufferAt st.mem buffer = fun _ => fillChar random i :=
        funext fun k => hmem k k.isLt
      rw [← filled_succ, ← hfile, ← hbuffer]
      funext b
      exact blockAt_transfer_write i buffer st b

theorem printed_mono {i k : Nat} (h : i ≤ k) : printed file i <+: printed file k := by
  induction h with
  | refl => exact List.prefix_rfl
  | step _ ih =>
    rw [printed_succ]
    exact ih.trans (List.prefix_append _ _)

theorem Disco1.Holds.printed_so_far {x : Disco1} (h : x.Holds numblocks random buffer file st out) :
    out <+: printed file numblocks.toNat := by
  cases x with
  | readLoop i =>
    obtain ⟨hi, -, rfl⟩ := h
    exact printed_mono hi
  | showLoop i j =>
    obtain ⟨hi, hj, -, -, rfl⟩ := h
    refine List.IsPrefix.trans ?_ (printed_mono hi)
    rw [printed_succ]
    refine List.prefix_append_right_inj _ |>.mpr ?_
    exact List.take_prefix_take_left hj
  | writeLoop => exact h.2.2 ▸ List.prefix_rfl
  | fillLoop => exact h.2.2.2.2 ▸ List.prefix_rfl
  | taskExit => exact h.2 ▸ List.prefix_rfl

/-- Calls for a block beyond the last one are not made. -/
def Disco1.InRange (numblocks : Int) : Disco1 → Prop
  | .fillLoop i _ => (i : Int) < numblocks
  | _ => True

theorem disco1_callsValid (hnull : buffer ≠ 0) :
    CallsValid numblocks (fun _ : Fin 1 => disco1Main numblocks random buffer)
      (Disco1.InRange numblocks) := by
  intro c x hx
  refine ⟨fun cmd block p y h => ?_, fun addr y h => ?_⟩
  · cases x with
    | taskExit => cases h
    | showLoop | writeLoop =>
      simp only [disco1Main] at h
      split_ifs at h
    | readLoop i =>
      simp only [disco1Main] at h
      split_ifs at h with hi
      cases h
      exact ⟨hnull, Int.natCast_nonneg i, hi⟩
    | fillLoop i j =>
      simp only [disco1Main] at h
      split_ifs at h
      cases h
      exact ⟨hnull, Int.natCast_nonneg i, hx⟩
  · cases x with
    | taskExit => cases h
    | readLoop i | showLoop i j | writeLoop i | fillLoop i j =>
      simp only [disco1Main] at h
      split_ifs at h <;> cases h <;> first | assumption | trivial

theorem disco1_finished {x : Disco1} :
    disco1Main numblocks random buffer x = .finished ↔ x = .taskExit := by
  cases x with
  | taskExit => simp [disco1Main]
  | readLoop | showLoop | writeLoop | fillLoop =>
    simp only [disco1Main, reduceCtorEq, iff_false]
    split_ifs <;> simp

theorem disco1_direct {d d' : Direct 1 Disco1} {a : Fin 1 × Ptr}
    (h : (d.locals 0).Holds numblocks random buffer file d.store (d.output.map Prod.snd))
    (hstep : directStep (fun _ => disco1Main numblocks random buffer) d a = some d') :
    (d'.locals 0).Holds numblocks random buffer file d'.store (d'.output.map Prod.snd) := by
  obtain ⟨c, addr⟩ := a
  obtain rfl : c = 0 := Subsingleton.elim c 0
  obtain ⟨x, hnext, rfl⟩ := Option.map_eq_some_iff.mp hstep
  have hx := disco1_step h hnext
  simpa only [Function.update_self, List.map_append, List.map_map, Function.comp_def,
    List.map_id'] using hx

/-- On a disk of at most 7953644 blocks, however the disk and the timer behave,
`pingpong-disco1` prints the blocks of the file one after the other, at any moment some
beginning of them, and leaves its characters in the file; it ends after at most 166 steps
for each block, and it never gets stuck before, whatever `random` returns. -/
theorem disco1_result {cfg : Config (Int → UInt8) (Ptr → UInt8)}
    (hmd : cfg.md = byteMedium .wrap32) (hsize : numblocks ≤ 7953644)
    (hnull : buffer ≠ 0) {heap : Ptr → Request} {store : ByteStore}
    {as : List (TasksAction 1 × Nat)} {s : Tasks 1 Disco1}
    (h : run (timedTasks cfg fun _ => disco1Main numblocks random buffer)
      ⟨initial numblocks heap store, fun _ => .readLoop 0, []⟩ as = some s) :
    s.output.map Prod.snd <+: printed store.file numblocks.toNat ∧
    (s.ended (fun _ => disco1Main numblocks random buffer) →
      s.output.map Prod.snd = printed store.file numblocks.toNat ∧
      blockAt s.sys.store.file = filled random store.file numblocks.toNat) ∧
    as.countP (fun a => a.1.works) ≤ 166 * numblocks.toNat + 3 ∧
    ∃ (bs : List (TasksAction 1)) (u : Tasks 1 Disco1),
      u.ended (fun _ => disco1Main numblocks random buffer) ∧
      ∀ randoms : List Nat, randoms.length = bs.length →
        run (timedTasks cfg fun _ => disco1Main numblocks random buffer) s (bs.zip randoms) =
          some u := by
  have hrun := run_of_timed h
  have hvalid : CallsValid numblocks (fun _ : Fin 1 => disco1Main numblocks random buffer)
      (Disco1.InRange numblocks) := disco1_callsValid hnull
  have hinRange (c : Fin 1) : ((fun _ => .readLoop 0 : Fin 1 → Disco1) c).InRange numblocks :=
    trivial
  obtain ⟨hdirect, hsettled⟩ :=
    alone_run_direct hmd (fits_of_small hsize) hvalid hinRange hrun
  have hstart : (Disco1.readLoop 0).Holds numblocks random buffer store.file store [] :=
    ⟨Nat.zero_le _, rfl, rfl⟩
  have hholds : (s.locals 0).Holds numblocks random buffer store.file s.sys.settled
      (s.output.map Prod.snd) :=
    run_invariant (P := fun d : Direct 1 Disco1 => (d.locals 0).Holds numblocks random buffer
      store.file d.store (d.output.map Prod.snd)) (fun d a d' hd _ ht => disco1_direct hd ht)
      hstart (along_trivial _ _ _) hdirect
  obtain ⟨hwork, -, bs, u, hu, hend⟩ := tasks_finish (disco1_bounded numblocks random buffer) hrun
  have htimed := run_tasks_timed (initial_timed hsize heap store) hrun
  refine ⟨hholds.printed_so_far, fun hended => ?_, ?_, bs, u, hend,
    fun _ => run_timedTasks htimed hu⟩
  · obtain ⟨hout, hlast⟩ := hended 0
    rw [hsettled fun c => Subsingleton.elim 0 c ▸ hout] at hholds
    rw [disco1_finished.mp hlast] at hholds
    exact ⟨hholds.2, hholds.1⟩
  · rw [List.countP_map] at hwork
    simp only [Finset.univ_unique, Finset.sum_singleton, Disco1.left, Function.comp_def] at hwork
    omega

/-- Two blocks; the second is filled with `'#'`. -/
theorem disco1_result_small : ∃ (as : List (TasksAction 1 × Nat)) (s : Tasks 1 Disco1),
    run (timedTasks byteConfig fun _ => disco1Main 2 (fun i => 51 * i) 64)
      ⟨initial 2 (fun _ => ⟨0, 0, 0, 0, .read, 0⟩) ⟨fun o => o.toNat.toUInt8, fun _ => 0⟩,
        fun _ => .readLoop 0, []⟩ as = some s ∧
    s.output.map Prod.snd = printed (fun o => o.toNat.toUInt8) 2 ∧
    blockAt s.sys.store.file 1 = fun _ => 35 := by
  obtain ⟨-, -, -, bs, s, hend, hruns⟩ := @disco1_result 2 (fun i => 51 * i) 64 byteConfig rfl
    (by decide) (by decide) (fun _ => ⟨0, 0, 0, 0, .read, 0⟩)
    ⟨fun o => o.toNat.toUInt8, fun _ => 0⟩ [] _ rfl
  have hs := hruns (List.replicate bs.length 269) (List.length_replicate ..)
  obtain ⟨-, hended, -⟩ := @disco1_result 2 (fun i => 51 * i) 64 byteConfig rfl
    (by decide) (by decide) (fun _ => ⟨0, 0, 0, 0, .read, 0⟩)
    ⟨fun o => o.toNat.toUInt8, fun _ => 0⟩ _ s hs
  obtain ⟨hout, hfile⟩ := hended hend
  exact ⟨_, s, hs, hout, congrFun hfile 1⟩

end PingPong
