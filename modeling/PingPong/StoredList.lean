import PingPong.Handshake
import PingPong.NodeList

/-! The list of the manager is the one in memory: a run of the manager calls
`addNodeInFront` and `removeNode`, and what these calls leave in memory is the
manager's list with the fields of its nodes. -/

namespace PingPong

open Runs

variable {n : Nat} {φ μ : Type}

/-- The list function that a step of the manager calls. -/
def listCall (s : State n φ μ) : Action n μ → Option ListOp
  | .call c cmd block buffer addr =>
    some (.addNodeInFront addr ⟨s.nextId, c, block, buffer, cmd, s.systemTime⟩)
  | .disk =>
    match s.disk with
    | .remove p => some (.removeNode p)
    | _ => none
  | _ => none

def State.sequence (s : State n φ μ) : List (Ptr × Request) := s.list.map fun p => (p, s.heap p)

theorem sequence_keys (s : State n φ μ) : s.sequence.map Prod.fst = s.list := by
  simp [State.sequence, Function.comp_def]

theorem run_one {l l' : List (Ptr × Request)} {op : ListOp} (h : seqStep l op = some l') :
    run seqStep l (some op).toList = some l' :=
  run_cons.mpr ⟨l', h, rfl⟩

theorem Step.sequence {cfg : Config φ μ} {s t : State n φ μ} {a : Action n μ} (hs : Handshake s)
    (h : Step cfg s a t) : run seqStep s.sequence (listCall s a).toList = some t.sequence := by
  cases h with
  | @call c cmd block buffer addr r hr hpc hnull hfresh =>
    have hkept : s.list.map (fun p => (p, Function.update s.heap addr r p)) = s.sequence := by
      apply List.map_congr_left
      intro p hp
      rw [Function.update_of_ne (ne_of_mem_of_not_mem hp hfresh)]
    apply run_one
    rw [seqStep, sequence_keys, if_neg (not_or.mpr ⟨hnull, hfresh⟩), ← hkept, ← hr]
    simp [State.sequence]
  | @remove p hpc =>
    have hmem := hs.chosen p hpc
    have hcall : listCall s (.disk : Action n μ) = some (.removeNode p) := by
      simp [listCall, hpc]
    rw [hcall]
    apply run_one
    rw [seqStep, sequence_keys, if_pos hmem, State.sequence, List.eraseP_map, State.sequence,
      List.erase_eq_eraseP']
    rfl
  | lock | upNew | downTreated | unlock | ret | store | fire | tick => rfl
  | enterLoop hpc | leaveLoop hpc | downNew hpc | empty hpc | nonempty hpc | choose hpc
  | notIdle hpc | isIdle hpc | setStart hpc | account hpc | setCurrBlock hpc | setBuffer hpc
  | accept hpc | refuse hpc | upTreated hpc =>
    have hcall : listCall s (.disk : Action n μ) = none := by simp [listCall, hpc]
    rw [hcall]
    rfl

/-- After every run of the manager, the memory that its calls of the list functions
have written represents its list. -/
theorem manager_list_stored {cfg : Config φ μ} {numblocks : Int} {heap : Ptr → Request}
    {store : Store φ μ} {as : List (Action n μ)} {u : State n φ μ}
    (hrun : run (step cfg) (initial numblocks heap store) as = some u) :
    ∃ h pstList, run listOpStep NodeHeap.createList
        (traceOf (step cfg) listCall (initial numblocks heap store) as) = some h ∧
      h.Represents pstList u.sequence := by
  have hstep (s : State n φ μ) (a : Action n μ) (t : State n φ μ) (seen : List ListOp)
      (hs : Handshake s ∧ run seqStep [] seen = some s.sequence) (_ : True)
      (ht : step cfg s a = some t) :
      Handshake t ∧ run seqStep [] (seen ++ (listCall s a).toList) = some t.sequence := by
    have hcases := step_cases ht
    exact ⟨hs.1.step hcases, run_append.mpr ⟨s.sequence, hs.2, hcases.sequence hs.1⟩⟩
  have hstart : Handshake (initial numblocks heap store : State n φ μ) ∧
      run seqStep [] [] = some (initial numblocks heap store : State n φ μ).sequence :=
    ⟨initial_handshake numblocks heap store, rfl⟩
  have hseq := trace_invariant hstep hstart (along_trivial _ _ as) hrun
  obtain ⟨h, hmem, pstList, hrep⟩ := run_represents hseq.2
  exact ⟨h, pstList, hmem, hrep⟩

end PingPong
