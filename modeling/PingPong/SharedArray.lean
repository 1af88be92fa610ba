import PingPong.BlockArray

/-! An array of blocks that any number of clients read and write. Each call takes
effect at once when it is made, and the client has its result in hand when it
returns, whatever the others have done in between. -/

namespace SharedArray

open BlockArray (Op)

variable {κ ι β : Type*}

structure State (κ ι β : Type*) where
  content : ι → β
  result : κ → Option (Option β)

/-- A read returns what it has read, a write nothing. -/
inductive Label (κ ι β : Type*)
  | call (k : κ) (op : Op ι β)
  | ret (k : κ) (d : Option β)

def answer (a : ι → β) : Op ι β → Option β
  | .read i => some (a i)
  | .write _ _ => none

variable [DecidableEq ι]

def apply (a : ι → β) : Op ι β → ι → β
  | .read _ => a
  | .write i d => Function.update a i d

inductive Step [DecidableEq κ] : State κ ι β → Label κ ι β → State κ ι β → Prop
  | call {s : State κ ι β} {k : κ} {op : Op ι β} (hout : s.result k = none) :
      Step s (.call k op)
        ⟨apply s.content op, Function.update s.result k (some (answer s.content op))⟩
  | ret {s : State κ ι β} {k : κ} {d : Option β} (hin : s.result k = some d) :
      Step s (.ret k d) ⟨s.content, Function.update s.result k none⟩

end SharedArray
