import Mathlib.Logic.Function.Basic

/-! An array of blocks that one client reads and writes, one call at a time. A
return carries the content that the call has read or written. -/

namespace BlockArray

variable {ι β : Type*}

inductive Op (ι β : Type*)
  | read (i : ι)
  | write (i : ι) (d : β)

inductive Label (ι β : Type*)
  | call (op : Op ι β)
  | ret (d : β)

structure State (ι β : Type*) where
  content : ι → β
  pending : Option (Op ι β)

inductive Step [DecidableEq ι] : State ι β → Label ι β → State ι β → Prop
  | call {a : ι → β} {op : Op ι β} : Step ⟨a, none⟩ (.call op) ⟨a, some op⟩
  | read {a : ι → β} {i : ι} : Step ⟨a, some (.read i)⟩ (.ret (a i)) ⟨a, none⟩
  | write {a : ι → β} {i : ι} {d : β} :
      Step ⟨a, some (.write i d)⟩ (.ret d) ⟨Function.update a i d, none⟩

end BlockArray
