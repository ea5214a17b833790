/-!
This module contains the ids of document nodes. An id names a slot and the generation of nodes in it,
so that it stops resolving when its node is gone.
-/

namespace VirtualDom

/-- There are fewer than 2³² slots, so that the index is as good as one of 32 bits. -/
structure NodeId where
  index : Nat
  generation : UInt32
deriving DecidableEq, Inhabited

/-- The first generation of a slot is not written. -/
def NodeId.text (id : NodeId) : String :=
  if id.generation = 0 then s!"#{id.index}" else s!"#{id.index}v{id.generation.toNat}"

end VirtualDom
