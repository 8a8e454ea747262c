import FlashMob.Types

namespace FlashMob.Graph

structure GroupHeader where
  partitionBits : Nat
  partitionOffset : Nat
  deriving DecidableEq, Repr

/-- The fields of `Graph` that vertex lookups read; `groups` has a table for each socket. -/
structure Groups where
  groupBits : Nat
  groupMask : Nat
  groups : Nat → List GroupHeader

/-- The partition of a vertex by the table of socket `s`. -/
def Groups.partitionId (g : Groups) (s vertex : Nat) : Nat :=
  let gh := (g.groups s).getD (vertex >>> g.groupBits) ⟨0,0⟩
  u32 (((vertex &&& g.groupMask) >>> gh.partitionBits) + gh.partitionOffset)

def Groups.getVertexPartitionId (g : Groups) (vertex : Nat) : Nat := g.partitionId 0 vertex

end FlashMob.Graph
