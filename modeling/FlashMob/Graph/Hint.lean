import FlashMob.Types

namespace FlashMob.Graph

/-- `GroupHint`: the vertices of a group and how they are partitioned. -/
structure GroupHint (D : Type) where
  vertexBegin : Nat
  vertexEnd : Nat
  partitionBits : Nat
  partitionNum : Nat
  totalTime : D
  stepTime : D
  partitionLevel : Nat

structure GraphHint (D : Type) where
  groupBits : Nat
  groupNum : Nat
  groupHints : List (GroupHint D)
  partitionSamplerClass : List SamplerClass

end FlashMob.Graph
