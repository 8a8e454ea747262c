import FlashMob.Types
import Mathlib.Logic.Function.Basic

namespace FlashMob.Graph

structure VertexSortUnit where
  vertex : Nat
  degree : Nat
  deriving DecidableEq, Repr

/-- The vector `name2id` grown so that it has an entry for `name`. -/
def grow (name2id : List Nat) (name : Nat) : List Nat :=
  name2id ++ List.replicate (name + 1 - name2id.length) uintMax

/-- Gives `name` the next id unless it has one. -/
def assign (st : List Nat × Nat) (name : Nat) : List Nat × Nat :=
  if st.1.getD name uintMax = uintMax then (st.1.set name st.2, u32 (st.2 + 1)) else st

/-- What the renaming loop carries: `name2id`, `v_num` and the edges renamed so far. -/
structure Renaming where
  name2id : List Nat
  vNum : Nat
  edges : List (Nat × Nat)

def renameEdge (st : Renaming) (e : Nat × Nat) : Renaming :=
  let grown := grow (grow st.name2id e.1) e.2
  let named := assign (assign (grown,st.vNum) e.1) e.2
  ⟨named.1, named.2,
    st.edges ++ [(named.1.getD e.1 uintMax, named.1.getD e.2 uintMax)]⟩

def rename (rawEdges : List (Nat × Nat)) : Renaming := rawEdges.foldl renameEdge ⟨[],0,[]⟩

/-- The fetch-and-adds on a degree, which is 32 bits wide. -/
def bumpDegree (degree : Nat → Nat) (v : Nat) : Nat → Nat :=
  Function.update degree v (u32 (degree v + 1))

def countDegrees (asUndirected : Bool) (edges : List (Nat × Nat)) : Nat → Nat :=
  edges.foldl (fun degree e =>
    if asUndirected then bumpDegree (bumpDegree degree e.1) e.2 else bumpDegree degree e.1)
    (fun _ => 0)

/-- The counters before the placing loop: how many units have at most each degree. -/
def degreeCounters (data : List VertexSortUnit) (high : Nat) : Nat → Nat :=
  let counted := data.foldl (fun counters u =>
    Function.update counters u.degree (counters u.degree + 1)) (fun _ => 0)
  (List.range' 1 high).foldl (fun counters d =>
    Function.update counters d (counters d + counters (d - 1))) counted

/-- `counting_sort`. A unit of degree zero is placed through an index below zero, and with
the largest 32-bit degree the loop over the degrees does not end. -/
def countingSort (data : List VertexSortUnit) : Option (List VertexSortUnit) :=
  let num := data.length
  let high := data.foldl (fun high u => max high u.degree) 0
  if high = uintMax ∨ data.any (fun u => u.degree = 0) then none
  else
    let placed := data.foldl (fun (st : (Nat → Nat) × (Nat → VertexSortUnit)) u =>
      let pos := st.1 (u.degree - 1)
      (Function.update st.1 (u.degree - 1) (pos + 1),
        Function.update st.2 (num - pos - 1) u))
      (degreeCounters data high, fun i => data.getD i ⟨0,0⟩)
    some ((List.range num).map placed.2)

/-- The graph after `load`. -/
structure Loaded where
  asUndirected : Bool
  vNum : Nat
  eNum : Nat
  rawEdges : List (Nat × Nat)
  name2id : List Nat
  vertexUnits : List VertexSortUnit
  degreePrefixSum : List Nat

/-- The units that `counting_sort` is given. -/
def unsortedUnits (asUndirected : Bool) (r : Renaming) : List VertexSortUnit :=
  (List.range r.vNum).map (fun v => ⟨v,countDegrees asUndirected r.edges v⟩)

def load (rawEdges : List (Nat × Nat)) (asUndirected : Bool) : Option Loaded :=
  let r := rename rawEdges
  (countingSort (unsortedUnits asUndirected r)).map (fun units =>
    { asUndirected := asUndirected
      vNum := r.vNum
      eNum := if asUndirected then rawEdges.length * 2 else rawEdges.length
      rawEdges := r.edges
      name2id := r.name2id
      vertexUnits := units
      degreePrefixSum := (units.map VertexSortUnit.degree).scanl (· + ·) 0 })

end FlashMob.Graph
