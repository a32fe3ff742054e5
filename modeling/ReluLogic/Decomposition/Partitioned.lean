import ReluLogic.Decomposition.Search

/-!
The search in independent partitions. The signs of the first few cut gates of the first layer are fixed
in every possible way, each way is searched on its own from a copy of the first layer's prototypes, and
the results are merged. The first cut gate takes the highest bit of a partition's number, so partitions
come in the order in which one search would reach them.
-/

namespace ReluLogic

/-- Gates resolved by fixed signs: the values behind them, the boundaries of the signs, and the gates
that are left. -/
structure Assignment (α : Type) where
  values : List (Affine α)
  region : List Boundary
  rest : List (Gate α)
  deriving Repr, DecidableEq

/-- Gates resolved in order until the signs are used up; only cut gates take a sign. -/
def Assignment.ofSigns {α : Type} [Scalar α] : List Sign → List (Gate α) → Assignment α
  | [], gates => ⟨[], [], gates⟩
  | _, [] => ⟨[], [], []⟩
  | sign :: signs, gate :: gates =>
    match gate.position with
    | .over =>
      let others := ofSigns (sign :: signs) gates
      { others with values := gate.output .geq :: others.values }
    | .under =>
      let others := ofSigns (sign :: signs) gates
      { others with values := gate.output .leq :: others.values }
    | .cutting =>
      let others := ofSigns signs gates
      { others with
        values := gate.output sign :: others.values
        region := gate.boundary sign :: others.region }

/-- The signs of partition `number` among `2 ^ count`: a bit of zero keeps a gate open. -/
def partitionSigns (count number : Nat) : List Sign :=
  (List.range count).map fun place =>
    if number.testBit (count - 1 - place) then .leq else .geq

namespace Search

variable {α : Type} [Scalar α]

/-- The partition in which the first cut gates have the given signs. `layer` is the second layer and
`rest` are those behind it. -/
def partition (search : Search α) (layer : Layer α) (rest : List (Layer α))
    (base : List (Affine α)) (gates : List (Gate α)) (signs : List Sign) :
    Except Error (Partition α) := do
  let assignment := Assignment.ofSigns signs gates
  let start : Partition α := .start base search.outputs.length
  if ← search.isFeasible base assignment.region then
    search.branch
      (fun values narrowed found =>
        search.descend rest (layer.map (compose search.dim values)) narrowed found)
      assignment.rest assignment.values assignment.region start
  else
    pure start

/-- The merged result of all partitions that up to `threads` workers can share. -/
def partitioned (search : Search α) (threads : Nat) (layer : Layer α) (rest : List (Layer α))
    (base : List (Affine α)) : Except Error (Decomposition α) := do
  let gates ← search.classify base base [] 0
  let fixed := min threads.log2 (gates.countP Gate.isCut)
  let found ← (List.range (1 <<< fixed)).mapM fun number =>
    search.partition layer rest base gates (partitionSigns fixed number)
  pure (mergePartitions base found search.outputs)

end Search

namespace Network

variable {α : Type} [Scalar α]

/-- The decomposition of a network for the requested outputs, searched in as many partitions as a number
of threads allows. One thread, or a network of one layer, is searched in one go. -/
def decomposeParallel (network : Network α) (oracle : Oracle α) (outputs : List Nat)
    (threads : Nat) : Except Error (Decomposition α) := do
  let outputs ← network.requestedOutputs outputs
  match network.layers with
  | _ :: layer :: rest =>
    if threads < 2 then network.decomposeOutputs oracle outputs
    else do
      let search := network.search oracle outputs
      search.ensureBox
      search.partitioned threads layer rest network.firstForms
  | _ => network.decomposeOutputs oracle outputs

end Network

end ReluLogic
