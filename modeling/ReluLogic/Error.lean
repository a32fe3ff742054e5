/-!
What can go wrong, by cause. Each family of causes has an inductive type of its own; `Error` joins
them, and `Error.message` and `Error.stage` hold all wording. A family that callers report to in
their own words has a constructor `described` for that text.
-/

namespace ReluLogic

/-- The part of the pipeline that an error belongs to. -/
inductive Stage where
  | input
  | decomposition
  | encoding
  | assembly
  deriving Repr, DecidableEq

def Stage.label : Stage → String
  | .input => "input"
  | .decomposition => "decomposition"
  | .encoding => "encoding"
  | .assembly => "assembly"

/-- Why a network, or data that should fit one, is refused. -/
inductive NetworkFault where
  | noLayers
  | emptyLayer (layer : Nat)
  | noInputs
  | weightCount (node layer found expected : Nat)
  | nonFinite (node layer : Nat)
  | emptyRow (layer : Nat)
  | inputLength (found expected : Nat)
  | prototypeDimensions
  | pieceDimensions
  | translatorInputs (expected found : Nat)
  | described (text : String)
  deriving Repr, DecidableEq

def NetworkFault.message : NetworkFault → String
  | .noLayers => "network has no layers"
  | .emptyLayer layer => s!"layer {layer} has no nodes"
  | .noInputs => "layer 0 nodes have no input weights"
  | .weightCount node layer found expected =>
    s!"node {node} of layer {layer} has {found} weights, expected {expected}"
  | .nonFinite node layer => s!"node {node} of layer {layer} has a non-finite coefficient"
  | .emptyRow layer => s!"empty node row in layer {layer}"
  | .inputLength found expected => s!"input has {found} values, network expects {expected}"
  | .prototypeDimensions => "boundary prototypes disagree on dimension"
  | .pieceDimensions => "linear pieces disagree with the prototype dimension"
  | .translatorInputs expected found => s!"translator expects {expected} inputs, got {found}"
  | .described text => text

/-- Where the search met a region that the oracle reports as empty. -/
inductive SearchFault where
  | emptyGateRegion
  | emptyBox
  | emptyPieceRegion (piece : Nat)
  | described (text : String)
  deriving Repr, DecidableEq

def SearchFault.message : SearchFault → String
  | .emptyGateRegion => "gate classified against an empty region"
  | .emptyBox => "the unconstrained input box is empty"
  | .emptyPieceRegion piece => s!"piece {piece} has an empty region"
  | .described text => text

/-- Why a linear program has no answer. -/
inductive SolverFault where
  | noConstantTerm
  | lengthMismatch (constraint objective : Nat)
  | unbounded
  | pivotsExhausted (budget : Nat)
  | described (text : String)
  deriving Repr, DecidableEq

def SolverFault.message : SolverFault → String
  | .noConstantTerm => "objective without constant term"
  | .lengthMismatch constraint objective =>
    s!"constraint over {constraint} coefficients, objective over {objective}"
  | .unbounded => "unbounded objective over the unit box"
  | .pivotsExhausted budget => s!"no optimum after {budget} pivots"
  | .described text => text

/-- Why coefficients or formulas have no encoding. -/
inductive EncodingFault where
  | zeroDenominatorConstant
  | undefinedConstant (denominator : Nat)
  | exceedsOne (numerator denominator : Nat)
  | zeroDenominator
  | sumOverflow
  | scaleOutOfRange (scale : Int)
  | denominatorOverflow (denominator scale : Nat)
  | inputOutOfRange (input : Nat)
  | coefficientCount (found expected : Nat)
  | tableSize (found expected : Nat)
  | formulaCount (formulas pieces : Nat)
  | described (text : String)
  deriving Repr, DecidableEq

def EncodingFault.message : EncodingFault → String
  | .zeroDenominatorConstant => "constant with zero denominator"
  | .undefinedConstant denominator => s!"constant 1/{denominator} used before definition"
  | .exceedsOne numerator denominator => s!"fraction {numerator}/{denominator} exceeds one"
  | .zeroDenominator => "coefficient with zero denominator"
  | .sumOverflow => "coefficient sum overflows the scale computation"
  | .scaleOutOfRange scale => s!"scale {scale} out of range"
  | .denominatorOverflow denominator scale => s!"scaled denominator {denominator}·{scale} overflows"
  | .inputOutOfRange input => s!"input {input} out of variable range"
  | .coefficientCount found expected => s!"piece has {found} coefficients, expected {expected}"
  | .tableSize found expected => s!"domination table covers {found} pieces, expected {expected}"
  | .formulaCount formulas pieces => s!"{formulas} formulas for {pieces} pieces"
  | .described text => text

/-- How the variable counter is misused. -/
inductive AllocatorFault where
  | jumpBack (current target : Nat)
  | shiftOutOfRange (index shift : Nat)
  | described (text : String)
  deriving Repr, DecidableEq

def AllocatorFault.message : AllocatorFault → String
  | .jumpBack current target => s!"cannot jump back from variable {current} to {target}"
  | .shiftOutOfRange index shift =>
    s!"variable {index} shifted by {shift} leaves the variable range"
  | .described text => text

/-- What is wrong with a line of a dump. -/
inductive ParseFault where
  | emptyInput
  | trailingLine
  | unknownHeader
  | unrecognizedLine (line : String)
  | invalidCoefficient (token : String)
  | emptyPrototype
  | invalidReference (text : String)
  | danglingReference (reference : Nat)
  | constraintBeforePiece
  | unpairedCoefficients
  | invalidInteger (token : String)
  | nonPositiveDenominator
  | described (text : String)
  deriving Repr, DecidableEq

def ParseFault.message : ParseFault → String
  | .emptyInput => "empty input"
  | .trailingLine => "unexpected line after tl instance"
  | .unknownHeader => "expected \x60tl\x60 or \x60pwl\x60 header"
  | .unrecognizedLine line => s!"unrecognized line \x60{line}\x60"
  | .invalidCoefficient token => s!"invalid coefficient \x60{token}\x60"
  | .emptyPrototype => "empty boundary prototype"
  | .invalidReference text => s!"invalid prototype reference \x60{text}\x60"
  | .danglingReference reference => s!"nonexistent boundary prototype {reference}"
  | .constraintBeforePiece => "constraint before any piece"
  | .unpairedCoefficients => "expected numerator/denominator pairs"
  | .invalidInteger token => s!"invalid integer \x60{token}\x60"
  | .nonPositiveDenominator => "fraction denominator must be positive"
  | .described text => text

/-- An error of the pipeline with its cause. -/
inductive Error where
  | malformedNetwork (fault : NetworkFault)
  | unknownOutput (index available : Nat)
  | infeasibleSearch (fault : SearchFault)
  | invalidBoundary (index count : Nat)
  | solver (fault : SolverFault)
  | latticeViolation (first second : Nat)
  | encoding (fault : EncodingFault)
  | allocator (fault : AllocatorFault)
  | parse (line : Nat) (fault : ParseFault)
  | workers (reason : String)
  deriving Repr, DecidableEq

namespace Error

def message : Error → String
  | .malformedNetwork fault => s!"malformed network: {fault.message}"
  | .unknownOutput index available =>
    s!"output index {index} not available (network has {available} outputs)"
  | .infeasibleSearch fault => s!"region decomposition reached an infeasible state: {fault.message}"
  | .invalidBoundary index count => s!"boundary reference {index} out of range ({count} prototypes)"
  | .solver fault => s!"linear program failed: {fault.message}"
  | .latticeViolation first second => s!"lattice covering fails for pieces {first} and {second}"
  | .encoding fault => s!"encoding failed: {fault.message}"
  | .allocator fault => s!"variable allocator: {fault.message}"
  | .parse line fault => s!"pwl format error at line {line}: {fault.message}"
  | .workers reason => s!"worker pool: {reason}"

def stage : Error → Stage
  | .malformedNetwork _ | .unknownOutput _ _ | .parse _ _ | .workers _ => .input
  | .infeasibleSearch _ | .invalidBoundary _ _ | .solver _ => .decomposition
  | .encoding _ | .allocator _ => .encoding
  | .latticeViolation _ _ => .assembly

end Error

end ReluLogic
