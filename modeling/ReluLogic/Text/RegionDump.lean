import ReluLogic.Decimal.Real
import ReluLogic.Text.Words
import ReluLogic.Translation

/-!
The text of region dumps. The `pwl` text has a line `b` with the coefficients of each prototype, then for
each piece a line `p` with its fractions and a line `g` or `l` for each boundary, naming its prototype from
one on. The `tl` text has a single line of fractions. Blank lines and lines that start with `c` are passed
over; lines are read one by one, and the dimensions of a dump are compared at the end.
-/

namespace ReluLogic

variable {α : Type} [Scalar α] [RealText α]

namespace Affine

def line (form : Affine α) : List Char :=
  'b' :: form.coefficients.flatMap (fun c => ' ' :: RealText.write c) ++ ['\n']

end Affine

namespace Fraction

/-- The numerator and the denominator, each behind a blank. -/
def fields (fraction : Fraction) : List Char :=
  ' ' :: Numeral.ofInt fraction.num ++ ' ' :: Numeral.ofInt fraction.den

end Fraction

def Sign.tag : Sign → Char
  | .geq => 'g'
  | .leq => 'l'

def Boundary.line (boundary : Boundary) : List Char :=
  boundary.sign.tag :: ' ' :: Numeral.ofNat (boundary.index + 1) ++ ['\n']

/-- The lines of a piece, with an empty line before them. -/
def Piece.lines (piece : Piece) : List Char :=
  '\n' :: 'p' :: piece.coefficients.flatMap Fraction.fields ++
    '\n' :: piece.region.flatMap Boundary.line

def RegionDump.text (dump : RegionDump α) : List Char :=
  "pwl\n\n".toList ++ dump.prototypes.flatMap Affine.line ++ dump.pieces.flatMap Piece.lines

/-- What a text holds. -/
inductive Instance (α : Type) where
  /-- The coefficients of a single affine piece without a region. -/
  | truncatedLinear (coefficients : List Fraction)
  | regions (dump : RegionDump α)
  deriving Repr, DecidableEq

namespace Instance

/-- A line and its number in the text, counted from one. -/
abbrev NumberedLine := Nat × List Char

/-- The lines that carry data, without blanks at their ends. -/
def dataLines (text : List Char) : List NumberedLine :=
  (((Text.lines text).zipIdx 1).map fun (line, number) => (number, Text.trimEnd line)).filter
    fun (_, line) => !line.isEmpty && line.head? != some 'c'

/-- An integer of a fraction. -/
def readInteger (number : Nat) (token : List Char) : Except Error Int :=
  match Numeral.signed64? token with
  | some value => pure value
  | none => throw (.parse number (.invalidInteger (String.ofList token)))

/-- Fractions from tokens that are paired up. -/
def readPairs (number : Nat) : List (List Char) → Except Error (List Fraction)
  | numerator :: denominator :: rest => do
    let num ← readInteger number numerator
    let den ← readInteger number denominator
    if den < 1 then throw (.parse number .nonPositiveDenominator)
    else
      let others ← readPairs number rest
      pure (Fraction.make num den :: others)
  | _ => pure []

/-- Numerators and denominators in turn; there is at least one pair, and each is brought to lowest
terms. -/
def readFractions (number : Nat) (text : List Char) : Except Error (List Fraction) :=
  let tokens := Text.words text
  if tokens.isEmpty ∨ tokens.length % 2 ≠ 0 then throw (.parse number .unpairedCoefficients)
  else readPairs number tokens

def readCoefficient (number : Nat) (token : List Char) : Except Error α :=
  match RealText.read? token with
  | some value => pure value
  | none => throw (.parse number (.invalidCoefficient (String.ofList token)))

def addPrototype (number : Nat) (dump : RegionDump α) (text : List Char) :
    Except Error (RegionDump α) := do
  let coefficients ← (Text.words text).mapM (readCoefficient number)
  if coefficients.isEmpty then throw (.parse number .emptyPrototype)
  else pure { dump with prototypes := dump.prototypes ++ [⟨coefficients⟩] }

/-- The dump with the piece of a line, as yet without boundaries. -/
def addPiece (number : Nat) (dump : RegionDump α) (text : List Char) :
    Except Error (RegionDump α) := do
  let coefficients ← readFractions number text
  pure { dump with pieces := dump.pieces ++ [⟨coefficients, []⟩] }

/-- Pieces with a boundary put behind those of the last one, if there is one. -/
def extendLast (boundary : Boundary) : List Piece → Option (List Piece)
  | [] => none
  | [piece] => some [{ piece with region := piece.region ++ [boundary] }]
  | piece :: rest => (extendLast boundary rest).map (piece :: ·)

/-- The dump with the boundary of a line. Only prototypes that were read before can be named. -/
def addBoundary (number : Nat) (dump : RegionDump α) (sign : Sign) (text : List Char) :
    Except Error (RegionDump α) :=
  match Numeral.unsigned64? (Text.trim text) with
  | none => throw (.parse number (.invalidReference (String.ofList text)))
  | some reference =>
    if reference = 0 ∨ dump.prototypes.length < reference then
      throw (.parse number (.danglingReference reference))
    else
      match extendLast ⟨reference - 1, sign⟩ dump.pieces with
      | some pieces => pure { dump with pieces }
      | none => throw (.parse number .constraintBeforePiece)

/-- The dump with what a line says. -/
def addLine (dump : RegionDump α) (numbered : NumberedLine) : Except Error (RegionDump α) :=
  let (number, line) := numbered
  match Text.splitFirst ' ' line with
  | some (['b'], rest) => addPrototype number dump rest
  | some (['p'], rest) => addPiece number dump rest
  | some (['g'], rest) => addBoundary number dump .geq rest
  | some (['l'], rest) => addBoundary number dump .leq rest
  | _ => throw (.parse number (.unrecognizedLine (String.ofList line)))

/-- All prototypes and pieces have the same number of inputs. -/
def checkDimensions (dump : RegionDump α) : Except Error Unit :=
  match dump.dim? with
  | none => pure ()
  | some dim =>
    if dump.prototypes.any (·.dim != dim) then throw (.malformedNetwork .prototypeDimensions)
    else if dump.pieces.any (·.dim != dim) then throw (.malformedNetwork .pieceDimensions)
    else pure ()

/-- The instance that a text holds. -/
def parse (text : List Char) : Except Error (Instance α) :=
  match dataLines text with
  | [] => throw (.parse 0 .emptyInput)
  | (number, header) :: rest =>
    if "tl ".toList.isPrefixOf header then do
      let coefficients ← readFractions number (header.drop 3)
      match rest with
      | (extra, _) :: _ => throw (.parse extra .trailingLine)
      | [] => pure (.truncatedLinear coefficients)
    else if "pwl".toList.isPrefixOf header then do
      let dump ← rest.foldlM addLine ⟨[], []⟩
      checkDimensions dump
      pure (.regions dump)
    else
      throw (.parse number .unknownHeader)

end Instance

end ReluLogic
