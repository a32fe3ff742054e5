import ReluLogic.Formula.Modsat
import ReluLogic.Text.Numeral

/-!
The text of formulas and of whole translations. A formula has one line per subformula, numbered from
one, with the kind padded to eleven characters; a set of definitions has a heading per formula; the
`limodsat` text of a translation has the joined formula and then the definitions of each piece.
-/

namespace ReluLogic

/-- A kind tag, padded with blanks to eleven characters. -/
def kindField (label : String) : List Char :=
  label.toList ++ List.replicate (11 - label.length) ' '

namespace Subformula

/-- The operands of a subformula; each literal of a clause has a blank behind it. -/
def operandText : Subformula → List Char
  | .clause literals => literals.flatMap fun literal => Numeral.ofInt literal ++ [' ']
  | .negation operand => Numeral.ofNat (operand + 1)
  | .binary _ left right => Numeral.ofNat (left + 1) ++ ' ' :: Numeral.ofNat (right + 1)

def kind : Subformula → String
  | .clause _ => "Clause"
  | .negation _ => "Negation"
  | .binary connective _ _ => connective.label

/-- The line of the subformula at place `index`. -/
def line (unit : Subformula) (index : Nat) : List Char :=
  "Unit ".toList ++ Numeral.ofNat (index + 1) ++ " :: ".toList ++ kindField unit.kind ++
    " :: ".toList ++ unit.operandText ++ ['\n']

end Subformula

namespace Formula

/-- The lines of subformulas from place `index` on. -/
def linesFrom : Nat → List Subformula → List Char
  | _, [] => []
  | index, unit :: rest => unit.line index ++ linesFrom (index + 1) rest

def text (formula : Formula) : List Char :=
  linesFrom 0 formula.units

end Formula

namespace Modsat

/-- The blocks of defining formulas from number `index` on. -/
def blocksFrom : Nat → List Formula → List Char
  | _, [] => []
  | index, formula :: rest =>
    "Formula ".toList ++ Numeral.ofNat (index + 1) ++ ":\n".toList ++ formula.text ++
      blocksFrom (index + 1) rest

def definingText (modsat : Modsat) : List Char :=
  blocksFrom 0 modsat.defining

/-- The text of a formula with its definitions. -/
def text (modsat : Modsat) : List Char :=
  "-= Formula phi =-\n\n".toList ++ modsat.phi.text ++ "\n-= MODSAT Set Phi =-\n\n".toList ++
    modsat.definingText

end Modsat

/-- A joined formula, the largest variable in use, and the encoding of each piece. -/
structure Limodsat where
  lattice : Formula
  maxVariable : Nat
  pieces : List Modsat
  deriving Repr, DecidableEq

namespace Limodsat

/-- The definitions of pieces from number `index` on. -/
def piecesFrom : Nat → List Modsat → List Char
  | _, [] => []
  | index, modsat :: rest =>
    "\n-= Linear Piece ".toList ++ Numeral.ofNat (index + 1) ++ " =-\n".toList ++
      modsat.definingText ++ piecesFrom (index + 1) rest

def text (limodsat : Limodsat) : List Char :=
  "-= Formula phi =- MAXVAR ".toList ++ Numeral.ofNat limodsat.maxVariable ++ "\n\n".toList ++
    limodsat.lattice.text ++ "\n-= MODSAT Set Phi =-\n".toList ++ piecesFrom 0 limodsat.pieces

end Limodsat

end ReluLogic
