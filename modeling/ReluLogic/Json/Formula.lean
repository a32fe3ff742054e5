import ReluLogic.Allocator
import ReluLogic.Formula.Modsat
import ReluLogic.Json.Basic

/-!
Formulas, their definitions and allocators in interchange form. References between subformulas count from
zero and are kept as they are, also when they lead nowhere.
-/

namespace ReluLogic

namespace Connective

/-- The name of a connective in interchange form. -/
def name : Connective → String
  | .strongDisjunction => "StrongDisjunction"
  | .strongConjunction => "StrongConjunction"
  | .equivalence => "Equivalence"
  | .implication => "Implication"
  | .maximum => "Maximum"
  | .minimum => "Minimum"

def all : List Connective :=
  [.strongDisjunction, .strongConjunction, .equivalence, .implication, .maximum, .minimum]

def ofName? (name : String) : Option Connective :=
  all.find? (·.name == name)

def ofJson? (json : Json) : Option Connective := do
  ofName? (← json.choice?)

end Connective

namespace Subformula

/-- A subformula as an object of one field, named for its kind. -/
def toJson : Subformula → Json
  | .clause literals => .obj [("Clause", .ofList .int literals)]
  | .negation operand => .obj [("Negation", .ofNat operand)]
  | .binary connective left right =>
    .obj [("Binary", .obj [
      ("connective", .str connective.name), ("left", .ofNat left), ("right", .ofNat right)])]

def ofJson? : Json → Option Subformula
  | .obj [("Clause", literals)] => (literals.list? Json.int64?).map .clause
  | .obj [("Negation", operand)] => operand.nat64?.map .negation
  | .obj [("Binary", operands)] => do
    pure (.binary (← operands.required? Connective.ofJson? "connective")
      (← operands.required? Json.nat64? "left") (← operands.required? Json.nat64? "right"))
  | _ => none

end Subformula

namespace Formula

/-- A formula as an object with its units. -/
def toJson (formula : Formula) : Json :=
  .obj [("units", .ofList Subformula.toJson formula.units)]

def ofJson? (json : Json) : Option Formula := do
  pure ⟨← json.required? (Json.list? Subformula.ofJson?) "units"⟩

end Formula

namespace Modsat

/-- A formula with its definitions as an object. -/
def toJson (modsat : Modsat) : Json :=
  .obj [("phi", modsat.phi.toJson), ("defining", .ofList Formula.toJson modsat.defining)]

def ofJson? (json : Json) : Option Modsat := do
  pure ⟨← json.required? Formula.ofJson? "phi",
    ← json.required? (Json.list? Formula.ofJson?) "defining"⟩

end Modsat

namespace Memo

/-- A memo as an object with the denominators as field names. -/
def toJson (memo : Memo) : Json :=
  .obj (memo.entries.map fun (denominator, index) =>
    (String.ofList (Numeral.ofNat denominator), .ofNat index))

/-- The denominator of a field name: a 64-bit number without sign or leading zeros. -/
def denominator? (name : String) : Option Nat := do
  let value ← Numeral.unsigned64? name.toList
  if Numeral.ofNat value = name.toList then some value else none

/-- Reads a memo; of two entries with one denominator the later one counts. -/
def ofJson? (json : Json) : Option Memo := do
  (← json.fields?).foldlM (fun memo (name, value) => do
    pure (memo.insert (← denominator? name) (← value.nat32?))) empty

end Memo

namespace Allocator

def toJson (allocator : Allocator) : Json :=
  .obj [
    ("counter", .ofNat allocator.counter),
    ("zero", .ofOption .ofNat allocator.zero),
    ("constants", allocator.constants.toJson),
    ("aux_multipliers", allocator.auxMultipliers.toJson)]

/-- Reads an allocator. Only the zero variable may be missing. -/
def ofJson? (json : Json) : Option Allocator := do
  pure {
    counter := ← json.required? Json.nat32? "counter"
    zero := ← json.defaulted? (Json.nullable? Json.nat32?) "zero" none
    constants := ← json.required? Memo.ofJson? "constants"
    auxMultipliers := ← json.required? Memo.ofJson? "aux_multipliers" }

end Allocator

end ReluLogic
