import ReluLogic.Decimal.Real

/-!
Data in interchange form. A value keeps integers apart from other numbers: an integer is accepted where a
real number is asked for, but not the other way round. Readers give no value where the shape or the range
does not fit; fields that are not asked for are passed over.
-/

namespace ReluLogic

/-- A value in interchange form. -/
inductive Json where
  | null
  | bool (value : Bool)
  | int (value : Int)
  | real (value : Float)
  | str (value : String)
  | arr (items : List Json)
  | obj (fields : List (String × Json))

namespace Json

/-- The value of a numeral. Integers of 64 bits, signed or not, are kept as such; negative zero and all
other numbers are real. -/
def ofNumeral? (token : List Char) : Option Json :=
  match Numeral.unsigned64? token, Numeral.signed64? token with
  | some value, _ => some (.int value)
  | none, some value =>
    if value = 0 then (RealText.read? token).map .real else some (.int value)
  | none, none => (RealText.read? token).map .real

def fields? : Json → Option (List (String × Json))
  | .obj fields => some fields
  | _ => none

def field? (json : Json) (name : String) : Option Json := do
  ((← json.fields?).find? (·.1 == name)).map (·.2)

def items? : Json → Option (List Json)
  | .arr items => some items
  | _ => none

/-- A list whose items are read one by one. -/
def list? {β : Type} (read? : Json → Option β) (json : Json) : Option (List β) := do
  (← json.items?).mapM read?

/-- A field that has to be there. -/
def required? {β : Type} (read? : Json → Option β) (json : Json) (name : String) : Option β := do
  read? (← json.field? name)

/-- A field that takes a default when it is missing. -/
def defaulted? {β : Type} (read? : Json → Option β) (json : Json) (name : String) (default : β) :
    Option β :=
  match json.field? name with
  | none => some default
  | some value => read? value

/-- A value or null. -/
def nullable? {β : Type} (read? : Json → Option β) : Json → Option (Option β)
  | .null => some none
  | json => (read? json).map some

def bool? : Json → Option Bool
  | .bool value => some value
  | _ => none

def natUpTo? (bound : Nat) : Json → Option Nat
  | .int value => if 0 ≤ value ∧ value ≤ bound then some value.toNat else none
  | _ => none

def nat32? : Json → Option Nat := natUpTo? 0xffffffff

def nat64? : Json → Option Nat := natUpTo? unsigned64Max

def int64? : Json → Option Int
  | .int value => if int64Min ≤ value ∧ value ≤ int64Max then some value else none
  | _ => none

def float? : Json → Option Float
  | .int value => some (Float.ofInt value)
  | .real value => some value
  | _ => none

def string? : Json → Option String
  | .str value => some value
  | _ => none

/-- The name of a choice without data: a text, or an object of one field that holds null. -/
def choice? : Json → Option String
  | .str name => some name
  | .obj [(name, .null)] => some name
  | _ => none

def ofNat (value : Nat) : Json := .int value

def ofList {β : Type} (write : β → Json) (items : List β) : Json := .arr (items.map write)

/-- A value or null. -/
def ofOption {β : Type} (write : β → Json) : Option β → Json
  | none => .null
  | some value => write value

def ofText (text : List Char) : Json := .str (String.ofList text)

end Json

end ReluLogic
