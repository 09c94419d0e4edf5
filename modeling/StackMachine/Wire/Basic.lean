import StackMachine.Json.Basic

/-!
The JSON form of values. A variant is its name, or an object whose only key is its name and whose
only value is its payload. A record is an object with its fields, or an array of them.
-/

namespace StackMachine

namespace Json

def ofString (text : String) : Json :=
  string (Glyph.ofString text)

def ofNat (n : Nat) : Json :=
  number (Nat.toDigits 10 n)

def tagged (name : String) (payload : Json) : Json :=
  object [(Glyph.ofString name, payload)]

def record (fields : List (String × Json)) : Json :=
  object (fields.map (fun (name, value) => (Glyph.ofString name, value)))

def string? : Json → Option String
  | string glyphs => Glyph.string? glyphs
  | _ => none

def natural? : Json → Option Nat
  | number numeral => Numeral.natural? numeral
  | _ => none

def variant? : Json → Option (String × Option Json)
  | string glyphs => (Glyph.string? glyphs).map (fun name => (name, none))
  | object [(key, payload)] => (Glyph.string? key).map (fun name => (name, some payload))
  | _ => none

def unitVariant? (j : Json) : Option String :=
  match j.variant? with
  | some (name, none) => some name
  | some (name, some null) => some name
  | _ => none

def named? (members : List (List Glyph × Json)) : Option (List (String × Json)) :=
  members.mapM (fun (key, value) => (Glyph.string? key).map (fun name => (name, value)))

def only? (members : List (String × Json)) (name : String) : Option Json :=
  match members.filter (fun m => m.1 == name) with
  | [(_, value)] => some value
  | _ => none

/-- The fields of a record, in the order of their names. Members with other names are ignored. -/
def fields? (names : List String) : Json → Option (List Json)
  | array items => if items.length = names.length then some items else none
  | object members => do
    let members ← named? members
    names.mapM (only? members)
  | _ => none

end Json

class Wire (α : Type) where
  toJson : α → Json
  ofJson? : Json → Option α

namespace Wire

variable {α : Type} [Wire α]

def encode (a : α) : String :=
  String.ofList (toJson a).render

def decode? (text : String) : Option α :=
  (Json.parse? text.toList).bind ofJson?

end Wire

end StackMachine
