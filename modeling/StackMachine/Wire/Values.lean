import StackMachine.Wire.Basic
import StackMachine.Frame

namespace StackMachine

instance : Wire Kind where
  toJson k := .ofString k.name
  ofJson? j := j.unitVariant?.bind Kind.ofName?

instance : Wire Scalar where
  toJson s := .record [("kind", Wire.toJson s.kind), ("bits", .ofNat s.bits.toNat)]
  ofJson? j :=
    match j.fields? ["kind", "bits"] with
    | some [kind, bits] => do
      let k ← Wire.ofJson? kind
      let n ← bits.natural?
      -- only the low bits count, so that every scalar read is canonical
      if n < UInt64.size then some (Scalar.ofBits k (BitVec.ofNat 64 n)) else none
    | _ => none

instance : Wire Operand where
  toJson
    | .absent => .ofString "Absent"
    | .present s => .tagged "Present" (Wire.toJson s)
  ofJson? j :=
    match j.variant? with
    | some ("Absent", none) => some .absent
    | some ("Absent", some .null) => some .absent
    | some ("Present", some payload) => (Wire.ofJson? payload).map .present
    | _ => none

instance {α : Type} [Wire α] : Wire (List α) where
  toJson items := .array (items.map Wire.toJson)
  ofJson?
    | .array items => items.mapM Wire.ofJson?
    | _ => none

instance : Wire Frame where
  toJson f := .record [("stack", Wire.toJson f.values)]
  ofJson? j :=
    match j.fields? ["stack"] with
    | some [stack] => (Wire.ofJson? stack).map Frame.ofValues
    | _ => none

namespace StaticType

def nestingLimit : Nat := 127

def nesting : StaticType → Nat
  | primitive _ => 0
  | object _ => 1
  | enumeration _ t => t.nesting + 2
  | nullable t => t.nesting + 1

def toJson : StaticType → Json
  | primitive p => .ofString p.name
  | object name => .tagged "Object" (.ofString name)
  | enumeration name t =>
    .tagged "Enum" (.record [("name", .ofString name), ("underlying", t.toJson)])
  | nullable t => .tagged "Nullable" t.toJson

/-- Reads a type from at most `levels` arrays and objects inside each other. -/
def ofJson? : Nat → Json → Option StaticType
  | _, .string glyphs => ((Json.Glyph.string? glyphs).bind Primitive.ofName?).map primitive
  | levels + 1, .object [(key, payload)] =>
    match Json.Glyph.string? key with
    | some "Object" => payload.string?.map object
    | some "Nullable" => (ofJson? levels payload).map nullable
    | some "Enum" =>
      match levels, payload.fields? ["name", "underlying"] with
      | inner + 1, some [name, underlying] => do
        let name ← name.string?
        let t ← ofJson? inner underlying
        return enumeration name t
      | _, _ => none
    | some name =>
      match payload with
      | .null => (Primitive.ofName? name).map primitive
      | _ => none
    | none => none
  | _, _ => none

end StaticType

instance : Wire StaticType where
  toJson := StaticType.toJson
  ofJson? := StaticType.ofJson? StaticType.nestingLimit

end StackMachine
