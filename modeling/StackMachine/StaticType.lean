import StackMachine.Kind

namespace StackMachine

inductive Primitive where
  | integer (kind : Kind)
  | bool
  | char
  | float32
  | float64
  | decimal
  | string
  deriving DecidableEq

namespace Primitive

def all : List Primitive :=
  Kind.all.map integer ++ [bool, char, float32, float64, decimal, string]

theorem mem_all (p : Primitive) : p ∈ all := by
  cases p with
  | integer k => cases k <;> decide
  | _ => decide

def name : Primitive → String
  | integer k => k.name
  | bool => "Bool"
  | char => "Char"
  | float32 => "Float32"
  | float64 => "Float64"
  | decimal => "Decimal"
  | string => "String"

def ofName? (text : String) : Option Primitive :=
  all.find? (fun p => p.name == text)

theorem ofName?_name (p : Primitive) : ofName? p.name = some p := by
  cases p with
  | integer k => cases k <;> decide
  | _ => decide

theorem ofName?_eq_some_iff {text : String} {p : Primitive} : ofName? text = some p ↔ text = p.name :=
  find?_name_eq_some_iff ofName?_name

end Primitive

inductive StaticType where
  | primitive (base : Primitive)
  | object (name : String)
  | enumeration (name : String) (underlying : StaticType)
  | nullable (inner : StaticType)
  deriving DecidableEq

namespace StaticType

def ofKind (k : Kind) : StaticType :=
  primitive (.integer k)

def isNullable : StaticType → Bool
  | nullable _ => true
  | _ => false

def nonNullable : StaticType → StaticType
  | nullable t => t
  | t => t

def core : StaticType → StaticType
  | enumeration _ t => t.core
  | nullable t => t.core
  | t => t

def numericKind? : StaticType → Option Kind
  | primitive (.integer k) => some k
  | enumeration _ t => t.numericKind?
  | nullable t => t.numericKind?
  | _ => none

theorem numericKind?_ofKind (k : Kind) : (ofKind k).numericKind? = some k := rfl

def display : StaticType → String
  | primitive p => p.name
  | object name => name
  | enumeration name t => "enum " ++ name ++ " : " ++ t.display
  | nullable t => "Nullable<" ++ t.display ++ ">"

end StaticType

end StackMachine
