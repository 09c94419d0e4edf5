namespace StackMachine

theorem find?_name_eq_some_iff {α : Type} {all : List α} {name : α → String}
    (hall : ∀ a, all.find? (fun b => name b == name a) = some a) {text : String} {a : α} :
    all.find? (fun b => name b == text) = some a ↔ text = name a := by
  constructor
  · intro h
    have ha := List.find?_some h
    exact (eq_of_beq ha).symm
  · rintro rfl
    exact hall a

inductive Kind where
  | int8
  | uint8
  | int16
  | uint16
  | int32
  | uint32
  | int64
  | uint64
  deriving DecidableEq

namespace Kind

def all : List Kind :=
  [int8, uint8, int16, uint16, int32, uint32, int64, uint64]

abbrev count : Nat := 8

theorem length_all : all.length = count := rfl

theorem mem_all (k : Kind) : k ∈ all := by
  cases k <;> decide

def index : Kind → Fin count
  | int8 => 0
  | uint8 => 1
  | int16 => 2
  | uint16 => 3
  | int32 => 4
  | uint32 => 5
  | int64 => 6
  | uint64 => 7

theorem all_index (k : Kind) : all[k.index]? = some k := by
  cases k <;> rfl

theorem index_inj {j k : Kind} : j.index = k.index ↔ j = k := by
  cases j <;> cases k <;> decide

def width : Kind → Nat
  | int8 | uint8 => 8
  | int16 | uint16 => 16
  | int32 | uint32 => 32
  | int64 | uint64 => 64

def promotionWidth : Kind → Nat
  | int64 | uint64 => 64
  | _ => 32

theorem width_pos (k : Kind) : 0 < k.width := by
  cases k <;> decide

theorem width_le_promotionWidth (k : Kind) : k.width ≤ k.promotionWidth := by
  cases k <;> decide

theorem promotionWidth_le (k : Kind) : k.promotionWidth ≤ 64 := by
  cases k <;> decide

theorem width_le (k : Kind) : k.width ≤ 64 :=
  Nat.le_trans k.width_le_promotionWidth k.promotionWidth_le

def signed : Kind → Bool
  | int8 | int16 | int32 | int64 => true
  | uint8 | uint16 | uint32 | uint64 => false

def name : Kind → String
  | int8 => "Int8"
  | uint8 => "UInt8"
  | int16 => "Int16"
  | uint16 => "UInt16"
  | int32 => "Int32"
  | uint32 => "UInt32"
  | int64 => "Int64"
  | uint64 => "UInt64"

def ofName? (text : String) : Option Kind :=
  all.find? (fun k => k.name == text)

theorem ofName?_name (k : Kind) : ofName? k.name = some k := by
  cases k <;> decide

theorem ofName?_eq_some_iff {text : String} {k : Kind} : ofName? text = some k ↔ text = k.name :=
  find?_name_eq_some_iff ofName?_name

theorem name_inj {j k : Kind} : j.name = k.name ↔ j = k := by
  rw [← ofName?_eq_some_iff, ofName?_name, Option.some.injEq]

end Kind

end StackMachine
