import StackMachine.Scalar
import StackMachine.StaticType

namespace StackMachine

inductive Operand where
  | absent
  | present (scalar : Scalar)
  deriving DecidableEq

namespace Operand

def scalar? : Operand → Option Scalar
  | absent => none
  | present s => some s

def kind? (v : Operand) : Option Kind :=
  v.scalar?.map Scalar.kind

def isAbsent : Operand → Bool
  | absent => true
  | present _ => false

def ofOption : Option Scalar → Operand
  | none => absent
  | some s => present s

theorem scalar?_ofOption (s : Option Scalar) : (ofOption s).scalar? = s := by
  cases s <;> rfl

def ofInt (k : Kind) (x : Int) : Operand :=
  present (Scalar.ofInt k x)

def display : Operand → String
  | absent => "null"
  | present s => s.display

def shiftRight (k : Kind) : Operand → Operand → Operand
  | present v, present c => present (Scalar.shiftRight k v c.shiftCount)
  | _, _ => absent

theorem shiftRight_eq_absent_iff (k : Kind) (v c : Operand) :
    shiftRight k v c = absent ↔ v = absent ∨ c = absent := by
  cases v <;> cases c <;> simp [shiftRight]

end Operand

inductive Fault where
  | unsupported (operator : String) (type : StaticType)
  | underflow (instruction : String) (needed available : Nat)
  deriving DecidableEq

def Fault.message : Fault → String
  | unsupported operator type =>
    "The expression '" ++ operator ++ "' is not supported for type '" ++ type.display ++ "'"
  | underflow instruction needed available =>
    "Stack underflow in " ++ instruction ++ ": needed " ++ needed.repr ++ " operand(s), " ++
      available.repr ++ " available"

inductive Event where
  | published (kind : Kind)
  | unresolved (operator : String) (type : StaticType)
  | executed (index : Nat) (name : String) (delta : Int) (depth : Nat)
  deriving DecidableEq

namespace Event

def level : Event → String
  | published _ | unresolved _ _ => "DEBUG"
  | executed _ _ _ _ => "TRACE"

def signedNumeral (x : Int) : String :=
  if 0 ≤ x then "+" ++ Int.repr x else Int.repr x

def column (width n : Nat) : String :=
  let digits := Nat.toDigits 10 n
  String.ofList (List.replicate (width - digits.length) ' ' ++ digits)

def message : Event → String
  | published k => "publishing cached instance for " ++ k.name
  | unresolved operator type => operator ++ " has no implementation for type " ++ type.display
  | executed index name delta depth =>
    column 4 index ++ ": " ++ name ++ " -> " ++ signedNumeral delta ++ " (depth " ++ depth.repr ++ ")"

def line (e : Event) : String :=
  e.level ++ " " ++ e.message

end Event

/-- The operand stack that instructions work on, top operand first. -/
structure Frame where
  operands : List Operand
  deriving DecidableEq

namespace Frame

def empty : Frame := ⟨[]⟩

def values (f : Frame) : List Operand :=
  f.operands.reverse

def ofValues (vs : List Operand) : Frame :=
  ⟨vs.reverse⟩

@[simp] theorem values_ofValues (vs : List Operand) : (ofValues vs).values = vs := by
  simp [values, ofValues]

@[simp] theorem ofValues_values (f : Frame) : ofValues f.values = f := by
  simp [values, ofValues]

def depth (f : Frame) : Nat :=
  f.operands.length

theorem length_values (f : Frame) : f.values.length = f.depth := by
  simp [values, depth]

def push (f : Frame) (v : Operand) : Frame :=
  ⟨v :: f.operands⟩

theorem depth_push (f : Frame) (v : Operand) : (f.push v).depth = f.depth + 1 := by
  simp [depth, push]

@[simp] theorem values_push (f : Frame) (v : Operand) : (f.push v).values = f.values ++ [v] := by
  simp [values, push]

def peek? (f : Frame) : Option Operand :=
  f.operands.head?

def popFor (f : Frame) (instruction : String) : Except Fault Operand × Frame :=
  match f.operands with
  | [] => (.error (.underflow instruction 1 0), f)
  | v :: rest => (.ok v, ⟨rest⟩)

def pop (f : Frame) : Except Fault Operand × Frame :=
  f.popFor "Pop"

@[simp] theorem popFor_push (f : Frame) (v : Operand) (instruction : String) :
    (f.push v).popFor instruction = (.ok v, f) := rfl

@[simp] theorem popFor_empty (instruction : String) :
    empty.popFor instruction = (.error (.underflow instruction 1 0), empty) := rfl

end Frame

/-- A computation on a frame. The frame is kept when the computation fails. -/
abbrev FrameM := ExceptT Fault (StateM Frame)

namespace FrameM

def exec {α : Type} (action : FrameM α) (f : Frame) : Except Fault α × Frame :=
  action f

def push (v : Operand) : FrameM Unit :=
  fun f => (.ok (), f.push v)

def popFor (instruction : String) : FrameM Operand :=
  fun f => f.popFor instruction

def depth : FrameM Nat :=
  fun f => (.ok f.depth, f)

variable {α β : Type}

@[simp] theorem exec_pure (a : α) (f : Frame) : exec (pure a) f = (.ok a, f) := rfl

@[simp] theorem exec_throw (e : Fault) (f : Frame) :
    exec (throw e : FrameM α) f = (.error e, f) := rfl

theorem exec_bind (action : FrameM α) (next : α → FrameM β) (f : Frame) :
    exec (action >>= next) f =
      match exec action f with
      | (.ok a, g) => exec (next a) g
      | (.error e, g) => (.error e, g) := by
  simp only [exec, bind, ExceptT.bind, ExceptT.mk, StateT.bind]
  rcases action f with ⟨_ | _, g⟩ <;> rfl

@[simp] theorem exec_push (v : Operand) (f : Frame) : exec (push v) f = (.ok (), f.push v) := rfl

@[simp] theorem exec_popFor (instruction : String) (f : Frame) :
    exec (popFor instruction) f = f.popFor instruction := rfl

@[simp] theorem exec_depth (f : Frame) : exec depth f = (.ok f.depth, f) := rfl

end FrameM

end StackMachine
