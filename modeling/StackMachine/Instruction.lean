import StackMachine.Layout

namespace StackMachine

/-- One operation of a program. The numbers of operands that it takes and of results that it leaves
are declared, and `run` is trusted to keep to them. -/
structure Instruction where
  name : String
  consumed : Nat
  produced : Nat
  layout : Layout
  run : FrameM Int

/-- The difference of the two counts as words, read as a signed number. -/
def Instruction.balance (i : Instruction) : Int :=
  (BitVec.ofNat 64 i.produced - BitVec.ofNat 64 i.consumed).toInt

structure LoadConstant where
  value : Operand
  deriving DecidableEq

namespace LoadConstant

def layout (c : LoadConstant) : Layout :=
  .record "LoadConstant" [("value", c.value.layout)]

def instruction (c : LoadConstant) : Instruction where
  name := "LoadConstant"
  consumed := 0
  produced := 1
  layout := c.layout
  run := do
    FrameM.push c.value
    return 1

@[simp] theorem exec_run (c : LoadConstant) (f : Frame) :
    c.instruction.run.exec f = (.ok 1, f.push c.value) := rfl

end LoadConstant

structure RightShift where
  kind : Kind
  deriving DecidableEq

namespace RightShift

def operator : String := "RightShift"

def layout (s : RightShift) : Layout :=
  .record "RightShiftInstruction" [("kind", s.kind.layout)]

def display (s : RightShift) : String :=
  operator ++ "(" ++ s.kind.name ++ ")"

def run (s : RightShift) : FrameM Int := do
  let depth ← FrameM.depth
  -- both operands are asked for before one is popped: a short frame is left as it is
  if depth < 2 then
    throw (Fault.underflow operator 2 depth)
  let count ← FrameM.popFor operator
  let base ← FrameM.popFor operator
  FrameM.push (Operand.shiftRight s.kind base count)
  return 1

def instruction (s : RightShift) : Instruction where
  name := operator
  consumed := 2
  produced := 1
  layout := s.layout
  run := s.run

theorem exec_run_push_push (s : RightShift) (f : Frame) (base count : Operand) :
    s.run.exec ((f.push base).push count) =
      (.ok 1, f.push (Operand.shiftRight s.kind base count)) := rfl

theorem exec_run_of_lt (s : RightShift) (f : Frame) (h : f.depth < 2) :
    s.run.exec f = (.error (.underflow operator 2 f.depth), f) := by
  simp only [run, FrameM.exec_bind, FrameM.exec_depth, if_pos h, FrameM.exec_throw]

end RightShift

/-- Instructions that only move operands about. Each pops one operand at a time, so that a failing
one has removed the operands it could get. -/
inductive Shuffle where
  | nop
  | dup
  | drop
  | swap
  -- takes an operand that it does not declare
  | thief
  | wide
  deriving DecidableEq

namespace Shuffle

def all : List Shuffle :=
  [nop, dup, drop, swap, thief, wide]

def name : Shuffle → String
  | nop => "Nop"
  | dup => "Dup"
  | drop => "Drop"
  | swap => "Swap"
  | thief => "Thief"
  | wide => "Wide"

def ofName? (text : String) : Option Shuffle :=
  all.find? (fun s => s.name == text)

theorem ofName?_name (s : Shuffle) : ofName? s.name = some s := by
  cases s <;> decide

def consumed : Shuffle → Nat
  | nop => 0
  | dup => 1
  | drop => 1
  | swap => 2
  | thief => 0
  | wide => 3

def produced : Shuffle → Nat
  | nop => 0
  | dup => 2
  | drop => 0
  | swap => 2
  | thief => 0
  | wide => 0

def run (s : Shuffle) : FrameM Int :=
  match s with
  | nop => return 0
  | dup => do
    let x ← FrameM.popFor s.name
    FrameM.push x
    FrameM.push x
    return 2
  | drop => do
    let _ ← FrameM.popFor s.name
    return 0
  | swap => do
    let y ← FrameM.popFor s.name
    let x ← FrameM.popFor s.name
    FrameM.push y
    FrameM.push x
    return 2
  | thief => do
    let _ ← FrameM.popFor s.name
    return 0
  | wide => do
    let _ ← FrameM.popFor s.name
    let _ ← FrameM.popFor s.name
    let _ ← FrameM.popFor s.name
    return 0

def instruction (s : Shuffle) : Instruction where
  name := s.name
  consumed := s.consumed
  produced := s.produced
  layout := .atom s.name
  run := s.run

end Shuffle

end StackMachine
