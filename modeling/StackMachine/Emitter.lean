import StackMachine.Program
import StackMachine.Registry

namespace StackMachine

structure Emitter where
  instructions : List Instruction
  currentDepth : Nat
  maxDepth : Nat

/-- How the depths are kept: in full, or in a machine word, which wraps around. -/
inductive Counter where
  | unbounded
  | word

namespace Counter

def hold : Counter → Nat → Nat
  | unbounded, n => n
  | word, n => n % UInt64.size

theorem hold_of_lt {w : Counter} {n : Nat} (h : n < UInt64.size) : w.hold n = n := by
  cases w with
  | unbounded => rfl
  | word => exact Nat.mod_eq_of_lt h

theorem hold_add {w : Counter} {m n : Nat} (h : m + w.hold n < UInt64.size) :
    w.hold (m + n) = m + w.hold n := by
  cases w with
  | unbounded => rfl
  | word =>
    have hm : m < UInt64.size := Nat.lt_of_le_of_lt (Nat.le_add_right _ _) h
    rw [hold, Nat.add_mod, Nat.mod_eq_of_lt hm]
    exact Nat.mod_eq_of_lt h

end Counter

structure Emission where
  outcome : Except Fault Unit
  emitter : Emitter

structure SharedEmission extends Emission where
  registry : Registry
  events : List Event

namespace Emitter

def empty : Emitter := ⟨[], 0, 0⟩

def emit (e : Emitter) (i : Instruction) (w : Counter := .unbounded) : Emission :=
  if e.currentDepth < i.consumed then
    ⟨.error (.underflow i.name i.consumed e.currentDepth), e⟩
  else
    let depth := w.hold (e.currentDepth - i.consumed + i.produced)
    ⟨.ok (), ⟨e.instructions ++ [i], depth, max e.maxDepth depth⟩⟩

theorem emit_of_lt {e : Emitter} {i : Instruction} {w : Counter} (h : e.currentDepth < i.consumed) :
    e.emit i w = ⟨.error (.underflow i.name i.consumed e.currentDepth), e⟩ :=
  if_pos h

theorem emit_eq_of_le {e : Emitter} {i : Instruction} {w : Counter} (h : i.consumed ≤ e.currentDepth) :
    e.emit i w = ⟨.ok (), ⟨e.instructions ++ [i], w.hold (e.currentDepth - i.consumed + i.produced),
      max e.maxDepth (w.hold (e.currentDepth - i.consumed + i.produced))⟩⟩ :=
  if_neg (Nat.not_lt.mpr h)

theorem emit_of_le {e : Emitter} {i : Instruction} (h : i.consumed ≤ e.currentDepth) :
    e.emit i = ⟨.ok (), ⟨e.instructions ++ [i], e.currentDepth - i.consumed + i.produced,
      max e.maxDepth (e.currentDepth - i.consumed + i.produced)⟩⟩ :=
  emit_eq_of_le h

theorem emit_of_fits {e : Emitter} {i : Instruction} {w : Counter} (hi : i.consumed ≤ e.currentDepth)
    (hfits : e.currentDepth - i.consumed + i.produced < UInt64.size) : e.emit i w = e.emit i := by
  rw [emit_eq_of_le hi, emit_of_le hi, Counter.hold_of_lt hfits]

def emitConstant (e : Emitter) (value : Operand) (w : Counter := .unbounded) : Emission :=
  e.emit (LoadConstant.mk value).instruction w

def emitRightShift (e : Emitter) (r : Registry) (type : StaticType) (w : Counter := .unbounded) :
    SharedEmission :=
  let resolved := r.create type
  let emission : Emission := match resolved.outcome with
    | .error fault => ⟨.error fault, e⟩
    | .ok shared => e.emit shared.value.instruction w
  { emission with registry := resolved.registry, events := resolved.events }

def length (e : Emitter) : Nat :=
  e.instructions.length

def isEmpty (e : Emitter) : Bool :=
  e.instructions.isEmpty

def finish (e : Emitter) : Program :=
  ⟨e.instructions, e.maxDepth⟩

def layout (e : Emitter) : Layout :=
  .record "InstructionList"
    [("instructions", .list (e.instructions.map Instruction.layout)),
      ("current_depth", .atom e.currentDepth.repr),
      ("max_depth", .atom e.maxDepth.repr)]

end Emitter

end StackMachine
