import StackMachine.Instruction

namespace StackMachine

structure Program where
  instructions : List Instruction
  maxStackDepth : Nat

structure Run where
  outcome : Except Fault Unit
  frame : Frame
  trace : List Event

def Run.ofInstructions (index : Nat) : List Instruction → Frame → Run
  | [], f => ⟨.ok (), f, []⟩
  | i :: rest, f =>
    match i.run.exec f with
    | (.error e, g) => ⟨.error e, g, []⟩
    | (.ok delta, g) =>
      let tail := ofInstructions (index + 1) rest g
      { tail with trace := .executed index i.name delta g.depth :: tail.trace }

theorem Run.ofInstructions_append (index : Nat) (p q : List Instruction) (f : Frame) :
    ofInstructions index (p ++ q) f =
      match ofInstructions index p f with
      | ⟨.error e, g, trace⟩ => ⟨.error e, g, trace⟩
      | ⟨.ok (), g, trace⟩ =>
        let tail := ofInstructions (index + p.length) q g
        { tail with trace := trace ++ tail.trace } := by
  induction p generalizing index f with
  | nil => rfl
  | cons i p ih =>
    rw [List.cons_append, ofInstructions, ofInstructions]
    rcases i.run.exec f with ⟨e | delta, g⟩
    · rfl
    · dsimp only
      rw [ih (index + 1) g]
      rcases ofInstructions (index + 1) p g with ⟨e | _, h, trace⟩
      · rfl
      · simp only [List.length_cons, List.cons_append]
        rw [Nat.add_assoc, Nat.add_comm 1 p.length]

namespace Program

def empty : Program := ⟨[], 0⟩

def run (p : Program) (f : Frame) : Run :=
  Run.ofInstructions 0 p.instructions f

def evaluate (p : Program) : Except Fault Operand :=
  let r := p.run Frame.empty
  match r.outcome with
  | .error e => .error e
  | .ok () => (r.frame.popFor "Evaluate").1

def layout (p : Program) : Layout :=
  .record "InstructionArray"
    [("instructions", .list (p.instructions.map Instruction.layout)),
      ("max_stack_depth", .atom p.maxStackDepth.repr)]

end Program

end StackMachine
