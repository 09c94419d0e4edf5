import StackMachine.Emitter

namespace StackMachine

theorem Frame.ofValues_append (vs ws : List Operand) :
    ofValues (vs ++ ws) = ws.foldl push (ofValues vs) := by
  induction ws generalizing vs with
  | nil => rw [List.append_nil, List.foldl_nil]
  | cons w ws ih =>
    have hw : (ofValues vs).push w = ofValues (vs ++ [w]) := by simp [ofValues, push]
    rw [List.foldl_cons, hw, ← ih, List.append_assoc, List.singleton_append]

theorem Frame.depth_ofValues (vs : List Operand) : (ofValues vs).depth = vs.length := by
  simp [ofValues, depth]

namespace Emitter

def emitAll? (e : Emitter) (is : List Instruction) (w : Counter := .unbounded) : Option Emitter :=
  match is with
  | [] => some e
  | i :: rest =>
    match (e.emit i w).outcome with
    | .ok () => (e.emit i w).emitter.emitAll? rest w
    | .error _ => none

variable {w : Counter}

theorem emitAll?_cons_of_le {e : Emitter} {i : Instruction} (is : List Instruction)
    (h : i.consumed ≤ e.currentDepth) :
    e.emitAll? (i :: is) w = (e.emit i w).emitter.emitAll? is w := by
  simp only [emitAll?, emit_eq_of_le h]

theorem le_of_emitAll?_cons {e d : Emitter} {i : Instruction} {is : List Instruction}
    (h : e.emitAll? (i :: is) w = some d) : i.consumed ≤ e.currentDepth := by
  apply Nat.le_of_not_lt
  intro hlt
  rw [emitAll?, emit_of_lt hlt] at h
  cases h

theorem emitAll?_append (e : Emitter) (p q : List Instruction) :
    e.emitAll? (p ++ q) w = (e.emitAll? p w).bind (fun d => d.emitAll? q w) := by
  induction p generalizing e with
  | nil => rfl
  | cons i p ih =>
    by_cases h : i.consumed ≤ e.currentDepth
    · rw [List.cons_append, emitAll?_cons_of_le _ h, emitAll?_cons_of_le _ h, ih]
    · rw [List.cons_append, emitAll?, emitAll?, emit_of_lt (Nat.lt_of_not_le h)]
      rfl

theorem currentDepth_emit {e : Emitter} {i : Instruction} (h : i.consumed ≤ e.currentDepth) :
    (e.emit i).emitter.currentDepth = e.currentDepth - i.consumed + i.produced := by
  rw [emit_of_le h]

theorem instructions_of_emitAll? {e d : Emitter} {is : List Instruction}
    (h : e.emitAll? is w = some d) : d.instructions = e.instructions ++ is := by
  induction is generalizing e with
  | nil =>
    cases h
    exact (List.append_nil _).symm
  | cons i is ih =>
    have hle := le_of_emitAll?_cons h
    rw [emitAll?_cons_of_le _ hle] at h
    rw [ih h, emit_eq_of_le hle, List.append_assoc, List.singleton_append]

end Emitter

/-- Declares any number of results and leaves none. -/
def Instruction.reserve (n : Nat) : Instruction where
  name := "Reserve"
  consumed := 0
  produced := n
  layout := .atom "Reserve"
  run := return 0

def Completes (is : List Instruction) (f g : Frame) : Prop :=
  ∀ index, (Run.ofInstructions index is f).outcome = .ok () ∧
    (Run.ofInstructions index is f).frame = g

namespace Completes

theorem nil (f : Frame) : Completes [] f f :=
  fun _ => ⟨rfl, rfl⟩

theorem cons {i : Instruction} {is : List Instruction} {f g h : Frame} {delta : Int}
    (hi : i.run.exec f = (.ok delta, g)) (his : Completes is g h) : Completes (i :: is) f h := by
  intro index
  rw [Run.ofInstructions, hi]
  exact his (index + 1)

theorem single {i : Instruction} {f g : Frame} {delta : Int}
    (hi : i.run.exec f = (.ok delta, g)) : Completes [i] f g :=
  cons hi (nil g)

theorem append {p q : List Instruction} {f g h : Frame} (hp : Completes p f g)
    (hq : Completes q g h) : Completes (p ++ q) f h := by
  intro index
  obtain ⟨hok, hg⟩ := hp index
  rw [Run.ofInstructions_append]
  generalize Run.ofInstructions index p f = r at hok hg
  obtain ⟨outcome, frame, trace⟩ := r
  cases hok
  cases hg
  exact hq (index + p.length)

theorem evaluate {p : Program} {f : Frame} (h : Completes p.instructions Frame.empty f) :
    p.evaluate = (f.popFor "Evaluate").1 := by
  obtain ⟨hok, hf⟩ := h 0
  simp only [Program.evaluate, Program.run, hok, hf]

end Completes

end StackMachine
