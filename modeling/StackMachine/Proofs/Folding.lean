import StackMachine.Proofs.Calls

namespace StackMachine

/-- Wherever they stand in programs, the sequences end in the same way and leave the same frame. -/
def Interchangeable (p q : List Instruction) : Prop :=
  ∀ (m n : Nat) (f : Frame),
    (Run.ofInstructions m p f).outcome = (Run.ofInstructions n q f).outcome ∧
      (Run.ofInstructions m p f).frame = (Run.ofInstructions n q f).frame

namespace Interchangeable

variable {p p' q q' : List Instruction}

theorem refl (p : List Instruction) : Interchangeable p p := by
  intro m n f
  induction p generalizing m n f with
  | nil => exact ⟨rfl, rfl⟩
  | cons i p ih =>
    rw [Run.ofInstructions, Run.ofInstructions]
    rcases i.run.exec f with ⟨fault | delta, g⟩
    · exact ⟨rfl, rfl⟩
    · exact ih (m + 1) (n + 1) g

theorem of_completes (h : ∀ f, ∃ g, Completes p f g ∧ Completes q f g) : Interchangeable p q := by
  intro m n f
  obtain ⟨g, hp, hq⟩ := h f
  obtain ⟨hpo, hpf⟩ := hp m
  obtain ⟨hqo, hqf⟩ := hq n
  exact ⟨hpo.trans hqo.symm, hpf.trans hqf.symm⟩

theorem append (hp : Interchangeable p p') (hq : Interchangeable q q') :
    Interchangeable (p ++ q) (p' ++ q') := by
  intro m n f
  obtain ⟨houtcome, hframe⟩ := hp m n f
  rw [Run.ofInstructions_append, Run.ofInstructions_append]
  generalize Run.ofInstructions m p f = r at houtcome hframe
  generalize Run.ofInstructions n p' f = r' at houtcome hframe
  obtain ⟨outcome, g, trace⟩ := r
  obtain ⟨outcome', g', trace'⟩ := r'
  obtain rfl : outcome = outcome' := houtcome
  obtain rfl : g = g' := hframe
  cases outcome with
  | error fault => exact ⟨rfl, rfl⟩
  | ok u => exact hq (m + p.length) (n + p'.length) g

end Interchangeable

def Operand.folded (k : Kind) (v c : Operand) : Operand :=
  .ofOption do
    let base ← v.scalar?
    let count ← c.scalar?
    return Scalar.shiftRight k base count.shiftCount

theorem Operand.folded_eq_shiftRight (k : Kind) (v c : Operand) : folded k v c = shiftRight k v c := by
  cases v <;> cases c <;> rfl

def shiftOfConstants (k : Kind) (v c : Operand) : List Instruction :=
  [(LoadConstant.mk v).instruction, (LoadConstant.mk c).instruction, (RightShift.mk k).instruction]

def foldedConstant (k : Kind) (v c : Operand) : List Instruction :=
  [(LoadConstant.mk (.folded k v c)).instruction]

theorem interchangeable_folded (k : Kind) (v c : Operand) :
    Interchangeable (foldedConstant k v c) (shiftOfConstants k v c) := by
  apply Interchangeable.of_completes
  intro f
  refine ⟨f.push (.folded k v c), .single (LoadConstant.exec_run _ f), ?_⟩
  rw [Operand.folded_eq_shiftRight]
  apply Completes.cons (LoadConstant.exec_run ⟨v⟩ f)
  apply Completes.cons (LoadConstant.exec_run ⟨c⟩ _)
  exact .single (RightShift.exec_run_push_push ⟨k⟩ f v c)

namespace Emitter

/-- Both emitters are at the same depth. The greatest depth of `d` is that of `e` or one more. -/
structure Shadows (e d : Emitter) : Prop where
  currentDepth : e.currentDepth = d.currentDepth
  maxDepth_le : e.maxDepth ≤ d.maxDepth
  le_maxDepth : d.maxDepth ≤ e.maxDepth + 1

variable {w : Counter}

theorem Shadows.emit {e d : Emitter} (h : e.Shadows d) {i : Instruction}
    (hi : i.consumed ≤ e.currentDepth) : (e.emit i w).emitter.Shadows (d.emit i w).emitter := by
  obtain ⟨hdepth, hle, hge⟩ := h
  rw [emit_eq_of_le hi, emit_eq_of_le (hdepth ▸ hi), ← hdepth]
  refine ⟨rfl, ?_, ?_⟩
  · dsimp only
    omega
  · dsimp only
    omega

theorem Shadows.emitAll? {e d : Emitter} (h : e.Shadows d) (is : List Instruction) :
    Option.Rel Shadows (e.emitAll? is w) (d.emitAll? is w) := by
  induction is generalizing e d with
  | nil => exact .some h
  | cons i is ih =>
    by_cases hi : i.consumed ≤ e.currentDepth
    · rw [emitAll?_cons_of_le _ hi, emitAll?_cons_of_le _ (h.currentDepth ▸ hi)]
      exact ih (h.emit hi)
    · have hlt := Nat.lt_of_not_le hi
      rw [Emitter.emitAll?, Emitter.emitAll?, emit_of_lt hlt, emit_of_lt (h.currentDepth ▸ hlt)]
      exact .none

theorem shadows_folded {e : Emitter} (hfits : e.currentDepth + 2 < UInt64.size) (k : Kind)
    (v c : Operand) (q : List Instruction) :
    Option.Rel Shadows (e.emitAll? (foldedConstant k v c ++ q) w)
      (e.emitAll? (shiftOfConstants k v c ++ q) w) := by
  let loaded : Emitter := ((e.emit (LoadConstant.mk v).instruction).emitter.emit
    (LoadConstant.mk c).instruction).emitter
  have hload {d : Emitter} (hd : d.currentDepth + 1 < UInt64.size) (u : Operand) :
      d.emit (LoadConstant.mk u).instruction w = d.emit (LoadConstant.mk u).instruction :=
    emit_of_fits (Nat.zero_le _) hd
  have hone : e.currentDepth + 1 < UInt64.size := by omega
  have hloaded : (RightShift.mk k).instruction.consumed ≤ loaded.currentDepth :=
    Nat.le_add_left 2 e.currentDepth
  have hshift : loaded.emit (RightShift.mk k).instruction w = loaded.emit (RightShift.mk k).instruction :=
    emit_of_fits hloaded hone
  simp only [foldedConstant, shiftOfConstants, List.cons_append, List.nil_append]
  rw [emitAll?_cons_of_le _ (Nat.zero_le _), emitAll?_cons_of_le _ (Nat.zero_le _), hload hone, hload hone,
    emitAll?_cons_of_le _ (Nat.zero_le _), hload hfits, emitAll?_cons_of_le _ hloaded, hshift,
    emit_of_le hloaded]
  apply Shadows.emitAll?
  -- only the second constant goes one deeper than the folded one
  refine ⟨rfl, ?_, ?_⟩
  · change max e.maxDepth (e.currentDepth + 1) ≤
      max (max (max e.maxDepth (e.currentDepth + 1)) (e.currentDepth + 2)) (e.currentDepth + 1)
    omega
  · change max (max (max e.maxDepth (e.currentDepth + 1)) (e.currentDepth + 2)) (e.currentDepth + 1) ≤
      max e.maxDepth (e.currentDepth + 1) + 1
    omega

theorem shadows_folded_between (k : Kind) (v c : Operand) (p q : List Instruction)
    (hfits : ∀ d, empty.emitAll? p w = some d → d.currentDepth + 2 < UInt64.size) :
    Option.Rel Shadows (empty.emitAll? (p ++ foldedConstant k v c ++ q) w)
      (empty.emitAll? (p ++ shiftOfConstants k v c ++ q) w) := by
  rw [List.append_assoc, List.append_assoc, emitAll?_append _ p, emitAll?_append _ p]
  cases hp : empty.emitAll? p w with
  | none => exact .none
  | some d => exact shadows_folded (hfits d hp) k v c q

theorem isSome_iff_of_shadows {e d : Option Emitter} (h : Option.Rel Shadows e d) :
    d.isSome ↔ e.isSome := by
  cases h <;> simp

end Emitter

theorem folded_program_agrees (r r' : Registry) (hr : r.Reachable) (hr' : r'.Reachable)
    (p q : List Instruction) (v c : Operand) (t : StaticType) (k : Kind)
    (ht : t.numericKind? = some k)
    (hfits : ∀ d, Emitter.empty.emitAll? p .word = some d → d.currentDepth + 2 < UInt64.size) :
    let original := Assembly.callAll? ⟨.empty, r⟩
      (p.map .instruction ++ [.constant v, .constant c, .rightShift t] ++ q.map .instruction) .word
    let folded := Assembly.callAll? ⟨.empty, r'⟩
      (p.map .instruction ++ [.constant (.folded k v c)] ++ q.map .instruction) .word
    (original.isSome ↔ folded.isSome) ∧
    ∀ a b, original = some a → folded = some b →
      b.emitter.currentDepth = a.emitter.currentDepth ∧
      b.emitter.maxDepth ≤ a.emitter.maxDepth ∧ a.emitter.maxDepth ≤ b.emitter.maxDepth + 1 ∧
      ∀ f : Frame, (b.emitter.finish.run f).outcome = (a.emitter.finish.run f).outcome ∧
        (b.emitter.finish.run f).frame = (a.emitter.finish.run f).frame := by
  intro original folded
  have horiginal : original.map Assembly.emitter =
      Emitter.empty.emitAll? (p ++ shiftOfConstants k v c ++ q) .word := by
    apply Assembly.map_emitter_callAll? hr.faithful
    simp [Function.comp_def, Call.instruction?, ht, shiftOfConstants]
  have hfolded : folded.map Assembly.emitter =
      Emitter.empty.emitAll? (p ++ foldedConstant k v c ++ q) .word := by
    apply Assembly.map_emitter_callAll? hr'.faithful
    simp [Function.comp_def, Call.instruction?, foldedConstant]
  have hshadows := Emitter.shadows_folded_between k v c p q hfits
  rw [← horiginal, ← hfolded] at hshadows
  constructor
  · simpa using Emitter.isSome_iff_of_shadows hshadows
  · intro a b ha hb
    rw [ha, Option.map_some] at horiginal
    rw [hb, Option.map_some] at hfolded
    have hp : a.emitter.finish.instructions = p ++ shiftOfConstants k v c ++ q :=
      Emitter.instructions_of_emitAll? horiginal.symm
    have hq : b.emitter.finish.instructions = p ++ foldedConstant k v c ++ q :=
      Emitter.instructions_of_emitAll? hfolded.symm
    have hsame := ((Interchangeable.refl p).append (interchangeable_folded k v c)).append (.refl q)
    rw [← hp, ← hq] at hsame
    rw [ha, hb] at hshadows
    cases hshadows with
    | some h => exact ⟨h.currentDepth, h.maxDepth_le, h.le_maxDepth, hsame 0 0⟩

theorem folded_program_agrees_thief :
    let t : StaticType := .nullable (.enumeration "Level" (.ofKind .uint8))
    let thieves : List Instruction := List.replicate 2 Shuffle.thief.instruction
    t.numericKind? = some .uint8 ∧
    ∃ a b, Assembly.callAll? ⟨.empty, KindTable.empty⟩
        ([.constant (.ofInt .int8 (-128)), .constant (.ofInt .int64 3), .rightShift t] ++
          thieves.map .instruction) .word = some a ∧
      Assembly.callAll? ⟨.empty, KindTable.empty⟩
        (.constant (.ofInt .uint8 16) :: thieves.map .instruction) .word = some b ∧
      a.emitter.maxDepth = 2 ∧ b.emitter.maxDepth = 1 ∧
      (b.emitter.finish.run .empty).outcome = (a.emitter.finish.run .empty).outcome ∧
      (b.emitter.finish.run .empty).outcome = .error (.underflow "Thief" 1 0) := by
  intro t thieves
  have hfits : ∀ d, Emitter.empty.emitAll? [] .word = some d → d.currentDepth + 2 < UInt64.size := by
    rintro d ⟨⟩
    decide
  have hagrees := folded_program_agrees KindTable.empty KindTable.empty .empty .empty [] thieves
    (.ofInt .int8 (-128)) (.ofInt .int64 3) t .uint8 rfl hfits
  have hfolded : Operand.folded .uint8 (.ofInt .int8 (-128)) (.ofInt .int64 3) = .ofInt .uint8 16 := by
    decide
  rw [hfolded] at hagrees
  obtain ⟨-, -, -, hrun⟩ := hagrees.2 _ _ rfl rfl
  exact ⟨rfl, _, _, rfl, rfl, rfl, rfl, (hrun .empty).1, rfl⟩

theorem folded_program_differs_at_word_limit :
    let p : List Instruction := [.reserve (UInt64.size - 2)]
    let t : StaticType := .ofKind .int8
    let original := Assembly.callAll? ⟨.empty, KindTable.empty⟩
      (p.map .instruction ++ [.constant .absent, .constant .absent, .rightShift t]) .word
    let folded := Assembly.callAll? ⟨.empty, KindTable.empty⟩
      (p.map .instruction ++ [.constant (.folded .int8 .absent .absent)]) .word
    t.numericKind? = some .int8 ∧ original.isSome = false ∧ folded.isSome = true :=
  ⟨rfl, rfl, rfl⟩

end StackMachine
