import StackMachine.Proofs.Expression

namespace StackMachine

theorem Operand.kind_of_shiftRight {k : Kind} {v c : Operand} {s : Scalar}
    (h : shiftRight k v c = .present s) : s.kind = k := by
  cases v with
  | absent => cases h
  | present b =>
    cases c with
    | absent => cases h
    | present d =>
      cases h
      rfl

namespace Expression

theorem value_eq_absent_iff (t : Expression) :
    t.value = .absent ↔ (LoadConstant.mk .absent).instruction ∈ t.postorder := by
  induction t with
  | constant v =>
    rw [value, postorder, List.mem_singleton]
    constructor
    · rintro rfl
      rfl
    · intro h
      exact (congrArg LoadConstant.value (LoadConstant.instruction_inj h)).symm
  | shift k base count ihb ihc =>
    have hne := LoadConstant.instruction_ne ⟨.absent⟩ ⟨k⟩
    rw [value_shift, Operand.shiftRight_eq_absent_iff, ihb, ihc, postorder, List.mem_append,
      List.mem_append, List.mem_singleton, or_iff_left hne]

theorem last_of_value {t : Expression} {s : Scalar} (h : t.value = .present s) :
    t.postorder.getLast? = some (RightShift.mk s.kind).instruction ∨
      t.postorder = [(LoadConstant.mk (.present s)).instruction] := by
  cases t with
  | constant v =>
    right
    rw [postorder, ← h, value]
  | shift k base count =>
    left
    rw [value_shift] at h
    rw [postorder, List.getLast?_concat, Operand.kind_of_shiftRight h]

end Expression

theorem absent_constant_makes_value_absent (r : Registry) (hr : r.Reachable) (calls : List Call)
    (hcalls : ∀ i, Call.instruction i ∉ calls) (a : Assembly)
    (ha : Assembly.callAll? ⟨.empty, r⟩ calls = some a) (hdepth : a.emitter.currentDepth = 1) :
    let p := a.emitter.finish
    ∃ w, p.evaluate = .ok w ∧
      (w = .absent ↔ (LoadConstant.mk .absent).instruction ∈ p.instructions) ∧
      ((LoadConstant.mk .absent).instruction ∉ p.instructions → ∃ s, w = .present s ∧
        (p.instructions.getLast? = some (RightShift.mk s.kind).instruction ∨
          p.instructions = [(LoadConstant.mk (.present s)).instruction])) := by
  intro p
  obtain ⟨ts, hts, hlength⟩ := Assembly.exists_spells hr hcalls ha
  obtain ⟨t, rfl⟩ := List.length_eq_one_iff.mp (hlength.trans hdepth)
  have hp : p.instructions = t.postorder := by
    rw [← List.flatMap_singleton Expression.postorder t]
    exact hts.symm
  refine ⟨t.value, Expression.evaluate_postorder hp, ?_, ?_⟩
  · rw [hp]
    exact t.value_eq_absent_iff
  · intro hpresent
    rw [hp] at hpresent ⊢
    cases hv : t.value with
    | absent => exact absurd (t.value_eq_absent_iff.mp hv) hpresent
    | present s => exact ⟨s, rfl, Expression.last_of_value hv⟩

theorem absent_constant_makes_value_absent_nested :
    let calls : List Call := [.constant (.ofInt .int16 5), .constant .absent, .constant (.ofInt .int8 1),
      .rightShift (.nullable (.ofKind .uint8)), .rightShift (.ofKind .int16)]
    (∀ i, Call.instruction i ∉ calls) ∧
    ∃ a, Assembly.callAll? ⟨.empty, KindTable.empty⟩ calls = some a ∧ a.emitter.currentDepth = 1 ∧
      a.emitter.finish.evaluate = .ok .absent := by
  intro calls
  have hcalls : ∀ i, Call.instruction i ∉ calls := by simp [calls]
  refine ⟨hcalls, _, rfl, rfl, ?_⟩
  obtain ⟨w, hw, habsent, -⟩ :=
    absent_constant_makes_value_absent KindTable.empty .empty calls hcalls _ rfl rfl
  obtain rfl : w = .absent := habsent.mpr (.tail _ (.head _))
  exact hw

end StackMachine
