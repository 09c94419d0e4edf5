import StackMachine.Proofs.Calls

namespace StackMachine

theorem Emitter.emit_eq_error_iff {e : Emitter} {i : Instruction} {w : Counter} {fault : Fault} :
    (e.emit i w).outcome = .error fault ↔
      e.currentDepth < i.consumed ∧ fault = .underflow i.name i.consumed e.currentDepth := by
  by_cases h : e.currentDepth < i.consumed
  · rw [emit_of_lt h, Except.error.injEq, eq_comm, and_iff_right h]
  · rw [emit_eq_of_le (Nat.le_of_not_lt h)]
    constructor
    · intro hok
      cases hok
    · intro hlt
      exact absurd hlt.1 h

namespace Assembly

variable {a b : Assembly} {w : Counter}

theorem call_eq_error_iff (ha : a.registry.Faithful) (c : Call) (fault : Fault) :
    (a.call c w).1 = .error fault ↔
      (∃ t, c = .rightShift t ∧ t.numericKind? = none ∧ fault = .unsupported "RightShift" t) ∨
      ∃ i, c.instruction? = some i ∧ a.emitter.currentDepth < i.consumed ∧
        fault = .underflow i.name i.consumed a.emitter.currentDepth := by
  cases hc : c.instruction? with
  | none =>
    obtain ⟨t, rfl, ht⟩ := Call.instruction?_eq_none_iff.mp hc
    rw [a.call_unsupported ht]
    simp [ht, eq_comm]
  | some i =>
    rw [(call_of_some ha hc).1, Emitter.emit_eq_error_iff]
    constructor
    · intro h
      exact .inr ⟨i, rfl, h⟩
    · rintro (⟨t, rfl, ht, -⟩ | ⟨j, hj, h⟩)
      · rw [Call.instruction?_eq_none_iff.mpr ⟨t, rfl, ht⟩] at hc
        cases hc
      · cases hj
        exact h

theorem emitter_of_call_eq_error (ha : a.registry.Faithful) {c : Call} {fault : Fault}
    (h : (a.call c w).1 = .error fault) : (a.call c w).2.emitter = a.emitter := by
  rcases (call_eq_error_iff ha c fault).mp h with ⟨t, rfl, ht, -⟩ | ⟨i, hi, hlt, -⟩
  · rw [a.call_unsupported ht]
  · rw [(call_of_some ha hi).2, Emitter.emit_of_lt hlt]

theorem call_congr (ha : a.registry.Faithful) (hb : b.registry.Faithful)
    (h : a.emitter = b.emitter) (c : Call) :
    (a.call c w).1 = (b.call c w).1 ∧ (a.call c w).2.emitter = (b.call c w).2.emitter := by
  cases hc : c.instruction? with
  | none =>
    obtain ⟨t, rfl, ht⟩ := Call.instruction?_eq_none_iff.mp hc
    rw [a.call_unsupported ht, b.call_unsupported ht]
    exact ⟨rfl, h⟩
  | some i =>
    obtain ⟨hao, hae⟩ := call_of_some (w := w) ha hc
    obtain ⟨hbo, hbe⟩ := call_of_some (w := w) hb hc
    rw [hao, hae, hbo, hbe, h]
    exact ⟨rfl, rfl⟩

def after (a : Assembly) (calls : List Call) (w : Counter := .unbounded) : Assembly :=
  calls.foldl (fun b c => (b.call c w).2) a

def accepted (a : Assembly) (calls : List Call) (w : Counter := .unbounded) : List Call :=
  match calls with
  | [] => []
  | c :: rest =>
    match (a.call c w).1 with
    | .ok () => c :: (a.call c w).2.accepted rest w
    | .error _ => (a.call c w).2.accepted rest w

theorem callAll?_accepted (ha : a.registry.Faithful) (hb : b.registry.Faithful)
    (h : a.emitter = b.emitter) (calls : List Call) :
    ∃ d, b.callAll? (a.accepted calls w) w = some d ∧ d.emitter = (a.after calls w).emitter := by
  induction calls generalizing a b with
  | nil => exact ⟨b, rfl, h.symm⟩
  | cons c calls ih =>
    have hnext := faithful_call (w := w) ha c
    cases hc : (a.call c w).1 with
    | error fault =>
      have hsame := (emitter_of_call_eq_error ha hc).trans h
      obtain ⟨d, hd, hlast⟩ := ih hnext hb hsame
      refine ⟨d, ?_, hlast⟩
      rw [accepted, hc]
      exact hd
    | ok u =>
      obtain ⟨houtcome, hsame⟩ := call_congr ha hb h c
      obtain ⟨d, hd, hlast⟩ := ih hnext (faithful_call hb c) hsame
      refine ⟨d, ?_, hlast⟩
      rw [accepted, hc]
      dsimp only
      rw [callAll?, ← houtcome, hc]
      exact hd

end Assembly

end StackMachine
