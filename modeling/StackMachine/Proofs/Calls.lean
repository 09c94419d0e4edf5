import StackMachine.Proofs.Sequence

namespace StackMachine

namespace Registry

inductive Reachable : Registry → Prop
  | empty : Reachable KindTable.empty
  | forKind {r : Registry} (k : Kind) (h : Reachable r) : Reachable (r.forKind k).table
  | create {r : Registry} (t : StaticType) (h : Reachable r) : Reachable (r.create t).registry

def Faithful (r : Registry) : Prop :=
  ∀ k shared, r.get? k = some shared → shared.value = ⟨k⟩

namespace Faithful

variable {r : Registry}

theorem value_forKind (h : r.Faithful) (k : Kind) : (r.forKind k).shared.value = ⟨k⟩ := by
  cases hk : r.get? k with
  | none => rw [forKind_of_none hk]
  | some shared =>
    rw [forKind_of_some hk]
    exact h k shared hk

theorem forKind (h : r.Faithful) (k : Kind) : Faithful (r.forKind k).table := by
  intro j shared hj
  by_cases hjk : j = k
  · subst hjk
    rw [get?_forKind] at hj
    cases hj
    exact h.value_forKind j
  · cases hk : r.get? k with
    | none =>
      rw [forKind_of_none hk, KindTable.get?_publish_of_ne r _ hjk] at hj
      exact h j shared hj
    | some other =>
      rw [forKind_of_some hk] at hj
      exact h j shared hj

theorem create (h : r.Faithful) (t : StaticType) : Faithful (r.create t).registry := by
  rw [Registry.create]
  cases t.numericKind? with
  | none => exact h
  | some k => exact h.forKind k

end Faithful

theorem Reachable.faithful {r : Registry} (h : r.Reachable) : r.Faithful := by
  induction h with
  | empty =>
    intro k shared hk
    rw [KindTable.get?_empty] at hk
    cases hk
  | forKind k _ ih => exact ih.forKind k
  | create t _ ih => exact ih.create t

end Registry

inductive Call where
  | instruction (i : Instruction)
  | constant (value : Operand)
  | rightShift (type : StaticType)

def Call.instruction? : Call → Option Instruction
  | instruction i => some i
  | constant v => some (LoadConstant.mk v).instruction
  | rightShift t => t.numericKind?.map (fun k => (RightShift.mk k).instruction)

theorem Call.instruction?_eq_none_iff {c : Call} :
    c.instruction? = none ↔ ∃ t, c = .rightShift t ∧ t.numericKind? = none := by
  cases c <;> simp [instruction?]

structure Assembly where
  emitter : Emitter
  registry : Registry

namespace Assembly

def call (a : Assembly) (c : Call) (w : Counter := .unbounded) : Except Fault Unit × Assembly :=
  match c with
  | .instruction i =>
    ((a.emitter.emit i w).outcome, ⟨(a.emitter.emit i w).emitter, a.registry⟩)
  | .constant v =>
    ((a.emitter.emitConstant v w).outcome, ⟨(a.emitter.emitConstant v w).emitter, a.registry⟩)
  | .rightShift t =>
    let emission := a.emitter.emitRightShift a.registry t w
    (emission.outcome, ⟨emission.emitter, emission.registry⟩)

def callAll? (a : Assembly) (calls : List Call) (w : Counter := .unbounded) : Option Assembly :=
  match calls with
  | [] => some a
  | c :: rest =>
    match (a.call c w).1 with
    | .ok () => (a.call c w).2.callAll? rest w
    | .error _ => none

variable {a b : Assembly} {c : Call} {w : Counter}

theorem call_of_some {i : Instruction} (ha : a.registry.Faithful) (hc : c.instruction? = some i) :
    (a.call c w).1 = (a.emitter.emit i w).outcome ∧
      (a.call c w).2.emitter = (a.emitter.emit i w).emitter := by
  cases c with
  | instruction j =>
    cases hc
    exact ⟨rfl, rfl⟩
  | constant v =>
    cases hc
    exact ⟨rfl, rfl⟩
  | rightShift t =>
    obtain ⟨k, hk, rfl⟩ := Option.map_eq_some_iff.mp hc
    simp only [call, Emitter.emitRightShift, Registry.create, hk, ha.value_forKind k, and_self]

theorem call_unsupported (a : Assembly) {t : StaticType} (h : t.numericKind? = none) :
    a.call (.rightShift t) w = (.error (.unsupported "RightShift" t), a) := by
  simp only [call, Emitter.emitRightShift, Registry.create, h]
  rfl

theorem call_of_none (hc : c.instruction? = none) : ∃ fault, (a.call c w).1 = .error fault := by
  obtain ⟨t, rfl, ht⟩ := Call.instruction?_eq_none_iff.mp hc
  exact ⟨_, congrArg Prod.fst (a.call_unsupported ht)⟩

theorem faithful_call (ha : a.registry.Faithful) (c : Call) : (a.call c w).2.registry.Faithful := by
  cases c with
  | instruction i => exact ha
  | constant v => exact ha
  | rightShift t => exact ha.create t

theorem emitAll?_of_callAll? {calls : List Call} (ha : a.registry.Faithful)
    (h : a.callAll? calls w = some b) :
    ∃ is, calls.map Call.instruction? = is.map some ∧ a.emitter.emitAll? is w = some b.emitter := by
  induction calls generalizing a with
  | nil =>
    cases h
    exact ⟨[], rfl, rfl⟩
  | cons c calls ih =>
    cases hc : c.instruction? with
    | none =>
      obtain ⟨fault, hf⟩ := @call_of_none a c w hc
      rw [callAll?, hf] at h
      cases h
    | some i =>
      obtain ⟨houtcome, hemitter⟩ := call_of_some (w := w) ha hc
      cases hok : (a.call c w).1 with
      | error fault =>
        rw [callAll?, hok] at h
        cases h
      | ok u =>
        rw [callAll?, hok] at h
        obtain ⟨is, hmap, his⟩ := ih (faithful_call ha c) h
        refine ⟨i :: is, by rw [List.map_cons, List.map_cons, hc, hmap], ?_⟩
        rw [Emitter.emitAll?, ← houtcome, hok, ← hemitter]
        exact his

theorem callAll?_of_emitAll? {calls : List Call} {is : List Instruction} {e : Emitter}
    (ha : a.registry.Faithful) (hmap : calls.map Call.instruction? = is.map some)
    (h : a.emitter.emitAll? is w = some e) : ∃ b, a.callAll? calls w = some b ∧ b.emitter = e := by
  induction calls generalizing a is with
  | nil =>
    obtain rfl : is = [] := List.map_eq_nil_iff.mp hmap.symm
    cases h
    exact ⟨a, rfl, rfl⟩
  | cons c calls ih =>
    obtain ⟨i, is, rfl, hc, hcalls⟩ := List.map_eq_cons_iff.mp hmap.symm
    obtain ⟨houtcome, hemitter⟩ := call_of_some (w := w) ha hc.symm
    rw [Emitter.emitAll?, ← houtcome, ← hemitter] at h
    cases hok : (a.call c w).1 with
    | error fault =>
      rw [hok] at h
      cases h
    | ok u =>
      rw [hok] at h
      rw [callAll?, hok]
      exact ih (faithful_call ha c) hcalls.symm h

theorem map_emitter_callAll? {calls : List Call} {is : List Instruction}
    (ha : a.registry.Faithful) (hmap : calls.map Call.instruction? = is.map some) :
    (a.callAll? calls w).map emitter = a.emitter.emitAll? is w := by
  cases he : a.emitter.emitAll? is w with
  | some e =>
    obtain ⟨b, hb, rfl⟩ := callAll?_of_emitAll? ha hmap he
    rw [hb, Option.map_some]
  | none =>
    cases hb : a.callAll? calls w with
    | none => rfl
    | some b =>
      obtain ⟨is', hmap', his'⟩ := emitAll?_of_callAll? ha hb
      obtain rfl : is' = is :=
        (List.map_inj_right (fun _ _ => Option.some.inj)).mp (hmap'.symm.trans hmap)
      rw [he] at his'
      cases his'

theorem emitAll?_instructions {r : Registry} (hr : r.Reachable) {calls : List Call}
    (ha : callAll? ⟨.empty, r⟩ calls w = some a) :
    calls.map Call.instruction? = a.emitter.instructions.map some ∧
      Emitter.empty.emitAll? a.emitter.instructions w = some a.emitter := by
  obtain ⟨is, hmap, his⟩ := emitAll?_of_callAll? hr.faithful ha
  have hinstructions : a.emitter.instructions = is := Emitter.instructions_of_emitAll? his
  rw [hinstructions]
  exact ⟨hmap, his⟩

end Assembly

end StackMachine
