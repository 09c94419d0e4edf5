import Mathlib.Data.List.Basic
import Mathlib.Data.List.Induction
import StackMachine.Proofs.Calls

/-!
The programs that constants and shifts make up are the postorders of expression trees, and they
compute the values of these trees.
-/

namespace StackMachine

theorem LoadConstant.instruction_inj {c d : LoadConstant} (h : c.instruction = d.instruction) : c = d := by
  have hexec := congrArg (fun i => (i.run.exec Frame.empty).2.operands) h
  obtain ⟨v⟩ := c
  obtain ⟨w⟩ := d
  have hv : v = w := List.head_eq_of_cons_eq hexec
  rw [hv]

theorem RightShift.instruction_inj {s t : RightShift} (h : s.instruction = t.instruction) : s = t := by
  have hlayout : s.layout = t.layout := congrArg Instruction.layout h
  obtain ⟨j⟩ := s
  obtain ⟨k⟩ := t
  have hname : j.name = k.name := by simpa [layout, Layout.record, Kind.layout] using hlayout
  rw [Kind.name_inj.mp hname]

theorem LoadConstant.instruction_ne (c : LoadConstant) (s : RightShift) :
    c.instruction ≠ s.instruction := by
  intro h
  have hconsumed : 0 = 2 := congrArg Instruction.consumed h
  cases hconsumed

inductive Expression where
  | constant (value : Operand)
  | shift (kind : Kind) (base count : Expression)
  deriving DecidableEq

namespace Expression

def value : Expression → Operand
  | constant v => v
  | shift k base count =>
    match base.value, count.value with
    | .present b, .present c => .present (Scalar.shiftRight k b c.shiftCount)
    | _, _ => .absent

theorem value_shift (k : Kind) (base count : Expression) :
    (shift k base count).value = Operand.shiftRight k base.value count.value := by
  rw [value]
  cases base.value <;> cases count.value <;> rfl

def postorder : Expression → List Instruction
  | constant v => [(LoadConstant.mk v).instruction]
  | shift k base count => base.postorder ++ count.postorder ++ [(RightShift.mk k).instruction]

def calls : Expression → List Call
  | constant v => [.constant v]
  | shift k base count => base.calls ++ count.calls ++ [.rightShift (.ofKind k)]

theorem map_calls (t : Expression) : t.calls.map Call.instruction? = t.postorder.map some := by
  induction t with
  | constant v => rfl
  | shift k base count ihb ihc =>
    simp only [calls, postorder, List.map_append, ihb, ihc]
    rfl

theorem postorder_ne_nil (t : Expression) : t.postorder ≠ [] := by
  cases t <;> simp [postorder]

theorem postorder_suffix {t u : Expression} {p q : List Instruction}
    (h : p ++ t.postorder = q ++ u.postorder) : t = u ∧ p = q := by
  induction t generalizing u p q with
  | constant v =>
    cases u with
    | constant w =>
      obtain ⟨hp, hi⟩ := List.append_inj' h rfl
      have hv := LoadConstant.instruction_inj (List.head_eq_of_cons_eq hi)
      exact ⟨congrArg (fun c => constant c.value) hv, hp⟩
    | shift k base count =>
      rw [postorder, postorder, ← List.append_assoc] at h
      obtain ⟨-, hi⟩ := List.append_inj' h rfl
      exact absurd (List.head_eq_of_cons_eq hi) (LoadConstant.instruction_ne _ _)
  | shift k base count ihb ihc =>
    cases u with
    | constant w =>
      rw [postorder, postorder, ← List.append_assoc] at h
      obtain ⟨-, hi⟩ := List.append_inj' h rfl
      exact absurd (List.head_eq_of_cons_eq hi).symm (LoadConstant.instruction_ne _ _)
    | shift j base' count' =>
      rw [postorder, postorder, ← List.append_assoc p, ← List.append_assoc q] at h
      obtain ⟨h, hi⟩ := List.append_inj' h rfl
      have hk := RightShift.instruction_inj (List.head_eq_of_cons_eq hi)
      rw [← List.append_assoc, ← List.append_assoc] at h
      obtain ⟨rfl, hbase⟩ := ihc h
      obtain ⟨rfl, hp⟩ := ihb hbase
      exact ⟨congrArg (fun s => shift s.kind base count) hk, hp⟩

theorem flatMap_postorder_inj {ts us : List Expression}
    (h : ts.flatMap postorder = us.flatMap postorder) : ts = us := by
  induction ts using List.reverseRecOn generalizing us with
  | nil =>
    cases us with
    | nil => rfl
    | cons u us =>
      have hu : u.postorder = [] := (List.append_eq_nil_iff.mp h.symm).1
      exact absurd hu u.postorder_ne_nil
  | append_singleton ts t ih =>
    rcases List.eq_nil_or_concat us with rfl | ⟨us, u, rfl⟩
    · simp only [List.flatMap_append, List.flatMap_singleton, List.flatMap_nil] at h
      exact absurd (List.append_eq_nil_iff.mp h).2 t.postorder_ne_nil
    · simp only [List.concat_eq_append, List.flatMap_append, List.flatMap_singleton] at h
      obtain ⟨rfl, hts⟩ := postorder_suffix h
      rw [ih hts, List.concat_eq_append]

theorem emitAll?_postorder (t : Expression) (e : Emitter) :
    ∃ d, e.emitAll? t.postorder = some d ∧ d.currentDepth = e.currentDepth + 1 := by
  induction t generalizing e with
  | constant v => exact ⟨_, rfl, rfl⟩
  | shift k base count ihb ihc =>
    obtain ⟨d, hd, hdepth⟩ := ihb e
    obtain ⟨d', hd', hdepth'⟩ := ihc d
    have hle : (RightShift.mk k).instruction.consumed ≤ d'.currentDepth := by
      change 2 ≤ d'.currentDepth
      omega
    refine ⟨(d'.emit (RightShift.mk k).instruction).emitter, ?_, ?_⟩
    · rw [postorder, Emitter.emitAll?_append, Emitter.emitAll?_append, hd, Option.bind_some, hd',
        Option.bind_some, Emitter.emitAll?_cons_of_le _ hle]
      rfl
    · rw [Emitter.currentDepth_emit hle]
      change d'.currentDepth - 2 + 1 = e.currentDepth + 1
      omega

theorem completes (t : Expression) (f : Frame) : Completes t.postorder f (f.push t.value) := by
  induction t generalizing f with
  | constant v => exact .single (LoadConstant.exec_run ⟨v⟩ f)
  | shift k base count ihb ihc =>
    rw [value_shift]
    exact ((ihb f).append (ihc _)).append (.single (RightShift.exec_run_push_push ⟨k⟩ f _ _))

theorem completes_forest (ts : List Expression) (f : Frame) :
    Completes (ts.flatMap postorder) f ((ts.map value).foldl Frame.push f) := by
  induction ts generalizing f with
  | nil => exact .nil f
  | cons t ts ih => exact (t.completes f).append (ih _)

theorem run_forest {p : Program} {ts : List Expression} (h : ts.flatMap postorder = p.instructions) :
    Completes p.instructions Frame.empty (.ofValues (ts.map value)) := by
  have hforest := completes_forest ts Frame.empty
  rwa [h, show Frame.empty = Frame.ofValues [] from rfl, ← Frame.ofValues_append] at hforest

theorem evaluate_forest {p : Program} {ts : List Expression} {t : Expression}
    (h : (ts ++ [t]).flatMap postorder = p.instructions) : p.evaluate = .ok t.value := by
  rw [(run_forest h).evaluate, List.map_append, Frame.ofValues_append]
  exact congrArg Prod.fst (Frame.popFor_push _ t.value "Evaluate")

theorem evaluate_postorder {p : Program} {t : Expression} (h : p.instructions = t.postorder) :
    p.evaluate = .ok t.value := by
  apply @evaluate_forest p [] t
  rw [List.nil_append, List.flatMap_singleton, h]

theorem evaluate_eq_error_iff {p : Program} {ts : List Expression}
    (h : ts.flatMap postorder = p.instructions) (fault : Fault) :
    p.evaluate = .error fault ↔ fault = .underflow "Evaluate" 1 0 ∧ p.instructions = [] := by
  rcases List.eq_nil_or_concat ts with rfl | ⟨ts, t, rfl⟩
  · have hp : p.instructions = [] := h.symm
    rw [(run_forest h).evaluate]
    change Except.error (.underflow "Evaluate" 1 0) = Except.error fault ↔ _
    rw [Except.error.injEq, eq_comm, and_iff_left hp]
  · rw [List.concat_eq_append] at h
    have hp : p.instructions ≠ [] := by
      rw [← h, List.flatMap_append, List.flatMap_singleton]
      exact List.append_ne_nil_of_right_ne_nil _ t.postorder_ne_nil
    rw [evaluate_forest h]
    constructor
    · intro he
      cases he
    · intro he
      exact absurd he.2 hp

end Expression

inductive Instruction.Elementary : Instruction → Prop
  | constant (c : LoadConstant) : Elementary c.instruction
  | shift (s : RightShift) : Elementary s.instruction

theorem Call.elementary {c : Call} {i : Instruction} (hc : ∀ j, c ≠ .instruction j)
    (hi : c.instruction? = some i) : i.Elementary := by
  cases c with
  | instruction j => exact absurd rfl (hc j)
  | constant v =>
    cases hi
    exact .constant ⟨v⟩
  | rightShift t =>
    obtain ⟨k, -, rfl⟩ := Option.map_eq_some_iff.mp hi
    exact .shift ⟨k⟩

namespace Emitter

/-- The program so far is the postorder of the trees, one for each operand that it leaves. -/
def Spells (e : Emitter) (ts : List Expression) : Prop :=
  ts.flatMap Expression.postorder = e.instructions ∧ ts.length = e.currentDepth

theorem Spells.emit {e : Emitter} {i : Instruction} {ts : List Expression} (h : e.Spells ts)
    (hi : i.Elementary) (hle : i.consumed ≤ e.currentDepth) : ∃ us, (e.emit i).emitter.Spells us := by
  obtain ⟨hts, hlength⟩ := h
  rw [emit_of_le hle]
  cases hi with
  | constant c =>
    refine ⟨ts ++ [.constant c.value], ?_, ?_⟩
    · rw [List.flatMap_append, hts]
      rfl
    · rw [List.length_append, hlength]
      rfl
  | shift s =>
    -- the two operands that are there make up the two trees at the end
    have hle : 2 ≤ ts.length := hlength ▸ hle
    have hdrop : (ts.drop (ts.length - 2)).length = 2 := by
      rw [List.length_drop]
      omega
    obtain ⟨base, count, hlast⟩ := List.length_eq_two.mp hdrop
    have hsplit := List.take_append_drop (ts.length - 2) ts
    rw [hlast] at hsplit
    refine ⟨ts.take (ts.length - 2) ++ [.shift s.kind base count], ?_, ?_⟩
    · rw [← hts, ← hsplit]
      simp [Expression.postorder]
    · change _ = e.currentDepth - 2 + 1
      rw [List.length_append, List.length_take, List.length_singleton]
      omega

theorem Spells.emitAll? {e d : Emitter} {is : List Instruction} {ts : List Expression}
    (h : e.Spells ts) (his : ∀ i ∈ is, i.Elementary) (hd : e.emitAll? is = some d) :
    ∃ us, d.Spells us := by
  induction is generalizing e ts with
  | nil =>
    cases hd
    exact ⟨ts, h⟩
  | cons i is ih =>
    have hle := le_of_emitAll?_cons hd
    rw [emitAll?_cons_of_le _ hle] at hd
    obtain ⟨us, hus⟩ := h.emit (his i (by simp)) hle
    exact ih hus (fun j hj => his j (List.mem_cons_of_mem _ hj)) hd

end Emitter

theorem Assembly.exists_spells {a : Assembly} {r : Registry} {calls : List Call} (hr : r.Reachable)
    (hcalls : ∀ i, Call.instruction i ∉ calls) (ha : callAll? ⟨.empty, r⟩ calls = some a) :
    ∃ ts, a.emitter.Spells ts := by
  obtain ⟨hmap, his⟩ := emitAll?_instructions hr ha
  have helementary : ∀ i ∈ a.emitter.instructions, i.Elementary := by
    intro i hi
    have hmem : some i ∈ calls.map Call.instruction? := hmap ▸ List.mem_map_of_mem hi
    obtain ⟨c, hc, hci⟩ := List.mem_map.mp hmem
    apply Call.elementary _ hci
    rintro j rfl
    exact hcalls j hc
  have hempty : Emitter.empty.Spells [] := ⟨rfl, rfl⟩
  exact hempty.emitAll? helementary his

theorem program_means_forest :
    (∀ (r : Registry) (calls : List Call) (a : Assembly), r.Reachable →
      (∀ i, Call.instruction i ∉ calls) → Assembly.callAll? ⟨.empty, r⟩ calls = some a →
      calls.map Call.instruction? = a.emitter.instructions.map some ∧
      ∃ ts : List Expression,
        (∀ us : List Expression, us.flatMap Expression.postorder = a.emitter.instructions ↔ us = ts) ∧
        ts.length = a.emitter.currentDepth ∧
        (a.emitter.finish.run .empty).outcome = .ok () ∧
        (a.emitter.finish.run .empty).frame.values = ts.map Expression.value ∧
        (∀ t, ts.getLast? = some t → a.emitter.finish.evaluate = .ok t.value) ∧
        ∀ fault, a.emitter.finish.evaluate = .error fault ↔
          fault = .underflow "Evaluate" 1 0 ∧ a.emitter.finish.instructions = []) ∧
    ∀ (r : Registry) (t : Expression), r.Reachable →
      ∃ a, Assembly.callAll? ⟨.empty, r⟩ t.calls = some a ∧ a.emitter.instructions = t.postorder ∧
        a.emitter.currentDepth = 1 := by
  constructor
  · intro r calls a hr hcalls ha
    obtain ⟨ts, hts, hlength⟩ := Assembly.exists_spells hr hcalls ha
    have hrun := Expression.run_forest (p := a.emitter.finish) hts 0
    refine ⟨(Assembly.emitAll?_instructions hr ha).1, ts, ?_, hlength, hrun.1, ?_, ?_, ?_⟩
    · intro us
      constructor
      · intro hus
        exact Expression.flatMap_postorder_inj (hus.trans hts.symm)
      · rintro rfl
        exact hts
    · exact (congrArg Frame.values hrun.2).trans (Frame.values_ofValues _)
    · intro t ht
      obtain ⟨us, rfl⟩ := List.getLast?_eq_some_iff.mp ht
      exact Expression.evaluate_forest hts
    · exact Expression.evaluate_eq_error_iff hts
  · intro r t hr
    obtain ⟨e, he, hdepth⟩ := t.emitAll?_postorder Emitter.empty
    obtain ⟨a, ha, rfl⟩ := Assembly.callAll?_of_emitAll? (a := ⟨.empty, r⟩) hr.faithful t.map_calls he
    exact ⟨a, ha, Emitter.instructions_of_emitAll? he, hdepth⟩

theorem program_means_forest_nested :
    let calls : List Call := [.constant (.ofInt .int8 (-128)), .constant (.ofInt .uint8 3),
      .constant (.ofInt .int64 1), .rightShift (.nullable (.enumeration "Small" (.ofKind .uint8))),
      .rightShift (.ofKind .int8)]
    let t : Expression := .shift .int8 (.constant (.ofInt .int8 (-128)))
      (.shift .uint8 (.constant (.ofInt .uint8 3)) (.constant (.ofInt .int64 1)))
    (∀ i, Call.instruction i ∉ calls) ∧
    ∃ a, Assembly.callAll? ⟨.empty, KindTable.empty⟩ calls = some a ∧
      (∀ us : List Expression, us.flatMap Expression.postorder = a.emitter.instructions ↔ us = [t]) ∧
      a.emitter.finish.evaluate = .ok (.ofInt .int8 (-64)) := by
  intro calls t
  have hcalls : ∀ i, Call.instruction i ∉ calls := by simp [calls]
  refine ⟨hcalls, _, rfl, ?_⟩
  obtain ⟨-, ts, hts, -, -, -, hlast, -⟩ := program_means_forest.1 _ calls _ .empty hcalls rfl
  obtain rfl : [t] = ts := (hts [t]).mp rfl
  exact ⟨hts, (hlast t rfl).trans (by decide)⟩

end StackMachine
