import StackMachine.Emitter
import StackMachine.Proofs.Canonical

/-!
Whatever a client does with the operations of the machine, it only comes to hold canonical scalars.
Operations add to what a client holds: a frame or an emitter that changes stays beside the new one.
-/

namespace StackMachine

/-- The instruction gets the operands that it pushes from the frame or makes them from bits: it does
not lead out of any family of operands that holds the absent one and all that are made from bits. -/
def Instruction.Confined (i : Instruction) : Prop :=
  ∀ P : Operand → Prop, P .absent → (∀ k bits, P (.present (.ofBits k bits))) →
    ∀ f : Frame, f.Within P → (i.run.exec f).2.Within P

theorem Shuffle.confined (s : Shuffle) : s.instruction.Confined := by
  intro P _ _
  have hkeeps : FrameM.Keeps P s.run (fun _ => True) := by
    cases s with
    | nop => exact .pure trivial
    | dup =>
      apply FrameM.Keeps.bind (.popFor _)
      intro x hx
      apply FrameM.Keeps.bind (.push hx)
      intro _ _
      apply FrameM.Keeps.bind (.push hx)
      intro _ _
      exact .pure trivial
    | drop =>
      apply FrameM.Keeps.bind (.popFor _)
      intro _ _
      exact .pure trivial
    | swap =>
      apply FrameM.Keeps.bind (.popFor _)
      intro y hy
      apply FrameM.Keeps.bind (.popFor _)
      intro x hx
      apply FrameM.Keeps.bind (.push hy)
      intro _ _
      apply FrameM.Keeps.bind (.push hx)
      intro _ _
      exact .pure trivial
    | thief =>
      apply FrameM.Keeps.bind (.popFor _)
      intro _ _
      exact .pure trivial
    | wide =>
      apply FrameM.Keeps.bind (.popFor _)
      intro _ _
      apply FrameM.Keeps.bind (.popFor _)
      intro _ _
      apply FrameM.Keeps.bind (.popFor _)
      intro _ _
      exact .pure trivial
  intro f hf
  exact (hkeeps f hf).1

theorem Operand.shiftRight_of_closed {P : Operand → Prop} (ha : P .absent)
    (hb : ∀ k bits, P (.present (.ofBits k bits))) (k : Kind) (v c : Operand) : P (shiftRight k v c) := by
  cases v with
  | absent => exact ha
  | present s =>
    cases c with
    | absent => exact ha
    | present t => exact hb k _

theorem RightShift.confined (s : RightShift) : s.instruction.Confined := by
  intro P ha hb f hf
  change (s.run.exec f).2.Within P
  obtain ⟨_ | ⟨count, _ | ⟨base, rest⟩⟩⟩ := f
  · rw [s.exec_run_of_lt ⟨[]⟩ (by decide)]
    exact hf
  · rw [s.exec_run_of_lt ⟨[count]⟩ (show 1 < 2 by decide)]
    exact hf
  · have hrest : Frame.Within P ⟨rest⟩ := fun v hv => hf v (by simp [hv])
    exact hrest.push (Operand.shiftRight_of_closed ha hb s.kind base count)

def Instruction.Canonical (i : Instruction) : Prop :=
  ∀ f : Frame, f.Within Operand.Canonical → (i.run.exec f).2.Within Operand.Canonical

theorem Instruction.Confined.canonical {i : Instruction} (h : i.Confined) : i.Canonical :=
  h Operand.Canonical trivial Scalar.canonical_ofBits

theorem LoadConstant.canonical_iff {c : LoadConstant} : c.instruction.Canonical ↔ c.value.Canonical := by
  constructor
  · intro h
    exact h Frame.empty .empty c.value (by simp [Frame.push])
  · intro h f hf
    exact hf.push h

theorem Run.canonical_frame {is : List Instruction} (his : ∀ i ∈ is, i.Canonical) {f : Frame}
    (hf : f.Within Operand.Canonical) (index : Nat) :
    (ofInstructions index is f).frame.Within Operand.Canonical := by
  induction is generalizing index f with
  | nil => exact hf
  | cons i is ih =>
    have hg := his i (by simp) f hf
    rw [ofInstructions]
    generalize i.run.exec f = result at hg
    obtain ⟨fault | delta, g⟩ := result
    · exact hg
    · exact ih (fun j hj => his j (List.mem_cons_of_mem _ hj)) hg (index + 1)

theorem Program.canonical_evaluate {p : Program} (hp : ∀ i ∈ p.instructions, i.Canonical) {v : Operand}
    (h : p.evaluate = .ok v) : v.Canonical := by
  have hf : (p.run .empty).frame.Within Operand.Canonical := Run.canonical_frame hp .empty 0
  simp only [evaluate] at h
  generalize p.run .empty = r at h hf
  obtain ⟨_ | _, frame, trace⟩ := r
  · cases h
  · exact (hf.popFor rfl).2 v h

namespace Emitter

variable {e : Emitter} {i : Instruction}

theorem canonical_emit (he : ∀ j ∈ e.instructions, j.Canonical) (hi : i.Canonical) :
    ∀ j ∈ (e.emit i).emitter.instructions, j.Canonical := by
  rcases Nat.lt_or_ge e.currentDepth i.consumed with hlt | hle
  · rw [emit_of_lt hlt]
    exact he
  · rw [emit_of_le hle]
    exact List.forall_mem_append.mpr ⟨he, List.forall_mem_singleton.mpr hi⟩

theorem canonical_emitRightShift (he : ∀ j ∈ e.instructions, j.Canonical) (r : Registry)
    (t : StaticType) : ∀ j ∈ (e.emitRightShift r t).emitter.instructions, j.Canonical := by
  simp only [emitRightShift]
  cases (r.create t).outcome with
  | error fault => exact he
  | ok shared => exact canonical_emit he (RightShift.confined _).canonical

end Emitter

inductive Item where
  | scalar (s : Scalar)
  | operand (v : Operand)
  | frame (f : Frame)
  | constant (c : LoadConstant)
  | instruction (i : Instruction)
  | emitter (e : Emitter)
  | program (p : Program)

namespace Item

def Holds : Item → Operand → Prop
  | scalar s, v => v = .present s
  | operand w, v => v = w
  | frame f, v => v ∈ f.operands
  | constant c, v => v = c.value
  | instruction i, v => i = (LoadConstant.mk v).instruction
  | emitter e, v => (LoadConstant.mk v).instruction ∈ e.instructions
  | program p, v => (LoadConstant.mk v).instruction ∈ p.instructions

def Canonical : Item → Prop
  | scalar s => s.Canonical
  | operand v => v.Canonical
  | frame f => f.Within Operand.Canonical
  | constant c => c.value.Canonical
  | instruction i => i.Canonical
  | emitter e => ∀ i ∈ e.instructions, i.Canonical
  | program p => ∀ i ∈ p.instructions, i.Canonical

theorem Canonical.holds {item : Item} {v : Operand} (h : item.Canonical) (hv : item.Holds v) :
    v.Canonical := by
  cases item with
  | scalar s =>
    cases hv
    exact h
  | operand w =>
    cases hv
    exact h
  | frame f => exact h v hv
  | constant c =>
    cases hv
    exact h
  | instruction i =>
    cases hv
    exact LoadConstant.canonical_iff.mp h
  | emitter e => exact LoadConstant.canonical_iff.mp (h _ hv)
  | program p => exact LoadConstant.canonical_iff.mp (h _ hv)

end Item

structure Client where
  items : List Item
  registry : Registry

namespace Client

/-- The operations: what each gives to a client, from what it holds, and the registry after it. -/
inductive Obtains (c : Client) : List Item → Registry → Prop
  | scalarOfBits (k : Kind) (bits : BitVec 64) : Obtains c [.scalar (.ofBits k bits)] c.registry
  | scalarOfInt (k : Kind) (x : Int) : Obtains c [.scalar (.ofInt k x)] c.registry
  | scalarDecoded (text : String) {s : Scalar} (h : Wire.decode? text = some s) :
      Obtains c [.scalar s] c.registry
  | shifted {s : Scalar} (h : .scalar s ∈ c.items) (k : Kind) (count : BitVec 32) :
      Obtains c [.scalar (.shiftRight k s count)] c.registry
  | scalarOfOperand {s : Scalar} (h : .operand (.present s) ∈ c.items) :
      Obtains c [.scalar s] c.registry
  | operandAbsent : Obtains c [.operand .absent] c.registry
  | operandOfScalar {s : Scalar} (h : .scalar s ∈ c.items) :
      Obtains c [.operand (.present s)] c.registry
  | operandOfInt (k : Kind) (x : Int) : Obtains c [.operand (.ofInt k x)] c.registry
  | operandDecoded (text : String) {v : Operand} (h : Wire.decode? text = some v) :
      Obtains c [.operand v] c.registry
  | operandsDecoded (text : String) {vs : List Operand} (h : Wire.decode? text = some vs) :
      Obtains c (vs.map .operand) c.registry
  | frameEmpty : Obtains c [.frame .empty] c.registry
  | frameDecoded (text : String) {f : Frame} (h : Wire.decode? text = some f) :
      Obtains c [.frame f] c.registry
  | pushed {f : Frame} {v : Operand} (hf : .frame f ∈ c.items) (hv : .operand v ∈ c.items) :
      Obtains c [.frame (f.push v)] c.registry
  | popped {f g : Frame} {v : Operand} (hf : .frame f ∈ c.items) (name : String)
      (h : f.popFor name = (.ok v, g)) : Obtains c [.operand v, .frame g] c.registry
  | popFailed {f g : Frame} {fault : Fault} (hf : .frame f ∈ c.items) (name : String)
      (h : f.popFor name = (.error fault, g)) : Obtains c [.frame g] c.registry
  | peeked {f : Frame} {v : Operand} (hf : .frame f ∈ c.items) (h : f.peek? = some v) :
      Obtains c [.operand v] c.registry
  | values {f : Frame} (hf : .frame f ∈ c.items) : Obtains c (f.values.map .operand) c.registry
  | constant {v : Operand} (hv : .operand v ∈ c.items) : Obtains c [.constant ⟨v⟩] c.registry
  | constantValue {l : LoadConstant} (h : .constant l ∈ c.items) :
      Obtains c [.operand l.value] c.registry
  | constantInstruction {l : LoadConstant} (h : .constant l ∈ c.items) :
      Obtains c [.instruction l.instruction] c.registry
  | shiftOfKind (k : Kind) : Obtains c
      [.instruction (c.registry.forKind k).shared.value.instruction] (c.registry.forKind k).table
  | shiftOfType (t : StaticType) {shared : Shared RightShift}
      (h : (c.registry.create t).outcome = .ok shared) :
      Obtains c [.instruction shared.value.instruction] (c.registry.create t).registry
  | shuffle (s : Shuffle) : Obtains c [.instruction s.instruction] c.registry
  | ownInstruction {i : Instruction} (hi : i.Confined) : Obtains c [.instruction i] c.registry
  | instructionRun {i : Instruction} {f : Frame} (hi : .instruction i ∈ c.items)
      (hf : .frame f ∈ c.items) : Obtains c [.frame (i.run.exec f).2] c.registry
  | emitterEmpty : Obtains c [.emitter .empty] c.registry
  | emitted {e : Emitter} {i : Instruction} (he : .emitter e ∈ c.items)
      (hi : .instruction i ∈ c.items) : Obtains c [.emitter (e.emit i).emitter] c.registry
  | constantEmitted {e : Emitter} {v : Operand} (he : .emitter e ∈ c.items)
      (hv : .operand v ∈ c.items) : Obtains c [.emitter (e.emitConstant v).emitter] c.registry
  | shiftEmitted {e : Emitter} (he : .emitter e ∈ c.items) (t : StaticType) :
      Obtains c [.emitter (e.emitRightShift c.registry t).emitter]
        (e.emitRightShift c.registry t).registry
  | finished {e : Emitter} (he : .emitter e ∈ c.items) : Obtains c [.program e.finish] c.registry
  | instructions {p : Program} (hp : .program p ∈ c.items) :
      Obtains c (p.instructions.map .instruction) c.registry
  | programRun {p : Program} {f : Frame} (hp : .program p ∈ c.items) (hf : .frame f ∈ c.items) :
      Obtains c [.frame (p.run f).frame] c.registry
  | evaluated {p : Program} {v : Operand} (hp : .program p ∈ c.items) (h : p.evaluate = .ok v) :
      Obtains c [.operand v] c.registry

inductive Reachable : Client → Prop
  | start : Reachable ⟨[], KindTable.empty⟩
  | step {c : Client} {items : List Item} {registry : Registry} (hc : Reachable c)
      (h : c.Obtains items registry) : Reachable ⟨items ++ c.items, registry⟩

theorem Obtains.canonical {c : Client} {items : List Item} {registry : Registry}
    (h : c.Obtains items registry) (hc : ∀ item ∈ c.items, item.Canonical) :
    ∀ item ∈ items, item.Canonical := by
  have single {item : Item} (hitem : item.Canonical) : ∀ other ∈ [item], other.Canonical :=
    List.forall_mem_singleton.mpr hitem
  cases h with
  | scalarOfBits k bits => exact single (Scalar.canonical_ofBits k bits)
  | scalarOfInt k x => exact single (Scalar.canonical_ofBits k _)
  | scalarDecoded text h =>
    obtain ⟨j, hj⟩ := Wire.exists_of_decode? h
    exact single (Json.canonical_scalar hj)
  | shifted h k count => exact single (Scalar.canonical_shiftRight k _ count)
  | scalarOfOperand h =>
    have hs := hc _ h
    exact single hs
  | operandAbsent => exact single trivial
  | operandOfScalar h =>
    have hs := hc _ h
    exact single hs
  | operandOfInt k x => exact single (Scalar.canonical_ofBits k _)
  | operandDecoded text h =>
    obtain ⟨j, hj⟩ := Wire.exists_of_decode? h
    exact single (Json.canonical_operand hj)
  | operandsDecoded text h =>
    obtain ⟨j, hj⟩ := Wire.exists_of_decode? h
    exact List.forall_mem_map.mpr (Json.canonical_operands hj)
  | frameEmpty => exact single Frame.Within.empty
  | frameDecoded text h =>
    obtain ⟨j, hj⟩ := Wire.exists_of_decode? h
    exact single (Json.canonical_frame hj)
  | pushed hf hv => exact single (Frame.Within.push (hc _ hf) (hc _ hv))
  | popped hf name h =>
    obtain ⟨hg, hv⟩ := Frame.Within.popFor (hc _ hf) h
    exact List.forall_mem_cons.mpr ⟨hv _ rfl, single hg⟩
  | popFailed hf name h => exact single (Frame.Within.popFor (hc _ hf) h).1
  | peeked hf h => exact single (hc _ hf _ (List.mem_of_head? h))
  | values hf => exact List.forall_mem_map.mpr (fun v hv => Frame.Within.values (hc _ hf) hv)
  | constant hv =>
    have hvalue := hc _ hv
    exact single hvalue
  | constantValue h =>
    have hvalue := hc _ h
    exact single hvalue
  | constantInstruction h => exact single (LoadConstant.canonical_iff.mpr (hc _ h))
  | shiftOfKind k => exact single (RightShift.confined _).canonical
  | shiftOfType t h => exact single (RightShift.confined _).canonical
  | shuffle s => exact single s.confined.canonical
  | ownInstruction hi => exact single hi.canonical
  | instructionRun hi hf => exact single (hc _ hi _ (hc _ hf))
  | emitterEmpty => exact single (fun i hi => by cases hi)
  | emitted he hi => exact single (Emitter.canonical_emit (hc _ he) (hc _ hi))
  | constantEmitted he hv =>
    exact single (Emitter.canonical_emit (hc _ he) (LoadConstant.canonical_iff.mpr (hc _ hv)))
  | shiftEmitted he t => exact single (Emitter.canonical_emitRightShift (hc _ he) c.registry t)
  | finished he =>
    have hinstructions := hc _ he
    exact single hinstructions
  | instructions hp => exact List.forall_mem_map.mpr (hc _ hp)
  | programRun hp hf => exact single (Run.canonical_frame (hc _ hp) (hc _ hf) 0)
  | evaluated hp h => exact single (Program.canonical_evaluate (hc _ hp) h)

theorem Reachable.canonical {c : Client} (h : c.Reachable) : ∀ item ∈ c.items, item.Canonical := by
  induction h with
  | start =>
    intro item hitem
    cases hitem
  | step _ h ih => exact List.forall_mem_append.mpr ⟨h.canonical ih, ih⟩

end Client

def Operand.Obtainable (v : Operand) : Prop :=
  ∃ c : Client, c.Reachable ∧ ∃ item ∈ c.items, item.Holds v

theorem Operand.Obtainable.canonical {v : Operand} (h : v.Obtainable) : v.Canonical := by
  obtain ⟨c, hc, item, hitem, hv⟩ := h
  exact (hc.canonical item hitem).holds hv

def Frame.Reachable (f : Frame) : Prop :=
  ∃ c : Client, c.Reachable ∧ .frame f ∈ c.items

theorem Client.Reachable.exists_operand {c : Client} (hc : c.Reachable) {v : Operand} (hv : v.Canonical) :
    ∃ d : Client, d.Reachable ∧ .operand v ∈ d.items ∧ ∀ item ∈ c.items, item ∈ d.items := by
  cases v with
  | absent => exact ⟨_, .step hc .operandAbsent, by simp, fun item hi => List.mem_cons_of_mem _ hi⟩
  | present s =>
    have hs := Client.Reachable.step hc (.scalarOfBits s.kind s.bits)
    rw [hv] at hs
    have hoperand := Client.Reachable.step hs (.operandOfScalar (s := s) (by simp))
    exact ⟨_, hoperand, by simp, fun item hi => List.mem_cons_of_mem _ (List.mem_cons_of_mem _ hi)⟩

theorem Operand.obtainable_iff {v : Operand} : v.Obtainable ↔ v.Canonical := by
  constructor
  · exact Obtainable.canonical
  · intro hv
    obtain ⟨c, hc, hitem, -⟩ := Client.Reachable.start.exists_operand hv
    exact ⟨c, hc, .operand v, hitem, rfl⟩

theorem Frame.reachable_iff {f : Frame} : f.Reachable ↔ f.Within Operand.Canonical := by
  constructor
  · rintro ⟨c, hc, hf⟩
    exact hc.canonical _ hf
  · intro hf
    obtain ⟨operands⟩ := f
    induction operands with
    | nil => exact ⟨_, .step .start .frameEmpty, by simp [Frame.empty]⟩
    | cons v operands ih =>
      obtain ⟨hv, hrest⟩ := List.forall_mem_cons.mp hf
      obtain ⟨c, hc, hframe⟩ := ih hrest
      obtain ⟨d, hd, hoperand, hkept⟩ := hc.exists_operand hv
      exact ⟨_, .step hd (.pushed (hkept _ hframe) hoperand), by simp [Frame.push]⟩

theorem obtainable_operands_canonical :
    (∀ c : Client, c.Reachable → ∀ item ∈ c.items, ∀ s, item.Holds (.present s) →
      Scalar.ofBits s.kind s.bits = s) ∧
    ∀ v w : Operand, v.Obtainable → w.Obtainable →
      (v = w ↔ v = .absent ∧ w = .absent ∨ ∃ s t, v = .present s ∧ w = .present t ∧
        s.kind = t.kind ∧ s.kind.denote s.bits = t.kind.denote t.bits) := by
  constructor
  · intro c hc item hitem s hs
    exact (hc.canonical item hitem).holds hs
  · intro v w hv hw
    exact hv.canonical.eq_iff hw.canonical

theorem obtainable_operands_canonical_int8 :
    let text := "\x7b\"Present\":\x7b\"kind\":\"Int8\",\"bits\":255\x7d\x7d"
    let v : Operand := .present ⟨.int8, -1⟩
    Wire.decode? text = some v ∧ v.Obtainable ∧ (Operand.ofInt .int8 (-1)).Obtainable ∧
      v = .ofInt .int8 (-1) := by
  intro text v
  have hdecode : Wire.decode? text = some v := by decide +kernel
  have hv : v.Obtainable :=
    ⟨_, .step .start (.operandDecoded text hdecode), .operand v, by simp, rfl⟩
  have hw : (Operand.ofInt .int8 (-1)).Obtainable :=
    ⟨_, .step .start (.operandOfInt .int8 (-1)), .operand (.ofInt .int8 (-1)), by simp, rfl⟩
  refine ⟨hdecode, hv, hw, ?_⟩
  exact (obtainable_operands_canonical.2 v _ hv hw).mpr (.inr ⟨_, _, rfl, rfl, rfl, by decide⟩)

end StackMachine
