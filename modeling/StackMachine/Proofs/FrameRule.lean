import Mathlib.Data.List.Basic
import StackMachine.Proofs.Sequence

namespace StackMachine

/-- On every frame that has the operands it takes, the instruction succeeds and reports the number of
its results. These replace the operands taken and depend on nothing else. -/
def Instruction.Honest (i : Instruction) : Prop :=
  ∃ act : List Operand → List Operand, ∀ taken, taken.length = i.consumed →
    (act taken).length = i.produced ∧
      ∀ below, i.run.exec (.ofValues (below ++ taken)) =
        (.ok i.produced, .ofValues (below ++ act taken))

def Instruction.KeepsArity (i : Instruction) : Prop :=
  ∀ below taken : List Operand, taken.length = i.consumed →
    ∃ results : List Operand, results.length = i.produced ∧
      i.run.exec (.ofValues (below ++ taken)) = (.ok i.produced, .ofValues (below ++ results))

theorem Instruction.Honest.keepsArity {i : Instruction} (h : i.Honest) : i.KeepsArity := by
  obtain ⟨act, hact⟩ := h
  intro below taken ht
  obtain ⟨hlength, hexec⟩ := hact taken ht
  exact ⟨act taken, hlength, hexec below⟩

theorem exists_taken {vs : List Operand} {n : Nat} (h : n ≤ vs.length) :
    ∃ kept taken, kept ++ taken = vs ∧ kept.length = vs.length - n ∧ taken.length = n := by
  refine ⟨vs.take (vs.length - n), vs.drop (vs.length - n), List.take_append_drop _ _, ?_, ?_⟩
  · rw [List.length_take]
    omega
  · rw [List.length_drop]
    omega

theorem Instruction.KeepsArity.depth_exec {i : Instruction} (h : i.KeepsArity) {f : Frame}
    (hd : i.consumed ≤ f.depth) : ∃ g, i.run.exec f = (.ok i.produced, g) ∧
      g.depth = f.depth - i.consumed + i.produced := by
  rw [← f.length_values] at hd ⊢
  obtain ⟨below, taken, hvalues, hbelow, htaken⟩ := exists_taken hd
  obtain ⟨results, hlength, hexec⟩ := h below taken htaken
  rw [hvalues, Frame.ofValues_values] at hexec
  refine ⟨_, hexec, ?_⟩
  rw [Frame.depth_ofValues, List.length_append, hbelow, hlength]

theorem Instruction.Honest.of_push {i : Instruction} (act : List Operand → List Operand)
    (h : ∀ taken, taken.length = i.consumed → (act taken).length = i.produced ∧
      ∀ f : Frame, i.run.exec (taken.foldl Frame.push f) =
        (.ok i.produced, (act taken).foldl Frame.push f)) : i.Honest := by
  refine ⟨act, ?_⟩
  intro taken ht
  obtain ⟨hlength, hexec⟩ := h taken ht
  refine ⟨hlength, fun below => ?_⟩
  rw [Frame.ofValues_append, Frame.ofValues_append]
  exact hexec (.ofValues below)

theorem LoadConstant.honest (c : LoadConstant) : c.instruction.Honest := by
  apply Instruction.Honest.of_push (fun _ => [c.value])
  intro taken ht
  obtain rfl := List.eq_nil_of_length_eq_zero ht
  exact ⟨rfl, c.exec_run⟩

theorem RightShift.honest (s : RightShift) : s.instruction.Honest := by
  apply Instruction.Honest.of_push
    (fun taken => [Operand.shiftRight s.kind (taken.headD .absent) (taken.getLastD .absent)])
  intro taken ht
  obtain ⟨base, count, rfl⟩ := List.length_eq_two.mp ht
  exact ⟨rfl, fun f => s.exec_run_push_push f base count⟩

theorem Shuffle.honest {s : Shuffle} (h : s ≠ .thief) : s.instruction.Honest := by
  cases s with
  | nop =>
    apply Instruction.Honest.of_push id
    intro taken ht
    exact ⟨ht, fun f => rfl⟩
  | dup =>
    apply Instruction.Honest.of_push (fun taken => taken ++ taken)
    intro taken ht
    obtain ⟨x, rfl⟩ := List.length_eq_one_iff.mp ht
    exact ⟨rfl, fun f => rfl⟩
  | drop =>
    apply Instruction.Honest.of_push (fun _ => [])
    intro taken ht
    obtain ⟨x, rfl⟩ := List.length_eq_one_iff.mp ht
    exact ⟨rfl, fun f => rfl⟩
  | swap =>
    apply Instruction.Honest.of_push List.reverse
    intro taken ht
    obtain ⟨x, y, rfl⟩ := List.length_eq_two.mp ht
    exact ⟨rfl, fun f => rfl⟩
  | thief => exact absurd rfl h
  | wide =>
    apply Instruction.Honest.of_push (fun _ => [])
    intro taken ht
    obtain ⟨x, y, z, rfl⟩ := List.length_eq_three.mp ht
    exact ⟨rfl, fun f => rfl⟩

namespace Instruction.Honest

variable {i : Instruction}

theorem exec_above (h : i.Honest) {upper : List Operand} (hd : i.consumed ≤ upper.length) :
    ∃ next : List Operand, next.length = upper.length - i.consumed + i.produced ∧
      ∀ below, i.run.exec (.ofValues (below ++ upper)) =
        (.ok i.produced, .ofValues (below ++ next)) := by
  obtain ⟨act, hact⟩ := h
  obtain ⟨kept, taken, hupper, hkept, htaken⟩ := exists_taken hd
  obtain ⟨hlength, hexec⟩ := hact taken htaken
  refine ⟨kept ++ act taken, ?_, ?_⟩
  · rw [List.length_append, hkept, hlength]
  · intro below
    rw [← hupper, ← List.append_assoc, ← List.append_assoc]
    exact hexec (below ++ kept)

end Instruction.Honest

theorem Emitter.completes_above {is : List Instruction} {e d : Emitter} {upper : List Operand}
    (hh : ∀ i ∈ is, i.Honest) (he : e.emitAll? is = some d) (hu : upper.length = e.currentDepth) :
    ∃ final : List Operand, final.length = d.currentDepth ∧
      ∀ below, Completes is (.ofValues (below ++ upper)) (.ofValues (below ++ final)) := by
  induction is generalizing e upper with
  | nil =>
    cases he
    exact ⟨upper, hu, fun below => .nil _⟩
  | cons i is ih =>
    have hle := le_of_emitAll?_cons he
    rw [emitAll?_cons_of_le _ hle] at he
    have hi : i.Honest := hh i (by simp)
    obtain ⟨next, hlength, hexec⟩ := hi.exec_above (hu ▸ hle)
    have hn : next.length = (e.emit i).emitter.currentDepth := by
      rw [hlength, hu, currentDepth_emit hle]
    obtain ⟨final, hf, hrest⟩ := ih (fun j hj => hh j (List.mem_cons_of_mem _ hj)) he hn
    exact ⟨final, hf, fun below => .cons (hexec below) (hrest below)⟩

theorem accepted_run_leaves_frame_below :
    (∀ c : LoadConstant, c.instruction.Honest) ∧
    (∀ s : RightShift, s.instruction.Honest) ∧
    ∀ (is : List Instruction) (e : Emitter), (∀ i ∈ is, i.Honest) →
      Emitter.empty.emitAll? is = some e →
      e.finish.instructions = is ∧
      (e.finish.run .empty).frame.values.length = e.currentDepth ∧
      ∀ f : Frame, (e.finish.run f).outcome = .ok () ∧
        (e.finish.run f).frame.values = f.values ++ (e.finish.run .empty).frame.values := by
  refine ⟨LoadConstant.honest, RightShift.honest, ?_⟩
  intro is e hh he
  have hp : e.finish.instructions = is := Emitter.instructions_of_emitAll? he
  obtain ⟨final, hlength, hfinal⟩ := @Emitter.completes_above is .empty e [] hh he rfl
  have hrun (f : Frame) : (e.finish.run f).outcome = .ok () ∧
      (e.finish.run f).frame = .ofValues (f.values ++ final) := by
    have hf := hfinal f.values 0
    rwa [List.append_nil, Frame.ofValues_values, ← hp] at hf
  have hempty : (e.finish.run .empty).frame.values = final := by
    rw [(hrun .empty).2, Frame.values_ofValues]
    rfl
  rw [hempty]
  refine ⟨hp, hlength, fun f => ⟨(hrun f).1, ?_⟩⟩
  rw [(hrun f).2, Frame.values_ofValues]

theorem accepted_run_leaves_frame_below_int16 :
    let is : List Instruction := [(LoadConstant.mk (.ofInt .int16 (-300))).instruction,
      (LoadConstant.mk (.ofInt .int32 2)).instruction, (RightShift.mk .int16).instruction]
    (∀ i ∈ is, i.Honest) ∧ ∃ e : Emitter, Emitter.empty.emitAll? is = some e ∧
      (e.finish.run (.ofValues [.absent])).outcome = .ok () ∧
      (e.finish.run (.ofValues [.absent])).frame.values = [.absent, .ofInt .int16 (-75)] := by
  intro is
  have hh : ∀ i ∈ is, i.Honest := by simp [is, LoadConstant.honest, RightShift.honest]
  refine ⟨hh, _, rfl, ?_⟩
  obtain ⟨-, -, hrun⟩ := accepted_run_leaves_frame_below.2.2 is _ hh rfl
  obtain ⟨hok, hvalues⟩ := hrun (.ofValues [.absent])
  exact ⟨hok, hvalues.trans (by decide)⟩

end StackMachine
