import StackMachine.Proofs.Folding

namespace StackMachine

def Program.runThen (p q : Program) (f : Frame) : Except Fault Unit × Frame :=
  match (p.run f).outcome with
  | .error fault => (.error fault, (p.run f).frame)
  | .ok () => ((q.run (p.run f).frame).outcome, (q.run (p.run f).frame).frame)

theorem Program.run_eq_runThen {p q r : Program}
    (h : r.instructions = p.instructions ++ q.instructions) (f : Frame) :
    ((r.run f).outcome, (r.run f).frame) = p.runThen q f := by
  rw [run, h, Run.ofInstructions_append, runThen, run]
  generalize Run.ofInstructions 0 p.instructions f = first
  obtain ⟨fault | _, g, trace⟩ := first
  · rfl
  · -- the instructions of `q` have other numbers here than in a run of their own
    obtain ⟨houtcome, hframe⟩ :=
      Interchangeable.refl q.instructions (0 + p.instructions.length) 0 g
    exact Prod.ext houtcome hframe

namespace Emitter

/-- The emitter `c` is as far beyond `d` as `e` is beyond an empty emitter. -/
structure Continues (d e c : Emitter) : Prop where
  instructions : c.instructions = d.instructions ++ e.instructions
  currentDepth : c.currentDepth = d.currentDepth + e.currentDepth
  maxDepth : c.maxDepth = max d.maxDepth (d.currentDepth + e.maxDepth)

variable {c d e : Emitter} {w : Counter}

theorem Continues.start (h : d.currentDepth ≤ d.maxDepth) : Continues d empty d where
  instructions := (List.append_nil _).symm
  currentDepth := rfl
  maxDepth := (Nat.max_eq_left h).symm

theorem Continues.emit (h : Continues d e c) {i : Instruction} (hi : i.consumed ≤ e.currentDepth)
    (hfits : d.currentDepth + (e.emit i w).emitter.maxDepth < UInt64.size) :
    Continues d (e.emit i w).emitter (c.emit i w).emitter := by
  obtain ⟨hinstructions, hdepth, hmax⟩ := h
  have hc : i.consumed ≤ c.currentDepth := by omega
  rw [emit_eq_of_le hi] at hfits ⊢
  dsimp only at hfits
  have hsum : c.currentDepth - i.consumed + i.produced =
      d.currentDepth + (e.currentDepth - i.consumed + i.produced) := by omega
  have hnext : w.hold (c.currentDepth - i.consumed + i.produced) =
      d.currentDepth + w.hold (e.currentDepth - i.consumed + i.produced) := by
    rw [hsum]
    apply Counter.hold_add
    omega
  rw [emit_eq_of_le hc, hnext]
  refine ⟨?_, rfl, ?_⟩
  · dsimp only
    rw [hinstructions, List.append_assoc]
  · dsimp only
    omega

theorem maxDepth_le_of_emitAll? {is : List Instruction} (h : e.emitAll? is w = some d) :
    e.maxDepth ≤ d.maxDepth := by
  induction is generalizing e with
  | nil =>
    cases h
    exact Nat.le_refl _
  | cons i is ih =>
    have hi := le_of_emitAll?_cons h
    rw [emitAll?_cons_of_le _ hi] at h
    have hle := ih h
    rw [emit_eq_of_le hi] at hle
    exact Nat.le_trans (Nat.le_max_left _ _) hle

theorem Continues.emitAll? {is : List Instruction} {e' : Emitter} (h : Continues d e c)
    (he : e.emitAll? is w = some e') (hfits : d.currentDepth + e'.maxDepth < UInt64.size) :
    ∃ c', c.emitAll? is w = some c' ∧ Continues d e' c' := by
  induction is generalizing e c with
  | nil =>
    cases he
    exact ⟨c, rfl, h⟩
  | cons i is ih =>
    have hi := le_of_emitAll?_cons he
    have hc : i.consumed ≤ c.currentDepth := by
      have hdepth := h.currentDepth
      omega
    rw [emitAll?_cons_of_le _ hi] at he
    rw [emitAll?_cons_of_le _ hc]
    have hle := maxDepth_le_of_emitAll? he
    exact ih (h.emit hi (by omega)) he

theorem currentDepth_le_maxDepth {is : List Instruction} (h : e.currentDepth ≤ e.maxDepth)
    (hd : e.emitAll? is w = some d) : d.currentDepth ≤ d.maxDepth := by
  induction is generalizing e with
  | nil =>
    cases hd
    exact h
  | cons i is ih =>
    have hi := le_of_emitAll?_cons hd
    rw [emitAll?_cons_of_le _ hi] at hd
    apply ih _ hd
    rw [emit_eq_of_le hi]
    exact Nat.le_max_right _ _

end Emitter

theorem composed_program_runs_in_sequence (p q : List Instruction) (d e : Emitter)
    (hd : Emitter.empty.emitAll? p .word = some d) (he : Emitter.empty.emitAll? q .word = some e)
    (hfits : d.currentDepth + e.maxDepth < UInt64.size) :
    ∃ c, Emitter.empty.emitAll? (p ++ q) .word = some c ∧
      c.length = d.length + e.length ∧
      c.currentDepth = d.currentDepth + e.currentDepth ∧
      c.maxDepth = max d.maxDepth (d.currentDepth + e.maxDepth) ∧
      ∀ f : Frame, ((c.finish.run f).outcome, (c.finish.run f).frame) = d.finish.runThen e.finish f := by
  have hle : d.currentDepth ≤ d.maxDepth := Emitter.currentDepth_le_maxDepth (Nat.le_refl 0) hd
  obtain ⟨c, hc, hcontinues⟩ := (Emitter.Continues.start hle).emitAll? he hfits
  refine ⟨c, ?_, ?_, hcontinues.currentDepth, hcontinues.maxDepth, ?_⟩
  · rw [Emitter.emitAll?_append, hd, Option.bind_some, hc]
  · rw [Emitter.length, hcontinues.instructions, List.length_append]
    rfl
  · exact Program.run_eq_runThen hcontinues.instructions

theorem composed_program_runs_in_sequence_thieves :
    let p : List Instruction := [(LoadConstant.mk (.ofInt .int8 (-5))).instruction, Shuffle.thief.instruction]
    let q : List Instruction := [Shuffle.thief.instruction, (LoadConstant.mk .absent).instruction]
    ∃ d e c, Emitter.empty.emitAll? p .word = some d ∧ Emitter.empty.emitAll? q .word = some e ∧
      d.currentDepth + e.maxDepth < UInt64.size ∧
      Emitter.empty.emitAll? (p ++ q) .word = some c ∧ c.maxDepth = 2 ∧
      (c.finish.run .empty).outcome = .error (.underflow "Thief" 1 0) ∧
      (c.finish.run (.ofValues [.absent])).frame = .ofValues [.absent] := by
  intro p q
  obtain ⟨c, hc, -, -, hmax, hrun⟩ := composed_program_runs_in_sequence p q _ _ rfl rfl (by decide)
  refine ⟨_, _, c, rfl, rfl, by decide, hc, hmax, ?_, ?_⟩
  · exact congrArg Prod.fst (hrun .empty)
  · exact congrArg Prod.snd (hrun (.ofValues [.absent]))

theorem composed_program_refused_at_word_limit :
    let p : List Instruction := [.reserve (UInt64.size / 2)]
    let q : List Instruction := [.reserve (UInt64.size / 2), Shuffle.drop.instruction]
    (Emitter.empty.emitAll? p .word).isSome = true ∧ (Emitter.empty.emitAll? q .word).isSome = true ∧
      (Emitter.empty.emitAll? (p ++ q) .word).isSome = false :=
  ⟨rfl, rfl, rfl⟩

end StackMachine
