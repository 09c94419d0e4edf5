import StackMachine.Proofs.FrameRule

namespace StackMachine

/-- Offers instructions one after another, also after refusals. Each outcome stands with the depth
that the emitter has then. -/
def Emitter.transcript (e : Emitter) : List Instruction → List (Except Fault Unit × Nat)
  | [] => []
  | i :: rest =>
    ((e.emit i).outcome, (e.emit i).emitter.currentDepth) :: (e.emit i).emitter.transcript rest

def Frame.transcript (f : Frame) : List Instruction → List (Except Fault Unit × Nat)
  | [] => []
  | i :: rest =>
    ((i.run.exec f).1.map (fun _ => ()), (i.run.exec f).2.depth) :: (i.run.exec f).2.transcript rest

inductive Instruction.Plain : Instruction → Prop
  | constant (c : LoadConstant) : Plain c.instruction
  | shift (s : RightShift) : Plain s.instruction
  | nop : Plain Shuffle.nop.instruction
  | dup : Plain Shuffle.dup.instruction
  | drop : Plain Shuffle.drop.instruction

theorem Frame.eq_empty_of_depth_lt {f : Frame} (h : f.depth < 1) : f = empty := by
  have hnil : f.operands = [] := List.eq_nil_of_length_eq_zero (Nat.lt_one_iff.mp h)
  obtain ⟨operands⟩ := f
  exact congrArg Frame.mk hnil

namespace Instruction.Plain

variable {i : Instruction}

theorem honest (h : i.Plain) : i.Honest := by
  cases h with
  | constant c => exact c.honest
  | shift s => exact s.honest
  | nop => exact Shuffle.honest (by decide)
  | dup => exact Shuffle.honest (by decide)
  | drop => exact Shuffle.honest (by decide)

theorem exec_of_lt (h : i.Plain) {f : Frame} (hd : f.depth < i.consumed) :
    i.run.exec f = (.error (.underflow i.name i.consumed f.depth), f) := by
  cases h with
  | constant c => exact absurd hd (Nat.not_lt_zero _)
  | shift s => exact s.exec_run_of_lt f hd
  | nop => exact absurd hd (Nat.not_lt_zero _)
  | dup =>
    rw [Frame.eq_empty_of_depth_lt hd]
    rfl
  | drop =>
    rw [Frame.eq_empty_of_depth_lt hd]
    rfl

theorem step (h : i.Plain) {e : Emitter} {f : Frame} (hd : e.currentDepth = f.depth) :
    (e.emit i).outcome = (i.run.exec f).1.map (fun _ => ()) ∧
      (e.emit i).emitter.currentDepth = (i.run.exec f).2.depth ∧
      ∀ fault, (e.emit i).outcome = .error fault →
        fault = .underflow i.name i.consumed (e.emit i).emitter.currentDepth := by
  rcases Nat.lt_or_ge f.depth i.consumed with hlt | hle
  · rw [h.exec_of_lt hlt, Emitter.emit_of_lt (hd ▸ hlt), hd]
    refine ⟨rfl, rfl, ?_⟩
    intro fault hf
    cases hf
    rfl
  · obtain ⟨g, hg, hdepth⟩ := h.honest.keepsArity.depth_exec hle
    rw [hg, Emitter.emit_of_le (hd ▸ hle)]
    refine ⟨rfl, ?_, ?_⟩
    · rw [hdepth, hd]
    · intro fault hf
      cases hf

end Instruction.Plain

theorem transcript_eq {is : List Instruction} (h : ∀ i ∈ is, i.Plain) {e : Emitter} {f : Frame}
    (hd : e.currentDepth = f.depth) : e.transcript is = f.transcript is := by
  induction is generalizing e f with
  | nil => rfl
  | cons i is ih =>
    obtain ⟨houtcome, hdepth, -⟩ := (h i (by simp)).step hd
    rw [Emitter.transcript, Frame.transcript, houtcome, hdepth,
      ih (fun j hj => h j (List.mem_cons_of_mem _ hj)) hdepth]

theorem length_transcript (e : Emitter) (is : List Instruction) :
    (e.transcript is).length = is.length := by
  induction is generalizing e with
  | nil => rfl
  | cons i is ih => rw [Emitter.transcript, List.length_cons, ih, List.length_cons]

theorem fault_of_transcript {is : List Instruction} (h : ∀ i ∈ is, i.Plain) {e : Emitter} {f : Frame}
    (hd : e.currentDepth = f.depth) {n : Nat} {i : Instruction} {fault : Fault} {depth : Nat}
    (hi : is[n]? = some i) (hn : (e.transcript is)[n]? = some (.error fault, depth)) :
    fault = .underflow i.name i.consumed depth := by
  induction is generalizing e f n with
  | nil => simp at hi
  | cons j is ih =>
    obtain ⟨-, hdepth, hfault⟩ := (h j (by simp)).step hd
    cases n with
    | zero =>
      obtain rfl := Option.some.inj hi
      obtain ⟨houtcome, rfl⟩ := Prod.mk.inj (Option.some.inj hn)
      exact hfault fault houtcome
    | succ n => exact ih (fun j hj => h j (List.mem_cons_of_mem _ hj)) hdepth hi hn

theorem emit_transcript_eq_run_transcript (is : List Instruction) (h : ∀ i ∈ is, i.Plain) :
    (Emitter.empty.transcript is).length = is.length ∧
    Emitter.empty.transcript is = Frame.empty.transcript is ∧
    ∀ (n : Nat) (i : Instruction) (fault : Fault) (depth : Nat), is[n]? = some i →
      (Emitter.empty.transcript is)[n]? = some (.error fault, depth) →
      fault = .underflow i.name i.consumed depth := by
  have hd : Emitter.empty.currentDepth = Frame.empty.depth := rfl
  refine ⟨length_transcript _ is, transcript_eq h hd, ?_⟩
  intro n i fault depth hi hn
  exact fault_of_transcript h hd hi hn

theorem emit_transcript_eq_run_transcript_mixed :
    let is : List Instruction := [Shuffle.drop.instruction, (LoadConstant.mk (.ofInt .int64 (-32))).instruction,
      (RightShift.mk .int64).instruction, Shuffle.dup.instruction, (RightShift.mk .int64).instruction]
    (∀ i ∈ is, i.Plain) ∧ Emitter.empty.transcript is = Frame.empty.transcript is ∧
      Emitter.empty.transcript is = [(.error (.underflow "Drop" 1 0), 0), (.ok (), 1),
        (.error (.underflow "RightShift" 2 1), 1), (.ok (), 2), (.ok (), 1)] := by
  intro is
  have h : ∀ i ∈ is, i.Plain := by
    simp only [is, List.forall_mem_cons]
    exact ⟨.drop, .constant _, .shift _, .dup, .shift _, by simp⟩
  exact ⟨h, (emit_transcript_eq_run_transcript is h).2.1, rfl⟩

end StackMachine
