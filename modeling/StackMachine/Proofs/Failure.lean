import StackMachine.Proofs.FrameRule
import StackMachine.Proofs.Stepwise

namespace StackMachine

def FrameM.FailsEmpty {α : Type} (name : String) (action : FrameM α) : Prop :=
  ∀ f fault, (action.exec f).1 = .error fault →
    fault = .underflow name 1 0 ∧ (action.exec f).2 = .empty

namespace FrameM.FailsEmpty

variable {α β : Type} {name : String}

theorem pure (a : α) : FailsEmpty name (Pure.pure a) := by
  intro f fault h
  cases h

theorem push (v : Operand) : FailsEmpty name (FrameM.push v) := by
  intro f fault h
  cases h

theorem popFor : FailsEmpty name (FrameM.popFor name) := by
  intro f fault h
  obtain ⟨_ | ⟨v, rest⟩⟩ := f
  · cases h
    exact ⟨rfl, rfl⟩
  · cases h

theorem bind {action : FrameM α} {next : α → FrameM β} (h : FailsEmpty name action)
    (hn : ∀ a, FailsEmpty name (next a)) : FailsEmpty name (action >>= next) := by
  intro f fault hfault
  have hf := h f
  rw [exec_bind] at hfault ⊢
  generalize action.exec f = result at hf hfault
  obtain ⟨e | a, g⟩ := result
  · cases hfault
    exact hf fault rfl
  · exact hn a g fault hfault

end FrameM.FailsEmpty

theorem Shuffle.failsEmpty (s : Shuffle) : FrameM.FailsEmpty s.name s.run := by
  open FrameM.FailsEmpty in
  cases s with
  | nop => exact pure 0
  | dup =>
    apply bind popFor
    intro x
    apply bind (push x)
    intro _
    apply bind (push x)
    intro _
    exact pure 2
  | drop =>
    apply bind popFor
    intro _
    exact pure 0
  | swap =>
    apply bind popFor
    intro y
    apply bind popFor
    intro x
    apply bind (push y)
    intro _
    apply bind (push x)
    intro _
    exact pure 2
  | thief =>
    apply bind popFor
    intro _
    exact pure 0
  | wide =>
    apply bind popFor
    intro _
    apply bind popFor
    intro _
    apply bind popFor
    intro _
    exact pure 0

theorem RightShift.exec_error {s : RightShift} {f : Frame} {fault : Fault}
    (h : (s.instruction.run.exec f).1 = .error fault) :
    f.depth ≤ 1 ∧ fault = .underflow operator 2 f.depth ∧ (s.instruction.run.exec f).2 = f := by
  by_cases hd : f.depth < 2
  · have hexec : s.instruction.run.exec f = _ := s.exec_run_of_lt f hd
    rw [hexec] at h ⊢
    cases h
    exact ⟨Nat.le_of_lt_succ hd, rfl, rfl⟩
  · obtain ⟨g, hg, -⟩ := s.honest.keepsArity.depth_exec (Nat.le_of_not_lt hd)
    rw [hg] at h
    cases h

inductive Operation where
  | constant (c : LoadConstant)
  | shift (s : RightShift)
  | shuffle (s : Shuffle)
  deriving DecidableEq

def Operation.instruction : Operation → Instruction
  | constant c => c.instruction
  | shift s => s.instruction
  | shuffle s => s.instruction

theorem Operation.exec_error {op : Operation} {g : Frame} {fault : Fault}
    (h : (op.instruction.run.exec g).1 = .error fault) :
    (∃ s, op = .shift s ∧ (op.instruction.run.exec g).2 = g ∧ g.depth ≤ 1 ∧
      fault = .underflow "RightShift" 2 g.depth) ∨
    ∃ s, op = .shuffle s ∧ (op.instruction.run.exec g).2 = .empty ∧ fault = .underflow s.name 1 0 := by
  cases op with
  | constant c => cases h
  | shift s =>
    obtain ⟨hdepth, hfault, hsame⟩ := RightShift.exec_error h
    exact .inl ⟨s, rfl, hsame, hdepth, hfault⟩
  | shuffle s =>
    obtain ⟨hfault, hempty⟩ := s.failsEmpty g fault h
    exact .inr ⟨s, rfl, hempty, hfault⟩

theorem failing_run_stops_at_one_instruction (p : Program) (ops : List Operation)
    (hp : p.instructions = ops.map Operation.instruction) (f : Frame) (fault : Fault)
    (hfail : (p.run f).outcome = .error fault) :
    (∃! n, ∃ i e, FailsAt p.instructions f n i e) ∧
    ∀ n i e, FailsAt p.instructions f n i e →
      let g := f.after (p.instructions.take n)
      i.run.exec g = (.error fault, (p.run f).frame) ∧
      (p.run f).trace.length = n ∧ Run.Records (p.run f).trace 0 (p.instructions.take n) f ∧
      ∃ op, ops[n]? = some op ∧ i = op.instruction ∧
        (∀ c, op ≠ .constant c) ∧
        (∀ s, op = .shift s →
          (p.run f).frame = g ∧ g.depth ≤ 1 ∧ fault = .underflow "RightShift" 2 g.depth) ∧
        (∀ s, op = .shuffle s →
          (p.run f).frame = .empty ∧ fault = .underflow s.name 1 0) ∧
        ∀ operator type, fault ≠ .unsupported operator type := by
  obtain ⟨n, i, hn⟩ := Run.exists_failsAt hfail
  refine ⟨⟨n, ⟨i, fault, hn⟩, ?_⟩, ?_⟩
  · rintro m ⟨j, e, hm⟩
    exact hm.unique hn
  clear hn
  intro n i e hn g
  obtain ⟨houtcome, hframe, hrecords⟩ := hn.run 0
  obtain rfl : e = fault := Except.error.inj (houtcome.symm.trans hfail)
  have hi := hn.instruction
  rw [hp, List.getElem?_map] at hi
  obtain ⟨op, hop, rfl⟩ := Option.map_eq_some_iff.mp hi
  have herror : (op.instruction.run.exec g).1 = .error e := hn.error
  have hlt : n < p.instructions.length := (List.getElem?_eq_some_iff.mp hn.instruction).1
  refine ⟨Prod.ext herror hframe.symm, ?_, hrecords, op, hop, rfl, ?_⟩
  · rw [Program.run, hrecords.1, List.length_take]
    omega
  have hleft : (p.run f).frame = (op.instruction.run.exec g).2 := hframe
  rw [hleft]
  rcases Operation.exec_error herror with ⟨s, rfl, hsame, hdepth, rfl⟩ | ⟨s, rfl, hempty, rfl⟩
  · refine ⟨by simp, ?_, by simp, by simp⟩
    rintro t ⟨⟩
    exact ⟨hsame, hdepth, rfl⟩
  · refine ⟨by simp, by simp, ?_, by simp⟩
    rintro t ⟨⟩
    exact ⟨hempty, rfl⟩

theorem failing_run_stops_at_one_instruction_wide :
    let ops : List Operation := [.constant ⟨.ofInt .int8 3⟩, .shuffle .thief, .shuffle .wide, .shift ⟨.int8⟩]
    let p : Program := ⟨ops.map Operation.instruction, 1⟩
    let f : Frame := .ofValues [.absent, .ofInt .uint8 200]
    (p.run f).outcome = .error (.underflow "Wide" 1 0) ∧
      (∃ i e, FailsAt p.instructions f 2 i e) ∧ (p.run f).trace.length = 2 ∧
      (p.run f).frame = .empty := by
  intro ops p f
  have hfail : (p.run f).outcome = .error (.underflow "Wide" 1 0) := rfl
  obtain ⟨⟨n, ⟨i, e, hn⟩, -⟩, hafter⟩ := failing_run_stops_at_one_instruction p ops rfl f _ hfail
  obtain ⟨-, hlength, -, op, hop, -, -, -, hshuffle, -⟩ := hafter n i e hn
  obtain rfl : 2 = n := hlength
  cases hop
  exact ⟨hfail, ⟨i, e, hn⟩, rfl, (hshuffle _ rfl).1⟩

end StackMachine
