import Mathlib.Order.Bounds.Basic
import StackMachine.Proofs.Bookkeeping
import StackMachine.Proofs.FrameRule
import StackMachine.Proofs.Stepwise

namespace StackMachine

namespace Emitter

variable {is : List Instruction} {d e : Emitter} {f : Frame}

theorem emitAll?_take (he : e.emitAll? is = some d) (n : Nat) :
    ∃ c, e.emitAll? (is.take n) = some c ∧ c.emitAll? (is.drop n) = some d := by
  rw [← List.take_append_drop n is, emitAll?_append] at he
  exact Option.bind_eq_some_iff.mp he

theorem changes_of_emitAll? (he : empty.emitAll? is = some d) :
    d.changes = is.map Instruction.change :=
  congrArg (List.map Instruction.change) (instructions_of_emitAll? he)

theorem sum_changes_take (he : empty.emitAll? is = some e) {n : Nat}
    (hd : empty.emitAll? (is.take n) = some d) : (d.currentDepth : Int) = (e.changes.take n).sum := by
  rw [(Balanced.empty.emitAll? hd).currentDepth, changes_of_emitAll? hd, changes_of_emitAll? he,
    List.map_take]

def depthsAfter (is : List Instruction) : Set Nat :=
  {m | ∃ n < is.length, ∃ d, empty.emitAll? (is.take (n + 1)) = some d ∧ d.currentDepth = m}

theorem isGreatest_maxDepth (he : empty.emitAll? is = some e) :
    IsGreatest (insert 0 (depthsAfter is)) e.maxDepth := by
  have hmax := (Balanced.empty.emitAll? he).maxDepth
  have hlength : e.changes.length = is.length := by rw [changes_of_emitAll? he, List.length_map]
  constructor
  · obtain ⟨k, hk, hsum⟩ := hmax.1
    rw [hlength] at hk
    obtain ⟨d, hd, -⟩ := emitAll?_take he k
    have hdepth : d.currentDepth = e.maxDepth := by
      have hcurrent := sum_changes_take he hd
      omega
    cases k with
    | zero =>
      cases hd
      exact .inl hdepth.symm
    | succ n => exact .inr ⟨n, hk, d, hd, hdepth⟩
  · rintro m (rfl | ⟨n, hn, d, hd, rfl⟩)
    · exact Nat.zero_le _
    · have hle := hmax.2 ⟨n + 1, hlength ▸ hn, rfl⟩
      have hcurrent := sum_changes_take he hd
      omega

theorem depth_after (hk : ∀ i ∈ is, i.KeepsArity) (he : e.emitAll? is = some d) {base : Nat}
    (hf : f.depth = base + e.currentDepth) : (f.after is).depth = base + d.currentDepth := by
  induction is generalizing e f with
  | nil =>
    cases he
    exact hf
  | cons i is ih =>
    have hle := le_of_emitAll?_cons he
    obtain ⟨g, hg, hdepth⟩ := (hk i (by simp)).depth_exec (f := f) (by omega)
    rw [emitAll?_cons_of_le _ hle] at he
    rw [Frame.after_cons, hg]
    apply ih (fun j hj => hk j (List.mem_cons_of_mem _ hj)) he
    rw [hdepth, currentDepth_emit hle]
    omega

theorem exec_at (hk : ∀ i ∈ is, i.KeepsArity) (he : empty.emitAll? is = some e) (f : Frame) {n : Nat}
    {i : Instruction} (hi : is[n]? = some i) :
    (i.run.exec (f.after (is.take n))).1 = .ok i.produced ∧
      ∃ d, empty.emitAll? (is.take (n + 1)) = some d ∧
        (f.after (is.take (n + 1))).depth = f.depth + d.currentDepth := by
  have hbeginning (m : Nat) : ∀ j ∈ is.take m, j.KeepsArity :=
    fun j hj => hk j (List.mem_of_mem_take hj)
  obtain ⟨c, hc, hrest⟩ := emitAll?_take he n
  obtain ⟨d, hd, -⟩ := emitAll?_take he (n + 1)
  have hconsumed : i.consumed ≤ c.currentDepth := by
    rw [drop_eq_cons hi] at hrest
    exact le_of_emitAll?_cons hrest
  have hbefore : (f.after (is.take n)).depth = f.depth + c.currentDepth :=
    depth_after (hbeginning n) hc rfl
  obtain ⟨g, hg, -⟩ := (hk i (List.mem_of_getElem? hi)).depth_exec (f := f.after (is.take n)) (by omega)
  refine ⟨?_, d, hd, depth_after (hbeginning (n + 1)) hd rfl⟩
  rw [hg]

end Emitter

theorem recorded_depths_match_emitter (is : List Instruction) (e : Emitter)
    (hk : ∀ i ∈ is, i.KeepsArity) (he : Emitter.empty.emitAll? is = some e) (f : Frame) :
    let run := e.finish.run f
    e.finish.instructions = is ∧ run.outcome = .ok () ∧ run.frame = f.after is ∧
    run.trace.length = is.length ∧
    (∀ (n : Nat) (i : Instruction), is[n]? = some i →
      ∃ d, Emitter.empty.emitAll? (is.take (n + 1)) = some d ∧
        run.trace[n]? = some (.executed n i.name i.produced (f.depth + d.currentDepth)) ∧
        (f.after (is.take (n + 1))).depth = f.depth + d.currentDepth) ∧
    IsGreatest (insert 0 (Emitter.depthsAfter is)) e.finish.maxStackDepth ∧
    (∀ n ≤ is.length, (f.after (is.take n)).depth ≤ f.depth + e.finish.maxStackDepth) ∧
    (0 < e.finish.maxStackDepth → ∃ n < is.length,
      (f.after (is.take (n + 1))).depth = f.depth + e.finish.maxStackDepth) := by
  intro run
  have hinstructions : e.finish.instructions = is := Emitter.instructions_of_emitAll? he
  have hsucceed : Succeed is f := by
    intro n i hi
    exact ⟨_, (Emitter.exec_at hk he f hi).1⟩
  have hrun : run = Run.ofInstructions 0 is f := by
    rw [← hinstructions]
    rfl
  obtain ⟨houtcome, hframe, hlength, hrecords⟩ := Run.of_succeed 0 hsucceed
  have hmax := Emitter.isGreatest_maxDepth he
  rw [hrun]
  refine ⟨hinstructions, houtcome, hframe, hlength, ?_, hmax, ?_, ?_⟩
  · intro n i hi
    obtain ⟨hok, d, hd, hdepth⟩ := Emitter.exec_at hk he f hi
    obtain ⟨delta, hdelta, hrecord⟩ := hrecords n i hi
    obtain rfl := Except.ok.inj (hdelta.symm.trans hok)
    rw [Nat.zero_add, hdepth] at hrecord
    exact ⟨d, hd, hrecord, hdepth⟩
  · intro n hn
    cases n with
    | zero => exact Nat.le_add_right _ _
    | succ n =>
      obtain ⟨-, d, hd, hdepth⟩ := Emitter.exec_at hk he f (List.getElem?_eq_getElem hn)
      rw [hdepth]
      exact Nat.add_le_add_left (hmax.2 (.inr ⟨n, hn, d, hd, rfl⟩)) _
  · intro hpos
    rcases hmax.1 with hzero | ⟨n, hn, d, hd, hdepth⟩
    · exact absurd hzero (Nat.ne_of_gt hpos)
    · obtain ⟨-, c, hc, hafter⟩ := Emitter.exec_at hk he f (List.getElem?_eq_getElem hn)
      obtain rfl := Option.some.inj (hc.symm.trans hd)
      rw [hdepth] at hafter
      exact ⟨n, hn, hafter⟩

theorem recorded_depths_match_emitter_dup :
    let is : List Instruction := [(LoadConstant.mk (.ofInt .int64 (-32))).instruction,
      Shuffle.dup.instruction, (RightShift.mk .int64).instruction]
    let f : Frame := .ofValues [.absent]
    (∀ i ∈ is, i.KeepsArity) ∧ ∃ e, Emitter.empty.emitAll? is = some e ∧
      (e.finish.run f).trace[1]? = some (.executed 1 "Dup" 2 3) ∧ e.finish.maxStackDepth = 2 ∧
      ∃ n < is.length, (f.after (is.take (n + 1))).depth = 3 := by
  intro is f
  have hk : ∀ i ∈ is, i.KeepsArity := by
    simp only [is, List.forall_mem_cons]
    exact ⟨(LoadConstant.honest _).keepsArity, (Shuffle.honest (by decide)).keepsArity,
      (RightShift.honest _).keepsArity, by simp⟩
  obtain ⟨-, -, -, -, hrecords, -, -, hreached⟩ := recorded_depths_match_emitter is _ hk rfl f
  obtain ⟨d, hd, hrecord, -⟩ := hrecords 1 _ rfl
  cases hd
  exact ⟨hk, _, rfl, hrecord, rfl, hreached (by decide)⟩

end StackMachine
