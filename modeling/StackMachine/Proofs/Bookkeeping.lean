import Mathlib.Algebra.BigOperators.Group.List.Basic
import Mathlib.Algebra.Ring.Int.Defs
import Mathlib.Algebra.Ring.Nat
import Mathlib.Order.Bounds.Basic
import StackMachine.Proofs.Refusal

namespace StackMachine

def partialSums (xs : List Int) : Set Int :=
  {d | ∃ k ≤ xs.length, (xs.take k).sum = d}

theorem partialSums_concat (xs : List Int) (x : Int) :
    partialSums (xs ++ [x]) = insert (xs ++ [x]).sum (partialSums xs) := by
  ext d
  constructor
  · rintro ⟨k, hk, rfl⟩
    rw [List.length_append, List.length_singleton] at hk
    by_cases hlast : k = xs.length + 1
    · left
      rw [List.take_of_length_le (by simp [hlast])]
    · right
      have hle : k ≤ xs.length := by omega
      exact ⟨k, hle, by rw [List.take_append_of_le_length hle]⟩
  · rintro (rfl | ⟨k, hk, rfl⟩)
    · exact ⟨(xs ++ [x]).length, le_refl _, by rw [List.take_length]⟩
    · refine ⟨k, ?_, by rw [List.take_append_of_le_length hk]⟩
      rw [List.length_append]
      omega

namespace Instruction

def change (i : Instruction) : Int :=
  (i.produced : Int) - i.consumed

theorem balance_eq_change {i : Instruction} (hc : i.consumed < 2 ^ 63) (hp : i.produced < 2 ^ 63) :
    i.balance = i.change := by
  rw [balance, change, BitVec.toInt_sub, BitVec.toInt_ofNat', BitVec.toInt_ofNat', Int.bmod_sub_bmod,
    Int.sub_bmod_bmod]
  apply Int.bmod_eq_of_le
  · omega
  · omega

end Instruction

namespace Emitter

variable {e : Emitter} {i : Instruction}

def changes (e : Emitter) : List Int :=
  e.instructions.map Instruction.change

structure Balanced (e : Emitter) : Prop where
  currentDepth : (e.currentDepth : Int) = e.changes.sum
  consumed_le : ∀ k i, e.instructions[k]? = some i → (i.consumed : Int) ≤ (e.changes.take k).sum
  maxDepth : IsGreatest (partialSums e.changes) (e.maxDepth : Int)

namespace Balanced

theorem empty : Emitter.empty.Balanced where
  currentDepth := rfl
  consumed_le := by
    intro k i hi
    simp [Emitter.empty] at hi
  maxDepth := by
    constructor
    · exact ⟨0, le_refl _, rfl⟩
    · rintro d ⟨k, -, rfl⟩
      simp [Emitter.empty, changes]

theorem emit (h : e.Balanced) (hi : i.consumed ≤ e.currentDepth) : (e.emit i).emitter.Balanced := by
  have hdepth := h.currentDepth
  have hsum : ((e.currentDepth - i.consumed + i.produced : Nat) : Int) =
      (e.changes ++ [i.change]).sum := by
    rw [List.sum_append, List.sum_singleton, Instruction.change]
    omega
  have hchanges : (e.emit i).emitter.changes = e.changes ++ [i.change] := by
    rw [changes, emit_of_le hi, List.map_append]
    rfl
  refine ⟨?_, ?_, ?_⟩
  · rw [hchanges, ← hsum, emit_of_le hi]
  · -- the earlier instructions stand where they stood, and the new one was checked against the depth
    intro k j hj
    rw [hchanges]
    rw [emit_of_le hi] at hj
    have hlength : e.changes.length = e.instructions.length := List.length_map _
    by_cases hk : k < e.instructions.length
    · rw [List.getElem?_append_left hk] at hj
      rw [List.take_append_of_le_length (by omega)]
      exact h.consumed_le k j hj
    · have hlast : k = e.instructions.length := by
        have hlt := (List.getElem?_eq_some_iff.mp hj).1
        rw [List.length_append, List.length_singleton] at hlt
        omega
      subst hlast
      rw [List.getElem?_concat_length] at hj
      cases hj
      rw [List.take_left' hlength, ← hdepth]
      omega
  · have hmax : ((max e.maxDepth (e.currentDepth - i.consumed + i.produced) : Nat) : Int) =
        max (e.changes ++ [i.change]).sum e.maxDepth := by omega
    rw [hchanges, partialSums_concat, emit_of_le hi, hmax]
    exact h.maxDepth.insert _

theorem emitAll? {d : Emitter} {is : List Instruction} (h : e.Balanced)
    (he : e.emitAll? is = some d) : d.Balanced := by
  induction is generalizing e with
  | nil =>
    cases he
    exact h
  | cons i is ih =>
    have hi := le_of_emitAll?_cons he
    rw [emitAll?_cons_of_le _ hi] at he
    exact ih (h.emit hi) he

theorem sum_take_nonneg (h : e.Balanced) {k : Nat} (hk : k ≤ e.instructions.length) :
    0 ≤ (e.changes.take k).sum := by
  by_cases hlast : k = e.instructions.length
  · have hlength : e.changes.length ≤ k := by rw [changes, List.length_map, hlast]
    rw [List.take_of_length_le hlength, ← h.currentDepth]
    omega
  · have hlt : k < e.instructions.length := by omega
    have hle := h.consumed_le k _ (List.getElem?_eq_getElem hlt)
    omega

theorem currentDepth_le_sum (h : e.Balanced) :
    e.currentDepth ≤ (e.instructions.map Instruction.produced).sum := by
  have hdepth := h.currentDepth
  have hle : e.changes.sum ≤ (e.instructions.map Instruction.produced).sum := by
    rw [changes]
    generalize e.instructions = is
    induction is with
    | nil => exact le_refl _
    | cons i is ih =>
      rw [List.map_cons, List.map_cons, List.sum_cons, List.sum_cons, Instruction.change]
      omega
  omega

end Balanced

/-- As long as all results together fit into a word, the counters do not wrap around. -/
theorem emitAll?_word {is : List Instruction}
    (h : e.currentDepth + (is.map Instruction.produced).sum < UInt64.size) :
    e.emitAll? is .word = e.emitAll? is := by
  induction is generalizing e with
  | nil => rfl
  | cons i is ih =>
    rw [List.map_cons, List.sum_cons] at h
    by_cases hi : i.consumed ≤ e.currentDepth
    · have hsame : e.emit i .word = e.emit i := emit_of_fits hi (by omega)
      rw [emitAll?_cons_of_le _ hi, emitAll?_cons_of_le _ hi, hsame]
      apply ih
      rw [currentDepth_emit hi]
      omega
    · have hlt := Nat.lt_of_not_le hi
      rw [emitAll?, emitAll?, emit_of_lt hlt, emit_of_lt hlt]

theorem consumed_le_of_emit {w : Counter} (h : (e.emit i w).outcome = .ok ()) :
    i.consumed ≤ e.currentDepth := by
  apply Nat.le_of_not_lt
  intro hlt
  rw [emit_of_lt hlt] at h
  cases h

end Emitter

theorem usubOverflow_of_le {m n : Nat} (hle : n ≤ m) (hm : m < UInt64.size) :
    (BitVec.ofNat 64 m).usubOverflow (BitVec.ofNat 64 n) = false := by
  rw [BitVec.usubOverflow, BitVec.toNat_ofNat, BitVec.toNat_ofNat, Nat.mod_eq_of_lt hm,
    Nat.mod_eq_of_lt (Nat.lt_of_le_of_lt hle hm)]
  exact decide_eq_false (Nat.not_lt.mpr hle)

theorem counters_follow_from_balances (r : Registry) (hr : r.Reachable) (calls : List Call) :
    let e := (Assembly.after ⟨.empty, r⟩ calls .word).emitter
    let kept := e.instructions
    let balances := kept.map Instruction.balance
    (kept.map Instruction.produced).sum < UInt64.size →
    (∀ i ∈ kept, i.consumed < 2 ^ 63 ∧ i.produced < 2 ^ 63) →
    (Assembly.accepted ⟨.empty, r⟩ calls .word).map Call.instruction? = kept.map some ∧
    e.length = (Assembly.accepted ⟨.empty, r⟩ calls .word).length ∧
    (∀ k ≤ kept.length, 0 ≤ (balances.take k).sum) ∧
    (∀ k i, kept[k]? = some i → (i.consumed : Int) ≤ (balances.take k).sum) ∧
    (e.currentDepth : Int) = balances.sum ∧
    IsGreatest (partialSums balances) (e.maxDepth : Int) ∧
    (∀ i, (e.emit i .word).outcome = .ok () →
      (BitVec.ofNat 64 e.currentDepth).usubOverflow (BitVec.ofNat 64 i.consumed) = false) ∧
    e.finish.instructions = kept ∧ e.finish.maxStackDepth = e.maxDepth := by
  intro e kept balances hsum hcounts
  obtain ⟨b, hb, hemitter⟩ := Assembly.callAll?_accepted (a := ⟨.empty, r⟩) (b := ⟨.empty, r⟩)
    (w := .word) hr.faithful hr.faithful rfl calls
  obtain ⟨hmap, hkept⟩ := Assembly.emitAll?_instructions hr hb
  rw [hemitter] at hmap hkept
  have hfull : Emitter.empty.emitAll? kept = some e := by
    rw [← Emitter.emitAll?_word]
    · exact hkept
    · change 0 + (kept.map Instruction.produced).sum < UInt64.size
      rwa [Nat.zero_add]
  have h : e.Balanced := Emitter.Balanced.empty.emitAll? hfull
  have hbalances : balances = e.changes := by
    apply List.map_congr_left
    intro i hi
    exact Instruction.balance_eq_change (hcounts i hi).1 (hcounts i hi).2
  rw [hbalances]
  refine ⟨hmap, ?_, ?_, h.consumed_le, h.currentDepth, h.maxDepth, ?_, rfl, rfl⟩
  · have hlength := congrArg List.length hmap
    rw [List.length_map, List.length_map] at hlength
    exact hlength.symm
  · intro k hk
    exact h.sum_take_nonneg hk
  · intro i hok
    exact usubOverflow_of_le (Emitter.consumed_le_of_emit hok)
      (Nat.lt_of_le_of_lt h.currentDepth_le_sum hsum)

theorem counters_follow_from_balances_mixed :
    let calls : List Call := [.instruction Shuffle.wide.instruction, .constant (.ofInt .int8 7),
      .instruction Shuffle.dup.instruction, .rightShift (.primitive .float64), .rightShift (.ofKind .int8)]
    let e := (Assembly.after ⟨.empty, KindTable.empty⟩ calls .word).emitter
    (e.instructions.map Instruction.produced).sum < UInt64.size ∧
      e.length = 3 ∧ e.currentDepth = 1 ∧ e.maxDepth = 2 ∧
      (e.currentDepth : Int) = (e.instructions.map Instruction.balance).sum ∧
      IsGreatest (partialSums (e.instructions.map Instruction.balance)) 2 := by
  intro calls e
  have hsum : (e.instructions.map Instruction.produced).sum < UInt64.size := by decide
  have hcounts : ∀ i ∈ e.instructions, i.consumed < 2 ^ 63 ∧ i.produced < 2 ^ 63 := by
    change ∀ i ∈ [(LoadConstant.mk (.ofInt .int8 7)).instruction, Shuffle.dup.instruction,
      (RightShift.mk .int8).instruction], _
    simp only [List.forall_mem_cons]
    exact ⟨by decide, by decide, by decide, by simp⟩
  obtain ⟨-, hlength, -, -, hdepth, hmax, -, -, -⟩ :=
    counters_follow_from_balances KindTable.empty .empty calls hsum hcounts
  exact ⟨hsum, hlength, rfl, rfl, hdepth, hmax⟩

theorem negative_balance_at_word_limit :
    let e := (Assembly.after ⟨.empty, KindTable.empty⟩ [.instruction (.reserve (2 ^ 63))] .word).emitter
    (e.instructions.map Instruction.produced).sum < UInt64.size ∧
      (e.instructions.map Instruction.balance).sum = -2 ^ 63 ∧ e.currentDepth = 2 ^ 63 := by
  decide

end StackMachine
