import Mathlib.Algebra.BigOperators.Group.List.Basic
import Mathlib.Algebra.Ring.Int.Defs
import Mathlib.Algebra.Ring.Nat
import StackMachine.Proofs.Canonical
import StackMachine.Proofs.Expression

namespace StackMachine

theorem toInt_setWidth_of_bounds {p w : Nat} (x : BitVec p) (hw : w ≤ p)
    (hl : -2 ^ w ≤ 2 * x.toInt) (hu : 2 * x.toInt < 2 ^ w) : (x.setWidth w).toInt = x.toInt := by
  have hd : 2 ^ w ∣ 2 ^ p := Nat.pow_dvd_pow 2 hw
  rw [BitVec.toInt_setWidth, ← Int.bmod_bmod_of_dvd hd, ← BitVec.toInt_eq_toNat_bmod]
  rw [Int.mul_comm] at hl hu
  exact Int.bmod_eq_of_le_mul_two (by simpa using hl) (by simpa using hu)

theorem ediv_bounds {x b : Int} (n : Nat) (hl : -b ≤ 2 * x) (hu : 2 * x < b) :
    -b ≤ 2 * (x / 2 ^ n) ∧ 2 * (x / 2 ^ n) < b := by
  have hd : (0 : Int) < 2 ^ n := Int.pow_pos (by decide)
  rcases Int.lt_or_le x 0 with hx | hx
  · have hq : x / 2 ^ n < 0 := Int.ediv_neg_of_neg_of_pos hx hd
    have hm : x * 2 ^ n ≤ x * 1 := Int.mul_le_mul_of_nonpos_left (by omega) (by omega)
    have := Int.le_ediv_of_mul_le hd (by omega : x * 2 ^ n ≤ x)
    omega
  · have hq : 0 ≤ x / 2 ^ n := Int.ediv_nonneg hx (by omega)
    have := Int.ediv_le_self (2 ^ n) hx
    omega

theorem Scalar.value_shiftRight (k : Kind) (v : Scalar) (count : BitVec 32) :
    (shiftRight k v count).value = k.denote v.bits / 2 ^ k.places count := by
  have hw := k.width_le_promotionWidth
  have hp := k.promotionWidth_le
  rw [shiftRight, value_ofBits]
  cases hs : k.signed with
  | true =>
    simp only [Kind.denote, hs, if_true]
    generalize v.bits.setWidth k.width = low
    have hv : ((low.signExtend k.promotionWidth).sshiftRight (k.places count)).toInt =
        low.toInt / 2 ^ k.places count := by
      rw [BitVec.toInt_sshiftRight, BitVec.toInt_signExtend_of_le hw, Int.shiftRight_eq_div_pow]
      simp
    obtain ⟨hl, hu⟩ := ediv_bounds (k.places count) low.le_two_mul_toInt low.two_mul_toInt_lt
    rw [BitVec.setWidth_setWidth_of_le _ (by omega), toInt_setWidth_of_bounds _ hw, hv]
    · rwa [hv]
    · rwa [hv]
  | false =>
    simp only [Kind.denote, hs, Bool.false_eq_true, if_false]
    generalize v.bits.setWidth k.width = low
    have hlow := low.isLt
    have hpow : 2 ^ k.width ≤ 2 ^ k.promotionWidth := Nat.pow_le_pow_right (by decide) hw
    have hq := Nat.div_le_self low.toNat (2 ^ k.places count)
    rw [BitVec.setWidth_setWidth_of_le _ (by omega)]
    simp only [BitVec.toNat_setWidth, BitVec.toNat_ushiftRight, Nat.shiftRight_eq_div_pow]
    rw [Nat.mod_eq_of_lt (by omega : low.toNat < 2 ^ k.promotionWidth),
      Nat.mod_eq_of_lt (by omega)]
    simp

theorem Kind.promotionWidth_dvd (k : Kind) : k.promotionWidth ∣ 2 ^ 32 := by
  cases k <;> decide

namespace Scalar

theorem value_emod (s : Scalar) : s.value % 2 ^ 64 = s.bits.toNat := by
  have hlt := s.bits.isLt
  cases hs : s.kind.signed with
  | true =>
    simp only [value, hs, if_true]
    have hmod : s.bits.toInt % (2 ^ 64 : Nat) = s.bits.toNat % (2 ^ 64 : Nat) := by
      rw [BitVec.toInt_eq_toNat_bmod, Int.bmod_emod]
    omega
  | false =>
    simp only [value, hs, Bool.false_eq_true, if_false]
    omega

theorem places_shiftCount (k : Kind) (c : Scalar) :
    k.places c.shiftCount = (c.value % k.promotionWidth).toNat := by
  have hword : (k.promotionWidth : Int) ∣ 2 ^ 64 :=
    Int.natCast_dvd_natCast.mpr (k.promotionWidth_dvd.trans (by decide : 2 ^ 32 ∣ 2 ^ 64))
  rw [← Int.emod_emod_of_dvd c.value hword, value_emod, Kind.places, shiftCount, BitVec.toNat_setWidth,
    Nat.mod_mod_of_dvd _ k.promotionWidth_dvd]
  omega

theorem Canonical.eq_ofInt {s : Scalar} (h : s.Canonical) : s = ofInt s.kind s.value := by
  have hbits : BitVec.ofInt 64 s.value = s.bits := by
    rw [value]
    cases s.kind.signed with
    | true => exact BitVec.ofInt_toInt
    | false => simp
  rw [ofInt, hbits]
  exact h.symm

theorem shiftRight_eq_ofInt (k : Kind) (v c : Scalar) :
    shiftRight k v c.shiftCount =
      ofInt k (k.denote v.bits / 2 ^ (c.value % k.promotionWidth).toNat) := by
  have h := (canonical_shiftRight k v c.shiftCount).eq_ofInt
  rwa [value_shiftRight, places_shiftCount] at h

theorem value_ofInt_quotient (k : Kind) (v c : Scalar) :
    (ofInt k (k.denote v.bits / 2 ^ (c.value % k.promotionWidth).toNat)).value =
      k.denote v.bits / 2 ^ (c.value % k.promotionWidth).toNat := by
  rw [← shiftRight_eq_ofInt, value_shiftRight, places_shiftCount]

end Scalar

theorem right_shift_leaves_quotient (k : Kind) (below : List Operand) (v c : Scalar) :
    let quotient := k.denote v.bits / 2 ^ (c.value % k.promotionWidth).toNat
    let r := Scalar.ofInt k quotient
    (RightShift.mk k).instruction.run.exec (.ofValues (below ++ [.present v, .present c])) =
      (.ok 1, .ofValues (below ++ [.present r])) ∧
    r.kind = k ∧ r.value = quotient ∧
    ∀ d : Scalar, d.value % k.promotionWidth = c.value % k.promotionWidth →
      (RightShift.mk k).instruction.run.exec (.ofValues (below ++ [.present v, .present d])) =
        (.ok 1, .ofValues (below ++ [.present r])) := by
  intro quotient r
  have hexec (d : Scalar) (hd : d.value % k.promotionWidth = c.value % k.promotionWidth) :
      (RightShift.mk k).instruction.run.exec (.ofValues (below ++ [.present v, .present d])) =
        (.ok 1, .ofValues (below ++ [.present r])) := by
    rw [Frame.ofValues_append, Frame.ofValues_append]
    apply (RightShift.exec_run_push_push ⟨k⟩ _ (.present v) (.present d)).trans
    rw [Operand.shiftRight, Scalar.shiftRight_eq_ofInt, hd]
    rfl
  exact ⟨hexec c rfl, rfl, Scalar.value_ofInt_quotient k v c, hexec⟩

theorem right_shift_leaves_quotient_int8 :
    let v : Scalar := .ofInt .uint32 200
    let c : Scalar := .ofInt .int16 (-30)
    let d : Scalar := .ofInt .uint64 (2 ^ 63 + 2)
    d.value % Kind.int8.promotionWidth = c.value % Kind.int8.promotionWidth ∧
    (RightShift.mk .int8).instruction.run.exec (.ofValues [.absent, .present v, .present c]) =
      (.ok 1, .ofValues [.absent, .ofInt .int8 (-14)]) ∧
    (RightShift.mk .int8).instruction.run.exec (.ofValues [.absent, .present v, .present d]) =
      (.ok 1, .ofValues [.absent, .ofInt .int8 (-14)]) := by
  intro v c d
  have hd : d.value % Kind.int8.promotionWidth = c.value % Kind.int8.promotionWidth := by decide
  obtain ⟨hc, -, -, hsame⟩ := right_shift_leaves_quotient .int8 [.absent] v c
  exact ⟨hd, hc, hsame d hd⟩

namespace Kind

def totalPlaces (k : Kind) (counts : List Scalar) : Nat :=
  (counts.map (fun c => (c.value % (k.promotionWidth : Int)).toNat)).sum

theorem totalPlaces_cons (k : Kind) (c : Scalar) (counts : List Scalar) :
    k.totalPlaces (c :: counts) = (c.value % k.promotionWidth).toNat + k.totalPlaces counts := by
  rw [totalPlaces, List.map_cons, List.sum_cons, totalPlaces]

theorem totalPlaces_perm (k : Kind) {counts others : List Scalar} (h : counts.Perm others) :
    k.totalPlaces counts = k.totalPlaces others :=
  (h.map _).sum_eq

end Kind

namespace Expression

def chain (k : Kind) (t : Expression) (counts : List Scalar) : Expression :=
  counts.foldl (fun base c => .shift k base (.constant (.present c))) t

theorem exists_value_chain {t : Expression} {s : Scalar} (ht : t.value = .present s)
    (hs : s.Canonical) (counts : List Scalar) :
    ∃ result, (t.chain s.kind counts).value = .present result ∧ result.kind = s.kind ∧
      result.Canonical ∧ result.value = s.value / 2 ^ s.kind.totalPlaces counts := by
  induction counts generalizing t s with
  | nil =>
    refine ⟨s, ht, rfl, hs, ?_⟩
    rw [Kind.totalPlaces, List.map_nil, List.sum_nil, Int.pow_zero, Int.ediv_one]
  | cons c counts ih =>
    let next := Scalar.shiftRight s.kind s c.shiftCount
    have hnext : (shift s.kind t (.constant (.present c))).value = .present next := by
      rw [value_shift, ht]
      rfl
    have hvalue : next.value = s.value / 2 ^ (c.value % s.kind.promotionWidth).toNat := by
      rw [Scalar.value_shiftRight, Scalar.places_shiftCount, hs.value_eq]
    obtain ⟨result, hresult, hkind, hcanonical, hquotient⟩ :=
      ih hnext (Scalar.canonical_shiftRight s.kind s c.shiftCount)
    refine ⟨result, hresult, hkind, hcanonical, ?_⟩
    have hpow : (0 : Int) ≤ 2 ^ (c.value % s.kind.promotionWidth).toNat := Int.pow_nonneg (by decide)
    rw [Kind.totalPlaces_cons, Int.pow_add, ← Int.ediv_ediv_of_nonneg hpow, ← hvalue]
    exact hquotient

theorem postorder_chain (k : Kind) (t : Expression) (counts : List Scalar) :
    (t.chain k counts).postorder = t.postorder ++ counts.flatMap (fun c =>
      [(LoadConstant.mk (.present c)).instruction, (RightShift.mk k).instruction]) := by
  induction counts generalizing t with
  | nil => simp [chain]
  | cons c counts ih =>
    have hrest := ih (.shift k t (.constant (.present c)))
    simp only [postorder, List.append_assoc] at hrest
    exact hrest

theorem evaluate_calls (t : Expression) {r : Registry} (hr : r.Reachable) {calls : List Call}
    (h : calls.map Call.instruction? = t.postorder.map some) :
    ∃ a, Assembly.callAll? ⟨.empty, r⟩ calls = some a ∧ a.emitter.finish.evaluate = .ok t.value := by
  obtain ⟨e, he, -⟩ := t.emitAll?_postorder Emitter.empty
  obtain ⟨a, ha, rfl⟩ := Assembly.callAll?_of_emitAll? (a := ⟨.empty, r⟩) hr.faithful h he
  exact ⟨a, ha, evaluate_postorder (Emitter.instructions_of_emitAll? he)⟩

end Expression

def Call.chain (v : Scalar) (links : List (Scalar × StaticType)) : List Call :=
  .constant (.present v) :: links.flatMap (fun l => [.constant (.present l.1), .rightShift l.2])

theorem Call.map_chain {k : Kind} {links : List (Scalar × StaticType)}
    (h : ∀ l ∈ links, l.2.numericKind? = some k) (v : Scalar) :
    (chain v links).map instruction? =
      (Expression.chain k (.constant (.present v)) (links.map Prod.fst)).postorder.map some := by
  rw [Expression.postorder_chain, chain, List.map_append, List.map_cons, Expression.postorder,
    List.map_singleton, List.singleton_append]
  apply congrArg (List.cons _)
  induction links with
  | nil => rfl
  | cons l links ih =>
    have hl : l.2.numericKind? = some k := h l (by simp)
    have hlinks := ih (fun j hj => h j (List.mem_cons_of_mem _ hj))
    simp only [List.flatMap_cons, List.map_cons, List.map_append, hlinks, instruction?, hl,
      Option.map_some]
    rfl

theorem Assembly.evaluate_chain {r : Registry} (hr : r.Reachable) {v : Scalar} (hv : v.Canonical)
    {links : List (Scalar × StaticType)} (hl : ∀ l ∈ links, l.2.numericKind? = some v.kind) :
    ∃ a result, callAll? ⟨.empty, r⟩ (Call.chain v links) = some a ∧
      a.emitter.finish.evaluate = .ok (.present result) ∧ result.kind = v.kind ∧
      result.Canonical ∧ result.value = v.value / 2 ^ v.kind.totalPlaces (links.map Prod.fst) := by
  obtain ⟨result, hresult, hquotient⟩ :=
    Expression.exists_value_chain (t := .constant (.present v)) rfl hv (links.map Prod.fst)
  obtain ⟨a, ha, hevaluate⟩ := Expression.evaluate_calls _ hr (Call.map_chain hl v)
  rw [hresult] at hevaluate
  exact ⟨a, result, ha, hevaluate, hquotient⟩

theorem chained_shifts_add_up (r : Registry) (hr : r.Reachable) (v : Scalar) (hv : v.Canonical)
    (links : List (Scalar × StaticType)) (hl : ∀ l ∈ links, l.2.numericKind? = some v.kind) :
    ∃ a result, Assembly.callAll? ⟨.empty, r⟩ (Call.chain v links) = some a ∧
      a.emitter.finish.evaluate = .ok (.present result) ∧ result.kind = v.kind ∧
      result.Canonical ∧ result.value = v.value / 2 ^ v.kind.totalPlaces (links.map Prod.fst) ∧
      ∀ others : List (Scalar × StaticType), (∀ l ∈ others, l.2.numericKind? = some v.kind) →
        (others.map Prod.fst).Perm (links.map Prod.fst) →
        ∃ b, Assembly.callAll? ⟨.empty, r⟩ (Call.chain v others) = some b ∧
          b.emitter.finish.evaluate = .ok (.present result) := by
  obtain ⟨a, result, ha, hevaluate, hkind, hcanonical, hvalue⟩ := Assembly.evaluate_chain hr hv hl
  refine ⟨a, result, ha, hevaluate, hkind, hcanonical, hvalue, ?_⟩
  intro others ho hperm
  obtain ⟨b, result', hb, hevaluate', hkind', -, hvalue'⟩ := Assembly.evaluate_chain hr hv ho
  obtain rfl : result' = result := by
    apply Scalar.eq_of_value_eq (hkind'.trans hkind.symm)
    rw [hvalue', hvalue, v.kind.totalPlaces_perm hperm]
  exact ⟨b, hb, hevaluate'⟩

theorem chained_shifts_add_up_int8 :
    let v : Scalar := .ofInt .int8 (-128)
    let t : StaticType := .nullable (.enumeration "Level" (.ofKind .int8))
    let links : List (Scalar × StaticType) :=
      [(.ofInt .int64 (-1), .ofKind .int8), (.ofInt .uint8 33, t), (.ofInt .int16 2, .nullable t)]
    let others : List (Scalar × StaticType) :=
      [(.ofInt .int16 2, t), (.ofInt .int64 (-1), t), (.ofInt .uint8 33, .ofKind .int8)]
    v.Canonical ∧ (∀ l ∈ links, l.2.numericKind? = some v.kind) ∧
    (∀ l ∈ others, l.2.numericKind? = some v.kind) ∧
    (others.map Prod.fst).Perm (links.map Prod.fst) ∧
    ∃ a b result, Assembly.callAll? ⟨.empty, KindTable.empty⟩ (Call.chain v links) = some a ∧
      Assembly.callAll? ⟨.empty, KindTable.empty⟩ (Call.chain v others) = some b ∧
      a.emitter.finish.evaluate = .ok (.present result) ∧
      b.emitter.finish.evaluate = .ok (.present result) ∧
      result.kind = .int8 ∧ result.value = -1 := by
  intro v t links others
  -- the places are 31, 1 and 2: one shift by their sum would only be a shift by 2
  have hv : v.Canonical := by decide
  have hk : (StaticType.ofKind .int8).numericKind? = some v.kind := rfl
  have hl : ∀ l ∈ links, l.2.numericKind? = some v.kind := by
    simp [links, t, StaticType.numericKind?, hk]
  have ho : ∀ l ∈ others, l.2.numericKind? = some v.kind := by
    simp [others, t, StaticType.numericKind?, hk]
  have hperm : (others.map Prod.fst).Perm (links.map Prod.fst) := by decide
  obtain ⟨a, result, ha, hevaluate, hkind, -, hvalue, hany⟩ :=
    chained_shifts_add_up KindTable.empty .empty v hv links hl
  obtain ⟨b, hb, hevaluate'⟩ := hany others ho hperm
  exact ⟨hv, hl, ho, hperm, a, b, result, ha, hb, hevaluate, hevaluate', hkind, hvalue.trans (by decide)⟩

end StackMachine
