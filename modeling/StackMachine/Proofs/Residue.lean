import Mathlib.Data.Int.ModEq
import StackMachine.Proofs.Literal
import StackMachine.Proofs.Quotient

namespace StackMachine

namespace Kind

def InRange (k : Kind) (x : Int) : Prop :=
  if k.signed then -2 ^ (k.width - 1) ≤ x ∧ x < 2 ^ (k.width - 1) else 0 ≤ x ∧ x < 2 ^ k.width

instance (k : Kind) (x : Int) : Decidable (k.InRange x) :=
  inferInstanceAs (Decidable (ite _ _ _))

def Wraps (k : Kind) (x y : Int) : Prop :=
  k.InRange y ∧ y ≡ x [ZMOD 2 ^ k.width]

instance (k : Kind) (x y : Int) : Decidable (k.Wraps x y) :=
  inferInstanceAs (Decidable (_ ∧ _))

variable {k : Kind} {x y z : Int}

theorem InRange.abs_sub_lt (hy : k.InRange y) (hz : k.InRange z) : |y - z| < 2 ^ k.width := by
  have hpow : (2 : Int) ^ k.width = 2 * 2 ^ (k.width - 1) := (mul_pow_sub_one k.width_pos.ne' 2).symm
  rw [InRange] at hy hz
  apply abs_lt.mpr
  cases hs : k.signed with
  | true =>
    rw [hs, if_pos rfl] at hy hz
    omega
  | false =>
    rw [hs, if_neg Bool.false_ne_true] at hy hz
    omega

theorem Wraps.unique (hy : k.Wraps x y) (hz : k.Wraps x z) : y = z := by
  have hdvd : 2 ^ k.width ∣ y - z := (hz.2.trans hy.2.symm).dvd
  exact sub_eq_zero.mp (Int.eq_zero_of_abs_lt_dvd hdvd (hy.1.abs_sub_lt hz.1))

theorem wraps_congr (h : x ≡ z [ZMOD 2 ^ 64]) : k.Wraps x y ↔ k.Wraps z y := by
  have hk : x ≡ z [ZMOD 2 ^ k.width] := h.of_dvd (pow_dvd_pow 2 k.width_le)
  apply and_congr_right
  intro _
  exact ⟨fun hy => hy.trans hk, fun hy => hy.trans hk.symm⟩

theorem inRange_denote (k : Kind) (bits : BitVec 64) : k.InRange (k.denote bits) := by
  rw [InRange, denote]
  cases hs : k.signed with
  | true => exact ⟨BitVec.le_toInt _, BitVec.toInt_lt⟩
  | false =>
    have hlt := (bits.setWidth k.width).isLt
    rw [if_neg Bool.false_ne_true, if_neg Bool.false_ne_true]
    exact ⟨Int.natCast_nonneg _, by exact_mod_cast hlt⟩

theorem denote_modEq (k : Kind) (bits : BitVec 64) : k.denote bits ≡ bits.toNat [ZMOD 2 ^ k.width] := by
  have hpow : ((2 ^ k.width : Nat) : Int) = 2 ^ k.width := by push_cast; rfl
  rw [denote, ← hpow]
  cases hs : k.signed with
  | true =>
    rw [if_pos rfl, BitVec.toInt_setWidth]
    exact Int.bmod_emod
  | false =>
    rw [if_neg Bool.false_ne_true, BitVec.toNat_setWidth, Int.natCast_mod]
    exact Int.mod_modEq _ _

theorem wraps_iff (k : Kind) (bits : BitVec 64) (y : Int) :
    k.Wraps bits.toNat y ↔ y = k.denote bits := by
  have hdenote : k.Wraps bits.toNat (k.denote bits) := ⟨k.inRange_denote bits, k.denote_modEq bits⟩
  constructor
  · intro hy
    exact hy.unique hdenote
  · rintro rfl
    exact hdenote

end Kind

namespace Scalar

theorem wraps_value_iff (s : Scalar) (j : Kind) (y : Int) : j.Wraps s.value y ↔ y = s.readAs j := by
  have hword : s.value ≡ s.bits.toNat [ZMOD 2 ^ 64] := by
    rw [← s.value_emod]
    exact (Int.mod_modEq _ _).symm
  rw [Kind.wraps_congr hword, Kind.wraps_iff, readAs]

theorem value_ofInt {k : Kind} {x : Int} (h : k.InRange x) : (ofInt k x).value = x := by
  have hword : ((BitVec.ofInt 64 x).toNat : Int) ≡ x [ZMOD 2 ^ 64] := by
    rw [BitVec.toNat_ofInt, Int.toNat_of_nonneg (Int.emod_nonneg x (by decide))]
    exact Int.mod_modEq _ _
  have hx : k.Wraps (BitVec.ofInt 64 x).toNat x := (Kind.wraps_congr hword).mpr ⟨h, Int.ModEq.rfl⟩
  rw [ofInt, value_ofBits]
  exact ((Kind.wraps_iff _ _ _).mp hx).symm

end Scalar

/-- The text is the decimal numeral of `x`: digits that begin with no needless zero, after a minus sign
if `x` is negative. -/
def IsDecimal (x : Int) (text : String) : Prop :=
  ∃ ds, Json.Numeral.Whole ds ∧ Nat.ofDigitChars 10 ds 0 = x.natAbs ∧
    text.toList = if x < 0 then '-' :: ds else ds

theorem toList_repr (x : Int) : x.repr.toList =
    if x < 0 then '-' :: Nat.toDigits 10 x.natAbs else Nat.toDigits 10 x.natAbs := by
  by_cases hx : x < 0
  · rw [if_pos hx, Int.repr_eq_if, if_neg (by omega), String.toList_append, Nat.toList_repr,
      show (-x).toNat = x.natAbs by omega]
    rfl
  · rw [if_neg hx, Int.repr_eq_if, if_pos (by omega), Nat.toList_repr,
      show x.toNat = x.natAbs by omega]

theorem isDecimal_iff {x : Int} {text : String} : IsDecimal x text ↔ text = x.repr := by
  constructor
  · rintro ⟨ds, hds, hvalue, htext⟩
    apply String.toList_inj.mp
    rw [htext, toList_repr, ← hvalue, hds.toDigits]
  · rintro rfl
    exact ⟨_, Json.Numeral.whole_toDigits _, Nat.ofDigitChars_toDigits (by decide) (by decide),
      toList_repr x⟩

theorem IsDecimal.sign {x : Int} {text : String} (h : IsDecimal x text) :
    ∃ s ds, Json.Numeral.sign text.toList = (s, ds) ∧ (s = ['-'] ↔ x < 0) ∧
      Nat.ofDigitChars 10 ds 0 = x.natAbs := by
  obtain ⟨ds, hds, hvalue, htext⟩ := h
  by_cases hx : x < 0
  · refine ⟨['-'], ds, ?_, by simp [hx], hvalue⟩
    rw [htext, if_pos hx]
    rfl
  · refine ⟨[], ds, ?_, by simp [hx], hvalue⟩
    have hsign := hds.sign []
    rw [List.append_nil] at hsign
    rw [htext, if_neg hx, hsign]

theorem IsDecimal.unique {x y : Int} {text : String} (hx : IsDecimal x text) (hy : IsDecimal y text) :
    x = y := by
  obtain ⟨s, ds, hsign, hneg, hvalue⟩ := hx.sign
  obtain ⟨s', es, hsign', hneg', hvalue'⟩ := hy.sign
  rw [hsign, Prod.mk.injEq] at hsign'
  obtain ⟨rfl, rfl⟩ := hsign'
  have hiff : x < 0 ↔ y < 0 := hneg.symm.trans hneg'
  omega

theorem Scalar.display_inj {s t : Scalar} (hk : s.kind = t.kind) : s.display = t.display ↔ s = t := by
  constructor
  · intro h
    exact eq_of_value_eq hk ((isDecimal_iff.mpr rfl).unique (isDecimal_iff.mpr h))
  · rintro rfl
    rfl

theorem readers_and_text_agree_with_value (k : Kind) (bits : BitVec 64) :
    let s := Scalar.ofBits k bits
    ∃ x : Int, (∀ y, k.Wraps bits.toNat y ↔ y = x) ∧
      (∀ text, IsDecimal x text ↔ text = s.display) ∧
      (∀ j y, Kind.Wraps j x y ↔ y = s.readAs j) ∧
      (∀ y, Kind.int32.Wraps x y ↔ y = s.shiftCount.toInt) ∧
      Scalar.ofInt k x = s ∧
      (∀ y, k.InRange y → (Scalar.ofInt k y).readAs k = y) ∧
      ∀ t : Scalar, t.kind = k → (t.display = s.display ↔ t = s) := by
  intro s
  have hvalue : s.value = k.denote bits := Scalar.value_ofBits k bits
  refine ⟨s.value, ?_, fun _ => isDecimal_iff, s.wraps_value_iff, s.wraps_value_iff .int32, ?_, ?_, ?_⟩
  · rw [hvalue]
    exact k.wraps_iff bits
  · exact (Scalar.canonical_ofBits k bits).eq_ofInt.symm
  · intro y hy
    have hcanonical : (Scalar.ofInt k y).Canonical := Scalar.canonical_ofBits k _
    exact hcanonical.value_eq.symm.trans (Scalar.value_ofInt hy)
  · intro t ht
    exact Scalar.display_inj ht

theorem readers_and_text_agree_with_value_int8 :
    let s := Scalar.ofBits .int8 0x1fe
    let t := Scalar.ofBits .int8 0xfe
    t.kind = .int8 ∧ Kind.int8.InRange (-128) ∧ Kind.int8.Wraps 0x1fe (-2) ∧ s.display = "-2" ∧
      s.readAs .uint32 = 0xfffffffe ∧ s.shiftCount.toInt = -2 ∧ Scalar.ofInt .int8 (-2) = s ∧
      (Scalar.ofInt .int8 (-128)).readAs .int8 = -128 ∧ (t.display = s.display ↔ t = s) := by
  intro s t
  have hrange : Kind.int8.InRange (-128) := by decide
  have hwraps : Kind.int8.Wraps 0x1fe (-2) := by decide
  obtain ⟨x, hx, htext, hread, hcount, hnative, hsame, hprint⟩ :=
    readers_and_text_agree_with_value .int8 0x1fe
  obtain rfl : -2 = x := (hx _).mp hwraps
  have hdecimal : IsDecimal (-2) "-2" := ⟨['2'], .digits (by decide) (by simp), rfl, rfl⟩
  have hwide : Kind.uint32.Wraps (-2) 0xfffffffe := by decide
  have hplaces : Kind.int32.Wraps (-2) (-2) := by decide
  exact ⟨rfl, hrange, hwraps, ((htext _).mp hdecimal).symm, ((hread _ _).mp hwide).symm,
    ((hcount _).mp hplaces).symm, hnative, hsame _ hrange, hprint t rfl⟩

end StackMachine
