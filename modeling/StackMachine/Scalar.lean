import StackMachine.Kind

namespace StackMachine

namespace Kind

def extend (k : Kind) (bits : BitVec 64) : BitVec 64 :=
  let low := bits.setWidth k.width
  if k.signed then low.signExtend 64 else low.setWidth 64

def denote (k : Kind) (bits : BitVec 64) : Int :=
  let low := bits.setWidth k.width
  if k.signed then low.toInt else low.toNat

theorem setWidth_extend (k : Kind) (bits : BitVec 64) :
    (k.extend bits).setWidth k.width = bits.setWidth k.width := by
  have hle := k.width_le
  rw [extend]
  generalize bits.setWidth k.width = low
  cases k.signed with
  | true =>
    ext i hi
    have hword : i < 64 := Nat.lt_of_lt_of_le hi hle
    rw [if_pos rfl, BitVec.getElem_setWidth, BitVec.getLsbD_eq_getElem hword,
      BitVec.getElem_signExtend, dif_pos hi]
  | false =>
    rw [if_neg Bool.false_ne_true, BitVec.setWidth_setWidth_of_le _ hle, BitVec.setWidth_eq]

theorem extend_congr {k : Kind} {x y : BitVec 64} (h : x.setWidth k.width = y.setWidth k.width) :
    k.extend x = k.extend y := by
  rw [extend, extend, h]

theorem extend_extend (k : Kind) (bits : BitVec 64) : k.extend (k.extend bits) = k.extend bits :=
  extend_congr (k.setWidth_extend bits)

def places (k : Kind) (count : BitVec 32) : Nat :=
  count.toNat % k.promotionWidth

end Kind

structure Scalar where
  kind : Kind
  bits : BitVec 64
  deriving DecidableEq

namespace Scalar

def ofBits (k : Kind) (bits : BitVec 64) : Scalar :=
  ⟨k, k.extend bits⟩

def ofInt (k : Kind) (x : Int) : Scalar :=
  ofBits k (BitVec.ofInt 64 x)

def Canonical (s : Scalar) : Prop :=
  ofBits s.kind s.bits = s

instance (s : Scalar) : Decidable s.Canonical :=
  inferInstanceAs (Decidable (_ = _))

theorem canonical_ofBits (k : Kind) (bits : BitVec 64) : (ofBits k bits).Canonical := by
  simp [Canonical, ofBits, Kind.extend_extend]

def value (s : Scalar) : Int :=
  if s.kind.signed then s.bits.toInt else s.bits.toNat

theorem value_ofBits (k : Kind) (bits : BitVec 64) : (ofBits k bits).value = k.denote bits := by
  rw [value, ofBits, Kind.extend, Kind.denote]
  dsimp only
  cases k.signed with
  | true =>
    rw [if_pos rfl, if_pos rfl, if_pos rfl]
    exact BitVec.toInt_signExtend_of_le k.width_le
  | false =>
    rw [if_neg Bool.false_ne_true, if_neg Bool.false_ne_true, if_neg Bool.false_ne_true,
      BitVec.toNat_setWidth_of_le k.width_le]

def readAs (s : Scalar) (k : Kind) : Int :=
  k.denote s.bits

def shiftCount (s : Scalar) : BitVec 32 :=
  s.bits.setWidth 32

/-- Shifts the low bits of `v`, taken as kind `k`, at the promotion width of `k`: a signed kind
brings in copies of the sign and an unsigned kind brings in zeros. -/
def shiftRight (k : Kind) (v : Scalar) (count : BitVec 32) : Scalar :=
  let low := v.bits.setWidth k.width
  let shifted : BitVec k.promotionWidth :=
    if k.signed then (low.signExtend k.promotionWidth).sshiftRight (k.places count)
    else low.setWidth k.promotionWidth >>> k.places count
  ofBits k (shifted.setWidth 64)

theorem kind_shiftRight (k : Kind) (v : Scalar) (count : BitVec 32) :
    (shiftRight k v count).kind = k := rfl

def display (s : Scalar) : String :=
  Int.repr s.value

end Scalar

end StackMachine
