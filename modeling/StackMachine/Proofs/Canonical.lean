import StackMachine.Instruction
import StackMachine.Wire.Values

namespace StackMachine

namespace Scalar

variable {s t : Scalar}

theorem Canonical.value_eq (h : s.Canonical) : s.value = s.kind.denote s.bits := by
  have hv := value_ofBits s.kind s.bits
  rwa [h] at hv

theorem eq_of_value_eq (hk : s.kind = t.kind) (hv : s.value = t.value) : s = t := by
  obtain ⟨j, x⟩ := s
  obtain ⟨k, y⟩ := t
  obtain rfl : j = k := hk
  rw [value, value] at hv
  cases hs : j.signed with
  | true =>
    simp only [hs, if_true] at hv
    rw [BitVec.eq_of_toInt_eq hv]
  | false =>
    simp only [hs, Bool.false_eq_true, if_false] at hv
    rw [BitVec.eq_of_toNat_eq (Int.ofNat.inj hv)]

theorem Canonical.eq_iff (hs : s.Canonical) (ht : t.Canonical) :
    s = t ↔ s.kind = t.kind ∧ s.kind.denote s.bits = t.kind.denote t.bits := by
  constructor
  · rintro rfl
    exact ⟨rfl, rfl⟩
  · rintro ⟨hk, hv⟩
    apply eq_of_value_eq hk
    rw [hs.value_eq, ht.value_eq, hv]

theorem canonical_shiftRight (k : Kind) (v : Scalar) (count : BitVec 32) :
    (shiftRight k v count).Canonical :=
  canonical_ofBits k _

end Scalar

namespace Operand

def Canonical : Operand → Prop
  | absent => True
  | present s => s.Canonical

variable {v w : Operand}

theorem Canonical.eq_iff (hv : v.Canonical) (hw : w.Canonical) :
    v = w ↔ v = absent ∧ w = absent ∨ ∃ s t, v = present s ∧ w = present t ∧
      s.kind = t.kind ∧ s.kind.denote s.bits = t.kind.denote t.bits := by
  cases v with
  | absent => cases w <;> simp
  | present s =>
    cases w with
    | absent => simp
    | present t =>
      have hst := Scalar.Canonical.eq_iff hv hw
      simp [hst]

end Operand

theorem Wire.exists_of_decode? {α : Type} [Wire α] {text : String} {a : α}
    (h : Wire.decode? text = some a) : ∃ j, Wire.ofJson? j = some a := by
  obtain ⟨j, -, hj⟩ := Option.bind_eq_some_iff.mp h
  exact ⟨j, hj⟩

namespace Json

variable {j : Json}

theorem canonical_scalar {s : Scalar} (h : Wire.ofJson? j = some s) : s.Canonical := by
  simp only [Wire.ofJson?] at h
  split at h
  · obtain ⟨k, -, h⟩ := Option.bind_eq_some_iff.mp h
    obtain ⟨n, -, h⟩ := Option.bind_eq_some_iff.mp h
    split at h
    · cases h
      exact Scalar.canonical_ofBits k _
    · cases h
  · cases h

theorem canonical_operand {v : Operand} (h : Wire.ofJson? j = some v) : v.Canonical := by
  simp only [Wire.ofJson?] at h
  split at h
  · cases h
    exact trivial
  · cases h
    exact trivial
  · obtain ⟨s, hs, rfl⟩ := Option.map_eq_some_iff.mp h
    exact canonical_scalar hs
  · cases h

theorem canonical_operands {vs : List Operand} (h : Wire.ofJson? j = some vs) :
    ∀ v ∈ vs, v.Canonical := by
  simp only [Wire.ofJson?] at h
  split at h
  · rename_i items
    induction items generalizing vs with
    | nil =>
      cases h
      simp
    | cons item items ih =>
      rw [List.mapM_cons] at h
      obtain ⟨v, hv, h⟩ := Option.bind_eq_some_iff.mp h
      obtain ⟨ws, hws, h⟩ := Option.bind_eq_some_iff.mp h
      cases h
      exact List.forall_mem_cons.mpr ⟨canonical_operand hv, ih hws⟩
  · cases h

end Json

def Frame.Within (P : Operand → Prop) (f : Frame) : Prop :=
  ∀ v ∈ f.operands, P v

namespace Frame.Within

variable {P : Operand → Prop} {f g : Frame} {v : Operand}

theorem empty : Frame.empty.Within P := by
  intro v hv
  cases hv

theorem push (hf : f.Within P) (hv : P v) : (f.push v).Within P :=
  List.forall_mem_cons.mpr ⟨hv, hf⟩

theorem popFor {name : String} {outcome : Except Fault Operand} (hf : f.Within P)
    (h : f.popFor name = (outcome, g)) : g.Within P ∧ ∀ v, outcome = .ok v → P v := by
  obtain ⟨_ | ⟨w, rest⟩⟩ := f
  · cases h
    refine ⟨hf, ?_⟩
    intro v hv
    cases hv
  · cases h
    refine ⟨fun v hv => hf v (List.mem_cons_of_mem _ hv), ?_⟩
    intro v hv
    cases hv
    exact hf w (by simp)

theorem values (hf : f.Within P) (hv : v ∈ f.values) : P v :=
  hf v (List.mem_reverse.mp hv)

end Frame.Within

theorem Json.canonical_frame {j : Json} {f : Frame} (h : Wire.ofJson? j = some f) :
    f.Within Operand.Canonical := by
  simp only [Wire.ofJson?] at h
  split at h
  · obtain ⟨vs, hvs, rfl⟩ := Option.map_eq_some_iff.mp h
    intro v hv
    exact canonical_operands hvs v (List.mem_reverse.mp hv)
  · cases h

def FrameM.Keeps {α : Type} (P : Operand → Prop) (action : FrameM α) (Q : α → Prop) : Prop :=
  ∀ f : Frame, f.Within P → (action.exec f).2.Within P ∧ ∀ a, (action.exec f).1 = .ok a → Q a

namespace FrameM.Keeps

variable {α β : Type} {P : Operand → Prop} {Q : α → Prop} {R : β → Prop}

theorem pure {a : α} (ha : Q a) : Keeps P (Pure.pure a) Q := by
  intro f hf
  refine ⟨hf, ?_⟩
  intro b hb
  cases hb
  exact ha

theorem push {v : Operand} (hv : P v) : Keeps P (FrameM.push v) (fun _ => True) :=
  fun _ hf => ⟨hf.push hv, fun _ _ => trivial⟩

theorem popFor (name : String) : Keeps P (FrameM.popFor name) P :=
  fun _ hf => hf.popFor rfl

theorem bind {action : FrameM α} {next : α → FrameM β} (h : Keeps P action Q)
    (hn : ∀ a, Q a → Keeps P (next a) R) : Keeps P (action >>= next) R := by
  intro f hf
  obtain ⟨hg, ha⟩ := h f hf
  rw [exec_bind]
  generalize action.exec f = result at hg ha
  obtain ⟨fault | a, g⟩ := result
  · refine ⟨hg, ?_⟩
    intro b hb
    cases hb
  · exact hn a (ha a rfl) g hg

end FrameM.Keeps

end StackMachine
