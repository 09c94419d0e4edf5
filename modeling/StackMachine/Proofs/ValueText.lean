import StackMachine.Proofs.Client
import StackMachine.Proofs.Spelling

namespace StackMachine

theorem Json.valid_ofNat (n : Nat) : (ofNat n).Valid := by
  simp only [Valid, ofNat, toTokens, List.forall_mem_singleton]
  exact (Numeral.whole_toDigits n).strict.read

namespace Wire

/-- The JSON form of the value has a text, and the value is what is read from it. -/
structure Legible {α : Type} [Wire α] (a : α) : Prop where
  valid : (toJson a).Valid
  read : ofJson? (toJson a) = some a

namespace Legible

variable {α : Type} [Wire α]

theorem decode {a : α} (h : Legible a) : decode? (encode a) = some a := by
  rw [decode?_encode h.valid, h.read]

theorem list {as : List α} (h : ∀ a ∈ as, Legible a) : Legible as where
  valid := Json.valid_array (List.forall_mem_map.mpr (fun a ha => (h a ha).valid))
  read := by
    have hitems := Json.mapM_map_eq_some (q := id) (fun a ha => (h a ha).read)
    rwa [List.map_id] at hitems

theorem kind (k : Kind) : Legible k where
  valid := Json.valid_ofString k.name
  read := kind_iff.mpr (.string (Json.Glyph.string?_eq_some_iff.mp (Json.Glyph.string?_ofString k.name)))

theorem scalar {s : Scalar} (h : s.Canonical) : Legible s where
  valid := by
    apply Json.valid_record
    simp only [List.forall_mem_cons]
    exact ⟨(kind s.kind).valid, Json.valid_ofNat _, by simp⟩
  read := by
    have hfields : (toJson s).fields? ["kind", "bits"] = some [toJson s.kind, .ofNat s.bits.toNat] :=
      Json.fields?_record (by simp)
    have hbits : (Json.ofNat s.bits.toNat).natural? = some s.bits.toNat :=
      Json.Numeral.natural?_toDigits _
    -- reading extends the bits once more, which leaves those of a canonical scalar as they are
    rw [ofJson?_scalar hfields, (kind s.kind).read, hbits, Option.bind_some, Option.bind_some,
      if_pos s.bits.isLt, BitVec.ofNat_toNat, BitVec.setWidth_eq, h]

theorem operand {v : Operand} (h : v.Canonical) : Legible v := by
  cases v with
  | absent => exact ⟨Json.valid_ofString "Absent", by decide +kernel⟩
  | present s =>
    have hs := scalar h
    refine ⟨Json.valid_tagged "Present" hs.valid, ?_⟩
    have hvariant : (toJson (Operand.present s)).variant? = some ("Present", some (toJson s)) := by
      simp only [toJson, Json.tagged, Json.variant?, Json.Glyph.string?_ofString, Option.map_some]
    rw [ofJson?_present hvariant, hs.read, Option.map_some]

theorem frame {f : Frame} (h : f.Within Operand.Canonical) : Legible f := by
  have hvalues : Legible f.values := list (fun v hv => operand (h.values hv))
  constructor
  · apply Json.valid_record
    exact List.forall_mem_singleton.mpr hvalues.valid
  · have hfields : (toJson f).fields? ["stack"] = some [toJson f.values] :=
      Json.fields?_record (by simp)
    rw [ofJson?_frame hfields, hvalues.read, Option.map_some, Frame.ofValues_values]

theorem type {t : StaticType} (h : t.nesting ≤ StaticType.nestingLimit) : Legible t where
  valid := t.valid_toJson
  read := (t.ofJson?_toJson StaticType.nestingLimit).trans (if_pos h)

end Legible

end Wire

theorem Target.legible_of_ofJson? (target : Target) {j : Json} {v : target.Value}
    (h : Wire.ofJson? j = some v) : Wire.Legible v := by
  -- what is read is canonical and within the limit on nesting, however it was written
  cases target with
  | kind => exact .kind v
  | type => exact .type (StaticType.nesting_le_of_ofJson? h)
  | scalar => exact .scalar (Json.canonical_scalar h)
  | operand => exact .operand (Json.canonical_operand h)
  | operands => exact .list (fun w hw => .operand (Json.canonical_operands h w hw))
  | frame => exact .frame (Json.canonical_frame h)

theorem rewritten_text_is_normal (target : Target) (text : String) (v : target.Value)
    (h : Wire.decode? text = some v) :
    Wire.decode? (Wire.encode v) = some v ∧
      (Wire.decode? (Wire.encode v) : Option target.Value).map Wire.encode = some (Wire.encode v) := by
  obtain ⟨j, hj⟩ := Wire.exists_of_decode? h
  have hdecode := (target.legible_of_ofJson? hj).decode
  exact ⟨hdecode, by rw [hdecode, Option.map_some]⟩

theorem rewritten_text_is_normal_array :
    let text := "[ [\"\\u0041bsent\",\x7b\"Present\":[\x7b\"Int8\":null\x7d,511]\x7d,\x7b\"Absent\":null\x7d,
      \x7b\"Present\":\x7b\"note\":[-0.5e1],\"bits\":18446744073709551615,\"kind\":\"UInt64\"\x7d\x7d] ]"
    let f := Frame.ofValues [.absent, .ofInt .int8 (-1), .absent, .ofInt .uint64 (-1)]
    Wire.decode? text = some f ∧ Wire.decode? (Wire.encode f) = some f ∧
      (Wire.decode? (Wire.encode f) : Option Frame).map Wire.encode = some (Wire.encode f) := by
  intro text f
  have hdecode : Wire.decode? text = some f := by decide +kernel
  exact ⟨hdecode, rewritten_text_is_normal .frame text f hdecode⟩

theorem reachable_values_round_trip :
    (∀ f : Frame, f.Reachable → Wire.decode? (Wire.encode f) = some f ∧
      ∀ p : Program, (Wire.decode? (Wire.encode f)).map p.run = some (p.run f)) ∧
    (∀ vs : List Operand, (∀ v ∈ vs, v.Obtainable) → Wire.decode? (Wire.encode vs) = some vs) ∧
    (∀ v : Operand, v.Obtainable → Wire.decode? (Wire.encode v) = some v) ∧
    ∀ s : Scalar, (Operand.present s).Obtainable → Wire.decode? (Wire.encode s) = some s := by
  refine ⟨?_, ?_, ?_, ?_⟩
  · intro f hf
    have hdecode := (Wire.Legible.frame (Frame.reachable_iff.mp hf)).decode
    exact ⟨hdecode, fun p => by rw [hdecode, Option.map_some]⟩
  · intro vs hvs
    exact (Wire.Legible.list (fun v hv => .operand (hvs v hv).canonical)).decode
  · intro v hv
    exact (Wire.Legible.operand hv.canonical).decode
  · intro s hs
    exact (Wire.Legible.scalar hs.canonical).decode

theorem reachable_values_round_trip_mixed :
    let s := Scalar.ofInt .int16 (-2)
    let vs : List Operand := [.absent, .present s, .ofInt .uint64 (-1)]
    let f := Frame.ofValues vs
    f.Reachable ∧ (∀ v ∈ vs, v.Obtainable) ∧ Wire.decode? (Wire.encode f) = some f ∧
      (∀ p : Program, (Wire.decode? (Wire.encode f)).map p.run = some (p.run f)) ∧
      Wire.decode? (Wire.encode vs) = some vs ∧
      Wire.decode? (Wire.encode (Operand.present s)) = some (Operand.present s) ∧
      Wire.decode? (Wire.encode s) = some s := by
  intro s vs f
  have hcanonical : ∀ v ∈ vs, v.Canonical := by
    simp only [vs, List.forall_mem_cons]
    exact ⟨trivial, Scalar.canonical_ofBits _ _, Scalar.canonical_ofBits _ _, by simp⟩
  have hf : f.Reachable := Frame.reachable_iff.mpr (fun v hv => hcanonical v (List.mem_reverse.mp hv))
  have hvs : ∀ v ∈ vs, v.Obtainable := fun v hv => Operand.obtainable_iff.mpr (hcanonical v hv)
  have hs : (Operand.present s).Obtainable := hvs _ (by simp [vs])
  obtain ⟨hframe, hlist, hoperand, hscalar⟩ := reachable_values_round_trip
  exact ⟨hf, hvs, (hframe f hf).1, (hframe f hf).2, hlist vs hvs, hoperand _ hs, hscalar s hs⟩

end StackMachine
