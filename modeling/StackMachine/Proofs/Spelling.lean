import StackMachine.Proofs.Forms
import StackMachine.Proofs.TypeText

namespace StackMachine

def Kind.Spelled (k : Kind) : Json → Prop :=
  Json.UnitVariant k.name

def StaticType.Spelled : StaticType → Json → Prop
  | primitive p => Json.UnitVariant p.name
  | object name => Json.Variant "Object" (Json.Literal name)
  | enumeration name t =>
    Json.Variant "Enum" (Json.Record [("name", Json.Literal name), ("underlying", t.Spelled)])
  | nullable t => Json.Variant "Nullable" t.Spelled

def Scalar.Spelled (s : Scalar) (j : Json) : Prop :=
  ∃ (k : Kind) (n : Nat), n < UInt64.size ∧ s = .ofBits k (BitVec.ofNat 64 n) ∧
    Json.Record [("kind", k.Spelled), ("bits", (· = .ofNat n))] j

def Operand.Spelled : Operand → Json → Prop
  | absent => Json.UnitVariant "Absent"
  | present s => Json.Variant "Present" s.Spelled

inductive Operand.ListSpelled (vs : List Operand) : Json → Prop
  | array {items : List Json} (h : List.Forall₂ (fun item v => v.Spelled item) items vs) :
      ListSpelled vs (.array items)

def Frame.Spelled (f : Frame) : Json → Prop :=
  Json.Record [("stack", Operand.ListSpelled f.values)]

theorem Json.natural?_eq_some_iff {j : Json} (hs : j.Strict) {n : Nat} :
    j.natural? = some n ↔ j = .ofNat n := by
  cases j with
  | number numeral =>
    have hstrict : Json.Numeral.Strict numeral := hs (.number numeral) (by simp [toTokens])
    rw [natural?, Json.Numeral.natural?_eq_some_iff hstrict, ofNat, number.injEq]
  | _ =>
    constructor
    · intro h
      cases h
    · intro h
      cases h

namespace Wire

variable {j : Json}

theorem kind_iff {k : Kind} : ofJson? j = some k ↔ k.Spelled j := by
  change j.unitVariant?.bind Kind.ofName? = some k ↔ _
  rw [Option.bind_eq_some_iff]
  simp only [Json.unitVariant?_eq_some_iff, Kind.ofName?_eq_some_iff, exists_eq_right]
  rfl

theorem ofJson?_scalar {kind bits : Json} (h : j.fields? ["kind", "bits"] = some [kind, bits]) :
    (ofJson? j : Option Scalar) = (ofJson? kind).bind (fun k => bits.natural?.bind (fun n =>
      if n < UInt64.size then some (.ofBits k (BitVec.ofNat 64 n)) else none)) := by
  simp only [ofJson?, h]
  rfl

theorem ofJson?_present {payload : Json} (h : j.variant? = some ("Present", some payload)) :
    (ofJson? j : Option Operand) = (ofJson? payload).map .present := by
  simp only [ofJson?, h]

theorem ofJson?_frame {stack : Json} (h : j.fields? ["stack"] = some [stack]) :
    (ofJson? j : Option Frame) = (ofJson? stack).map .ofValues := by
  simp only [ofJson?, h]

theorem scalar_iff (hs : j.Strict) {s : Scalar} : ofJson? j = some s ↔ s.Spelled j := by
  constructor
  · intro h
    simp only [ofJson?] at h
    split at h
    · rename_i kind bits hfields
      obtain ⟨k, hk, h⟩ := Option.bind_eq_some_iff.mp h
      obtain ⟨n, hn, h⟩ := Option.bind_eq_some_iff.mp h
      split at h
      · rename_i hlt
        cases h
        have hbits : bits.Strict := (Json.part_of_fields? hfields bits (by simp)).strict hs
        refine ⟨k, n, hlt, rfl, (Json.record_two_iff hs).mpr ⟨kind, bits, hfields, ?_, ?_⟩⟩
        · exact kind_iff.mp hk
        · exact (Json.natural?_eq_some_iff hbits).mp hn
      · cases h
    · cases h
  · rintro ⟨k, n, hlt, rfl, hrecord⟩
    obtain ⟨kind, bits, hfields, hkind, rfl⟩ := (Json.record_two_iff hs).mp hrecord
    have hn : (Json.ofNat n).natural? = some n := Json.Numeral.natural?_toDigits n
    rw [ofJson?_scalar hfields, kind_iff.mpr hkind, hn, Option.bind_some, Option.bind_some, if_pos hlt]

theorem operand_iff (hs : j.Strict) {v : Operand} : ofJson? j = some v ↔ v.Spelled j := by
  constructor
  · intro h
    simp only [ofJson?] at h
    split at h
    · rename_i hv
      cases h
      exact Json.unitVariant_iff.mpr (.inl hv)
    · rename_i hv
      cases h
      exact Json.unitVariant_iff.mpr (.inr hv)
    · rename_i payload hv
      obtain ⟨s, hpayload, rfl⟩ := Option.map_eq_some_iff.mp h
      obtain ⟨hkey, rfl⟩ := Json.variant?_eq_payload_iff.mp hv
      have hstrict := (Json.Part.member List.mem_cons_self).strict hs
      exact .object hkey ((scalar_iff hstrict).mp hpayload)
    · cases h
  · intro h
    cases v with
    | absent =>
      rcases Json.unitVariant_iff.mp h with hv | hv
      · simp only [ofJson?, hv]
      · simp only [ofJson?, hv]
    | present s =>
      obtain ⟨hkey, hpayload⟩ := h
      have hstrict := (Json.Part.member List.mem_cons_self).strict hs
      rw [ofJson?_present (Json.variant?_eq_payload_iff.mpr (.object hkey rfl)),
        (scalar_iff hstrict).mpr hpayload, Option.map_some]

theorem items_iff {items : List Json} (hs : ∀ item ∈ items, item.Strict) {vs : List Operand} :
    items.mapM ofJson? = some vs ↔ List.Forall₂ (fun item v => v.Spelled item) items vs := by
  rw [Json.mapM_eq_some_iff]
  induction items generalizing vs with
  | nil => simp only [List.forall₂_nil_left_iff]
  | cons item items ih =>
    obtain ⟨hitem, hitems⟩ := List.forall_mem_cons.mp hs
    simp only [List.forall₂_cons_left_iff, operand_iff hitem, ih hitems]

theorem operands_iff (hs : j.Strict) {vs : List Operand} :
    ofJson? j = some vs ↔ Operand.ListSpelled vs j := by
  cases j with
  | array items =>
    have hitems : ∀ item ∈ items, item.Strict := fun item hi => hs.item hi
    constructor
    · intro h
      exact .array ((items_iff hitems).mp h)
    · intro h
      obtain ⟨h⟩ := h
      exact (items_iff hitems).mpr h
  | _ =>
    constructor
    · intro h
      cases h
    · intro h
      cases h

theorem frame_iff (hs : j.Strict) {f : Frame} : ofJson? j = some f ↔ f.Spelled j := by
  rw [Frame.Spelled, Json.record_one_iff hs]
  constructor
  · intro h
    simp only [ofJson?] at h
    split at h
    · rename_i stack hfields
      obtain ⟨vs, hvs, rfl⟩ := Option.map_eq_some_iff.mp h
      have hstack := (Json.part_of_fields? hfields stack (by simp)).strict hs
      refine ⟨stack, hfields, ?_⟩
      rw [Frame.values_ofValues]
      exact (operands_iff hstack).mp hvs
    · cases h
  · rintro ⟨stack, hfields, hvalues⟩
    have hstack := (Json.part_of_fields? hfields stack (by simp)).strict hs
    rw [ofJson?_frame hfields, (operands_iff hstack).mpr hvalues, Option.map_some, Frame.ofValues_values]

end Wire

namespace StaticType

inductive ReadFrom : Nat → Json → StaticType → Prop
  | primitive {levels : Nat} {j : Json} {p : Primitive} (h : Json.UnitVariant p.name j) :
      ReadFrom levels j (primitive p)
  | object {levels : Nat} {key : List Json.Glyph} {payload : Json} {name : String}
      (hkey : Json.Glyph.Denotes key "Object".toList) (h : Json.Literal name payload) :
      ReadFrom (levels + 1) (.object [(key, payload)]) (object name)
  | enumeration {levels : Nat} {key : List Json.Glyph} {payload first second : Json} {name : String}
      {t : StaticType} (hkey : Json.Glyph.Denotes key "Enum".toList)
      (hfields : payload.fields? ["name", "underlying"] = some [first, second])
      (hname : Json.Literal name first) (h : ofJson? levels second = some t) :
      ReadFrom (levels + 2) (.object [(key, payload)]) (enumeration name t)
  | nullable {levels : Nat} {key : List Json.Glyph} {payload : Json} {t : StaticType}
      (hkey : Json.Glyph.Denotes key "Nullable".toList) (h : ofJson? levels payload = some t) :
      ReadFrom (levels + 1) (.object [(key, payload)]) (nullable t)

variable {levels : Nat} {j : Json} {t : StaticType}

theorem readFrom_of_ofJson? (h : ofJson? levels j = some t) : ReadFrom levels j t := by
  rw [ofJson?.eq_def] at h
  split at h
  · rename_i gs
    obtain ⟨p, hp, rfl⟩ := Option.map_eq_some_iff.mp h
    obtain ⟨name, hname, hp⟩ := Option.bind_eq_some_iff.mp hp
    obtain rfl := Primitive.ofName?_eq_some_iff.mp hp
    exact .primitive (.string (Json.Glyph.string?_eq_some_iff.mp hname))
  · rename_i levels key payload
    split at h
    · rename_i hkey
      obtain ⟨name, hname, rfl⟩ := Option.map_eq_some_iff.mp h
      exact .object (Json.Glyph.string?_eq_some_iff.mp hkey) (Json.string?_eq_some_iff.mp hname)
    · rename_i hkey
      obtain ⟨u, hu, rfl⟩ := Option.map_eq_some_iff.mp h
      exact .nullable (Json.Glyph.string?_eq_some_iff.mp hkey) hu
    · rename_i hkey
      split at h
      · rename_i inner first second hfields
        obtain ⟨name, hname, h⟩ := Option.bind_eq_some_iff.mp h
        obtain ⟨u, hu, h⟩ := Option.bind_eq_some_iff.mp h
        cases h
        exact .enumeration (Json.Glyph.string?_eq_some_iff.mp hkey) hfields
          (Json.string?_eq_some_iff.mp hname) hu
      · cases h
    · -- any other name is that of a primitive, with null as its payload
      rename_i name _ _ _ hkey
      split at h
      · obtain ⟨p, hp, rfl⟩ := Option.map_eq_some_iff.mp h
        obtain rfl := Primitive.ofName?_eq_some_iff.mp hp
        exact .primitive (.object (Json.Glyph.string?_eq_some_iff.mp hkey))
      · cases h
    · cases h
  · cases h

theorem nesting_le_of_ofJson? (h : ofJson? levels j = some t) : t.nesting ≤ levels := by
  induction t generalizing levels j with
  | primitive p => exact Nat.zero_le levels
  | object name =>
    cases readFrom_of_ofJson? h with
    | object => exact Nat.le_add_left 1 _
  | enumeration name t ih =>
    cases readFrom_of_ofJson? h with
    | enumeration _ _ _ h => exact Nat.add_le_add_right (ih h) 2
  | nullable t ih =>
    cases readFrom_of_ofJson? h with
    | nullable _ h => exact Nat.add_le_add_right (ih h) 1

theorem spelled_of_ofJson? (hs : j.Strict) (h : ofJson? levels j = some t) : t.Spelled j := by
  induction t generalizing levels j with
  | primitive p =>
    cases readFrom_of_ofJson? h with
    | primitive h => exact h
  | object name =>
    cases readFrom_of_ofJson? h with
    | object hkey h => exact .object hkey h
  | enumeration name t ih =>
    cases readFrom_of_ofJson? h with
    | @enumeration _ _ _ first second _ _ hkey hfields hname h =>
      have hpayload := (Json.Part.member List.mem_cons_self).strict hs
      have hsecond := (Json.part_of_fields? hfields second (by simp)).strict hpayload
      exact .object hkey ((Json.record_two_iff hpayload).mpr ⟨first, second, hfields, hname, ih hsecond h⟩)
  | nullable t ih =>
    cases readFrom_of_ofJson? h with
    | nullable hkey h => exact .object hkey (ih ((Json.Part.member List.mem_cons_self).strict hs) h)

theorem ofJson?_null {key : List Json.Glyph} {p : Primitive} (hkey : Json.Glyph.string? key = some p.name) :
    ofJson? (levels + 1) (.object [(key, .null)]) = some (primitive p) := by
  have hname : p.name ≠ "Object" ∧ p.name ≠ "Nullable" ∧ p.name ≠ "Enum" := by
    cases p with
    | integer k => cases k <;> decide
    | _ => decide
  obtain ⟨hobject, hnullable, henum⟩ := hname
  rw [ofJson?.eq_def]
  simp only [hkey]
  rw [Primitive.ofName?_name, Option.map_some]

theorem ofJson?_of_spelled (h : t.Spelled j) (hs : j.Strict) (hn : j.nesting ≤ levels) :
    ofJson? levels j = some t := by
  induction t generalizing levels j with
  | primitive p =>
    cases h with
    | string h =>
      rw [ofJson?, Json.Glyph.string?_eq_some_iff.mpr h, Option.bind_some, Primitive.ofName?_name,
        Option.map_some]
    | object h =>
      obtain ⟨inner, rfl, -⟩ := (Json.Part.member List.mem_cons_self).exists_level hn
      exact ofJson?_null (Json.Glyph.string?_eq_some_iff.mpr h)
  | object name =>
    obtain ⟨hkey, hname⟩ := h
    obtain ⟨inner, rfl, -⟩ := (Json.Part.member List.mem_cons_self).exists_level hn
    rw [ofJson?_object (Json.Glyph.string?_eq_some_iff.mpr hkey), Json.string?_eq_some_iff.mpr hname,
      Option.map_some]
  | enumeration name t ih =>
    obtain ⟨hkey, hrecord⟩ := h
    have hpayload := (Json.Part.member List.mem_cons_self).strict hs
    obtain ⟨first, second, hfields, hname, hsecond⟩ := (Json.record_two_iff hpayload).mp hrecord
    have hpart := Json.part_of_fields? hfields second (by simp)
    obtain ⟨outer, rfl, houter⟩ := (Json.Part.member List.mem_cons_self).exists_level hn
    obtain ⟨inner, rfl, hinner⟩ := hpart.exists_level houter
    rw [ofJson?_enumeration (Json.Glyph.string?_eq_some_iff.mpr hkey) hfields,
      Json.string?_eq_some_iff.mpr hname, ih hsecond (hpart.strict hpayload) hinner, Option.bind_some,
      Option.map_some]
  | nullable t ih =>
    obtain ⟨hkey, h⟩ := h
    have hpayload := (Json.Part.member List.mem_cons_self).strict hs
    obtain ⟨inner, rfl, hinner⟩ := (Json.Part.member List.mem_cons_self).exists_level hn
    rw [ofJson?_nullable (Json.Glyph.string?_eq_some_iff.mpr hkey), ih h hpayload hinner, Option.map_some]

end StaticType

inductive Target where
  | kind
  | type
  | scalar
  | operand
  | operands
  | frame

namespace Target

def Value : Target → Type
  | kind => Kind
  | type => StaticType
  | scalar => Scalar
  | operand => Operand
  | operands => List Operand
  | frame => Frame

instance wire : (target : Target) → Wire target.Value
  | kind => inferInstanceAs (Wire Kind)
  | type => inferInstanceAs (Wire StaticType)
  | scalar => inferInstanceAs (Wire Scalar)
  | operand => inferInstanceAs (Wire Operand)
  | operands => inferInstanceAs (Wire (List Operand))
  | frame => inferInstanceAs (Wire Frame)

def Spelled : (target : Target) → target.Value → Json → Prop
  | kind => Kind.Spelled
  | type => StaticType.Spelled
  | scalar => Scalar.Spelled
  | operand => Operand.Spelled
  | operands => Operand.ListSpelled
  | frame => Frame.Spelled

theorem ofJson?_eq_some_iff (target : Target) {j : Json} (hs : j.Strict)
    (hn : j.nesting ≤ StaticType.nestingLimit) (v : target.Value) :
    Wire.ofJson? j = some v ↔ target.Spelled v j := by
  cases target with
  | kind => exact Wire.kind_iff
  | type =>
    constructor
    · exact StaticType.spelled_of_ofJson? hs
    · exact fun h => StaticType.ofJson?_of_spelled h hs hn
  | scalar => exact Wire.scalar_iff hs
  | operand => exact Wire.operand_iff hs
  | operands => exact Wire.operands_iff hs
  | frame => exact Wire.frame_iff hs

end Target

theorem decode_eq_some_iff_spelled (target : Target) (text : String) (v : target.Value)
    (hnesting : ∀ j : Json, j.Written text.toList → j.nesting ≤ 127)
    (hpaired : Json.Glyph.surrogatesPaired false text.toList) :
    Wire.decode? text = some v ↔ ∃ j : Json, j.Written text.toList ∧ target.Spelled v j := by
  rw [Wire.decode?, Option.bind_eq_some_iff]
  constructor
  · rintro ⟨j, hj, hv⟩
    have hwritten := Json.written_of_parse? hj hpaired
    exact ⟨j, hwritten, (target.ofJson?_eq_some_iff hwritten.1 (hnesting j hwritten) v).mp hv⟩
  · rintro ⟨j, hwritten, hv⟩
    exact ⟨j, hwritten.parse?, (target.ofJson?_eq_some_iff hwritten.1 (hnesting j hwritten) v).mpr hv⟩

theorem decode_eq_some_iff_spelled_emoji :
    let text := " \x7b\"Nullable\" : \x7b\"\\u0045num\":[\"\\ud83d\\ude00\" ,\x7b\"Int8\":null\x7d]\x7d\x7d\n"
    let t : StaticType := .nullable (.enumeration "😀" (.ofKind .int8))
    (∀ j : Json, j.Written text.toList → j.nesting ≤ 127) ∧
      Json.Glyph.surrogatesPaired false text.toList ∧ Wire.decode? text = some t ∧
      ∃ j : Json, j.Written text.toList ∧ t.Spelled j := by
  intro text t
  have hnesting : ∀ j : Json, j.Written text.toList → j.nesting ≤ 127 := by
    have hparse : (Json.parse? text.toList).all (fun j => j.nesting ≤ 127) := by decide +kernel
    intro j hj
    rw [hj.parse?] at hparse
    exact of_decide_eq_true hparse
  have hpaired : Json.Glyph.surrogatesPaired false text.toList := by decide +kernel
  have hdecode : Wire.decode? text = some t := by decide +kernel
  exact ⟨hnesting, hpaired, hdecode,
    (decode_eq_some_iff_spelled .type text t hnesting hpaired).mp hdecode⟩

end StackMachine
