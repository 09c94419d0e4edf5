import StackMachine.Proofs.Rendering
import StackMachine.Wire.Values

namespace StackMachine

namespace StaticType

theorem valid_toJson (t : StaticType) : t.toJson.Valid := by
  induction t with
  | primitive base => exact Json.valid_ofString base.name
  | object name => exact Json.valid_tagged "Object" (Json.valid_ofString name)
  | enumeration name t ih =>
    apply Json.valid_tagged
    apply Json.valid_record
    simp only [List.forall_mem_cons]
    exact ⟨Json.valid_ofString name, ih, by simp⟩
  | nullable t ih => exact Json.valid_tagged "Nullable" ih

section Tags

variable {levels : Nat} {key : List Json.Glyph} {payload : Json}

theorem ofJson?_zero : ofJson? 0 (.object [(key, payload)]) = none := by
  rw [ofJson?] <;> simp

theorem ofJson?_object (hkey : Json.Glyph.string? key = some "Object") :
    ofJson? (levels + 1) (.object [(key, payload)]) = payload.string?.map object := by
  rw [ofJson?.eq_def]
  simp only [hkey]

theorem ofJson?_nullable (hkey : Json.Glyph.string? key = some "Nullable") :
    ofJson? (levels + 1) (.object [(key, payload)]) = (ofJson? levels payload).map nullable := by
  rw [ofJson?.eq_def]
  simp only [hkey]

theorem ofJson?_one_enumeration (hkey : Json.Glyph.string? key = some "Enum") :
    ofJson? 1 (.object [(key, payload)]) = none := by
  rw [ofJson?.eq_def]
  simp only [hkey]

theorem ofJson?_enumeration (hkey : Json.Glyph.string? key = some "Enum") {name underlying : Json}
    (hfields : payload.fields? ["name", "underlying"] = some [name, underlying]) :
    ofJson? (levels + 2) (.object [(key, payload)]) =
      name.string?.bind (fun name => (ofJson? levels underlying).map (enumeration name)) := by
  rw [ofJson?.eq_def]
  simp only [hkey, hfields]
  cases name.string? with
  | none => rfl
  | some name => cases ofJson? levels underlying <;> rfl

end Tags

theorem ofJson?_toJson (t : StaticType) (levels : Nat) :
    ofJson? levels t.toJson = if t.nesting ≤ levels then some t else none := by
  have hkey (name : String) : Json.Glyph.string? (Json.Glyph.ofString name) = some name :=
    Json.Glyph.string?_ofString name
  induction t generalizing levels with
  | primitive base =>
    rw [toJson, Json.ofString, ofJson?, hkey, nesting, if_pos (Nat.zero_le levels), Option.bind_some,
      Primitive.ofName?_name, Option.map_some]
  | object name =>
    cases levels with
    | zero => exact ofJson?_zero
    | succ levels =>
      rw [toJson, Json.tagged, ofJson?_object (hkey _), Json.string?_ofString, nesting,
        if_pos (by omega), Option.map_some]
  | enumeration name t ih =>
    rcases levels with _ | _ | levels
    · exact ofJson?_zero
    · rw [toJson, Json.tagged, ofJson?_one_enumeration (hkey _), nesting, if_neg (by omega)]
    · have hfields : (Json.record [("name", .ofString name), ("underlying", t.toJson)]).fields?
          ["name", "underlying"] = some [.ofString name, t.toJson] :=
        Json.fields?_record (by simp)
      rw [toJson, Json.tagged, ofJson?_enumeration (hkey _) hfields, Json.string?_ofString,
        Option.bind_some, ih, nesting, apply_ite (Option.map _)]
      simp only [Nat.add_le_add_iff_right, Option.map_some, Option.map_none]
  | nullable t ih =>
    cases levels with
    | zero => exact ofJson?_zero
    | succ levels =>
      rw [toJson, Json.tagged, ofJson?_nullable (hkey _), ih, nesting, apply_ite (Option.map _)]
      simp only [Nat.add_le_add_iff_right, Option.map_some, Option.map_none]

end StaticType

theorem decode_encode_type (t : StaticType) :
    Wire.decode? (Wire.encode t) = if t.nesting ≤ 127 then some t else none := by
  rw [Wire.decode?_encode t.valid_toJson]
  exact t.ofJson?_toJson StaticType.nestingLimit

example : Wire.encode (.nullable (.object "\"\n") : StaticType) =
    "\x7b\"Nullable\":\x7b\"Object\":\"\\\"\\n\"\x7d\x7d" := by decide +kernel

end StackMachine
