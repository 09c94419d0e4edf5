import StackMachine.Proofs.TypeText

namespace StackMachine

namespace Json

theorem Token.scan?_spellings_append {ts : List Token} (hv : ∀ t ∈ ts, t.Valid)
    (hc : ts.IsChain Apart) (hl : ∀ numeral, ts.getLast? ≠ some (number numeral)) (rest : List Char) :
    scan? (ts.flatMap spell ++ rest) = (scan? rest).map (ts ++ ·) := by
  induction ts with
  | nil => simp
  | cons t ts ih =>
    obtain ⟨ht, hts⟩ := List.forall_mem_cons.mp hv
    have hstops : ∀ numeral, t = number numeral → Numeral.Stops (ts.flatMap spell ++ rest) := by
      rintro numeral rfl
      cases ts with
      | nil => exact absurd rfl (hl numeral)
      | cons u ts =>
        rw [List.flatMap_cons, List.append_assoc]
        exact stops_of_apart (List.isChain_cons_cons.mp hc).1 _
    have hlast : ∀ numeral, ts.getLast? ≠ some (number numeral) := by
      intro numeral h
      apply hl numeral
      rw [List.getLast?_cons, h, Option.getD_some]
    rw [List.flatMap_cons, List.append_assoc, scan?_spell ht hstops, ih hts hc.tail hlast,
      Option.map_map]
    rfl

theorem getLast?_itemTokens (items : List Json) :
    (itemTokens items).getLast? = some .closeBracket := by
  induction items with
  | nil => rfl
  | cons item items ih => rw [itemTokens, List.getLast?_append, ih, Option.some_or]

theorem getLast?_memberTokens (members : List (List Glyph × Json)) :
    (memberTokens members).getLast? = some .closeBrace := by
  induction members with
  | nil => rfl
  | cons member members ih => rw [memberTokens, List.getLast?_append, ih, Option.some_or]

theorem getLast?_toTokens {j : Json} (h : ∀ numeral, j ≠ number numeral) (numeral : List Char) :
    j.toTokens.getLast? ≠ some (.number numeral) := by
  cases j with
  | number n => exact absurd rfl (h n)
  | null | bool _ | string _ => simp [toTokens]
  | array items =>
    cases items with
    | nil => simp [toTokens]
    | cons item items =>
      rw [toTokens, List.getLast?_append, getLast?_itemTokens, Option.some_or]
      simp
  | object members =>
    cases members with
    | nil => simp [toTokens]
    | cons member members =>
      rw [toTokens, List.getLast?_append, getLast?_memberTokens, Option.some_or]
      simp

theorem eq_of_toTokens_append {j k : Json} {ts : List Token} (h : j.toTokens ++ ts = k.toTokens) :
    j = k := by
  have hj := readValue_toTokens j [] ts
  have hk : readValue [] k.toTokens = some k := ofTokens?_eq_some_iff.mpr rfl
  rw [h, hk] at hj
  cases ts with
  | nil => exact (Option.some.inj hj).symm
  | cons t ts => simp [readRest] at hj

theorem render_prefix_iff {j k : Json} (hj : j.Valid) (hk : k.Valid)
    (hn : ∀ numeral, j ≠ number numeral) : j.render <+: k.render ↔ j = k := by
  constructor
  · rintro ⟨rest, h⟩
    have hscan : Token.scan? (j.render ++ rest) = (Token.scan? rest).map (j.toTokens ++ ·) :=
      Token.scan?_spellings_append hj j.isChain_toTokens (getLast?_toTokens hn) rest
    rw [h, scan?_render hk] at hscan
    obtain ⟨ts, -, hts⟩ := Option.map_eq_some_iff.mp hscan.symm
    exact eq_of_toTokens_append hts
  · rintro rfl
    exact List.prefix_rfl

-- numbers are the exception: a numeral can be the beginning of a longer one
example : (ofNat 1).render <+: (ofNat 12).render := by decide

end Json

namespace StaticType

theorem toJson_inj {t u : StaticType} : t.toJson = u.toJson ↔ t = u := by
  constructor
  · intro h
    -- reading takes any number of levels, so the limit of the decoder does not matter here
    have ht := t.ofJson?_toJson (max t.nesting u.nesting)
    have hu := u.ofJson?_toJson (max t.nesting u.nesting)
    rw [if_pos (Nat.le_max_left _ _), h, hu, if_pos (Nat.le_max_right _ _)] at ht
    exact (Option.some.inj ht).symm
  · rintro rfl
    rfl

theorem toJson_ne_number (t : StaticType) (numeral : List Char) : t.toJson ≠ .number numeral := by
  cases t <;> simp [toJson, Json.ofString, Json.tagged]

end StaticType

theorem type_text_determines_type (t u : StaticType) :
    (Wire.encode t = Wire.encode u ↔ t = u) ∧
      ((Wire.encode t).toList <+: (Wire.encode u).toList ↔ t = u) := by
  have hbegins : (Wire.encode t).toList <+: (Wire.encode u).toList ↔ t = u := by
    rw [Wire.encode, Wire.encode, String.toList_ofList, String.toList_ofList, ← StaticType.toJson_inj]
    exact Json.render_prefix_iff t.valid_toJson u.valid_toJson t.toJson_ne_number
  refine ⟨⟨?_, congrArg _⟩, hbegins⟩
  intro h
  exact hbegins.mp (h ▸ List.prefix_rfl)

-- the second name goes on with what closes the text of the first type
example : ¬ (Wire.encode (StaticType.object "a")).toList <+:
    (Wire.encode (StaticType.object "a\"\x7d")).toList := by decide +kernel

end StackMachine
