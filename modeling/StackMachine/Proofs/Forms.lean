import Mathlib.Data.List.Forall2
import StackMachine.Proofs.Grammar

/-!
The forms that variants and records take in JSON, stated about values as they are written: names may
be spelled with escapes, the fields of a record may come in any order among others, or as an array.
The readers of these forms accept them and nothing else.
-/

namespace StackMachine.Json

inductive Literal (text : String) : Json → Prop
  | string {gs : List Glyph} (h : Glyph.Denotes gs text.toList) : Literal text (string gs)

inductive UnitVariant (name : String) : Json → Prop
  | string {gs : List Glyph} (h : Glyph.Denotes gs name.toList) : UnitVariant name (string gs)
  | object {key : List Glyph} (h : Glyph.Denotes key name.toList) :
      UnitVariant name (object [(key, null)])

inductive Variant (name : String) (P : Json → Prop) : Json → Prop
  | object {key : List Glyph} {payload : Json} (h : Glyph.Denotes key name.toList) (hp : P payload) :
      Variant name P (object [(key, payload)])

def Only (members : List (List Glyph × Json)) (name : String) (value : Json) : Prop :=
  ∃ before key after, members = before ++ (key, value) :: after ∧ Glyph.Denotes key name.toList ∧
    ∀ member ∈ before ++ after, ¬ Glyph.Denotes member.1 name.toList

/-- A record: an array of exactly its fields in their order, or an object in which each field occurs
exactly once. The object may have other members, and the order does not matter. -/
inductive Record (fields : List (String × (Json → Prop))) : Json → Prop
  | array {items : List Json} (h : List.Forall₂ (fun field item => field.2 item) fields items) :
      Record fields (array items)
  | object {members : List (List Glyph × Json)}
      (h : ∀ field ∈ fields, ∃ value, Only members field.1 value ∧ field.2 value) :
      Record fields (object members)

inductive Part (j : Json) : Json → Prop
  | item {items : List Json} (h : j ∈ items) : Part j (array items)
  | member {members : List (List Glyph × Json)} {key : List Glyph} (h : (key, j) ∈ members) :
      Part j (object members)

variable {j : Json} {name text : String}

theorem string?_eq_some_iff : j.string? = some text ↔ Literal text j := by
  constructor
  · intro h
    cases j with
    | string gs => exact .string (Glyph.string?_eq_some_iff.mp h)
    | _ => cases h
  · rintro ⟨h⟩
    exact Glyph.string?_eq_some_iff.mpr h

theorem variant?_eq_name_iff : j.variant? = some (name, none) ↔ Literal name j := by
  constructor
  · intro h
    unfold variant? at h
    split at h
    · obtain ⟨text, ht, he⟩ := Option.map_eq_some_iff.mp h
      cases he
      exact .string (Glyph.string?_eq_some_iff.mp ht)
    · obtain ⟨text, ht, he⟩ := Option.map_eq_some_iff.mp h
      cases he
    · cases h
  · rintro ⟨h⟩
    rw [variant?, Glyph.string?_eq_some_iff.mpr h, Option.map_some]

theorem variant?_eq_payload_iff {payload : Json} :
    j.variant? = some (name, some payload) ↔ Variant name (· = payload) j := by
  constructor
  · intro h
    unfold variant? at h
    split at h
    · obtain ⟨text, ht, he⟩ := Option.map_eq_some_iff.mp h
      cases he
    · obtain ⟨text, ht, he⟩ := Option.map_eq_some_iff.mp h
      cases he
      exact .object (Glyph.string?_eq_some_iff.mp ht) rfl
    · cases h
  · rintro ⟨h, rfl⟩
    rw [variant?, Glyph.string?_eq_some_iff.mpr h, Option.map_some]

theorem unitVariant_iff :
    UnitVariant name j ↔ j.variant? = some (name, none) ∨ j.variant? = some (name, some null) := by
  rw [variant?_eq_name_iff, variant?_eq_payload_iff]
  constructor
  · intro h
    cases h with
    | string h => exact .inl ⟨h⟩
    | object h => exact .inr (.object h rfl)
  · rintro (h | h)
    · obtain ⟨h⟩ := h
      exact .string h
    · obtain ⟨h, rfl⟩ := h
      exact .object h

theorem unitVariant?_eq_some_iff : j.unitVariant? = some name ↔ UnitVariant name j := by
  rw [unitVariant_iff, unitVariant?]
  split <;> simp_all

theorem mapM_eq_some_iff {α β : Type} {f : α → Option β} {as : List α} {bs : List β} :
    as.mapM f = some bs ↔ List.Forall₂ (fun a b => f a = some b) as bs := by
  induction as generalizing bs with
  | nil =>
    rw [List.mapM_nil, List.forall₂_nil_left_iff]
    exact ⟨fun h => (Option.some.inj h).symm, fun h => h ▸ rfl⟩
  | cons a as ih =>
    simp only [List.mapM_cons, Option.bind_eq_bind, Option.bind_eq_some_iff, ih,
      List.forall₂_cons_left_iff]
    constructor
    · rintro ⟨b, hb, bs, hbs, h⟩
      cases h
      exact ⟨b, bs, hb, hbs, rfl⟩
    · rintro ⟨b, bs, hb, hbs, rfl⟩
      exact ⟨b, hb, bs, hbs, rfl⟩

theorem named?_eq_some_iff {members : List (List Glyph × Json)} {named : List (String × Json)} :
    named? members = some named ↔
      List.Forall₂ (fun m n => Glyph.Denotes m.1 n.1.toList ∧ m.2 = n.2) members named := by
  rw [named?, mapM_eq_some_iff]
  apply iff_of_eq
  congr 1
  funext m n
  obtain ⟨key, value⟩ := m
  obtain ⟨name, value'⟩ := n
  simp [Glyph.string?_eq_some_iff]

theorem only_iff {members : List (List Glyph × Json)} {value : Json} :
    Only members name value ↔
      (members.filter (fun m => Glyph.string? m.1 == some name)).map Prod.snd = [value] := by
  simp only [Only, List.map_eq_singleton_iff, List.filter_eq_cons_iff, List.filter_eq_nil_iff,
    beq_iff_eq, Glyph.string?_eq_some_iff]
  constructor
  · rintro ⟨before, key, after, rfl, hkey, hothers⟩
    obtain ⟨hbefore, hafter⟩ := List.forall_mem_append.mp hothers
    exact ⟨(key, value), ⟨before, after, rfl, hbefore, hkey, hafter⟩, rfl⟩
  · rintro ⟨⟨key, _⟩, ⟨before, after, rfl, hbefore, hkey, hafter⟩, rfl⟩
    exact ⟨before, key, after, rfl, hkey, List.forall_mem_append.mpr ⟨hbefore, hafter⟩⟩

theorem only?_eq_some_iff {members : List (List Glyph × Json)} {named : List (String × Json)}
    (hn : named? members = some named) {value : Json} :
    only? named name = some value ↔ Only members name value := by
  have hfilter : (named.filter (fun m => m.1 == name)).map Prod.snd =
      (members.filter (fun m => Glyph.string? m.1 == some name)).map Prod.snd := by
    rw [named?_eq_some_iff] at hn
    induction hn with
    | nil => rfl
    | @cons m n members named h _ ih =>
      obtain ⟨hkey, hvalue⟩ := h
      rw [← Glyph.string?_eq_some_iff] at hkey
      by_cases hname : n.1 = name
      · simp [hkey, hname, hvalue, ih]
      · simp [hkey, hname, ih]
  rw [only_iff, ← hfilter, only?]
  split
  · rename_i x v heq
    simp [heq]
  · rename_i hne
    constructor
    · intro h
      cases h
    · intro h
      obtain ⟨⟨x, v⟩, heq, rfl⟩ := List.map_eq_singleton_iff.mp h
      exact (hne x v heq).elim

section Strictness

variable {items : List Json} {members : List (List Glyph × Json)} {key : List Glyph}

theorem strict_of_itemTokens (hs : ∀ t ∈ itemTokens items, t.Strict) (h : j ∈ items) : j.Strict := by
  induction items with
  | nil => cases h
  | cons item items ih =>
    rw [itemTokens, List.forall_mem_append, List.forall_mem_cons] at hs
    rcases List.mem_cons.mp h with rfl | h
    · exact hs.1.2
    · exact ih hs.2 h

theorem strict_of_memberTokens (hs : ∀ t ∈ memberTokens members, t.Strict) (h : (key, j) ∈ members) :
    (Token.string key).Strict ∧ j.Strict := by
  induction members with
  | nil => cases h
  | cons member members ih =>
    obtain ⟨key', value⟩ := member
    rw [memberTokens, List.forall_mem_append] at hs
    simp only [List.forall_mem_cons] at hs
    rcases List.mem_cons.mp h with heq | h
    · cases heq
      exact ⟨hs.1.2.1, hs.1.2.2.2⟩
    · exact ih hs.2 h

theorem Strict.item (hs : (array items).Strict) (h : j ∈ items) : j.Strict := by
  cases items with
  | nil => cases h
  | cons item items =>
    refine strict_of_itemTokens ?_ h
    rw [Strict, toTokens, List.cons_append, List.forall_mem_cons] at hs
    exact List.forall_mem_cons.mpr ⟨trivial, hs.2⟩

theorem Strict.member (hs : (object members).Strict) (h : (key, j) ∈ members) :
    (Token.string key).Strict ∧ j.Strict := by
  cases members with
  | nil => cases h
  | cons member members =>
    obtain ⟨key', value⟩ := member
    refine strict_of_memberTokens ?_ h
    rw [Strict, toTokens, List.cons_append, List.forall_mem_cons] at hs
    exact List.forall_mem_cons.mpr ⟨trivial, hs.2⟩

theorem Part.strict {whole : Json} (h : Part j whole) (hs : whole.Strict) : j.Strict := by
  cases h with
  | item h => exact hs.item h
  | member h => exact (hs.member h).2

theorem Part.nesting_lt {whole : Json} (h : Part j whole) : j.nesting < whole.nesting := by
  cases h with
  | item h => exact Nat.lt_succ_of_le (nesting_le_itemsNesting h)
  | member h => exact Nat.lt_succ_of_le (nesting_le_membersNesting h)

theorem Part.exists_level {whole : Json} (h : Part j whole) {levels : Nat} (hn : whole.nesting ≤ levels) :
    ∃ inner, levels = inner + 1 ∧ j.nesting ≤ inner := by
  have hlt := h.nesting_lt
  exact ⟨levels - 1, by omega, by omega⟩

theorem Strict.exists_named (hs : (object members).Strict) : ∃ named, named? members = some named := by
  have hkeys : ∀ member ∈ members, ∃ cs, Glyph.Denotes member.1 cs :=
    fun member hm => (hs.member hm).1.2
  -- strictness of the object is not inherited by its tail, what it says about the keys is
  clear hs
  simp only [named?_eq_some_iff]
  induction members with
  | nil => exact ⟨[], .nil⟩
  | cons member members ih =>
    obtain ⟨⟨cs, hcs⟩, hkeys⟩ := List.forall_mem_cons.mp hkeys
    obtain ⟨named, hn⟩ := ih hkeys
    refine ⟨(String.ofList cs, member.2) :: named, .cons ⟨?_, rfl⟩ hn⟩
    rwa [String.toList_ofList]

end Strictness

theorem Only.part {members : List (List Glyph × Json)} {value : Json} (h : Only members name value) :
    Part value (object members) := by
  obtain ⟨before, key, after, rfl, -, -⟩ := h
  exact .member (List.mem_append_right before List.mem_cons_self)

theorem part_of_fields? {names : List String} {values : List Json} (h : j.fields? names = some values) :
    ∀ value ∈ values, Part value j := by
  cases j with
  | array items =>
    rw [fields?] at h
    split at h
    · cases h
      exact fun value hv => .item hv
    · cases h
  | object members =>
    obtain ⟨named, hn, hvalues⟩ := Option.bind_eq_some_iff.mp h
    clear h
    rw [mapM_eq_some_iff] at hvalues
    induction hvalues with
    | nil => simp
    | cons hvalue _ ih =>
      exact List.forall_mem_cons.mpr ⟨((only?_eq_some_iff hn).mp hvalue).part, ih⟩
  | _ => cases h

theorem forall_exists_iff_forall₂ {α β : Type} {R S : α → β → Prop} {as : List α} :
    (∀ a ∈ as, ∃ b, R a b ∧ S a b) ↔ ∃ bs, List.Forall₂ R as bs ∧ List.Forall₂ S as bs := by
  induction as with
  | nil => simp
  | cons a as ih =>
    rw [List.forall_mem_cons, ih]
    constructor
    · rintro ⟨⟨b, hR, hS⟩, bs, hRs, hSs⟩
      exact ⟨b :: bs, .cons hR hRs, .cons hS hSs⟩
    · rintro ⟨_, hRs, hSs⟩
      obtain ⟨b, bs, hR, hRtail, rfl⟩ := List.forall₂_cons_left_iff.mp hRs
      obtain ⟨hS, hStail⟩ := List.forall₂_cons.mp hSs
      exact ⟨⟨b, hR, hS⟩, bs, hRtail, hStail⟩

theorem record_iff {fields : List (String × (Json → Prop))} (hs : j.Strict) :
    Record fields j ↔ ∃ values, j.fields? (fields.map Prod.fst) = some values ∧
      List.Forall₂ (fun field value => field.2 value) fields values := by
  cases j with
  | array items =>
    rw [fields?, List.length_map]
    constructor
    · intro h
      cases h with
      | array h => exact ⟨items, if_pos h.length_eq.symm, h⟩
    · rintro ⟨values, hif, hvalues⟩
      split at hif
      · cases hif
        exact .array hvalues
      · cases hif
  | object members =>
    obtain ⟨named, hn⟩ := hs.exists_named
    have hfields : (object members).fields? (fields.map Prod.fst) =
        (fields.map Prod.fst).mapM (only? named) := by
      rw [fields?, hn]
      rfl
    simp only [hfields, mapM_eq_some_iff, List.forall₂_map_left_iff, only?_eq_some_iff hn,
      ← forall_exists_iff_forall₂]
    constructor
    · intro h
      cases h with
      | object h => exact h
    · exact .object
  | _ =>
    constructor
    · intro h
      cases h
    · rintro ⟨values, h, -⟩
      cases h

theorem record_one_iff (hs : j.Strict) {P : Json → Prop} :
    Record [(name, P)] j ↔ ∃ value, j.fields? [name] = some [value] ∧ P value := by
  rw [record_iff hs]
  constructor
  · rintro ⟨values, hfields, hvalues⟩
    obtain ⟨value, _, hP, htail, rfl⟩ := List.forall₂_cons_left_iff.mp hvalues
    obtain rfl := List.forall₂_nil_left_iff.mp htail
    exact ⟨value, hfields, hP⟩
  · rintro ⟨value, hfields, hP⟩
    exact ⟨[value], hfields, .cons hP .nil⟩

theorem record_two_iff (hs : j.Strict) {name' : String} {P Q : Json → Prop} :
    Record [(name, P), (name', Q)] j ↔
      ∃ value value', j.fields? [name, name'] = some [value, value'] ∧ P value ∧ Q value' := by
  rw [record_iff hs]
  constructor
  · rintro ⟨values, hfields, hvalues⟩
    obtain ⟨value, _, hP, htail, rfl⟩ := List.forall₂_cons_left_iff.mp hvalues
    obtain ⟨value', _, hQ, hnil, rfl⟩ := List.forall₂_cons_left_iff.mp htail
    obtain rfl := List.forall₂_nil_left_iff.mp hnil
    exact ⟨value, value', hfields, hP, hQ⟩
  · rintro ⟨value, value', hfields, hP, hQ⟩
    exact ⟨[value, value'], hfields, .cons hP (.cons hQ .nil)⟩

end StackMachine.Json
