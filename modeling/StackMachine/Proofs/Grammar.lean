import StackMachine.Proofs.Literal

/-!
Strict JSON texts. A value is written as its tokens, with blanks around them, where numerals keep to
their grammar and the literals of strings stand for characters. Reading accepts exactly such texts,
as long as surrogates come in pairs.
-/

namespace StackMachine.Json

namespace Token

def Strict : Token → Prop
  | number numeral => Numeral.Strict numeral
  | string glyphs => (∀ g ∈ glyphs, g.valid) ∧ ∃ cs, Glyph.Denotes glyphs cs
  | _ => True

variable {t : Token} {ts : List Token} {cs rest : List Char}

theorem Strict.valid (h : t.Strict) : t.Valid := by
  cases t with
  | number numeral => exact Numeral.Strict.read h
  | string glyphs => exact h.1
  | _ => trivial

theorem valid_of_read? {gs : List Glyph} (h : Glyph.read? cs = some (gs, rest)) :
    ∀ g ∈ gs, g.valid := by
  fun_induction Glyph.read? cs generalizing gs rest with
  | case1 => cases h
  | case2 =>
    cases h
    simp
  | case3 a b c d tail hv ih =>
    obtain ⟨⟨gs', r⟩, hr, he⟩ := Option.map_eq_some_iff.mp h
    cases he
    exact List.forall_mem_cons.mpr ⟨hv, ih hr⟩
  | case4 => cases h
  | case5 letter tail hu hv ih =>
    obtain ⟨⟨gs', r⟩, hr, he⟩ := Option.map_eq_some_iff.mp h
    cases he
    exact List.forall_mem_cons.mpr ⟨hv, ih hr⟩
  | case6 => cases h
  | case7 c tail hq hu hl hv ih =>
    obtain ⟨⟨gs', r⟩, hr, he⟩ := Option.map_eq_some_iff.mp h
    cases he
    exact List.forall_mem_cons.mpr ⟨hv, ih hr⟩
  | case8 => cases h

theorem valid_of_next? (h : next? cs = some (t, rest)) : t.Valid := by
  unfold next? at h
  split at h
  all_goals try (cases h; trivial)
  · obtain ⟨⟨gs, r⟩, hr, he⟩ := Option.map_eq_some_iff.mp h
    cases he
    exact valid_of_read? hr
  · obtain ⟨⟨ds, r⟩, hr, he⟩ := Option.map_eq_some_iff.mp h
    cases he
    exact (Numeral.strict_of_read? hr).read

theorem Spaced.blank {c : Char} (hc : isBlank c) (h : Spaced ts cs) : Spaced ts (c :: cs) := by
  cases h with
  | nil hb => exact .nil (Bool.and_eq_true_iff.mpr ⟨hc, hb⟩)
  | @cons blanks cs t ts hb h =>
    exact .cons (b := c :: blanks) (Bool.and_eq_true_iff.mpr ⟨hc, hb⟩) h

theorem spaced_of_scan? (h : scan? cs = some ts) : Spaced ts cs ∧ ∀ t ∈ ts, t.Valid := by
  fun_induction scan? cs generalizing ts with
  | case1 =>
    cases h
    exact ⟨.nil rfl, by simp⟩
  | case2 c cs hc ih =>
    obtain ⟨hspaced, hvalid⟩ := ih h
    exact ⟨hspaced.blank hc, hvalid⟩
  | case3 => cases h
  | case4 c cs hc t rest hnext _ ih =>
    obtain ⟨us, hus, rfl⟩ := Option.map_eq_some_iff.mp h
    obtain ⟨hspaced, hvalid⟩ := ih hus
    refine ⟨?_, List.forall_mem_cons.mpr ⟨valid_of_next? hnext, hvalid⟩⟩
    rw [(append_of_next? hnext).1]
    exact .cons (b := []) rfl hspaced

theorem ne_backslash_of_strict {numeral : List Char} (h : Numeral.Strict numeral) :
    ∀ c ∈ numeral, c ≠ '\\' := by
  have hdigits {ds : List Char} (hds : ∀ d ∈ ds, d.isDigit) : ∀ c ∈ ds, c ≠ '\\' := by
    rintro c hc rfl
    cases hds _ hc
  obtain ⟨hs, hw, hf, he⟩ := h
  simp only [List.forall_mem_append]
  refine ⟨⟨⟨?_, ?_⟩, ?_⟩, ?_⟩
  · rcases hs with rfl | rfl <;> simp
  · cases hw with
    | zero => simp
    | digits _ h => exact hdigits h
  · cases hf with
    | none => simp
    | digits _ h => exact List.forall_mem_cons.mpr ⟨by decide, hdigits h⟩
  · cases he with
    | none => simp
    | digits he hs _ h =>
      refine List.forall_mem_cons.mpr ⟨?_, List.forall_mem_append.mpr ⟨?_, hdigits h⟩⟩
      · rcases he with rfl | rfl <;> decide
      · rcases hs with rfl | rfl | rfl <;> simp

theorem strict_of_surrogatesPaired (ht : t.Valid)
    (h : Glyph.surrogatesPaired false (t.spell ++ cs)) :
    t.Strict ∧ Glyph.surrogatesPaired false cs := by
  cases t with
  | number numeral =>
    have hstrict := Numeral.strict_of_read? ht
    rw [spell, Glyph.surrogatesPaired_append (ne_backslash_of_strict hstrict)] at h
    exact ⟨hstrict, h⟩
  | string gs =>
    simp only [spell, List.cons_append, List.append_assoc, List.nil_append] at h
    rw [Glyph.surrogatesPaired_cons (by decide), Bool.not_false, Bool.true_and,
      Glyph.surrogatesPaired_literal ht, Bool.and_eq_true, Option.isSome_iff_exists] at h
    obtain ⟨⟨chars, hchars⟩, hrest⟩ := h
    exact ⟨⟨ht, chars, Glyph.denotes_of_chars? hchars⟩, hrest⟩
  | bool b =>
    cases b
    all_goals
      rw [Glyph.surrogatesPaired_append (by simp [spell])] at h
      exact ⟨trivial, h⟩
  | _ =>
    rw [Glyph.surrogatesPaired_append (by simp [spell])] at h
    exact ⟨trivial, h⟩

theorem Spaced.strict (h : Spaced ts cs) (hv : ∀ t ∈ ts, t.Valid)
    (hp : Glyph.surrogatesPaired false cs) : ∀ t ∈ ts, t.Strict := by
  induction h with
  | nil => simp
  | @cons b cs t ts hb h ih =>
    obtain ⟨ht, hts⟩ := List.forall_mem_cons.mp hv
    have hblank : ∀ c ∈ b, c ≠ '\\' := by
      rintro c hc rfl
      cases List.all_eq_true.mp hb _ hc
    rw [Glyph.surrogatesPaired_append hblank] at hp
    obtain ⟨hstrict, hrest⟩ := strict_of_surrogatesPaired ht hp
    exact List.forall_mem_cons.mpr ⟨hstrict, ih hts hrest⟩

end Token

def Strict (j : Json) : Prop :=
  ∀ t ∈ j.toTokens, t.Strict

/-- The text is a single strict JSON value, namely `j`, with nothing but blanks around it. -/
def Written (j : Json) (text : List Char) : Prop :=
  j.Strict ∧ Token.Spaced j.toTokens text

variable {j : Json} {text : List Char}

theorem Written.parse? (h : j.Written text) : parse? text = some j := by
  obtain ⟨hstrict, hspaced⟩ := h
  have hscan := hspaced.scan? (fun t ht => (hstrict t ht).valid) j.isChain_toTokens
  rw [Json.parse?, hscan, Option.bind_some]
  exact ofTokens?_eq_some_iff.mpr rfl

theorem written_of_parse? (h : parse? text = some j) (hp : Glyph.surrogatesPaired false text) :
    j.Written text := by
  obtain ⟨ts, hscan, hj⟩ := Option.bind_eq_some_iff.mp h
  obtain rfl := ofTokens?_eq_some_iff.mp hj
  obtain ⟨hspaced, hvalid⟩ := Token.spaced_of_scan? hscan
  exact ⟨hspaced.strict hvalid hp, hspaced⟩

mutual

def nesting : Json → Nat
  | array items => itemsNesting items + 1
  | object members => membersNesting members + 1
  | _ => 0

def itemsNesting : List Json → Nat
  | [] => 0
  | item :: items => max (nesting item) (itemsNesting items)

def membersNesting : List (List Glyph × Json) → Nat
  | [] => 0
  | (_, value) :: members => max (nesting value) (membersNesting members)

end

theorem nesting_le_itemsNesting {items : List Json} (h : j ∈ items) : j.nesting ≤ itemsNesting items := by
  induction items with
  | nil => cases h
  | cons item items ih =>
    rw [itemsNesting]
    rcases List.mem_cons.mp h with rfl | h
    · exact Nat.le_max_left _ _
    · exact Nat.le_trans (ih h) (Nat.le_max_right _ _)

theorem nesting_le_membersNesting {members : List (List Glyph × Json)} {key : List Glyph}
    (h : (key, j) ∈ members) : j.nesting ≤ membersNesting members := by
  induction members with
  | nil => cases h
  | cons member members ih =>
    obtain ⟨key', value⟩ := member
    rw [membersNesting]
    rcases List.mem_cons.mp h with heq | h
    · cases heq
      exact Nat.le_max_left _ _
    · exact Nat.le_trans (ih h) (Nat.le_max_right _ _)

end StackMachine.Json
