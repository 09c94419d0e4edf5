import Mathlib.Data.List.Chain
import Mathlib.Data.List.TakeWhile
import StackMachine.Wire.Basic

namespace StackMachine

namespace Json

namespace Numeral

def Stops (rest : List Char) : Prop :=
  ∀ c ∈ rest.head?, c.isDigit = false ∧ c ≠ '.' ∧ c ≠ 'e' ∧ c ≠ 'E'

variable {cs ds r rest : List Char}

theorem digits?_eq_some_iff : digits? cs = some (ds, r) ↔
    cs = ds ++ r ∧ ds ≠ [] ∧ (∀ c ∈ ds, c.isDigit) ∧ ∀ c ∈ r.head?, c.isDigit = false := by
  constructor
  · intro h
    obtain ⟨hcs, hne⟩ := append_of_digits? h
    unfold digits? at h
    split at h
    · cases h
    · cases h
      refine ⟨hcs, hne, fun c hc => List.mem_takeWhile_imp hc, ?_⟩
      intro c hc
      have hnot := List.head?_dropWhile_not Char.isDigit cs
      rw [Option.mem_def.mp hc] at hnot
      simpa using hnot
  · rintro ⟨rfl, hne, hds, hr⟩
    have hrest : r.takeWhile Char.isDigit = [] ∧ r.dropWhile Char.isDigit = r := by
      cases r with
      | nil => exact ⟨rfl, rfl⟩
      | cons c r => simp [hr c rfl]
    rw [digits?, List.takeWhile_append_of_pos hds, List.dropWhile_append_of_pos hds, hrest.1,
      hrest.2, List.append_nil, if_neg hne]

theorem digits?_append (hr : Stops rest) (h : digits? cs = some (ds, r)) :
    digits? (cs ++ rest) = some (ds, r ++ rest) := by
  obtain ⟨rfl, hne, hds, hend⟩ := digits?_eq_some_iff.mp h
  apply digits?_eq_some_iff.mpr
  refine ⟨List.append_assoc _ _ _, hne, hds, ?_⟩
  intro c hc
  cases r with
  | nil => exact (hr c hc).1
  | cons d r => exact hend c hc

theorem whole?_append (hr : Stops rest) (h : whole? cs = some (ds, r)) :
    whole? (cs ++ rest) = some (ds, r ++ rest) := by
  unfold whole? at h
  split at h
  · cases h
    rfl
  · rename_i hzero
    have hne : cs ≠ [] := by
      rintro rfl
      cases h
    obtain ⟨c, cs, rfl⟩ := List.exists_cons_of_ne_nil hne
    rw [List.cons_append, whole?]
    · exact digits?_append hr h
    · intro tail htail
      obtain ⟨rfl, -⟩ := List.cons.inj htail
      exact hzero cs rfl

theorem fraction?_append (hr : Stops rest) (h : fraction? cs = some (ds, r)) :
    fraction? (cs ++ rest) = some (ds, r ++ rest) := by
  unfold fraction? at h
  split at h
  · obtain ⟨⟨ds', r'⟩, hd, he⟩ := Option.map_eq_some_iff.mp h
    cases he
    simp [fraction?, digits?_append hr hd]
  · rename_i hpoint
    cases h
    rw [fraction?]
    intro tail htail
    cases cs with
    | nil => exact (hr '.' (by rw [List.nil_append] at htail; simp [htail])).2.1 rfl
    | cons c cs =>
      obtain ⟨rfl, -⟩ := List.cons.inj htail
      exact hpoint cs rfl

theorem exponent?_of_ne {c : Char} (he : c ≠ 'e') (hE : c ≠ 'E') (cs : List Char) :
    exponent? (c :: cs) = some ([], c :: cs) := by
  cases cs <;> simp [exponent?, he, hE]

theorem exponent?_of_stops (hr : Stops rest) : exponent? rest = some ([], rest) := by
  cases rest with
  | nil => rfl
  | cons c rest => exact exponent?_of_ne (hr c rfl).2.2.1 (hr c rfl).2.2.2 rest

theorem exponent?_append (hr : Stops rest) (h : exponent? cs = some (ds, r)) :
    exponent? (cs ++ rest) = some (ds, r ++ rest) := by
  unfold exponent? at h
  split at h
  · rename_i e s cs
    rw [List.cons_append, List.cons_append, exponent?]
    split at h
    · rename_i he
      rw [if_pos he]
      split at h
      · rename_i hs
        obtain ⟨⟨ds', r'⟩, hd, heq⟩ := Option.map_eq_some_iff.mp h
        cases heq
        rw [if_pos hs, digits?_append hr hd]
        rfl
      · rename_i hs
        obtain ⟨⟨ds', r'⟩, hd, heq⟩ := Option.map_eq_some_iff.mp h
        cases heq
        rw [if_neg hs, ← List.cons_append, digits?_append hr hd]
        rfl
    · rename_i he
      cases h
      rw [if_neg he]
      rfl
  · split at h
    · cases h
    · rename_i e he
      cases h
      obtain ⟨he, hE⟩ := not_or.mp he
      exact exponent?_of_ne he hE rest
  · cases h
    exact exponent?_of_stops hr

theorem sign_append (hne : cs ≠ []) (rest : List Char) :
    sign (cs ++ rest) = ((sign cs).1, (sign cs).2 ++ rest) := by
  obtain ⟨c, cs, rfl⟩ := List.exists_cons_of_ne_nil hne
  by_cases hc : c = '-'
  · subst hc
    rfl
  · simp [sign, hc]

theorem read?_append (hr : Stops rest) (h : read? cs = some (ds, r)) :
    read? (cs ++ rest) = some (ds, r ++ rest) := by
  have hne : cs ≠ [] := by
    rintro rfl
    cases h
  simp only [read?, Option.bind_eq_bind, Option.bind_eq_some_iff] at h
  obtain ⟨⟨w, cs₁⟩, hw, ⟨f, cs₂⟩, hf, ⟨e, cs₃⟩, he, h⟩ := h
  cases h
  simp only [read?, sign_append hne, whole?_append hr hw, fraction?_append hr hf,
    exponent?_append hr he, Option.bind_eq_bind, Option.bind_some]
  rfl

theorem head_of_whole? (h : whole? cs = some (ds, r)) : ∃ c ∈ cs.head?, c.isDigit := by
  unfold whole? at h
  split at h
  · exact ⟨'0', rfl, rfl⟩
  · obtain ⟨rfl, hne, hds, -⟩ := digits?_eq_some_iff.mp h
    obtain ⟨c, ds, rfl⟩ := List.exists_cons_of_ne_nil hne
    exact ⟨c, rfl, hds c (by simp)⟩

theorem head_of_read? (h : read? cs = some (ds, r)) : ∃ c ∈ cs.head?, c = '-' ∨ c.isDigit := by
  simp only [read?, Option.bind_eq_bind, Option.bind_eq_some_iff] at h
  obtain ⟨⟨w, cs₁⟩, hw, -⟩ := h
  unfold sign at hw
  split at hw
  · exact ⟨'-', rfl, .inl rfl⟩
  · obtain ⟨c, hc, hdigit⟩ := head_of_whole? hw
    exact ⟨c, hc, .inr hdigit⟩

end Numeral

namespace Token

def Valid : Token → Prop
  | number numeral => Numeral.read? numeral = some (numeral, [])
  | string glyphs => ∀ g ∈ glyphs, g.valid
  | _ => True

variable {t : Token} {rest : List Char}

theorem valid_ofString (text : String) : (string (Glyph.ofString text)).Valid := by
  intro g hg
  obtain ⟨c, -, rfl⟩ := List.mem_map.mp hg
  exact Glyph.valid_ofChar c

theorem next?_of_numeral {c : Char} (hc : c = '-' ∨ c.isDigit) (cs : List Char) :
    next? (c :: cs) = (Numeral.read? (c :: cs)).map (fun (ds, r) => (number ds, r)) := by
  rw [next?]
  all_goals
    intro tail htail
    cases htail
    simp at hc

theorem next?_spell (ht : t.Valid) (hr : ∀ numeral, t = number numeral → Numeral.Stops rest) :
    next? (t.spell ++ rest) = some (t, rest) := by
  cases t with
  | number numeral =>
    obtain ⟨c, hc, hhead⟩ := Numeral.head_of_read? ht
    have hread := Numeral.read?_append (hr numeral rfl) ht
    obtain ⟨cs, rfl⟩ := List.head?_eq_some_iff.mp hc
    rw [spell, List.cons_append, next?_of_numeral hhead, ← List.cons_append, hread]
    rfl
  | string glyphs => simp [spell, next?, Glyph.read?_flatMap_spell _ _ ht]
  | bool b => cases b <;> simp [spell, next?]
  | _ => simp [spell, next?]

theorem exists_cons_of_valid (ht : t.Valid) : ∃ c cs, t.spell = c :: cs ∧ isBlank c = false := by
  cases t with
  | number numeral =>
    obtain ⟨c, hc, hhead⟩ := Numeral.head_of_read? ht
    obtain ⟨cs, rfl⟩ := List.head?_eq_some_iff.mp hc
    refine ⟨c, cs, rfl, ?_⟩
    rcases hhead with rfl | hdigit
    · rfl
    · have hne (d : Char) (hd : d.isDigit = false) : c ≠ d := by
        rintro rfl
        rw [hd] at hdigit
        cases hdigit
      simp [isBlank, hne ' ' rfl, hne '\t' rfl, hne '\n' rfl, hne '\r' rfl]
  | bool b => cases b <;> exact ⟨_, _, rfl, rfl⟩
  | _ => exact ⟨_, _, rfl, rfl⟩

theorem scan?_spell (ht : t.Valid) (hr : ∀ numeral, t = number numeral → Numeral.Stops rest) :
    scan? (t.spell ++ rest) = (scan? rest).map (t :: ·) := by
  have hnext := next?_spell ht hr
  obtain ⟨c, cs, hspell, hc⟩ := exists_cons_of_valid ht
  rw [hspell, List.cons_append] at hnext ⊢
  rw [scan?, hc, if_neg Bool.false_ne_true]
  split
  · rename_i hnone
    rw [hnext] at hnone
    cases hnone
  · rename_i u tail hsome
    rw [hnext] at hsome
    cases hsome
    rfl

inductive Spaced : List Token → List Char → Prop
  | nil {b : List Char} (hb : b.all isBlank) : Spaced [] b
  | cons {b cs : List Char} {t : Token} {ts : List Token} (hb : b.all isBlank) (h : Spaced ts cs) :
      Spaced (t :: ts) (b ++ (t.spell ++ cs))

def Apart : Token → Token → Prop
  | number _, closeBrace | number _, closeBracket | number _, comma => True
  | number _, _ => False
  | _, _ => True

variable {blanks cs : List Char} {ts : List Token}

theorem scan?_blanks (hb : blanks.all isBlank) (cs : List Char) : scan? (blanks ++ cs) = scan? cs := by
  induction blanks with
  | nil => rfl
  | cons c blanks ih =>
    obtain ⟨hc, hb⟩ := Bool.and_eq_true_iff.mp hb
    rw [List.cons_append, scan?, if_pos hc, ih hb]

theorem stops_of_isBlank {c : Char} (hc : isBlank c) (cs : List Char) : Numeral.Stops (c :: cs) := by
  intro d hd
  obtain rfl := Option.some.inj hd
  simp only [isBlank, Bool.or_eq_true, decide_eq_true_eq] at hc
  rcases hc with ((rfl | rfl) | rfl) | rfl <;> decide

theorem stops_of_apart {numeral : List Char} (ht : Apart (number numeral) t) (cs : List Char) :
    Numeral.Stops (t.spell ++ cs) := by
  cases t with
  | closeBrace | closeBracket | comma => simp [spell, Numeral.Stops]
  | _ => exact ht.elim

theorem Spaced.stops {numeral : List Char} (h : Spaced ts cs)
    (hc : (number numeral :: ts).IsChain Apart) : Numeral.Stops cs := by
  cases h with
  | nil hb =>
    cases cs with
    | nil => simp [Numeral.Stops]
    | cons c cs => exact stops_of_isBlank (Bool.and_eq_true_iff.mp hb).1 cs
  | @cons blanks cs t ts hb h =>
    cases blanks with
    | nil => exact stops_of_apart (List.isChain_cons_cons.mp hc).1 cs
    | cons c blanks => exact stops_of_isBlank (Bool.and_eq_true_iff.mp hb).1 _

theorem Spaced.scan? (h : Spaced ts cs) (hv : ∀ t ∈ ts, t.Valid) (hc : ts.IsChain Apart) :
    Token.scan? cs = some ts := by
  induction h with
  | nil hb =>
    have hscan := scan?_blanks hb []
    rwa [List.append_nil, Token.scan?] at hscan
  | @cons blanks cs t ts hb h ih =>
    obtain ⟨ht, hts⟩ := List.forall_mem_cons.mp hv
    have hscan : Token.scan? (t.spell ++ cs) = (Token.scan? cs).map (t :: ·) := by
      apply scan?_spell ht
      rintro numeral rfl
      exact h.stops hc
    rw [scan?_blanks hb, hscan, ih hts hc.tail, Option.map_some]

theorem spaced_spellings (ts : List Token) : Spaced ts (ts.flatMap spell) := by
  induction ts with
  | nil => exact .nil rfl
  | cons t ts ih => exact .cons (b := []) rfl ih

end Token

open Token

def Valid (j : Json) : Prop :=
  ∀ t ∈ j.toTokens, t.Valid

theorem apart_itemTokens (t : Token) (items : List Json) :
    ∀ u ∈ (itemTokens items).head?, Apart t u := by
  cases items <;> cases t <;> simp [itemTokens, Apart]

theorem apart_memberTokens (t : Token) (members : List (List Glyph × Json)) :
    ∀ u ∈ (memberTokens members).head?, Apart t u := by
  cases members <;> cases t <;> simp [memberTokens, Apart]

mutual

theorem isChain_toTokens (j : Json) : j.toTokens.IsChain Apart := by
  match j with
  | null | bool _ | number _ | string _ => exact .singleton _
  | array [] | object [] => simp [toTokens, Apart]
  | array (item :: items) =>
    simp only [toTokens, List.cons_append, List.isChain_cons, List.isChain_append]
    exact ⟨fun _ _ => trivial, isChain_toTokens item, isChain_itemTokens items,
      fun t _ => apart_itemTokens t items⟩
  | object ((key, value) :: members) =>
    simp only [toTokens, List.cons_append, List.isChain_cons, List.isChain_append]
    exact ⟨fun _ _ => trivial, fun _ _ => trivial, fun _ _ => trivial, isChain_toTokens value,
      isChain_memberTokens members, fun t _ => apart_memberTokens t members⟩

theorem isChain_itemTokens (items : List Json) : (itemTokens items).IsChain Apart := by
  match items with
  | [] => exact .singleton _
  | item :: items =>
    simp only [itemTokens, List.cons_append, List.isChain_cons, List.isChain_append]
    exact ⟨fun _ _ => trivial, isChain_toTokens item, isChain_itemTokens items,
      fun t _ => apart_itemTokens t items⟩

theorem isChain_memberTokens (members : List (List Glyph × Json)) :
    (memberTokens members).IsChain Apart := by
  match members with
  | [] => exact .singleton _
  | (key, value) :: members =>
    simp only [memberTokens, List.cons_append, List.isChain_cons, List.isChain_append]
    exact ⟨fun _ _ => trivial, fun _ _ => trivial, fun _ _ => trivial, isChain_toTokens value,
      isChain_memberTokens members, fun t _ => apart_memberTokens t members⟩

end

theorem scan?_render {j : Json} (h : j.Valid) : scan? j.render = some j.toTokens :=
  (spaced_spellings j.toTokens).scan? h j.isChain_toTokens

theorem parse?_render {j : Json} (h : j.Valid) : parse? j.render = some j := by
  rw [parse?, scan?_render h, Option.bind_some]
  exact ofTokens?_eq_some_iff.mpr rfl

theorem valid_ofString (text : String) : (ofString text).Valid := by
  simp only [Valid, ofString, toTokens, List.forall_mem_singleton]
  exact Token.valid_ofString text

theorem string?_ofString (text : String) : (ofString text).string? = some text :=
  Glyph.string?_ofString text

theorem valid_itemTokens {items : List Json} (h : ∀ item ∈ items, item.Valid) :
    ∀ t ∈ itemTokens items, t.Valid := by
  induction items with
  | nil => simp [itemTokens, Token.Valid]
  | cons item items ih =>
    obtain ⟨hitem, hitems⟩ := List.forall_mem_cons.mp h
    simp only [itemTokens, List.forall_mem_append, List.forall_mem_cons]
    exact ⟨⟨trivial, hitem⟩, ih hitems⟩

theorem valid_array {items : List Json} (h : ∀ item ∈ items, item.Valid) :
    (array items).Valid := by
  cases items with
  | nil => simp [Valid, toTokens, Token.Valid]
  | cons item items =>
    obtain ⟨hitem, hitems⟩ := List.forall_mem_cons.mp h
    simp only [Valid, toTokens, List.forall_mem_append, List.forall_mem_cons]
    exact ⟨⟨trivial, hitem⟩, valid_itemTokens hitems⟩

theorem valid_memberTokens {fields : List (String × Json)} (h : ∀ f ∈ fields, f.2.Valid) :
    ∀ t ∈ memberTokens (fields.map (fun (name, value) => (Glyph.ofString name, value))), t.Valid := by
  induction fields with
  | nil => simp [memberTokens, Token.Valid]
  | cons f fields ih =>
    obtain ⟨hf, hfields⟩ := List.forall_mem_cons.mp h
    simp only [List.map_cons, memberTokens, List.forall_mem_append, List.forall_mem_cons]
    exact ⟨⟨trivial, Token.valid_ofString f.1, trivial, hf⟩, ih hfields⟩

theorem valid_record {fields : List (String × Json)} (h : ∀ f ∈ fields, f.2.Valid) :
    (record fields).Valid := by
  cases fields with
  | nil => simp [record, Valid, toTokens, Token.Valid]
  | cons f fields =>
    obtain ⟨hf, hfields⟩ := List.forall_mem_cons.mp h
    simp only [Valid, record, List.map_cons, toTokens, List.forall_mem_append, List.forall_mem_cons]
    exact ⟨⟨trivial, Token.valid_ofString f.1, trivial, hf⟩, valid_memberTokens hfields⟩

theorem valid_tagged (name : String) {payload : Json} (h : payload.Valid) :
    (tagged name payload).Valid :=
  @valid_record [(name, payload)] (List.forall_mem_singleton.mpr h)

theorem mapM_map_eq_some {α β γ : Type} {f : β → Option γ} {p : α → β} {q : α → γ} {l : List α}
    (h : ∀ a ∈ l, f (p a) = some (q a)) : (l.map p).mapM f = some (l.map q) := by
  induction l with
  | nil => rfl
  | cons a l ih =>
    obtain ⟨ha, hl⟩ := List.forall_mem_cons.mp h
    rw [List.map_cons, List.mapM_cons, ha, ih hl]
    rfl

theorem only?_of_mem {fields : List (String × Json)} (hn : (fields.map Prod.fst).Nodup)
    {f : String × Json} (hf : f ∈ fields) : only? fields f.1 = some f.2 := by
  have hfilter : fields.filter (fun m => m.1 == f.1) = [f] := by
    induction fields with
    | nil => cases hf
    | cons g fields ih =>
      obtain ⟨hg, hn⟩ := List.nodup_cons.mp hn
      rcases List.mem_cons.mp hf with rfl | hf
      · have hrest : fields.filter (fun m => m.1 == f.1) = [] := by
          apply List.filter_eq_nil_iff.mpr
          intro m hm heq
          exact hg (List.mem_map.mpr ⟨m, hm, eq_of_beq heq⟩)
        rw [List.filter_cons, if_pos (beq_self_eq_true _), hrest]
      · have hne : ¬ (g.1 == f.1) = true := by
          intro heq
          exact hg (List.mem_map.mpr ⟨f, hf, (eq_of_beq heq).symm⟩)
        rw [List.filter_cons, if_neg hne, ih hn hf]
  rw [only?, hfilter]

theorem fields?_record {fields : List (String × Json)} (hn : (fields.map Prod.fst).Nodup) :
    (record fields).fields? (fields.map Prod.fst) = some (fields.map Prod.snd) := by
  have hnamed : named? (fields.map (fun (name, value) => (Glyph.ofString name, value))) =
      some (fields.map id) := by
    apply mapM_map_eq_some
    intro f _
    simp [Glyph.string?_ofString]
  rw [record, fields?, hnamed, List.map_id]
  exact mapM_map_eq_some (fun f hf => only?_of_mem hn hf)

end Json

theorem Wire.decode?_encode {α : Type} [Wire α] {a : α} (h : (toJson a).Valid) :
    (decode? (encode a) : Option α) = ofJson? (toJson a) := by
  rw [decode?, encode, String.toList_ofList, Json.parse?_render h, Option.bind_some]

end StackMachine
