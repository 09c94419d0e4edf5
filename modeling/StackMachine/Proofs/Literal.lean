import StackMachine.Proofs.Rendering

namespace StackMachine.Json

namespace Numeral

inductive Whole : List Char → Prop
  | zero : Whole ['0']
  | digits {c : Char} {ds : List Char} (hc : c ≠ '0') (h : ∀ d ∈ c :: ds, d.isDigit) : Whole (c :: ds)

inductive Fraction : List Char → Prop
  | none : Fraction []
  | digits {ds : List Char} (hne : ds ≠ []) (h : ∀ d ∈ ds, d.isDigit) : Fraction ('.' :: ds)

inductive Exponent : List Char → Prop
  | none : Exponent []
  | digits {e : Char} {s ds : List Char} (he : e = 'e' ∨ e = 'E')
      (hs : s = [] ∨ s = ['+'] ∨ s = ['-']) (hne : ds ≠ []) (h : ∀ d ∈ ds, d.isDigit) :
      Exponent (e :: (s ++ ds))

inductive Strict : List Char → Prop
  | parts {s w f e : List Char} (hs : s = [] ∨ s = ['-']) (hw : Whole w) (hf : Fraction f)
      (he : Exponent e) : Strict (s ++ w ++ f ++ e)

variable {cs ds r rest : List Char}

theorem whole_of_whole? (h : whole? cs = some (ds, r)) : Whole ds := by
  unfold whole? at h
  split at h
  · cases h
    exact .zero
  · rename_i hzero
    obtain ⟨rfl, hne, hds, -⟩ := digits?_eq_some_iff.mp h
    obtain ⟨c, ds, rfl⟩ := List.exists_cons_of_ne_nil hne
    apply Whole.digits _ hds
    rintro rfl
    exact hzero _ rfl

theorem fraction_of_fraction? (h : fraction? cs = some (ds, r)) : Fraction ds := by
  unfold fraction? at h
  split at h
  · obtain ⟨⟨ds', r'⟩, hd, he⟩ := Option.map_eq_some_iff.mp h
    cases he
    obtain ⟨-, hne, hds, -⟩ := digits?_eq_some_iff.mp hd
    exact .digits hne hds
  · cases h
    exact .none

theorem exponent_of_exponent? (h : exponent? cs = some (ds, r)) : Exponent ds := by
  unfold exponent? at h
  split at h
  · rename_i e s cs
    split at h
    · rename_i he
      split at h
      · rename_i hs
        obtain ⟨⟨ds', r'⟩, hd, heq⟩ := Option.map_eq_some_iff.mp h
        cases heq
        obtain ⟨-, hne, hds, -⟩ := digits?_eq_some_iff.mp hd
        refine Exponent.digits (s := [s]) he (.inr ?_) hne hds
        rcases hs with rfl | rfl <;> simp
      · obtain ⟨⟨ds', r'⟩, hd, heq⟩ := Option.map_eq_some_iff.mp h
        cases heq
        obtain ⟨-, hne, hds, -⟩ := digits?_eq_some_iff.mp hd
        exact .digits (s := []) he (.inl rfl) hne hds
    · cases h
      exact .none
  · split at h <;> cases h
    exact .none
  · cases h
    exact .none

theorem strict_of_read? (h : read? cs = some (ds, r)) : Strict ds := by
  simp only [read?, Option.bind_eq_bind, Option.bind_eq_some_iff] at h
  obtain ⟨⟨w, cs₁⟩, hw, ⟨f, cs₂⟩, hf, ⟨e, cs₃⟩, he, h⟩ := h
  cases h
  have hs : (sign cs).1 = [] ∨ (sign cs).1 = ['-'] := by
    unfold sign
    split
    · exact .inr rfl
    · exact .inl rfl
  exact .parts hs (whole_of_whole? hw) (fraction_of_fraction? hf) (exponent_of_exponent? he)

theorem Exponent.head (h : Exponent cs) : ∀ c ∈ cs.head?, c.isDigit = false ∧ c ≠ '.' := by
  cases h with
  | none => simp
  | digits he =>
    intro c hc
    obtain rfl := Option.some.inj hc
    rcases he with rfl | rfl <;> decide

theorem Exponent.read (h : Exponent cs) : exponent? cs = some (cs, []) := by
  cases h with
  | none => rfl
  | @digits e s ds he hs hne hds =>
    have hdigits : digits? ds = some (ds, []) :=
      digits?_eq_some_iff.mpr ⟨(List.append_nil ds).symm, hne, hds, by simp⟩
    obtain ⟨d, ds, rfl⟩ := List.exists_cons_of_ne_nil hne
    rcases hs with rfl | rfl | rfl
    · have hd : ¬ (d = '+' ∨ d = '-') := by
        have hdigit := hds d (by simp)
        rintro (rfl | rfl) <;> cases hdigit
      rw [List.nil_append, exponent?, if_pos he, if_neg hd, hdigits]
      rfl
    · rw [List.singleton_append, exponent?, if_pos he, if_pos (.inl rfl), hdigits]
      rfl
    · rw [List.singleton_append, exponent?, if_pos he, if_pos (.inr rfl), hdigits]
      rfl

theorem Fraction.head (hf : Fraction cs) (he : Exponent rest) :
    ∀ c ∈ (cs ++ rest).head?, c.isDigit = false := by
  cases hf with
  | none => exact fun c hc => (he.head c hc).1
  | digits hne h =>
    intro c hc
    obtain rfl := Option.some.inj hc
    rfl

theorem Fraction.read (hf : Fraction cs) (he : Exponent rest) :
    fraction? (cs ++ rest) = some (cs, rest) := by
  cases hf with
  | none =>
    rw [List.nil_append, fraction?]
    rintro tail rfl
    exact (he.head '.' rfl).2 rfl
  | @digits ds hne hds =>
    have hdigits : digits? (ds ++ rest) = some (ds, rest) :=
      digits?_eq_some_iff.mpr ⟨rfl, hne, hds, fun c hc => (he.head c hc).1⟩
    rw [List.cons_append, fraction?, hdigits]
    rfl

theorem Whole.read (hw : Whole cs) (hr : ∀ c ∈ rest.head?, c.isDigit = false) :
    whole? (cs ++ rest) = some (cs, rest) := by
  cases hw with
  | zero => rfl
  | @digits c ds hc h =>
    rw [List.cons_append, whole?]
    · exact digits?_eq_some_iff.mpr ⟨rfl, List.cons_ne_nil _ _, h, hr⟩
    · intro tail htail
      exact hc (List.cons.inj htail).1

theorem Whole.sign (hw : Whole cs) (rest : List Char) : sign (cs ++ rest) = ([], cs ++ rest) := by
  rw [Numeral.sign]
  intro tail htail
  cases hw with
  | zero => cases htail
  | digits hc h =>
    obtain ⟨rfl, -⟩ := List.cons.inj htail
    have hdigit := h '-' (by simp)
    cases hdigit

theorem Strict.read (h : Strict cs) : read? cs = some (cs, []) := by
  obtain ⟨hs, hw, hf, he⟩ := h
  rename_i s w f e
  have hsign : sign (s ++ w ++ f ++ e) = (s, w ++ (f ++ e)) := by
    rcases hs with rfl | rfl
    · simpa using hw.sign (f ++ e)
    · simp [sign]
  simp only [read?, hsign, hw.read (hf.head he), hf.read he, he.read, Option.bind_eq_bind,
    Option.bind_some]
  rfl

theorem Whole.strict (h : Whole cs) : Strict cs := by
  have hstrict := Strict.parts (.inl rfl) h .none .none
  simpa using hstrict

theorem digitChar_of_isDigit {c : Char} (hc : c.isDigit) : Nat.digitChar (c.toNat - '0'.toNat) = c := by
  obtain ⟨hlow, hhigh⟩ := Char.isDigit_iff_toNat.mp hc
  change 48 ≤ c.toNat at hlow
  change c.toNat ≤ 57 at hhigh
  apply Char.toNat_inj.mp
  change (Nat.digitChar (c.toNat - 48)).toNat = c.toNat
  rw [Nat.toNat_digitChar_of_lt_ten (by omega)]
  omega

theorem digit_lt_of_isDigit {c : Char} (hc : c.isDigit) : c.toNat - '0'.toNat < 10 := by
  have hhigh : c.toNat ≤ 57 := (Char.isDigit_iff_toNat.mp hc).2
  change c.toNat - 48 < 10
  omega

theorem toDigits_concat {n : Nat} (hn : 0 < n) {c : Char} (hc : c.isDigit) :
    Nat.toDigits 10 (10 * n + (c.toNat - '0'.toNat)) = Nat.toDigits 10 n ++ [c] := by
  have hlt := digit_lt_of_isDigit hc
  rw [← Nat.toDigits_append_toDigits (by decide) hn hlt, Nat.toDigits_of_lt_base hlt,
    digitChar_of_isDigit hc]

theorem toDigits_ofDigitChars {n : Nat} (hn : 0 < n) (h : ∀ d ∈ ds, d.isDigit) :
    Nat.toDigits 10 (Nat.ofDigitChars 10 ds n) = Nat.toDigits 10 n ++ ds := by
  -- the number so far has to be positive, since zeros at the head of a numeral are lost
  induction ds generalizing n with
  | nil => simp
  | cons c ds ih =>
    obtain ⟨hc, hds⟩ := List.forall_mem_cons.mp h
    rw [Nat.ofDigitChars_cons, ih (by omega) hds, toDigits_concat hn hc, List.append_assoc,
      List.singleton_append]

theorem Whole.toDigits (h : Whole cs) : Nat.toDigits 10 (Nat.ofDigitChars 10 cs 0) = cs := by
  cases h with
  | zero => decide
  | @digits c ds hc h =>
    obtain ⟨hdigit, hds⟩ := List.forall_mem_cons.mp h
    have hpos : 0 < c.toNat - '0'.toNat := by
      have hlow : 48 ≤ c.toNat := (Char.isDigit_iff_toNat.mp hdigit).1
      have hne : c.toNat ≠ 48 := fun he => hc (Char.toNat_inj.mp he)
      change 0 < c.toNat - 48
      omega
    rw [Nat.ofDigitChars_cons, Nat.mul_zero, Nat.zero_add, toDigits_ofDigitChars hpos hds,
      Nat.toDigits_of_lt_base (digit_lt_of_isDigit hdigit), digitChar_of_isDigit hdigit, List.singleton_append]

theorem head_toDigits {n : Nat} (hn : 0 < n) : ∃ c ds, Nat.toDigits 10 n = c :: ds ∧ c ≠ '0' := by
  induction n using Nat.strongRecOn with
  | ind n ih =>
    by_cases hlt : n < 10
    · refine ⟨n.digitChar, [], Nat.toDigits_of_lt_base hlt, ?_⟩
      rw [Ne, Nat.digitChar_eq_zero]
      omega
    · obtain ⟨c, ds, hds, hc⟩ := ih (n / 10) (by omega) (by omega)
      have happend := @Nat.toDigits_append_toDigits 10 (n / 10) (n % 10) (by decide) (by omega) (by omega)
      rw [Nat.div_add_mod, hds] at happend
      exact ⟨c, _, happend.symm, hc⟩

theorem whole_toDigits (n : Nat) : Whole (Nat.toDigits 10 n) := by
  rcases Nat.eq_zero_or_pos n with rfl | hn
  · exact .zero
  · obtain ⟨c, ds, hds, hc⟩ := head_toDigits hn
    rw [hds]
    apply Whole.digits hc
    intro d hd
    exact Nat.isDigit_of_mem_toDigits (by decide) (by decide) (hds ▸ hd)

theorem Strict.whole (h : Strict cs) (hd : ∀ c ∈ cs, c.isDigit) : Whole cs := by
  obtain ⟨hs, hw, hf, he⟩ := h
  rename_i s w f e
  simp only [List.forall_mem_append] at hd
  obtain ⟨⟨⟨hds, -⟩, hdf⟩, hde⟩ := hd
  obtain rfl : s = [] := by
    rcases hs with rfl | rfl
    · rfl
    · cases hds '-' (by simp)
  obtain rfl : f = [] := by
    cases hf with
    | none => rfl
    | digits => cases hdf '.' (by simp)
  obtain rfl : e = [] := by
    cases he with
    | none => rfl
    | @digits e s ds he =>
      have hdigit := hde e (by simp)
      rcases he with rfl | rfl <;> cases hdigit
  simpa using hw

theorem natural?_eq_some_iff (h : Strict cs) {n : Nat} : natural? cs = some n ↔ cs = Nat.toDigits 10 n := by
  constructor
  · intro hn
    unfold natural? at hn
    split at hn
    · rename_i hall
      cases hn
      exact (h.whole (List.all_eq_true.mp hall)).toDigits.symm
    · cases hn
  · rintro rfl
    exact natural?_toDigits n

end Numeral

namespace Glyph

/-- The characters that glyphs stand for. Two codes that are the halves of a surrogate pair stand for
one character, and a half by itself for none. -/
inductive Denotes : List Glyph → List Char → Prop
  | nil : Denotes [] []
  | plain (c : Char) {gs : List Glyph} {cs : List Char} (h : Denotes gs cs) :
      Denotes (plain c :: gs) (c :: cs)
  | short {letter c : Char} {gs : List Glyph} {cs : List Char} (hc : named? letter = some c)
      (h : Denotes gs cs) : Denotes (short letter :: gs) (c :: cs)
  | code {a b c d : Char} {n : Nat} {gs : List Glyph} {cs : List Char} (hn : hex? a b c d = some n)
      (hlow : isLowSurrogate n = false) (hhigh : isHighSurrogate n = false) (h : Denotes gs cs) :
      Denotes (code a b c d :: gs) (Char.ofNat n :: cs)
  | pair {a b c d a' b' c' d' : Char} {n m : Nat} {gs : List Glyph} {cs : List Char}
      (hn : hex? a b c d = some n) (hm : hex? a' b' c' d' = some m) (hhigh : isHighSurrogate n)
      (hlow : isLowSurrogate m) (h : Denotes gs cs) :
      Denotes (code a b c d :: code a' b' c' d' :: gs) (joinSurrogates n m :: cs)

variable {gs : List Glyph} {cs : List Char}

theorem denotes_of_chars? (h : chars? gs = some cs) : Denotes gs cs := by
  fun_induction chars? gs generalizing cs with
  | case1 =>
    cases h
    exact .nil
  | case2 c gs ih =>
    obtain ⟨cs', hcs, rfl⟩ := Option.map_eq_some_iff.mp h
    exact .plain c (ih hcs)
  | case4 letter gs c hc ih =>
    obtain ⟨cs', hcs, rfl⟩ := Option.map_eq_some_iff.mp h
    exact .short hc (ih hcs)
  | case8 a b c d n hn hlow hhigh a' b' c' d' gs m hm hlow' ih =>
    obtain ⟨cs', hcs, rfl⟩ := Option.map_eq_some_iff.mp h
    exact .pair hn hm hhigh hlow' (ih hcs)
  | case11 a b c d gs n hn hlow hhigh ih =>
    obtain ⟨cs', hcs, rfl⟩ := Option.map_eq_some_iff.mp h
    exact .code hn (eq_false_of_ne_true hlow) (eq_false_of_ne_true hhigh) (ih hcs)
  | case3 | case5 | case6 | case7 | case9 | case10 => cases h

theorem isHighSurrogate_of_low {n : Nat} (h : isLowSurrogate n) : isHighSurrogate n = false := by
  simp only [isHighSurrogate, isLowSurrogate, Bool.and_eq_true, decide_eq_true_eq,
    Bool.and_eq_false_iff, decide_eq_false_iff_not] at h ⊢
  omega

theorem Denotes.chars? (h : Denotes gs cs) : chars? gs = some cs := by
  induction h with
  | nil => rfl
  | plain c _ ih => rw [Glyph.chars?, ih, Option.map_some]
  | short hc _ ih => simp only [Glyph.chars?, hc, ih, Option.map_some]
  | code hn hlow hhigh _ ih => simp [Glyph.chars?, hn, hlow, hhigh, ih]
  | @pair _ _ _ _ _ _ _ _ n _ _ _ hn hm hhigh hlow _ ih =>
    have hnlow : isLowSurrogate n = false := by
      apply eq_false_of_ne_true
      intro h
      rw [isHighSurrogate_of_low h] at hhigh
      cases hhigh
    simp [Glyph.chars?, hn, hm, hnlow, hhigh, hlow, ih]

theorem string?_eq_some_iff {text : String} : string? gs = some text ↔ Denotes gs text.toList := by
  rw [string?, Option.map_eq_some_iff]
  constructor
  · rintro ⟨cs, hcs, rfl⟩
    rw [String.toList_ofList]
    exact denotes_of_chars? hcs
  · intro h
    exact ⟨text.toList, h.chars?, String.ofList_toList⟩

/-- Every escaped surrogate in the text is half of a pair: a code is a low surrogate exactly if it
comes right after a high one. The text itself comes after a high one if `high` is true. A backslash
that is escaped begins no escape. -/
def surrogatesPaired : (high : Bool) → List Char → Bool
  | high, '\\' :: 'u' :: a :: b :: c :: d :: rest =>
    match hex? a b c d with
    | none => !high && surrogatesPaired false (a :: b :: c :: d :: rest)
    | some n => isLowSurrogate n == high && surrogatesPaired (isHighSurrogate n) rest
  | high, '\\' :: _ :: rest => !high && surrogatesPaired false rest
  | high, _ :: rest => !high && surrogatesPaired false rest
  | high, [] => !high

variable {rest : List Char}

theorem surrogatesPaired_cons {c : Char} (hc : c ≠ '\\') (high : Bool) (cs : List Char) :
    surrogatesPaired high (c :: cs) = (!high && surrogatesPaired false cs) := by
  rw [surrogatesPaired]
  · exact fun _ _ _ _ _ h => absurd h hc
  · exact fun _ _ h => absurd h hc

theorem surrogatesPaired_append (h : ∀ c ∈ cs, c ≠ '\\') (rest : List Char) :
    surrogatesPaired false (cs ++ rest) = surrogatesPaired false rest := by
  induction cs with
  | nil => rfl
  | cons c cs ih =>
    obtain ⟨hc, hcs⟩ := List.forall_mem_cons.mp h
    rw [List.cons_append, surrogatesPaired_cons hc, ih hcs]
    rfl

theorem surrogatesPaired_plain {c : Char} (h : (plain c).valid) (high : Bool) (cs : List Char) :
    surrogatesPaired high ((plain c).spell ++ cs) = (!high && surrogatesPaired false cs) := by
  apply surrogatesPaired_cons
  rintro rfl
  cases h

theorem surrogatesPaired_short {letter : Char} (h : (short letter).valid) (high : Bool)
    (cs : List Char) :
    surrogatesPaired high ((short letter).spell ++ cs) = (!high && surrogatesPaired false cs) := by
  simp only [spell, List.cons_append, List.nil_append]
  rw [surrogatesPaired]
  rintro a b c d rest rfl
  cases h

theorem surrogatesPaired_code {a b c d : Char} {n : Nat} (hn : hex? a b c d = some n) (high : Bool)
    (cs : List Char) : surrogatesPaired high ((code a b c d).spell ++ cs) =
      (isLowSurrogate n == high && surrogatesPaired (isHighSurrogate n) cs) := by
  simp only [spell, List.cons_append, List.nil_append, surrogatesPaired, hn]

theorem surrogatesPaired_true (hv : ∀ g ∈ gs, g.valid)
    (hg : ∀ a b c d gs', gs = code a b c d :: gs' → False) :
    surrogatesPaired true (gs.flatMap spell ++ '"' :: rest) = false := by
  cases gs with
  | nil => exact surrogatesPaired_cons (by decide) true rest
  | cons g gs =>
    obtain ⟨hvalid, -⟩ := List.forall_mem_cons.mp hv
    rw [List.flatMap_cons, List.append_assoc]
    cases g with
    | plain c => exact surrogatesPaired_plain hvalid true _
    | short letter => exact surrogatesPaired_short hvalid true _
    | code a b c d => exact (hg a b c d gs rfl).elim

theorem surrogatesPaired_literal (hv : ∀ g ∈ gs, g.valid) :
    surrogatesPaired false (gs.flatMap spell ++ '"' :: rest) =
      ((chars? gs).isSome && surrogatesPaired false rest) := by
  -- cases 6, 9 and 10 are a low half alone, and a high half before another code and before none
  fun_induction chars? gs with
  | case1 => exact surrogatesPaired_cons (by decide) false rest
  | case2 c gs ih =>
    obtain ⟨hc, hgs⟩ := List.forall_mem_cons.mp hv
    rw [List.flatMap_cons, List.append_assoc, surrogatesPaired_plain hc, ih hgs, Option.isSome_map]
    rfl
  | case3 letter gs hc =>
    obtain ⟨hletter, -⟩ := List.forall_mem_cons.mp hv
    rw [valid, hc] at hletter
    cases hletter
  | case4 letter gs c hc ih =>
    obtain ⟨hletter, hgs⟩ := List.forall_mem_cons.mp hv
    rw [List.flatMap_cons, List.append_assoc, surrogatesPaired_short hletter, ih hgs, Option.isSome_map]
    rfl
  | case5 a b c d gs hn =>
    obtain ⟨hcode, -⟩ := List.forall_mem_cons.mp hv
    rw [valid, hn] at hcode
    cases hcode
  | case6 a b c d gs n hn hlow =>
    rw [List.flatMap_cons, List.append_assoc, surrogatesPaired_code hn, hlow]
    rfl
  | case7 a b c d n hn hlow hhigh a' b' c' d' gs hm =>
    have hcode := hv (code a' b' c' d') (by simp)
    rw [valid, hm] at hcode
    cases hcode
  | case8 a b c d n hn hlow hhigh a' b' c' d' gs m hm hlow' ih =>
    have hgs : ∀ g ∈ gs, g.valid := fun g hg => hv g (by simp [hg])
    rw [List.flatMap_cons, List.append_assoc, surrogatesPaired_code hn, List.flatMap_cons,
      List.append_assoc, surrogatesPaired_code hm, hhigh, hlow', isHighSurrogate_of_low hlow', ih hgs,
      Option.isSome_map, eq_false_of_ne_true hlow]
    rfl
  | case9 a b c d n hn hlow hhigh a' b' c' d' gs m hm hlow' =>
    rw [List.flatMap_cons, List.append_assoc, surrogatesPaired_code hn, List.flatMap_cons,
      List.append_assoc, surrogatesPaired_code hm, hhigh, eq_false_of_ne_true hlow',
      eq_false_of_ne_true hlow]
    rfl
  | case10 a b c d gs n hn hlow hhigh hgs =>
    have hvgs : ∀ g ∈ gs, g.valid := fun g hg => hv g (by simp [hg])
    rw [List.flatMap_cons, List.append_assoc, surrogatesPaired_code hn, hhigh,
      surrogatesPaired_true hvgs hgs, Bool.and_false]
    rfl
  | case11 a b c d gs n hn hlow hhigh ih =>
    have hgs : ∀ g ∈ gs, g.valid := fun g hg => hv g (by simp [hg])
    rw [List.flatMap_cons, List.append_assoc, surrogatesPaired_code hn, eq_false_of_ne_true hlow,
      eq_false_of_ne_true hhigh, ih hgs, Option.isSome_map]
    rfl

end Glyph

end StackMachine.Json
