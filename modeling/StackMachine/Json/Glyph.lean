/-!
The characters of a string literal as they are written. Reading them and writing them are kept
apart from what they mean, because a literal that nobody asks for need not mean anything.
-/

namespace StackMachine.Json

inductive Glyph where
  | plain (c : Char)
  | short (letter : Char)
  | code (a b c d : Char)
  deriving DecidableEq

namespace Glyph

def named? : Char → Option Char
  | '"' => some '"'
  | '\\' => some '\\'
  | '/' => some '/'
  | 'b' => some '\x08'
  | 'f' => some '\x0c'
  | 'n' => some '\n'
  | 'r' => some '\r'
  | 't' => some '\t'
  | _ => none

def hexDigit? (c : Char) : Option Nat :=
  if '0' ≤ c ∧ c ≤ '9' then some (c.toNat - '0'.toNat)
  else if 'a' ≤ c ∧ c ≤ 'f' then some (c.toNat - 'a'.toNat + 10)
  else if 'A' ≤ c ∧ c ≤ 'F' then some (c.toNat - 'A'.toNat + 10)
  else none

def hex? (a b c d : Char) : Option Nat := do
  let a ← hexDigit? a
  let b ← hexDigit? b
  let c ← hexDigit? c
  let d ← hexDigit? d
  return ((a * 16 + b) * 16 + c) * 16 + d

def valid : Glyph → Bool
  | plain c => 0x20 ≤ c.toNat && c ≠ '"' && c ≠ '\\'
  | short letter => (named? letter).isSome
  | code a b c d => (hex? a b c d).isSome

def spell : Glyph → List Char
  | plain c => [c]
  | short letter => ['\\', letter]
  | code a b c d => ['\\', 'u', a, b, c, d]

def read? : List Char → Option (List Glyph × List Char)
  | [] => none
  | '"' :: rest => some ([], rest)
  | '\\' :: 'u' :: a :: b :: c :: d :: rest =>
    if (code a b c d).valid then (read? rest).map (fun (gs, r) => (code a b c d :: gs, r))
    else none
  | '\\' :: letter :: rest =>
    if (short letter).valid then (read? rest).map (fun (gs, r) => (short letter :: gs, r))
    else none
  | c :: rest =>
    if (plain c).valid then (read? rest).map (fun (gs, r) => (plain c :: gs, r)) else none

theorem append_of_read? {cs rest : List Char} {gs : List Glyph} (h : read? cs = some (gs, rest)) :
    cs = gs.flatMap spell ++ '"' :: rest := by
  fun_induction read? cs generalizing gs rest with
  | case1 => simp at h
  | case2 => simp_all
  | case3 a b c d tail hv ih =>
    obtain ⟨⟨gs', r'⟩, hr, he⟩ := Option.map_eq_some_iff.mp h
    simp only [Prod.mk.injEq] at he
    obtain ⟨rfl, rfl⟩ := he
    simp [spell, ih hr]
  | case4 => simp at h
  | case5 letter tail hu hv ih =>
    obtain ⟨⟨gs', r'⟩, hr, he⟩ := Option.map_eq_some_iff.mp h
    simp only [Prod.mk.injEq] at he
    obtain ⟨rfl, rfl⟩ := he
    simp [spell, ih hr]
  | case6 => simp at h
  | case7 c tail hq hu hl hv ih =>
    obtain ⟨⟨gs', r'⟩, hr, he⟩ := Option.map_eq_some_iff.mp h
    simp only [Prod.mk.injEq] at he
    obtain ⟨rfl, rfl⟩ := he
    simp [spell, ih hr]
  | case8 => simp at h

def isHighSurrogate (n : Nat) : Bool :=
  0xd800 ≤ n && n < 0xdc00

def isLowSurrogate (n : Nat) : Bool :=
  0xdc00 ≤ n && n < 0xe000

def joinSurrogates (high low : Nat) : Char :=
  Char.ofNat (0x10000 + (high - 0xd800) * 0x400 + (low - 0xdc00))

/-- The characters that glyphs stand for. A code that is half of a surrogate pair needs the other
half beside it. -/
def chars? : List Glyph → Option (List Char)
  | [] => some []
  | plain c :: rest => (chars? rest).map (c :: ·)
  | short letter :: rest =>
    match named? letter with
    | none => none
    | some c => (chars? rest).map (c :: ·)
  | code a b c d :: rest =>
    match hex? a b c d with
    | none => none
    | some n =>
      if isLowSurrogate n then none
      else if isHighSurrogate n then
        match rest with
        | code a' b' c' d' :: rest' =>
          match hex? a' b' c' d' with
          | none => none
          | some m =>
            if isLowSurrogate m then (chars? rest').map (joinSurrogates n m :: ·) else none
        | _ => none
      else (chars? rest).map (Char.ofNat n :: ·)

def letter? : Char → Option Char
  | '"' => some '"'
  | '\\' => some '\\'
  | '\x08' => some 'b'
  | '\x0c' => some 'f'
  | '\n' => some 'n'
  | '\r' => some 'r'
  | '\t' => some 't'
  | _ => none

theorem named?_of_letter? {c letter : Char} (h : letter? c = some letter) :
    named? letter = some c := by
  unfold letter? at h
  split at h
  all_goals
    cases h
    try rfl

def ofChar (c : Char) : Glyph :=
  match letter? c with
  | some letter => short letter
  | none =>
    if c.toNat < 0x20 then
      code '0' '0' (Nat.digitChar (c.toNat / 16)) (Nat.digitChar (c.toNat % 16))
    else plain c

def ofString (text : String) : List Glyph :=
  text.toList.map ofChar

def string? (glyphs : List Glyph) : Option String :=
  (chars? glyphs).map String.ofList

theorem hex?_of_lt {n : Nat} (h : n < 0x20) :
    hex? '0' '0' (Nat.digitChar (n / 16)) (Nat.digitChar (n % 16)) = some n := by
  have hall : ∀ m : Fin 0x20,
      hex? '0' '0' (Nat.digitChar (m.val / 16)) (Nat.digitChar (m.val % 16)) = some m.val := by
    decide
  exact hall ⟨n, h⟩

theorem chars?_ofChar (c : Char) (rest : List Glyph) :
    chars? (ofChar c :: rest) = (chars? rest).map (c :: ·) := by
  unfold ofChar
  split
  · rename_i letter h
    simp [chars?, named?_of_letter? h]
  · split
    · rename_i h
      have hl : isLowSurrogate c.toNat = false := by simp [isLowSurrogate]; omega
      have hh : isHighSurrogate c.toNat = false := by simp [isHighSurrogate]; omega
      simp [chars?, hex?_of_lt h, hl, hh]
    · simp [chars?]

theorem chars?_map_ofChar (cs : List Char) : chars? (cs.map ofChar) = some cs := by
  induction cs with
  | nil => rfl
  | cons c cs ih => simp [chars?_ofChar, ih]

theorem string?_ofString (text : String) : string? (ofString text) = some text := by
  simp [string?, ofString, chars?_map_ofChar]

theorem valid_ofChar (c : Char) : (ofChar c).valid = true := by
  unfold ofChar
  split
  · rename_i letter h
    simp [valid, named?_of_letter? h]
  · rename_i h
    split
    · rename_i hc
      simp [valid, hex?_of_lt hc]
    · have hq : c ≠ '"' := by rintro rfl; simp [letter?] at h
      have hb : c ≠ '\\' := by rintro rfl; simp [letter?] at h
      simp [valid, hq, hb]
      omega

theorem read?_spell (g : Glyph) (rest : List Char) (h : g.valid = true) :
    read? (g.spell ++ rest) = (read? rest).map (fun (gs, r) => (g :: gs, r)) := by
  cases g with
  | plain c =>
    have hq : c ≠ '"' := by rintro rfl; simp [valid] at h
    have hb : c ≠ '\\' := by rintro rfl; simp [valid] at h
    simp only [spell, List.cons_append, List.nil_append]
    rw [read?]
    · simp [h]
    · exact hq
    · exact fun _ _ _ _ _ hc => absurd hc hb
    · exact fun _ _ hc => absurd hc hb
  | short letter =>
    simp only [spell, List.cons_append, List.nil_append]
    rw [read?]
    · simp [h]
    · rintro _ _ _ _ _ rfl
      simp [valid, named?] at h
  | code a b c d => simp [spell, read?, h]

theorem read?_flatMap_spell (gs : List Glyph) (rest : List Char) (h : ∀ g ∈ gs, g.valid = true) :
    read? (gs.flatMap spell ++ '"' :: rest) = some (gs, rest) := by
  induction gs with
  | nil => simp [read?]
  | cons g gs ih =>
    rw [List.flatMap_cons, List.append_assoc, read?_spell _ _ (h g (by simp)),
      ih (fun g hg => h g (by simp [hg]))]
    rfl

end Glyph

end StackMachine.Json
