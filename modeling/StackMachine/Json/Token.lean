import StackMachine.Json.Glyph
import StackMachine.Json.Numeral

namespace StackMachine.Json

inductive Token where
  | openBrace
  | closeBrace
  | openBracket
  | closeBracket
  | comma
  | colon
  | null
  | bool (value : Bool)
  | number (numeral : List Char)
  | string (glyphs : List Glyph)
  deriving DecidableEq

namespace Token

def spell : Token → List Char
  | openBrace => ['\x7b']
  | closeBrace => ['\x7d']
  | openBracket => ['[']
  | closeBracket => [']']
  | comma => [',']
  | colon => [':']
  | null => ['n', 'u', 'l', 'l']
  | bool true => ['t', 'r', 'u', 'e']
  | bool false => ['f', 'a', 'l', 's', 'e']
  | number numeral => numeral
  | string glyphs => '"' :: glyphs.flatMap Glyph.spell ++ ['"']

def isBlank (c : Char) : Bool :=
  c = ' ' || c = '\t' || c = '\n' || c = '\r'

def next? : List Char → Option (Token × List Char)
  | '\x7b' :: rest => some (openBrace, rest)
  | '\x7d' :: rest => some (closeBrace, rest)
  | '[' :: rest => some (openBracket, rest)
  | ']' :: rest => some (closeBracket, rest)
  | ',' :: rest => some (comma, rest)
  | ':' :: rest => some (colon, rest)
  | 'n' :: 'u' :: 'l' :: 'l' :: rest => some (null, rest)
  | 't' :: 'r' :: 'u' :: 'e' :: rest => some (bool true, rest)
  | 'f' :: 'a' :: 'l' :: 's' :: 'e' :: rest => some (bool false, rest)
  | '"' :: rest => (Glyph.read? rest).map (fun (gs, r) => (string gs, r))
  | cs => (Numeral.read? cs).map (fun (ds, r) => (number ds, r))

theorem append_of_next? {cs rest : List Char} {t : Token} (h : next? cs = some (t, rest)) :
    cs = t.spell ++ rest ∧ t.spell ≠ [] := by
  unfold next? at h
  split at h
  all_goals try (obtain ⟨rfl, rfl⟩ := Prod.mk.inj (Option.some.inj h); simp [spell])
  · obtain ⟨⟨gs, r⟩, hr, he⟩ := Option.map_eq_some_iff.mp h
    obtain ⟨rfl, rfl⟩ := Prod.mk.inj he
    simp [spell, Glyph.append_of_read? hr]
  · obtain ⟨⟨ds, r⟩, hr, he⟩ := Option.map_eq_some_iff.mp h
    obtain ⟨rfl, rfl⟩ := Prod.mk.inj he
    exact Numeral.append_of_read? hr

theorem length_lt_of_next? {cs rest : List Char} {t : Token} (h : next? cs = some (t, rest)) :
    rest.length < cs.length := by
  obtain ⟨rfl, hs⟩ := append_of_next? h
  have := List.length_pos_iff.mpr hs
  simp only [List.length_append]
  omega

def scan? : List Char → Option (List Token)
  | [] => some []
  | c :: cs =>
    if isBlank c then scan? cs
    else
      match h : next? (c :: cs) with
      | none => none
      | some (t, rest) =>
        have := length_lt_of_next? h
        (scan? rest).map (t :: ·)
termination_by cs => cs.length
decreasing_by
  · exact Nat.lt_succ_self _
  · assumption

end Token

end StackMachine.Json
