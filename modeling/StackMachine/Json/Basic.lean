import StackMachine.Json.Token

namespace StackMachine

inductive Json where
  | null
  | bool (value : Bool)
  | number (numeral : List Char)
  | string (glyphs : List Json.Glyph)
  | array (items : List Json)
  | object (members : List (List Json.Glyph × Json))

namespace Json

mutual

def toTokens : Json → List Token
  | null => [.null]
  | bool b => [.bool b]
  | number numeral => [.number numeral]
  | string glyphs => [.string glyphs]
  | array [] => [.openBracket, .closeBracket]
  | array (item :: items) => .openBracket :: toTokens item ++ itemTokens items
  | object [] => [.openBrace, .closeBrace]
  | object (member :: members) =>
    .openBrace :: .string member.1 :: .colon :: toTokens member.2 ++ memberTokens members

def itemTokens : List Json → List Token
  | [] => [.closeBracket]
  | item :: items => .comma :: toTokens item ++ itemTokens items

def memberTokens : List (List Glyph × Json) → List Token
  | [] => [.closeBrace]
  | (key, value) :: members =>
    .comma :: .string key :: .colon :: toTokens value ++ memberTokens members

end

def render (j : Json) : List Char :=
  j.toTokens.flatMap Token.spell

/-- An array or object that has been opened: the parts read so far, last first, and for an object
also the key of the part that follows. -/
inductive Open where
  | array (items : List Json)
  | object (members : List (List Glyph × Json)) (key : List Glyph)

mutual

def readValue : List Open → List Token → Option Json
  | outer, .null :: rest => readRest outer null rest
  | outer, .bool b :: rest => readRest outer (bool b) rest
  | outer, .number numeral :: rest => readRest outer (number numeral) rest
  | outer, .string glyphs :: rest => readRest outer (string glyphs) rest
  | outer, .openBracket :: .closeBracket :: rest => readRest outer (array []) rest
  | outer, .openBracket :: rest => readValue (.array [] :: outer) rest
  | outer, .openBrace :: .closeBrace :: rest => readRest outer (object []) rest
  | outer, .openBrace :: .string key :: .colon :: rest => readValue (.object [] key :: outer) rest
  | _, _ => none

def readRest : List Open → Json → List Token → Option Json
  | [], j, [] => some j
  | .array items :: outer, j, .comma :: rest => readValue (.array (j :: items) :: outer) rest
  | .array items :: outer, j, .closeBracket :: rest =>
    readRest outer (array (j :: items).reverse) rest
  | .object members key :: outer, j, .comma :: .string next :: .colon :: rest =>
    readValue (.object ((key, j) :: members) next :: outer) rest
  | .object members key :: outer, j, .closeBrace :: rest =>
    readRest outer (object ((key, j) :: members).reverse) rest
  | _, _, _ => none

end

def ofTokens? (tokens : List Token) : Option Json :=
  readValue [] tokens

def parse? (text : List Char) : Option Json :=
  (Token.scan? text).bind ofTokens?

namespace Open

def tokens : Open → List Token
  | array items => .openBracket :: items.reverse.flatMap (fun j => j.toTokens ++ [.comma])
  | object members key =>
    .openBrace :: members.reverse.flatMap (fun m => .string m.1 :: .colon :: m.2.toTokens ++ [.comma])
      ++ [.string key, .colon]

def outerTokens : List Open → List Token
  | [] => []
  | o :: outer => outerTokens outer ++ o.tokens

end Open

theorem itemTokens_concat (items : List Json) (j : Json) :
    itemTokens (items ++ [j]) =
      .comma :: items.flatMap (fun j => j.toTokens ++ [.comma]) ++ j.toTokens ++ [.closeBracket] := by
  induction items with
  | nil => simp [itemTokens]
  | cons item items ih => simp [itemTokens, ih]

theorem toTokens_array_concat (items : List Json) (j : Json) :
    (array (items ++ [j])).toTokens =
      .openBracket :: items.flatMap (fun j => j.toTokens ++ [.comma]) ++ j.toTokens
        ++ [.closeBracket] := by
  cases items with
  | nil => simp [toTokens, itemTokens]
  | cons item items => simp [toTokens, itemTokens_concat]

theorem memberTokens_concat (members : List (List Glyph × Json)) (key : List Glyph) (j : Json) :
    memberTokens (members ++ [(key, j)]) =
      .comma :: members.flatMap (fun m => .string m.1 :: .colon :: m.2.toTokens ++ [.comma])
        ++ .string key :: .colon :: j.toTokens ++ [.closeBrace] := by
  induction members with
  | nil => simp [memberTokens]
  | cons member members ih => simp [memberTokens, ih]

theorem toTokens_object_concat (members : List (List Glyph × Json)) (key : List Glyph) (j : Json) :
    (object (members ++ [(key, j)])).toTokens =
      .openBrace :: members.flatMap (fun m => .string m.1 :: .colon :: m.2.toTokens ++ [.comma])
        ++ .string key :: .colon :: j.toTokens ++ [.closeBrace] := by
  cases members with
  | nil => simp [toTokens, memberTokens]
  | cons member members => simp [toTokens, memberTokens_concat]

theorem toTokens_of_read :
    (∀ outer tokens, ∀ j, readValue outer tokens = some j →
      j.toTokens = Open.outerTokens outer ++ tokens) ∧
    (∀ outer part tokens, ∀ j, readRest outer part tokens = some j →
      j.toTokens = Open.outerTokens outer ++ part.toTokens ++ tokens) := by
  apply readValue.mutual_induct
  all_goals
    intros
    simp_all [readValue, readRest, Open.outerTokens, Open.tokens, toTokens, toTokens_array_concat,
      toTokens_object_concat]

theorem readValue_openBracket (j : Json) (outer : List Open) (rest : List Token) :
    readValue outer (.openBracket :: (j.toTokens ++ rest)) =
      readValue (.array [] :: outer) (j.toTokens ++ rest) := by
  rcases j with _ | _ | _ | _ | ⟨_ | _⟩ | ⟨_ | _⟩ <;> simp [toTokens, readValue]

mutual

theorem readValue_toTokens (j : Json) (outer : List Open) (rest : List Token) :
    readValue outer (j.toTokens ++ rest) = readRest outer j rest := by
  match j with
  | null | bool _ | number _ | string _ | array [] | object [] => simp [toTokens, readValue]
  | array (item :: items) =>
    have hitem := readValue_toTokens item (.array [] :: outer) (itemTokens items ++ rest)
    have hitems := readRest_itemTokens items [] item outer rest
    simp [toTokens, readValue_openBracket, hitem, hitems]
  | object ((key, value) :: members) =>
    have hvalue := readValue_toTokens value (.object [] key :: outer) (memberTokens members ++ rest)
    have hmembers := readRest_memberTokens members [] key value outer rest
    simp [toTokens, readValue, hvalue, hmembers]

theorem readRest_itemTokens (items done : List Json) (j : Json) (outer : List Open)
    (rest : List Token) :
    readRest (.array done :: outer) j (itemTokens items ++ rest) =
      readRest outer (array (done.reverse ++ j :: items)) rest := by
  match items with
  | [] => simp [itemTokens, readRest]
  | item :: items =>
    have hitem := readValue_toTokens item (.array (j :: done) :: outer) (itemTokens items ++ rest)
    have hitems := readRest_itemTokens items (j :: done) item outer rest
    simp [itemTokens, readRest, hitem, hitems]

theorem readRest_memberTokens (members done : List (List Glyph × Json)) (key : List Glyph)
    (j : Json) (outer : List Open) (rest : List Token) :
    readRest (.object done key :: outer) j (memberTokens members ++ rest) =
      readRest outer (object (done.reverse ++ (key, j) :: members)) rest := by
  match members with
  | [] => simp [memberTokens, readRest]
  | (next, value) :: members =>
    have hvalue := readValue_toTokens value (.object ((key, j) :: done) next :: outer)
      (memberTokens members ++ rest)
    have hmembers := readRest_memberTokens members ((key, j) :: done) next value outer rest
    simp [memberTokens, readRest, hvalue, hmembers]

end

theorem ofTokens?_eq_some_iff {tokens : List Token} {j : Json} :
    ofTokens? tokens = some j ↔ tokens = j.toTokens := by
  constructor
  · intro h
    simpa [Open.outerTokens] using (toTokens_of_read.1 [] tokens j h).symm
  · rintro rfl
    simpa [ofTokens?, readRest] using readValue_toTokens j [] []

end Json

end StackMachine
