import StackMachine.Frame

namespace StackMachine

inductive Layout where
  | atom (text : String)
  | group (opening closing gap : String) (parts : List (String × Layout))

namespace Layout

def record (name : String) (fields : List (String × Layout)) : Layout :=
  group (name ++ " \x7b") "\x7d" " " (fields.map (fun (label, part) => (label ++ ": ", part)))

def wrapped (name : String) (part : Layout) : Layout :=
  group (name ++ "(") ")" "" [("", part)]

def list (items : List Layout) : Layout :=
  group "[" "]" "" (items.map (fun item => ("", item)))

def map (entries : List (String × Layout)) : Layout :=
  group "\x7b" "\x7d" "" (entries.map (fun (key, part) => (key ++ ": ", part)))

def indent (level : Nat) : String :=
  String.ofList (List.replicate (4 * level) ' ')

mutual

def inline : Layout → String
  | atom text => text
  | group opening closing _ [] => opening ++ closing
  | group opening closing gap (part :: parts) =>
    opening ++ gap ++ part.1 ++ inline part.2 ++ inlineParts parts ++ gap ++ closing

def inlineParts : List (String × Layout) → String
  | [] => ""
  | (label, part) :: parts => ", " ++ label ++ inline part ++ inlineParts parts

end

mutual

def block (level : Nat) : Layout → String
  | atom text => text
  | group opening closing _ [] => opening ++ closing
  | group opening closing _ (part :: parts) =>
    opening ++ "\n" ++ indent (level + 1) ++ part.1 ++ block (level + 1) part.2 ++ ",\n" ++
      blockParts (level + 1) parts ++ indent level ++ closing

def blockParts (level : Nat) : List (String × Layout) → String
  | [] => ""
  | (label, part) :: parts =>
    indent level ++ label ++ block level part ++ ",\n" ++ blockParts level parts

end

def render (pretty : Bool) (layout : Layout) : String :=
  if pretty then layout.block 0 else layout.inline

def isControl (c : Char) : Bool :=
  c.toNat < 0x20 || (0x7f ≤ c.toNat && c.toNat < 0xa0)

def quoteChar (c : Char) : List Char :=
  if c = '"' then ['\\', '"']
  else if c = '\\' then ['\\', '\\']
  else if c = '\n' then ['\\', 'n']
  else if c = '\r' then ['\\', 'r']
  else if c = '\t' then ['\\', 't']
  else if c = '\x00' then ['\\', '0']
  else if isControl c then ['\\', 'u', '\x7b'] ++ Nat.toDigits 16 c.toNat ++ ['\x7d']
  else [c]

def quoted (text : String) : Layout :=
  atom (String.ofList ('"' :: text.toList.flatMap quoteChar ++ ['"']))

end Layout

def Kind.layout (k : Kind) : Layout :=
  .atom k.name

def Scalar.layout (s : Scalar) : Layout :=
  .record "Scalar" [("kind", s.kind.layout), ("bits", .atom s.bits.toNat.repr)]

def Operand.layout : Operand → Layout
  | absent => .atom "Absent"
  | present s => .wrapped "Present" s.layout

def StaticType.layout : StaticType → Layout
  | primitive p => .atom p.name
  | object name => .wrapped "Object" (.quoted name)
  | enumeration name t => .record "Enum" [("name", .quoted name), ("underlying", t.layout)]
  | nullable t => .wrapped "Nullable" t.layout

def Frame.layout (f : Frame) : Layout :=
  .record "InterpretedFrame" [("stack", .list (f.values.map Operand.layout))]

end StackMachine
