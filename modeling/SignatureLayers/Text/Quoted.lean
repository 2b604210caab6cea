import SignatureLayers.Text.Printable

namespace SignatureLayers.Text.Quoted

def hex : Nat → Nat → List Char
  | 0, _ => []
  | width + 1, n => hex width (n / 16) ++ [Nat.digitChar (n % 16)]

/-- A code point as an escape of two, four or eight digits. -/
def escapeCode (n : Nat) : List Char :=
  if n < 0x100 then '\\' :: 'x' :: hex 2 n
  else if n < 0x10000 then '\\' :: 'u' :: hex 4 n
  else '\\' :: 'U' :: hex 8 n

/-- The single mark, unless the text has a single one and no double one. -/
def mark (s : List Char) : Char :=
  if s.contains '\'' && !s.contains '"' then '"' else '\''

def encodeChar (keep : Char → Bool) (mark c : Char) : List Char :=
  if c = mark || c = '\\' then ['\\', c]
  else if c = '\t' then ['\\', 't']
  else if c = '\n' then ['\\', 'n']
  else if c = '\r' then ['\\', 'r']
  else if keep c then [c]
  else escapeCode c.toNat

def encodeWith (keep : Char → Bool) (s : List Char) : List Char :=
  mark s :: s.flatMap (encodeChar keep (mark s)) ++ [mark s]

/-- A text as it stands in messages: printable characters are kept. -/
def encode (s : String) : String := String.ofList (encodeWith isPrintable s.toList)

def encodeAscii (s : String) : String :=
  String.ofList (encodeWith (fun c => c.toNat < 128 && isPrintable c) s.toList)

def encodeList (items : List String) : String :=
  "[" ++ String.intercalate ", " (items.map encode) ++ "]"

end SignatureLayers.Text.Quoted
