import MapAlgebra.Text.Layout
import MapAlgebra.Text.Printable

/-! Quoted text in messages: the quote and the backslash are escaped, characters that cannot be
printed are written by name or by code point, and all others stand for themselves.
-/

namespace MapAlgebra.Text

def controlLetter? (c : Char) : Option Char :=
  match c.toNat with
  | 7 => some 'a'
  | 8 => some 'b'
  | 9 => some 't'
  | 10 => some 'n'
  | 11 => some 'v'
  | 12 => some 'f'
  | 13 => some 'r'
  | _ => none

def escapeChar (quote c : Char) : String :=
  if c = quote || c = '\\' then String.ofList ['\\', c]
  else if isPrintable c then String.singleton c
  else
    match controlLetter? c with
    | some letter => String.ofList ['\\', letter]
    | none =>
      if c.toNat < 0x80 then "\\x" ++ hexLower 2 c.toNat
      else if c.toNat < 0x10000 then "\\u" ++ hexLower 4 c.toNat
      else "\\U" ++ hexLower 8 c.toNat

def quote (s : String) : String :=
  "\"" ++ String.join (s.toList.map (escapeChar '\x22')) ++ "\""

def quoteChar (c : Char) : String :=
  "'" ++ escapeChar '\x27' c ++ "'"

end MapAlgebra.Text
