import MapAlgebra.Text.Layout
import MapAlgebra.Text.Scalar

/-! The names that editors give to documents, as far as they lead to files. -/

namespace MapAlgebra.Uri

/-- The parts of a name around the first byte of a kind, which is left out; the second is missing if
there is none.
-/
def cut (separator : Char) (text : Bytes) : Bytes × Option Bytes :=
  let isOther (b : UInt8) : Bool := b.toNat != separator.toNat
  let front := text.takeWhile isOther
  (front, (text.drop front.length).tail?)

def plain (b : UInt8) : Char := Char.ofNat b.toNat

/-- Splits off the scheme, in lower case. There may be none, and it must not be empty. -/
def scheme? (text : Bytes) : Option (String × Bytes) :=
  let isLetter (b : UInt8) : Bool := (plain b).isAlpha && b < 0x80
  let isInner (b : UInt8) : Bool :=
    isLetter b || (plain b).isDigit || ['+', '-', '.'].contains (plain b)
  let name := text.takeWhile isInner
  match text.drop name.length with
  | b :: rest =>
    if b.toNat = ':'.toNat then
      if name.isEmpty then none
      else if (name.head?.map isLetter).getD false then
        some (String.ofList (name.map fun b => (plain b).toLower), rest)
      else some ("", text)
    else some ("", text)
  | [] => some ("", text)

/-- Resolves escapes: a percent sign and two hexadecimal digits. The test says which escaped
bytes are allowed, and which bytes may stand for themselves.
-/
def unescape (allowedEscape allowedPlain : UInt8 → Bool) : Bytes → Option Bytes
  | [] => some []
  | b :: rest =>
    if b.toNat = '%'.toNat then
      match rest with
      | high :: low :: rest =>
        match Text.hexNat? [plain high, plain low] with
        | some n =>
          if high < 0x80 && low < 0x80 && allowedEscape n.toUInt8 then
            (unescape allowedEscape allowedPlain rest).map (n.toUInt8 :: ·)
          else none
        | none => none
      | _ => none
    else if allowedPlain b then (unescape allowedEscape allowedPlain rest).map (b :: ·)
    else none

def unescapeAny : Bytes → Option Bytes :=
  unescape (fun _ => true) (fun _ => true)

def isOneOf (chars : String) (b : UInt8) : Bool :=
  b < 0x80 && chars.toList.contains (plain b)

def isAlphanumeric (b : UInt8) : Bool :=
  b < 0x80 && (plain b).isAlphanum

def isHostByte (b : UInt8) : Bool :=
  0x80 ≤ b || isAlphanumeric b || isOneOf "!$&'()*+,;=:[]<>\"-_.~" b

/-- A host may only escape what is not plain, and the percent sign. -/
def unescapeHost : Bytes → Option Bytes :=
  unescape (fun b => 0x80 ≤ b || b.toNat == '%'.toNat) isHostByte

/-- Inside brackets, everything may be escaped in a zone that may stand there, and a blank. -/
def unescapeZone : Bytes → Option Bytes :=
  unescape (fun b => b.toNat == '%'.toNat || b == 0x20 || (b < 0x80 && isHostByte b)) isHostByte

def isPort : Bytes → Bool
  | [] => true
  | b :: digits => b.toNat == ':'.toNat && digits.all fun d => (plain d).isDigit

def fromLast? (separator : Char) (text : Bytes) : Option Bytes :=
  let behind := (text.reverse.takeWhile fun b => b.toNat != separator.toNat).reverse
  if behind.length < text.length then some (text.drop (text.length - behind.length - 1)) else none

def zoneStart? : Bytes → Option Nat
  | [] => none
  | b :: rest =>
    if (b :: rest).take 3 = Text.toBytes "%25" then some 0 else (zoneStart? rest).map (· + 1)

def isHost (host : Bytes) : Bool :=
  if (host.head?.map (·.toNat)) == some '['.toNat then
    match fromLast? ']' host with
    | none => false
    | some closing =>
      let inner := host.take (host.length - closing.length)
      isPort (closing.drop 1) &&
        match zoneStart? inner with
        | some start =>
          (unescapeHost (inner.take start)).isSome && (unescapeZone (inner.drop start)).isSome
            && (unescapeHost closing).isSome
        | none => (unescapeHost host).isSome
  else
    ((fromLast? ':' host).map isPort).getD true && (unescapeHost host).isSome

def isUser (user : Bytes) : Bool :=
  (user.all fun b => isAlphanumeric b || isOneOf "-._:~!$&'()*+,;=%@" b)
    && (unescapeAny user).isSome

def isAuthority (authority : Bytes) : Bool :=
  match fromLast? '@' authority with
  | none => isHost authority
  | some host => isHost (host.drop 1) && isUser (authority.take (authority.length - host.length))

def rawPath? (rest : Bytes) : Option Bytes :=
  match rest.map (·.toNat) with
  | 0x2F :: 0x2F :: _ =>
    let (authority, path) := cut '/' (rest.drop 2)
    if isAuthority authority then some ((path.map (0x2F :: ·)).getD []) else none
  | 0x2F :: _ => some rest
  | _ => none

def filePath? (uri : String) : Option String := do
  let (text, fragment) := cut '#' (Text.toBytes uri)
  if text.any fun b => b < 0x20 || b == 0x7F then none
  let (scheme, rest) ← scheme? text
  let path ← unescapeAny (← rawPath? (cut '?' rest).1)
  let _ ← unescapeAny (fragment.getD [])
  if scheme = "file" ∧ path ≠ [] then some (Text.ofBytes path) else none

end MapAlgebra.Uri
