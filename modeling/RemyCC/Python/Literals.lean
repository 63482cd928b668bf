import RemyCC.Json.Parse

/-!
# Python string literals

The `repr` of a string or of bytes, and the decoder of a literal. A literal that
the decoder cannot decode exactly is left to the caller.
-/

namespace RemyCC.Python

open Json (hexValue hexDigit)

inductive LiteralValue where
  | str (s : String)
  | bytes (b : List UInt8)
  deriving DecidableEq, Repr

structure LiteralPrefix where
  raw : Bool
  bytes : Bool
  format : Bool
  unicode : Bool
  deriving DecidableEq, Repr

def LiteralPrefix.default : LiteralPrefix := ⟨false, false, false, false⟩

def apostrophe : Char := Char.ofNat 39

section Splitting

/-- The flags before the quote. -/
def readFlags : LiteralPrefix → List Char → Option (LiteralPrefix × List Char)
  | _, [] => none
  | flags, c :: rest =>
    if c = 'r' ∨ c = 'R' then readFlags { flags with raw := true } rest
    else if c = 'b' ∨ c = 'B' then readFlags { flags with bytes := true } rest
    else if c = 'f' ∨ c = 'F' then readFlags { flags with format := true } rest
    else if c = 'u' ∨ c = 'U' then readFlags { flags with unicode := true } rest
    else if c = apostrophe ∨ c = '"' then some (flags, c :: rest)
    else none

/-- The delimiters in the order in which they are tried. -/
def quotes : List (List Char) :=
  [['"', '"', '"'], [apostrophe, apostrophe, apostrophe], ['"'], [apostrophe]]

def splitLiteral (text : String) : Option (LiteralPrefix × String × String) := do
  let (flags, rest) ← readFlags .default text.toList
  let quote ← quotes.find? fun quote => quote.isPrefixOf rest
  let body := rest.drop quote.length
  if quote.isSuffixOf body then
    some (flags, String.ofList quote, String.ofList (body.take (body.length - quote.length)))
  else none

end Splitting

section Decoding

/-- What has been decoded, one of the two lists of which is used. -/
structure Decoded where
  text : List Char
  bytes : List UInt8

variable (asBytes : Bool)

def Decoded.push (c : Char) (out : Decoded) : Decoded :=
  if asBytes then { out with bytes := out.bytes ++ String.utf8EncodeChar c }
  else { out with text := out.text ++ [c] }

/-- `char::from_u32`. -/
def charOf (code : Nat) : Option Char :=
  if code.isValidChar then some (Char.ofNat code) else none

/-- The value of an octal or a `\\x` escape. -/
def Decoded.pushCode (code : Nat) (out : Decoded) : Option Decoded :=
  if asBytes then
    if code ≤ 0xff then some { out with bytes := out.bytes ++ [UInt8.ofNat code] } else none
  else (charOf code).map fun c => out.push false c

def simpleEscape (e : Char) : Option Char :=
  if e = '\\' ∨ e = apostrophe ∨ e = '"' then some e
  else if e = 'a' then some (Char.ofNat 7)
  else if e = 'b' then some (Char.ofNat 8)
  else if e = 'f' then some (Char.ofNat 12)
  else if e = 'n' then some '\n'
  else if e = 'r' then some '\r'
  else if e = 't' then some '\t'
  else if e = 'v' then some (Char.ofNat 11)
  else none

def octalValue (c : Char) : Option Nat :=
  if '0' ≤ c ∧ c ≤ '7' then some (c.toNat - 48) else none

/-- `take_hex` over as many characters as there are. -/
def hexNumber : Nat → List Char → Option Nat
  | value, [] => some value
  | value, c :: rest => (hexValue c).bind fun digit => hexNumber (value * 16 + digit) rest

def decodeChars : List Char → Decoded → Option Decoded
  | [], out => some out
  | c :: rest, out =>
    if c ≠ '\\' then decodeChars rest (out.push asBytes c)
    else match rest with
      | [] => none
      | e :: rest =>
        if e = '\n' then decodeChars rest out
        else match simpleEscape e, octalValue e with
          | some c, _ => decodeChars rest (out.push asBytes c)
          | none, some high =>
            match rest with
            | [] => (out.pushCode asBytes high).bind (decodeChars [])
            | d :: rest' =>
              match octalValue d with
              | none => (out.pushCode asBytes high).bind (decodeChars (d :: rest'))
              | some middle =>
                match rest' with
                | [] => (out.pushCode asBytes (high * 8 + middle)).bind (decodeChars [])
                | d' :: rest'' =>
                  match octalValue d' with
                  | none => (out.pushCode asBytes (high * 8 + middle)).bind
                      (decodeChars (d' :: rest''))
                  | some low => (out.pushCode asBytes ((high * 8 + middle) * 8 + low)).bind
                      (decodeChars rest'')
          | none, none =>
            if e = 'x' then
              match rest with
              | a :: b :: rest => (hexNumber 0 [a, b]).bind fun code =>
                  (out.pushCode asBytes code).bind (decodeChars rest)
              | _ => none
            else if e = 'u' ∧ !asBytes then
              match rest with
              | a :: b :: c :: d :: rest => (hexNumber 0 [a, b, c, d]).bind fun code =>
                  (charOf code).bind fun decoded => decodeChars rest (out.push asBytes decoded)
              | _ => none
            else if e = 'U' ∧ !asBytes then
              match rest with
              | a :: b :: c :: d :: a' :: b' :: c' :: d' :: rest =>
                (hexNumber 0 [a, b, c, d, a', b', c', d']).bind fun code =>
                  (charOf code).bind fun decoded => decodeChars rest (out.push asBytes decoded)
              | _ => none
            else if e = 'N' ∧ !asBytes then none
            else decodeChars rest ((out.push asBytes '\\').push asBytes e)

def decodeLiteralBody (flags : LiteralPrefix) (body : String) : Option LiteralValue :=
  if flags.raw then
    some (if flags.bytes then .bytes (body.toList.flatMap String.utf8EncodeChar) else .str body)
  else (decodeChars flags.bytes body.toList ⟨[], []⟩).map fun out =>
    if flags.bytes then .bytes out.bytes else .str (String.ofList out.text)

example : decodeLiteralBody .default "\\101\\x42\\u0043\\q" = some (.str "ABC\\q") := by
  decide +kernel

end Decoding

section Printing

/-- The code points that are not printable, as ranges; unassigned ones count as printable. -/
def unprintable : List (Nat × Nat) :=
  [(0x80, 0x9f), (0xa0, 0xa0), (0x1680, 0x1680), (0x2000, 0x200a), (0x202f, 0x202f),
    (0x205f, 0x205f), (0x3000, 0x3000), (0x2028, 0x2028), (0x2029, 0x2029), (0xad, 0xad),
    (0x600, 0x605), (0x61c, 0x61c), (0x6dd, 0x6dd), (0x70f, 0x70f), (0x890, 0x890),
    (0x891, 0x891), (0x8e2, 0x8e2), (0x180e, 0x180e), (0x200b, 0x200f), (0x202a, 0x202e),
    (0x2060, 0x2064), (0x2066, 0x206f), (0xfeff, 0xfeff), (0xfff9, 0xfffb), (0x110bd, 0x110bd),
    (0x110cd, 0x110cd), (0x13430, 0x1343f), (0x1bca0, 0x1bca3), (0x1d173, 0x1d17a),
    (0xe0001, 0xe0001), (0xe0020, 0xe007f), (0xd800, 0xdfff), (0xe000, 0xf8ff),
    (0xf0000, 0xffffd), (0x100000, 0x10fffd)]

def isPrintable (c : Char) : Bool :=
  let code := c.toNat
  if code < 0x80 then 0x20 ≤ code && code < 0x7f
  else !unprintable.any fun range => range.1 ≤ code && code ≤ range.2

/-- The last digits of a number in base sixteen, with leading zeros. -/
def hexDigits : Nat → Nat → List Char
  | 0, _ => []
  | width + 1, n => hexDigits width (n / 16) ++ [hexDigit (n % 16)]

def escapeCode (code : Nat) : List Char :=
  if code < 0x100 then '\\' :: 'x' :: hexDigits 2 code
  else if code < 0x10000 then '\\' :: 'u' :: hexDigits 4 code
  else '\\' :: 'U' :: hexDigits 8 code

def escapedChar (quote c : Char) : List Char :=
  if c = '\\' then ['\\', '\\']
  else if c = '\t' then ['\\', 't']
  else if c = '\n' then ['\\', 'n']
  else if c = '\r' then ['\\', 'r']
  else if c = quote then ['\\', c]
  else if isPrintable c then [c]
  else escapeCode c.toNat

/-- Double quotes only for a text with an apostrophe and without a double quote. -/
def quoteFor (hasApostrophe hasQuote : Bool) : Char :=
  if hasApostrophe && !hasQuote then '"' else apostrophe

def reprStr (value : String) : String :=
  let quote := quoteFor (value.toList.contains apostrophe) (value.toList.contains '"')
  String.ofList (quote :: value.toList.flatMap (escapedChar quote) ++ [quote])

def byteChar (byte : UInt8) : Char := Char.ofNat byte.toNat

def escapedByte (quote : Char) (byte : UInt8) : List Char :=
  let c := byteChar byte
  if c = '\\' then ['\\', '\\']
  else if c = '\t' then ['\\', 't']
  else if c = '\n' then ['\\', 'n']
  else if c = '\r' then ['\\', 'r']
  else if c = quote then ['\\', c]
  else if 0x20 ≤ byte.toNat ∧ byte.toNat ≤ 0x7e then [c]
  else '\\' :: 'x' :: hexDigits 2 byte.toNat

def reprBytes (value : List UInt8) : String :=
  let chars := value.map byteChar
  let quote := quoteFor (chars.contains apostrophe) (chars.contains '"')
  String.ofList ('b' :: quote :: value.flatMap (escapedByte quote) ++ [quote])

end Printing

end RemyCC.Python
