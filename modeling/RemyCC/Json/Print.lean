import RemyCC.Json.Value

/-!
# The text of a JSON value

Two styles of one printer: what `serde_json` writes, with no blanks and only
the quote, the backslash and the control characters below U+0020 escaped, and
what Python's `json.dumps` writes by default, with a blank after each
separator and every character outside ASCII escaped.
-/

namespace RemyCC.Json

structure Style where
  itemSep : List Char
  keySep : List Char
  escape : Char → List Char

def hexDigit (n : Nat) : Char := Nat.digitChar n

def escapeUnit (unit : Nat) : List Char :=
  ['\\', 'u', hexDigit (unit / 4096), hexDigit (unit / 256 % 16), hexDigit (unit / 16 % 16),
    hexDigit (unit % 16)]

def escapeChar (c : Char) : List Char :=
  if c = '"' then ['\\', '"']
  else if c = '\\' then ['\\', '\\']
  else if c.toNat = 8 then ['\\', 'b']
  else if c.toNat = 12 then ['\\', 'f']
  else if c = '\n' then ['\\', 'n']
  else if c = '\r' then ['\\', 'r']
  else if c = '\t' then ['\\', 't']
  else if c.toNat < 32 then escapeUnit c.toNat
  else [c]

/-- Characters above U+FFFF become a pair of surrogate code units. -/
def escapeAscii (c : Char) : List Char :=
  if c.toNat ≤ 0x7f then escapeChar c
  else if c.toNat ≤ 0xffff then escapeUnit c.toNat
  else
    let v := c.toNat - 0x10000
    escapeUnit (0xd800 + v / 0x400) ++ escapeUnit (0xdc00 + v % 0x400)

def compact : Style where
  itemSep := [',']
  keySep := [':']
  escape := escapeChar

@[simp]
theorem compact_itemSep : compact.itemSep = [','] := rfl

@[simp]
theorem compact_keySep : compact.keySep = [':'] := rfl

@[simp]
theorem compact_escape : compact.escape = escapeChar := rfl

def pythonDefault : Style where
  itemSep := [',', ' ']
  keySep := [':', ' ']
  escape := escapeAscii

def quote (style : Style) (s : String) : List Char :=
  '"' :: (s.toList.flatMap style.escape ++ ['"'])

def printInt : Int → List Char
  | .ofNat n => Nat.toDigits 10 n
  | .negSucc n => '-' :: Nat.toDigits 10 (n + 1)

section Printer

variable (style : Style)

mutual
def printChars : Value → List Char
  | .null => ['n', 'u', 'l', 'l']
  | .bool true => ['t', 'r', 'u', 'e']
  | .bool false => ['f', 'a', 'l', 's', 'e']
  | .int n => printInt n
  | .float literal => literal.toList
  | .str s => quote style s
  | .arr items => '[' :: (printItems items ++ [']'])
  | .obj fields => '{' :: (printFields fields ++ ['}'])

def printItems : List Value → List Char
  | [] => []
  | v :: rest => printChars v ++ printMoreItems rest

def printMoreItems : List Value → List Char
  | [] => []
  | v :: rest => style.itemSep ++ (printChars v ++ printMoreItems rest)

def printFields : List (String × Value) → List Char
  | [] => []
  | f :: rest => printField f ++ printMoreFields rest

def printMoreFields : List (String × Value) → List Char
  | [] => []
  | f :: rest => style.itemSep ++ (printField f ++ printMoreFields rest)

def printField : String × Value → List Char
  | (key, v) => quote style key ++ (style.keySep ++ printChars v)
end

end Printer

def print (v : Value) : String := String.ofList (printChars compact v)

/-- `pyjson::dumps_default`. -/
def dumpsDefault (v : Value) : String := String.ofList (printChars pythonDefault v)

example : dumpsDefault (.obj [("a", .arr [.int 1, .null]), ("b", .str "é")]) =
    "\x7b\"a\": [1, null], \"b\": \"\\u00e9\"\x7d" := by decide +kernel

end RemyCC.Json
