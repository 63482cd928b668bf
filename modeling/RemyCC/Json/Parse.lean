import RemyCC.Json.Print

/-!
# Reading a JSON text

What `serde_json::from_str` reads: one value between blanks and nothing after
it, nested less deep than the recursion limit. The recursion is on the depth
still allowed, and a list of items is read in at most as many turns as
characters are left.
-/

namespace RemyCC.Json

abbrev Reader (α : Type) := List Char → Option (α × List Char)

def isBlank (c : Char) : Bool := c == ' ' || c == '\n' || c == '\t' || c == '\r'

def skipBlanks (text : List Char) : List Char := text.dropWhile isBlank

def hexValue (c : Char) : Option Nat :=
  if '0' ≤ c ∧ c ≤ '9' then some (c.toNat - 48)
  else if 'a' ≤ c ∧ c ≤ 'f' then some (c.toNat - 87)
  else if 'A' ≤ c ∧ c ≤ 'F' then some (c.toNat - 55)
  else none

def hexFour (a b c d : Char) : Option Nat := do
  let a ← hexValue a
  let b ← hexValue b
  let c ← hexValue c
  let d ← hexValue d
  return ((a * 16 + b) * 16 + c) * 16 + d

def unescape : Char → Option Char
  | '"' => some '"'
  | '\\' => some '\\'
  | '/' => some '/'
  | 'b' => some (Char.ofNat 8)
  | 'f' => some (Char.ofNat 12)
  | 'n' => some '\n'
  | 'r' => some '\r'
  | 't' => some '\t'
  | _ => none

def prepend (c : Char) : Option (List Char × List Char) → Option (List Char × List Char)
  | some (s, rest) => some (c :: s, rest)
  | none => none

/-- The characters up to the closing quote. A code unit of the upper surrogate
half has to be followed by one of the lower half. -/
def readString : Reader (List Char)
  | '"' :: rest => some ([], rest)
  | '\\' :: 'u' :: a :: b :: c :: d :: rest =>
    match hexFour a b c d with
    | none => none
    | some unit =>
      if unit < 0xd800 ∨ 0xdfff < unit then prepend (Char.ofNat unit) (readString rest)
      else match rest with
        | '\\' :: 'u' :: a' :: b' :: c' :: d' :: rest' =>
          match hexFour a' b' c' d' with
          | none => none
          | some low =>
            if unit < 0xdc00 ∧ 0xdc00 ≤ low ∧ low ≤ 0xdfff then
              prepend (Char.ofNat (0x10000 + (unit - 0xd800) * 0x400 + (low - 0xdc00)))
                (readString rest')
            else none
        | _ => none
  | '\\' :: e :: rest =>
    match unescape e with
    | some c => prepend c (readString rest)
    | none => none
  | c :: rest => if c.toNat < 32 ∨ c = '\\' then none else prepend c (readString rest)
  | [] => none

def takeDigits (text : List Char) : List Char × List Char :=
  (text.takeWhile Char.isDigit, text.dropWhile Char.isDigit)

/-- An exponent, if the text goes on with one; its marker then has to be
followed by a digit. -/
def readExponent (text : List Char) : Option (List Char × List Char) :=
  match text with
  | e :: rest =>
    if e = 'e' ∨ e = 'E' then
      let (sign, rest) := match rest with
        | '+' :: rest => (['+'], rest)
        | '-' :: rest => (['-'], rest)
        | _ => ([], rest)
      match takeDigits rest with
      | ([], _) => none
      | (digits, rest) => some (e :: (sign ++ digits), rest)
    else some ([], text)
  | [] => some ([], [])

def readFraction (text : List Char) : Option (List Char × List Char) :=
  match text with
  | '.' :: rest =>
    match takeDigits rest with
    | ([], _) => none
    | (digits, rest) => some ('.' :: digits, rest)
  | _ => some ([], text)

/-- An integer literal is one of the machine's integers or else, like minus
zero and every literal with a fraction or an exponent, a floating-point number. -/
def numberValue (negative : Bool) (digits more : List Char) : Value :=
  let n := Nat.ofDigitChars 10 digits 0
  if more = [] ∧ negative = false ∧ n < 2 ^ 64 then .int n
  else if more = [] ∧ negative = true ∧ 0 < n ∧ n ≤ 2 ^ 63 then .int (-n)
  else .float (String.ofList ((if negative then ['-'] else []) ++ digits ++ more))

def readMagnitude (negative : Bool) (text : List Char) : Option (Value × List Char) :=
  match takeDigits text with
  | ([], _) => none
  | (digits, rest) =>
    if digits.head? = some '0' ∧ digits ≠ ['0'] then none
    else
      match readFraction rest with
      | none => none
      | some (fraction, rest) =>
        match readExponent rest with
        | none => none
        | some (exponent, rest) => some (numberValue negative digits (fraction ++ exponent), rest)

def readNumber : Reader Value
  | '-' :: rest => readMagnitude true rest
  | text => readMagnitude false text

/-- Items after the first, up to the closing bracket, each behind a comma. -/
def readMore {α : Type} (close : Char) (item : Reader α) : Nat → Reader (List α)
  | 0, _ => none
  | turns + 1, text =>
    match skipBlanks text with
    | c :: rest =>
      if c = close then some ([], rest)
      else if c = ',' then
        match item (skipBlanks rest) with
        | some (a, rest) =>
          match readMore close item turns rest with
          | some (as, rest) => some (a :: as, rest)
          | none => none
        | none => none
      else none
    | [] => none

def readItems {α : Type} (close : Char) (item : Reader α) (text : List Char) :
    Option (List α × List Char) :=
  match skipBlanks text with
  | c :: rest =>
    if c = close then some ([], rest)
    else match item (c :: rest) with
      | some (a, rest) =>
        match readMore close item (rest.length + 1) rest with
        | some (as, rest) => some (a :: as, rest)
        | none => none
      | none => none
  | [] => none

def readMember (value : Reader Value) : Reader (String × Value)
  | '"' :: rest =>
    match readString rest with
    | some (key, rest) =>
      match skipBlanks rest with
      | ':' :: rest =>
        match value (skipBlanks rest) with
        | some (v, rest) => some ((String.ofList key, v), rest)
        | none => none
      | _ => none
    | none => none
  | _ => none

def objectOf (members : List (String × Value)) : Value :=
  .obj (members.foldl (fun fields m => Value.setField m.1 m.2 fields) [])

def readValue : Nat → Reader Value
  | _, 'n' :: 'u' :: 'l' :: 'l' :: rest => some (.null, rest)
  | _, 't' :: 'r' :: 'u' :: 'e' :: rest => some (.bool true, rest)
  | _, 'f' :: 'a' :: 'l' :: 's' :: 'e' :: rest => some (.bool false, rest)
  | _, '"' :: rest => (readString rest).map fun r => (.str (String.ofList r.1), r.2)
  | depth + 1, '[' :: rest =>
    (readItems ']' (readValue depth) rest).map fun r => (.arr r.1, r.2)
  | depth + 1, '{' :: rest =>
    (readItems '}' (readMember (readValue depth)) rest).map fun r => (objectOf r.1, r.2)
  | _, '[' :: _ => none
  | _, '{' :: _ => none
  | _, text => readNumber text

def readText (depth : Nat) (text : String) : Option Value :=
  match readValue depth (skipBlanks text.toList) with
  | some (v, rest) => if skipBlanks rest = [] then some v else none
  | none => none

/-- The recursion limit is 128: a container inside 127 others is refused. -/
def parse (text : String) : Option Value := readText 127 text

example : (parse " \x7b \"a\" : [1 , -2, \"\\u00e9\\n\"], \"a\": null, \"b\":0\x7d ").map print =
    some "\x7b\"a\":null,\"b\":0\x7d" := by decide +kernel

end RemyCC.Json
