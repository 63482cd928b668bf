import RemyCC.Json.Parse

/-!
# Python's JSON reader

What `json.loads` makes of a text, as CPython's scanner reads it. It also takes
`NaN` and `Infinity` and surrogates that stand alone, and it raises errors of
their own where a text is nested too deep or an integer has too many digits.
-/

namespace RemyCC.Python

open Json (hexFour skipBlanks takeDigits unescape)

inductive LoadError where
  | decode
  | raised
  deriving DecidableEq, Repr

/-- What is loaded, with strings as their code points. No caller looks at a number. -/
inductive Loaded where
  | null
  | bool (b : Bool)
  | number
  | str (points : List Nat)
  | list (items : List Loaded)
  | dict (members : List (List Nat × Loaded))
  deriving Inhabited, Repr

/-- How deep the interpreter recurses and how long an integer it converts. -/
structure Limits where
  nesting : Nat
  digits : Nat

abbrev Scanner (α : Type) := List Char → Except LoadError (α × List Char)

section Strings

/-- The code units up to the closing quote, an escape being one of them. -/
def scanUnits : List Char → Option (List Nat × List Char)
  | '"' :: rest => some ([], rest)
  | '\\' :: 'u' :: a :: b :: c :: d :: rest => do
    let unit ← hexFour a b c d
    let (units, rest) ← scanUnits rest
    return (unit :: units, rest)
  | '\\' :: e :: rest => do
    let c ← unescape e
    let (units, rest) ← scanUnits rest
    return (c.toNat :: units, rest)
  | c :: rest =>
    if c.toNat ≤ 0x1f ∨ c = '\\' then none
    else do
      let (units, rest) ← scanUnits rest
      return (c.toNat :: units, rest)
  | [] => none

/-- A high surrogate and the low one behind it are one code point. -/
def joinSurrogates : List Nat → List Nat
  | high :: low :: rest =>
    if 0xd800 ≤ high ∧ high ≤ 0xdbff ∧ 0xdc00 ≤ low ∧ low ≤ 0xdfff then
      (0x10000 + (high - 0xd800) * 0x400 + (low - 0xdc00)) :: joinSurrogates rest
    else high :: joinSurrogates (low :: rest)
  | units => units

def scanString : Scanner (List Nat) := fun text =>
  match scanUnits text with
  | some (units, rest) => .ok (joinSurrogates units, rest)
  | none => .error .decode

end Strings

section Numbers

/-- The fraction is part of the number where a digit follows the point. -/
def skipFraction (text : List Char) : Bool × List Char :=
  match text with
  | '.' :: rest =>
    match takeDigits rest with
    | ([], _) => (false, text)
    | (_, rest) => (true, rest)
  | _ => (false, text)

def skipSign : List Char → List Char
  | '+' :: rest => rest
  | '-' :: rest => rest
  | text => text

def skipExponent (text : List Char) : Bool × List Char :=
  match text with
  | e :: rest =>
    if e = 'e' ∨ e = 'E' then
      match takeDigits (skipSign rest) with
      | ([], _) => (false, text)
      | (_, rest) => (true, rest)
    else (false, text)
  | [] => (false, [])

/-- The digits before the point: a zero stands alone. -/
def scanDigits (text : List Char) : List Char × List Char :=
  match text with
  | '0' :: rest => (['0'], rest)
  | _ => takeDigits text

def scanMagnitude (limits : Limits) : Scanner Loaded := fun text =>
  match scanDigits text with
  | ([], _) => .error .decode
  | (digits, rest) =>
    let (fraction, rest) := skipFraction rest
    let (exponent, rest) := skipExponent rest
    if !fraction && !exponent && limits.digits < digits.length then .error .raised
    else .ok (.number, rest)

def scanNumber (limits : Limits) : Scanner Loaded
  | '-' :: rest => scanMagnitude limits rest
  | text => scanMagnitude limits text

end Numbers

section Values

variable {α : Type}

def scanMore (close : Char) (item : Scanner α) : Nat → Scanner (List α)
  | 0, _ => .error .decode
  | turns + 1, text =>
    match skipBlanks text with
    | c :: rest =>
      if c = close then .ok ([], rest)
      else if c = ',' then do
        let (first, rest) ← item (skipBlanks rest)
        let (more, rest) ← scanMore close item turns rest
        return (first :: more, rest)
      else .error .decode
    | [] => .error .decode

def scanItems (close : Char) (item : Scanner α) : Scanner (List α) := fun text =>
  match skipBlanks text with
  | c :: rest =>
    if c = close then .ok ([], rest)
    else do
      let (first, rest) ← item (c :: rest)
      let (more, rest) ← scanMore close item (rest.length + 1) rest
      return (first :: more, rest)
  | [] => .error .decode

def scanMember (value : Scanner α) : Scanner (List Nat × α)
  | '"' :: rest => do
    let (key, rest) ← scanString rest
    match skipBlanks rest with
    | ':' :: rest =>
      let (v, rest) ← value (skipBlanks rest)
      return ((key, v), rest)
    | _ => .error .decode
  | _ => .error .decode

variable (limits : Limits)

/-- `scan_once`: a container is entered as long as the interpreter may recurse. -/
def scanOnce : Nat → Scanner Loaded
  | _, '"' :: rest => do
    let (points, rest) ← scanString rest
    return (.str points, rest)
  | depth + 1, '{' :: rest => do
    let (members, rest) ← scanItems '}' (scanMember (scanOnce depth)) rest
    return (.dict members, rest)
  | depth + 1, '[' :: rest => do
    let (items, rest) ← scanItems ']' (scanOnce depth) rest
    return (.list items, rest)
  | _, '{' :: _ => .error .raised
  | _, '[' :: _ => .error .raised
  | _, 'n' :: 'u' :: 'l' :: 'l' :: rest => .ok (.null, rest)
  | _, 't' :: 'r' :: 'u' :: 'e' :: rest => .ok (.bool true, rest)
  | _, 'f' :: 'a' :: 'l' :: 's' :: 'e' :: rest => .ok (.bool false, rest)
  | _, 'N' :: 'a' :: 'N' :: rest => .ok (.number, rest)
  | _, 'I' :: 'n' :: 'f' :: 'i' :: 'n' :: 'i' :: 't' :: 'y' :: rest => .ok (.number, rest)
  | _, '-' :: 'I' :: 'n' :: 'f' :: 'i' :: 'n' :: 'i' :: 't' :: 'y' :: rest => .ok (.number, rest)
  | _, text => scanNumber limits text

def loads (text : String) : Except LoadError Loaded :=
  if text.toList.head? = some (Char.ofNat 0xfeff) then .error .decode
  else do
    let (v, rest) ← scanOnce limits limits.nesting (skipBlanks text.toList)
    if skipBlanks rest = [] then return v else .error .decode

end Values

section Members

/-- `payload.get`: of members with one key the last counts. -/
def Loaded.get (members : List (List Nat × Loaded)) (key : String) : Option Loaded :=
  (members.reverse.find? fun m => m.1 == key.toList.map Char.toNat).map Prod.snd

def Loaded.asStr : Loaded → Option (List Nat)
  | .str points => some points
  | _ => none

/-- `str.isspace`. -/
def isSpace (n : Nat) : Bool :=
  (9 ≤ n && n ≤ 13) || (0x1c ≤ n && n ≤ 0x20) || n == 0x85 || n == 0xa0 || n == 0x1680 ||
    (0x2000 ≤ n && n ≤ 0x200a) || n == 0x2028 || n == 0x2029 || n == 0x202f || n == 0x205f ||
    n == 0x3000

def strip (points : List Nat) : List Nat :=
  ((points.dropWhile isSpace).reverse.dropWhile isSpace).reverse

end Members

example : (loads ⟨900, 4300⟩ " [NaN, -Infinity, 1.5e3] ").isOk = true ∧
    (loads ⟨1, 4300⟩ "[[]]").isOk = false ∧ (loads ⟨900, 4300⟩ "[01]").isOk = false := by
  decide +kernel

end RemyCC.Python
