import Mathlib.Data.List.Basic

/-!
# Regular expressions with groups

A backtracking search tries the alternatives of an expression in order, hands
each place that is reached to what follows, and takes the first success.
-/

namespace RemyCC.Text

/-- The classes `\w` and `\d`, which go by the tables of Unicode. -/
structure CharClasses where
  word : Char → Bool
  digit : Char → Bool

def CharClasses.ascii : CharClasses where
  word c := c.isAlphanum || c == '_'
  digit := Char.isDigit

/-- A place in a text, with the groups that were taken on the way, the latest
one first. The characters before the place are in reverse. -/
structure Cursor where
  before : List Char
  rest : List Char
  groups : List (Nat × List Char)
  deriving DecidableEq, Repr

inductive Regex where
  | empty
  | one (p : Char → Bool)
  | start
  | stop
  | lineStart
  | boundary (word : Char → Bool)
  | seq (first second : Regex)
  | alt (first second : Regex)
  | many (greedy : Bool) (r : Regex)
  | group (index : Nat) (r : Regex)

namespace Regex

/-- Repetitions that each take something, as many or as few as possible. -/
def repeated (greedy : Bool) (step : (Cursor → Option Cursor) → Cursor → Option Cursor)
    (next : Cursor → Option Cursor) : Nat → Cursor → Option Cursor
  | 0, c => next c
  | fuel + 1, c =>
    let more (d : Cursor) : Option Cursor :=
      if d.rest.length < c.rest.length then repeated greedy step next fuel d else none
    if greedy then
      match step more c with
      | some m => some m
      | none => next c
    else
      match next c with
      | some m => some m
      | none => step more c

/-- What was passed from one place to a later one. -/
def taken (c d : Cursor) : List Char :=
  (d.before.take (d.before.length - c.before.length)).reverse

def attempt : Regex → (Cursor → Option Cursor) → Cursor → Option Cursor
  | .empty, next, c => next c
  | .one p, next, c =>
    match c.rest with
    | [] => none
    | x :: rest => if p x then next { c with before := x :: c.before, rest := rest } else none
  | .start, next, c => if c.before.isEmpty then next c else none
  | .stop, next, c => if c.rest.isEmpty then next c else none
  | .lineStart, next, c => if c.before.head?.all (· == '\n') then next c else none
  | .boundary word, next, c =>
    if c.before.head?.any word != c.rest.head?.any word then next c else none
  | .seq first second, next, c => first.attempt (second.attempt next) c
  | .alt first second, next, c =>
    match first.attempt next c with
    | some m => some m
    | none => second.attempt next c
  | .many greedy r, next, c => repeated greedy r.attempt next c.rest.length c
  | .group index r, next, c =>
    r.attempt (fun d => next { d with groups := (index, taken c d) :: d.groups }) c

section Combinators

def char (c : Char) : Regex := .one (· == c)

def word (text : String) : Regex := text.toList.foldr (fun c r => .seq (char c) r) .empty

def seqs (parts : List Regex) : Regex := parts.foldr .seq .empty

def alts (first : Regex) (others : List Regex) : Regex :=
  match others with
  | [] => first
  | second :: others => .alt first (alts second others)

def star (r : Regex) : Regex := .many true r

def plus (r : Regex) : Regex := .seq r (star r)

def lazyStar (r : Regex) : Regex := .many false r

def opt (r : Regex) : Regex := .alt r .empty

end Combinators

/-- A match with the texts on either side. -/
structure Found where
  before : List Char
  text : List Char
  rest : List Char
  groups : List (Nat × List Char)
  deriving DecidableEq, Repr

def Found.group? (m : Found) (index : Nat) : Option (List Char) :=
  (m.groups.find? fun g => g.1 == index).map Prod.snd

/-- A group that every match takes. -/
def Found.group (m : Found) (index : Nat) : String := String.ofList ((m.group? index).getD [])

def matchHere (r : Regex) (before text : List Char) : Option Found :=
  (r.attempt some ⟨before, text, []⟩).map fun c =>
    ⟨before.reverse, taken ⟨before, text, []⟩ c, c.rest, c.groups⟩

/-- `captures_iter`, for an expression whose matches are not empty. The characters
of a match that are still to be passed over are counted. -/
def matchesFrom (r : Regex) : Nat → List Char → List Char → List Found
  | _, _, [] => []
  | skip + 1, before, c :: rest => matchesFrom r skip (c :: before) rest
  | 0, before, c :: rest =>
    match matchHere r before (c :: rest) with
    | some m => m :: matchesFrom r (m.text.length - 1) (c :: before) rest
    | none => matchesFrom r 0 (c :: before) rest

def findAll (r : Regex) (text : List Char) : List Found := matchesFrom r 0 [] text

/-- `captures`. -/
def findFirst (r : Regex) (text : List Char) : Option Found := (findAll r text).head?

/-- `replace_all`. -/
def replaceFrom (r : Regex) (new : Found → List Char) : Nat → List Char → List Char → List Char
  | _, _, [] => []
  | skip + 1, before, c :: rest => replaceFrom r new skip (c :: before) rest
  | 0, before, c :: rest =>
    match matchHere r before (c :: rest) with
    | some m => new m ++ replaceFrom r new (m.text.length - 1) (c :: before) rest
    | none => c :: replaceFrom r new 0 (c :: before) rest

end Regex

end RemyCC.Text
