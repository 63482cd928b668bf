import Mathlib.Algebra.Order.Field.Rat
import Mathlib.Data.List.Range

/-!
# The similarity of two names

`sequence_ratio` counts the characters in matching blocks: the longest block
that two texts share, and the same again in the parts before it and behind it.
The ratio is taken as an exact rational.
-/

namespace RemyCC.Mcp

/-- The characters of a text, no more than a vector can hold. -/
structure Chars where
  list : List Char
  bounded : list.length < 2 ^ 63

structure Rect where
  alo : Nat
  ahi : Nat
  blo : Nat
  bhi : Nat
  deriving DecidableEq, Repr

structure Block where
  i : Nat
  j : Nat
  size : Nat
  deriving DecidableEq, Repr

section Longest

variable (a b : List Char)

/-- `b2j`: where a character stands, in increasing order. -/
def indices (c : Char) : List Nat := (List.range b.length).filter fun j => b[j]? == some c

/-- `j.wrapping_sub(1)`. -/
def wrappingPred (j : Nat) : Nat := if j = 0 then 2 ^ 64 - 1 else j - 1

/-- The lengths kept for the columns of a row, zero where none is, and the best block. -/
structure Scan where
  len : Nat → Nat
  best : Block

def Scan.cell (i : Nat) (old : Nat → Nat) (j : Nat) (st : Scan) : Scan :=
  let k := old (wrappingPred j) + 1
  { len := Function.update st.len j k
    best := if st.best.size < k then ⟨i + 1 - k, j + 1 - k, k⟩ else st.best }

def scanRow (r : Rect) (i : Nat) (old : Nat → Nat) : List Nat → Scan → Scan
  | [], st => st
  | j :: js, st =>
    if j < r.blo then scanRow r i old js st
    else if r.bhi ≤ j then st
    else scanRow r i old js (st.cell i old j)

def nextRow (r : Rect) (st : Scan) (row : Char × Nat) : Scan :=
  scanRow r row.2 st.len (indices b row.1) ⟨fun _ => 0, st.best⟩

def longestMatch (r : Rect) : Block :=
  (((a.zipIdx.take r.ahi).drop r.alo).foldl (nextRow b r)
    ⟨fun _ => 0, ⟨r.alo, r.blo, 0⟩⟩).best

end Longest

section Loop

/-- What is still to be explored, and what has been found: each rectangle with
the block that was chosen in it. -/
structure Search where
  queue : List Rect
  explored : List (Rect × Block)
  matched : Nat

def Rect.before (r : Rect) (m : Block) : Rect := ⟨r.alo, m.i, r.blo, m.j⟩

def Rect.behind (r : Rect) (m : Block) : Rect := ⟨m.i + m.size, r.ahi, m.j + m.size, r.bhi⟩

variable (a b : List Char)

/-- One turn of the loop, none once nothing is left to explore. -/
def Search.step (s : Search) : Option Search :=
  match s.queue with
  | [] => none
  | r :: rest =>
    let m := longestMatch a b r
    some
      { queue := if 0 < m.size then r.behind m :: r.before m :: rest else rest
        explored := s.explored ++ [(r, m)]
        matched := if 0 < m.size then s.matched + m.size else s.matched }

/-- The loop, if the turns suffice. -/
def Search.run : Nat → Search → Option Search
  | 0, _ => none
  | turns + 1, s =>
    match s.step a b with
    | none => some s
    | some s => run turns s

def Search.start : Search := ⟨[⟨0, a.length, 0, b.length⟩], [], 0⟩

end Loop

def enoughTurns (a : Chars) : Nat := 2 * a.list.length + 2

def sequenceRatio (a b : Chars) : Option ℚ :=
  if a.list = [] ∧ b.list = [] then some 1
  else ((Search.start a.list b.list).run a.list b.list (enoughTurns a)).map fun s =>
    2 * s.matched / (a.list.length + b.list.length)

example : ((Search.start ['a', 'b', 'c', 'd'] ['b', 'c', 'd', 'e']).run ['a', 'b', 'c', 'd']
    ['b', 'c', 'd', 'e'] 10).map Search.matched = some 3 := by decide +kernel

end RemyCC.Mcp
