import RemyCC.Text
import RemyCC.Text.Pattern

/-!
# The tokens of a symbol name

`hashes::tokenize_symbol` puts the spaces between the words of a name with two
regular expressions, a run of blanks becoming one space.
-/

namespace RemyCC.Index

open Text

def isAsciiLower (c : Char) : Bool := 'a' ≤ c && c ≤ 'z'

def isAsciiUpper (c : Char) : Bool := 'A' ≤ c && c ≤ 'Z'

/-- `([a-z])([A-Z])`. -/
def lowerUpper : List Char → Option (Nat × List Char) :=
  spaceGroups (.one isAsciiLower) (.one isAsciiUpper)

/-- `([A-Z]+)([A-Z][a-z])`. -/
def acronym : List Char → Option (Nat × List Char) :=
  spaceGroups (.many isAsciiUpper) (.seq (.one isAsciiUpper) (.one isAsciiLower))

/-- `\s+`. -/
def whitespaceRun : List Char → Option (Nat × List Char) :=
  replaceWith [' '] (.many isWhitespace)

def tokenizeSymbol (name : String) : String :=
  let value := (replaceAll "::" " " (replaceChar '_' ' ' name)).toList
  let value := replaceMatches lowerUpper 0 value
  let value := replaceMatches acronym 0 value
  trim (String.ofList (replaceMatches whitespaceRun 0 value))

example : tokenizeSymbol "ns::HTTPServer_parseURLNow" = "ns HTTP Server parse URL Now" := by
  decide +kernel

end RemyCC.Index
