import RemyCC.Discovery.Walk
import RemyCC.Relational.Query
import RemyCC.Text.Lexemes

/-!
# The hash of a symbol

Comments are taken out of the segment of a symbol, then all blanks, and the rest
is hashed. For all languages but one the comments are searched for with regular
expressions; Rust segments are parsed again. The digest is a parameter.
-/

namespace RemyCC.Index

open Text Discovery Relational

/-- Positions are counted in characters, where the parser counts bytes. -/
inductive SyntaxTree where
  | node (kind : String) (start stop : Nat) (children : List SyntaxTree)

def isPythonWhitespace (c : Char) : Bool :=
  isWhitespace c || (0x1c ≤ c.toNat && c.toNat ≤ 0x1f)

def symbolHash {δ : Type} (md5Hex : ByteArray → δ) (hashInput : String) : δ :=
  md5Hex (String.ofList (hashInput.toList.filter (!isPythonWhitespace ·))).toUTF8

section HashInput

/-- Line comments go first, wherever they seem to stand, then block comments. -/
def stripSlashed (segment : String) : String :=
  String.ofList (stripBlocks (stripLines ['/', '/'] segment.toList))

example : stripSlashed "open(\"http://a\"); // b" = "open(\"http:" := by decide +kernel

namespace ParseCCpp

def symbolHashInput (sourceSegment : String) : String := stripSlashed sourceSegment

end ParseCCpp

namespace ParseTs

def symbolHashInput (sourceSegment : String) : String := stripSlashed sourceSegment

end ParseTs

namespace ParsePython

def symbolHashInput (sourceSegment : String) : String :=
  String.ofList (stripLines ['#'] sourceSegment.toList)

end ParsePython

namespace ParseRust

def commentNodeTypes : List String := ["line_comment", "block_comment"]

mutual
def collectCommentRanges : SyntaxTree → List (Nat × Nat)
  | .node kind start stop children =>
    if kind ∈ commentNodeTypes then [(start, stop)] else collectAll children

def collectAll : List SyntaxTree → List (Nat × Nat)
  | [] => []
  | tree :: trees => collectCommentRanges tree ++ collectAll trees
end

def commentRanges (tree : SyntaxTree) : List (Nat × Nat) :=
  orderBy (fun a b => (compare a.1 b.1).then (compare a.2 b.2)) (collectCommentRanges tree)

def symbolHashInput (parse : String → Option SyntaxTree) (sourceSegment : String) : String :=
  match parse sourceSegment with
  | none => sourceSegment
  | some tree =>
    if commentRanges tree = [] then sourceSegment
    else String.ofList (splice 0 sourceSegment.toList (commentRanges tree))

end ParseRust

/-- The trees that Rust segments are parsed to are given. -/
def symbolHashInput (parse : String → Option SyntaxTree) (language : Language)
    (sourceSegment : String) : String :=
  match language with
  | .cCpp => ParseCCpp.symbolHashInput sourceSegment
  | .python => ParsePython.symbolHashInput sourceSegment
  | .ts => ParseTs.symbolHashInput sourceSegment
  | .rust => ParseRust.symbolHashInput parse sourceSegment

end HashInput

section Segments

def lineOpener : Language → List Char
  | .python => ['#']
  | _ => ['/', '/']

/-- A block comment of Rust may hold others. -/
def blockComment (language : Language) (text : List Char) : Prop :=
  match language with
  | .python => False
  | .rust => ['/', '*'] <+: text ∧ ['*', '/'] <:+ text
  | _ => BlockComment text

instance (text : List Char) : ∀ language, Decidable (blockComment language text)
  | .cCpp => inferInstanceAs (Decidable (BlockComment text))
  | .python => isFalse not_false
  | .ts => inferInstanceAs (Decidable (BlockComment text))
  | .rust => inferInstanceAs (Decidable (_ ∧ _))

/-- A lexeme that is a comment is one of the language, and a blank one is blank. -/
def wellFormedAt (language : Language) : Lexeme → List Char → Prop
  | .line text, rest => LineComment (lineOpener language) text rest
  | .block text, _ => blockComment language text
  | .blank text, _ => text.all isPythonWhitespace = true
  | .token _, _ => True

instance (language : Language) : ∀ x rest, Decidable (wellFormedAt language x rest)
  | .line text, rest => inferInstanceAs (Decidable (LineComment (lineOpener language) text rest))
  | .block text, _ => inferInstanceAs (Decidable (blockComment language text))
  | .blank text, _ => inferInstanceAs (Decidable (text.all isPythonWhitespace = true))
  | .token _, _ => isTrue trivial

/-- The lexemes of a segment; a token of Python may be a line end or an indent. -/
def WellFormed (language : Language) (lexemes : List Lexeme) : Prop :=
  Along (wellFormedAt language) lexemes

/-- No comment seems to open within a lexeme other than a line comment, nor, when these have
gone, within one other than a block comment. -/
def SlashesPlain (lexemes : List Lexeme) : Prop :=
  Along (fun x rest => x.isLine = false → Unopened ['/', '/'] x.text rest) lexemes ∧
    Along (fun x rest => x.isBlock = false → Unopened ['/', '*'] x.text rest)
      (lexemes.filter (!Lexeme.isLine ·))

/-- What the search for comments finds in a segment are its comments. -/
def Plain (parse : String → Option SyntaxTree) (language : Language) (lexemes : List Lexeme) :
    Prop :=
  match language with
  | .python => Along (fun x rest => x.isLine = false → Unopened ['#'] x.text rest) lexemes
  | .rust => (parse (String.ofList (textOf lexemes))).map ParseRust.commentRanges =
      some (commentSpans 0 lexemes)
  | _ => SlashesPlain lexemes

/-- The tokens one after the other, without blanks. -/
def bare (tokens : List (List Char)) : List Char := tokens.flatten.filter (!isPythonWhitespace ·)

def segmentHash {δ : Type} (md5Hex : ByteArray → δ) (parse : String → Option SyntaxTree)
    (language : Language) (lexemes : List Lexeme) : δ :=
  symbolHash md5Hex (symbolHashInput parse language (String.ofList (textOf lexemes)))

end Segments

section Hashes

variable {language : Language} {lexemes : List Lexeme} {parse : String → Option SyntaxTree}

theorem filter_withoutComments (h : WellFormed language lexemes) :
    (textOf (withoutComments lexemes)).filter (!isPythonWhitespace ·) =
      bare (tokensOf lexemes) := by
  unfold bare
  induction lexemes with
  | nil => rfl
  | cons x lexemes ih =>
    obtain ⟨hx, hrest⟩ := h
    have hih := ih hrest
    cases x with
    | line text => exact hih
    | block text => exact hih
    | blank text =>
      have hblank : text.filter (!isPythonWhitespace ·) = [] := by
        refine List.filter_eq_nil_iff.mpr fun c hc => ?_
        rw [List.all_eq_true.mp hx c hc]
        decide
      change (text ++ textOf (withoutComments lexemes)).filter _ = _
      rw [List.filter_append, hblank, List.nil_append, hih]
      rfl
    | token text =>
      change (text ++ textOf (withoutComments lexemes)).filter _ =
        (text ++ (tokensOf lexemes).flatten).filter _
      rw [List.filter_append, List.filter_append, hih]

theorem withoutComments_eq (lexemes : List Lexeme) : withoutComments lexemes =
    (lexemes.filter (!Lexeme.isLine ·)).filter (!Lexeme.isBlock ·) := by
  rw [List.filter_filter]
  refine List.filter_congr fun x _ => ?_
  rw [Bool.not_or, Bool.and_comm]

theorem mem_of_wellFormed (h : WellFormed language lexemes) {text : List Char}
    (hx : Lexeme.block text ∈ lexemes) : blockComment language text := by
  have hall : ∀ x ∈ lexemes, x.isBlock = true → blockComment language x.text := by
    refine along_const.mp (h.mono fun x _ rest hwell hblock => ?_)
    cases x with
    | block text => exact hwell
    | _ => cases hblock
  exact hall _ hx rfl

theorem along_lines (h : WellFormed language lexemes) :
    Along (fun x rest => x.isLine = true → LineComment (lineOpener language) x.text rest)
      lexemes := by
  refine h.mono fun x _ rest hwell hline => ?_
  cases x with
  | line text => exact hwell
  | _ => cases hline

theorem stripSlashed_textOf (hblocks : ∀ text, Lexeme.block text ∈ lexemes → BlockComment text)
    (hlines : Along (fun x rest => x.isLine = true → LineComment ['/', '/'] x.text rest) lexemes)
    (hplain : SlashesPlain lexemes) :
    stripSlashed (String.ofList (textOf lexemes)) =
      String.ofList (textOf (withoutComments lexemes)) := by
  have hfirst := stripLines_textOf (List.cons_ne_nil '/' ['/']) (hlines.and hplain.1)
  have hshape : Along (fun x _ => x.isBlock = true → BlockComment x.text)
      (lexemes.filter (!Lexeme.isLine ·)) := by
    refine along_const.mpr fun x hx hblock => ?_
    cases x with
    | block text => exact hblocks text (List.mem_filter.mp hx).1
    | _ => cases hblock
  have hsecond := stripBlocks_textOf (hshape.and hplain.2)
  rw [stripSlashed, String.toList_ofList, hfirst, hsecond, withoutComments_eq]

theorem stripHashes_textOf (h : WellFormed .python lexemes)
    (hplain : Along (fun x rest => x.isLine = false → Unopened ['#'] x.text rest) lexemes) :
    ParsePython.symbolHashInput (String.ofList (textOf lexemes)) =
      String.ofList (textOf (withoutComments lexemes)) := by
  have hstrip := stripLines_textOf (List.cons_ne_nil '#' []) ((along_lines h).and hplain)
  have hblocks : (lexemes.filter (!Lexeme.isLine ·)).filter (!Lexeme.isBlock ·) =
      lexemes.filter (!Lexeme.isLine ·) := by
    refine List.filter_eq_self.mpr fun x hx => ?_
    cases x with
    | block text => exact (mem_of_wellFormed h (List.mem_filter.mp hx).1).elim
    | _ => rfl
  rw [ParsePython.symbolHashInput, String.toList_ofList, hstrip, withoutComments_eq, hblocks]

theorem splice_textOf (hplain : (parse (String.ofList (textOf lexemes))).map
      ParseRust.commentRanges = some (commentSpans 0 lexemes)) :
    ParseRust.symbolHashInput parse (String.ofList (textOf lexemes)) =
      String.ofList (textOf (withoutComments lexemes)) := by
  obtain ⟨tree, htree, hranges⟩ := Option.map_eq_some_iff.mp hplain
  have hsplice := splice_commentSpans 0 lexemes
  unfold ParseRust.symbolHashInput
  rw [htree]
  dsimp only
  rw [hranges, String.toList_ofList]
  split
  · next hnone =>
    rw [hnone] at hsplice
    rw [← hsplice]
    rfl
  · rw [hsplice]

/-- Where only comments are found, what is hashed are the lexemes that are none. -/
theorem symbolHashInput_textOf (h : WellFormed language lexemes)
    (hplain : Plain parse language lexemes) :
    symbolHashInput parse language (String.ofList (textOf lexemes)) =
      String.ofList (textOf (withoutComments lexemes)) := by
  cases language with
  | cCpp => exact stripSlashed_textOf (fun _ => mem_of_wellFormed h) (along_lines h) hplain
  | python => exact stripHashes_textOf h hplain
  | ts => exact stripSlashed_textOf (fun _ => mem_of_wellFormed h) (along_lines h) hplain
  | rust => exact splice_textOf hplain

theorem segmentHash_eq {δ : Type} (md5Hex : ByteArray → δ) (h : WellFormed language lexemes)
    (hplain : Plain parse language lexemes) : segmentHash md5Hex parse language lexemes =
      md5Hex (String.ofList (bare (tokensOf lexemes))).toUTF8 := by
  rw [segmentHash, symbolHashInput_textOf h hplain, symbolHash, String.toList_ofList,
    filter_withoutComments h]

end Hashes

section Example

def spaced : Lexeme := .blank [' ']

/-- A function of C that evaluates a literal. -/
def literalFunction (literal : List Char) (trail : List Lexeme) : List Lexeme :=
  [.token ['f'], .token ['('], .token [')'], spaced, .token ['\x7b'], .token literal,
    .token [';']] ++ trail ++ [.token ['\x7d']]

def spacedLiteral : List Char := "\"a b\"".toList

def joinedLiteral : List Char := "\"ab\"".toList

end Example

end RemyCC.Index
