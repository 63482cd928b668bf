import RemyCC.Json.Print
import RemyCC.Text.Backtracking
import RemyCC.Text.Lexemes
import RemyCC.Index.Selection

/-!
# Function-pointer patterns of C files

Four families of facts are searched for in the text of a C file, whose comments
are blanked first: type definitions of functions, layouts of structures, the
handlers in table initializers, and calls through a field. Lines and positions
are those of the source, because blanking keeps every line break in its place.
-/

namespace RemyCC.Index

open Relational Text

section Masking

def blankChar (c : Char) : Char := if c = '\n' then '\n' else ' '

def blank (text : List Char) : List Char := text.map blankChar

def blankBlock (text : List Char) : Option (Nat × List Char) :=
  (findBlock text).map fun m => (m.1, blank (text.take m.1))

def blankLine (text : List Char) : Option (Nat × List Char) :=
  (findLine ['/', '/'] text).map fun m => (m.1, List.replicate m.1 ' ')

def blankComments (source : List Char) : List Char :=
  replaceMatches blankLine 0 (replaceMatches blankBlock 0 source)

end Masking

section Scanning

structure BraceState where
  depth : Int
  inString : Bool
  inChar : Bool
  inLineComment : Bool
  inBlockComment : Bool
  escapeNext : Bool
  deriving DecidableEq, Repr

/-- The characters that are still to be passed over are counted. -/
def matchingBrace : BraceState → Nat → Nat → List Char → Option Nat
  | _, _, _, [] => none
  | s, skip + 1, i, _ :: rest => matchingBrace s skip (i + 1) rest
  | s, 0, i, c :: rest =>
    if s.escapeNext then matchingBrace { s with escapeNext := false } 0 (i + 1) rest
    else if s.inLineComment then
      matchingBrace { s with inLineComment := c != '\n' } 0 (i + 1) rest
    else if s.inBlockComment then
      if c == '*' && rest.head? == some '/' then
        matchingBrace { s with inBlockComment := false } 1 (i + 1) rest
      else matchingBrace s 0 (i + 1) rest
    else if c == '\\' && (s.inString || s.inChar) then
      matchingBrace { s with escapeNext := true } 0 (i + 1) rest
    else if c == '"' && !s.inChar then
      matchingBrace { s with inString := !s.inString } 0 (i + 1) rest
    else if c == Char.ofNat 39 && !s.inString then
      matchingBrace { s with inChar := !s.inChar } 0 (i + 1) rest
    else if s.inString || s.inChar then matchingBrace s 0 (i + 1) rest
    else if c == '/' && rest.head? == some '/' then
      matchingBrace { s with inLineComment := true } 1 (i + 1) rest
    else if c == '/' && rest.head? == some '*' then
      matchingBrace { s with inBlockComment := true } 1 (i + 1) rest
    else if c == '{' then matchingBrace { s with depth := s.depth + 1 } 0 (i + 1) rest
    else if c == '}' then
      if s.depth = 1 then some i
      else matchingBrace { s with depth := s.depth - 1 } 0 (i + 1) rest
    else matchingBrace s 0 (i + 1) rest

def findMatchingBrace (source : List Char) (start : Nat) : Option Nat :=
  matchingBrace ⟨0, false, false, false, false, false⟩ 0 start (source.drop start)

def lineNumberAt (source : List Char) (pos : Nat) : Int := ((source.take pos).count '\n' : Int) + 1

/-- The first place of a character from a position on. -/
def findChar (c : Char) (source : List Char) (start : Nat) : Option Nat :=
  ((source.drop start).findIdx? (· == c)).map (start + ·)

/-- The text up to the first separator outside all brackets, and what follows. -/
def splitAtDepth (sep : Char) : Int → List Char → List (List Char)
  | _, [] => [[]]
  | depth, c :: rest =>
    let keep (depth : Int) : List (List Char) :=
      match splitAtDepth sep depth rest with
      | [] => [[c]]
      | part :: parts => (c :: part) :: parts
    if c = '{' ∨ c = '(' ∨ c = '[' then keep (depth + 1)
    else if c = '}' ∨ c = ')' ∨ c = ']' then keep (depth - 1)
    else if c = sep ∧ depth = 0 then [] :: splitAtDepth sep depth rest
    else keep depth

def splitTopLevel (body : List Char) (sep : Char) : List (List Char) := splitAtDepth sep 0 body

def trimChars (text : List Char) : List Char :=
  ((text.dropWhile isWhitespace).reverse.dropWhile isWhitespace).reverse

end Scanning

section Expressions

open Regex

variable (classes : CharClasses)

def space : Regex := star (.one isWhitespace)

def space₁ : Regex := plus (.one isWhitespace)

def words : Regex := plus (.one classes.word)

def edge : Regex := .boundary classes.word

def anyOf (chars : List Char) : Regex := .one chars.contains

def noneOf (chars : List Char) : Regex := .one fun c => !chars.contains c

/-- `[^\W\d]\w*`. -/
def identifier : Regex :=
  .seq (.one fun c => classes.word c && !classes.digit c) (star (.one classes.word))

/-- `(?:\w+\s+)*`. -/
def leadingWords : Regex := star (.seq (words classes) space₁)

/-- `\btypedef\b[^;{}]*?\(\s*(?:\w+\s+)*\*\s*(?:(?:const|volatile|restrict|__restrict|
__restrict__)\s+)*(\w+)\s*\)\s*\(`. -/
def fnptrTypedef : Regex :=
  seqs [edge classes, word "typedef", edge classes, lazyStar (noneOf [';', '{', '}']), char '(',
    space, leadingWords classes, char '*', space,
    star (.seq (alts (word "const") [word "volatile", word "restrict", word "__restrict",
      word "__restrict__"]) space₁),
    .group 1 (words classes), space, char ')', space, char '(']

/-- `\btypedef\b([^;{}]*);`. -/
def fntypeTypedef : Regex :=
  seqs [edge classes, word "typedef", edge classes, .group 1 (star (noneOf [';', '{', '}'])),
    char ';']

/-- `\b(\w+)\s*\(`. -/
def fntypeName : Regex := seqs [edge classes, .group 1 (words classes), space, char '(']

/-- `\bstruct\s+(\w+)\s*\{`. -/
def structDef : Regex :=
  seqs [edge classes, word "struct", space₁, .group 1 (words classes), space, char '{']

/-- `(?m)(?:^|[;{}])\s*(?:(?:static|const|extern|register|volatile)\s+)*(?:struct\s+)?(\w+)\s+
(\w+)\s*(\[[^\]]*\])?\s*=\s*\{`. -/
def tableInit : Regex :=
  seqs [.alt .lineStart (anyOf [';', '{', '}']), space,
    star (.seq (alts (word "static") [word "const", word "extern", word "register",
      word "volatile"]) space₁),
    opt (.seq (word "struct") space₁), .group 1 (words classes), space₁,
    .group 2 (words classes), space,
    opt (.group 3 (seqs [char '[', star (noneOf [']']), char ']'])), space, char '=', space,
    char '{']

/-- `((?:\w+(?:\s*\[[^\]\[]*\])?\s*(?:->|\.)\s*)+)(\w+)\s*\)?\s*\(`. -/
def dispatchCall : Regex :=
  seqs [.group 1 (plus (seqs [words classes,
      opt (seqs [space, char '[', star (noneOf [']', '[']), char ']']), space,
      alts (word "->") [word "."], space])),
    .group 2 (words classes), space, opt (char ')'), space, char '(']

/-- `\(\s*(?:\w+\s+)*\*\s*(\w+)\s*\)\s*\(`. -/
def fnptrField : Regex :=
  seqs [char '(', space, leadingWords classes, char '*', space, .group 1 (words classes), space,
    char ')', space, char '(']

/-- `\.\s*([^\W\d]\w*)\s*=\s*&?\s*([^\W\d]\w*)`. -/
def designated : Regex :=
  seqs [char '.', space, .group 1 (identifier classes), space, char '=', space, opt (char '&'),
    space, .group 2 (identifier classes)]

/-- `^&?\s*([^\W\d]\w*)\s*$`. -/
def identOnlyExpr : Regex :=
  seqs [.start, opt (char '&'), space, .group 1 (identifier classes), space, .stop]

def blanks : Regex := star (anyOf [' ', '\t'])

/-- The words that may stand before the type of a function. -/
def functionSpecifiers : Regex :=
  star (.seq (alts (word "static") [word "inline", word "extern", word "const", word "volatile",
    word "unsigned", word "signed", word "long", word "short", word "register",
    seqs [word "__attribute__", space, char '(', star (noneOf [')']), char ')']]) space₁)

/-- `(?m)^[ \t]*(?:(?:static|inline|…)\s+)*(?:(?:struct|enum|union)\s+)?([\w][\w\s\*&:<>]*?)\s+
(\*?\s*\w[\w:]*)\s*\(([^)]*)\)\s*(?:const\s*)?(?:override\s*)?
(?:noexcept(?:\s*\([^)]*\))?\s*)?\{`. -/
def functionDef : Regex :=
  seqs [.lineStart, blanks, functionSpecifiers,
    opt (.seq (alts (word "struct") [word "enum", word "union"]) space₁),
    .group 1 (.seq (.one classes.word) (lazyStar (.one fun c =>
      classes.word c || isWhitespace c || ['*', '&', ':', '<', '>'].contains c))),
    space₁,
    .group 2 (seqs [opt (char '*'), space, .one classes.word,
      star (.one fun c => classes.word c || c == ':')]),
    space, char '(', .group 3 (star (noneOf [')'])), char ')', space,
    opt (.seq (word "const") space), opt (.seq (word "override") space),
    opt (seqs [word "noexcept", opt (seqs [space, char '(', star (noneOf [')']), char ')']),
      space]),
    char '{']

/-- `(?m)^[ \t]*#[^\n]*`. -/
def preprocLine : Regex := seqs [.lineStart, blanks, char '#', star (noneOf ['\n'])]

/-- `(\w+)\s+\**\s*(\w+)\s*$`. -/
def firstDecl : Regex :=
  seqs [.group 1 (words classes), space₁, star (char '*'), space, .group 2 (words classes), space,
    .stop]

/-- `^\**\s*(\w+)`. -/
def plainName : Regex := seqs [.start, star (char '*'), space, .group 1 (words classes)]

/-- `\s*(?:->|\.)\s*$`. -/
def dispatchTail : Regex := seqs [space, alts (word "->") [word "."], space, .stop]

/-- `\s*\[[^\]]*\]`. -/
def subscript : Regex := seqs [space, char '[', star (noneOf [']']), char ']']

/-- `(?:struct\s+)?(\w+)\s*\*?\s*\bvar\b\s*(?:[,)=;]|\[)`. -/
def localVar (var : String) : Regex :=
  seqs [opt (.seq (word "struct") space₁), .group 1 (words classes), space, opt (char '*'), space,
    edge classes, word var, edge classes, space, .alt (anyOf [',', ')', '=', ';']) (char '[')]

end Expressions

section Extraction

open Regex

variable (classes : CharClasses)

def cTypeKeywords : List String :=
  ["void", "int", "char", "short", "long", "unsigned", "signed", "float", "double", "const",
    "struct", "union", "enum", "static", "volatile", "register", "inline", "return", "if", "while",
    "for", "switch", "sizeof", "case", "do", "else", "typedef"]

def stripPreprocLines (body : List Char) : List Char :=
  replaceFrom preprocLine (fun m => List.replicate m.text.length ' ') 0 [] body

structure StructField where
  name : String
  index : Nat
  isFnptr : Bool
  fieldType : String
  deriving DecidableEq, Repr

/-- The name of one declarator, its type if it is shared, and whether it is a function pointer. -/
def declarator (first : Option Found) (position : Nat) (part : List Char) :
    Option String × String × Bool :=
  let shared := (first.map (·.group 1)).getD ""
  let text := trimChars part
  match findFirst (fnptrField classes) text with
  | some ptr => (some (ptr.group 1), "", true)
  | none =>
    if position = 0 then
      match first with
      | some first => (some (first.group 2), shared, false)
      | none => (none, "", false)
    else
      match findFirst (plainName classes) text with
      | some plain => (some (plain.group 1), shared, false)
      | none => (none, "", false)

/-- The declarators of one declaration. -/
def declarators (decl : List Char) : List (Option String × String × Bool) :=
  let parts := splitTopLevel decl ','
  let first := findFirst (firstDecl classes) (parts.head?.getD [])
  parts.zipIdx.map fun p => declarator classes first p.2 p.1

def parseStructFields (inner : List Char) : List StructField :=
  let decls := ((splitTopLevel inner ';').map trimChars).filter fun decl => !decl.isEmpty
  (decls.flatMap (declarators classes)).zipIdx.map fun d =>
    ⟨d.1.1.getD "", d.2, d.1.1.isSome && d.1.2.2, d.1.2.1⟩

/-- Functions by name with the places where they begins and end; the first one of a name counts. -/
def functionRanges (scan : List Char) : List (String × Nat × Nat) :=
  (findAll (functionDef classes) scan).foldl (fun ranges m =>
    let begins := m.before.length
    match findChar '{' scan begins with
    | none => ranges
    | some brace =>
      match findMatchingBrace scan brace with
      | none => ranges
      | some close =>
        let name := String.ofList
          (trimChars ((trimChars ((m.group? 2).getD [])).dropWhile (· == '*')))
        if name != "" && !ranges.any (·.1 == name) then ranges ++ [(name, begins, close)]
        else ranges) []

/-- The function whose range around a place is the shortest; of several the first one. -/
def enclosingRange (ranges : List (String × Nat × Nat)) (pos : Nat) :
    Option (String × Nat × Nat) :=
  ranges.foldl (fun best r =>
    if r.2.1 ≤ pos && pos ≤ r.2.2 then
      match best with
      | some b => if r.2.2 - r.2.1 < b.2.2 - b.2.1 then some r else best
      | none => some r
    else best) none

def localVarType (body : List Char) (var : String) : Option String :=
  (findFirst (localVar classes var) body).bind fun m =>
    if cTypeKeywords.contains (m.group 1) then none else some (m.group 1)

/-- What may stand behind a designated initializer. -/
def designatedTailOk (rest : List Char) : Bool :=
  (rest.dropWhile isPythonReSpace).head?.all (· == ',')

def identOnly (text : List Char) : Option String :=
  (findFirst (identOnlyExpr classes) text).map (·.group 1)

def fieldMetadata (f : StructField) : Json.Value :=
  .obj [("name", .str f.name), ("index", .int f.index), ("is_fnptr", .bool f.isFnptr),
    ("type", .str f.fieldType)]

def cPattern (patternType signalName : String) (handler : Option String) (line : Int)
    (metadata : Json.Value) : PatternFact :=
  ⟨patternType, some signalName, handler, some line, some (Json.dumpsDefault metadata)⟩

def typedefFact (scan : List Char) (m : Found) (name kind : String) : PatternFact :=
  cPattern "c_fnptr_typedef" name none (lineNumberAt scan m.before.length)
    (.obj [("kind", .str kind)])

def fnptrTypedefs? (scan : List Char) : List PatternFact :=
  (findAll (fnptrTypedef classes) scan).map fun m => typedefFact scan m (m.group 1) "fnptr"

def fntypeTypedefs? (scan : List Char) : List PatternFact :=
  (findAll (fntypeTypedef classes) scan).filterMap fun m =>
    let guts := m.group 1
    if contains guts "(*" || contains guts "( *" then none
    else (findFirst (fntypeName classes) guts.toList).bind fun name =>
      if cTypeKeywords.contains (name.group 1) then none
      else some (typedefFact scan m (name.group 1) "fntype")

def structLayout? (scan : List Char) (m : Found) : Option PatternFact := do
  let begins := m.before.length
  let brace ← findChar '{' scan begins
  let close ← findMatchingBrace scan brace
  let fields := parseStructFields classes ((scan.drop (brace + 1)).take (close - (brace + 1)))
  if fields.isEmpty then none
  else some (cPattern "c_struct_layout" (m.group 1) none (lineNumberAt scan begins)
    (.obj [("fields", .arr (fields.map fieldMetadata))]))

/-- A table initializer with the text between its braces. -/
structure TableInit where
  structName : String
  varName : String
  isArray : Bool
  line : Int
  body : List Char
  deriving DecidableEq, Repr

def tableInits (scan : List Char) : List TableInit :=
  (findAll (tableInit classes) scan).filterMap fun m =>
    let brace := m.before.length + m.text.length - 1
    (findMatchingBrace scan brace).map fun close =>
      { structName := m.group 1
        varName := m.group 2
        isArray := (m.group? 3).isSome
        line := lineNumberAt scan m.before.length
        body := stripPreprocLines ((scan.drop (brace + 1)).take (close - (brace + 1))) }

/-- What stands in the braces of an element, or the element itself if it has none. -/
def elementInner (isArray : Bool) (element : List Char) : Option (List Char) :=
  let el := trimChars element
  if el.isEmpty || (isArray && el.head? != some '{') then none
  else if el.head? = some '{' then
    match findMatchingBrace el 0 with
    | none => none
    | some close =>
      if !(trimChars (el.drop (close + 1))).isEmpty then none
      else some ((el.drop 1).take (close - 1))
  else some el

def registerFact (t : TableInit) (handler : String) (place : String × Json.Value) : PatternFact :=
  cPattern "c_fnptr_register" t.structName (some handler) t.line
    (.obj [place, ("table_var", .str t.varName)])

def elementFacts (t : TableInit) (inner : List Char) : List PatternFact :=
  let named := (findAll (designated classes) inner).filter fun m => designatedTailOk m.rest
  if named.isEmpty then
    (splitTopLevel inner ',').zipIdx.filterMap fun p =>
      (identOnly classes (trimChars p.1)).map fun handler =>
        registerFact t handler ("slot", .int p.2)
  else named.map fun m => registerFact t (m.group 2) ("field", .str (m.group 1))

def tableFacts (t : TableInit) : List PatternFact :=
  let elements := if t.isArray then splitTopLevel t.body ',' else [t.body]
  (elements.filterMap (elementInner t.isArray)).flatMap (elementFacts classes t)

def replaceFirst (r : Regex) (text : List Char) : List Char :=
  match findFirst r text with
  | some m => m.before ++ m.rest
  | none => text

/-- The last name of a chain of fields, without its subscripts. -/
def lastSegment (chain : List Char) : String :=
  let base := trimChars (replaceFirst dispatchTail chain)
  let plain := String.ofList (replaceFrom subscript (fun _ => []) 0 [] base)
  String.ofList (trimChars (lastPart '.' (replaceAll "->" "." plain)).toList)

def dispatchFact? (scan : List Char) (ranges : List (String × Nat × Nat))
    (varType : List (String × String)) (m : Found) : Option PatternFact := do
  let pos := m.before.length
  let (enclosing, begins, close) ← enclosingRange ranges pos
  let segment := lastSegment ((m.group? 1).getD [])
  let hint := ((varType.reverse.find? (·.1 == segment)).map Prod.snd).or
    (localVarType classes ((scan.drop begins).take (close - begins)) segment)
  some (cPattern "c_fnptr_dispatch" (m.group 2) (some enclosing) (lineNumberAt scan pos)
    (.obj [("receiver", .str segment), ("struct_hint", (hint.map Json.Value.str).getD .null)]))

/-- The facts of a text without comments. -/
def scanPatterns (scan : List Char) : List PatternFact :=
  let tables := tableInits classes scan
  let ranges := functionRanges classes scan
  let varType := tables.map fun t => (t.varName, t.structName)
  fnptrTypedefs? classes scan ++ fntypeTypedefs? classes scan ++
    (findAll (structDef classes) scan).filterMap (structLayout? classes scan) ++
    tables.flatMap (tableFacts classes) ++
    (findAll (dispatchCall classes) scan).filterMap (dispatchFact? classes scan ranges varType)

def extractCPatterns (source : String) : List PatternFact :=
  scanPatterns classes (blankComments source.toList)

end Extraction

end RemyCC.Index
