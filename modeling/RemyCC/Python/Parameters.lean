import Mathlib.Data.List.Basic

/-!
# Parameter lists

The nodes of a parameter list are sorted into five parts and printed again. What
is printed is read by a grammar of its own: characters to tokens, tokens to
items, items to the parts. Expressions are atoms throughout.
-/

namespace RemyCC.Python.Parameters

variable {E : Type}

structure Param (E : Type) where
  name : String
  annotation : Option E
  default : Option E
  deriving DecidableEq

section Nodes

def isNameChar (c : Char) : Bool := c.isAlphanum || c == '_' || 128 ≤ c.toNat

abbrev Name := { s : String // s ≠ "" ∧ s.toList.all isNameChar = true }

/-- The text of a comment behind its `#`. -/
abbrev Line := { s : String // '\n' ∉ s.toList }

/-- What may stand between two tokens: a comment up to its line end, or the end
of a line that goes on. -/
inductive Extra where
  | comment (text : Line)
  | continuation (carriage : Bool)
  deriving DecidableEq

def Extra.text : Extra → String
  | comment text => "#" ++ text.val
  | continuation true => "\\\r\n"
  | continuation false => "\\\n"

/-- The named children of a `list_splat_pattern` or a `dictionary_splat_pattern`. -/
structure Splat where
  extras : List Extra
  name : Name
  deriving DecidableEq

/-- What a `typed_parameter` begins with. -/
inductive Typed where
  | identifier (name : Name)
  | listSplatPattern (splat : Splat)
  | dictionarySplatPattern (splat : Splat)
  deriving DecidableEq

/-- The named children of `parameters` and of `lambda_parameters`. -/
inductive Node (E : Type) where
  | positionalSeparator
  | keywordSeparator
  | listSplatPattern (splat : Splat)
  | dictionarySplatPattern (splat : Splat)
  | typedParameter (inner : Typed) (type : E)
  | defaultParameter (name : Name) (value : E)
  | typedDefaultParameter (name : Name) (type value : E)
  | identifier (name : Name)
  | extra (extra : Extra)
  deriving DecidableEq

end Nodes

section Collect

structure Arguments (E : Type) where
  posonly : List (Param E)
  args : List (Param E)
  vararg : Option (Param E)
  bareStar : Bool
  kwonly : List (Param E)
  kwarg : Option (Param E)
  deriving DecidableEq

def Arguments.empty : Arguments E := ⟨[], [], none, false, [], none⟩

def pushParam (inKwonly : Bool) (param : Param E) (a : Arguments E) : Arguments E :=
  if inKwonly then { a with kwonly := a.kwonly ++ [param] } else { a with args := a.args ++ [param] }

/-- The text of the first named child, whatever it is. -/
def Splat.firstText (splat : Splat) : String := (splat.extras.map Extra.text).headD splat.name.val

def splatParam (splat : Splat) (hint : Option E) : Param E :=
  ⟨splat.firstText, hint, none⟩

def collectStep : Arguments E × Bool → Node E → Arguments E × Bool
  | (a, inKwonly), .positionalSeparator => ({ a with posonly := a.args, args := [] }, inKwonly)
  | (a, _), .keywordSeparator => ({ a with bareStar := true }, true)
  | (a, _), .listSplatPattern splat => ({ a with vararg := some (splatParam splat none) }, true)
  | (a, inKwonly), .dictionarySplatPattern splat =>
    ({ a with kwarg := some (splatParam splat none) }, inKwonly)
  | (a, inKwonly), .typedParameter inner type =>
    match inner with
    | .listSplatPattern splat => ({ a with vararg := some (splatParam splat (some type)) }, true)
    | .dictionarySplatPattern splat =>
      ({ a with kwarg := some (splatParam splat (some type)) }, inKwonly)
    | .identifier name => (pushParam inKwonly ⟨name.val, some type, none⟩ a, inKwonly)
  | (a, inKwonly), .defaultParameter name value =>
    (pushParam inKwonly ⟨name.val, none, some value⟩ a, inKwonly)
  | (a, inKwonly), .typedDefaultParameter name type value =>
    (pushParam inKwonly ⟨name.val, some type, some value⟩ a, inKwonly)
  | (a, inKwonly), .identifier name => (pushParam inKwonly ⟨name.val, none, none⟩ a, inKwonly)
  | s, .extra _ => s

def collectArguments (nodes : List (Node E)) : Arguments E :=
  (nodes.foldl collectStep (.empty, false)).1

end Collect

section Unparse

/-- A character of the text, or an expression in it. -/
inductive Piece (E : Type) where
  | char (c : Char)
  | atom (e : E)
  deriving DecidableEq

def chars (text : String) : List (Piece E) := text.toList.map .char

def Param.render (p : Param E) : List (Piece E) :=
  chars p.name ++
    (( p.annotation.map fun e => chars ": " ++ [.atom e]).getD [] ++
      (p.default.map fun e => chars "=" ++ [.atom e]).getD [])

def separator (first : Bool) : List (Piece E) := if first then [] else chars ", "

/-- The positional parameters from an index on, with the `/` behind the last of the
first ones. -/
def unparsePositional (posonly : Nat) : Nat → List (Param E) → List (Piece E)
  | _, [] => []
  | index, p :: rest =>
    separator (index == 0) ++ p.render ++ (if index + 1 = posonly then chars ", /" else []) ++
      unparsePositional posonly (index + 1) rest

def Arguments.hasStar (a : Arguments E) : Bool :=
  a.vararg.isSome || !a.kwonly.isEmpty || a.bareStar

def Arguments.unparse (a : Arguments E) : List (Piece E) :=
  let positional := a.posonly ++ a.args
  unparsePositional a.posonly.length 0 positional ++
    (if a.hasStar then
      separator positional.isEmpty ++ chars "*" ++ (a.vararg.map Param.render).getD []
    else []) ++
    a.kwonly.flatMap (fun p => chars ", " ++ p.render) ++
    (a.kwarg.map fun p =>
      separator (positional.isEmpty && !a.hasStar) ++ chars "**" ++ p.render).getD []

def unparseParameters (nodes : List (Node E)) : List (Piece E) := (collectArguments nodes).unparse

end Unparse

section Grammar

inductive Token (E : Type) where
  | name (name : String)
  | colon
  | equals
  | comma
  | slash
  | star
  | doubleStar
  | atom (e : E)
  deriving DecidableEq

def isBlank (c : Char) : Bool := c == ' ' || c == '\t' || c == '\n' || c == '\r' || c == '\x0c'

def delimiter : Char → Option (Token E)
  | ':' => some .colon
  | '=' => some .equals
  | ',' => some .comma
  | '/' => some .slash
  | _ => none

/-- The name that has been read so far, its characters backwards. -/
def word (back : List Char) : List (Token E) :=
  if back = [] then [] else [.name (String.ofList back.reverse)]

/-- The tokens of a text, from within a comment or not. -/
def lexFrom : List Char → Bool → List (Piece E) → Option (List (Token E))
  | back, _, [] => some (word back)
  | back, true, .char '\n' :: rest => lexFrom back false rest
  | back, true, _ :: rest => lexFrom back true rest
  | back, false, .atom e :: rest => (lexFrom [] false rest).map (word back ++ .atom e :: ·)
  | back, false, .char c :: rest =>
    if isNameChar c then lexFrom (c :: back) false rest
    else if isBlank c then (lexFrom [] false rest).map (word back ++ ·)
    else if c = '#' then (lexFrom [] true rest).map (word back ++ ·)
    else if c = '*' then
      match rest with
      | .char '*' :: rest => (lexFrom [] false rest).map (word back ++ .doubleStar :: ·)
      | rest => (lexFrom [] false rest).map (word back ++ .star :: ·)
    else if c = '\\' then
      match rest with
      | .char '\n' :: rest => (lexFrom [] false rest).map (word back ++ ·)
      | .char '\r' :: .char '\n' :: rest => (lexFrom [] false rest).map (word back ++ ·)
      | _ => none
    else match delimiter c with
      | some token => (lexFrom [] false rest).map (word back ++ token :: ·)
      | none => none

inductive Item (E : Type) where
  | slash
  | star
  | starred (name : String) (hint : Option E)
  | doubleStarred (name : String) (hint : Option E)
  | param (p : Param E)
  deriving DecidableEq

def readItem : List (Token E) → Option (Item E × List (Token E))
  | .slash :: rest => some (.slash, rest)
  | .star :: .name n :: .colon :: .atom e :: rest => some (.starred n (some e), rest)
  | .star :: .name n :: rest => some (.starred n none, rest)
  | .star :: rest => some (.star, rest)
  | .doubleStar :: .name n :: .colon :: .atom e :: rest => some (.doubleStarred n (some e), rest)
  | .doubleStar :: .name n :: rest => some (.doubleStarred n none, rest)
  | .name n :: .colon :: .atom e :: .equals :: .atom d :: rest =>
    some (.param ⟨n, some e, some d⟩, rest)
  | .name n :: .colon :: .atom e :: rest => some (.param ⟨n, some e, none⟩, rest)
  | .name n :: .equals :: .atom d :: rest => some (.param ⟨n, none, some d⟩, rest)
  | .name n :: rest => some (.param ⟨n, none, none⟩, rest)
  | _ => none

/-- Items with commas between them, and one behind the last if you like. -/
def readItems : Nat → List (Token E) → Option (List (Item E))
  | _, [] => some []
  | 0, _ => none
  | fuel + 1, tokens =>
    match readItem tokens with
    | some (item, []) => some [item]
    | some (item, .comma :: rest) => (readItems fuel rest).map (item :: ·)
    | _ => none

structure Parameters (E : Type) where
  posonly : List (Param E)
  args : List (Param E)
  vararg : Option (Param E)
  kwonly : List (Param E)
  kwarg : Option (Param E)
  deriving DecidableEq

inductive Stage where
  | positional
  /-- Behind a star, which may still need a parameter. -/
  | keyword (needed : Bool)
  | done
  deriving DecidableEq

structure Reading (E : Type) where
  parameters : Parameters E
  stage : Stage
  deriving DecidableEq

def Reading.start : Reading E := ⟨⟨[], [], none, [], none⟩, .positional⟩

/-- A positional parameter without a default does not follow one with a default. -/
def misplaced (p : Param E) (ps : Parameters E) : Bool :=
  p.default.isNone && (ps.posonly ++ ps.args).any (·.default.isSome)

def Reading.step : Reading E → Item E → Option (Reading E)
  | ⟨ps, .positional⟩, .param p =>
    if misplaced p ps then none else some ⟨{ ps with args := ps.args ++ [p] }, .positional⟩
  | ⟨ps, .positional⟩, .slash =>
    if ps.posonly = [] ∧ ps.args ≠ [] then
      some ⟨{ ps with posonly := ps.args, args := [] }, .positional⟩
    else none
  | ⟨ps, .positional⟩, .star => some ⟨ps, .keyword true⟩
  | ⟨ps, .positional⟩, .starred n hint =>
    some ⟨{ ps with vararg := some ⟨n, hint, none⟩ }, .keyword false⟩
  | ⟨ps, .keyword _⟩, .param p => some ⟨{ ps with kwonly := ps.kwonly ++ [p] }, .keyword false⟩
  | ⟨ps, .positional⟩, .doubleStarred n hint =>
    some ⟨{ ps with kwarg := some ⟨n, hint, none⟩ }, .done⟩
  | ⟨ps, .keyword false⟩, .doubleStarred n hint =>
    some ⟨{ ps with kwarg := some ⟨n, hint, none⟩ }, .done⟩
  | _, _ => none

def Reading.finish (r : Reading E) : Option (Parameters E) :=
  if r.stage = .keyword true then none else some r.parameters

/-- The parts of a list of items, if they are in a legal order. -/
def assemble (items : List (Item E)) : Option (Parameters E) :=
  (items.foldlM Reading.step .start).bind Reading.finish

/-- The parameters of a text, by the grammar of parameter lists. -/
def parse (text : List (Piece E)) : Option (Parameters E) := do
  let tokens ← lexFrom [] false text
  let items ← readItems tokens.length tokens
  assemble items

end Grammar

section Source

/-- What a node says, apart from what stands between its tokens. -/
def Node.item : Node E → Option (Item E)
  | .positionalSeparator => some .slash
  | .keywordSeparator => some .star
  | .listSplatPattern splat => some (.starred splat.name.val none)
  | .dictionarySplatPattern splat => some (.doubleStarred splat.name.val none)
  | .typedParameter (.identifier name) type => some (.param ⟨name.val, some type, none⟩)
  | .typedParameter (.listSplatPattern splat) type => some (.starred splat.name.val (some type))
  | .typedParameter (.dictionarySplatPattern splat) type =>
    some (.doubleStarred splat.name.val (some type))
  | .defaultParameter name value => some (.param ⟨name.val, none, some value⟩)
  | .typedDefaultParameter name type value => some (.param ⟨name.val, some type, some value⟩)
  | .identifier name => some (.param ⟨name.val, none, none⟩)
  | .extra _ => none

/-- The parameters that the source of some nodes has. -/
def source (nodes : List (Node E)) : Option (Parameters E) := assemble (nodes.filterMap Node.item)

end Source

end RemyCC.Python.Parameters
