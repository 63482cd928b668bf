import RemyCC.Text.Lexemes

/-!
# The comments of C

A C text is cut into comments and all else: literals, and single characters. A
line break behind a backslash does not count, wherever it stands. A comment or
a literal that nothing ends goes on to the end of the text or of the line.
-/

namespace RemyCC.Text

/-- The next character, behind all line breaks that do not count. -/
def peek : List Char → Option Char
  | '\\' :: '\n' :: rest => peek rest
  | c :: _ => some c
  | [] => none

inductive LexMode where
  | code
  | slashes
  | line
  | opening
  | block
  | closing
  | quoted (quote : Char)
  | escaped (quote : Char)
  deriving DecidableEq, Repr

namespace LexMode

/-- What was read up to the end of the text, in reverse. -/
def ended (read : List Char) : LexMode → List Lexeme
  | .code => []
  | .slashes => [.line read.reverse]
  | .line => [.line read.reverse]
  | .opening => [.block read.reverse]
  | .block => [.block read.reverse]
  | .closing => [.block read.reverse]
  | .quoted _ => [.token read.reverse]
  | .escaped _ => [.token read.reverse]

/-- What one character ends, the mode behind it and what is read then. -/
def step (read : List Char) (c : Char) (next : Option Char) :
    LexMode → List Lexeme × LexMode × List Char
  | .code =>
    if c = '/' ∧ next = some '/' then ([], .slashes, [c])
    else if c = '/' ∧ next = some '*' then ([], .opening, [c])
    else if c = '"' ∨ c = Char.ofNat 39 then ([], .quoted c, [c])
    else ([.token [c]], .code, [])
  | .slashes => ([], .line, c :: read)
  | .line =>
    if c = '\n' then ([.line read.reverse, .token [c]], .code, [])
    else ([], .line, c :: read)
  | .opening => ([], .block, c :: read)
  | .block =>
    if c = '*' ∧ next = some '/' then ([], .closing, c :: read) else ([], .block, c :: read)
  | .closing => ([.block (c :: read).reverse], .code, [])
  | .quoted quote =>
    if c = '\n' then ([.token read.reverse, .token [c]], .code, [])
    else if c = quote then ([.token (c :: read).reverse], .code, [])
    else if c = '\\' then ([], .escaped quote, c :: read)
    else ([], .quoted quote, c :: read)
  | .escaped quote => ([], .quoted quote, c :: read)

/-- A line break that does not count belongs to what is being read. -/
def splice (read : List Char) : LexMode → List Lexeme × List Char
  | .code => ([.token ['\\', '\n']], [])
  | _ => ([], '\n' :: '\\' :: read)

end LexMode

def lexFrom (mode : LexMode) (read : List Char) : List Char → List Lexeme
  | '\\' :: '\n' :: rest => (mode.splice read).1 ++ lexFrom mode (mode.splice read).2 rest
  | c :: rest =>
    let s := mode.step read c (peek rest)
    s.1 ++ lexFrom s.2.1 s.2.2 rest
  | [] => mode.ended read

def cLexemes (source : List Char) : List Lexeme := lexFrom .code [] source

theorem textOf_append (left right : List Lexeme) :
    textOf (left ++ right) = textOf left ++ textOf right := List.flatMap_append

/-- Between the lexemes of code nothing has been read. -/
def LexMode.Idle (mode : LexMode) (read : List Char) : Prop := mode = .code → read = []

theorem LexMode.textOf_splice {mode : LexMode} {read : List Char} (h : mode.Idle read) :
    textOf (mode.splice read).1 ++ (mode.splice read).2.reverse = read.reverse ++ ['\\', '\n'] ∧
      mode.Idle (mode.splice read).2 := by
  cases mode with
  | code =>
    rw [h rfl]
    exact ⟨rfl, fun _ => rfl⟩
  | _ => simp [LexMode.splice, textOf, LexMode.Idle]

theorem LexMode.textOf_step {mode : LexMode} {read : List Char} (h : mode.Idle read) (c : Char)
    (next : Option Char) :
    textOf (mode.step read c next).1 ++ (mode.step read c next).2.2.reverse =
      read.reverse ++ [c] ∧ (mode.step read c next).2.1.Idle (mode.step read c next).2.2 := by
  unfold LexMode.step
  cases mode with
  | code =>
    rw [h rfl]
    dsimp only
    repeat' split
    all_goals simp [textOf, Lexeme.text, LexMode.Idle]
  | quoted quote =>
    dsimp only
    repeat' split
    all_goals simp [textOf, Lexeme.text, LexMode.Idle]
  | line =>
    dsimp only
    split <;> simp [textOf, Lexeme.text, LexMode.Idle]
  | block =>
    dsimp only
    split <;> simp [textOf, LexMode.Idle]
  | _ => simp [textOf, Lexeme.text, LexMode.Idle]

theorem LexMode.textOf_ended {mode : LexMode} {read : List Char} (h : mode.Idle read) :
    textOf (mode.ended read) = read.reverse := by
  cases mode with
  | code =>
    rw [h rfl]
    rfl
  | _ => simp [LexMode.ended, textOf, Lexeme.text]

/-- What has been read stands in front of what is still to be read. -/
theorem textOf_lexFrom {mode : LexMode} {read : List Char} (h : mode.Idle read)
    (text : List Char) : textOf (lexFrom mode read text) = read.reverse ++ text := by
  fun_induction lexFrom mode read text with
  | case1 mode read rest ih =>
    obtain ⟨htext, hidle⟩ := LexMode.textOf_splice h
    rw [textOf_append, ih hidle, ← List.append_assoc, htext]
    simp
  | case2 mode read c rest hsplice s ih =>
    obtain ⟨htext, hidle⟩ := LexMode.textOf_step h c (peek rest)
    rw [textOf_append, ih hidle, ← List.append_assoc, htext]
    simp
  | case3 mode read =>
    rw [LexMode.textOf_ended h, List.append_nil]

theorem textOf_cLexemes (source : List Char) : textOf (cLexemes source) = source :=
  textOf_lexFrom (fun _ => rfl) source

end RemyCC.Text
