import RemyCC.Text
import RemyCC.Text.Pattern

/-!
# Taking comments out of a text

A text is seen through its lexemes. Where comments are searched for with a
regular expression, what is left are the lexemes that are no comments, as long
as no comment seems to open within one of these.
-/

namespace RemyCC.Text

inductive Lexeme where
  | line (text : List Char)
  | block (text : List Char)
  | blank (text : List Char)
  | token (text : List Char)
  deriving DecidableEq, Repr

namespace Lexeme

def text : Lexeme → List Char
  | .line text => text
  | .block text => text
  | .blank text => text
  | .token text => text

def isLine : Lexeme → Bool
  | .line _ => true
  | _ => false

def isBlock : Lexeme → Bool
  | .block _ => true
  | _ => false

def token? : Lexeme → Option (List Char)
  | .token text => some text
  | _ => none

end Lexeme

def textOf (lexemes : List Lexeme) : List Char := lexemes.flatMap Lexeme.text

def tokensOf (lexemes : List Lexeme) : List (List Char) := lexemes.filterMap Lexeme.token?

section Find

/-- `[^\n]*` behind an opener. -/
def findLine (opener text : List Char) : Option (Nat × List Char) :=
  if opener <+: text then
    some (opener.length + ((text.drop opener.length).takeWhile (· ≠ '\n')).length, [])
  else none

/-- `/\*[\s\S]*?\*/`, as short as it can be. -/
def findBlock (text : List Char) : Option (Nat × List Char) :=
  if ['/', '*'] <+: text then
    (beforeChars ['*', '/'] (text.drop 2)).map fun body => (body.length + 4, [])
  else none

def stripLines (opener text : List Char) : List Char := replaceMatches (findLine opener) 0 text

def stripBlocks (text : List Char) : List Char := replaceMatches findBlock 0 text

end Find

section Shapes

/-- A comment that goes to the end of its line. -/
def LineComment (opener text rest : List Char) : Prop :=
  opener <+: text ∧ '\n' ∉ text.drop opener.length ∧ ∀ c ∈ rest.head?, c = '\n'

/-- A comment that ends where it first can. -/
def BlockComment (text : List Char) : Prop :=
  text = ['/', '*'] ++ (text.drop 2).dropLast.dropLast ++ ['*', '/'] ∧
    ¬ ['*', '/'] <:+: (text.drop 2).dropLast.dropLast

/-- The opener does not stand at any place of the text, with the rest behind it. -/
def Unopened (opener : List Char) : List Char → List Char → Prop
  | [], _ => True
  | c :: text, rest => ¬ opener <+: c :: (text ++ rest) ∧ Unopened opener text rest

/-- Each lexeme is as `P` says, with the text behind it. -/
def Along (P : Lexeme → List Char → Prop) : List Lexeme → Prop
  | [] => True
  | x :: lexemes => P x (textOf lexemes) ∧ Along P lexemes

theorem lineComment_iff (opener text rest : List Char) :
    (opener <+: text ∧ '\n' ∉ text.drop opener.length ∧ rest.head?.all (· = '\n') = true) ↔
      LineComment opener text rest := by
  unfold LineComment
  rw [Option.all_eq_true]
  simp only [decide_eq_true_eq, Option.mem_def]

-- What follows the comment is looked at, and not every character.
instance (opener text rest : List Char) : Decidable (LineComment opener text rest) :=
  decidable_of_iff _ (lineComment_iff opener text rest)

instance (text : List Char) : Decidable (BlockComment text) :=
  inferInstanceAs (Decidable (_ ∧ _))

instance (opener : List Char) : ∀ text rest, Decidable (Unopened opener text rest)
  | [], _ => isTrue trivial
  | c :: text, rest =>
    haveI : Decidable (Unopened opener text rest) := instDecidableUnopened opener text rest
    inferInstanceAs (Decidable (_ ∧ _))

instance {P : Lexeme → List Char → Prop} [∀ x rest, Decidable (P x rest)] :
    ∀ lexemes, Decidable (Along P lexemes)
  | [] => isTrue trivial
  | _ :: lexemes =>
    haveI : Decidable (Along P lexemes) := instDecidableAlong lexemes
    inferInstanceAs (Decidable (_ ∧ _))

theorem Along.mono {P Q : Lexeme → List Char → Prop} {lexemes : List Lexeme}
    (h : Along P lexemes) (hPQ : ∀ x ∈ lexemes, ∀ rest, P x rest → Q x rest) :
    Along Q lexemes := by
  induction lexemes with
  | nil => trivial
  | cons x lexemes ih =>
    exact ⟨hPQ x List.mem_cons_self _ h.1,
      ih h.2 fun y hy => hPQ y (List.mem_cons_of_mem x hy)⟩

theorem Along.and {P Q : Lexeme → List Char → Prop} {lexemes : List Lexeme}
    (hP : Along P lexemes) (hQ : Along Q lexemes) :
    Along (fun x rest => P x rest ∧ Q x rest) lexemes := by
  induction lexemes with
  | nil => trivial
  | cons x lexemes ih => exact ⟨⟨hP.1, hQ.1⟩, ih hP.2 hQ.2⟩

/-- What holds of a lexeme whatever stands behind it. -/
theorem along_const {P : Lexeme → Prop} {lexemes : List Lexeme} :
    Along (fun x _ => P x) lexemes ↔ ∀ x ∈ lexemes, P x := by
  induction lexemes with
  | nil => simp [Along]
  | cons x lexemes ih => rw [Along, ih, List.forall_mem_cons]

end Shapes

section Strip

variable {find : List Char → Option (Nat × List Char)} {opener text rest : List Char}

theorem replaceMatches_unopened (hfind : ∀ text, ¬ opener <+: text → find text = none)
    (h : Unopened opener text rest) :
    replaceMatches find 0 (text ++ rest) = text ++ replaceMatches find 0 rest := by
  induction text with
  | nil => rfl
  | cons c text ih =>
    rw [List.cons_append, replaceMatches_none (hfind _ h.1), ih h.2, List.cons_append]

/-- What is left of a text are the lexemes that are not of the kind searched for. -/
theorem replaceMatches_along {kind : Lexeme → Bool} {comment : List Char → List Char → Prop}
    (hfind : ∀ text, ¬ opener <+: text → find text = none)
    (hcomment : ∀ text rest, comment text rest →
      text ≠ [] ∧ find (text ++ rest) = some (text.length, []))
    {lexemes : List Lexeme} (h : Along (fun x rest => (kind x = true → comment x.text rest) ∧
      (kind x = false → Unopened opener x.text rest)) lexemes) :
    replaceMatches find 0 (textOf lexemes) = textOf (lexemes.filter (!kind ·)) := by
  induction lexemes with
  | nil => rfl
  | cons x lexemes ih =>
    obtain ⟨⟨hkind, hother⟩, hrest⟩ := h
    have htext : textOf (x :: lexemes) = x.text ++ textOf lexemes := rfl
    rw [htext]
    cases hx : kind x with
    | true =>
      obtain ⟨hne, hmatch⟩ := hcomment _ _ (hkind hx)
      rw [replaceMatches_some hne hmatch, ih hrest, List.filter_cons_of_neg (by rw [hx]; decide)]
      rfl
    | false =>
      rw [replaceMatches_unopened hfind (hother hx), ih hrest,
        List.filter_cons_of_pos (by rw [hx]; decide)]
      rfl

theorem findLine_none (h : ¬ opener <+: text) : findLine opener text = none := if_neg h

theorem findLine_comment (hopener : opener ≠ []) (h : LineComment opener text rest) :
    text ≠ [] ∧ findLine opener (text ++ rest) = some (text.length, []) := by
  obtain ⟨⟨body, rfl⟩, hbody, hrest⟩ := h
  rw [List.drop_left] at hbody
  have htake : (body ++ rest).takeWhile (· ≠ '\n') = body := by
    have hall : ∀ c ∈ body, decide (c ≠ '\n') = true := fun c hc =>
      decide_eq_true fun heq => hbody (heq ▸ hc)
    rw [List.takeWhile_append_of_pos hall]
    cases rest with
    | nil => rw [List.takeWhile_nil, List.append_nil]
    | cons c rest =>
      have hc : c = '\n' := hrest c rfl
      rw [List.takeWhile_cons_of_neg (by simp [hc]), List.append_nil]
  refine ⟨fun hnil => hopener (List.append_eq_nil_iff.mp hnil).1, ?_⟩
  rw [findLine, List.append_assoc, if_pos (List.prefix_append _ _), List.drop_left, htake,
    List.length_append]

theorem stripLines_textOf (hopener : opener ≠ []) {lexemes : List Lexeme}
    (h : Along (fun x rest => (x.isLine = true → LineComment opener x.text rest) ∧
      (x.isLine = false → Unopened opener x.text rest)) lexemes) :
    stripLines opener (textOf lexemes) = textOf (lexemes.filter (!Lexeme.isLine ·)) :=
  replaceMatches_along (fun _ => findLine_none) (fun _ _ => findLine_comment hopener) h

theorem findBlock_none (h : ¬ ['/', '*'] <+: text) : findBlock text = none := if_neg h

/-- The first end of a comment is its own. -/
theorem beforeChars_body {body : List Char} (h : ¬ ['*', '/'] <:+: body) (rest : List Char) :
    beforeChars ['*', '/'] (body ++ '*' :: '/' :: rest) = some body := by
  induction body with
  | nil => rfl
  | cons c body ih =>
    have hhead : ['*', '/'].isPrefixOf (c :: (body ++ '*' :: '/' :: rest)) = false := by
      rw [← Bool.not_eq_true, List.isPrefixOf_iff_prefix]
      intro hpre
      rw [List.cons_prefix_cons] at hpre
      obtain ⟨hc, hpre⟩ := hpre
      cases body with
      | nil =>
        rw [List.nil_append, List.cons_prefix_cons] at hpre
        exact absurd hpre.1 (by decide)
      | cons d body =>
        rw [List.cons_append, List.cons_prefix_cons] at hpre
        exact h ⟨[], body, by rw [hc, hpre.1]; rfl⟩
    have htail : ¬ ['*', '/'] <:+: body := fun hin =>
      h (hin.trans (List.suffix_cons c body).isInfix)
    rw [List.cons_append, beforeChars, hhead, if_neg Bool.false_ne_true, ih htail]
    rfl

theorem findBlock_comment (h : BlockComment text) (rest : List Char) :
    text ≠ [] ∧ findBlock (text ++ rest) = some (text.length, []) := by
  obtain ⟨htext, hbody⟩ := h
  generalize (text.drop 2).dropLast.dropLast = body at htext hbody
  subst htext
  refine ⟨by simp, ?_⟩
  have hsplit : ['/', '*'] ++ body ++ ['*', '/'] ++ rest =
      '/' :: '*' :: (body ++ '*' :: '/' :: rest) := by simp
  rw [hsplit, findBlock, if_pos ⟨body ++ '*' :: '/' :: rest, rfl⟩, List.drop_succ_cons,
    List.drop_succ_cons, List.drop_zero, beforeChars_body hbody]
  simp

theorem stripBlocks_textOf {lexemes : List Lexeme}
    (h : Along (fun x rest => (x.isBlock = true → BlockComment x.text) ∧
      (x.isBlock = false → Unopened ['/', '*'] x.text rest)) lexemes) :
    stripBlocks (textOf lexemes) = textOf (lexemes.filter (!Lexeme.isBlock ·)) :=
  replaceMatches_along (fun _ => findBlock_none)
    (fun _ rest h => findBlock_comment h rest) h

end Strip

section Spans

/-- Where the comments stand, counted from a position. -/
def commentSpans : Nat → List Lexeme → List (Nat × Nat)
  | _, [] => []
  | pos, x :: lexemes =>
    if x.isLine || x.isBlock then
      (pos, pos + x.text.length) :: commentSpans (pos + x.text.length) lexemes
    else commentSpans (pos + x.text.length) lexemes

/-- What is left without the spans of a text that goes on from a position. -/
def splice : Nat → List Char → List (Nat × Nat) → List Char
  | _, rest, [] => rest
  | pos, rest, span :: spans =>
    rest.take (span.1 - pos) ++ splice span.2 (rest.drop (span.2 - pos)) spans

def withoutComments (lexemes : List Lexeme) : List Lexeme :=
  lexemes.filter fun x => !(x.isLine || x.isBlock)

/-- What stands before all spans is kept. -/
theorem splice_kept (pos : Nat) (kept rest : List Char) {spans : List (Nat × Nat)}
    (hspans : ∀ span ∈ spans.head?, pos + kept.length ≤ span.1 ∧ span.1 ≤ span.2) :
    splice pos (kept ++ rest) spans = kept ++ splice (pos + kept.length) rest spans := by
  cases spans with
  | nil => rfl
  | cons span spans =>
    obtain ⟨hstart, hstop⟩ := hspans span rfl
    have htake : span.1 - pos = kept.length + (span.1 - (pos + kept.length)) := by omega
    have hdrop : span.2 - pos = kept.length + (span.2 - (pos + kept.length)) := by omega
    rw [splice, splice, htake, hdrop, List.take_length_add_append, List.drop_length_add_append,
      List.append_assoc]

theorem commentSpans_head (pos : Nat) (lexemes : List Lexeme) :
    ∀ span ∈ (commentSpans pos lexemes).head?, pos ≤ span.1 ∧ span.1 ≤ span.2 := by
  induction lexemes generalizing pos with
  | nil =>
    intro span hspan
    cases hspan
  | cons x lexemes ih =>
    intro span hspan
    rw [commentSpans] at hspan
    split at hspan
    · cases hspan
      exact ⟨Nat.le_refl pos, Nat.le_add_right pos _⟩
    · obtain ⟨hstart, hstop⟩ := ih _ span hspan
      exact ⟨Nat.le_trans (Nat.le_add_right pos _) hstart, hstop⟩

/-- The spans of the comments leave the other lexemes. -/
theorem splice_commentSpans (pos : Nat) (lexemes : List Lexeme) :
    splice pos (textOf lexemes) (commentSpans pos lexemes) = textOf (withoutComments lexemes) := by
  induction lexemes generalizing pos with
  | nil => rfl
  | cons x lexemes ih =>
    have htext : textOf (x :: lexemes) = x.text ++ textOf lexemes := rfl
    rw [commentSpans, withoutComments, htext]
    cases hkind : x.isLine || x.isBlock with
    | true =>
      rw [if_pos rfl, List.filter_cons_of_neg (by rw [hkind]; decide), splice, Nat.sub_self,
        List.take_zero, List.nil_append, Nat.add_sub_cancel_left, List.drop_left, ih]
      rfl
    | false =>
      rw [if_neg Bool.false_ne_true, List.filter_cons_of_pos (by rw [hkind]; decide),
        splice_kept pos _ _ (commentSpans_head _ lexemes), ih]
      rfl

end Spans

end RemyCC.Text
