import RemyCC.Text.CSource
import RemyCC.Index.CPatterns

/-!
# Comments and the patterns of C

Two searches blank the comments, first those in blocks, then those on lines.
Neither knows of literals, nor the first of comments on lines, nor the second
of line breaks behind a backslash. Where that makes no difference, the facts of
a file are those of its text with just the comments of C blanked.
-/

namespace RemyCC.Index

open Text

section Places

variable {find : List Char → Option (Nat × List Char)}

/-- Nothing is found at any place of a text, with the rest behind it. -/
def Unmatched (find : List Char → Option (Nat × List Char)) : List Char → List Char → Prop
  | [], _ => True
  | c :: text, rest => find (c :: (text ++ rest)) = none ∧ Unmatched find text rest

/-- What is found at the places of a text ends in it. -/
def Contained (find : List Char → Option (Nat × List Char)) : Nat → List Char → List Char → Prop
  | 0, [], _ => True
  | _ + 1, [], _ => False
  | skip + 1, _ :: text, rest => Contained find skip text rest
  | 0, c :: text, rest =>
    match find (c :: (text ++ rest)) with
    | some m => Contained find (m.1 - 1) text rest
    | none => Contained find 0 text rest

instance : ∀ text rest, Decidable (Unmatched find text rest)
  | [], _ => isTrue trivial
  | _ :: text, rest =>
    haveI : Decidable (Unmatched find text rest) := instDecidableUnmatched text rest
    inferInstanceAs (Decidable (_ ∧ _))

theorem contained_some {c : Char} {text rest : List Char} {m : Nat × List Char}
    (h : find (c :: (text ++ rest)) = some m) :
    Contained find 0 (c :: text) rest ↔ Contained find (m.1 - 1) text rest := by
  rw [Contained, h]

theorem contained_none {c : Char} {text rest : List Char} (h : find (c :: (text ++ rest)) = none) :
    Contained find 0 (c :: text) rest ↔ Contained find 0 text rest := by
  rw [Contained, h]

def decidableContained : ∀ skip text rest, Decidable (Contained find skip text rest)
  | 0, [], _ => isTrue trivial
  | _ + 1, [], _ => isFalse id
  | skip + 1, _ :: text, rest => decidableContained skip text rest
  | 0, c :: text, rest =>
    match h : find (c :: (text ++ rest)) with
    | some m => haveI := decidableContained (m.1 - 1) text rest
      decidable_of_iff (Contained find (m.1 - 1) text rest) (contained_some h).symm
    | none => haveI := decidableContained 0 text rest
      decidable_of_iff (Contained find 0 text rest) (contained_none h).symm

instance (skip : Nat) (text rest : List Char) : Decidable (Contained find skip text rest) :=
  decidableContained skip text rest

theorem replaceMatches_unmatched {text rest : List Char} (h : Unmatched find text rest) :
    replaceMatches find 0 (text ++ rest) = text ++ replaceMatches find 0 rest := by
  induction text with
  | nil => rfl
  | cons c text ih => rw [List.cons_append, replaceMatches_none h.1, ih h.2, List.cons_append]

end Places

section Blocks

variable {text rest : List Char} {c : Char}

theorem blank_length (text : List Char) : (blank text).length = text.length := List.length_map ..

theorem newline_not_mem_blank (h : '\n' ∉ text) : '\n' ∉ blank text := by
  intro hmem
  obtain ⟨c, hc, hblank⟩ := List.mem_map.mp hmem
  unfold blankChar at hblank
  split at hblank
  · next heq => exact h (heq ▸ hc)
  · cases hblank

theorem slash_not_mem_blank (text : List Char) : '/' ∉ blank text := by
  intro hmem
  obtain ⟨c, -, hblank⟩ := List.mem_map.mp hmem
  unfold blankChar at hblank
  split at hblank <;> cases hblank

theorem blank_eq_replicate (h : '\n' ∉ text) : blank text = List.replicate text.length ' ' := by
  refine List.eq_replicate_iff.mpr ⟨blank_length text, fun c hc => ?_⟩
  obtain ⟨d, hd, rfl⟩ := List.mem_map.mp hc
  exact if_neg fun heq : d = '\n' => h (heq ▸ hd)

theorem findBlock_some {m : Nat × List Char} (h : findBlock text = some m) :
    4 ≤ m.1 ∧ ['/', '*'] <+: text := by
  unfold findBlock at h
  split at h
  · next hopen =>
    obtain ⟨body, -, rfl⟩ := Option.map_eq_some_iff.mp h
    exact ⟨Nat.le_add_left 4 _, hopen⟩
  · cases h

theorem blankBlock_some {m : Nat × List Char} (h : blankBlock text = some m) :
    4 ≤ m.1 ∧ ['/', '*'] <+: text ∧ m.2 = blank (text.take m.1) := by
  obtain ⟨n, hn, rfl⟩ := Option.map_eq_some_iff.mp h
  obtain ⟨hlength, hopen⟩ := findBlock_some hn
  exact ⟨hlength, hopen, rfl⟩

theorem blankBlock_none (h : ¬ ['/', '*'] <+: text) : blankBlock text = none := by
  rw [blankBlock, findBlock_none h]
  rfl

/-- Blanking blocks brings no slash to the front. -/
theorem head_blankBlocks (h : (replaceMatches blankBlock 0 text).head? = some '/') :
    text.head? = some '/' := by
  cases text with
  | nil => cases h
  | cons c text =>
    rw [replaceMatches] at h
    split at h
    · next length new hm =>
      obtain ⟨hlength, -, hnew⟩ := blankBlock_some hm
      dsimp only at hlength hnew
      obtain ⟨n, hn⟩ := Nat.exists_eq_add_of_le hlength
      rw [hnew, hn, show 4 + n = (3 + n) + 1 by omega, List.take_succ_cons] at h
      have hmem : '/' ∈ blank (c :: text.take (3 + n)) := by
        rw [show '/' = blankChar c from (Option.some.inj h).symm]
        exact List.mem_cons_self
      exact absurd hmem (slash_not_mem_blank _)
    · exact h

theorem blankBlocks_lineEnd (h : ∀ c ∈ text.head?, c = '\n') :
    ∀ c ∈ (replaceMatches blankBlock 0 text).head?, c = '\n' := by
  cases text with
  | nil => exact h
  | cons c text =>
    have hc : c = '\n' := h c rfl
    have hnone : blankBlock (c :: text) = none := by
      refine blankBlock_none fun hopen => ?_
      rw [List.cons_prefix_cons, hc] at hopen
      exact absurd hopen.1 (by decide)
    rw [replaceMatches_none hnone]
    exact h

/-- What is left of a line whose blocks end in it is as long and still one line. -/
theorem blankBlocks_contained {skip : Nat} (h : Contained blankBlock skip text rest)
    (hline : '\n' ∉ text) : ∃ new, replaceMatches blankBlock skip (text ++ rest) =
      new ++ replaceMatches blankBlock 0 rest ∧ new.length + skip = text.length ∧ '\n' ∉ new := by
  induction text generalizing skip with
  | nil =>
    cases skip with
    | zero => exact ⟨[], rfl, rfl, List.not_mem_nil⟩
    | succ skip => exact h.elim
  | cons c text ih =>
    rw [List.mem_cons, not_or] at hline
    obtain ⟨hc, htext⟩ := hline
    cases skip with
    | succ skip =>
      obtain ⟨new, heq, hlength, hnew⟩ := ih h htext
      exact ⟨new, heq, by rw [List.length_cons, ← hlength, Nat.add_assoc], hnew⟩
    | zero =>
      rw [Contained] at h
      rw [List.cons_append, replaceMatches]
      split at h
      · next m hm =>
        obtain ⟨new, heq, hlength, hnew⟩ := ih h htext
        obtain ⟨hfour, -, hblank⟩ := blankBlock_some hm
        have htake : (c :: (text ++ rest)).take m.1 = c :: text.take (m.1 - 1) := by
          obtain ⟨n, hn⟩ := Nat.exists_eq_add_of_le hfour
          rw [hn, show 4 + n = (3 + n) + 1 by omega, List.take_succ_cons, Nat.add_sub_cancel,
            List.take_append_of_le_length (by omega)]
        rw [htake] at hblank
        rw [hm]
        refine ⟨m.2 ++ new, ?_, ?_, ?_⟩
        · dsimp only
          rw [heq, List.append_assoc]
        · rw [List.length_append, hblank, blank_length, List.length_cons, List.length_take,
            List.length_cons]
          omega
        · rw [List.mem_append, not_or, hblank]
          refine ⟨newline_not_mem_blank ?_, hnew⟩
          rw [List.mem_cons, not_or]
          exact ⟨hc, fun hmem => htext (List.mem_of_mem_take hmem)⟩
      · next hm =>
        obtain ⟨new, heq, hlength, hnew⟩ := ih h htext
        rw [hm]
        refine ⟨c :: new, ?_, ?_, ?_⟩
        · dsimp only
          rw [heq, List.cons_append]
        · rw [List.length_cons, List.length_cons, ← hlength]
        · rw [List.mem_cons, not_or]
          exact ⟨hc, hnew⟩

end Blocks

section Lines

variable {text rest rest' : List Char}

theorem blankLine_none (h : ¬ ['/', '/'] <+: text) : blankLine text = none := by
  rw [blankLine, findLine_none h]
  rfl

/-- Only the first character of what is behind a text matters to it. -/
theorem unopened_of_head (h : Unopened ['/', '/'] text rest)
    (hhead : rest'.head? = some '/' → rest.head? = some '/') :
    Unopened ['/', '/'] text rest' := by
  induction text with
  | nil => trivial
  | cons c text ih =>
    refine ⟨fun hopen => h.1 ?_, ih h.2⟩
    obtain ⟨hc, htail⟩ := List.cons_prefix_cons.mp hopen
    refine List.cons_prefix_cons.mpr ⟨hc, ?_⟩
    cases text with
    | cons d text => exact List.cons_prefix_cons.mpr ⟨(List.cons_prefix_cons.mp htail).1,
        List.nil_prefix⟩
    | nil =>
      have hfirst : ∀ l : List Char, ['/'] <+: l ↔ l.head? = some '/' := by
        intro l
        cases l with
        | nil => simp
        | cons d l => simp [eq_comm]
      exact (hfirst _).mpr (hhead ((hfirst _).mp htail))

theorem unopened_blank (text rest : List Char) : Unopened ['/', '/'] (blank text) rest := by
  have hall : ∀ l : List Char, '/' ∉ l → Unopened ['/', '/'] l rest := by
    intro l
    induction l with
    | nil => exact fun _ => trivial
    | cons c l ih =>
      intro h
      rw [List.mem_cons, not_or] at h
      obtain ⟨hc, hl⟩ := h
      exact ⟨fun hopen => hc (List.cons_prefix_cons.mp hopen).1, ih hl⟩
  exact hall _ (slash_not_mem_blank text)

theorem blankLine_comment (h : LineComment ['/', '/'] text rest) :
    text ≠ [] ∧ blankLine (text ++ rest) = some (text.length, List.replicate text.length ' ') := by
  obtain ⟨hne, hfind⟩ := findLine_comment (List.cons_ne_nil _ _) h
  refine ⟨hne, ?_⟩
  rw [blankLine, hfind]
  rfl

end Lines

section Delimiters

/-- What the two searches need of a lexeme, with the text behind it. A comment on a
line starts with two slashes and ends with the line, and a block that opens in it
ends in it; a block comment ends; in all else no block is found and no two slashes are. -/
def Delimits : Lexeme → List Char → Prop
  | .line text, rest => LineComment ['/', '/'] text rest ∧
      Unmatched blankBlock (text.take 2) (text.drop 2 ++ rest) ∧
      Contained blankBlock 0 (text.drop 2) rest
  | .block text, _ => BlockComment text
  | .blank text, rest => Unmatched blankBlock text rest ∧ Unopened ['/', '/'] text rest
  | .token text, rest => Unmatched blankBlock text rest ∧ Unopened ['/', '/'] text rest

instance : ∀ x rest, Decidable (Delimits x rest)
  | .line _, _ => inferInstanceAs (Decidable (_ ∧ _ ∧ _))
  | .block text, _ => inferInstanceAs (Decidable (BlockComment text))
  | .blank _, _ => inferInstanceAs (Decidable (_ ∧ _))
  | .token _, _ => inferInstanceAs (Decidable (_ ∧ _))

def Delimited (source : List Char) : Prop := Along Delimits (cLexemes source)

instance (source : List Char) : Decidable (Delimited source) :=
  inferInstanceAs (Decidable (Along Delimits (cLexemes source)))

def blankLexeme : Lexeme → Lexeme
  | .line text => .line (blank text)
  | .block text => .block (blank text)
  | .blank text => .blank text
  | .token text => .token text

/-- A text with its comments blanked. -/
def blanked (source : List Char) : List Char := textOf ((cLexemes source).map blankLexeme)

theorem blankComments_lexemes {lexemes : List Lexeme} (h : Along Delimits lexemes) :
    blankComments (textOf lexemes) = textOf (lexemes.map blankLexeme) := by
  induction lexemes with
  | nil => rfl
  | cons x lexemes ih =>
    obtain ⟨hx, hrest⟩ := h
    have hlater := ih hrest
    have htext : textOf (x :: lexemes) = x.text ++ textOf lexemes := rfl
    have hblanked : textOf ((x :: lexemes).map blankLexeme) =
        (blankLexeme x).text ++ textOf (lexemes.map blankLexeme) := rfl
    have hplain : Unmatched blankBlock x.text (textOf lexemes) →
        Unopened ['/', '/'] x.text (textOf lexemes) →
        blankComments (x.text ++ textOf lexemes) = x.text ++ textOf (lexemes.map blankLexeme) := by
      intro hblock hline
      rw [blankComments, replaceMatches_unmatched hblock,
        replaceMatches_unopened (fun _ => blankLine_none) (unopened_of_head hline head_blankBlocks)]
      exact congrArg _ hlater
    rw [htext, hblanked]
    cases x with
    | blank text => exact hplain hx.1 hx.2
    | token text => exact hplain hx.1 hx.2
    | block text =>
      obtain ⟨hne, hfind⟩ := findBlock_comment hx (textOf lexemes)
      have hblank : blankBlock (text ++ textOf lexemes) = some (text.length, blank text) := by
        rw [blankBlock, hfind, Option.map_some, List.take_left]
      rw [Lexeme.text, blankComments, replaceMatches_some hne hblank,
        replaceMatches_unopened (fun _ => blankLine_none) (unopened_blank _ _)]
      exact congrArg _ hlater
    | line text =>
      obtain ⟨hcomment, hstart, hinside⟩ := hx
      obtain ⟨⟨body, rfl⟩, hbody, hend⟩ := hcomment
      rw [List.drop_left] at hbody
      have hbodyText : List.drop 2 (['/', '/'] ++ body) = body := rfl
      have hopening : List.take 2 (['/', '/'] ++ body) = ['/', '/'] := rfl
      rw [hbodyText] at hstart hinside
      rw [hopening] at hstart
      obtain ⟨new, hnew, hlength, hline⟩ := blankBlocks_contained hinside hbody
      have hcomment : LineComment ['/', '/'] (['/', '/'] ++ new)
          (replaceMatches blankBlock 0 (textOf lexemes)) :=
        ⟨List.prefix_append _ _, by rwa [List.drop_left], blankBlocks_lineEnd hend⟩
      obtain ⟨hne, hfind⟩ := blankLine_comment hcomment
      have hsame : List.replicate (['/', '/'] ++ new).length ' ' = blank (['/', '/'] ++ body) := by
        rw [blank_eq_replicate (by simpa using hbody), List.length_append, List.length_append,
          ← hlength, Nat.add_zero]
      rw [Lexeme.text, blankComments, List.append_assoc, replaceMatches_unmatched hstart, hnew,
        ← List.append_assoc, replaceMatches_some hne hfind, hsame]
      exact congrArg _ hlater

theorem blankComments_eq {source : List Char} (h : Delimited source) :
    blankComments source = blanked source := by
  have hblanked := blankComments_lexemes h
  rwa [textOf_cLexemes] at hblanked

/-- The texts differ in nothing but the characters of their comments, line breaks apart. -/
def SameCode (source source' : List Char) : Prop :=
  (cLexemes source').map blankLexeme = (cLexemes source).map blankLexeme

instance (source source' : List Char) : Decidable (SameCode source source') :=
  inferInstanceAs (Decidable (_ = _))

end Delimiters

/-- Between a literal that opens a block and one that ends it, a definition is not seen. -/
def quotedBlock : String := "char *a = \"/*\";\ntypedef int (*hook)(int);\nchar *b = \"*/\";\n"

theorem quotedBlock_facts : extractCPatterns .ascii quotedBlock = [] ∧
    scanPatterns .ascii (blanked quotedBlock.toList) =
      [⟨"c_fnptr_typedef", some "hook", none, some 2, some "\x7b\"kind\": \"fnptr\"\x7d"⟩] := by
  decide +kernel

end RemyCC.Index
