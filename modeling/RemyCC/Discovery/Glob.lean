import Mathlib.Computability.Language

/-!
# The language of a shell pattern

The characters of a pattern are read as a list of pieces in exactly one way, and
a list of pieces stands for the product of their languages.
-/

namespace RemyCC.Discovery.Glob

inductive Item where
  | single (c : Char)
  | range (lo hi : Char)
  deriving DecidableEq, Repr

def Item.Holds (c : Char) : Item → Prop
  | .single d => c = d
  | .range lo hi => lo ≤ c ∧ c ≤ hi

inductive Piece where
  | star
  | any
  | one (c : Char)
  | cls (negated : Bool) (items : List Item)
  deriving DecidableEq, Repr

def Piece.language : Piece → Language Char
  | .star => Set.univ
  | .any => {word | ∃ c, word = [c]}
  | .one d => {word | word = [d]}
  | .cls negated items => {word | ∃ c, word = [c] ∧ (negated = false ↔ ∃ item ∈ items, item.Holds c)}

def language (pieces : List Piece) : Language Char := (pieces.map Piece.language).prod

/-- What stands between the brackets of a class is read from the left: three
characters with a `-` in the middle are a range, any other is single. -/
inductive Spells : List Char → List Item → Prop
  | nil : Spells [] []
  | range {lo hi : Char} {rest : List Char} {items : List Item} (h : Spells rest items) :
    Spells (lo :: '-' :: hi :: rest) (.range lo hi :: items)
  | single {c : Char} {rest : List Char} {items : List Item}
    (hrest : ∀ hi more, rest ≠ '-' :: hi :: more) (h : Spells rest items) :
    Spells (c :: rest) (.single c :: items)

/-- The text after a `[` is a class with this body. Only the first character of
the body may be a `]`. -/
structure Closes (text : List Char) (negated : Bool) (body rest : List Char) : Prop where
  split : text = (if negated then ['!'] else []) ++ (body ++ ']' :: rest)
  plain : negated = false → text.head? ≠ some '!'
  nonempty : body ≠ []
  inner : ']' ∉ body.tail

inductive Reads : List Char → List Piece → Prop
  | nil : Reads [] []
  | star {rest : List Char} {pieces : List Piece} (h : Reads rest pieces) :
    Reads ('*' :: rest) (.star :: pieces)
  | any {rest : List Char} {pieces : List Piece} (h : Reads rest pieces) :
    Reads ('?' :: rest) (.any :: pieces)
  | cls {text body rest : List Char} {negated : Bool} {items : List Item} {pieces : List Piece}
    (hclose : Closes text negated body rest) (hbody : Spells body items) (h : Reads rest pieces) :
    Reads ('[' :: text) (.cls negated items :: pieces)
  | bracket {text : List Char} {pieces : List Piece}
    (hopen : ∀ negated body rest, ¬Closes text negated body rest) (h : Reads text pieces) :
    Reads ('[' :: text) (.one '[' :: pieces)
  | one {c : Char} {rest : List Char} {pieces : List Piece} (hc : c ∉ ['*', '?', '['])
    (h : Reads rest pieces) : Reads (c :: rest) (.one c :: pieces)

section Unique

theorem Spells.exists (body : List Char) : ∃ items, Spells body items := by
  induction hlength : body.length using Nat.strong_induction_on generalizing body with
  | _ n ih =>
    subst hlength
    match body with
    | [] => exact ⟨[], .nil⟩
    | c :: rest =>
      by_cases hrange : ∃ hi more, rest = '-' :: hi :: more
      · obtain ⟨hi, more, rfl⟩ := hrange
        obtain ⟨items, hitems⟩ := ih more.length (by simp only [List.length_cons]; omega) more rfl
        exact ⟨_, hitems.range⟩
      · obtain ⟨items, hitems⟩ := ih rest.length (by simp) rest rfl
        exact ⟨_, hitems.single fun hi more heq => hrange ⟨hi, more, heq⟩⟩

theorem Spells.unique {body : List Char} {items items' : List Item} (h : Spells body items)
    (h' : Spells body items') : items = items' := by
  induction h generalizing items' with
  | nil => cases h'; rfl
  | range h ih =>
    cases h' with
    | range h' => rw [ih h']
    | single hrest _ => exact absurd rfl (hrest _ _)
  | single hrest h ih =>
    cases h' with
    | range _ => exact absurd rfl (hrest _ _)
    | single _ h' => rw [ih h']

theorem takeWhile_close {inner rest : List Char} (h : ']' ∉ inner) :
    (inner ++ ']' :: rest).takeWhile (· != ']') = inner ∧
      (inner ++ ']' :: rest).dropWhile (· != ']') = ']' :: rest := by
  have hinner : ∀ c ∈ inner, (c != ']') = true := fun c hc =>
    bne_iff_ne.mpr fun heq => h (heq ▸ hc)
  rw [List.takeWhile_append_of_pos hinner, List.dropWhile_append_of_pos hinner]
  exact ⟨List.append_nil inner, rfl⟩

variable {text body body' rest rest' : List Char} {negated negated' : Bool}

/-- The body of a class ends at the first `]` after its first character. -/
theorem Closes.unique (h : Closes text negated body rest) (h' : Closes text negated' body' rest') :
    negated = negated' ∧ body = body' ∧ rest = rest' := by
  have hnegated : negated = negated' := by
    rcases negated with _ | _ <;> rcases negated' with _ | _
    · rfl
    · exact absurd (by rw [h'.split]; rfl) (h.plain rfl)
    · exact absurd (by rw [h.split]; rfl) (h'.plain rfl)
    · rfl
  subst hnegated
  have htext := List.append_cancel_left (h.split.symm.trans h'.split)
  obtain ⟨c, inner, rfl⟩ := List.exists_cons_of_ne_nil h.nonempty
  obtain ⟨c', inner', rfl⟩ := List.exists_cons_of_ne_nil h'.nonempty
  obtain rfl : c = c' := (List.cons.inj htext).1
  have htail : inner ++ ']' :: rest = inner' ++ ']' :: rest' := (List.cons.inj htext).2
  obtain ⟨htake, hdrop⟩ := @takeWhile_close inner rest h.inner
  obtain ⟨htake', hdrop'⟩ := @takeWhile_close inner' rest' h'.inner
  rw [htail, htake'] at htake
  rw [htail, hdrop'] at hdrop
  exact ⟨rfl, congrArg (c :: ·) htake.symm, (List.cons.inj hdrop).2.symm⟩

theorem Closes.length (h : Closes text negated body rest) : rest.length < text.length := by
  rw [h.split, List.length_append, List.length_append, List.length_cons]
  omega

theorem Reads.exists (pattern : List Char) : ∃ pieces, Reads pattern pieces := by
  induction hlength : pattern.length using Nat.strong_induction_on generalizing pattern with
  | _ n ih =>
    subst hlength
    cases pattern with
    | nil => exact ⟨[], .nil⟩
    | cons c text =>
      obtain ⟨pieces, hpieces⟩ := ih text.length (Nat.lt_succ_self _) text rfl
      by_cases hstar : c = '*'
      · exact ⟨_, hstar ▸ hpieces.star⟩
      by_cases hany : c = '?'
      · exact ⟨_, hany ▸ hpieces.any⟩
      by_cases hopen : c = '['
      · subst hopen
        by_cases hclose : ∃ negated body rest, Closes text negated body rest
        · obtain ⟨negated, body, rest, hclose⟩ := hclose
          obtain ⟨items, hbody⟩ := Spells.exists body
          obtain ⟨pieces, hpieces⟩ := ih rest.length (hclose.length.trans (Nat.lt_succ_self _)) rest rfl
          exact ⟨_, hpieces.cls hclose hbody⟩
        · exact ⟨_, hpieces.bracket fun negated body rest h => hclose ⟨negated, body, rest, h⟩⟩
      · exact ⟨_, hpieces.one (by simp [hstar, hany, hopen])⟩

theorem Reads.unique {pattern : List Char} {pieces pieces' : List Piece} (h : Reads pattern pieces)
    (h' : Reads pattern pieces') : pieces = pieces' := by
  induction h generalizing pieces' with
  | nil => cases h'; rfl
  | star h ih =>
    cases h' with
    | star h' => rw [ih h']
    | one hc _ => exact absurd (by decide) hc
  | any h ih =>
    cases h' with
    | any h' => rw [ih h']
    | one hc _ => exact absurd (by decide) hc
  | cls hclose hbody h ih =>
    cases h' with
    | cls hclose' hbody' h' =>
      obtain ⟨rfl, rfl, rfl⟩ := hclose.unique hclose'
      rw [ih h', hbody.unique hbody']
    | bracket hopen _ => exact absurd hclose (hopen _ _ _)
    | one hc _ => exact absurd (by decide) hc
  | bracket hopen h ih =>
    cases h' with
    | cls hclose' _ _ => exact absurd hclose' (hopen _ _ _)
    | bracket _ h' => rw [ih h']
    | one hc _ => exact absurd (by decide) hc
  | one hc h ih =>
    cases h' with
    | star | any | cls | bracket => exact absurd (by decide) hc
    | one _ h' => rw [ih h']

end Unique

section Words

variable {pieces : List Piece} {word : List Char}

theorem mem_any : word ∈ Piece.any.language ↔ ∃ c, word = [c] := .rfl

theorem mem_one {c : Char} : word ∈ (Piece.one c).language ↔ word = [c] := .rfl

theorem mem_cls {negated : Bool} {items : List Item} : word ∈ (Piece.cls negated items).language ↔
    ∃ c, word = [c] ∧ (negated = false ↔ ∃ item ∈ items, item.Holds c) := .rfl

theorem mem_language_nil : word ∈ language [] ↔ word = [] := Language.mem_one word

theorem mem_language_cons {piece : Piece} : word ∈ language (piece :: pieces) ↔
    ∃ front ∈ piece.language, ∃ back ∈ language pieces, front ++ back = word := by
  rw [language, List.map_cons, List.prod_cons, Language.mem_mul, language]

theorem mem_language_star :
    word ∈ language (.star :: pieces) ↔ ∃ back, back <:+ word ∧ back ∈ language pieces := by
  rw [mem_language_cons]
  constructor
  · rintro ⟨front, -, back, hback, rfl⟩
    exact ⟨back, List.suffix_append front back, hback⟩
  · rintro ⟨back, ⟨front, rfl⟩, hback⟩
    exact ⟨front, trivial, back, hback, rfl⟩

/-- Two stars in a row stand for what one does. -/
theorem mem_language_star_star :
    word ∈ language (.star :: .star :: pieces) ↔ word ∈ language (.star :: pieces) := by
  rw [mem_language_star]
  constructor
  · rintro ⟨back, hback, h⟩
    obtain ⟨back', hback', h⟩ := mem_language_star.mp h
    exact mem_language_star.mpr ⟨back', hback'.trans hback, h⟩
  · exact fun h => ⟨word, List.suffix_rfl, h⟩

end Words

end RemyCC.Discovery.Glob
