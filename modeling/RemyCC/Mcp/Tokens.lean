import RemyCC.Index.Tokens
import RemyCC.Text.Words

/-!
# The words of a query

The search puts a space before a character by its two neighbours. The regular
expressions of the index put it at the same places: a match ends where the next
boundary can be at the earliest.
-/

namespace RemyCC.Mcp

open Index Text

/-- The characters of a text, with a space before each one at a boundary. -/
def spaceBefore (boundary : Option Char → Char → Option Char → Bool) :
    Option Char → List Char → List Char
  | _, [] => []
  | prev, c :: rest =>
    (if boundary prev c rest.head? then [' ', c] else [c]) ++ spaceBefore boundary (some c) rest

def isLowerUpper (prev : Option Char) (c : Char) (_next : Option Char) : Bool :=
  prev.any isAsciiLower && isAsciiUpper c

def isAcronymEnd (prev : Option Char) (c : Char) (next : Option Char) : Bool :=
  prev.any isAsciiUpper && isAsciiUpper c && next.any isAsciiLower

def isWordStart (prev : Option Char) (c : Char) (next : Option Char) : Bool :=
  isLowerUpper prev c next || isAcronymEnd prev c next

def tokenizeSymbol (name : String) : String :=
  let spaced := (replaceAll "::" " " (replaceChar '_' ' ' name)).toList
  let out := spaceBefore isWordStart none spaced
  String.ofList ([' '].intercalate (words isWhitespace out))

section Classes

theorem isAsciiUpper_of_lower {c : Char} (h : isAsciiLower c = true) : isAsciiUpper c = false := by
  simp only [isAsciiLower, isAsciiUpper, Bool.and_eq_true, decide_eq_true_eq, Bool.and_eq_false_iff,
    decide_eq_false_iff_not] at h ⊢
  right
  intro hc
  exact absurd (Char.le_trans h.1 hc) (by decide)

theorem isAsciiLower_of_upper {c : Char} (h : isAsciiUpper c = true) : isAsciiLower c = false := by
  by_contra htrue
  rw [isAsciiUpper_of_lower (by simpa using htrue)] at h
  cases h

theorem isAsciiUpper_blank : isAsciiUpper ' ' = false := by decide

end Classes

section Boundaries

theorem spaceBefore_cons (boundary : Option Char → Char → Option Char → Bool) (prev : Option Char)
    (c : Char) (rest : List Char) : spaceBefore boundary prev (c :: rest) =
      (if boundary prev c rest.head? then [' ', c] else [c]) ++
        spaceBefore boundary (some c) rest := rfl

/-- A space before a character hides no boundary of the second kind. -/
theorem spaceBefore_spaceBefore (prev : Option Char) (text : List Char) :
    spaceBefore isAcronymEnd prev (spaceBefore isLowerUpper prev text) =
      spaceBefore isWordStart prev text := by
  induction text generalizing prev with
  | nil => rfl
  | cons c rest ih =>
    rw [spaceBefore_cons isLowerUpper, spaceBefore_cons isWordStart]
    cases hlower : isLowerUpper prev c rest.head? with
    | true =>
      have hprev : prev.any isAsciiLower = true ∧ isAsciiUpper c = true := by
        simpa [isLowerUpper] using hlower
      have hstart : isWordStart prev c rest.head? = true := by simp [isWordStart, hlower]
      simp only [hstart, if_true, List.cons_append, List.nil_append, spaceBefore_cons, ih]
      simp [isAcronymEnd, isAsciiUpper_blank]
    | false =>
      have hsame : isAcronymEnd prev c (spaceBefore isLowerUpper (some c) rest).head? =
          isAcronymEnd prev c rest.head? := by
        cases hupper : isAsciiUpper c with
        | false => simp [isAcronymEnd, hupper]
        | true =>
          have hnot := isAsciiLower_of_upper hupper
          cases rest with
          | nil => rfl
          | cons d rest => simp [spaceBefore_cons, isLowerUpper, hnot]
      simp only [Bool.false_eq_true, if_false, List.cons_append, List.nil_append, spaceBefore_cons,
        hsame, ih, isWordStart, hlower, Bool.false_or]

end Boundaries

section LowerUpper

theorem lowerUpper_match {c d : Char} (hc : isAsciiLower c = true) (hd : isAsciiUpper d = true)
    (rest : List Char) : lowerUpper (c :: d :: rest) = some (2, [c, ' ', d]) := by
  simp [lowerUpper, spaceGroups, Pattern.groups, Pattern.lengths, hc, hd]

theorem lowerUpper_none {c : Char} {rest : List Char}
    (h : isAsciiLower c = false ∨ rest.head?.any isAsciiUpper = false) :
    lowerUpper (c :: rest) = none := by
  rcases h with hc | hd
  · simp [lowerUpper, spaceGroups, Pattern.groups, Pattern.lengths, hc]
  cases rest with
  | nil => cases hc : isAsciiLower c <;>
      simp [lowerUpper, spaceGroups, Pattern.groups, Pattern.lengths, hc]
  | cons d rest =>
    have hd : isAsciiUpper d = false := by simpa using hd
    cases hc : isAsciiLower c <;>
      simp [lowerUpper, spaceGroups, Pattern.groups, Pattern.lengths, hc, hd]

/-- Behind a match there is no boundary at once, as its last letter is upper case. -/
theorem replace_lowerUpper (text : List Char) (prev : Option Char)
    (hprev : prev.any isAsciiLower = false ∨ text.head?.any isAsciiUpper = false) :
    replaceMatches lowerUpper 0 text = spaceBefore isLowerUpper prev text := by
  induction hlength : text.length using Nat.strongRecOn generalizing text prev with
  | ind n ih =>
    cases text with
    | nil => rfl
    | cons c rest =>
      have hfirst : isLowerUpper prev c rest.head? = false := by
        rcases hprev with h | h
        · simp [isLowerUpper, h]
        · have hc : isAsciiUpper c = false := by simpa using h
          simp [isLowerUpper, hc]
      rw [spaceBefore_cons, hfirst]
      by_cases hmatch : isAsciiLower c = true ∧ rest.head?.any isAsciiUpper = true
      · obtain ⟨hc, hd⟩ := hmatch
        cases rest with
        | nil => cases hd
        | cons d rest =>
          have hd : isAsciiUpper d = true := by simpa using hd
          have hlower := isAsciiLower_of_upper hd
          have hrest := ih rest.length (by simp at hlength; omega) rest (some d)
            (Or.inl (by simpa using hlower)) rfl
          have hreplaced := @replaceMatches_some lowerUpper [c, d] [c, ' ', d] rest (by simp)
            (lowerUpper_match hc hd rest)
          rw [List.cons_append, List.cons_append, List.nil_append] at hreplaced
          rw [hreplaced, hrest, spaceBefore_cons]
          simp [isLowerUpper, hc, hd]
      · have hnone : isAsciiLower c = false ∨ rest.head?.any isAsciiUpper = false := by
          rw [← Bool.not_eq_true, ← Bool.not_eq_true]
          exact Decidable.not_and_iff_or_not.mp hmatch
        have hrest := ih rest.length (by simp at hlength; omega) rest (some c)
          (hnone.imp (by simp) id) rfl
        rw [replaceMatches_none (lowerUpper_none hnone), hrest]
        rfl

end LowerUpper

section Acronyms

def wordEnd : Pattern := .seq (.one isAsciiUpper) (.one isAsciiLower)

theorem wordEnd_lengths {u x : Char} (hu : isAsciiUpper u = true) (hx : isAsciiLower x = true)
    (rest : List Char) : wordEnd.lengths (u :: x :: rest) = [2] := by
  simp [wordEnd, Pattern.lengths, hu, hx]

theorem of_wordEnd {text : List Char} {m : Nat} (h : (wordEnd.lengths text).head? = some m) :
    m = 2 ∧ ∃ u x rest, text = u :: x :: rest ∧ isAsciiUpper u = true ∧ isAsciiLower x = true := by
  cases text with
  | nil => simp [wordEnd, Pattern.lengths] at h
  | cons u rest =>
    cases hu : isAsciiUpper u with
    | false => simp [wordEnd, Pattern.lengths, hu] at h
    | true =>
      cases rest with
      | nil => simp [wordEnd, Pattern.lengths, hu] at h
      | cons x rest =>
        cases hx : isAsciiLower x with
        | false => simp [wordEnd, Pattern.lengths, hu, hx] at h
        | true =>
          rw [wordEnd_lengths hu hx] at h
          exact ⟨(Option.some.inj h).symm, u, x, rest, rfl, hu, hx⟩

/-- A match is a run of upper-case letters, the last of which starts a word. -/
structure Acronym (text : List Char) (n : Nat) (us : List Char) (u x : Char) (rest : List Char) :
    Prop where
  split : text = us ++ u :: x :: rest
  length : us.length = n
  run : us ≠ []
  upper : ∀ a ∈ us, isAsciiUpper a = true
  last : isAsciiUpper u = true
  next : isAsciiLower x = true

theorem of_groups {text : List Char} {n m : Nat}
    (h : Pattern.groups (.many isAsciiUpper) wordEnd text = some (n, m)) :
    m = 2 ∧ ∃ us u x rest, Acronym text n us u x rest := by
  induction text generalizing n with
  | nil => cases h
  | cons c text ih =>
    cases hc : isAsciiUpper c with
    | false =>
      rw [Pattern.groups_many_of_not hc] at h
      cases h
    | true =>
      rw [Pattern.groups_many hc, Option.or_eq_some_iff] at h
      rcases h with h | ⟨-, h⟩
      · obtain ⟨g, hg, heq⟩ := Option.map_eq_some_iff.mp h
        obtain ⟨rfl, rfl⟩ := Prod.mk.inj heq
        obtain ⟨hm, us, u, x, rest, hacronym⟩ := ih hg
        refine ⟨hm, c :: us, u, x, rest, ?_⟩
        exact { split := by rw [hacronym.split]; rfl
                length := by rw [List.length_cons, hacronym.length]
                run := List.cons_ne_nil _ _
                upper := List.forall_mem_cons.mpr ⟨hc, hacronym.upper⟩
                last := hacronym.last
                next := hacronym.next }
      · obtain ⟨m', hm', heq⟩ := Option.map_eq_some_iff.mp h
        obtain ⟨rfl, rfl⟩ := Prod.mk.inj heq
        obtain ⟨hm, u, x, rest, rfl, hu, hx⟩ := of_wordEnd hm'
        refine ⟨hm, [c], u, x, rest, ?_⟩
        exact { split := rfl
                length := rfl
                run := List.cons_ne_nil _ _
                upper := List.forall_mem_singleton.mpr hc
                last := hu
                next := hx }

theorem spaceBefore_run {us : List Char} {u x : Char} (hrun : us ≠ [])
    (hupper : ∀ a ∈ us, isAsciiUpper a = true) (hu : isAsciiUpper u = true)
    (hx : isAsciiLower x = true) (prev : Option Char) (rest : List Char) :
    spaceBefore isAcronymEnd prev (us ++ u :: x :: rest) =
      us ++ ' ' :: u :: x :: spaceBefore isAcronymEnd (some x) rest := by
  induction us generalizing prev with
  | nil => exact absurd rfl hrun
  | cons a us ih =>
    obtain ⟨ha, hupper⟩ := List.forall_mem_cons.mp hupper
    cases us with
    | nil =>
      have hlower := isAsciiLower_of_upper hu
      have hnot := isAsciiUpper_of_lower hx
      simp [spaceBefore_cons, isAcronymEnd, ha, hu, hx, hlower, hnot]
    | cons b us =>
      have hlower := isAsciiLower_of_upper (hupper b List.mem_cons_self)
      have hrest := ih (List.cons_ne_nil _ _) hupper (some a)
      have hfirst : isAcronymEnd prev a ((b :: us) ++ u :: x :: rest).head? = false := by
        simp [isAcronymEnd, hlower]
      rw [List.cons_append, spaceBefore_cons, hfirst, hrest]
      rfl

theorem acronym_eq (text : List Char) : acronym text =
    (Pattern.groups (.many isAsciiUpper) wordEnd text).map fun g =>
      (g.1 + g.2, text.take g.1 ++ ' ' :: (text.drop g.1).take g.2) := rfl

theorem acronym_ne_none {p c d : Char} (hp : isAsciiUpper p = true) (hc : isAsciiUpper c = true)
    (hd : isAsciiLower d = true) (rest : List Char) : acronym (p :: c :: d :: rest) ≠ none := by
  rw [acronym_eq, Pattern.groups_many hp, wordEnd_lengths hc hd]
  simp

/-- A boundary would have been matched together with the letter before it. -/
theorem replace_acronym (text : List Char) (prev : Option Char)
    (hprev : ∀ p ∈ prev, isAsciiUpper p = true → acronym (p :: text) = none) :
    replaceMatches acronym 0 text = spaceBefore isAcronymEnd prev text := by
  induction hlength : text.length using Nat.strongRecOn generalizing text prev with
  | ind n ih =>
    cases text with
    | nil => rfl
    | cons c rest =>
      cases hfind : acronym (c :: rest) with
      | none =>
        have hfirst : isAcronymEnd prev c rest.head? = false := by
          by_contra htrue
          simp only [isAcronymEnd, Bool.not_eq_false, Bool.and_eq_true, Option.any_eq_true] at htrue
          obtain ⟨⟨⟨p, hp, hpupper⟩, hc⟩, d, hd, hdlower⟩ := htrue
          obtain ⟨rest', rfl⟩ : ∃ rest', rest = d :: rest' := List.head?_eq_some_iff.mp hd
          exact acronym_ne_none hpupper hc hdlower rest' (hprev p hp hpupper)
        have hrest := ih rest.length (by simp at hlength; omega) rest (some c) (by
          intro p hp _
          rwa [← Option.mem_some_iff.mp hp]) rfl
        rw [replaceMatches_none hfind, hrest, spaceBefore_cons, hfirst]
        rfl
      | some found =>
        rw [acronym_eq] at hfind
        obtain ⟨⟨k, m⟩, hgroups, hfound⟩ := Option.map_eq_some_iff.mp hfind
        obtain ⟨rfl, us, u, x, rest', hacronym⟩ := of_groups hgroups
        have htext : c :: rest = (us ++ [u, x]) ++ rest' := by
          rw [hacronym.split]
          simp
        have hmatch : acronym ((us ++ [u, x]) ++ rest') =
            some ((us ++ [u, x]).length, us ++ [' ', u, x]) := by
          rw [← htext, acronym_eq, hgroups, Option.map_some, hacronym.split, ← hacronym.length]
          simp
        have hshorter : rest'.length < n := by
          have hlen := congrArg List.length htext
          simp only [List.length_append, List.length_cons] at hlen hlength
          omega
        have hnot := isAsciiUpper_of_lower hacronym.next
        have hrest := ih rest'.length hshorter rest' (some x) (by
          intro p hp hupper
          rw [← Option.mem_some_iff.mp hp, hnot] at hupper
          cases hupper) rfl
        have hspaced := spaceBefore_run hacronym.run hacronym.upper hacronym.last hacronym.next
          prev rest'
        rw [htext, replaceMatches_some (by simp) hmatch, hrest]
        simpa using hspaced.symm

end Acronyms

section Blanks

theorem whitespaceRun_none {c : Char} (hc : isWhitespace c = false) (rest : List Char) :
    whitespaceRun (c :: rest) = none := by
  simp [whitespaceRun, replaceWith, Pattern.lengths, runLengths, hc]

theorem whitespaceRun_some {c : Char} (hc : isWhitespace c = true) (rest : List Char) :
    whitespaceRun (c :: rest) =
      some ((c :: rest.takeWhile isWhitespace).length, [' ']) := by
  rw [whitespaceRun, replaceWith, Pattern.lengths, runLengths_head hc]
  rfl

theorem replace_whitespace (text : List Char) :
    replaceMatches whitespaceRun 0 text = collapse isWhitespace false text := by
  induction hlength : text.length using Nat.strongRecOn generalizing text with
  | ind n ih =>
    cases text with
    | nil => rfl
    | cons c rest =>
      cases hc : isWhitespace c with
      | false =>
        have hrest := ih rest.length (by simp at hlength; omega) rest rfl
        rw [replaceMatches_none (whitespaceRun_none hc rest), hrest]
        simp [collapse, hc]
      | true =>
        have htext : c :: rest =
            (c :: rest.takeWhile isWhitespace) ++ rest.dropWhile isWhitespace := by
          rw [List.cons_append, List.takeWhile_append_dropWhile]
        have hshorter : (rest.dropWhile isWhitespace).length < n := by
          have hle := (List.dropWhile_sublist isWhitespace (l := rest)).length_le
          simp only [List.length_cons] at hlength
          omega
        have hmatch := whitespaceRun_some hc rest
        rw [htext] at hmatch
        have hcollapse : collapse isWhitespace false (c :: rest) =
            ' ' :: collapse isWhitespace true rest := by simp [collapse, hc]
        rw [hcollapse, collapse_true, htext, replaceMatches_some (by simp) hmatch,
          ih _ hshorter _ rfl]
        rfl

end Blanks

/-- The words of a query are cut as the names in the index are. -/
theorem tokenizeSymbol_eq (name : String) : tokenizeSymbol name = Index.tokenizeSymbol name := by
  let spaced := (replaceAll "::" " " (replaceChar '_' ' ' name)).toList
  have hspaces : replaceMatches acronym 0 (replaceMatches lowerUpper 0 spaced) =
      spaceBefore isWordStart none spaced := by
    rw [replace_lowerUpper spaced none (Or.inl rfl), replace_acronym _ none (by simp),
      spaceBefore_spaceBefore]
  have hwords := @strip_collapse isWhitespace (by decide) (spaceBefore isWordStart none spaced)
  rw [tokenizeSymbol, Index.tokenizeSymbol, trim]
  simp only [String.toList_ofList]
  rw [hspaces, replace_whitespace]
  exact congrArg String.ofList hwords.symm

end RemyCC.Mcp
