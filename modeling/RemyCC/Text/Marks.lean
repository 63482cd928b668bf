import Mathlib.Data.List.Infix

/-!
# Texts with marks

Marks are words of one line that begin with a character which no mark has
further on, so they do not overlap. In a text put together from marks and
characters a mark is found where it was put if none arises where characters meet.
-/

namespace RemyCC.Text

def newline (c : Char) : Bool := c == '\n'

structure Marks (M : Type) where
  all : List M
  text : M → List Char
  lead : Char → Bool
  complete : ∀ m, m ∈ all
  led : ∀ m, ∃ c tail, text m = c :: tail ∧ lead c = true ∧ ∀ d ∈ tail, lead d = false
  alone : ∀ m n, text m <+: text n → m = n
  inLine : ∀ m, '\n' ∉ text m

inductive Token (M : Type) where
  | mark (m : M)
  | char (c : Char)
  deriving DecidableEq

namespace Marks

variable {M : Type} (k : Marks M)

def find (text : List Char) : Option M := k.all.find? fun m => (k.text m).isPrefixOf text

def tokenText : Token M → List Char
  | .mark m => k.text m
  | .char c => [c]

def render (tokens : List (Token M)) : List Char := tokens.flatMap k.tokenText

/-- No mark arises where the characters meet what follows. -/
def Tight : List (Token M) → Prop
  | [] => True
  | .mark _ :: tokens => Tight tokens
  | .char c :: tokens => k.find (c :: k.render tokens) = none ∧ Tight tokens

variable {k} {m : M} {c : Char} {text rest : List Char} {tokens : List (Token M)}

section Reading

theorem find_eq_some : k.find text = some m ↔ k.text m <+: text := by
  unfold find
  constructor
  · exact fun h => List.isPrefixOf_iff_prefix.mp (List.find?_eq_some_iff_append.mp h).1
  · intro h
    cases hfound : k.all.find? fun m => (k.text m).isPrefixOf text with
    | none =>
      have hnone := List.find?_eq_none.mp hfound m (k.complete m)
      exact absurd (List.isPrefixOf_iff_prefix.mpr h) hnone
    | some n =>
      have hn := List.isPrefixOf_iff_prefix.mp (List.find?_eq_some_iff_append.mp hfound).1
      rcases List.prefix_or_prefix_of_prefix h hn with hmn | hnm
      · rw [k.alone m n hmn]
      · rw [k.alone n m hnm]

theorem find_eq_none : k.find text = none ↔ ∀ m, ¬ k.text m <+: text := by
  rw [Option.eq_none_iff_forall_ne_some]
  exact forall_congr' fun m => not_congr find_eq_some

theorem text_ne_nil (m : M) : k.text m ≠ [] := by
  obtain ⟨c, tail, htext, -⟩ := k.led m
  rw [htext]
  exact List.cons_ne_nil _ _

theorem find_of_not_lead (h : k.lead c = false) : k.find (c :: rest) = none := by
  rw [find_eq_none]
  intro m hm
  obtain ⟨d, tail, htext, hlead, -⟩ := k.led m
  rw [htext, List.cons_prefix_cons] at hm
  rw [hm.1, h] at hlead
  cases hlead

theorem render_cons (token : Token M) (tokens : List (Token M)) :
    k.render (token :: tokens) = k.tokenText token ++ k.render tokens := List.flatMap_cons

theorem render_append (tokens others : List (Token M)) :
    k.render (tokens ++ others) = k.render tokens ++ k.render others := List.flatMap_append

end Reading

section Places

theorem infix_of_append_tail {tail : List Char} (htail : ∀ d ∈ tail, k.lead d = false)
    (h : k.text m <:+: tail ++ rest) : k.text m <:+: rest := by
  induction tail with
  | nil => exact h
  | cons d tail ih =>
    rw [List.cons_append, List.infix_cons_iff] at h
    rcases h with hbegins | hinfix
    · have hfree : k.find (d :: (tail ++ rest)) = none :=
        find_of_not_lead (htail d List.mem_cons_self)
      exact absurd hbegins (find_eq_none.mp hfree m)
    · exact ih (fun d hd => htail d (List.mem_cons_of_mem _ hd)) hinfix

/-- A mark that occurs in a text stands in its reading. -/
theorem mark_mem_iff (h : k.Tight tokens) : .mark m ∈ tokens ↔ k.text m <:+: k.render tokens := by
  induction tokens with
  | nil =>
    constructor
    · intro hm
      cases hm
    · exact fun hm => absurd (List.eq_nil_of_infix_nil hm) (text_ne_nil m)
  | cons token tokens ih =>
    rw [render_cons]
    cases token with
    | char c =>
      rw [tokenText, List.singleton_append, List.infix_cons_iff, ← ih h.2]
      have hfree := find_eq_none.mp h.1 m
      simp [hfree]
    | mark n =>
      rw [tokenText, List.mem_cons, ih h, Token.mark.injEq]
      constructor
      · rintro (rfl | hm)
        · exact (List.prefix_append _ _).isInfix
        · exact hm.trans (List.suffix_append _ _).isInfix
      · intro hm
        obtain ⟨c, tail, htext, -, htail⟩ := k.led n
        rw [htext, List.cons_append, List.infix_cons_iff] at hm
        rcases hm with hbegins | hinfix
        · have hm := find_eq_some.mpr hbegins
          have hn : k.find (c :: (tail ++ k.render tokens)) = some n := by
            rw [find_eq_some, htext, ← List.cons_append]
            exact List.prefix_append _ _
          exact .inl (Option.some.inj (hm.symm.trans hn))
        · exact .inr (infix_of_append_tail htail hinfix)

end Places

end Marks

end RemyCC.Text
