import RemyCC.Discovery.Fnmatch
import RemyCC.Discovery.Glob
import Mathlib.Data.List.TakeWhile

/-!
# The matcher decides the language of its pattern

The tokens are the pieces that the pattern spells, with runs of stars merged.
-/

namespace RemyCC.Discovery

open Glob

section Classes

/-- A single character is the range from it to itself. -/
def bounds : Item → Char × Char
  | .single c => (c, c)
  | .range lo hi => (lo, hi)

theorem classRanges_single {c : Char} {rest : List Char}
    (hrest : ∀ hi more, rest ≠ '-' :: hi :: more) :
    classRanges (c :: rest) = (c, c) :: classRanges rest := by
  match rest with
  | [] => rfl
  | [d] =>
    by_cases hdash : d = '-'
    · subst hdash
      rfl
    · rw [classRanges]
      · exact fun heq => hdash (List.cons.inj heq).1
      · exact fun _ _ heq => nomatch heq
  | d :: e :: more =>
    rw [classRanges]
    · exact fun heq => nomatch heq
    · exact fun hi more' heq => hrest hi more' heq

theorem classRanges_of_spells {body : List Char} {items : List Item} (h : Spells body items) :
    classRanges body = items.map bounds := by
  induction h with
  | nil => rfl
  | range h ih => rw [classRanges, ih]; rfl
  | single hrest h ih => rw [classRanges_single hrest, ih]; rfl

theorem holds_iff {item : Item} {c : Char} :
    item.Holds c ↔ (bounds item).1 ≤ c ∧ c ≤ (bounds item).2 := by
  cases item with
  | single d => exact ⟨fun h => h ▸ ⟨Char.le_refl c, Char.le_refl c⟩, fun h => Char.le_antisymm h.2 h.1⟩
  | range => rfl

theorem classMatches_iff {negated : Bool} {items : List Item} {c : Char} :
    classMatches negated (items.map bounds) c = true ↔
      (negated = false ↔ ∃ item ∈ items, item.Holds c) := by
  have hhit : ((items.map bounds).any fun r => decide (r.1 ≤ c) && decide (c ≤ r.2)) = true ↔
      ∃ item ∈ items, item.Holds c := by
    simp only [List.any_map, List.any_eq_true, Function.comp, Bool.and_eq_true, decide_eq_true_iff,
      holds_iff]
  have hclass : classMatches negated (items.map bounds) c =
      (((items.map bounds).any fun r => decide (r.1 ≤ c) && decide (c ≤ r.2)) != negated) := rfl
  rw [hclass, ← hhit]
  generalize (items.map bounds).any _ = hit
  cases hit <;> cases negated <;> decide

end Classes

section Parsing

variable {text body rest : List Char} {negated : Bool}

/-- The body ends at the first bracket after its first character. -/
theorem parseClass_eq {x : Char} {xs : List Char} (hplain : negated = false → x ≠ '!') :
    parseClass ((if negated then ['!'] else []) ++ x :: xs) =
      match xs.dropWhile (· != ']') with
      | [] => none
      | _ :: _ => some (.cls negated (classRanges (x :: xs.takeWhile (· != ']'))),
        (if negated then 1 else 0) + (x :: xs.takeWhile (· != ']')).length + 1) := by
  have hnegated : (((if negated then ['!'] else []) ++ x :: xs).head? == some '!') = negated := by
    cases negated with
    | true => rfl
    | false => simpa using hplain rfl
  have hbody : (if negated then ((if negated then ['!'] else []) ++ x :: xs).drop 1
      else (if negated then ['!'] else []) ++ x :: xs) = x :: xs := by
    cases negated <;> rfl
  have hinner : (if (x :: xs).head? == some ']' then (x :: xs).take 1 else []) ++
      ((x :: xs).drop (if (x :: xs).head? == some ']' then (x :: xs).take 1 else []).length).takeWhile
        (· != ']') = x :: xs.takeWhile (· != ']') := by
    by_cases hx : x = ']'
    · subst hx
      rfl
    · have hhead : ((x :: xs).head? == some ']') = false := by simpa using hx
      have hne : (x != ']') = true := bne_iff_ne.mpr hx
      rw [hhead, if_neg Bool.false_ne_true, List.nil_append, List.length_nil, List.drop_zero,
        @List.takeWhile_cons_of_pos _ (· != ']') x xs hne]
  have hdrop : (x :: xs).drop (x :: xs.takeWhile (· != ']')).length = xs.dropWhile (· != ']') := by
    rw [List.length_cons, List.drop_succ_cons]
    calc xs.drop (xs.takeWhile (· != ']')).length
        = (xs.takeWhile (· != ']') ++ xs.dropWhile (· != ']')).drop
            (xs.takeWhile (· != ']')).length := by rw [List.takeWhile_append_dropWhile]
      _ = xs.dropWhile (· != ']') := List.drop_left
  simp only [parseClass, hnegated, hbody, hinner, hdrop] <;> rfl

theorem parseClass_of_closes (h : Closes text negated body rest) :
    ∃ length, parseClass text = some (.cls negated (classRanges body), length) ∧
      text.drop length = rest := by
  obtain ⟨x, inner, rfl⟩ := List.exists_cons_of_ne_nil h.nonempty
  obtain ⟨htake, hdrop⟩ := @takeWhile_close inner rest h.inner
  have hplain : negated = false → x ≠ '!' := by
    rintro rfl rfl
    exact h.plain rfl (by rw [h.split]; rfl)
  have hparse := @parseClass_eq negated x (inner ++ ']' :: rest) hplain
  rw [hdrop, htake] at hparse
  refine ⟨_, by rw [h.split]; exact hparse, ?_⟩
  have hdropped : (x :: (inner ++ ']' :: rest)).drop ((x :: inner).length + 1) = rest := by
    rw [List.length_cons, List.drop_succ_cons, ← List.drop_drop, List.drop_left, List.drop_one,
      List.tail_cons]
  rw [h.split]
  cases negated with
  | true => rw [if_pos rfl, if_pos rfl, Nat.add_assoc, Nat.add_comm 1]; exact hdropped
  | false => rw [if_neg Bool.false_ne_true, if_neg Bool.false_ne_true, Nat.zero_add]; exact hdropped

theorem closes_of_parseClass {found : Tok × Nat} (h : parseClass text = some found) :
    ∃ negated body rest, Closes text negated body rest := by
  have hsplit : ∃ negated body, text = (if negated then ['!'] else []) ++ body ∧
      (negated = false → body.head? ≠ some '!') := by
    by_cases hbang : ∃ body, text = '!' :: body
    · obtain ⟨body, rfl⟩ := hbang
      exact ⟨true, body, rfl, nofun⟩
    · refine ⟨false, text, rfl, fun _ hhead => hbang ?_⟩
      exact List.head?_eq_some_iff.mp hhead
  obtain ⟨negated, body, rfl, hplain⟩ := hsplit
  cases body with
  | nil => cases negated <;> cases h
  | cons x xs =>
    by_cases hclose : ']' ∈ xs
    · obtain ⟨inner, rest, rfl, hinner⟩ := List.eq_append_cons_of_mem hclose
      refine ⟨negated, x :: inner, rest, rfl, ?_, List.cons_ne_nil _ _, hinner⟩
      rintro rfl
      exact hplain rfl
    · have hdrop : xs.dropWhile (· != ']') = [] :=
        List.dropWhile_eq_nil_iff.mpr fun c hc => bne_iff_ne.mpr fun heq => hclose (heq ▸ hc)
      rw [parseClass_eq fun hnegated heq => hplain hnegated (by rw [heq]; rfl), hdrop] at h
      cases h

end Parsing

section Tokens

theorem tokenizeFrom_drop (starred : Bool) (skip : Nat) (chars : List Char) :
    tokenizeFrom starred skip chars = tokenizeFrom starred 0 (chars.drop skip) := by
  induction skip generalizing chars with
  | zero => rfl
  | succ skip ih =>
    cases chars with
    | nil => rw [List.drop_nil, tokenizeFrom, tokenizeFrom]
    | cons c chars => rw [tokenizeFrom, ih, List.drop_succ_cons]

variable {tok : Tok} {toks : List Tok} {piece : Piece} {pieces : List Piece}

theorem matches_one (htok : tok ≠ .star)
    (hpiece : ∀ word, word ∈ piece.language ↔ ∃ c, word = [c] ∧ tok.accepts c = true)
    (hrest : ∀ word, Matches toks word ↔ word ∈ language pieces) (word : List Char) :
    Matches (tok :: toks) word ↔ word ∈ language (piece :: pieces) := by
  rw [mem_language_cons]
  constructor
  · intro h
    cases h with
    | one haccepts h =>
      exact ⟨[_], (hpiece _).mpr ⟨_, rfl, haccepts⟩, _, (hrest _).mp h, rfl⟩
    | star => exact absurd rfl htok
  · rintro ⟨front, hfront, back, hback, rfl⟩
    obtain ⟨c, rfl, haccepts⟩ := (hpiece front).mp hfront
    exact .one haccepts ((hrest back).mpr hback)

theorem matches_star (hrest : ∀ word, Matches toks word ↔ word ∈ language pieces)
    (word : List Char) : Matches (.star :: toks) word ↔ word ∈ language (.star :: pieces) := by
  simp only [Matches.star_iff, mem_language_star, hrest]

theorem tokenizeFrom_starred {c : Char} (rest : List Char) (hc : c ≠ '*') :
    tokenizeFrom true 0 (c :: rest) = tokenizeFrom false 0 (c :: rest) := by
  by_cases hany : c = '?'
  · subst hany
    rfl
  by_cases hopen : c = '['
  · subst hopen
    rfl
  · rw [tokenizeFrom, tokenizeFrom] <;> assumption

/-- The tokens match the words of the pieces; after a star it is the same with one
more star in front, however many follow. -/
theorem matches_tokenizeFrom {chars : List Char} (h : Reads chars pieces) :
    (∀ word, Matches (tokenizeFrom false 0 chars) word ↔ word ∈ language pieces) ∧
      ∀ word, Matches (.star :: tokenizeFrom true 0 chars) word ↔
        word ∈ language (.star :: pieces) := by
  -- Only a star sees whether it follows one.
  have hplain {c : Char} {rest : List Char} {pieces : List Piece} (hc : c ≠ '*')
      (hword : ∀ word, Matches (tokenizeFrom false 0 (c :: rest)) word ↔ word ∈ language pieces) :
      (∀ word, Matches (tokenizeFrom false 0 (c :: rest)) word ↔ word ∈ language pieces) ∧
        ∀ word, Matches (.star :: tokenizeFrom true 0 (c :: rest)) word ↔
          word ∈ language (.star :: pieces) :=
    ⟨hword, by rw [tokenizeFrom_starred rest hc]; exact matches_star hword⟩
  induction h with
  | nil =>
    have hnil (word : List Char) : Matches [] word ↔ word ∈ language [] := by
      rw [mem_language_nil]
      exact ⟨fun h => by cases h; rfl, fun h => h ▸ .nil⟩
    exact ⟨hnil, matches_star hnil⟩
  | star h ih =>
    refine ⟨ih.2, fun word => ?_⟩
    rw [mem_language_star_star]
    exact ih.2 word
  | any h ih =>
    refine hplain (by decide) (matches_one nofun (fun word => ?_) ih.1)
    simp [mem_any, Tok.accepts]
  | @cls text body rest negated items pieces hclose hbody h ih =>
    obtain ⟨length, hparse, hdrop⟩ := parseClass_of_closes hclose
    refine hplain (by decide) ?_
    have htoks : tokenizeFrom false 0 ('[' :: text) =
        .cls negated (items.map bounds) :: tokenizeFrom false 0 rest := by
      rw [tokenizeFrom, hparse, classRanges_of_spells hbody]
      exact congrArg _ ((tokenizeFrom_drop false length text).trans (by rw [hdrop]))
    rw [htoks]
    refine matches_one nofun (fun word => ?_) ih.1
    simp only [mem_cls, Tok.accepts, classMatches_iff]
  | @bracket text pieces hopen h ih =>
    refine hplain (by decide) ?_
    have htoks : tokenizeFrom false 0 ('[' :: text) = .lit '[' :: tokenizeFrom false 0 text := by
      rw [tokenizeFrom]
      cases hparse : parseClass text with
      | none => rfl
      | some found =>
        obtain ⟨negated, body, rest, hclose⟩ := closes_of_parseClass hparse
        exact absurd hclose (hopen negated body rest)
    rw [htoks]
    refine matches_one nofun (fun word => ?_) ih.1
    simp [mem_one, Tok.accepts]
  | @one c rest pieces hc h ih =>
    have hstar : c ≠ '*' := fun heq => hc (by simp [heq])
    have hany : c ≠ '?' := fun heq => hc (by simp [heq])
    have hopen : c ≠ '[' := fun heq => hc (by simp [heq])
    refine hplain hstar ?_
    have htoks : tokenizeFrom false 0 (c :: rest) = .lit c :: tokenizeFrom false 0 rest := by
      rw [tokenizeFrom] <;> assumption
    rw [htoks]
    refine matches_one nofun (fun word => ?_) ih.1
    simp [mem_one, Tok.accepts]

end Tokens

theorem fnmatchcase_glob (name pattern : String) : ∃ pieces,
    Reads pattern.toList pieces ∧ (∀ pieces', Reads pattern.toList pieces' → pieces' = pieces) ∧
      LoopReturns (tokenize pattern) name.toList none (fnmatchcase name pattern) ∧
      (fnmatchcase name pattern = true ↔ name.toList ∈ language pieces) := by
  obtain ⟨pieces, hreads⟩ := Reads.exists pattern.toList
  refine ⟨pieces, hreads, fun _ hreads' => hreads'.unique hreads, fnmatchcase_returns name pattern, ?_⟩
  rw [fnmatchcase_iff, tokenize]
  exact (matches_tokenizeFrom hreads).1 name.toList

end RemyCC.Discovery
