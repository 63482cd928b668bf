import Mathlib.Data.List.TakeWhile
import RemyCC.Text.Erasing
import RemyCC.Text.Marks

/-!
# Blocks between two marks

Removing the blocks between two words from a text is removing the blocks between
two marks from its reading. A reading is firm if no characters that come to stand
behind one of its runs make a mark of it.
-/

namespace RemyCC.Text

/-- The length of a word that stands at the start of a text. -/
def wordAt (word text : List Char) : Option Nat :=
  if word.isPrefixOf text then some word.length else none

/-- The text without what stands between two words, these words and the newlines around them. -/
def removeBlocks (opening closing text : List Char) : List Char :=
  erase (blockSpan newline (wordAt opening) (wordAt closing)) text

theorem wordAt_eq_some {word text : List Char} {n : Nat} :
    wordAt word text = some n ↔ word <+: text ∧ n = word.length := by
  unfold wordAt
  split
  · next h =>
    rw [Option.some.injEq]
    exact ⟨fun hn => ⟨List.isPrefixOf_iff_prefix.mp h, hn.symm⟩, fun hn => hn.2.symm⟩
  · next h =>
    constructor
    · intro hn
      cases hn
    · exact fun hn => absurd (List.isPrefixOf_iff_prefix.mpr hn.1) h

theorem wordAt_eq_none {word text : List Char} : wordAt word text = none ↔ ¬ word <+: text := by
  rw [← List.isPrefixOf_iff_prefix, wordAt]
  split <;> simp_all

section Spans

variable {α : Type} {isNewline : α → Bool} {opening closing : List α → Option Nat} {a : α}
  {list rest : List α}

theorem nearest_append_of_none {front : List α}
    (h : ∀ a tail, (a :: tail) <:+ front → closing (a :: tail ++ rest) = none) :
    nearest closing (front ++ rest) = (nearest closing rest).map (front.length + ·) := by
  induction front with
  | nil => simp
  | cons a front ih =>
    have hfirst : closing (a :: (front ++ rest)) = none := h a front List.suffix_rfl
    rw [List.cons_append, nearest, hfirst,
      ih fun b tail htail => h b tail (htail.trans (List.suffix_cons a front)), Option.map_map]
    refine congrArg (Option.map · _) (funext fun n => ?_)
    rw [Function.comp_apply, List.length_cons]
    omega

theorem blockSpan_of_other (ha : isNewline a = false) (h : opening (a :: rest) = none) :
    blockSpan isNewline opening closing (a :: rest) = none := by
  unfold blockSpan
  rw [List.takeWhile_cons_of_neg (by rw [ha]; exact Bool.false_ne_true)]
  simp [h]

end Spans

namespace Marks

variable {M : Type} {k : Marks M} {m n : M} {tokens : List (Token M)}

def isNewline : Token M → Bool
  | .char c => newline c
  | .mark _ => false

section Reading

theorem tight_drop (h : k.Tight tokens) (j : Nat) : k.Tight (tokens.drop j) := by
  induction j generalizing tokens with
  | zero => exact h
  | succ j ih =>
    cases tokens with
    | nil => exact h
    | cons token tokens =>
      cases token with
      | mark m => exact ih h
      | char c => exact ih h.2

variable (k)

/-- How many characters the first tokens are. -/
def width (j : Nat) (tokens : List (Token M)) : Nat := (k.render (tokens.take j)).length

variable {k}

theorem width_add (i j : Nat) (tokens : List (Token M)) :
    k.width (i + j) tokens = k.width i tokens + k.width j (tokens.drop i) := by
  rw [width, width, width, List.take_add, render_append, List.length_append]

theorem drop_width (j : Nat) (tokens : List (Token M)) :
    (k.render tokens).drop (k.width j tokens) = k.render (tokens.drop j) := by
  have hsplit : k.render tokens = k.render (tokens.take j) ++ k.render (tokens.drop j) := by
    rw [← render_append, List.take_append_drop]
  rw [hsplit, width, List.drop_left]

theorem newline_of_text {c : Char} {tail : List Char} (h : k.text m = c :: tail) :
    newline c = false := by
  refine beq_eq_false_iff_ne.mpr ?_
  rintro rfl
  exact k.inLine m (h ▸ List.mem_cons_self)

theorem takeWhile_render (tokens : List (Token M)) :
    (k.render tokens).takeWhile newline = k.render (tokens.takeWhile isNewline) := by
  induction tokens with
  | nil => rfl
  | cons token tokens ih =>
    rw [render_cons]
    cases token with
    | mark m =>
      obtain ⟨c, tail, htext, -⟩ := k.led m
      have hc : ¬ newline c = true := by rw [newline_of_text htext]; exact Bool.false_ne_true
      rw [tokenText, htext, List.cons_append, List.takeWhile_cons_of_neg hc]
      rfl
    | char c =>
      rw [tokenText, List.singleton_append, List.takeWhile_cons, List.takeWhile_cons, ih]
      cases hc : newline c with
      | true => rw [show isNewline (Token.char c : Token M) = true from hc]; rfl
      | false => rw [show isNewline (Token.char c : Token M) = false from hc]; rfl

theorem width_newlines (tokens : List (Token M)) :
    ((k.render tokens).takeWhile newline).length =
      k.width (tokens.takeWhile isNewline).length tokens := by
  rw [takeWhile_render, width,
    ← List.prefix_iff_eq_take.mp (List.takeWhile_prefix isNewline)]

theorem wordAt_tail {c : Char} {rest : List Char} (h : k.lead c = false) :
    wordAt (k.text m) (c :: rest) = none :=
  wordAt_eq_none.mpr (find_eq_none.mp (find_of_not_lead h) m)

/-- What begins further on in a mark is no lead. -/
theorem lead_of_suffix {c d : Char} {front tail : List Char}
    (hfront : ∀ d ∈ front, k.lead d = false) (h : (d :: tail) <:+ c :: front) :
    d :: tail = c :: front ∨ (k.lead d = false ∧ d ∈ front) := by
  rcases List.suffix_cons_iff.mp h with heq | hsuffix
  · exact .inl heq
  · have hd := hsuffix.subset List.mem_cons_self
    exact .inr ⟨hfront d hd, hd⟩

theorem render_ne_nil (h : tokens ≠ []) : k.render tokens ≠ [] := by
  cases tokens with
  | nil => exact absurd rfl h
  | cons token tokens =>
    rw [render_cons]
    cases token with
    | mark m => exact List.append_ne_nil_of_left_ne_nil (text_ne_nil m) _
    | char c => exact List.cons_ne_nil _ _

theorem newline_of_mem {c : Char} (h : c ∈ k.text m) : newline c = false := by
  refine beq_eq_false_iff_ne.mpr ?_
  rintro rfl
  exact k.inLine m h

theorem tokenText_plain {token : Token M} (h : isNewline token = false) :
    ∀ c ∈ k.tokenText token, newline c = false := by
  intro c hc
  cases token with
  | mark m => exact newline_of_mem hc
  | char d =>
    rw [tokenText, List.mem_singleton] at hc
    rw [hc]
    exact h

theorem tokenText_newline {token : Token M} (h : isNewline token = true) :
    k.tokenText token = ['\n'] := by
  cases token with
  | mark m => cases h
  | char c => rw [tokenText, eq_of_beq h]

theorem tokenText_ne_nil (token : Token M) : k.tokenText token ≠ [] := by
  cases token with
  | mark m => exact text_ne_nil m
  | char c => exact List.cons_ne_nil _ _

theorem squeezeFrom_render (before : Nat) (tokens : List (Token M)) :
    squeezeFrom newline before (k.render tokens) =
      k.render (squeezeFrom isNewline before tokens) := by
  induction tokens generalizing before with
  | nil => rfl
  | cons token tokens ih =>
    rw [render_cons, squeezeFrom]
    cases htoken : isNewline token with
    | true =>
      rw [tokenText_newline htoken, List.singleton_append, squeezeFrom, if_pos rfl,
        if_pos (show newline '\n' = true from rfl)]
      split
      · rw [render_cons, tokenText_newline htoken, ih]
        rfl
      · exact ih before
    | false =>
      rw [squeezeFrom_plain (tokenText_plain htoken) (tokenText_ne_nil token),
        if_neg Bool.false_ne_true, render_cons, ih]

theorem drop_takeWhile (p : Token M → Bool) (tokens : List (Token M)) :
    tokens.drop (tokens.takeWhile p).length = tokens.dropWhile p := by
  have h : (tokens.takeWhile p ++ tokens.dropWhile p).drop (tokens.takeWhile p).length =
      tokens.dropWhile p := List.drop_left
  rwa [List.takeWhile_append_dropWhile] at h

theorem takeWhile_newlines {newlines rest : List (Token M)}
    (hnewlines : ∀ token ∈ newlines, isNewline token = true)
    (hrest : ∀ token ∈ rest.head?, isNewline token = false) :
    (newlines ++ rest).takeWhile isNewline = newlines := by
  rw [List.takeWhile_append_of_pos hnewlines]
  cases rest with
  | nil => exact List.append_nil _
  | cons token rest =>
    rw [List.takeWhile_cons_of_neg (by rw [hrest token rfl]; exact Bool.false_ne_true),
      List.append_nil]

end Reading

section Blocks

variable [DecidableEq M]

def standsAt (m : M) : List (Token M) → Option Nat
  | .mark n :: _ => if n = m then some 1 else none
  | _ => none

/-- The reading without its blocks from one mark to the nearest of another. -/
def remove (m n : M) (tokens : List (Token M)) : List (Token M) :=
  erase (blockSpan isNewline (standsAt m) (standsAt n)) tokens

theorem wordAt_render (h : k.Tight tokens) : wordAt (k.text m) (k.render tokens) =
    (standsAt m tokens).map fun j => k.width j tokens := by
  cases tokens with
  | nil =>
    exact wordAt_eq_none.mpr fun hm => text_ne_nil m (List.prefix_nil.mp hm)
  | cons token tokens =>
    cases token with
    | char c => exact wordAt_eq_none.mpr (find_eq_none.mp h.1 m)
    | mark n =>
      have hn : k.find (k.render (.mark n :: tokens)) = some n := by
        rw [find_eq_some, render_cons]
        exact List.prefix_append _ _
      rw [standsAt]
      split
      · next heq =>
        rw [heq, find_eq_some] at hn
        rw [heq, wordAt_eq_some.mpr ⟨hn, rfl⟩, Option.map_some, width, List.take_succ_cons,
          List.take_zero, render_cons, tokenText]
        simp [render]
      · next hne =>
        refine wordAt_eq_none.mpr fun hm => hne ?_
        rw [← find_eq_some, hn] at hm
        exact Option.some.inj hm

theorem nearest_render (h : k.Tight tokens) : nearest (wordAt (k.text m)) (k.render tokens) =
    (nearest (standsAt m) tokens).map fun j => k.width j tokens := by
  induction tokens with
  | nil => rfl
  | cons token tokens ih =>
    have hstands := wordAt_render (m := m) h
    rw [nearest]
    cases hat : standsAt m (token :: tokens) with
    | some j =>
      rw [hat] at hstands
      cases htext : k.render (token :: tokens) with
      | nil =>
        rw [htext] at hstands
        have hm := (wordAt_eq_some.mp hstands).1
        exact absurd (List.prefix_nil.mp hm) (text_ne_nil m)
      | cons c text =>
        rw [htext] at hstands
        rw [nearest, hstands]
        rfl
    | none =>
      rw [hat, Option.map_none] at hstands
      have htokens : k.Tight tokens := tight_drop h 1
      have hshift : ∀ j, k.width (j + 1) (token :: tokens) =
          (k.tokenText token).length + k.width j tokens := by
        intro j
        rw [width, width, List.take_succ_cons, render_cons, List.length_append]
      have hfront : ∀ a tail, (a :: tail) <:+ k.tokenText token →
          wordAt (k.text m) (a :: tail ++ k.render tokens) = none := by
        intro a tail hsuffix
        cases token with
        | char c =>
          obtain ⟨rfl, rfl⟩ : a = c ∧ tail = [] := by
            rcases List.suffix_cons_iff.mp hsuffix with heq | hnil
            · exact List.cons.inj heq
            · cases List.suffix_nil.mp hnil
          exact hstands
        | mark n =>
          obtain ⟨c, rest, htext, -, hrest⟩ := k.led n
          rw [tokenText, htext] at hsuffix
          rcases lead_of_suffix hrest hsuffix with heq | ⟨hlead, -⟩
          · rw [heq, ← htext]
            exact hstands
          · exact wordAt_tail hlead
      rw [render_cons, nearest_append_of_none hfront, ih htokens, Option.map_map, Option.map_map]
      exact congrArg (Option.map · _) (funext fun j => (hshift j).symm)

/-- A block of the text is a block of the reading. -/
theorem blockSpan_render (h : k.Tight tokens) :
    blockSpan newline (wordAt (k.text m)) (wordAt (k.text n)) (k.render tokens) =
      (blockSpan isNewline (standsAt m) (standsAt n) tokens).map fun j => k.width j tokens := by
  unfold blockSpan
  dsimp only
  rw [width_newlines, drop_width, wordAt_render (tight_drop h _)]
  cases standsAt m (tokens.drop (tokens.takeWhile isNewline).length) with
  | none => rfl
  | some o =>
    rw [Option.map_some, Option.bind_some, Option.bind_some, ← width_add, drop_width,
      nearest_render (tight_drop h _), Option.map_map, Option.map_map]
    refine congrArg (Option.map · _) (funext fun j => ?_)
    rw [Function.comp_apply, Function.comp_apply, ← width_add, drop_width, width_newlines,
      ← width_add]

theorem standsAt_proper (m : M) : Proper (standsAt m) := by
  intro list j h
  unfold standsAt at h
  split at h
  · split at h
    · cases h
      rw [List.length_cons]
      omega
    · cases h
  · cases h

theorem span_proper (m n : M) : Proper (blockSpan isNewline (standsAt m) (standsAt n)) :=
  blockSpan_proper (standsAt_proper m) (standsAt_proper n)

/-- Removing blocks from a text is removing them from its reading. -/
theorem removeBlocks_render (h : k.Tight tokens) :
    removeBlocks (k.text m) (k.text n) (k.render tokens) = k.render (remove m n tokens) := by
  unfold removeBlocks remove
  induction tokens using erase_induction (span_proper m n) with
  | nil => rfl
  | keep token rest hnone ih =>
    have hspan := blockSpan_render (m := m) (n := n) h
    rw [hnone, Option.map_none] at hspan
    have hfront : ∀ a tail, (a :: tail) <:+ k.tokenText token →
        blockSpan newline (wordAt (k.text m)) (wordAt (k.text n))
          (a :: tail ++ k.render rest) = none := by
      intro a tail hsuffix
      cases token with
      | char c =>
        obtain ⟨rfl, rfl⟩ : a = c ∧ tail = [] := by
          rcases List.suffix_cons_iff.mp hsuffix with heq | hnil
          · exact List.cons.inj heq
          · cases List.suffix_nil.mp hnil
        exact hspan
      | mark m' =>
        obtain ⟨c, others, htext, -, hothers⟩ := k.led m'
        rw [tokenText, htext] at hsuffix
        rcases lead_of_suffix hothers hsuffix with heq | ⟨hlead, hmem⟩
        · rw [heq, ← htext]
          exact hspan
        · refine blockSpan_of_other (beq_eq_false_iff_ne.mpr ?_) (wordAt_tail hlead)
          rintro rfl
          exact k.inLine m' (htext ▸ List.mem_cons_of_mem c hmem)
    rw [erase_none hnone, render_cons, render_cons, erase_append_of_none hfront,
      ih (tight_drop h 1)]
  | drop gone rest hne hsome ih =>
    have hspan := blockSpan_render (m := m) (n := n) h
    rw [hsome, Option.map_some, width, List.take_left, render_append] at hspan
    rw [erase_some hne hsome, render_append, erase_some (render_ne_nil hne) hspan]
    refine ih ?_
    have hrest := tight_drop h gone.length
    rwa [List.drop_left] at hrest

end Blocks

section Removal

variable [DecidableEq M]

theorem standsAt_of_absent (h : .mark m ∉ tokens) : standsAt m tokens = none := by
  cases tokens with
  | nil => rfl
  | cons token tokens =>
    cases token with
    | char c => rfl
    | mark n =>
      rw [standsAt, if_neg]
      rintro rfl
      exact h List.mem_cons_self

theorem blockSpan_of_unopened
    (h : standsAt m (tokens.dropWhile isNewline) = none) :
    blockSpan isNewline (standsAt m) (standsAt n) tokens = none := by
  unfold blockSpan
  dsimp only
  rw [drop_takeWhile, h]
  rfl

/-- Without its opening mark there is nothing to remove. -/
theorem remove_of_absent (n : M) (h : .mark m ∉ tokens) : remove m n tokens = tokens := by
  refine erase_of_none fun token tail hsuffix => blockSpan_of_unopened (standsAt_of_absent ?_)
  exact fun hmem => h (hsuffix.subset ((List.dropWhile_suffix _).subset hmem))

theorem nearest_standsAt {inner : List (Token M)} (hinner : .mark n ∉ inner)
    (rest : List (Token M)) :
    nearest (standsAt n) (inner ++ .mark n :: rest) = some (inner.length + 1) := by
  rw [nearest_append_of_none]
  · rw [nearest, standsAt, if_pos rfl]
    rfl
  · intro token tail hsuffix
    have hnot : .mark n ∉ [token] := fun hmem =>
      hinner (hsuffix.subset (List.mem_singleton.mp hmem ▸ List.mem_cons_self))
    cases token with
    | char c => rfl
    | mark m =>
      rw [List.cons_append, standsAt, if_neg]
      rintro rfl
      exact hnot List.mem_cons_self

/-- A block goes with the newlines on both sides of it. -/
theorem remove_block {before lead inner trail behind : List (Token M)}
    (hbefore : .mark m ∉ before) (hinner : .mark n ∉ inner) (hbehind : .mark m ∉ behind)
    (hlead : ∀ token ∈ lead, isNewline token = true)
    (htrail : ∀ token ∈ trail, isNewline token = true)
    (hlast : ∀ token ∈ before.getLast?, isNewline token = false)
    (hfirst : ∀ token ∈ behind.head?, isNewline token = false) :
    remove m n (before ++ ((lead ++ .mark m :: (inner ++ .mark n :: trail)) ++ behind)) =
      before ++ behind := by
  have hfront : ∀ token tail, (token :: tail) <:+ before →
      blockSpan isNewline (standsAt m) (standsAt n)
        (token :: tail ++ ((lead ++ .mark m :: (inner ++ .mark n :: trail)) ++ behind)) = none := by
    intro token tail hsuffix
    refine blockSpan_of_unopened ?_
    obtain ⟨first, others, hdrop⟩ : ∃ first others,
        (token :: tail).dropWhile isNewline = first :: others := by
      cases hdrop : (token :: tail).dropWhile isNewline with
      | cons first others => exact ⟨first, others, rfl⟩
      | nil =>
        have hmem : (token :: tail).getLast (List.cons_ne_nil _ _) ∈ before.getLast? := by
          obtain ⟨front, rfl⟩ := hsuffix
          rw [List.getLast?_append, List.getLast?_eq_some_getLast (List.cons_ne_nil token tail)]
          rfl
        have hall := List.dropWhile_eq_nil_iff.mp hdrop _ (List.getLast_mem (List.cons_ne_nil _ _))
        rw [hlast _ hmem] at hall
        cases hall
    have hmem : first ∈ before :=
      hsuffix.subset ((List.dropWhile_suffix _).subset (hdrop ▸ List.mem_cons_self))
    rw [List.dropWhile_append, hdrop]
    cases first with
    | char c => rfl
    | mark n =>
      rw [if_neg (by exact Bool.false_ne_true), List.cons_append, standsAt, if_neg]
      rintro rfl
      exact hbefore hmem
  have hspan : blockSpan isNewline (standsAt m) (standsAt n)
      ((lead ++ .mark m :: (inner ++ .mark n :: trail)) ++ behind) =
        some (lead ++ .mark m :: (inner ++ .mark n :: trail)).length := by
    have hlist : (lead ++ .mark m :: (inner ++ .mark n :: trail)) ++ behind =
        lead ++ (.mark m :: (inner ++ .mark n :: (trail ++ behind))) := by simp
    have hopen : (lead ++ (.mark m :: (inner ++ .mark n :: (trail ++ behind)))).takeWhile isNewline =
        lead := takeWhile_newlines hlead fun token htoken => by cases htoken; rfl
    have hinside : (lead ++ (.mark m :: (inner ++ .mark n :: (trail ++ behind)))).drop
        (lead.length + 1) = inner ++ .mark n :: (trail ++ behind) := by
      rw [← List.drop_drop, List.drop_left]
      rfl
    have hafter : (lead ++ (.mark m :: (inner ++ .mark n :: (trail ++ behind)))).drop
        (lead.length + 1 + (inner.length + 1)) = trail ++ behind := by
      rw [← List.drop_drop, hinside, ← List.drop_drop, List.drop_left]
      rfl
    unfold blockSpan
    dsimp only
    rw [hlist, hopen, List.drop_left, standsAt, if_pos rfl, Option.bind_some, hinside,
      nearest_standsAt hinner, Option.map_some, hafter, takeWhile_newlines htrail hfirst]
    simp only [List.length_append, List.length_cons, Option.some.injEq]
    omega
  rw [remove, erase_append_of_none hfront, erase_some (by simp) hspan]
  exact congrArg (before ++ ·) (remove_of_absent n hbehind)

end Removal

section Firmness

/-- The characters before the first mark or newline. -/
def runOf : List (Token M) → List Char
  | [] => []
  | .mark _ :: _ => []
  | .char c :: rest => if newline c then [] else c :: runOf rest

variable (k)

/-- No run of characters ends in the beginning of a mark. -/
def Firm : List (Token M) → Prop
  | [] => True
  | .mark _ :: rest => Firm rest
  | .char c :: rest => (∀ behind, k.find (c :: (runOf rest ++ behind)) = none) ∧ Firm rest

variable {k} {others : List (Token M)}

theorem runOf_render (tokens : List (Token M)) : runOf tokens <+: k.render tokens := by
  induction tokens with
  | nil => exact List.nil_prefix
  | cons token tokens ih =>
    cases token with
    | mark m => exact List.nil_prefix
    | char c =>
      rw [runOf, render_cons, tokenText, List.singleton_append]
      split
      · exact List.nil_prefix
      · exact List.cons_prefix_cons.mpr ⟨rfl, ih⟩

theorem runOf_append (tokens others : List (Token M)) : runOf tokens <+: runOf (tokens ++ others) := by
  induction tokens with
  | nil => exact List.nil_prefix
  | cons token tokens ih =>
    cases token with
    | mark m => exact List.nil_prefix
    | char c =>
      rw [List.cons_append, runOf, runOf]
      split
      · exact List.nil_prefix
      · exact List.cons_prefix_cons.mpr ⟨rfl, ih⟩

theorem runOf_append_stop (h : runOf others = []) (tokens : List (Token M)) :
    runOf (tokens ++ others) = runOf tokens := by
  induction tokens with
  | nil => exact h
  | cons token tokens ih =>
    cases token with
    | mark m => rfl
    | char c => rw [List.cons_append, runOf, runOf, ih]

theorem runOf_squeezeFrom (before : Nat) (tokens : List (Token M)) :
    runOf tokens <+: runOf (squeezeFrom isNewline before tokens) := by
  induction tokens generalizing before with
  | nil => exact List.nil_prefix
  | cons token tokens ih =>
    cases token with
    | mark m => exact List.nil_prefix
    | char c =>
      rw [runOf]
      split
      · exact List.nil_prefix
      · next hc =>
        rw [squeezeFrom, if_neg (by exact hc), runOf, if_neg hc]
        exact List.cons_prefix_cons.mpr ⟨rfl, ih 0⟩

/-- A mark that does not begin a run does not begin a longer one. -/
theorem find_none_of_longer {c : Char} {run longer : List Char}
    (h : ∀ behind, k.find (c :: (run ++ behind)) = none) (hbegins : run <+: longer)
    (behind : List Char) : k.find (c :: (longer ++ behind)) = none := by
  obtain ⟨more, rfl⟩ := hbegins
  rw [List.append_assoc]
  exact h (more ++ behind)

theorem Firm.tight (h : k.Firm tokens) : k.Tight tokens := by
  induction tokens with
  | nil => exact h
  | cons token tokens ih =>
    cases token with
    | mark m => exact ih h
    | char c =>
      have hfind := find_none_of_longer h.1 (runOf_render (k := k) tokens) []
      rw [List.append_nil] at hfind
      exact ⟨hfind, ih h.2⟩

theorem Firm.append (h : k.Firm tokens) (hothers : k.Firm others) : k.Firm (tokens ++ others) := by
  induction tokens with
  | nil => exact hothers
  | cons token tokens ih =>
    cases token with
    | mark m => exact ih h
    | char c => exact ⟨find_none_of_longer h.1 (runOf_append tokens others), ih h.2⟩

theorem Firm.left (hstop : runOf others = []) (h : k.Firm (tokens ++ others)) : k.Firm tokens := by
  induction tokens with
  | nil => exact trivial
  | cons token tokens ih =>
    cases token with
    | mark m => exact ih h
    | char c =>
      obtain ⟨hfind, hrest⟩ := h
      rw [List.append_eq, runOf_append_stop hstop] at hfind
      exact ⟨hfind, ih hrest⟩

theorem Firm.right (h : k.Firm (tokens ++ others)) : k.Firm others := by
  induction tokens with
  | nil => exact h
  | cons token tokens ih =>
    cases token with
    | mark m => exact ih h
    | char c => exact ih h.2

theorem Firm.squeezeFrom (h : k.Firm tokens) (before : Nat) :
    k.Firm (Text.squeezeFrom isNewline before tokens) := by
  induction tokens generalizing before with
  | nil => exact h
  | cons token tokens ih =>
    rw [Text.squeezeFrom]
    cases token with
    | mark m => exact ih h 0
    | char c =>
      split
      · next hc =>
        split
        · exact ⟨find_none_of_longer h.1 (runOf_squeezeFrom _ tokens), ih h.2 _⟩
        · exact ih h.2 before
      · exact ⟨find_none_of_longer h.1 (runOf_squeezeFrom _ tokens), ih h.2 0⟩

variable (k) in
def unled : Token M → Bool
  | .mark _ => true
  | .char c => !k.lead c

/-- Characters that no mark begins with are in the beginning of none. -/
theorem firm_of_unled (h : ∀ token ∈ tokens, k.unled token = true) : k.Firm tokens := by
  induction tokens with
  | nil => exact trivial
  | cons token tokens ih =>
    obtain ⟨htoken, hrest⟩ := List.forall_mem_cons.mp h
    cases token with
    | mark m => exact ih hrest
    | char c =>
      rw [unled, Bool.not_eq_true'] at htoken
      exact ⟨fun behind => find_of_not_lead htoken, ih hrest⟩

end Firmness

end Marks

end RemyCC.Text
