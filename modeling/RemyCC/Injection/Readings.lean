import Mathlib.Data.List.Nodup
import RemyCC.Injection.ClaudeMd

/-!
# What CLAUDE.md holds

A tidy file is read as characters and blocks, at most one block for each tag.
What matters of it is the ledger: the tags of its blocks, whether each has its
reference, and the characters of the user. Each step of the injector is a step
on the ledger.
-/

namespace RemyCC.Injection

open Text Marks

section Collapsing

theorem squeezeFrom_run {run rest : List Char} (hrun : ∀ c ∈ run, newline c = true)
    (hrest : ∀ c ∈ rest.head?, newline c = false) (before : Nat) :
    squeezeFrom newline before (run ++ rest) =
      run.take (2 - before) ++ squeezeFrom newline 0 rest := by
  induction run generalizing before with
  | nil =>
    rw [List.take_nil, List.nil_append, List.nil_append]
    cases rest with
    | nil => rfl
    | cons c rest =>
      have hc : ¬ newline c = true := by rw [hrest c rfl]; exact Bool.false_ne_true
      rw [squeezeFrom, squeezeFrom, if_neg hc, if_neg hc]
  | cons c run ih =>
    have hmore := ih fun d hd => hrun d (List.mem_cons_of_mem c hd)
    rw [List.cons_append, squeezeFrom, if_pos (hrun c List.mem_cons_self)]
    split
    · next hless =>
      rw [hmore, show 2 - before = (2 - (before + 1)) + 1 by omega, List.take_succ_cons,
        List.cons_append]
    · next hfull =>
      rw [hmore, show 2 - before = 0 by omega, List.take_zero, List.take_zero]

theorem collapse_plain {c : Char} (hc : newline c = false) (rest : List Char) :
    collapse (c :: rest) = c :: collapse rest := by
  refine replaceMatches_none ?_
  unfold newlineRun
  rw [List.takeWhile_cons_of_neg (by rw [hc]; exact Bool.false_ne_true)]
  rfl

theorem newlineRun_run {run rest : List Char} (hrun : ∀ c ∈ run, newline c = true)
    (hrest : ∀ c ∈ rest.head?, newline c = false) :
    newlineRun (run ++ rest) = if 3 ≤ run.length then some (run.length, ['\n', '\n']) else none := by
  have htake : (run ++ rest).takeWhile newline = run := by
    rw [List.takeWhile_append_of_pos hrun]
    cases rest with
    | nil => exact List.append_nil run
    | cons c rest =>
      rw [List.takeWhile_cons_of_neg (by rw [hrest c rfl]; exact Bool.false_ne_true),
        List.append_nil]
  unfold newlineRun
  rw [htake]

theorem collapse_run {run rest : List Char} (hrun : ∀ c ∈ run, newline c = true)
    (hrest : ∀ c ∈ rest.head?, newline c = false) :
    collapse (run ++ rest) = run.take 2 ++ collapse rest := by
  by_cases hlong : 3 ≤ run.length
  · have hfind := newlineRun_run hrun hrest
    rw [if_pos hlong] at hfind
    have hne : run ≠ [] := by
      rintro rfl
      cases hlong
    have htwo : run.take 2 = ['\n', '\n'] := by
      have hall : ∀ c ∈ run.take 2, c = '\n' :=
        fun c hc => eq_of_beq (hrun c (List.mem_of_mem_take hc))
      have hlength : (run.take 2).length = 2 := List.length_take_of_le (by omega)
      rw [List.eq_replicate_of_mem hall, hlength]
      rfl
    rw [htwo]
    exact replaceMatches_some hne hfind
  · have hnone : ∀ tail, tail <:+ run → newlineRun (tail ++ rest) = none := by
      intro tail htail
      rw [newlineRun_run (fun c hc => hrun c (htail.subset hc)) hrest, if_neg]
      have hlength := htail.length_le
      omega
    rw [List.take_of_length_le (by omega)]
    clear hlong
    induction run with
    | nil => rfl
    | cons c run ih =>
      have hfirst := hnone (c :: run) List.suffix_rfl
      rw [List.cons_append] at hfirst
      rw [List.cons_append, List.cons_append]
      exact (replaceMatches_none hfirst).trans (congrArg (c :: ·)
        (ih (fun d hd => hrun d (List.mem_cons_of_mem c hd))
          fun tail htail => hnone tail (htail.trans (List.suffix_cons c run))))

theorem collapse_eq (content : List Char) : collapse content = squeezeFrom newline 0 content := by
  induction hn : content.length using Nat.strong_induction_on generalizing content with
  | _ n ih =>
    have hsplit := List.takeWhile_append_dropWhile (p := newline) (l := content)
    have hrun : ∀ c ∈ content.takeWhile newline, newline c = true :=
      fun c hc => List.mem_takeWhile_imp hc
    cases hrest : content.dropWhile newline with
    | nil =>
      rw [hrest] at hsplit
      rw [← hsplit, collapse_run hrun (fun c hc => by cases hc),
        squeezeFrom_run hrun (fun c hc => by cases hc)]
      rfl
    | cons c rest =>
      have hc : newline c = false := by
        have hhead := List.head?_dropWhile_not newline content
        rw [hrest] at hhead
        simpa using hhead
      have hfirst : ∀ d ∈ (c :: rest).head?, newline d = false := by
        intro d hd
        cases hd
        exact hc
      have hless : rest.length < n := by
        have hlength := (List.dropWhile_suffix newline (l := content)).length_le
        rw [hrest, List.length_cons, hn] at hlength
        omega
      rw [hrest] at hsplit
      rw [← hsplit, collapse_run hrun hfirst, squeezeFrom_run hrun hfirst, collapse_plain hc,
        ih _ hless rest rfl, squeezeFrom, if_neg (by rw [hc]; exact Bool.false_ne_true)]

end Collapsing

section Ledgers

/-- The tags of the blocks, each with whether its reference is there, and the
characters outside the blocks, newlines apart. -/
@[ext]
structure Ledger where
  blocks : List (Tag × Bool)
  user : List Char
  distinct : (blocks.map Prod.fst).Nodup

namespace Ledger

theorem distinct_filter (l : Ledger) (p : Tag × Bool → Bool) :
    ((l.blocks.filter p).map Prod.fst).Nodup :=
  l.distinct.sublist (List.filter_sublist.map _)

def without (l : Ledger) (tag : Tag) : Ledger where
  blocks := l.blocks.filter fun entry => entry.1 != tag
  user := l.user
  distinct := l.distinct_filter _

variable {l : Ledger} {tag : Tag} {entry : Tag × Bool}

theorem mem_without : entry ∈ (l.without tag).blocks ↔ entry ∈ l.blocks ∧ entry.1 ≠ tag := by
  rw [without, List.mem_filter, bne_iff_ne]

theorem without_of_absent (h : tag ∉ l.blocks.map Prod.fst) : l.without tag = l := by
  refine Ledger.ext (List.filter_eq_self.mpr fun entry hentry => bne_iff_ne.mpr ?_) rfl
  rintro rfl
  exact h (List.mem_map_of_mem hentry)

theorem distinct_concat (l : Ledger) (tag : Tag) :
    (((l.without tag).blocks ++ [(tag, true)]).map Prod.fst).Nodup := by
  rw [List.map_append, List.map_singleton, List.nodup_append]
  refine ⟨(l.without tag).distinct, List.nodup_singleton tag, ?_⟩
  intro other hother found hfound
  obtain ⟨entry, hentry, rfl⟩ := List.mem_map.mp hother
  rw [List.mem_singleton.mp hfound]
  exact (mem_without.mp hentry).2

def renewed (l : Ledger) (tag : Tag) : Ledger where
  blocks := (l.without tag).blocks ++ [(tag, true)]
  user := l.user
  distinct := l.distinct_concat tag

def ensured (l : Ledger) (tag : Tag) : Ledger :=
  if (tag, true) ∈ l.blocks then l else l.renewed tag

/-- What the injector does to the ledger. -/
def injected (policy : Tag → String) (l : Ledger) : Ledger :=
  (registry.filter (isAlways policy ·)).foldl ensured
    ((registry.filter (!isAlways policy ·)).foldl without l)

theorem eq_of_tag (h : entry ∈ l.blocks) {other : Tag × Bool} (hother : other ∈ l.blocks)
    (htag : entry.1 = other.1) : entry = other :=
  List.inj_on_of_nodup_map l.distinct h hother htag

theorem mem_ensured : entry ∈ (l.ensured tag).blocks ↔
    if entry.1 = tag then entry.2 = true else entry ∈ l.blocks := by
  obtain ⟨other, flag⟩ := entry
  unfold ensured
  split
  · next hfull =>
    split
    · next htag =>
      obtain rfl : other = tag := htag
      constructor
      · intro h
        exact congrArg Prod.snd (eq_of_tag h hfull rfl)
      · rintro rfl
        exact hfull
    · exact Iff.rfl
  · rw [renewed, List.mem_append, mem_without, List.mem_singleton, Prod.mk.injEq]
    split
    · next htag =>
      obtain rfl : other = tag := htag
      simp
    · next hne =>
      have hne : other ≠ tag := hne
      simp [hne]

theorem mem_foldl_without (tags : List Tag) : entry ∈ (tags.foldl without l).blocks ↔
    entry ∈ l.blocks ∧ entry.1 ∉ tags := by
  induction tags generalizing l with
  | nil => simp
  | cons tag tags ih =>
    rw [List.foldl_cons, ih, mem_without, List.mem_cons, not_or, and_assoc]

theorem mem_foldl_ensured (tags : List Tag) : entry ∈ (tags.foldl ensured l).blocks ↔
    if entry.1 ∈ tags then entry.2 = true else entry ∈ l.blocks := by
  induction tags generalizing l with
  | nil => simp
  | cons tag tags ih =>
    rw [List.foldl_cons, ih]
    by_cases hmem : entry.1 ∈ tags
    · rw [if_pos hmem, if_pos (List.mem_cons_of_mem tag hmem)]
    · rw [if_neg hmem, mem_ensured]
      by_cases htag : entry.1 = tag
      · rw [if_pos htag, if_pos (htag ▸ List.mem_cons_self)]
      · rw [if_neg htag, if_neg]
        simp [htag, hmem]

/-- After an injection the blocks are those of the tags to be kept, each with its reference. -/
theorem mem_injected {policy : Tag → String} : entry ∈ (l.injected policy).blocks ↔
    isAlways policy entry.1 = true ∧ entry.2 = true := by
  have hall := mem_registry entry.1
  unfold injected
  rw [mem_foldl_ensured]
  cases halways : isAlways policy entry.1 with
  | true => simp [hall, halways]
  | false => simp [mem_foldl_without, hall, halways]

theorem user_foldl_without (tags : List Tag) : (tags.foldl without l).user = l.user := by
  induction tags generalizing l with
  | nil => rfl
  | cons tag tags ih => exact ih

theorem user_ensured : (l.ensured tag).user = l.user := by
  unfold ensured
  split <;> rfl

theorem user_foldl_ensured (tags : List Tag) : (tags.foldl ensured l).user = l.user := by
  induction tags generalizing l with
  | nil => rfl
  | cons tag tags ih => exact ih.trans user_ensured

theorem user_injected (policy : Tag → String) : (l.injected policy).user = l.user :=
  (user_foldl_ensured _).trans (user_foldl_without _)

end Ledger

end Ledgers

section Pieces

/-- A block has its own reference in it and no other mark. -/
structure Block where
  tag : Tag
  inner : List (Token Mark)
  only : ∀ m, .mark m ∈ inner → m = .reference tag

inductive Piece where
  | char (c : Char)
  | block (b : Block)

def Piece.tokens : Piece → List (Token Mark)
  | .char c => [.char c]
  | .block b => .mark (.opening b.tag) :: (b.inner ++ [.mark (.closing b.tag)])

def tokensOf (pieces : List Piece) : List (Token Mark) := pieces.flatMap Piece.tokens

def Piece.ledger? : Piece → Option (Tag × Bool)
  | .char _ => none
  | .block b => some (b.tag, decide (.mark (.reference b.tag) ∈ b.inner))

def Piece.user? : Piece → Option Char
  | .char c => if newline c then none else some c
  | .block _ => none

def Piece.isBlank : Piece → Bool
  | .char c => newline c
  | .block _ => false

/-- A text put together from pieces, and its ledger. No run of characters ends
in the beginning of a mark, so none arises when a block goes. -/
structure Reads (pieces : List Piece) (content : List Char) (l : Ledger) : Prop where
  text : content = marks.render (tokensOf pieces)
  firm : marks.Firm (tokensOf pieces)
  blocks : pieces.filterMap Piece.ledger? = l.blocks
  user : pieces.filterMap Piece.user? = l.user

def Tidy (content : List Char) : Prop := ∃ pieces l, Reads pieces content l

variable {pieces others : List Piece} {content : List Char} {l : Ledger} {tag : Tag}

theorem tokensOf_append (pieces others : List Piece) :
    tokensOf (pieces ++ others) = tokensOf pieces ++ tokensOf others := List.flatMap_append

theorem tokensOf_cons (piece : Piece) (pieces : List Piece) :
    tokensOf (piece :: pieces) = piece.tokens ++ tokensOf pieces := List.flatMap_cons

theorem opening_mem_tokens {piece : Piece} : .mark (.opening tag) ∈ piece.tokens ↔
    ∃ entry ∈ piece.ledger?, entry.1 = tag := by
  cases piece with
  | char c => simp [Piece.tokens, Piece.ledger?]
  | block b =>
    have hnot : Token.mark (.opening tag) ∉ b.inner := fun h => Mark.noConfusion (b.only _ h)
    simp [Piece.tokens, Piece.ledger?, hnot, eq_comm]

theorem reference_mem_tokens {piece : Piece} : .mark (.reference tag) ∈ piece.tokens ↔
    (tag, true) ∈ piece.ledger? := by
  cases piece with
  | char c => simp [Piece.tokens, Piece.ledger?]
  | block b =>
    have honly : Token.mark (.reference tag) ∈ b.inner →
        b.tag = tag := fun h => (Mark.reference.inj (b.only _ h)).symm
    simp only [Piece.tokens, Piece.ledger?, List.mem_cons, List.mem_append, Token.mark.injEq,
      reduceCtorEq, false_or, List.not_mem_nil, or_false, Option.mem_def, Option.some.injEq,
      Prod.mk.injEq, decide_eq_true_eq]
    exact ⟨fun h => ⟨honly h, honly h ▸ h⟩, fun h => h.1 ▸ h.2⟩

theorem opening_mem : .mark (.opening tag) ∈ tokensOf pieces ↔
    tag ∈ (pieces.filterMap Piece.ledger?).map Prod.fst := by
  rw [tokensOf, List.mem_flatMap, List.mem_map]
  constructor
  · rintro ⟨piece, hpiece, hmark⟩
    obtain ⟨entry, hentry, htag⟩ := opening_mem_tokens.mp hmark
    exact ⟨entry, List.mem_filterMap.mpr ⟨piece, hpiece, hentry⟩, htag⟩
  · rintro ⟨entry, hentry, htag⟩
    obtain ⟨piece, hpiece, hsome⟩ := List.mem_filterMap.mp hentry
    exact ⟨piece, hpiece, opening_mem_tokens.mpr ⟨entry, hsome, htag⟩⟩

theorem reference_mem : .mark (.reference tag) ∈ tokensOf pieces ↔
    (tag, true) ∈ pieces.filterMap Piece.ledger? := by
  rw [tokensOf, List.mem_flatMap, List.mem_filterMap]
  exact exists_congr fun piece => and_congr_right fun _ => reference_mem_tokens

theorem Reads.contains_opening (h : Reads pieces content l) :
    contains (openTag tag) content = true ↔ tag ∈ l.blocks.map Prod.fst := by
  rw [contains, decide_eq_true_iff, h.text, ← h.blocks, ← opening_mem]
  exact (mark_mem_iff (m := .opening tag) h.firm.tight).symm

theorem Reads.contains_reference (h : Reads pieces content l) :
    contains (refLine tag) content = true ↔ (tag, true) ∈ l.blocks := by
  rw [contains, decide_eq_true_iff, h.text, ← h.blocks, ← reference_mem]
  exact (mark_mem_iff (m := .reference tag) h.firm.tight).symm

/-- Pieces with the blank ones at their end apart. -/
theorem exists_blanks_behind (pieces : List Piece) : ∃ front blanks, pieces = front ++ blanks ∧
    (∀ piece ∈ blanks, piece.isBlank = true) ∧ ∀ piece ∈ front.getLast?, piece.isBlank = false := by
  induction pieces using List.reverseRecOn with
  | nil => exact ⟨[], [], rfl, fun _ h => absurd h List.not_mem_nil, fun _ h => by cases h⟩
  | append_singleton pieces piece ih =>
    cases hblank : piece.isBlank with
    | true =>
      obtain ⟨front, blanks, rfl, hblanks, hlast⟩ := ih
      refine ⟨front, blanks ++ [piece], List.append_assoc _ _ _, fun other hother => ?_, hlast⟩
      rcases List.mem_append.mp hother with hother | hother
      · exact hblanks other hother
      · rw [List.mem_singleton.mp hother]
        exact hblank
    | false =>
      refine ⟨pieces ++ [piece], [], (List.append_nil _).symm,
        fun _ h => absurd h List.not_mem_nil, fun other hother => ?_⟩
      rw [List.getLast?_concat] at hother
      exact Option.some.inj hother ▸ hblank

theorem exists_blanks_before (pieces : List Piece) : ∃ blanks rest, pieces = blanks ++ rest ∧
    (∀ piece ∈ blanks, piece.isBlank = true) ∧ ∀ piece ∈ rest.head?, piece.isBlank = false := by
  induction pieces with
  | nil => exact ⟨[], [], rfl, fun _ h => absurd h List.not_mem_nil, fun _ h => by cases h⟩
  | cons piece pieces ih =>
    cases hblank : piece.isBlank with
    | true =>
      obtain ⟨blanks, rest, rfl, hblanks, hfirst⟩ := ih
      exact ⟨piece :: blanks, rest, rfl, List.forall_mem_cons.mpr ⟨hblank, hblanks⟩, hfirst⟩
    | false =>
      refine ⟨[], piece :: pieces, rfl, fun _ h => absurd h List.not_mem_nil, fun other hother => ?_⟩
      exact Option.some.inj hother ▸ hblank

theorem blank_tokens {piece : Piece} (h : piece.isBlank = true) :
    (∀ token ∈ piece.tokens, isNewline token = true) ∧ piece.ledger? = none ∧
      piece.user? = none := by
  cases piece with
  | block b => cases h
  | char c =>
    have hc : newline c = true := h
    refine ⟨fun token htoken => ?_, rfl, if_pos hc⟩
    rw [List.mem_singleton.mp htoken]
    exact hc

theorem blanks_tokens (h : ∀ piece ∈ pieces, piece.isBlank = true) :
    (∀ token ∈ tokensOf pieces, isNewline token = true) ∧ pieces.filterMap Piece.ledger? = [] ∧
      pieces.filterMap Piece.user? = [] := by
  refine ⟨fun token htoken => ?_, ?_, ?_⟩
  · obtain ⟨piece, hpiece, hmem⟩ := List.mem_flatMap.mp htoken
    exact (blank_tokens (h piece hpiece)).1 token hmem
  · exact List.filterMap_eq_nil_iff.mpr fun piece hpiece => (blank_tokens (h piece hpiece)).2.1
  · exact List.filterMap_eq_nil_iff.mpr fun piece hpiece => (blank_tokens (h piece hpiece)).2.2

theorem piece_last {piece : Piece} (h : piece.isBlank = false) (front : List (Token Mark)) :
    ∀ token ∈ (front ++ piece.tokens).getLast?, isNewline token = false := by
  intro token htoken
  cases piece with
  | char c =>
    rw [Piece.tokens, List.getLast?_concat] at htoken
    exact Option.some.inj htoken ▸ h
  | block b =>
    rw [Piece.tokens, ← List.cons_append, ← List.append_assoc, List.getLast?_concat] at htoken
    rw [← Option.some.inj htoken]
    rfl

theorem last_token (h : ∀ piece ∈ pieces.getLast?, piece.isBlank = false) :
    ∀ token ∈ (tokensOf pieces).getLast?, isNewline token = false := by
  rcases List.eq_nil_or_concat pieces with rfl | ⟨front, piece, rfl⟩
  · intro token htoken
    cases htoken
  · rw [List.concat_eq_append] at h ⊢
    rw [tokensOf_append, tokensOf_cons, show tokensOf [] = [] from rfl, List.append_nil]
    exact piece_last (h piece (List.getLast?_concat ..)) _

theorem first_token (h : ∀ piece ∈ pieces.head?, piece.isBlank = false) :
    ∀ token ∈ (tokensOf pieces).head?, isNewline token = false := by
  cases pieces with
  | nil =>
    intro token htoken
    cases htoken
  | cons piece pieces =>
    intro token htoken
    have hpiece := h piece rfl
    cases piece with
    | char c =>
      cases htoken
      exact hpiece
    | block b =>
      cases htoken
      rfl

theorem runOf_stop {tokens : List (Token Mark)} (h : ∀ token ∈ tokens, isNewline token = true)
    (m : Mark) (rest : List (Token Mark)) : runOf (tokens ++ .mark m :: rest) = [] := by
  cases tokens with
  | nil => rfl
  | cons token tokens =>
    have htoken := h token List.mem_cons_self
    cases token with
    | mark n => cases htoken
    | char c => exact if_pos htoken

/-- Removing a block is removing its entry of the ledger. -/
theorem Reads.removeBlock (h : Reads pieces content l) (tag : Tag) :
    ∃ pieces', Reads pieces' (removeBlock content tag) (l.without tag) := by
  have hremove : Injection.removeBlock content tag =
      marks.render (remove (.opening tag) (.closing tag) (tokensOf pieces)) := by
    rw [h.text]
    exact removeBlocks_render (m := Mark.opening tag) (n := Mark.closing tag) h.firm.tight
  by_cases htag : tag ∈ l.blocks.map Prod.fst
  · obtain ⟨entry, hentry, hname⟩ := List.mem_map.mp htag
    rw [← h.blocks] at hentry
    obtain ⟨piece, hpiece, hsome⟩ := List.mem_filterMap.mp hentry
    cases piece with
    | char c => cases hsome
    | block b =>
      obtain ⟨before, behind, rfl⟩ := List.append_of_mem hpiece
      obtain rfl : b.tag = tag := by rw [← hname, ← Option.some.inj hsome]
      obtain ⟨front, lead, rfl, hlead, hlast⟩ := exists_blanks_behind before
      obtain ⟨trail, rest, rfl, htrail, hfirst⟩ := exists_blanks_before behind
      obtain ⟨hleadTokens, hleadEntries, hleadUser⟩ := blanks_tokens hlead
      obtain ⟨htrailTokens, htrailEntries, htrailUser⟩ := blanks_tokens htrail
      have hblocks : front.filterMap Piece.ledger? ++
          (b.tag, decide (.mark (.reference b.tag) ∈ b.inner)) :: rest.filterMap Piece.ledger? =
            l.blocks := by
        rw [← h.blocks]
        simp [List.filterMap_append, hleadEntries, htrailEntries, Piece.ledger?]
      have hdistinct := l.distinct
      rw [← hblocks, List.map_append, List.map_cons, List.nodup_middle, List.nodup_cons,
        List.mem_append, not_or] at hdistinct
      obtain ⟨⟨hbefore, hbehind⟩, -⟩ := hdistinct
      have hinner : Token.mark (.closing b.tag) ∉ b.inner := fun hm => Mark.noConfusion (b.only _ hm)
      have htokens : tokensOf (front ++ lead ++ Piece.block b :: (trail ++ rest)) =
          tokensOf front ++ ((tokensOf lead ++ .mark (.opening b.tag) ::
            (b.inner ++ .mark (.closing b.tag) :: tokensOf trail)) ++ tokensOf rest) := by
        simp [tokensOf_append, tokensOf_cons, Piece.tokens]
      have hrest : remove (.opening b.tag) (.closing b.tag)
          (tokensOf (front ++ lead ++ Piece.block b :: (trail ++ rest))) =
            tokensOf (front ++ rest) := by
        rw [htokens, tokensOf_append]
        exact remove_block (fun hm => hbefore (opening_mem.mp hm)) hinner
          (fun hm => hbehind (opening_mem.mp hm)) hleadTokens htrailTokens (last_token hlast)
          (first_token hfirst)
      have hfirm := h.firm
      rw [htokens] at hfirm
      refine ⟨front ++ rest, ?_, ?_, ?_, ?_⟩
      · rw [hremove, hrest]
      · rw [tokensOf_append]
        refine Firm.append (Firm.left ?_ hfirm) hfirm.right.right
        rw [List.append_assoc]
        exact runOf_stop hleadTokens _ _
      · have hkeep : ∀ entries : List (Tag × Bool), b.tag ∉ entries.map Prod.fst →
            entries.filter (fun entry => entry.1 != b.tag) = entries := by
          intro entries hnot
          refine List.filter_eq_self.mpr fun entry hentry => bne_iff_ne.mpr fun heq => hnot ?_
          exact heq ▸ List.mem_map_of_mem hentry
        have hwithout : (l.without b.tag).blocks =
            l.blocks.filter fun entry => entry.1 != b.tag := rfl
        rw [hwithout, ← hblocks, List.filter_append, List.filter_cons_of_neg (by simp),
          hkeep _ hbefore, hkeep _ hbehind, List.filterMap_append]
      · have hwithout : (l.without b.tag).user = l.user := rfl
        rw [hwithout, ← h.user]
        simp [List.filterMap_append, List.filterMap_cons, hleadUser, htrailUser, Piece.user?]
  · refine ⟨pieces, ?_⟩
    rw [Ledger.without_of_absent htag]
    refine ⟨?_, h.firm, h.blocks, h.user⟩
    rw [hremove, remove_of_absent]
    rw [opening_mem, h.blocks]
    exact htag

theorem squeezeFrom_mark (before : Nat) (tokens : List (Token Mark)) (m : Mark)
    (rest : List (Token Mark)) : squeezeFrom isNewline before (tokens ++ .mark m :: rest) =
      squeezeFrom isNewline before tokens ++ .mark m :: squeezeFrom isNewline 0 rest := by
  induction tokens generalizing before with
  | nil => rfl
  | cons token tokens ih =>
    rw [List.cons_append, squeezeFrom, squeezeFrom]
    split
    · split
      · rw [ih, List.cons_append]
      · exact ih before
    · rw [ih, List.cons_append]

theorem mark_mem_squeezeFrom (before : Nat) (tokens : List (Token Mark)) (m : Mark) :
    .mark m ∈ squeezeFrom isNewline before tokens ↔ .mark m ∈ tokens := by
  induction tokens generalizing before with
  | nil => exact Iff.rfl
  | cons token tokens ih =>
    rw [squeezeFrom]
    split
    · next htoken =>
      have hne : Token.mark m ≠ token := by
        rintro rfl
        cases htoken
      split
      · rw [List.mem_cons, List.mem_cons, ih]
      · rw [ih, List.mem_cons, or_iff_right hne]
    · rw [List.mem_cons, List.mem_cons, ih]

def Block.squeezed (b : Block) : Block where
  tag := b.tag
  inner := squeezeFrom isNewline 0 b.inner
  only := fun m hm => b.only m ((mark_mem_squeezeFrom 0 b.inner m).mp hm)

theorem squeeze_pieces (before : Nat) (pieces : List Piece) :
    ∃ pieces', tokensOf pieces' = squeezeFrom isNewline before (tokensOf pieces) ∧
      pieces'.filterMap Piece.ledger? = pieces.filterMap Piece.ledger? ∧
        pieces'.filterMap Piece.user? = pieces.filterMap Piece.user? := by
  induction pieces generalizing before with
  | nil => exact ⟨[], rfl, rfl, rfl⟩
  | cons piece pieces ih =>
    rw [tokensOf_cons]
    cases piece with
    | char c =>
      rw [Piece.tokens, List.singleton_append, squeezeFrom]
      split
      · next hc =>
        have huser : (Piece.char c).user? = none := if_pos hc
        split
        · obtain ⟨pieces', htokens, hentries, huser'⟩ := ih (before + 1)
          refine ⟨.char c :: pieces', ?_, ?_, ?_⟩
          · rw [tokensOf_cons, htokens]
            rfl
          · exact hentries
          · rw [List.filterMap_cons_none huser, List.filterMap_cons_none huser, huser']
        · obtain ⟨pieces', htokens, hentries, huser'⟩ := ih before
          refine ⟨pieces', htokens, hentries, ?_⟩
          rw [List.filterMap_cons_none huser, huser']
      · next hc =>
        have huser : (Piece.char c).user? = some c := if_neg hc
        obtain ⟨pieces', htokens, hentries, huser'⟩ := ih 0
        refine ⟨.char c :: pieces', ?_, ?_, ?_⟩
        · rw [tokensOf_cons, htokens]
          rfl
        · exact hentries
        · rw [List.filterMap_cons_some huser, List.filterMap_cons_some huser, huser']
    | block b =>
      obtain ⟨pieces', htokens, hentries, huser⟩ := ih 0
      refine ⟨.block b.squeezed :: pieces', ?_, ?_, ?_⟩
      · have hblock : (Piece.block b).tokens ++ tokensOf pieces =
            .mark (.opening b.tag) :: (b.inner ++ .mark (.closing b.tag) :: tokensOf pieces) := by
          simp [Piece.tokens]
        rw [hblock, squeezeFrom, if_neg (by exact Bool.false_ne_true), squeezeFrom_mark,
          tokensOf_cons, htokens]
        simp [Piece.tokens, Block.squeezed]
      · have hentry : (Piece.block b.squeezed).ledger? = (Piece.block b).ledger? := by
          simp [Piece.ledger?, Block.squeezed, mark_mem_squeezeFrom]
        rw [List.filterMap_cons, List.filterMap_cons, hentry, hentries]
      · exact huser

theorem Reads.collapse (h : Reads pieces content l) :
    ∃ pieces', Reads pieces' (collapse content) l := by
  obtain ⟨pieces', htokens, hentries, huser⟩ := squeeze_pieces 0 pieces
  refine ⟨pieces', ?_, ?_, hentries.trans h.blocks, huser.trans h.user⟩
  · rw [collapse_eq, h.text, squeezeFrom_render, htokens]
  · rw [htokens]
    exact h.firm.squeezeFrom 0

/-- The block that the injector writes. -/
def written (tag : Tag) : Block where
  tag := tag
  inner := [.char '\n', .char '\n', .mark (.reference tag), .char '\n', .char '\n']
  only := by simp

theorem Reads.append (h : Reads pieces content l) (habsent : tag ∉ l.blocks.map Prod.fst)
    {newlines : List Char} (hnewlines : ∀ c ∈ newlines, c = '\n') :
    ∃ pieces', Reads pieces' (content ++ (newlines ++ block tag)) (l.renewed tag) := by
  have hblanks : ∀ piece ∈ newlines.map Piece.char, piece.isBlank = true := by
    intro piece hpiece
    obtain ⟨c, hc, rfl⟩ := List.mem_map.mp hpiece
    rw [hnewlines c hc]
    rfl
  obtain ⟨hblankTokens, hblankEntries, hblankUser⟩ := blanks_tokens hblanks
  have htokens : tokensOf (newlines.map Piece.char) = newlines.map Token.char := by
    rw [tokensOf, List.flatMap_map, List.map_eq_flatMap]
    rfl
  have hrender : marks.render (newlines.map Token.char) = newlines := by
    rw [render, List.flatMap_map]
    exact List.flatMap_singleton' _
  have hblock : marks.render (tokensOf [.block (written tag), .char '\n']) = block tag := by
    simp [tokensOf, Piece.tokens, written, render, tokenText, block, marks, Mark.text]
  refine ⟨pieces ++ (newlines.map Piece.char ++ [.block (written tag), .char '\n']), ?_, ?_, ?_, ?_⟩
  · rw [tokensOf_append, tokensOf_append, render_append, render_append, htokens, hrender, hblock,
      ← h.text]
  · rw [tokensOf_append, tokensOf_append]
    refine h.firm.append (Firm.append (firm_of_unled fun token htoken => ?_) (firm_of_unled ?_))
    · have hnewline := hblankTokens token htoken
      cases token with
      | mark m => cases hnewline
      | char c => rw [eq_of_beq hnewline]; rfl
    · intro token htoken
      simp only [tokensOf, Piece.tokens, written, List.flatMap_cons, List.flatMap_nil,
        List.cons_append, List.nil_append, List.append_nil, List.mem_cons, List.not_mem_nil,
        or_false] at htoken
      rcases htoken with rfl | rfl | rfl | rfl | rfl | rfl | rfl | rfl <;> rfl
  · have hrenewed : (l.renewed tag).blocks = (l.without tag).blocks ++ [(tag, true)] := rfl
    rw [hrenewed, Ledger.without_of_absent habsent, List.filterMap_append, List.filterMap_append,
      h.blocks, hblankEntries]
    simp [Piece.ledger?, written]
  · have hrenewed : (l.renewed tag).user = l.user := rfl
    rw [hrenewed, List.filterMap_append, List.filterMap_append, h.user, hblankUser]
    simp [Piece.user?, newline]

theorem newlines_gap (content : List Char) : ∀ c ∈ gap content, c = '\n' := by
  intro c hc
  unfold gap at hc
  split at hc
  · cases hc
  · simpa using hc

theorem reads_removeReference {draft : Draft} (h : Reads pieces draft.content l) (tag : Tag) :
    ∃ pieces', Reads pieces' (removeReference draft tag).content (l.without tag) := by
  unfold removeReference
  split
  · exact h.removeBlock tag
  · next habsent =>
    rw [h.contains_opening] at habsent
    rw [Ledger.without_of_absent habsent]
    exact ⟨pieces, h⟩

theorem reads_ensureReference {draft : Draft} (h : Reads pieces draft.content l) (tag : Tag) :
    ∃ pieces', Reads pieces' (ensureReference draft tag).content (l.ensured tag) := by
  unfold ensureReference Ledger.ensured
  by_cases hfull : (tag, true) ∈ l.blocks
  · rw [if_pos (h.contains_reference.mpr hfull), if_pos hfull]
    exact ⟨pieces, h⟩
  · rw [if_neg (fun hc => hfull (h.contains_reference.mp hc)), if_neg hfull]
    -- Whether or not there is a block to clear, what is cleared has none.
    have hcleared : ∃ pieces', Reads pieces'
        (if contains (openTag tag) draft.content then removeBlock draft.content tag
          else draft.content) (l.without tag) := by
      split
      · exact h.removeBlock tag
      · next habsent =>
        rw [h.contains_opening] at habsent
        rw [Ledger.without_of_absent habsent]
        exact ⟨pieces, h⟩
    obtain ⟨pieces', hreads⟩ := hcleared
    have habsent : tag ∉ (l.without tag).blocks.map Prod.fst := by
      intro htag
      obtain ⟨entry, hentry, hname⟩ := List.mem_map.mp htag
      exact (Ledger.mem_without.mp hentry).2 hname
    have hrenewed : (l.without tag).renewed tag = l.renewed tag := by
      refine Ledger.ext ?_ rfl
      exact congrArg (fun other : Ledger => other.blocks ++ [(tag, true)])
        (Ledger.without_of_absent habsent)
    obtain ⟨last, hlast⟩ := hreads.append habsent (newlines_gap _)
    exact ⟨last, hrenewed ▸ hlast⟩

theorem reads_foldl {step : Draft → Tag → Draft} {move : Ledger → Tag → Ledger}
    (hstep : ∀ {pieces : List Piece} {draft : Draft} {l : Ledger} (tag : Tag),
      Reads pieces draft.content l → ∃ pieces', Reads pieces' (step draft tag).content (move l tag))
    (tags : List Tag) {draft : Draft} (h : Reads pieces draft.content l) :
    ∃ pieces', Reads pieces' (tags.foldl step draft).content (tags.foldl move l) := by
  induction tags generalizing pieces draft l with
  | nil => exact ⟨pieces, h⟩
  | cons tag tags ih =>
    obtain ⟨pieces', hnext⟩ := hstep tag h
    exact ih hnext

/-- A step that reports no change has made none. -/
theorem foldl_unchanged {step : Draft → Tag → Draft}
    (hstep : ∀ draft tag, (step draft tag).changesMade = false → step draft tag = draft)
    (tags : List Tag) (draft : Draft) (h : (tags.foldl step draft).changesMade = false) :
    tags.foldl step draft = draft := by
  induction tags generalizing draft with
  | nil => rfl
  | cons tag tags ih =>
    have hrest := ih (step draft tag) h
    rw [List.foldl_cons] at h ⊢
    rw [hrest] at h ⊢
    exact hstep draft tag h

theorem removeReference_unchanged (draft : Draft) (tag : Tag)
    (h : (removeReference draft tag).changesMade = false) : removeReference draft tag = draft := by
  unfold removeReference at h ⊢
  split at h
  · cases h
  · next habsent => rw [if_neg habsent]

theorem ensureReference_unchanged (draft : Draft) (tag : Tag)
    (h : (ensureReference draft tag).changesMade = false) : ensureReference draft tag = draft := by
  unfold ensureReference at h ⊢
  split at h
  · next hfull => rw [if_pos hfull]
  · cases h

/-- The injector takes a tidy file to a tidy file, and its ledger as the policies say. -/
theorem reads_injectInto (h : Reads pieces content l) (policy : Tag → String) :
    ∃ pieces', Reads pieces' (injectInto policy content) (l.injected policy) := by
  have hstart : Reads pieces (Draft.mk content false).content l := h
  obtain ⟨_, hremoved⟩ := reads_foldl (fun tag hreads => reads_removeReference hreads tag)
    (registry.filter (!isAlways policy ·)) hstart
  obtain ⟨last, hlast⟩ := reads_foldl (fun tag hreads => reads_ensureReference hreads tag)
    (registry.filter (isAlways policy ·)) hremoved
  unfold injectInto
  dsimp only
  split
  · exact hlast.collapse
  · next hunchanged =>
    rw [Bool.not_eq_true] at hunchanged
    have hensured := foldl_unchanged ensureReference_unchanged _ _ hunchanged
    rw [hensured] at hunchanged
    have hremoved := foldl_unchanged removeReference_unchanged _ _ hunchanged
    rw [hensured, hremoved] at hlast
    exact ⟨last, hlast⟩

theorem foldl_fixed {step : Draft → Tag → Draft} {tags : List Tag} {draft : Draft}
    (h : ∀ tag ∈ tags, step draft tag = draft) : tags.foldl step draft = draft := by
  induction tags with
  | nil => rfl
  | cons tag tags ih =>
    rw [List.foldl_cons, h tag List.mem_cons_self]
    exact ih fun other hother => h other (List.mem_cons_of_mem tag hother)

/-- A file whose blocks are as the policies say is left as it is. -/
theorem injectInto_fixed {policy : Tag → String} (h : Reads pieces content l)
    (hsettled : ∀ entry, entry ∈ l.blocks ↔ isAlways policy entry.1 = true ∧ entry.2 = true) :
    injectInto policy content = content := by
  have hremoved : (registry.filter (!isAlways policy ·)).foldl removeReference ⟨content, false⟩ =
      ⟨content, false⟩ := by
    refine foldl_fixed fun tag htag => ?_
    have hnot : isAlways policy tag = false := by simpa using (List.mem_filter.mp htag).2
    rw [removeReference, if_neg]
    rw [h.contains_opening]
    rintro hopen
    obtain ⟨entry, hentry, rfl⟩ := List.mem_map.mp hopen
    rw [((hsettled entry).mp hentry).1] at hnot
    cases hnot
  have hensured : (registry.filter (isAlways policy ·)).foldl ensureReference ⟨content, false⟩ =
      ⟨content, false⟩ := by
    refine foldl_fixed fun tag htag => ?_
    rw [ensureReference, if_pos]
    exact h.contains_reference.mpr ((hsettled (tag, true)).mpr ⟨(List.mem_filter.mp htag).2, rfl⟩)
  unfold injectInto
  rw [hremoved]
  dsimp only
  rw [hensured]
  rfl

end Pieces

end RemyCC.Injection
