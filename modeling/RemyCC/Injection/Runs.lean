import RemyCC.Injection.Readings

/-!
# Runs of the injector

However often the injector has run and with whatever policies, the last ones
decide which blocks are in the file, the characters of the user are still there
in their order, and another run with these policies changes nothing.
-/

namespace RemyCC.Injection

open Text Marks

/-- What is left when every block is taken out, newlines apart. -/
def bare (content : List Char) : List Char :=
  (registry.foldl removeBlock content).filter (!newline ·)

def textOf (file : Option String) : List Char := (file.getD "# System Context\n\n").toList

def injections (policies : List (Tag → String)) (file : Option String) : Option String :=
  policies.foldl (fun file policy => some (injectAll policy file)) file

structure Settled (policy : Tag → String) (before after : List Char) : Prop where
  tidy : Tidy after
  user : bare after = bare before
  referenced : ∀ tag, contains (refLine tag) after = isAlways policy tag
  opened : ∀ tag, contains (openTag tag) after = isAlways policy tag

section Runs

variable {pieces : List Piece} {content : List Char} {l : Ledger}

theorem reads_foldl_removeBlock (h : Reads pieces content l) (tags : List Tag) :
    ∃ pieces', Reads pieces' (tags.foldl removeBlock content) (tags.foldl Ledger.without l) := by
  induction tags generalizing pieces content l with
  | nil => exact ⟨pieces, h⟩
  | cons tag tags ih =>
    obtain ⟨pieces', hnext⟩ := h.removeBlock tag
    exact ih hnext

theorem filter_render_chars (h : pieces.filterMap Piece.ledger? = []) :
    (marks.render (tokensOf pieces)).filter (!newline ·) = pieces.filterMap Piece.user? := by
  induction pieces with
  | nil => rfl
  | cons piece pieces ih =>
    cases piece with
    | block b =>
      rw [List.filterMap_cons] at h
      cases h
    | char c =>
      rw [List.filterMap_cons] at h
      rw [tokensOf_cons, Marks.render_append, List.filter_append, ih h, List.filterMap_cons]
      have htext : marks.render (Piece.char c).tokens = [c] := rfl
      rw [htext, Piece.user?]
      cases hc : newline c with
      | true => simp [hc]
      | false => simp [hc]

theorem bare_eq (h : Reads pieces content l) : bare content = l.user := by
  obtain ⟨pieces', hreads⟩ := reads_foldl_removeBlock h registry
  have hnone : pieces'.filterMap Piece.ledger? = [] := by
    rw [hreads.blocks]
    refine List.eq_nil_iff_forall_not_mem.mpr fun entry hentry => ?_
    exact ((Ledger.mem_foldl_without registry).mp hentry).2 (mem_registry entry.1)
  rw [bare, hreads.text, filter_render_chars hnone, hreads.user,
    Ledger.user_foldl_without]

theorem toList_injectAll (policy : Tag → String) (file : Option String) :
    (injectAll policy file).toList = injectInto policy (textOf file) := String.toList_ofList

theorem reads_injections {file : Option String} (h : Reads pieces (textOf file) l)
    (policies : List (Tag → String)) : ∃ pieces' l', Reads pieces' (textOf (injections policies file))
      l' ∧ l'.user = l.user := by
  induction policies generalizing file pieces l with
  | nil => exact ⟨pieces, l, h, rfl⟩
  | cons policy policies ih =>
    obtain ⟨next, hnext⟩ := reads_injectInto h policy
    have htext : textOf (some (injectAll policy file)) = injectInto policy (textOf file) :=
      toList_injectAll policy file
    rw [← htext] at hnext
    obtain ⟨last, l', hlast, huser⟩ := ih hnext
    exact ⟨last, l', hlast, huser.trans (Ledger.user_injected policy)⟩

theorem Reads.settled {policy : Tag → String} {before : List Char}
    (h : Reads pieces content l) (huser : bare content = bare before)
    (hblocks : ∀ entry, entry ∈ l.blocks ↔ isAlways policy entry.1 = true ∧ entry.2 = true) :
    Settled policy before content := by
  refine ⟨⟨pieces, l, h⟩, huser, fun tag => ?_, fun tag => ?_⟩
  · rw [Bool.eq_iff_iff, h.contains_reference, hblocks]
    exact and_iff_left rfl
  · rw [Bool.eq_iff_iff, h.contains_opening, List.mem_map]
    constructor
    · rintro ⟨entry, hentry, rfl⟩
      exact ((hblocks entry).mp hentry).1
    · exact fun halways => ⟨(tag, true), (hblocks (tag, true)).mpr ⟨halways, rfl⟩, rfl⟩

end Runs

/-- What a run of the injector leaves, however it came to it. -/
theorem injections_settle (file : Option String) (h : Tidy (textOf file))
    (policies : List (Tag → String)) (policy : Tag → String) :
    ∃ after, injections (policies ++ [policy]) file = some after ∧
      Settled policy (textOf file) after.toList ∧ injectAll policy (some after) = after := by
  obtain ⟨pieces, l, hfile⟩ := h
  obtain ⟨others, l', hreads, huser⟩ := reads_injections hfile policies
  obtain ⟨last, hlast⟩ := reads_injectInto hreads policy
  rw [← toList_injectAll] at hlast
  refine ⟨injectAll policy (injections policies file), ?_, ?_, ?_⟩
  · rw [injections, List.foldl_append]
    rfl
  · refine hlast.settled ?_ fun entry => Ledger.mem_injected
    rw [bare_eq hlast, bare_eq hfile, Ledger.user_injected, huser]
  · have hfixed := injectInto_fixed hlast fun entry => Ledger.mem_injected
    refine String.toList_inj.mp ?_
    rw [toList_injectAll]
    exact hfixed

section Example

/-- A file with a stale block. -/
def staleFile : String := "# A\n\n<logic_tree>\n\nold.md\n\n</logic_tree>\n\nB\n"

def staleBlock : Block where
  tag := .logicTree
  inner := "\n\nold.md\n\n".toList.map .char
  only := by simp

def stalePieces : List Piece :=
  "# A\n\n".toList.map .char ++ .block staleBlock :: "\n\nB\n".toList.map .char

theorem staleFile_tidy : Tidy (textOf (some staleFile)) := by
  refine ⟨stalePieces, ⟨[(.logicTree, false)], "# AB".toList, by decide⟩, ?_, ?_, ?_, ?_⟩
  · decide +kernel
  · have hall : (tokensOf stalePieces).all marks.unled = true := by decide +kernel
    exact firm_of_unled fun token htoken => List.all_eq_true.mp hall token htoken
  · decide +kernel
  · decide +kernel

theorem staleFile_settles : Tidy (textOf (some staleFile)) ∧
    ∃ after, injections ([fun _ => "NEVER"] ++ [fun _ => "ALWAYS"]) (some staleFile) = some after ∧
      Settled (fun _ => "ALWAYS") (textOf (some staleFile)) after.toList ∧
        injectAll (fun _ => "ALWAYS") (some after) = after :=
  ⟨staleFile_tidy, injections_settle (some staleFile) staleFile_tidy [fun _ => "NEVER"]
    fun _ => "ALWAYS"⟩

end Example

end RemyCC.Injection
