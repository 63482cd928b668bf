import RemyCC.Text
import RemyCC.Discovery.Fnmatch

/-!
# Exclusion patterns

A pattern that ends in a slash is for directories. The walk asks about one entry
at a time and does not descend below an excluded one; the path test reads the
whole of a stored path.
-/

namespace RemyCC.Discovery

open Text

structure ScanConfig where
  exclusions : List String

section Matching

variable (normcase : String → String)

def matchesExclusion (candidate pattern : String) : Bool :=
  fnmatch normcase candidate pattern ||
    (stripPrefix "**/" pattern).any (fnmatch normcase candidate)

def mustBeDir (pattern : String) : Bool := endsWith pattern "/"

def cleanPattern (pattern : String) : String := trimEnd '/' pattern

/-- `StructScanner._is_excluded`, for an entry of the walk. -/
def ScanConfig.isExcluded (config : ScanConfig) (relPath : String) (isDir : Bool) : Bool :=
  if relPath = "." then false
  else
    let basename := lastPart '/' relPath
    config.exclusions.any fun pattern =>
      if mustBeDir pattern && !isDir then false
      else
        matchesExclusion normcase basename (cleanPattern pattern) ||
          matchesExclusion normcase relPath (cleanPattern pattern)

/-- `StructScanner._is_path_excluded`, for a stored path. -/
def ScanConfig.isPathExcluded (config : ScanConfig) (relPath : String) : Bool :=
  let relPath := replaceChar '\\' '/' relPath
  let parts := split '/' relPath
  let basename := parts.getLastD ""
  config.exclusions.any fun pattern =>
    if mustBeDir pattern then
      (List.range (parts.length - 1)).any fun i =>
        let segment := parts.getD i ""
        let cumulative := joinWith "/" (parts.take (i + 1))
        matchesExclusion normcase segment (cleanPattern pattern) ||
          matchesExclusion normcase cumulative (cleanPattern pattern)
    else
      matchesExclusion normcase basename (cleanPattern pattern) ||
        matchesExclusion normcase relPath (cleanPattern pattern)

end Matching

section Paths

/-- The directories above the path with these names. -/
def ancestors (parts : List String) : List (List String) :=
  (List.range (parts.length - 1)).map fun i => parts.take (i + 1)

/-- The names of a path after backslashes are read as separators. -/
def slashed (parts : List String) : List String :=
  split '/' (replaceChar '\\' '/' (joinWith "/" parts))

theorem mem_ancestors {parts a : List String} :
    a ∈ ancestors parts ↔ ∃ rest, a ≠ [] ∧ rest ≠ [] ∧ parts = a ++ rest := by
  unfold ancestors
  rw [List.mem_map]
  constructor
  · rintro ⟨i, hi, rfl⟩
    rw [List.mem_range] at hi
    refine ⟨parts.drop (i + 1), ?_, ?_, (List.take_append_drop _ _).symm⟩
    · rw [ne_eq, List.take_eq_nil_iff, not_or]
      exact ⟨Nat.succ_ne_zero i, fun h => by simp [h] at hi⟩
    · rw [ne_eq, List.drop_eq_nil_iff]
      omega
  · rintro ⟨rest, ha, hrest, rfl⟩
    have hlength := List.length_pos_iff.mpr ha
    have hrest := List.length_pos_iff.mpr hrest
    refine ⟨a.length - 1, ?_, ?_⟩
    · rw [List.mem_range, List.length_append]
      omega
    · rw [Nat.sub_add_cancel hlength, List.take_left']
      rfl

theorem slashed_of_backslashless {parts : List String} (hne : parts ≠ [])
    (hslash : ∀ part ∈ parts, '/' ∉ part.toList) (hback : ∀ part ∈ parts, '\\' ∉ part.toList) :
    slashed parts = parts := by
  unfold slashed
  rw [replaceChar_of_not_mem]
  · exact split_joinWith '/' hne hslash
  · intro h
    obtain ⟨part, hpart, hc⟩ := mem_joinWith '/' (by decide) h
    exact hback part hpart hc

theorem joinWith_ne_dot {parts : List String} (hne : parts ≠ [])
    (hslash : ∀ part ∈ parts, '/' ∉ part.toList) (hdot : ∀ part ∈ parts, part ≠ ".") :
    joinWith "/" parts ≠ "." := by
  intro h
  have hparts : split '/' "." = parts := h ▸ split_joinWith '/' hne hslash
  refine hdot "." ?_ rfl
  rw [← hparts]
  decide

theorem lastPart_joinWith {parts : List String} (hne : parts ≠ [])
    (hslash : ∀ part ∈ parts, '/' ∉ part.toList) :
    lastPart '/' (joinWith "/" parts) = parts.getLastD "" := by
  unfold lastPart
  rw [show split '/' (joinWith "/" parts) = parts from split_joinWith '/' hne hslash,
    List.getLast?_eq_some_getLast hne, List.getLastD_eq_getLast?, List.getLast?_eq_some_getLast hne]
  rfl

end Paths

section Rules

variable (normcase : String → String) (config : ScanConfig)

/-- The pattern matches the last of these names or the whole path. -/
def hits (pattern : String) (parts : List String) : Bool :=
  matchesExclusion normcase (parts.getLastD "") (cleanPattern pattern) ||
    matchesExclusion normcase (joinWith "/" parts) (cleanPattern pattern)

/-- A directory pattern matches a directory above the path, or another pattern
matches the path itself. -/
def RuledOut (parts : List String) : Prop :=
  ∃ pattern ∈ config.exclusions,
    if mustBeDir pattern then ∃ a ∈ ancestors parts, hits normcase pattern a
    else hits normcase pattern parts

/-- A pattern that is not for directories matches one above the path. -/
def BareAncestor (parts : List String) : Prop :=
  ∃ pattern ∈ config.exclusions, mustBeDir pattern = false ∧
    ∃ a ∈ ancestors parts, hits normcase pattern a

variable {normcase config}

theorem isExcluded_iff {parts : List String} {isDir : Bool} (hne : parts ≠ [])
    (hslash : ∀ part ∈ parts, '/' ∉ part.toList) (hdot : ∀ part ∈ parts, part ≠ ".") :
    config.isExcluded normcase (joinWith "/" parts) isDir ↔
      ∃ pattern ∈ config.exclusions, (mustBeDir pattern → isDir) ∧
        hits normcase pattern parts := by
  unfold ScanConfig.isExcluded
  rw [if_neg (joinWith_ne_dot hne hslash hdot), List.any_eq_true]
  refine exists_congr fun pattern => and_congr_right fun _ => ?_
  rw [lastPart_joinWith hne hslash]
  cases mustBeDir pattern <;> cases isDir <;> simp [hits]

theorem getLastD_take {parts : List String} {i : Nat} (hi : i < parts.length) :
    (parts.take (i + 1)).getLastD "" = parts.getD i "" := by
  rw [List.getLastD_eq_getLast?, List.getLast?_eq_getElem?, List.length_take, Nat.min_eq_left hi,
    Nat.succ_sub_one, List.getElem?_take_of_lt (Nat.lt_succ_self i), List.getD_eq_getElem?_getD]

theorem isPathExcluded_iff {parts : List String} :
    config.isPathExcluded normcase (joinWith "/" parts) ↔
      RuledOut normcase config (slashed parts) := by
  unfold ScanConfig.isPathExcluded RuledOut
  rw [List.any_eq_true]
  refine exists_congr fun pattern => and_congr_right fun _ => ?_
  have hjoin : joinWith "/" (slashed parts) =
      replaceChar '\\' '/' (joinWith "/" parts) := joinWith_split '/' _
  by_cases hdir : mustBeDir pattern
  · rw [if_pos hdir, if_pos hdir, List.any_eq_true]
    unfold ancestors
    simp only [List.mem_map, exists_exists_and_eq_and]
    refine exists_congr fun i => and_congr_right fun hi => ?_
    have hi : i < (slashed parts).length := by
      have := List.mem_range.mp hi
      unfold slashed
      omega
    rw [hits, getLastD_take hi]
    rfl
  · rw [if_neg hdir, if_neg hdir, hits, hjoin]
    rfl

end Rules

end RemyCC.Discovery
