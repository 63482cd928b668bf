import Mathlib.Data.List.Basic

/-! # Text operations by structural recursion on characters -/

namespace RemyCC.Text

def splitChar (sep : Char) : List Char → List (List Char)
  | [] => [[]]
  | c :: rest =>
    if c = sep then [] :: splitChar sep rest
    else match splitChar sep rest with
      | [] => [[c]]
      | word :: words => (c :: word) :: words

def split (sep : Char) (s : String) : List String :=
  (splitChar sep s.toList).map String.ofList

def joinWith (sep : String) (parts : List String) : String :=
  String.ofList (List.intercalate sep.toList (parts.map String.toList))

def startsWith (s lead : String) : Bool := lead.toList.isPrefixOf s.toList

def endsWith (s tail : String) : Bool := tail.toList.isSuffixOf s.toList

def asciiLower (s : String) : String := String.ofList (s.toList.map Char.toLower)

def replaceChar (old new : Char) (s : String) : String :=
  String.ofList (s.toList.map fun c => if c = old then new else c)

/-- `s.rsplit(sep).next()`: what follows the last separator. -/
def lastPart (sep : Char) (s : String) : String := ((split sep s).getLast?).getD s

/-- `s.split(sep).next()`: what stands before the first separator. -/
def firstPart (sep : Char) (s : String) : String := String.ofList (s.toList.takeWhile (· ≠ sep))

def stripPrefix (lead s : String) : Option String :=
  if startsWith s lead then some (String.ofList (s.toList.drop lead.length)) else none

/-- `s.trim_end_matches(c)`. -/
def trimEnd (c : Char) (s : String) : String :=
  String.ofList (s.toList.reverse.dropWhile (· = c)).reverse

/-- The characters before the first occurrence of `sep`. -/
def beforeChars (sep : List Char) : List Char → Option (List Char)
  | [] => if sep = [] then some [] else none
  | c :: rest =>
    if sep.isPrefixOf (c :: rest) then some []
    else (beforeChars sep rest).map (c :: ·)

/-- `s.split_once(sep)`, the part before the separator. -/
def beforeFirst (sep s : String) : Option String :=
  (beforeChars sep.toList s.toList).map String.ofList

/-- `s.split_once(sep)`, with the part after the separator. -/
def splitOnce (sep s : String) : Option (String × String) :=
  (beforeChars sep.toList s.toList).map fun before =>
    (String.ofList before, String.ofList (s.toList.drop (before.length + sep.length)))

def contains (s part : String) : Bool := (beforeChars part.toList s.toList).isSome

/-- What `replace` leaves, after as many characters as are still to be skipped. -/
def replaceChars (old new : List Char) : Nat → List Char → List Char
  | _, [] => []
  | skip + 1, _ :: rest => replaceChars old new skip rest
  | 0, c :: rest =>
    if old.isPrefixOf (c :: rest) then new ++ replaceChars old new (old.length - 1) rest
    else c :: replaceChars old new 0 rest

/-- `s.replace(old, new)`, for a text `old` that is not empty. -/
def replaceAll (old new s : String) : String :=
  String.ofList (replaceChars old.toList new.toList 0 s.toList)

/-- The characters with the property `White_Space`. -/
def isWhitespace (c : Char) : Bool :=
  let n := c.toNat
  (9 ≤ n && n ≤ 13) || n == 0x20 || n == 0x85 || n == 0xa0 || n == 0x1680 ||
    (0x2000 ≤ n && n ≤ 0x200a) || n == 0x2028 || n == 0x2029 || n == 0x202f || n == 0x205f ||
    n == 0x3000

def trim (s : String) : String :=
  String.ofList ((s.toList.dropWhile isWhitespace).reverse.dropWhile isWhitespace).reverse

example : replaceAll "aa" "b" "aaaca" = "baca" := by decide +kernel

theorem splitChar_ne_nil (sep : Char) (s : List Char) : splitChar sep s ≠ [] := by
  cases s with
  | nil => simp [splitChar]
  | cons c rest =>
    unfold splitChar
    split
    · simp
    · split <;> simp

/-- What stands before the first separator, if there is one. -/
theorem beforeChars_singleton (sep : Char) (s : List Char) :
    beforeChars [sep] s = if sep ∈ s then some (s.takeWhile (· ≠ sep)) else none := by
  induction s with
  | nil => rfl
  | cons c rest ih =>
    unfold beforeChars
    by_cases hc : sep = c
    · simp [hc]
    · have hpre : [sep].isPrefixOf (c :: rest) = false := by
        rw [List.isPrefixOf, beq_eq_false_iff_ne.mpr hc, Bool.false_and]
      rw [hpre, ih]
      by_cases hmem : sep ∈ rest <;> simp [hmem, hc, Ne.symm hc]

/-- No `::` before the one that separates a path from a name. -/
def Plain (path : String) : Prop := contains path "::" = false ∧ endsWith path ":" = false

instance : DecidablePred Plain := fun _ => inferInstanceAs (Decidable (_ ∧ _))

theorem beforeChars_colons {path : List Char} (hnone : beforeChars [':', ':'] path = none)
    (hlast : path.getLast? ≠ some ':') (rest : List Char) :
    beforeChars [':', ':'] (path ++ ':' :: ':' :: rest) = some path := by
  induction path with
  | nil => simp [beforeChars]
  | cons c path ih =>
    have hstart : [':', ':'].isPrefixOf (c :: path) = false := by
      rw [beforeChars] at hnone
      by_contra htrue
      rw [if_pos (Bool.not_eq_false _ ▸ htrue)] at hnone
      cases hnone
    have htail : beforeChars [':', ':'] path = none := by
      rw [beforeChars, hstart] at hnone
      simpa using hnone
    have hpre : [':', ':'].isPrefixOf (c :: (path ++ ':' :: ':' :: rest)) = false := by
      cases path with
      | nil =>
        have hc : (':' == c) = false := by
          refine beq_eq_false_iff_ne.mpr fun hc => hlast ?_
          rw [← hc]
          rfl
        rw [List.isPrefixOf_cons_cons, hc, Bool.false_and]
      | cons c' path =>
        rw [List.cons_append]
        simpa only [List.isPrefixOf_cons_cons, List.isPrefixOf_nil_left] using hstart
    have hlast' : path.getLast? ≠ some ':' := by
      cases path with
      | nil => nofun
      | cons c' path =>
        rw [List.getLast?_cons_cons] at hlast
        exact hlast
    rw [List.cons_append, beforeChars, hpre, ih htail hlast']
    rfl

theorem beforeFirst_plain {path : String} (h : Plain path) (name : String) :
    beforeFirst "::" (path ++ "::" ++ name) = some path := by
  obtain ⟨hcontains, hends⟩ := h
  have hnone : beforeChars [':', ':'] path.toList = none := by
    simpa [contains] using hcontains
  have hlast : path.toList.getLast? ≠ some ':' := by
    intro hlast
    obtain ⟨init, hinit⟩ := List.getLast?_eq_some_iff.mp hlast
    have hsuffix : [':'].isSuffixOf path.toList = true := by
      rw [hinit]
      exact List.isSuffixOf_iff_suffix.mpr ⟨init, rfl⟩
    have hcolon : ":".toList = [':'] := by decide
    rw [endsWith, hcolon, hsuffix] at hends
    cases hends
  have happend : (path ++ "::" ++ name).toList = path.toList ++ ':' :: ':' :: name.toList := by
    simp
  rw [beforeFirst, happend]
  have hcolons : "::".toList = [':', ':'] := by decide
  rw [hcolons, beforeChars_colons hnone hlast]
  simp

theorem splitChar_of_not_mem {sep : Char} {s : List Char} (h : sep ∉ s) :
    splitChar sep s = [s] := by
  induction s with
  | nil => rfl
  | cons c rest ih =>
    rw [List.mem_cons, not_or] at h
    rw [splitChar, if_neg (Ne.symm h.1), ih h.2]

theorem splitChar_append {sep : Char} {word rest : List Char} (h : sep ∉ word) :
    splitChar sep (word ++ sep :: rest) = word :: splitChar sep rest := by
  induction word with
  | nil => simp [splitChar]
  | cons c word ih =>
    rw [List.mem_cons, not_or] at h
    rw [List.cons_append, splitChar, if_neg (Ne.symm h.1), ih h.2]

theorem splitChar_intercalate {sep : Char} {words : List (List Char)} (hne : words ≠ [])
    (h : ∀ word ∈ words, sep ∉ word) : splitChar sep (List.intercalate [sep] words) = words := by
  induction words with
  | nil => exact absurd rfl hne
  | cons word words ih =>
    have hword := h word List.mem_cons_self
    cases words with
    | nil => rw [List.intercalate_singleton, splitChar_of_not_mem hword]
    | cons next words =>
      rw [List.intercalate_cons_cons, List.append_assoc, List.singleton_append,
        splitChar_append hword, ih (List.cons_ne_nil _ _)
          (fun w hw => h w (List.mem_cons_of_mem word hw))]

theorem split_joinWith (sep : Char) {parts : List String} (hne : parts ≠ [])
    (h : ∀ part ∈ parts, sep ∉ part.toList) :
    split sep (joinWith (String.singleton sep) parts) = parts := by
  unfold split joinWith
  rw [String.toList_ofList, String.toList_singleton, splitChar_intercalate]
  · rw [List.map_map]
    exact List.map_id'' (fun s => String.ofList_toList) parts
  · simpa using hne
  · simpa using h

theorem mem_intercalate {c : Char} {sep : List Char} {words : List (List Char)}
    (h : c ∈ List.intercalate sep words) : c ∈ sep ∨ ∃ word ∈ words, c ∈ word := by
  induction words with
  | nil => cases h
  | cons word words ih =>
    cases words with
    | nil =>
      rw [List.intercalate_singleton] at h
      exact .inr ⟨word, List.mem_cons_self, h⟩
    | cons next words =>
      rw [List.intercalate_cons_cons, List.mem_append, List.mem_append] at h
      rcases h with (h | h) | h
      · exact .inr ⟨word, List.mem_cons_self, h⟩
      · exact .inl h
      · exact (ih h).imp_right fun ⟨w, hw, hc⟩ => ⟨w, List.mem_cons_of_mem word hw, hc⟩

theorem mem_intercalate_of_mem {c : Char} {word : List Char} (sep : List Char)
    {words : List (List Char)} (hword : word ∈ words) (hc : c ∈ word) :
    c ∈ List.intercalate sep words := by
  induction words with
  | nil => cases hword
  | cons first words ih =>
    cases words with
    | nil =>
      rw [List.intercalate_singleton]
      exact List.mem_singleton.mp hword ▸ hc
    | cons next words =>
      rw [List.intercalate_cons_cons, List.mem_append, List.mem_append]
      rcases List.mem_cons.mp hword with rfl | hword
      · exact .inl (.inl hc)
      · exact .inr (ih hword)

theorem mem_joinWith {c : Char} (sep : Char) {parts : List String} (hc : c ≠ sep)
    (h : c ∈ (joinWith (String.singleton sep) parts).toList) : ∃ part ∈ parts, c ∈ part.toList := by
  unfold joinWith at h
  rw [String.toList_ofList, String.toList_singleton] at h
  rcases mem_intercalate h with h | ⟨word, hword, h⟩
  · exact absurd (List.mem_singleton.mp h) hc
  · obtain ⟨part, hpart, rfl⟩ := List.mem_map.mp hword
    exact ⟨part, hpart, h⟩

theorem replaceChar_of_not_mem {old new : Char} {s : String} (h : old ∉ s.toList) :
    replaceChar old new s = s := by
  have hkept : s.toList.map (fun c => if c = old then new else c) = s.toList.map id := by
    refine List.map_congr_left fun c hc => if_neg ?_
    rintro rfl
    exact h hc
  rw [replaceChar, hkept, List.map_id, String.ofList_toList]

theorem intercalate_splitChar (sep : Char) (s : List Char) :
    List.intercalate [sep] (splitChar sep s) = s := by
  induction s with
  | nil => rfl
  | cons c rest ih =>
    unfold splitChar
    cases hsplit : splitChar sep rest with
    | nil => exact absurd hsplit (splitChar_ne_nil sep rest)
    | cons word words =>
      rw [hsplit] at ih
      by_cases hc : c = sep
      · rw [if_pos hc, List.intercalate_cons_cons, ih, hc]
        rfl
      · rw [if_neg hc]
        cases words with
        | nil =>
          rw [List.intercalate_singleton] at ih ⊢
          rw [ih]
        | cons next words =>
          rw [List.intercalate_cons_cons] at ih ⊢
          rw [← ih]
          rfl

theorem getLast?_splitChar {sep : Char} {last : List Char} (h : sep ∉ last) (s : List Char) :
    (splitChar sep (s ++ sep :: last)).getLast? = some last := by
  induction s with
  | nil => rw [List.nil_append, splitChar, if_pos rfl, splitChar_of_not_mem h]; rfl
  | cons c s ih =>
    rw [List.cons_append, splitChar]
    cases hsplit : splitChar sep (s ++ sep :: last) with
    | nil => exact absurd hsplit (splitChar_ne_nil _ _)
    | cons word words =>
      rw [hsplit] at ih
      split
      · rw [List.getLast?_cons_cons, ih]
      · cases words with
        | nil =>
          have hparts := intercalate_splitChar sep (s ++ sep :: last)
          rw [hsplit, List.intercalate_singleton] at hparts
          have hword : word = last := Option.some.inj ih
          have hlength := congrArg List.length hparts
          rw [hword, List.length_append, List.length_cons] at hlength
          omega
        | cons word' words => rwa [List.getLast?_cons_cons] at ih ⊢

theorem joinWith_split (sep : Char) (s : String) :
    joinWith (String.singleton sep) (split sep s) = s := by
  have hwords : (split sep s).map String.toList = splitChar sep s.toList := by
    rw [split, List.map_map]
    exact List.map_id'' (fun _ => String.toList_ofList) _
  rw [joinWith, hwords, String.toList_singleton, intercalate_splitChar, String.ofList_toList]

theorem splitChar_head (sep : Char) (s : List Char) :
    (splitChar sep s).head? = some (s.takeWhile (· ≠ sep)) := by
  induction s with
  | nil => rfl
  | cons c rest ih =>
    unfold splitChar
    by_cases hc : c = sep
    · simp [hc]
    · rw [if_neg hc]
      cases hsplit : splitChar sep rest with
      | nil => exact absurd hsplit (splitChar_ne_nil sep rest)
      | cons word words =>
        rw [hsplit] at ih
        have hword : word = rest.takeWhile (· ≠ sep) := by simpa using ih
        simp [hc, hword]

end RemyCC.Text
