import RemyCC.Text

/-!
# The permission gate

A request is decided by the place its path leads to once every link is
followed. The rules for plans come first, then what lies outside of the
project's `.claude`, then its entries, of which some are denied.
-/

namespace RemyCC.Hook.Permission

open Text (split joinWith replaceChar startsWith endsWith asciiLower)

section Places

def EntryName (name : String) : Prop :=
  name ≠ "" ∧ '/' ∉ name.toList ∧ name ≠ "." ∧ name ≠ ".."

instance : DecidablePred EntryName := fun _ => inferInstanceAs (Decidable (_ ∧ _))

abbrev Entry := { name : String // EntryName name }

/-- An absolute path without links, from the root on. -/
abbrev Place := List Entry

def placeText (place : Place) : String := "/" ++ joinWith "/" (place.map Subtype.val)

/-- `str.lower`, as far as the gate goes by it. -/
structure Lowering where
  lower : String → String
  ascii : ∀ s : String, (∀ c ∈ s.toList, c.toNat < 128) → lower s = asciiLower s
  backslash : ∀ front rest, lower (front ++ "\\" ++ rest) = lower front ++ "\\" ++ lower rest

/-- What the gate asks of the system. -/
structure Surroundings extends Lowering where
  /-- `os.path.realpath`. -/
  realpath : String → Place
  realpath_placeText : ∀ path, realpath (placeText (realpath path)) = realpath path
  /-- `os.path.expanduser("~")`. -/
  home : String
  /-- `tempfile.gettempdir()`. -/
  temp : String

end Places

inductive Outcome where
  | allow
  | skip (reason : String)
  deriving DecidableEq, Repr

section Rules

def allowedTools : List String := ["Edit", "Write", "Read", "Grep", "Glob"]

def searchTools : List String := ["Grep", "Glob"]

def readOnlyTools : List String := "Read" :: searchTools

def editTools : List String := ["Edit", "Write"]

def dotClaude : Entry := ⟨".claude", by decide⟩

def plansName : Entry := ⟨"plans", by decide⟩

def suiteReadonlyDirs : List Entry :=
  [⟨"skills", by decide⟩, ⟨"output-styles", by decide⟩, ⟨"hooks", by decide⟩]

def allowedDirPrefixes : List String := ["temp_"]

def allowedDirs : List String := ["history"]

def allowedRootFilePrefixes : List String :=
  ["project_tree", "logic_tree", "logic_index", "tree_config"]

def deniedPrefixes : List String := ["settings", "remy-config"]

def memoryDirName : String := "memory"

/-- `os.path.join`. -/
def joinPath (front rest : String) : String :=
  if startsWith rest "/" then rest
  else if front = "" ∨ endsWith front "/" then front ++ rest
  else front ++ "/" ++ rest

def contains (root target : Place) : Bool := root.isPrefixOf target

/-- `os.path.relpath` of a target that the root contains. -/
def relpath (root target : Place) : String :=
  if target.drop root.length = [] then "."
  else joinWith "/" ((target.drop root.length).map Subtype.val)

def relParts (rel : String) : List String := split '/' (replaceChar '\\' '/' rel)

variable (w : Surroundings) (cwd tool : String) (target : Place)

def projectsRoot : Place := w.realpath (joinPath (joinPath w.home ".claude") "projects")

def tempRoot : Place := w.realpath w.temp

def claudeHome : Place := w.realpath (joinPath w.home ".claude")

def claudeDir : Place := w.realpath (joinPath cwd ".claude")

def memoryParts (allowDir : Bool) : List String → Bool
  | _ :: second :: rest => w.lower second == memoryDirName && (!rest.isEmpty || allowDir)
  | _ => false

def decideMemory (allowDir : Bool) : Bool :=
  contains (projectsRoot w) target &&
    memoryParts w allowDir (relParts (relpath (projectsRoot w) target))

def decideTemp : Bool := contains (tempRoot w) target

def plansRoots : List Place :=
  [w.realpath w.home ++ [dotClaude, plansName], w.realpath cwd ++ [plansName]]

def decidePlans : Bool :=
  editTools.contains tool && endsWith (w.lower (placeText target)) ".md" &&
    (plansRoots w cwd).any fun root =>
      w.realpath (placeText target) != root && contains root (w.realpath (placeText target))

def decideSuite (readOnly : Bool) : Bool :=
  readOnly && suiteReadonlyDirs.any fun sub => contains (claudeHome w ++ [sub]) target

/-- The rules for what lies outside of the project's `.claude`. -/
def decideOutside : Outcome :=
  if decideMemory w target (searchTools.contains tool) then .allow
  else if decideTemp w target then .allow
  else if decideSuite w target (readOnlyTools.contains tool) then .allow
  else .skip "outside"

/-- The rules for the entries of the project's `.claude`. -/
def decideInside : Outcome :=
  let rel := relpath (claudeDir w cwd) target
  if rel = "." then .skip "root"
  else
    let head := w.lower ((relParts rel).headD "")
    if deniedPrefixes.any (startsWith head) then .skip "denied"
    else if allowedDirPrefixes.any (startsWith head) then .allow
    else if allowedDirs.contains head then .allow
    else if !(replaceChar '\\' '/' rel).toList.contains '/' &&
      allowedRootFilePrefixes.any (startsWith head) then .allow
    else .skip "unlisted"

def requestTarget (filePath : String) : Place :=
  w.realpath (if startsWith filePath "/" then filePath else joinPath cwd filePath)

def decide (filePath : String) : Outcome :=
  if !allowedTools.contains tool then .skip "tool"
  else if filePath = "" ∨ cwd = "" then .skip "no_path"
  else
    let target := requestTarget w cwd filePath
    if decidePlans w cwd tool target then .allow
    else if !contains (claudeDir w cwd) target then decideOutside w tool target
    else decideInside w cwd target

end Rules

section Places

variable {root target : Place} {name : Entry} {rest : List Entry}

theorem contains_iff : contains root target = true ↔ root <+: target := List.isPrefixOf_iff_prefix

theorem relpath_append (root : Place) (rest : List Entry) (h : rest ≠ []) :
    relpath root (root ++ rest) = joinWith "/" (rest.map Subtype.val) := by
  rw [relpath, List.drop_left, if_neg h]

theorem relpath_self (root : Place) : relpath root root = "." := by
  rw [relpath, List.drop_length, if_pos rfl]

theorem toList_joinWith_cons (name : Entry) (rest : List Entry) :
    ∃ more, (joinWith "/" ((name :: rest).map Subtype.val)).toList = name.val.toList ++ more ∧
      (more = [] ∨ ∃ others, more = '/' :: others) := by
  have hslash : "/".toList = ['/'] := by decide
  cases rest with
  | nil => exact ⟨[], by simp [joinWith], .inl rfl⟩
  | cons next rest =>
    refine ⟨'/' :: List.intercalate ['/'] (((next :: rest).map Subtype.val).map String.toList), ?_,
      .inr ⟨_, rfl⟩⟩
    rw [joinWith, String.toList_ofList, hslash, List.map_cons, List.map_cons, List.map_cons,
      List.map_cons, List.intercalate_cons_cons, List.append_assoc]
    rfl

theorem slash_mem (name next : Entry) (rest : List Entry) :
    '/' ∈ (joinWith "/" ((name :: next :: rest).map Subtype.val)).toList := by
  have hslash : "/".toList = ['/'] := by decide
  rw [joinWith, String.toList_ofList, hslash, List.map_cons, List.map_cons, List.map_cons,
    List.map_cons, List.intercalate_cons_cons, List.append_assoc]
  exact List.mem_append_right _ (List.mem_append_left _ List.mem_cons_self)

/-- What a relative path starts with ends at the first separator of either kind. -/
theorem head_relParts (name : Entry) (rest : List Entry) :
    (relParts (joinWith "/" ((name :: rest).map Subtype.val))).headD "" =
      Text.firstPart '\\' name.val := by
  obtain ⟨more, hchars, hmore⟩ := toList_joinWith_cons name rest
  have hname : ∀ cs : List Char, '/' ∉ cs →
      (cs.map (fun c => if c = '\\' then '/' else c) ++
        more.map (fun c => if c = '\\' then '/' else c)).takeWhile (fun c => c ≠ '/') =
        cs.takeWhile (fun c => c ≠ '\\') := by
    intro cs hcs
    induction cs with
    | nil =>
      rcases hmore with rfl | ⟨others, rfl⟩
      · rfl
      · simp
    | cons c cs ih =>
      rw [List.mem_cons, not_or] at hcs
      by_cases hc : c = '\\'
      · simp [hc]
      · simpa [hc, Ne.symm hcs.1] using ih hcs.2
  have hhead := Text.splitChar_head '/'
    ((joinWith "/" ((name :: rest).map Subtype.val)).toList.map
      fun c => if c = '\\' then '/' else c)
  rw [hchars, List.map_append] at hhead
  simp only [hname name.val.toList name.property.2.1] at hhead
  rw [relParts, split, replaceChar, String.toList_ofList, hchars, List.map_append,
    List.headD_eq_head?_getD, List.head?_map, hhead]
  rfl

end Places

section Specification

variable (w : Surroundings) (cwd tool : String) (target : Place)

/-- The first name under a root is one that is never to be approved. -/
def Denied (root target : Place) : Prop :=
  ∃ name rest, target = root ++ name :: rest ∧
    deniedPrefixes.any (startsWith (w.lower name.val)) = true

def InArtifacts : Prop :=
  ∃ name rest, target = claudeDir w cwd ++ name :: rest ∧
    (allowedDirPrefixes.any (startsWith (w.lower name.val)) = true ∨
      w.lower name.val ∈ allowedDirs ∨
      rest = [] ∧ allowedRootFilePrefixes.any (startsWith (w.lower name.val)) = true)

def InMemory : Prop :=
  ∃ slug dir rest, target = projectsRoot w ++ slug :: dir :: rest ∧ rest ≠ [] ∧
    w.lower dir.val = memoryDirName

def PlanFile : Prop :=
  endsWith (w.lower (placeText target)) ".md" = true ∧
    ∃ root ∈ plansRoots w cwd, target ≠ root ∧ root <+: target

/-- Where a file may be written without a question. -/
def Listed : Prop :=
  InArtifacts w cwd target ∨ InMemory w target ∨ tempRoot w <+: target ∨ PlanFile w cwd target

/-- What is allowed holds no settings, and may be written only where it is listed. -/
def Sound (filePath : String) : Prop :=
  decide w cwd tool filePath = .allow →
    ¬Denied w (claudeDir w cwd) (requestTarget w cwd filePath) ∧
      ¬Denied w (claudeHome w) (requestTarget w cwd filePath) ∧
      (tool ∈ editTools → Listed w cwd (requestTarget w cwd filePath))

/-- A name with a backslash, which the rules take for two. -/
def Backslashed : Prop := ∃ name ∈ target, '\\' ∈ name.val.toList

/-- A rule for memories or temporary files applies outside of the project's `.claude`. -/
def ByOutside : Prop :=
  contains (claudeDir w cwd) target = false ∧
    (decideMemory w target (searchTools.contains tool) = true ∨ decideTemp w target = true)

def ByInside : Prop :=
  contains (claudeDir w cwd) target = true ∧ decideInside w cwd target = .allow

/-- A rule applies to what it should leave alone: to a denied name that is below
the root of another rule, or to a name that is taken apart. -/
def Exposed (filePath : String) : Prop :=
  tool ∈ allowedTools ∧ filePath ≠ "" ∧ cwd ≠ "" ∧
    let target := requestTarget w cwd filePath
    (decidePlans w cwd tool target = true ∧
        (Denied w (claudeDir w cwd) target ∨ Denied w (claudeHome w) target) ∨
      (ByOutside w cwd tool target ∨ ByInside w cwd target) ∧ Denied w (claudeHome w) target ∨
      tool ∈ editTools ∧ Backslashed target ∧ ¬Listed w cwd target ∧
        (ByOutside w cwd tool target ∨ ByInside w cwd target))

end Specification

section Names

variable {w : Surroundings} {cwd tool : String} {target : Place} {name : Entry} {rest : List Entry}

theorem relParts_plain (hne : rest ≠ []) (h : ¬Backslashed rest) :
    relParts (joinWith "/" (rest.map Subtype.val)) = rest.map Subtype.val := by
  have hkept : '\\' ∉ (joinWith "/" (rest.map Subtype.val)).toList := by
    intro hmem
    obtain ⟨part, hpart, hc⟩ := Text.mem_joinWith '/' (by decide) hmem
    obtain ⟨name, hname, rfl⟩ := List.mem_map.mp hpart
    exact h ⟨name, hname, hc⟩
  rw [relParts, Text.replaceChar_of_not_mem hkept]
  refine Text.split_joinWith '/' (fun h => hne (List.map_eq_nil_iff.mp h)) fun part hpart => ?_
  obtain ⟨name, -, rfl⟩ := List.mem_map.mp hpart
  exact name.property.2.1

theorem takeWhile_ne_self {c : Char} {cs : List Char} (h : c ∉ cs) :
    cs.takeWhile (· ≠ c) = cs := by
  induction cs with
  | nil => rfl
  | cons d cs ih =>
    rw [List.mem_cons, not_or] at h
    rw [List.takeWhile_cons_of_pos (by simpa using Ne.symm h.1), ih h.2]

theorem takeWhile_ne_split {c : Char} {cs : List Char} (h : c ∈ cs) :
    ∃ others, cs = cs.takeWhile (· ≠ c) ++ c :: others := by
  induction cs with
  | nil => cases h
  | cons d cs ih =>
    by_cases hd : d = c
    · exact ⟨cs, by rw [List.takeWhile_cons_of_neg (by simpa using hd), hd]; rfl⟩
    · obtain ⟨others, hothers⟩ := ih ((List.mem_cons.mp h).resolve_left (Ne.symm hd))
      refine ⟨others, ?_⟩
      rw [List.takeWhile_cons_of_pos (by simpa using hd), List.cons_append, ← hothers]

theorem firstPart_plain (h : '\\' ∉ name.val.toList) : Text.firstPart '\\' name.val = name.val := by
  rw [Text.firstPart, takeWhile_ne_self h, String.ofList_toList]

/-- What stands before the first backslash, and behind it. -/
theorem firstPart_split (h : '\\' ∈ name.val.toList) :
    ∃ others, name.val = Text.firstPart '\\' name.val ++ "\\" ++ others := by
  obtain ⟨others, hsplit⟩ := takeWhile_ne_split h
  refine ⟨String.ofList others, String.toList_inj.mp ?_⟩
  rw [String.toList_append, String.toList_append, Text.firstPart, String.toList_ofList,
    String.toList_ofList, String.toList_ofList, List.append_assoc, List.singleton_append]
  exact hsplit

theorem startsWith_append_backslash {front others lead : String} (hlead : '\\' ∉ lead.toList)
    (h : startsWith (front ++ "\\" ++ others) lead = true) : startsWith front lead = true := by
  unfold startsWith at h ⊢
  rw [List.isPrefixOf_iff_prefix] at h ⊢
  have hback : "\\".toList = ['\\'] := by decide
  rw [String.toList_append, String.toList_append, hback] at h
  rcases List.prefix_or_prefix_of_prefix h (List.prefix_append (front.toList ++ ['\\']) _) with
    hshort | hlong
  · rcases List.prefix_concat_iff.mp hshort with heq | hfront
    · exact absurd (heq ▸ List.mem_append_right _ List.mem_cons_self) hlead
    · exact hfront
  · exact absurd (hlong.mem (List.mem_append_right _ List.mem_cons_self)) hlead

theorem denied_firstPart (h : deniedPrefixes.any (startsWith (w.lower name.val)) = true) :
    deniedPrefixes.any (startsWith (w.lower (Text.firstPart '\\' name.val))) = true := by
  by_cases hback : '\\' ∈ name.val.toList
  · obtain ⟨others, hothers⟩ := firstPart_split hback
    rw [List.any_eq_true] at h ⊢
    obtain ⟨lead, hlead, hstarts⟩ := h
    have hplain : '\\' ∉ lead.toList := by
      have hall : ∀ lead ∈ deniedPrefixes, '\\' ∉ lead.toList := by decide
      exact hall lead hlead
    rw [hothers, w.backslash] at hstarts
    exact ⟨lead, hlead, startsWith_append_backslash hplain hstarts⟩
  · rwa [firstPart_plain hback]

end Names

section Soundness

variable {w : Surroundings} {cwd tool filePath : String} {target : Place}

theorem decideInside_allow (h : ByInside w cwd target) :
    ∃ name rest, target = claudeDir w cwd ++ name :: rest ∧
      deniedPrefixes.any (startsWith (w.lower (Text.firstPart '\\' name.val))) = false ∧
      (allowedDirPrefixes.any (startsWith (w.lower (Text.firstPart '\\' name.val))) = true ∨
        w.lower (Text.firstPart '\\' name.val) ∈ allowedDirs ∨
        '/' ∉ (replaceChar '\\' '/' (joinWith "/" ((name :: rest).map Subtype.val))).toList ∧
          allowedRootFilePrefixes.any
            (startsWith (w.lower (Text.firstPart '\\' name.val))) = true) := by
  obtain ⟨hcontains, hallow⟩ := h
  obtain ⟨below, rfl⟩ := contains_iff.mp hcontains
  cases below with
  | nil =>
    rw [List.append_nil, decideInside, relpath_self, if_pos rfl] at hallow
    cases hallow
  | cons name rest =>
    refine ⟨name, rest, rfl, ?_⟩
    rw [decideInside, relpath_append _ _ (List.cons_ne_nil _ _)] at hallow
    simp only [head_relParts] at hallow
    split at hallow
    · cases hallow
    · split at hallow
      · cases hallow
      · rename_i hdenied
        refine ⟨Bool.eq_false_iff.mpr hdenied, ?_⟩
        split at hallow
        · rename_i hprefix
          exact .inl hprefix
        · split at hallow
          · rename_i hdir
            exact .inr (.inl (List.contains_iff_mem.mp hdir))
          · split at hallow
            · rename_i hroot
              rw [Bool.and_eq_true, Bool.not_eq_true'] at hroot
              refine .inr (.inr ⟨fun hmem => ?_, hroot.2⟩)
              rw [List.contains_iff_mem.mpr hmem] at hroot
              cases hroot.1
            · cases hallow

/-- The rules for the entries of `.claude` deny what is to be denied there. -/
theorem ByInside.not_denied (h : ByInside w cwd target) : ¬Denied w (claudeDir w cwd) target := by
  obtain ⟨name, rest, heq, hdenied, -⟩ := decideInside_allow h
  rintro ⟨name', rest', heq', hname'⟩
  rw [heq, List.append_cancel_left_eq, List.cons.injEq] at heq'
  obtain ⟨rfl, -⟩ := heq'
  rw [denied_firstPart hname'] at hdenied
  cases hdenied

theorem ByInside.listed (h : ByInside w cwd target) (hplain : ¬Backslashed target) :
    InArtifacts w cwd target := by
  obtain ⟨name, rest, rfl, -, hallow⟩ := decideInside_allow h
  have hback : ∀ e ∈ name :: rest, '\\' ∉ e.val.toList := fun e he hc =>
    hplain ⟨e, List.mem_append_right _ he, hc⟩
  rw [firstPart_plain (hback name List.mem_cons_self)] at hallow
  refine ⟨name, rest, rfl, hallow.imp_right (.imp_right fun ⟨hslash, hroot⟩ => ⟨?_, hroot⟩)⟩
  cases rest with
  | nil => rfl
  | cons next rest =>
    refine absurd ?_ hslash
    rw [replaceChar, String.toList_ofList]
    exact List.mem_map.mpr ⟨'/', slash_mem name next rest, by decide⟩

theorem decideMemory_listed (h : decideMemory w target false = true)
    (hplain : ¬Backslashed target) : InMemory w target := by
  rw [decideMemory, Bool.and_eq_true] at h
  obtain ⟨hcontains, hparts⟩ := h
  obtain ⟨below, rfl⟩ := contains_iff.mp hcontains
  cases below with
  | nil =>
    rw [List.append_nil, relpath_self] at hparts
    have hdot : relParts "." = ["."] := by decide
    rw [hdot] at hparts
    cases hparts
  | cons slug below =>
    have hback : ¬Backslashed (slug :: below) := fun ⟨e, he, hc⟩ =>
      hplain ⟨e, List.mem_append_right _ he, hc⟩
    rw [relpath_append _ _ (List.cons_ne_nil _ _), relParts_plain (List.cons_ne_nil _ _) hback]
      at hparts
    cases below with
    | nil => cases hparts
    | cons dir rest =>
      rw [List.map_cons, List.map_cons, memoryParts, Bool.and_eq_true, Bool.or_false,
        beq_iff_eq] at hparts
      refine ⟨slug, dir, rest, rfl, ?_, hparts.1⟩
      rintro rfl
      cases hparts.2

theorem decidePlans_planFile (h : decidePlans w cwd tool target = true)
    (hresolved : w.realpath (placeText target) = target) :
    tool ∈ editTools ∧ PlanFile w cwd target := by
  rw [decidePlans, hresolved, Bool.and_eq_true, Bool.and_eq_true, List.any_eq_true] at h
  obtain ⟨⟨htool, hmarkdown⟩, root, hroot, hbelow⟩ := h
  rw [Bool.and_eq_true, bne_iff_ne, contains_iff] at hbelow
  exact ⟨List.contains_iff_mem.mp htool, hmarkdown, root, hroot, hbelow⟩

theorem suite_not_denied {sub : Entry} (hsub : sub ∈ suiteReadonlyDirs) :
    deniedPrefixes.any (startsWith (w.lower sub.val)) = false := by
  have hascii : ∀ sub ∈ suiteReadonlyDirs, (sub.val.toList.all fun c => c.toNat < 128) = true := by
    decide
  have hfree : ∀ sub ∈ suiteReadonlyDirs,
      deniedPrefixes.any (startsWith (asciiLower sub.val)) = false := by decide
  rw [w.ascii sub.val fun c hc => of_decide_eq_true (List.all_eq_true.mp (hascii sub hsub) c hc)]
  exact hfree sub hsub

theorem decideSuite_not_denied (h : decideSuite w target true = true) :
    ¬Denied w (claudeHome w) target := by
  rintro ⟨name, rest, rfl, hdenied⟩
  rw [decideSuite, Bool.true_and, List.any_eq_true] at h
  obtain ⟨sub, hsub, hcontains⟩ := h
  rw [contains_iff, List.prefix_append_right_inj, List.cons_prefix_cons] at hcontains
  obtain ⟨rfl, -⟩ := hcontains
  rw [suite_not_denied hsub] at hdenied
  cases hdenied

theorem ByOutside.listed (h : ByOutside w cwd tool target) (htool : tool ∈ editTools)
    (hplain : ¬Backslashed target) : Listed w cwd target := by
  have hsearch : ∀ tool ∈ editTools, searchTools.contains tool = false := by decide
  rcases h.2 with hmemory | htemp
  · rw [hsearch tool htool] at hmemory
    exact .inr (.inl (decideMemory_listed hmemory hplain))
  · exact .inr (.inr (.inl (contains_iff.mp htemp)))

theorem not_denied_of_outside (h : contains (claudeDir w cwd) target = false) :
    ¬Denied w (claudeDir w cwd) target := by
  rintro ⟨name, rest, rfl, -⟩
  rw [contains_iff.mpr (List.prefix_append _ _)] at h
  cases h

theorem decideOutside_allow_iff : decideOutside w tool target = .allow ↔
    (decideMemory w target (searchTools.contains tool) = true ∨ decideTemp w target = true) ∨
      decideSuite w target (readOnlyTools.contains tool) = true := by
  unfold decideOutside
  cases decideMemory w target (searchTools.contains tool) <;> cases decideTemp w target <;>
    cases decideSuite w target (readOnlyTools.contains tool) <;> simp

/-- What a request is allowed by. -/
theorem decide_allow_iff : decide w cwd tool filePath = .allow ↔
    tool ∈ allowedTools ∧ filePath ≠ "" ∧ cwd ≠ "" ∧
      let target := requestTarget w cwd filePath
      (decidePlans w cwd tool target = true ∨ ByInside w cwd target ∨
        ByOutside w cwd tool target ∨ contains (claudeDir w cwd) target = false ∧
          decideSuite w target (readOnlyTools.contains tool) = true) := by
  rw [decide, ← List.contains_iff_mem]
  cases allowedTools.contains tool with
  | false => simp
  | true =>
    rw [if_neg (by simp)]
    by_cases hpath : filePath = "" ∨ cwd = ""
    · rw [if_pos hpath]
      refine iff_of_false (fun h => by cases h) ?_
      rintro ⟨-, hfile, hcwd, -⟩
      exact hpath.elim hfile hcwd
    · rw [if_neg hpath]
      obtain ⟨hfile, hcwd⟩ := not_or.mp hpath
      simp only [true_and, ne_eq, hfile, hcwd, not_false_eq_true]
      cases hplans : decidePlans w cwd tool (requestTarget w cwd filePath) with
      | true => simp
      | false =>
        unfold ByInside ByOutside
        cases hcontains : contains (claudeDir w cwd) (requestTarget w cwd filePath) with
        | true => simp
        | false => simp [decideOutside_allow_iff]

theorem requestTarget_resolved :
    w.realpath (placeText (requestTarget w cwd filePath)) = requestTarget w cwd filePath :=
  w.realpath_placeText _

end Soundness

section Example

def addPart (place : Place) (part : String) : Place :=
  if part = ".." then place.dropLast
  else if h : EntryName part then place ++ [⟨part, h⟩] else place

/-- `os.path.realpath` where there are no links. -/
def normalized (path : String) : Place := (split '/' path).foldl addPart []

theorem foldl_addPart (place names : Place) :
    (names.map Subtype.val).foldl addPart place = place ++ names := by
  induction names generalizing place with
  | nil => simp
  | cons name names ih =>
    have hname : addPart place name.val = place ++ [name] := by
      rw [addPart, if_neg name.property.2.2.2, dif_pos name.property]
    rw [List.map_cons, List.foldl_cons, hname, ih, List.append_assoc, List.singleton_append]

theorem normalized_placeText (place : Place) : normalized (placeText place) = place := by
  cases place with
  | nil => decide
  | cons name rest =>
    have hsplit : split '/' (placeText (name :: rest)) =
        "" :: (name :: rest).map Subtype.val := by
      have hnames : split '/' (joinWith "/" ((name :: rest).map Subtype.val)) =
          (name :: rest).map Subtype.val :=
        Text.split_joinWith '/' (by simp) fun part hpart => by
          obtain ⟨e, -, rfl⟩ := List.mem_map.mp hpart
          exact e.property.2.1
      have hslash : "/".toList = ['/'] := by decide
      rw [← hnames, placeText, split, split, String.toList_append, hslash, List.singleton_append,
        Text.splitChar, if_pos rfl, List.map_cons]
    rw [normalized, hsplit, List.foldl_cons, foldl_addPart]
    rfl

def asciiLowering : Lowering where
  lower := asciiLower
  ascii _ _ := rfl
  backslash front rest := by
    have hback : asciiLower "\\" = "\\" := by decide
    unfold asciiLower at hback ⊢
    rw [String.toList_append, String.toList_append, List.map_append, List.map_append,
      String.ofList_append, String.ofList_append, hback]

def linkless (home temp : String) : Surroundings :=
  { asciiLowering with
    realpath := normalized
    realpath_placeText := fun _ => normalized_placeText _
    home := home
    temp := temp }

end Example

end RemyCC.Hook.Permission
