import RemyCC.Hook.SourcePaths

/-!
# Hook paths and job paths

The text that a hook submits names the place its input denotes exactly if every
name below the root is text without a backslash and no link was taken for a
missing name. The same place then always has the same text.
-/

namespace RemyCC.Hook

open Files Text

/-- A name that is text without a backslash. -/
def Plain (name : FileName) : Prop := ∀ piece ∈ name.val, ∃ c, piece = .char c ∧ c ≠ '\\'

/-- The place that an input is resolved to has no link on its way, and below the
root only plain names. -/
def Clean (disk : Disk) (root : List (PathPart FileName)) (input : String) : Prop :=
  ∀ resolved front,
    canonicalizeAllowMissing disk (candidate root input) (trailing input) = some resolved →
    disk.resolve root = some front →
      LinkFree disk.node resolved ∧ ∀ name ∈ resolved.drop front.length, Plain name

/-- What an input denotes. -/
def inputDenotes (disk : Disk) (root : List (PathPart FileName)) (input : String) :
    Option (List FileName) :=
  disk.denotes (candidate root input ++ trailing input)

/-- A job path and the input it was made from: the job accepts the path as it is,
the path does not leave the root, and joined to the canonical root it is the
canonical path of the input and denotes what the input does. -/
structure Agrees (disk : Disk) (root : List (PathPart FileName)) (input p : String) : Prop where
  accepted : State.normalizeSourcePath p = .ok p
  within : .parent ∉ parts p
  canonical : ∃ resolved front,
    canonicalizeAllowMissing disk (candidate root input) (trailing input) = some resolved ∧
      disk.resolve root = some front ∧
      resolved.map Subtype.val = front.map Subtype.val ++ (splitChar '/' p.toList).map pieces ∧
      inputDenotes disk root input = some resolved ∧
      disk.denotes (front.map .name ++ parts p) = some resolved

section Canonical

variable {disk : Disk}

theorem trailing_here {input : String} : ∀ part ∈ trailing input, part = .here := by
  unfold trailing
  split <;> simp

theorem normalizeLexically_names (names result : List FileName) :
    normalizeLexically (names.map .name) result = some (result ++ names) := by
  induction names generalizing result with
  | nil => simp [normalizeLexically]
  | cons n names ih => simp [normalizeLexically, ih]

/-- The ancestor that is there, and the names below it down to the missing ones. -/
theorem ancestor_spec {cursor : List (PathPart FileName)} {missing found : List FileName}
    {place : List FileName} (h : ancestor disk cursor missing = some (place, found)) :
    ∃ path names, cursor.reverse = path ++ names.map .name ∧ found = names ++ missing ∧
      disk.resolve path = some place := by
  induction cursor generalizing missing with
  | nil =>
    cases hplace : disk.resolve (List.reverse []) with
    | none =>
      rw [ancestor.eq_def] at h
      simp only [hplace] at h
      cases h
    | some place' =>
      simp only [ancestor.eq_def, hplace, Option.some.injEq, Prod.mk.injEq] at h
      obtain ⟨rfl, rfl⟩ := h
      exact ⟨_, [], by simp, rfl, hplace⟩
  | cons part rest ih =>
    cases hplace : disk.resolve (List.reverse (part :: rest)) with
    | some place' =>
      simp only [ancestor.eq_def, hplace, Option.some.injEq, Prod.mk.injEq] at h
      obtain ⟨rfl, rfl⟩ := h
      exact ⟨_, [], by simp, rfl, hplace⟩
    | none =>
      rw [ancestor.eq_def] at h
      simp only [hplace] at h
      cases part with
      | here => cases h
      | parent => cases h
      | name n =>
        obtain ⟨path, names, hpath, rfl, hplace⟩ := ih h
        exact ⟨path, names ++ [n], by simp [hpath], by simp, hplace⟩

/-- A canonical path is a place that is there with names behind it. -/
theorem canonicalizeAllowMissing_spec {path trail : List (PathPart FileName)}
    {resolved : List FileName} (htrail : ∀ part ∈ trail, part = .here)
    (h : canonicalizeAllowMissing disk path trail = some resolved) :
    ∃ there place names tail, path ++ trail = there ++ (names.map .name ++ tail) ∧
      (∀ part ∈ tail, part = .here) ∧ disk.resolve there = some place ∧
      resolved = place ++ names := by
  rw [canonicalizeAllowMissing] at h
  split at h
  · rename_i hplace
    exact ⟨path ++ trail, _, [], [], by simp, by simp, hplace, by simpa using h.symm⟩
  · split at h
    · rename_i hreverse
      obtain ⟨⟨place, found⟩, hancestor, hnames⟩ := Option.bind_eq_some_iff.mp h
      obtain ⟨there, names, hthere, rfl, hplace⟩ := ancestor_spec hancestor
      rw [normalizeLexically_names, List.nil_append] at hnames
      refine ⟨there, place, names ++ [_], trail, ?_, htrail, hplace, (Option.some.inj hnames).symm⟩
      rw [← List.reverse_reverse path, hreverse, List.reverse_cons, hthere]
      simp
    · cases h

/-- An input denotes its canonical path, unless a link was taken for a missing name. -/
theorem inputDenotes_of_linkFree {root : List (PathPart FileName)} {input : String}
    {resolved : List FileName} (hfree : LinkFree disk.node resolved)
    (h : canonicalizeAllowMissing disk (candidate root input) (trailing input) = some resolved) :
    inputDenotes disk root input = some resolved := by
  obtain ⟨there, place, names, tail, hpath, htail, hplace, rfl⟩ :=
    canonicalizeAllowMissing_spec trailing_here h
  rw [inputDenotes, hpath]
  exact Links.denotes_of_resolve htail hfree hplace

end Canonical

section Texts

/-- The characters of a name that is text. -/
def textOf (name : FileName) : List Char := name.val.map decoded

theorem Plain.pieces_textOf {name : FileName} (h : Plain name) :
    pieces (textOf name) = name.val := by
  rw [pieces, textOf, List.map_map]
  refine (List.map_congr_left fun piece hpiece => ?_).trans (List.map_id _)
  obtain ⟨c, rfl, -⟩ := h piece hpiece
  rfl

theorem Plain.not_mem_backslash {name : FileName} (h : Plain name) : '\\' ∉ textOf name := by
  intro hmem
  obtain ⟨piece, hpiece, heq⟩ := List.mem_map.mp hmem
  obtain ⟨c, rfl, hc⟩ := h piece hpiece
  exact hc heq

/-- What a proper name is as a text. -/
structure ProperText (text : List Char) : Prop where
  ne_nil : text ≠ []
  no_slash : '/' ∉ text
  ne_dot : text ≠ ['.']
  ne_dots : text ≠ ['.', '.']

theorem Plain.properText {name : FileName} (h : Plain name) : ProperText (textOf name) := by
  have hpieces := h.pieces_textOf
  obtain ⟨hne, hslash, hdot, hdots⟩ := name.property
  rw [← hpieces] at hne hslash hdot hdots
  exact { ne_nil := fun htext => hne (by rw [htext]; rfl)
          no_slash := fun hmem => hslash (List.mem_map.mpr ⟨_, hmem, rfl⟩)
          ne_dot := fun htext => hdot (by rw [htext])
          ne_dots := fun htext => hdots (by rw [htext]) }

theorem Plain.part? {name : FileName} (h : Plain name) :
    part? (textOf name) = some (.name name) := by
  have hproper := h.properText
  have hpieces := h.pieces_textOf
  have hname : Proper (pieces (textOf name)) := by
    rw [hpieces]
    exact name.property
  rw [Hook.part?, if_neg (by simp [hproper.ne_nil, hproper.ne_dot]), if_neg hproper.ne_dots,
    dif_pos hname]
  exact congrArg (fun n => some (PathPart.name n)) (Subtype.ext hpieces)

variable {relative : List FileName}

/-- The text of plain names. -/
def textPath (relative : List FileName) : String :=
  joinWith "/" (relative.map fun name => String.ofList (textOf name))

theorem splitChar_textPath (hne : relative ≠ []) (h : ∀ name ∈ relative, Plain name) :
    splitChar '/' (textPath relative).toList = relative.map textOf := by
  rw [textPath, joinWith, String.toList_ofList, List.map_map]
  have htexts : relative.map (String.toList ∘ fun name => String.ofList (textOf name)) =
      relative.map textOf := List.map_congr_left fun name _ => String.toList_ofList
  rw [htexts]
  refine splitChar_intercalate (by simpa using hne) fun text htext => ?_
  obtain ⟨name, hname, rfl⟩ := List.mem_map.mp htext
  exact (h name hname).properText.no_slash

theorem mem_textPath {c : Char} (hc : c ≠ '/') (h : c ∈ (textPath relative).toList) :
    ∃ name ∈ relative, c ∈ textOf name := by
  obtain ⟨text, htext, hmem⟩ := mem_joinWith '/' hc h
  obtain ⟨name, hname, rfl⟩ := List.mem_map.mp htext
  exact ⟨name, hname, by simpa using hmem⟩

theorem decoded_relativePieces (relative : List FileName) :
    toStringLossy (relativePieces relative) = textPath relative := by
  rw [toStringLossy, relativePieces, textPath, joinWith, List.map_map]
  congr 1
  induction relative with
  | nil => rfl
  | cons name relative ih =>
    cases relative with
    | nil => simp [textOf]
    | cons next relative =>
      simp only [List.map_cons, List.intercalate_cons_cons, List.map_append] at ih ⊢
      rw [ih]
      simp [textOf, decoded]

theorem submitted_eq_textPath (h : ∀ name ∈ relative, Plain name) :
    replaceChar '\\' '/' (toStringLossy (relativePieces relative)) = textPath relative := by
  rw [decoded_relativePieces]
  refine replaceChar_of_not_mem fun hmem => ?_
  obtain ⟨name, hname, hmem⟩ := mem_textPath (by decide) hmem
  exact (h name hname).not_mem_backslash hmem

theorem parts_textPath (hne : relative ≠ []) (h : ∀ name ∈ relative, Plain name) :
    parts (textPath relative) = relative.map .name := by
  rw [parts, splitChar_textPath hne h, List.filterMap_map]
  have hparts : relative.filterMap (Hook.part? ∘ textOf) =
      relative.filterMap fun name => some (.name name) :=
    List.filterMap_congr fun name hname => (h name hname).part?
  rw [hparts, ← List.filterMap_eq_map]
  rfl

/-- The extension of a name that is text. -/
theorem extensionOf_text {name : FileName} (h : Plain name) :
    (extensionOf name.val).map toStringLossy =
      State.extension? (String.ofList (textOf name)) := by
  have hpieces := h.pieces_textOf
  have hdot : (fun piece : Piece => decide (piece ≠ .char '.')) ∘ Piece.char =
      fun c => decide (c ≠ '.') := by
    funext c
    simp
  have htaken : ∀ text : List Char, toStringLossy (pieces text) = String.ofList text := by
    intro text
    rw [toStringLossy, pieces, List.map_map]
    congr 1
    exact List.map_id text
  rw [← hpieces, extensionOf, State.extension?, String.toList_ofList, pieces, ← List.map_reverse,
    List.dropWhile_map, List.takeWhile_map, hdot]
  generalize (textOf name).reverse = reversed
  cases hrest : reversed.dropWhile (fun c => decide (c ≠ '.')) with
  | nil => rfl
  | cons c rest =>
    cases rest with
    | nil => rfl
    | cons d rest =>
      rw [List.map_cons, List.map_cons, ← List.map_reverse]
      exact congrArg some (htaken _)

theorem components_textPath (hne : relative ≠ []) (h : ∀ name ∈ relative, Plain name) :
    State.components (textPath relative) =
      relative.map fun name => .normal (String.ofList (textOf name)) := by
  have hsplit : split '/' (textPath relative) =
      relative.map fun name => String.ofList (textOf name) := by
    rw [split, splitChar_textPath hne h, List.map_map]
    rfl
  have hnormal : ∀ name ∈ relative, State.component? (String.ofList (textOf name)) =
      some (.normal (String.ofList (textOf name))) := by
    intro name hname
    have hproper := (h name hname).properText
    have hne : ∀ text : String, text.toList ≠ textOf name → String.ofList (textOf name) ≠ text :=
      fun text hdiffers heq => hdiffers (by rw [← heq, String.toList_ofList])
    have hempty := hne "" fun heq => hproper.ne_nil heq.symm
    have hdot := hne "." fun heq => hproper.ne_dot heq.symm
    have hdots := hne ".." fun heq => hproper.ne_dots heq.symm
    rw [State.component?, if_neg (not_or_intro hempty hdot), if_neg hdots]
  have hparts : (relative.map fun name => String.ofList (textOf name)).filterMap
      State.component? = relative.map fun name => .normal (String.ofList (textOf name)) := by
    rw [List.filterMap_map, ← List.filterMap_eq_map]
    exact List.filterMap_congr hnormal
  rw [State.components, hsplit, ← hparts]
  split
  · rename_i rest heq
    cases relative with
    | nil => exact absurd rfl hne
    | cons name relative =>
      have hhead : String.ofList (textOf name) = "." := (List.cons.inj heq).1
      have hdot := (h name List.mem_cons_self).properText.ne_dot
      exact absurd (by rw [← @String.toList_ofList (textOf name), hhead]; rfl) hdot
  · rfl

theorem textPath_starts (hne : relative ≠ []) (h : ∀ name ∈ relative, Plain name) :
    ∃ c rest, (textPath relative).toList = c :: rest ∧ c ≠ '/' := by
  have hsplit := splitChar_textPath hne h
  have hno : [] ∉ relative.map textOf := by
    intro hmem
    obtain ⟨name, hname, htext⟩ := List.mem_map.mp hmem
    exact (h name hname).properText.ne_nil htext
  rw [← hsplit] at hno
  cases hchars : (textPath relative).toList with
  | nil =>
    rw [hchars] at hno
    exact absurd List.mem_cons_self hno
  | cons c rest =>
    refine ⟨c, rest, rfl, ?_⟩
    rintro rfl
    rw [hchars, splitChar, if_pos rfl] at hno
    exact hno List.mem_cons_self

theorem accepted_textPath (h : ∀ name ∈ relative, Plain name) {extension : List Piece}
    (hextension : relative.getLast?.bind (fun name => extensionOf name.val) = some extension)
    (hsource : asciiLower (toStringLossy extension) ∈ sourceExtensions) :
    State.normalizeSourcePath (textPath relative) = .ok (textPath relative) := by
  obtain ⟨last, hlast, hlastExtension⟩ := Option.bind_eq_some_iff.mp hextension
  have hmem := List.mem_of_getLast? hlast
  have hne : relative ≠ [] := List.ne_nil_of_mem hmem
  obtain ⟨c, rest, hchars, hslash⟩ := textPath_starts hne h
  have hrelative : ¬ (State.isAbsolute (textPath relative) = true ∨ textPath relative = "") := by
    rintro (habsolute | hempty)
    · rw [State.isAbsolute, startsWith, hchars] at habsolute
      have hfirst : '/' = c := by simpa [List.isPrefixOf] using habsolute
      exact hslash hfirst.symm
    · rw [hempty] at hchars
      cases hchars
  have hnames : (State.components (textPath relative)).mapM State.normalName? =
      some (relative.map fun name => String.ofList (textOf name)) := by
    rw [components_textPath hne h]
    clear hextension hlast hmem hne hchars hrelative
    induction relative with
    | nil => rfl
    | cons name relative ih =>
      have hih := ih fun n hn => h n (List.mem_cons_of_mem _ hn)
      rw [List.map_cons, List.mapM_cons, hih]
      rfl
  have hlastText : (relative.map fun name => String.ofList (textOf name)).getLast? =
      some (String.ofList (textOf last)) := by
    rw [List.getLast?_map, hlast]
    rfl
  have htext := extensionOf_text (h last hmem)
  rw [hlastExtension, Option.map_some] at htext
  have haccepted : ∃ ext ∈ ((relative.map fun name => String.ofList (textOf name)).getLast?.bind
      State.extension?).map asciiLower, ext ∈ State.sourceExtensions := by
    rw [hlastText, Option.bind_some, ← htext]
    exact ⟨_, rfl, hsource⟩
  rw [State.normalizeSourcePath, if_neg hrelative, hnames]
  exact if_pos haccepted

end Texts

section Submitted

variable {disk : Disk} {root : List (PathPart FileName)} {input p : String}

/-- What is known of an input that is submitted. -/
structure Submitted (disk : Disk) (root : List (PathPart FileName)) (input p : String)
    (resolved front relative : List FileName) (extension : List Piece) : Prop where
  canonical : canonicalizeAllowMissing disk (candidate root input) (trailing input) = some resolved
  found : disk.resolve root = some front
  below : resolved = front ++ relative
  ends : relative.getLast?.bind (fun name => extensionOf name.val) = some extension
  source : asciiLower (toStringLossy extension) ∈ sourceExtensions
  text : p = replaceChar '\\' '/' (toStringLossy (relativePieces relative))

theorem submitted_of_some (h : normalizeSourcePath disk root input = some p) :
    ∃ resolved front relative extension,
      Submitted disk root input p resolved front relative extension := by
  rw [normalizeSourcePath] at h
  split at h
  · cases h
  obtain ⟨resolved, hresolved, h⟩ := Option.bind_eq_some_iff.mp h
  obtain ⟨front, hfront, h⟩ := Option.bind_eq_some_iff.mp h
  split at h
  · cases h
  obtain ⟨relative, hrelative, h⟩ := Option.bind_eq_some_iff.mp h
  obtain ⟨extension, hextension, h⟩ := Option.bind_eq_some_iff.mp h
  split at h
  · rename_i hsource
    rw [stripPrefix] at hrelative
    split at hrelative
    · rename_i hprefix
      refine ⟨resolved, front, relative, extension, hresolved, hfront, ?_, hextension, hsource,
        (Option.some.inj h).symm⟩
      rw [← Option.some.inj hrelative]
      exact (List.prefix_append_drop hprefix)
    · cases hrelative
  · cases h

theorem Submitted.clean_iff {resolved front relative : List FileName} {extension : List Piece}
    (h : Submitted disk root input p resolved front relative extension) :
    Clean disk root input ↔ LinkFree disk.node resolved ∧ ∀ name ∈ relative, Plain name := by
  have hdrop : resolved.drop front.length = relative := by
    rw [h.below, List.drop_left]
  constructor
  · intro hclean
    rw [← hdrop]
    exact hclean resolved front h.canonical h.found
  · rintro hall resolved' front' hcanonical hfront
    cases Option.some.inj (hcanonical.symm.trans h.canonical)
    cases Option.some.inj (hfront.symm.trans h.found)
    rwa [hdrop]

theorem Submitted.relative_ne_nil {resolved front relative : List FileName}
    {extension : List Piece} (h : Submitted disk root input p resolved front relative extension) :
    relative ≠ [] := by
  rintro rfl
  have hextension := h.ends
  cases hextension

/-- The names that the text of a path splits into are text without a backslash. -/
theorem plain_of_pieces {relative : List FileName} {text : String}
    (h : relative.map Subtype.val =
      (splitChar '/' (replaceChar '\\' '/' text).toList).map pieces) :
    ∀ name ∈ relative, Plain name := by
  intro name hname piece hpiece
  have hmem : name.val ∈ relative.map Subtype.val := List.mem_map.mpr ⟨name, hname, rfl⟩
  rw [h] at hmem
  obtain ⟨part, hpart, heq⟩ := List.mem_map.mp hmem
  rw [← heq] at hpiece
  obtain ⟨c, hc, rfl⟩ := List.mem_map.mp hpiece
  refine ⟨c, rfl, ?_⟩
  rintro rfl
  have hwhole : '\\' ∈ (replaceChar '\\' '/' text).toList := by
    rw [← intercalate_splitChar '/' (replaceChar '\\' '/' text).toList]
    exact mem_intercalate_of_mem _ hpart hc
  simp only [replaceChar, String.toList_ofList, List.mem_map] at hwhole
  obtain ⟨d, -, hd⟩ := hwhole
  split at hd
  · exact absurd hd (by decide)
  · rename_i hne
    exact hne hd

theorem agrees_iff (h : normalizeSourcePath disk root input = some p) :
    Agrees disk root input p ↔ Clean disk root input := by
  obtain ⟨resolved, front, relative, extension, hsubmitted⟩ := submitted_of_some h
  rw [hsubmitted.clean_iff]
  constructor
  · intro hagrees
    obtain ⟨resolved', front', hcanonical, hfront, hnames, hdenotes, -⟩ := hagrees.canonical
    cases Option.some.inj (hcanonical.symm.trans hsubmitted.canonical)
    cases Option.some.inj (hfront.symm.trans hsubmitted.found)
    rw [hsubmitted.below, List.map_append, List.append_cancel_left_eq, hsubmitted.text] at hnames
    exact ⟨Links.denotes_linkFree hdenotes, plain_of_pieces hnames⟩
  · rintro ⟨hfree, hplain⟩
    have hne := hsubmitted.relative_ne_nil
    have htext : p = textPath relative := hsubmitted.text.trans (submitted_eq_textPath hplain)
    have hparts : parts p = relative.map .name := by rw [htext, parts_textPath hne hplain]
    refine ⟨?_, ?_, resolved, front, hsubmitted.canonical, hsubmitted.found, ?_,
      inputDenotes_of_linkFree hfree hsubmitted.canonical, ?_⟩
    · rw [htext]
      exact accepted_textPath hplain hsubmitted.ends hsubmitted.source
    · rw [hparts]
      simp
    · rw [hsubmitted.below, List.map_append, htext, splitChar_textPath hne hplain, List.map_map]
      congr 1
      exact List.map_congr_left fun name hname => (hplain name hname).pieces_textOf.symm
    · rw [hparts, ← List.map_append, ← hsubmitted.below]
      exact Links.denotes_names hfree

/-- Inputs that denote the same place are submitted under the same text. -/
theorem same_of_denotes {input' p' : String} (h : normalizeSourcePath disk root input = some p)
    (h' : normalizeSourcePath disk root input' = some p') (hclean : Clean disk root input)
    (hclean' : Clean disk root input')
    (hsame : inputDenotes disk root input = inputDenotes disk root input') : p = p' := by
  obtain ⟨resolved, front, hcanonical, hfront, hnames, hdenotes, -⟩ :=
    ((agrees_iff h).mpr hclean).canonical
  obtain ⟨resolved', front', hcanonical', hfront', hnames', hdenotes', -⟩ :=
    ((agrees_iff h').mpr hclean').canonical
  cases Option.some.inj (hfront.symm.trans hfront')
  rw [hdenotes, hdenotes'] at hsame
  cases Option.some.inj hsame
  rw [hnames, List.append_cancel_left_eq] at hnames'
  have hparts : splitChar '/' p.toList = splitChar '/' p'.toList :=
    List.map_injective_iff.mpr (List.map_injective_iff.mpr fun c d hcd => Piece.char.inj hcd) hnames'
  have hchars := congrArg (List.intercalate ['/']) hparts
  rw [intercalate_splitChar, intercalate_splitChar] at hchars
  exact String.toList_inj.mp hchars

/-- What a hook submits agrees with its input exactly for clean ones, and of these
the ones that denote the same place are submitted alike. -/
theorem sourcePaths_agree (disk : Disk) (root : List (PathPart FileName)) :
    (∀ input p, normalizeSourcePath disk root input = some p →
      (Agrees disk root input p ↔ Clean disk root input)) ∧
    ∀ input input' p p', normalizeSourcePath disk root input = some p →
      normalizeSourcePath disk root input' = some p' → Clean disk root input →
      Clean disk root input' → inputDenotes disk root input = inputDenotes disk root input' →
      p = p' :=
  ⟨fun _ _ => agrees_iff, fun _ _ _ _ => same_of_denotes⟩

def rootName : FileName := ⟨pieces ['r'], by decide⟩

/-- A root that holds one regular file. -/
def oneFile (name : FileName) : Disk where
  node := fun place =>
    if place = [rootName] then some .dir else if place = [rootName, name] then some .file else none
  limit := 40

def sourceName : FileName := ⟨pieces "a.py".toList, by decide⟩

def backslashName : FileName := ⟨pieces "..\\x.py".toList, by decide⟩

theorem plain_pieces {text : List Char} (h : Proper (pieces text)) (hback : '\\' ∉ text) :
    Plain ⟨pieces text, h⟩ := by
  intro piece hpiece
  obtain ⟨c, hc, rfl⟩ := List.mem_map.mp hpiece
  refine ⟨c, rfl, ?_⟩
  rintro rfl
  exact hback hc

theorem linkFree_oneFile (name : FileName) (place : List FileName) :
    LinkFree (oneFile name).node place := by
  intro front n _ absolute target
  unfold oneFile
  dsimp only
  split
  · exact fun h => by cases h
  split
  · exact fun h => by cases h
  · exact fun h => by cases h

theorem clean_oneFile {name : FileName} {root : List (PathPart FileName)} {input : String}
    (hresolved : canonicalizeAllowMissing (oneFile name) (candidate root input) (trailing input) =
      some [rootName, name]) (hroot : (oneFile name).resolve root = some [rootName])
    (hname : Plain name) : Clean (oneFile name) root input := by
  intro resolved front hcanonical hfront
  cases Option.some.inj (hcanonical.symm.trans hresolved)
  cases Option.some.inj (hfront.symm.trans hroot)
  refine ⟨linkFree_oneFile name _, ?_⟩
  simpa using hname

theorem sourcePaths_agree_dotted :
    Agrees (oneFile sourceName) [.name rootName] "./a.py" "a.py" ∧
      ∀ p, normalizeSourcePath (oneFile sourceName) [.name rootName] "/r/../r/a.py" = some p →
        p = "a.py" := by
  have hdotted : normalizeSourcePath (oneFile sourceName) [.name rootName] "./a.py" =
      some "a.py" := by decide +kernel
  have hname : Plain sourceName := plain_pieces _ (by decide)
  have hroot : (oneFile sourceName).resolve [.name rootName] = some [rootName] := by
    decide +kernel
  have hclean : Clean (oneFile sourceName) [.name rootName] "./a.py" :=
    clean_oneFile (by decide +kernel) hroot hname
  have hclean' : Clean (oneFile sourceName) [.name rootName] "/r/../r/a.py" :=
    clean_oneFile (by decide +kernel) hroot hname
  have hagree := sourcePaths_agree (oneFile sourceName) [.name rootName]
  exact ⟨(hagree.1 _ _ hdotted).mpr hclean, fun p hp =>
    hagree.2 _ _ _ _ hp hdotted hclean' hclean (by decide +kernel)⟩

/-- A file of the root whose name holds a backslash is submitted as one outside. -/
theorem backslash_submitted :
    normalizeSourcePath (oneFile backslashName) [.name rootName] "..\\x.py" = some "../x.py" ∧
      State.normalizeSourcePath "../x.py" ≠ .ok "../x.py" ∧ .parent ∈ parts "../x.py" ∧
      ¬ Agrees (oneFile backslashName) [.name rootName] "..\\x.py" "../x.py" := by
  have hrejected : State.normalizeSourcePath "../x.py" ≠ .ok "../x.py" := by decide +kernel
  exact ⟨by decide +kernel, hrejected, by decide +kernel, fun h => hrejected h.accepted⟩

end Submitted

end RemyCC.Hook
