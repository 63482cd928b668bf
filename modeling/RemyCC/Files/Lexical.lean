import RemyCC.Text

/-!
# Paths read lexically

A path is a text. Its parts lie between the separators; read one after the
other from a place, they lead to a place, whatever is on the disk.
-/

namespace RemyCC.Files

open Text

inductive Component where
  | rootDir
  | curDir
  | parentDir
  | normal (name : List Char)
  deriving DecidableEq, Repr

namespace Component

def text : Component → List Char
  | rootDir => ['/']
  | curDir => ['.']
  | parentDir => ['.', '.']
  | normal name => name

def ofPart? (part : List Char) : Option Component :=
  if part = [] ∨ part = ['.'] then none
  else if part = ['.', '.'] then some parentDir
  else some (normal part)

end Component

def partsOf (path : List Char) : List (List Char) := splitChar '/' path

def isAbsolute (path : List Char) : Bool := path.head? = some '/'

/-- `Path::components`: a dot counts only as the first part of a relative path. -/
def components (path : List Char) : List Component :=
  if isAbsolute path then .rootDir :: (partsOf path).filterMap Component.ofPart?
  else if (partsOf path).head? = some ['.'] then
    .curDir :: (partsOf path).filterMap Component.ofPart?
  else (partsOf path).filterMap Component.ofPart?

/-- `PathBuf::push`. -/
def push (path tail : List Char) : List Char :=
  if isAbsolute tail then tail
  else if path = [] ∨ path.getLast? = some '/' then path ++ tail
  else path ++ '/' :: tail

section Reading

/-- Where a part leads, from a place given by the names on the way from the root. -/
def go (place : List (List Char)) (part : List Char) : List (List Char) :=
  if part = [] ∨ part = ['.'] then place
  else if part = ['.', '.'] then place.dropLast
  else place ++ [part]

/-- The place that a path denotes for those who stand at `place`. -/
def reach (place : List (List Char)) (path : List Char) : List (List Char) :=
  (partsOf path).foldl go (if isAbsolute path then [] else place)

/-- The same, by components. -/
def follow (place : List (List Char)) : Component → List (List Char)
  | .rootDir => []
  | .curDir => place
  | .parentDir => place.dropLast
  | .normal name => place ++ [name]

theorem foldl_go (parts : List (List Char)) (place : List (List Char)) :
    parts.foldl go place = (parts.filterMap Component.ofPart?).foldl follow place := by
  induction parts generalizing place with
  | nil => rfl
  | cons part parts ih =>
    rw [List.foldl_cons, ih]
    unfold go
    by_cases hhere : part = [] ∨ part = ['.']
    · have hnone : Component.ofPart? part = none := if_pos hhere
      rw [if_pos hhere, List.filterMap_cons_none hnone]
    · by_cases hup : part = ['.', '.']
      · have hsome : Component.ofPart? part = some .parentDir := by
          rw [Component.ofPart?, if_neg hhere, if_pos hup]
        rw [if_neg hhere, if_pos hup, List.filterMap_cons_some hsome]
        rfl
      · have hsome : Component.ofPart? part = some (.normal part) := by
          rw [Component.ofPart?, if_neg hhere, if_neg hup]
        rw [if_neg hhere, if_neg hup, List.filterMap_cons_some hsome]
        rfl

theorem reach_eq (place : List (List Char)) (path : List Char) :
    reach place path = (components path).foldl follow place := by
  unfold reach components
  rw [foldl_go]
  split
  · rfl
  · split <;> rfl

theorem reach_absolute {path : List Char} (h : isAbsolute path = true)
    (place place' : List (List Char)) : reach place path = reach place' path := by
  unfold reach
  rw [if_pos h, if_pos h]

theorem foldl_follow_up (count : Nat) (place : List (List Char)) :
    (List.replicate count Component.parentDir).foldl follow place =
      place.take (place.length - count) := by
  induction count generalizing place with
  | zero => rw [Nat.sub_zero, List.take_length]; rfl
  | succ count ih =>
    rw [List.replicate_succ, List.foldl_cons, ih]
    change place.dropLast.take (place.dropLast.length - count) = _
    rw [List.dropLast_eq_take, List.take_take, List.length_take]
    congr 1
    omega

theorem foldl_follow_names (names : List (List Char)) (place : List (List Char)) :
    (names.map Component.normal).foldl follow place = place ++ names := by
  induction names generalizing place with
  | nil => rw [List.append_nil]; rfl
  | cons name names ih =>
    rw [List.map_cons, List.foldl_cons, ih]
    change place ++ [name] ++ names = _
    rw [List.append_assoc, List.singleton_append]

end Reading

section Join

theorem partsOf_append (path tail : List Char) :
    partsOf (path ++ '/' :: tail) = partsOf path ++ partsOf tail := by
  unfold partsOf
  induction path with
  | nil => rfl
  | cons c path ih =>
    rw [List.cons_append, splitChar, splitChar, ih]
    cases hsplit : splitChar '/' path with
    | nil => exact absurd hsplit (splitChar_ne_nil _ _)
    | cons word words =>
      split <;> rfl

theorem partsOf_nil : partsOf [] = [[]] := rfl

theorem slashless_of_mem {path part : List Char} (h : part ∈ partsOf path) : '/' ∉ part := by
  unfold partsOf at h
  induction path generalizing part with
  | nil =>
    rw [List.mem_singleton.mp h]
    exact List.not_mem_nil
  | cons c path ih =>
    rw [splitChar] at h
    cases hsplit : splitChar '/' path with
    | nil => exact absurd hsplit (splitChar_ne_nil _ _)
    | cons word words =>
      rw [hsplit] at h ih
      split at h
      · rcases List.mem_cons.mp h with rfl | h
        · exact List.not_mem_nil
        · exact ih h
      · next hc =>
        rcases List.mem_cons.mp h with rfl | h
        · exact List.not_mem_cons_of_ne_of_not_mem (Ne.symm hc) (ih List.mem_cons_self)
        · exact ih (List.mem_cons_of_mem _ h)

theorem isAbsolute_append {path : List Char} (hne : path ≠ []) (tail : List Char) :
    isAbsolute (path ++ tail) = isAbsolute path := by
  cases path with
  | nil => exact absurd rfl hne
  | cons c path => rfl

/-- A relative path behind another one leads on from where that one leads. -/
theorem reach_push (place : List (List Char)) (path : List Char) {tail : List Char}
    (h : isAbsolute tail = false) :
    reach place (push path tail) = reach (reach place path) tail := by
  have hhere : ∀ place, go place [] = place := fun place => if_pos (Or.inl rfl)
  have htail : ∀ place, reach place tail = (partsOf tail).foldl go place := by
    intro place
    rw [reach, h, if_neg Bool.false_ne_true]
  unfold push
  rw [h, if_neg Bool.false_ne_true, htail]
  split
  · next hends =>
    rcases hends with hnil | hlast
    · subst hnil
      rw [List.nil_append, htail, reach, partsOf_nil, List.foldl_cons, hhere]
      rfl
    · obtain ⟨front, hfront⟩ := List.getLast?_eq_some_iff.mp hlast
      have hne : path ≠ [] := by
        rw [hfront]
        exact List.append_ne_nil_of_right_ne_nil _ (List.cons_ne_nil _ _)
      unfold reach
      rw [isAbsolute_append hne, hfront, List.append_assoc, List.singleton_append,
        partsOf_append, partsOf_append, partsOf_nil, List.foldl_append, List.foldl_append,
        List.foldl_cons, hhere]
      rfl
  · next hends =>
    have hne : path ≠ [] := fun hnil => hends (Or.inl hnil)
    unfold reach
    rw [isAbsolute_append hne, partsOf_append, List.foldl_append]

end Join

section Spelling

/-- A name between separators that is not read as anything else. -/
structure Proper (name : List Char) : Prop where
  ne_nil : name ≠ []
  ne_dot : name ≠ ['.']
  ne_dots : name ≠ ['.', '.']
  slashless : '/' ∉ name

def rootText (absolute : Bool) : List Char := if absolute then ['/'] else []

def spellParts (absolute : Bool) (parts : List (List Char)) : List Char :=
  rootText absolute ++ List.intercalate ['/'] parts

def steps (ups : Nat) (names : List (List Char)) : List (List Char) :=
  List.replicate ups ['.', '.'] ++ names

theorem ofPart?_proper {name : List Char} (h : Proper name) :
    Component.ofPart? name = some (.normal name) := by
  rw [Component.ofPart?, if_neg (fun hhere => hhere.elim h.ne_nil h.ne_dot), if_neg h.ne_dots]

theorem filterMap_steps (ups : Nat) {names : List (List Char)} (h : ∀ name ∈ names, Proper name) :
    (steps ups names).filterMap Component.ofPart? =
      List.replicate ups Component.parentDir ++ names.map Component.normal := by
  have hnames : names.filterMap Component.ofPart? = names.map Component.normal := by
    induction names with
    | nil => rfl
    | cons name names ih =>
      rw [List.filterMap_cons_some (ofPart?_proper (h name List.mem_cons_self)), List.map_cons,
        ih fun n hn => h n (List.mem_cons_of_mem _ hn)]
  have hups : (List.replicate ups ['.', '.']).filterMap Component.ofPart? =
      List.replicate ups Component.parentDir := by
    induction ups with
    | zero => rfl
    | succ ups ih =>
      rw [List.replicate_succ, List.replicate_succ, ← ih]
      rfl
  rw [steps, List.filterMap_append, hnames, hups]

theorem slashless_steps {ups : Nat} {names : List (List Char)} (h : ∀ name ∈ names, Proper name) :
    ∀ part ∈ steps ups names, part ≠ [] ∧ part ≠ ['.'] ∧ '/' ∉ part := by
  intro part hpart
  rcases List.mem_append.mp hpart with hups | hname
  · rw [List.eq_of_mem_replicate hups]
    decide
  · exact ⟨(h part hname).ne_nil, (h part hname).ne_dot, (h part hname).slashless⟩

theorem intercalate_eq (part : List Char) (parts : List (List Char)) :
    List.intercalate ['/'] (part :: parts) = part ++ parts.flatMap ('/' :: ·) := by
  induction parts generalizing part with
  | nil => rw [List.intercalate_singleton]; exact (List.append_nil part).symm
  | cons next parts ih =>
    rw [List.intercalate_cons_cons, ih, List.flatMap_cons, List.append_assoc]
    rfl

theorem relative_of_slashless {part : List Char} (h : '/' ∉ part) : isAbsolute part = false := by
  cases part with
  | nil => rfl
  | cons c part =>
    have hc : c ≠ '/' := fun hc => h (hc ▸ List.mem_cons_self)
    simpa [isAbsolute] using hc

theorem isAbsolute_intercalate {parts : List (List Char)}
    (h : ∀ part ∈ parts, part ≠ [] ∧ part ≠ ['.'] ∧ '/' ∉ part) :
    isAbsolute (List.intercalate ['/'] parts) = false := by
  cases parts with
  | nil => rfl
  | cons part parts =>
    obtain ⟨hne, -, hslash⟩ := h part List.mem_cons_self
    rw [intercalate_eq, isAbsolute_append hne, relative_of_slashless hslash]

/-- What is spelled is read back. -/
theorem components_spell (absolute : Bool) (ups : Nat) {names : List (List Char)}
    (h : ∀ name ∈ names, Proper name) :
    components (spellParts absolute (steps ups names)) =
      (if absolute then [.rootDir] else []) ++
        (List.replicate ups Component.parentDir ++ names.map Component.normal) := by
  have hparts : ∀ part ∈ steps ups names, part ≠ [] ∧ part ≠ ['.'] ∧ '/' ∉ part :=
    slashless_steps h
  have hread : (partsOf (List.intercalate ['/'] (steps ups names))).filterMap Component.ofPart? =
      (steps ups names).filterMap Component.ofPart? := by
    by_cases hnil : steps ups names = []
    · rw [hnil]
      rfl
    · rw [partsOf, splitChar_intercalate hnil fun part hpart => (hparts part hpart).2.2]
  cases absolute with
  | true =>
    have habs : isAbsolute (spellParts true (steps ups names)) = true := rfl
    have hsplit : partsOf (spellParts true (steps ups names)) =
        [] :: partsOf (List.intercalate ['/'] (steps ups names)) :=
      partsOf_append [] (List.intercalate ['/'] (steps ups names))
    have hempty : Component.ofPart? [] = none := rfl
    rw [components, habs, if_pos rfl, hsplit, List.filterMap_cons_none hempty, hread,
      filterMap_steps ups h]
    rfl
  | false =>
    have habs : isAbsolute (spellParts false (steps ups names)) = false := isAbsolute_intercalate hparts
    have hspell : spellParts false (steps ups names) =
        List.intercalate ['/'] (steps ups names) := rfl
    have hdot : (partsOf (List.intercalate ['/'] (steps ups names))).head? ≠ some ['.'] := by
      intro hhead
      by_cases hnil : steps ups names = []
      · rw [hnil] at hhead
        cases hhead
      · rw [partsOf, splitChar_intercalate hnil fun part hpart => (hparts part hpart).2.2] at hhead
        exact (hparts ['.'] (List.mem_of_head? hhead)).2.1 rfl
    rw [components, habs, if_neg Bool.false_ne_true, hspell, if_neg hdot, hread,
      filterMap_steps ups h]
    rfl

theorem foldl_push_open {parts : List (List Char)} {out : List Char}
    (hne : out ≠ []) (hopen : out.getLast? ≠ some '/')
    (h : ∀ part ∈ parts, part ≠ [] ∧ part ≠ ['.'] ∧ '/' ∉ part) :
    parts.foldl push out = out ++ parts.flatMap ('/' :: ·) := by
  induction parts generalizing out with
  | nil => exact (List.append_nil out).symm
  | cons part parts ih =>
    obtain ⟨hpart, -, hslash⟩ := h part List.mem_cons_self
    have hpush : push out part = out ++ '/' :: part := by
      rw [push, relative_of_slashless hslash, if_neg Bool.false_ne_true,
        if_neg fun hends => hends.elim hne hopen]
    have hlast : (out ++ '/' :: part).getLast? ≠ some '/' := by
      rw [List.getLast?_append, List.getLast?_cons, List.getLast?_eq_some_getLast hpart]
      intro hlast
      exact hslash (Option.some.inj hlast ▸ List.getLast_mem hpart)
    rw [List.foldl_cons, hpush, ih (List.append_ne_nil_of_right_ne_nil _ (List.cons_ne_nil _ _))
      hlast fun q hq => h q (List.mem_cons_of_mem _ hq), List.flatMap_cons, List.append_assoc]

/-- Parts pushed one after the other are spelled with one separator between them. -/
theorem foldl_push {parts : List (List Char)} (absolute : Bool)
    (h : ∀ part ∈ parts, part ≠ [] ∧ part ≠ ['.'] ∧ '/' ∉ part) :
    parts.foldl push (rootText absolute) = spellParts absolute parts := by
  cases parts with
  | nil => exact (List.append_nil _).symm
  | cons part parts =>
    obtain ⟨hpart, -, hslash⟩ := h part List.mem_cons_self
    have hroot : rootText absolute = [] ∨ (rootText absolute).getLast? = some '/' := by
      cases absolute with
      | true => exact Or.inr rfl
      | false => exact Or.inl rfl
    have hpush : push (rootText absolute) part = rootText absolute ++ part := by
      rw [push, relative_of_slashless hslash, if_neg Bool.false_ne_true, if_pos hroot]
    have hlast : (rootText absolute ++ part).getLast? ≠ some '/' := by
      rw [List.getLast?_append, List.getLast?_eq_some_getLast hpart]
      intro hlast
      exact hslash (Option.some.inj hlast ▸ List.getLast_mem hpart)
    rw [List.foldl_cons, hpush, foldl_push_open (List.append_ne_nil_of_right_ne_nil _ hpart) hlast
      fun q hq => h q (List.mem_cons_of_mem _ hq), spellParts, intercalate_eq, List.append_assoc]

end Spelling

end RemyCC.Files
