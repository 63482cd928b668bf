import Mathlib.Data.List.Infix

/-!
# Paths through symbolic links

A path is walked from the root. A strict walk is what the system resolves: each
name has to be there. A lenient one lets names be missing, and so tells what a
path would denote. The links that one walk may follow are counted.
-/

namespace RemyCC.Files

inductive PathPart (Name : Type) where
  | here
  | parent
  | name (n : Name)
  deriving DecidableEq, Repr

inductive Node (Name : Type) where
  | dir
  | file
  | link (absolute : Bool) (target : List (PathPart Name))
  deriving DecidableEq, Repr

/-- What stands at each place, and how many links a walk may follow. -/
structure Links (Name : Type) where
  node : List Name → Option (Node Name)
  limit : Nat

section Walk

variable {Name : Type} (node : List Name → Option (Node Name)) (strict : Bool)

def walkIn (follow : List Name → List (PathPart Name) → Option (List Name)) :
    List Name → List (PathPart Name) → Option (List Name)
  | place, [] => some place
  | place, .here :: rest => walkIn follow place rest
  | place, .parent :: rest => walkIn follow place.dropLast rest
  | place, .name n :: rest =>
    match node (place ++ [n]) with
    | some (.link absolute target) => follow (if absolute then [] else place) (target ++ rest)
    | some .dir => walkIn follow (place ++ [n]) rest
    | some .file =>
      if strict ∧ rest ≠ [] then none else walkIn follow (place ++ [n]) rest
    | none => if strict then none else walkIn follow (place ++ [n]) rest

def walk : Nat → List Name → List (PathPart Name) → Option (List Name)
  | 0 => walkIn node strict fun _ _ => none
  | links + 1 => walkIn node strict (walk links)

end Walk

namespace Links

variable {Name : Type} (disk : Links Name)

/-- `fs::canonicalize`. -/
def resolve (path : List (PathPart Name)) : Option (List Name) :=
  walk disk.node true disk.limit [] path

/-- What a path denotes, be it there or not. -/
def denotes (path : List (PathPart Name)) : Option (List Name) :=
  walk disk.node false disk.limit [] path

end Links

section Walks

variable {Name : Type} {node : List Name → Option (Node Name)}

/-- No name on the way to a place is a link. -/
def LinkFree (node : List Name → Option (Node Name)) (place : List Name) : Prop :=
  ∀ front n, front ++ [n] <+: place → ∀ absolute target,
    node (front ++ [n]) ≠ some (.link absolute target)

theorem linkFree_nil : LinkFree node [] := by
  intro front n h
  simp at h

theorem LinkFree.of_prefix {place place' : List Name} (h : LinkFree node place')
    (hplace : place <+: place') : LinkFree node place := fun front n hfront =>
  h front n (hfront.trans hplace)

theorem LinkFree.name {place : List Name} {n : Name} (h : LinkFree node place)
    (hn : ∀ absolute target, node (place ++ [n]) ≠ some (.link absolute target)) :
    LinkFree node (place ++ [n]) := by
  intro front n' hfront
  rcases List.prefix_concat_iff.mp hfront with heq | hplace
  · rw [heq]
    exact hn
  · exact h front n' hplace

variable {strict : Bool} {follow follow' : List Name → List (PathPart Name) → Option (List Name)}

/-- A walk ends at a place without links on the way. -/
theorem walkIn_linkFree (hfollow : ∀ place path place', LinkFree node place →
    follow place path = some place' → LinkFree node place') {path : List (PathPart Name)}
    {place place' : List Name} (hplace : LinkFree node place)
    (h : walkIn node strict follow place path = some place') : LinkFree node place' := by
  induction path generalizing place with
  | nil => exact Option.some.inj h ▸ hplace
  | cons part rest ih =>
    cases part with
    | here => exact ih hplace h
    | parent => exact ih (hplace.of_prefix (List.dropLast_prefix place)) h
    | name n =>
      rw [walkIn] at h
      split at h
      · refine hfollow _ _ _ ?_ h
        split
        · exact linkFree_nil
        · exact hplace
      · rename_i hdir
        exact ih (hplace.name fun absolute target hlink => by rw [hdir] at hlink; cases hlink) h
      · rename_i hfile
        split at h
        · cases h
        · exact ih (hplace.name fun absolute target hlink => by rw [hfile] at hlink; cases hlink) h
      · rename_i hnone
        split at h
        · cases h
        · exact ih (hplace.name fun absolute target hlink => by rw [hnone] at hlink; cases hlink) h

theorem walk_linkFree (links : Nat) {path : List (PathPart Name)} {place place' : List Name}
    (hplace : LinkFree node place) (h : walk node strict links place path = some place') :
    LinkFree node place' := by
  induction links generalizing path place place' with
  | zero => exact walkIn_linkFree (fun _ _ _ _ h => by cases h) hplace h
  | succ links ih => exact walkIn_linkFree (fun _ _ _ hfree hwalk => ih hfree hwalk) hplace h

theorem walkIn_here {tail : List (PathPart Name)} (htail : ∀ part ∈ tail, part = .here)
    (place : List Name) : walkIn node strict follow place tail = some place := by
  induction tail with
  | nil => rfl
  | cons part tail ih =>
    obtain ⟨rfl, hrest⟩ := List.forall_mem_cons.mp htail
    exact ih hrest

/-- Names that are no links are walked one by one, whether they are there or not. -/
theorem walkIn_names {names : List Name} {tail : List (PathPart Name)}
    (htail : ∀ part ∈ tail, part = .here) {place : List Name}
    (hfree : LinkFree node (place ++ names)) :
    walkIn node false follow place (names.map .name ++ tail) = some (place ++ names) := by
  induction names generalizing place with
  | nil =>
    rw [List.map_nil, List.nil_append, List.append_nil]
    exact walkIn_here htail place
  | cons n names ih =>
    have hsplit : place ++ n :: names = place ++ [n] ++ names := by simp
    rw [hsplit] at hfree ⊢
    have hn := hfree place n (List.prefix_append _ _)
    rw [List.map_cons, List.cons_append, walkIn]
    split
    · rename_i absolute target hlink
      exact absurd hlink (hn absolute target)
    · exact ih hfree
    · rw [if_neg (by simp)]
      exact ih hfree
    · rw [if_neg Bool.false_ne_true]
      exact ih hfree

/-- What is resolved strictly is the same leniently, with names behind it that need no link. -/
theorem walkIn_append {names : List Name} {tail : List (PathPart Name)}
    (htail : ∀ part ∈ tail, part = .here)
    (hfollow : ∀ place path found, LinkFree node (found ++ names) → follow place path = some found →
      follow' place (path ++ (names.map .name ++ tail)) = some (found ++ names))
    {path : List (PathPart Name)} {place found : List Name} (hfree : LinkFree node (found ++ names))
    (h : walkIn node true follow place path = some found) :
    walkIn node false follow' place (path ++ (names.map .name ++ tail)) =
      some (found ++ names) := by
  induction path generalizing place with
  | nil =>
    cases Option.some.inj h
    exact walkIn_names htail hfree
  | cons part rest ih =>
    cases part with
    | here => exact ih h
    | parent => exact ih h
    | name n =>
      rw [walkIn] at h
      rw [List.cons_append, walkIn]
      split at h
      · rename_i hlink
        simp only [← List.append_assoc]
        rw [List.append_assoc]
        exact hfollow _ _ _ hfree h
      · rename_i hdir
        exact ih h
      · rename_i hfile
        rw [if_neg (by simp)]
        split at h
        · cases h
        · exact ih h
      · cases h

theorem walk_append (links : Nat) {names : List Name} {tail : List (PathPart Name)}
    (htail : ∀ part ∈ tail, part = .here) {path : List (PathPart Name)} {place found : List Name}
    (hfree : LinkFree node (found ++ names)) (h : walk node true links place path = some found) :
    walk node false links place (path ++ (names.map .name ++ tail)) = some (found ++ names) := by
  induction links generalizing path place found with
  | zero => exact walkIn_append htail (fun _ _ _ _ h => by cases h) hfree h
  | succ links ih => exact walkIn_append htail (fun _ _ _ hfree hwalk => ih hfree hwalk) hfree h

end Walks

namespace Links

variable {Name : Type} {disk : Links Name} {path : List (PathPart Name)} {place : List Name}

theorem resolve_linkFree (h : disk.resolve path = some place) : LinkFree disk.node place :=
  walk_linkFree disk.limit linkFree_nil h

theorem denotes_linkFree (h : disk.denotes path = some place) : LinkFree disk.node place :=
  walk_linkFree disk.limit linkFree_nil h

/-- A path denotes the place it is resolved to, and missing names below that. -/
theorem denotes_of_resolve {names : List Name} {tail : List (PathPart Name)}
    (htail : ∀ part ∈ tail, part = .here) (hfree : LinkFree disk.node (place ++ names))
    (h : disk.resolve path = some place) :
    disk.denotes (path ++ (names.map .name ++ tail)) = some (place ++ names) :=
  walk_append disk.limit htail hfree h

/-- A path without links on its way denotes itself. -/
theorem denotes_names (hfree : LinkFree disk.node place) :
    disk.denotes (place.map .name) = some place := by
  have hresolve : disk.resolve [] = some [] := by
    unfold resolve
    cases disk.limit <;> rfl
  have hnone : ∀ part ∈ ([] : List (PathPart Name)), part = .here := by simp
  have hdenotes := denotes_of_resolve hnone hfree hresolve
  simpa using hdenotes

end Links

end RemyCC.Files
