import RemyCC.Text

/-!
# Imports of Rust files

`mod` declarations and `use` items lead to files by the existence of files
alone: `crate` stands for the nearest directory above that has a `lib.rs` or a
`main.rs`, `self` and `super` for the directory of the file's own module and
those above it, and any other head for a module that the file declares. Of a
path the longest part that some file stands for counts.
-/

namespace RemyCC.Index

open Text

/-- An absolute path without superfluous parts. -/
abbrev Place := List String

/-- `isFile` and the names that `read_dir` gives, none where it fails. -/
structure Disk where
  isFile : Place → Bool
  entries : Place → List String

section Syntax

/-- A node of a `use` item; the groups hold their named children. -/
inductive UseTree where
  | name (text : String)
  | keyword (kind : String)
  | scoped (path : Option UseTree) (last : Option String)
  | renamed (path : Option UseTree)
  | scopedList (path : Option UseTree) (list : Option (List UseTree))
  | list (items : List UseTree)
  | wildcard (inner : Option UseTree)
  | other

inductive Item where
  | modFile (name : String)
  | modInline (name : String) (body : List Item)
  | useDeclaration (argument : Option UseTree)
  | other (children : List Item)

namespace UseTree

def extend (prefixes tails : List (List String)) : List (List String) :=
  tails.flatMap fun tail => prefixes.map (· ++ tail)

mutual

/-- `_use_paths`. -/
def paths : UseTree → List (List String)
  | .name text => [[text]]
  | .keyword kind => [[kind]]
  | .scoped path last =>
    (match path with
      | some path => path.paths
      | none => [[]]).map (· ++ last.toList)
  | .renamed path =>
    match path with
    | some path => path.paths
    | none => []
  | .scopedList path items =>
    let prefixes := match path with
      | some path => path.paths
      | none => [[]]
    match items with
    | some items => extend prefixes (pathsOf items)
    | none => []
  | .list items => pathsOf items
  | .wildcard inner =>
    match inner with
    | some inner => inner.paths
    | none => []
  | .other => []

def pathsOf : List UseTree → List (List String)
  | [] => []
  | item :: items => item.paths ++ pathsOf items

end

end UseTree

mutual

/-- The `use` items of a node and of all below it, in the order of the text. -/
def Item.uses : Item → List (Option UseTree)
  | .modFile _ => []
  | .modInline _ body => usesOf body
  | .useDeclaration argument => [argument]
  | .other children => usesOf children

def usesOf : List Item → List (Option UseTree)
  | [] => []
  | item :: items => item.uses ++ usesOf items

end

def Item.modName? : Item → Option String
  | .modFile name => some name
  | .modInline name _ => some name
  | _ => none

def Item.modFile? : Item → Option String
  | .modFile name => some name
  | _ => none

def declaredMods (items : List Item) : List String := items.filterMap Item.modName?

end Syntax

section Places

def dirname (place : Place) : Place := place.dropLast

def crateRootFiles : List String := ["lib.rs", "main.rs"]

def moduleFileBasenames : List String := ["mod.rs", "lib.rs", "main.rs"]

def caseExactOnDisk (disk : Disk) : Place → List String → Bool
  | _, [] => true
  | cursor, part :: rest =>
    (disk.entries cursor).contains part && caseExactOnDisk disk (cursor ++ [part]) rest

/-- What stands before the last dot, or the whole name. -/
def stem (name : String) : String :=
  match name.toList.reverse.dropWhile (· ≠ '.') with
  | [] => name
  | _ :: before => String.ofList before.reverse

def moduleDir (file : Place) : Place :=
  let basename := file.getLast?.getD ""
  if moduleFileBasenames.contains basename then dirname file else dirname file ++ [stem basename]

/-- The walk upwards; at the root of the file system a directory is its own parent. -/
def findCrateRoot (disk : Disk) (root : Place) : List String → Option Place
  | [] =>
    if crateRootFiles.any fun marker => disk.isFile [marker] then some [] else none
  | name :: above =>
    let cursor := (name :: above).reverse
    if crateRootFiles.any fun marker => disk.isFile (cursor ++ [marker]) then some cursor
    else if cursor = root then none
    else findCrateRoot disk root above

def commonParts : List String → List String → Nat
  | a :: as, b :: bs => if a = b then commonParts as bs + 1 else 0
  | _, _ => 0

def relpathParts (place root : Place) : List String :=
  let common := commonParts place root
  List.replicate (root.length - common) ".." ++ place.drop common

def relpath (place root : Place) : String :=
  let parts := relpathParts place root
  if parts = [] then "." else joinWith "/" parts

end Places

section Resolution

variable (disk : Disk) (root : Place)

def record (base : Place) (parts : List String) : Option String :=
  if disk.isFile (base ++ parts) && caseExactOnDisk disk base parts then
    let rel := relpath (base ++ parts) root
    if startsWith rel ".." then none else some rel
  else none

def fileParts (segments : List String) : List String :=
  segments.dropLast ++ [segments.getLast?.getD "" ++ ".rs"]

def modParts (segments : List String) : List String := segments ++ ["mod.rs"]

/-- The prefixes of a path with so many segments and fewer. -/
def tryPrefixes (base : Place) (segments : List String) : Nat → Option String
  | 0 => none
  | k + 1 =>
    match record disk root base (fileParts (segments.take (k + 1))) with
    | some rel => some rel
    | none =>
      match record disk root base (modParts (segments.take (k + 1))) with
      | some rel => some rel
      | none => tryPrefixes base segments k

def tryModule (base : Place) (segments : List String) : Option String :=
  tryPrefixes disk root base segments segments.length

/-- The directory that a path of `super` leads to, with what follows. -/
def climbDirs (base : Place) : List String → Place × List String
  | "super" :: rest => climbDirs (dirname base) rest
  | rest => (base, rest)

/-- The import that one path of a `use` item leads to. -/
def usePathImport (items : List Item) (file : Place) : List String → Option String
  | [] => none
  | head :: rest =>
    if head = "crate" then
      (findCrateRoot disk root (dirname file).reverse).bind fun base =>
        tryModule disk root base rest
    else if head = "self" then tryModule disk root (moduleDir file) rest
    else if head = "super" then
      let climbed := climbDirs (dirname (moduleDir file)) rest
      tryModule disk root climbed.1 climbed.2
    else if (declaredMods items).contains head then
      tryModule disk root (moduleDir file) (head :: rest)
    else none

def argumentPaths (argument : Option UseTree) : List (List String) :=
  match argument with
  | some tree => tree.paths
  | none => []

def addNew (imports : List String) (rel : String) : List String :=
  if imports.contains rel then imports else imports ++ [rel]

def resolveImports (items : List Item) (file : Place) : List String :=
  let declared := (items.filterMap Item.modFile?).filterMap fun name =>
    tryModule disk root (moduleDir file) [name]
  let used := (usesOf items).flatMap fun argument =>
    (argumentPaths argument).filterMap (usePathImport disk root items file)
  (declared ++ used).foldl addNew []

end Resolution

end RemyCC.Index
