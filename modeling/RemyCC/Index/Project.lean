import RemyCC.Discovery.Walk
import RemyCC.Index.Scan

/-!
# Scanning a project

A full scan writes what the walk finds and sweeps the stored rest. A scan of
given files sweeps what is now excluded, then takes the requested paths and
those whose stored identity is out of date; after a rebuild it requests all that
the walk finds. Both write the outcomes in the order that the parse pool
delivers them in.
-/

namespace RemyCC.Index

open Relational Text Discovery

inductive FileOutcome where
  | facts (f : FileFacts)
  | failed (relPath message : String)

namespace FileOutcome

def relPath : FileOutcome → String
  | facts f => f.relPath
  | failed relPath _ => relPath

def op? : FileOutcome → Option FileOp
  | facts f => some (.write f)
  | failed _ _ => none

end FileOutcome

/-- What a scan finds of the sources while it runs. -/
structure Sources where
  normcase : String → String
  config : ScanConfig
  root : List (Name × Entry)
  /-- `full_path.exists()` for a path relative to the root. -/
  existsAt : String → Bool
  parseOne : String → FileOutcome
  identityCandidates : Language → String → List CacheIdentity
  parseOne_relPath : ∀ rel, (parseOne rel).relPath = rel
  /-- A file that can be read is there. -/
  existsAt_of_facts : ∀ rel f, parseOne rel = .facts f → existsAt rel = true

namespace Sources

def discover (src : Sources) : List String := Discovery.discover src.normcase src.config src.root

def isPathExcluded (src : Sources) (rel : String) : Bool :=
  src.config.isPathExcluded src.normcase rel

/-- The stored rows that no identity of the current parsers reproduces. -/
def identityInvalidPaths (src : Sources) (d : Database) : List String :=
  (orderBy (compareOn FileRow.path) d.files.rows).filterMap fun r =>
    if src.isPathExcluded r.path then none
    else
      match Language.resolve (lastPart '/' r.path) with
      | none => none
      | some language =>
        if (src.identityCandidates language (lastPart '/' r.path)).contains r.identity then none
        else some r.path

end Sources

def dbPaths (d : Database) : List String := (orderBy (compareOn FileRow.path) d.files.rows).map FileRow.path

section ScanFull

variable (h : Hashes) (src : Sources)

/-- The writes of the outcomes in the order of their delivery, then the sweep. -/
def scanFullOps (delivered : List FileOutcome) (d : Database) : List FileOp :=
  let writes := delivered.filterMap FileOutcome.op?
  writes ++ ((dbPaths (applyOps h writes d).1).filter fun rel => !src.discover.contains rel).map
    .delete

def scanFull (c : PostprocessConfig) (delivered : List FileOutcome) (d : Database) : Database :=
  scanFully h c (scanFullOps h src delivered d) d

end ScanFull

section ScanFiles

variable (h : Hashes) (src : Sources)

def sweptOps (d : Database) : List FileOp := ((dbPaths d).filter src.isPathExcluded).map .delete

/-- The target paths, by path and without those that are excluded. -/
def targets (requested : List String) (d : Database) : List String :=
  (sortedSet (requested ++ src.identityInvalidPaths (applyOps h (sweptOps src d) d).1)).filter
    fun rel => !(requested.contains rel && src.isPathExcluded rel)

def toDelete (requested : List String) (d : Database) : List String :=
  (targets h src requested d).filter fun rel => !src.existsAt rel

def toParse (requested : List String) (d : Database) : List String :=
  (targets h src requested d).filter fun rel =>
    src.existsAt rel && (Language.resolve (lastPart '/' rel)).isSome

def scanFilesOps (requested : List String) (delivered : List FileOutcome) (d : Database) :
    List FileOp :=
  sweptOps src d ++ (toDelete h src requested d).map .delete ++ delivered.filterMap FileOutcome.op?

def scanFiles (c : PostprocessConfig) (requested : List String) (delivered : List FileOutcome)
    (d : Database) : Database :=
  scanIncrementally h c (scanFilesOps h src requested delivered d) d

end ScanFiles

/-- The parse pool delivers the outcome of each path, in any order. -/
def Delivers (src : Sources) (paths : List String) (delivered : List FileOutcome) : Prop :=
  delivered.Perm (paths.map src.parseOne)

end RemyCC.Index
