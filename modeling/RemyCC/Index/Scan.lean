import RemyCC.Index.Writer
import RemyCC.Index.Postprocess

/-!
# Change sets of a scan

A scan writes and deletes files one after another and collects what changed:
the files touched, the names that any of them gained or lost, and the Python
files that came or went.
-/

namespace RemyCC.Index

open Relational Text

inductive FileOp where
  | write (f : FileFacts)
  | delete (path : String)

namespace ScanDelta

def recordWritten (path : String) (fd : FileDelta) (delta : ScanDelta) : ScanDelta :=
  { delta with
    touchedFiles := delta.touchedFiles ++ [path]
    addedPy := if fd.created && endsWith path ".py" then delta.addedPy ++ [path]
      else delta.addedPy
    names := delta.names ++ fd.names }

def recordRemoved (path : String) (fd : FileDelta) (delta : ScanDelta) : ScanDelta :=
  { delta with
    touchedFiles := delta.touchedFiles ++ [path]
    names := delta.names ++ fd.names
    removedPy := if endsWith path ".py" then delta.removedPy ++ [path] else delta.removedPy }

end ScanDelta

def applyOp (h : Hashes) (s : Database × ScanDelta) : FileOp → Database × ScanDelta
  | .write f =>
    let (d, fd) := writeFileFacts h f s.1
    (d, if fd.changed then s.2.recordWritten f.relPath fd else s.2)
  | .delete path =>
    match deleteFile path s.1 with
    | (d, some fd) => (d, s.2.recordRemoved path fd)
    | (d, none) => (d, s.2)

/-- A database after some writes and deletions, with their change set. -/
def applyOps (h : Hashes) (ops : List FileOp) (d : Database) : Database × ScanDelta :=
  ops.foldl (applyOp h) (d, .empty)

/-- The database after a change set is collected and postprocessed on its own. -/
def scanIncrementally (h : Hashes) (c : PostprocessConfig) (ops : List FileOp) (d : Database) :
    Database :=
  runIncremental c (applyOps h ops d).2 (applyOps h ops d).1

/-- The database after the same changes and a full postprocessing. -/
def scanFully (h : Hashes) (c : PostprocessConfig) (ops : List FileOp) (d : Database) : Database :=
  run c (applyOps h ops d).1

/-- The databases that scans lead to, under whatever configurations. -/
inductive Indexed (h : Hashes) : Database → Prop
  | empty : Indexed h .empty
  | full {d : Database} (c : PostprocessConfig) (ops : List FileOp) (hd : Indexed h d) :
      Indexed h (scanFully h c ops d)
  | incremental {d : Database} (c : PostprocessConfig) (ops : List FileOp) (hd : Indexed h d) :
      Indexed h (scanIncrementally h c ops d)

/-- The databases whose last full postprocessing and every one since were under
one configuration. -/
inductive IndexedUnder (h : Hashes) (c : PostprocessConfig) : Database → Prop
  | full {d : Database} (ops : List FileOp) (hd : Indexed h d) :
      IndexedUnder h c (scanFully h c ops d)
  | incremental {d : Database} (ops : List FileOp) (hd : IndexedUnder h c d) :
      IndexedUnder h c (scanIncrementally h c ops d)

end RemyCC.Index
