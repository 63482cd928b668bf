import RemyCC.Index.Synth
import RemyCC.Index.Clusters

/-!
# Postprocessing

`run` resolves every direct edge anew and recomputes whatever follows from the
edges. `run_incremental` resets only the edges that a change set can reach, and
recomputes file kinds and clusters where an edge may have changed.
-/

namespace RemyCC.Index

open Relational

def resetDirectEdgeResolution (d : Database) : Database :=
  { d.editEdges EdgeRow.direct EdgeRow.reset EdgeRow.reset_id with candidates := .empty }

def purgeHeuristicEdges (d : Database) : Database :=
  { d with edges := d.edges.deleteWhere fun e => !e.direct }

/-- What both ways of postprocessing do between resolution and file kinds. -/
def resynthesize (c : PostprocessConfig) (d : Database) : Database :=
  runAllSynthesizers c (overwriteRustTraitBases (purgeHeuristicEdges d))

def run (c : PostprocessConfig) (d : Database) : Database :=
  let d := resynthesize c (resolveCallEdges c (resetDirectEdgeResolution d))
  detectClusters c (computeFileKinds c d)

/-- The change set of a scan. -/
structure ScanDelta where
  touchedFiles : List String
  names : List String
  addedPy : List String
  removedPy : List String
  deriving DecidableEq, Repr

def ScanDelta.empty : ScanDelta := ⟨[], [], [], []⟩

def ScanDelta.changedPy (delta : ScanDelta) : List String := delta.addedPy ++ delta.removedPy

/-- The direct edges whose resolution a change set can reach. -/
def inResetSet (delta : ScanDelta) (d : Database) (e : EdgeRow) : Bool :=
  e.direct && (delta.touchedFiles.contains e.sourceFile ||
    (importBindingHosts delta.changedPy d).contains e.sourceFile ||
    delta.names.contains e.callee)

def targetEdges (delta : ScanDelta) (d : Database) : List EdgeRow :=
  d.edges.rows.filter (inResetSet delta d)

def resetEdges (ids : List Nat) (d : Database) : Database :=
  let d := { d with candidates := d.candidates.deleteWhere fun k => ids.contains k.edgeId }
  d.editEdges (fun e => ids.contains e.id) EdgeRow.reset EdgeRow.reset_id

def edgeFiles (e : EdgeRow) : List String := e.calleeFile.toList ++ [e.sourceFile]

abbrev SnapshotKey := String × String × String

def snapshotKey (e : EdgeRow) : SnapshotKey :=
  (e.sourceFile, e.calleeFile.getD "", e.calleeQualified.getD "")

/-- The keys of the inferred edges, once for each edge. -/
def inferredSnapshot (d : Database) : List SnapshotKey :=
  (d.edges.rows.filter fun e => !e.direct).map snapshotKey

def changedKeys (before after : List SnapshotKey) : List SnapshotKey :=
  (before ++ after).filter fun k => before.count k != after.count k

def keyFiles (k : SnapshotKey) : List String :=
  if k.2.1 = "" then [k.1] else [k.1, k.2.1]

/-- The index after the targeted resolution of a change set. -/
def resolveTargets (c : PostprocessConfig) (delta : ScanDelta) (d : Database) : Database :=
  let ids := (targetEdges delta d).map EdgeRow.id
  resolveCallEdgesFiltered c (some ids) (resetEdges ids d)

/-- The files that a change set and the edges it reaches touch, before and
after the resolution, and those of every change among the inferred edges. -/
def affectedFiles (c : PostprocessConfig) (delta : ScanDelta) (d : Database) : List String :=
  let targets := targetEdges delta d
  let ids := targets.map EdgeRow.id
  let resolved := resolveTargets c delta d
  let changed := changedKeys (inferredSnapshot resolved)
    (inferredSnapshot (resynthesize c resolved))
  delta.touchedFiles ++ targets.flatMap edgeFiles ++
    (resolved.edges.rows.filter fun e => ids.contains e.id).filterMap EdgeRow.calleeFile ++
    changed.flatMap keyFiles

def runIncremental (c : PostprocessConfig) (delta : ScanDelta) (d : Database) : Database :=
  let affected := affectedFiles c delta d
  let d := resynthesize c (resolveTargets c delta d)
  detectClustersFor c (sortedSet (affected.map topGroup)) (computeFileKindsFor c affected d)

end RemyCC.Index
