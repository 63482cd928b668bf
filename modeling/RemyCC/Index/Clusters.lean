import RemyCC.Rounding
import RemyCC.Index.Resolve

/-!
# File kinds and clusters

The kind of a file compares the edges inside it with its symbols. The files of
one top-level directory form a cluster, a large directory one for each of its
subdirectories, when enough edges run between them; its entry symbols are those
most called from anywhere.
-/

namespace RemyCC.Index

open Relational Text

/-- The top-level path group of a file. -/
def topGroup (path : String) : String :=
  match beforeFirst "/" path with
  | some head => head
  | none => "_root"

def computeKindHint (c : PostprocessConfig) (symCount intraEdges : Nat) : String :=
  if symCount < c.fileKindMinSymbols then "trivial"
  else if Rounding.quotient intraEdges symCount < c.fileKindLowCohesionThreshold then
    "low_cohesion"
  else "cohesive"

def symbolCount (path : String) (d : Database) : Nat :=
  d.symbols.rows.countP fun s => s.filePath == path

def intraEdgeCount (path : String) (d : Database) : Nat :=
  d.edges.rows.countP fun e => e.sourceFile == path && e.calleeFile == some path

def fileKind (c : PostprocessConfig) (d : Database) (path : String) : String :=
  computeKindHint c (symbolCount path d) (intraEdgeCount path d)

def computeFileKindsFor (c : PostprocessConfig) (paths : List String) (d : Database) : Database :=
  { d with
    files := d.files.update
      (fun r => if paths.contains r.path then { r with kindHint := some (fileKind c d r.path) }
        else r)
      (by
        intro r
        split <;> rfl) }

def computeFileKinds (c : PostprocessConfig) (d : Database) : Database :=
  computeFileKindsFor c (d.files.rows.map FileRow.path) d

/-- A cluster's owning top-level group. -/
def clusterGroup (name : String) : String := firstPart '/' name

def subGroup (group path : String) : String :=
  match split '/' path with
  | first :: second :: _ :: _ => first ++ "/" ++ second
  | _ => group

/-- The clusters that the files of one group may form, with their files. -/
def finalGroups (c : PostprocessConfig) (group : String × List String) :
    List (String × List String) :=
  if group.2.length < 2 then []
  else if c.clusterMaxSize < group.2.length then groupsBy (subGroup group.1) group.2
  else [group]

def internalEdgeCount (files : List String) (d : Database) : Nat :=
  d.edges.rows.countP fun e => files.contains e.sourceFile &&
    match e.calleeFile with
    | some f => files.contains f
    | none => false

/-- The callees of the edges into some files, once for each edge. -/
def calledSymbols (files : List String) (d : Database) : List String :=
  (d.edges.rows.filter fun e =>
    match e.calleeFile with
    | some f => files.contains f
    | none => false).filterMap EdgeRow.calleeQualified

def rankCalled (called : List String) : List String :=
  (orderBy (fun a b : String × Nat => (compare b.2 a.2).then (compare a.1 b.1))
    ((sortedSet called).map fun q => (q, called.count q))).map Prod.fst

def entrySymbols (c : PostprocessConfig) (files : List String) (d : Database) : List String :=
  match (rankCalled (calledSymbols files d)).take c.clusterEntryCount with
  | [] => [files.headD "" ++ "::*"]
  | entries => entries

structure NewCluster where
  name : String
  entrySymbols : String
  files : List String
  deriving DecidableEq, Repr

/-- The cluster of a candidate group, if it is dense enough. -/
def newCluster (c : PostprocessConfig) (d : Database) (group : String × List String) :
    Option NewCluster :=
  if group.2.length < 2 then none
  else if Rounding.quotient (internalEdgeCount group.2 d) group.2.length <
      c.clusterDensityThreshold then none
  else some
    { name := group.1
      entrySymbols := Json.dumpsDefault (.arr ((entrySymbols c group.2 d).map .str))
      files := group.2 }

def pathsInScope (scope : List String) (d : Database) : List String :=
  (d.filesByPath.map FileRow.path).filter fun path => scope.contains (topGroup path)

def newClusters (c : PostprocessConfig) (scope : List String) (d : Database) : List NewCluster :=
  ((groupsBy topGroup (pathsInScope scope d)).flatMap (finalGroups c)).filterMap (newCluster c d)

def NewCluster.row (k : NewCluster) (id : Nat) : ClusterRow where
  id := id
  name := k.name
  entrySymbols := k.entrySymbols
  fileCount := k.files.length

theorem NewCluster.row_id (k : NewCluster) (id : Nat) : (k.row id).id = id := rfl

def insertCluster (d : Database) (k : NewCluster) : Database :=
  { d with
    clusters := d.clusters.insert k.row k.row_id
    members := d.members ++ k.files.map fun path => ⟨d.clusters.last + 1, path⟩ }

/-- The clusters of some groups, with their members, are removed. -/
def dropClusters (scope : List String) (d : Database) : Database :=
  { d with
    members := d.members.filter fun m =>
      !(d.clusters.rows.any fun k => scope.contains (clusterGroup k.name) && k.id == m.clusterId)
    clusters := d.clusters.deleteWhere fun k => scope.contains (clusterGroup k.name) }

def detectClustersFor (c : PostprocessConfig) (scope : List String) (d : Database) : Database :=
  (newClusters c scope d).foldl insertCluster (dropClusters scope d)

/-- Groups whose files all disappeared still have their clusters removed. -/
def allGroups (d : Database) : List String :=
  sortedSet ((d.files.rows.map fun r => topGroup r.path) ++
    d.clusters.rows.map fun k => clusterGroup k.name)

def detectClusters (c : PostprocessConfig) (d : Database) : Database :=
  detectClustersFor c (allGroups d) d

end RemyCC.Index
