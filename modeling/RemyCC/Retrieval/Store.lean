import RemyCC.Retrieval.Documents
import RemyCC.Index.Project

/-!
# Scans with their summaries and documents

What the writes, deletions and cluster passes of a scan do beside the facts:
they mark summaries stale, insert initial ones and keep the documents up to date.
-/

namespace RemyCC.Retrieval

open Relational Text Index

section Write

/-- `source_segment.lines().count()`. -/
def lineCount (text : String) : Nat :=
  match (splitChar '\n' text.toList).reverse with
  | [] :: lines => lines.length
  | lines => lines.length

/-- The first lines of the docstring, or for a small function a fixed text. -/
def initialSummary (filterSmall : Bool) (symbol : SymbolInfo) : Option String :=
  match symbol.docstring.filter (· ≠ "") with
  | some docstring =>
    let lines := ((split '\n' docstring).map trim).filter (· ≠ "")
    if lines.isEmpty then none else some ("[Doc] " ++ joinWith " " (lines.take 3))
  | none =>
    if filterSmall && lineCount symbol.sourceSegment < 3 then some "Small utility function."
    else none

/-- `pyjson::dumps_summary` with separators that have blanks and no escapes outside ASCII. -/
def summaryStyle : Json.Style where
  itemSep := [',', ' ']
  keySep := [':', ' ']
  escape := Json.escapeChar

def initialPayload (short : String) : String :=
  String.ofList (Json.printChars summaryStyle (.obj [("short", .str short), ("full", .null)]))

/-- The newest version of a symbol among those that the pattern of its file matches. -/
def existingVersion (path ref : String) (rows : List SummaryVersion) : Option Nat :=
  ((rows.filter fun r => r.node.kind == .symbol && like (path ++ "::%") r.node.ref &&
    r.node.ref == ref).map SummaryVersion.version).max?

def insertSymbol (d : Database) (row : SymbolRow) : Database :=
  { d with symbols := d.symbols.insertOrIgnore row }

def Store.addInitial (node : Node) (version : Nat) (short : Option String) (s : Store) : Store :=
  match short with
  | some short => s.insertSummary node version (some (initialPayload short)) .ok
  | none => s

variable (g : Digests) (filterSmall : Bool) (f : FileFacts)

def Store.staleIf (changed : Bool) (node : Node) (s : Store) : Store :=
  if changed then s.markCurrentSummaryStale g node else s

/-- A symbol of the new facts, against the rows and versions from before the write. -/
def writeSymbol (old : List SymbolRow) (versions : List SummaryVersion) (s : Store)
    (symbol : SymbolInfo) : Store :=
  let row := f.symbolRow g.toHashes symbol
  let s := { s with index := insertSymbol s.index row }
  let node := symbolNode f.relPath symbol.name
  let hashUnchanged := (old.find? (·.name == symbol.name)).any (·.hash == row.hash)
  let existing := existingVersion f.relPath node.ref versions
  if hashUnchanged && existing.isSome then s.refreshNode g node
  else
    let s := s.staleIf g existing.isSome node
    let s := s.addInitial node (existing.getD 0 + 1) (initialSummary filterSmall symbol)
    s.refreshNode g node

theorem dropped_occurrences (d : Database) :
    ∀ o ∈ ((d.upsertFile f).dropFacts f.relPath).occurrences.rows, o.filePath ≠ f.relPath :=
  fun _ => Database.dropFacts_occurrences_ne

def startWrite (d : Database) : Database :=
  ((d.upsertFile f).dropFacts f.relPath).addOccurrences f (dropped_occurrences f d)

def finishWrite (d : Database) : Database := (d.addEdges f).addPatterns f

/-- The names of the stored symbols that the new facts do not have. -/
def removedNames (old : List SymbolRow) : List String :=
  (old.map SymbolRow.name).filter fun name => !(f.canonicalSymbols.map SymbolInfo.name).contains name

def sameNames (old : List SymbolRow) : Bool :=
  (removedNames f old).isEmpty &&
    (f.canonicalSymbols.map SymbolInfo.name).all (old.map SymbolRow.name).contains

namespace Store

def write (s : Store) : Store :=
  if fileUnchanged f s.index then s
  else
    let old := s.index.symbols.rows.filter fun r => r.filePath == f.relPath
    let existed := s.index.hasFile f.relPath
    let versions := s.summaries.rows
    let s := { s with index := startWrite f s.index }
    let s := f.canonicalSymbols.foldl (writeSymbol g filterSmall f old versions) s
    let s := (removedNames f old).foldl (fun s name => s.deleteNode (symbolNode f.relPath name)) s
    let s := s.staleIf g (existed && !sameNames f old) (fileNode f.relPath)
    let s := s.refreshNode g (fileNode f.relPath)
    { s with index := finishWrite f s.index }

def delete (path : String) (s : Store) : Store :=
  let refs := (orderBy (compareOn SymbolRow.name)
    (s.index.symbols.rows.filter fun r => r.filePath == path)).map SymbolRow.name
  let s := refs.foldl (fun s name => s.deleteNode (symbolNode path name)) s
  let s := s.deleteNode (fileNode path)
  { s with index := (deleteFile path s.index).1 }

end Store

end Write

section Clusters

variable (g : Digests)

/-- The files of the clusters with a name. -/
def membersNamed (name : String) (d : Database) : List String :=
  (d.clusters.rows.filter fun k => k.name == name).flatMap fun k =>
    (d.members.filter fun m => m.clusterId == k.id).map MemberRow.filePath

def namesInScope (scope : List String) (d : Database) : List String :=
  ((orderBy (compareOn ClusterRow.name) d.clusters.rows).map ClusterRow.name).filter fun name =>
    scope.contains (clusterGroup name)

/-- A cluster is formed; its summary is stale unless one with the same files was there. -/
def formCluster (before : Database) (existing : List String) (s : Store) (k : NewCluster) :
    Store :=
  let node := clusterNode k.name
  let s := { s with index := insertCluster s.index k, counters := s.counters.insertOrIgnore node }
  let unchanged := existing.contains k.name &&
    sortedSet (membersNamed k.name before) == sortedSet k.files
  (s.staleIf g (!unchanged) node).refreshNode g node

namespace Store

def detectClustersFor (c : PostprocessConfig) (scope : List String) (s : Store) : Store :=
  let before := s.index
  let existing := namesInScope scope before
  let s := (newClusters c scope before).foldl (formCluster g before existing)
    { s with index := dropClusters scope before }
  let current := namesInScope scope s.index
  let s := (existing.filter fun name => !current.contains name).foldl
    (fun s name => s.deleteNode (clusterNode name)) s
  { s with
    counters := s.counters.deleteWhere fun node => node.kind == .cluster &&
      scope.contains (clusterGroup node.ref) && !current.contains node.ref }

def detectClusters (c : PostprocessConfig) (s : Store) : Store :=
  s.detectClustersFor g c (allGroups s.index)

def run (c : PostprocessConfig) (s : Store) : Store :=
  let resolved := resolveCallEdges c (resetDirectEdgeResolution s.index)
  Store.detectClusters g c
    { s with index := computeFileKinds c (resynthesize c resolved) }

def runIncremental (c : PostprocessConfig) (delta : ScanDelta) (s : Store) : Store :=
  let affected := affectedFiles c delta s.index
  Store.detectClustersFor g c (sortedSet (affected.map topGroup))
    { s with
      index := computeFileKindsFor c affected (resynthesize c (resolveTargets c delta s.index)) }

end Store

end Clusters

section Scans

variable (g : Digests) (filterSmall : Bool) (c : PostprocessConfig)

namespace Store

def applyOp (s : Store) : FileOp → Store
  | .write f => s.write g filterSmall f
  | .delete path => s.delete path

def applyOps (ops : List FileOp) (s : Store) : Store := ops.foldl (applyOp g filterSmall) s

def scanFull (src : Sources) (delivered : List FileOutcome) (s : Store) : Store :=
  (s.applyOps g filterSmall (scanFullOps g.toHashes src delivered s.index)).run g c

def scanFiles (src : Sources) (requested : List String) (delivered : List FileOutcome)
    (s : Store) : Store :=
  let ops := scanFilesOps g.toHashes src requested delivered s.index
  (s.applyOps g filterSmall ops).runIncremental g c (Index.applyOps g.toHashes ops s.index).2

end Store

end Scans

end RemyCC.Retrieval
