import RemyCC.Relational.Keyed
import RemyCC.Relational.Query

/-!
# The logic index

The fact tables of the structural index with the keys of `schema.sql`. Row
ids that nothing refers to are left out; the ids of edges and clusters are
kept, because `edge_candidates` and `cluster_members` refer to them.
-/

namespace RemyCC.Index

open Relational

structure CacheIdentity where
  contractVersion : String
  backend : String
  environment : String
  deriving DecidableEq, Repr

/-- `imports` and `import_bindings` hold JSON texts. -/
structure FileRow where
  path : String
  structHash : String
  language : Option String
  layer : Option String
  imports : Option String
  importBindings : String
  kindHint : Option String
  identity : CacheIdentity
  deriving DecidableEq, Repr

structure SymbolRow where
  filePath : String
  name : String
  shortName : String
  type : String
  args : String
  lineno : Option Int
  endLineno : Option Int
  hash : Option String
  bases : Option String
  nameTokens : String
  deriving DecidableEq, Repr

inductive ConflictKind where
  | typeVariant
  | signatureVariant
  | duplicateDefinition
  deriving DecidableEq, Repr

structure OccurrenceRow where
  filePath : String
  name : String
  occurrenceIndex : Nat
  type : String
  args : String
  lineno : Option Int
  endLineno : Option Int
  hash : String
  isCanonical : Bool
  conflictKind : ConflictKind
  selectionReason : String
  deriving DecidableEq, Repr

inductive CallForm where
  | name
  | attribute
  deriving DecidableEq, Repr

inductive Provenance where
  | definite
  | probable
  | speculative
  | inferred
  deriving DecidableEq, Repr

structure EdgeRow where
  id : Nat
  sourceFile : String
  caller : String
  callee : String
  calleeFile : Option String
  calleeQualified : Option String
  line : Option Int
  provenance : Option Provenance
  synthesizedFrom : Option String
  via : Option String
  callForm : CallForm
  deriving DecidableEq, Repr

structure CandidateRow where
  edgeId : Nat
  candidateQualified : String
  score : Nat
  deriving DecidableEq, Repr

structure PatternRow where
  filePath : String
  patternType : String
  signalName : Option String
  handler : Option String
  line : Option Int
  metadata : Option String
  deriving DecidableEq, Repr

/-- `entry_symbols` holds a JSON text. -/
structure ClusterRow where
  id : Nat
  name : String
  entrySymbols : String
  fileCount : Nat
  deriving DecidableEq, Repr

structure MemberRow where
  clusterId : Nat
  filePath : String
  deriving DecidableEq, Repr

namespace SymbolRow

def key (r : SymbolRow) : String × String := (r.filePath, r.name)

end SymbolRow

namespace OccurrenceRow

def key (r : OccurrenceRow) : String × String × Nat := (r.filePath, r.name, r.occurrenceIndex)

end OccurrenceRow

namespace CandidateRow

def key (r : CandidateRow) : Nat × String := (r.edgeId, r.candidateQualified)

end CandidateRow

structure Database where
  files : Keyed FileRow.path
  symbols : Keyed SymbolRow.key
  occurrences : Keyed OccurrenceRow.key
  edges : Numbered EdgeRow.id
  candidates : Keyed CandidateRow.key
  patterns : List PatternRow
  clusters : Numbered ClusterRow.id
  members : List MemberRow

namespace Database

def empty : Database where
  files := .empty
  symbols := .empty
  occurrences := .empty
  edges := .empty
  candidates := .empty
  patterns := []
  clusters := .empty
  members := []

def file? (d : Database) (path : String) : Option FileRow :=
  d.files.rows.find? fun r => r.path == path

def hasFile (d : Database) (path : String) : Bool := (d.file? path).isSome

end Database

/-- `provenance != 'inferred' OR provenance IS NULL`. -/
def EdgeRow.direct (e : EdgeRow) : Bool := e.provenance != some .inferred

/-- The fields of the scanner's configuration that the index reads, in the
ranges that loading it enforces. The two thresholds are floating-point numbers. -/
structure PostprocessConfig where
  clusterDensityThreshold : Rat
  clusterMaxSize : Nat
  clusterEntryCount : Nat
  synthInterfaceFanoutCap : Nat
  synthEventFanoutCap : Nat
  resolveFanoutCap : Nat
  resolveScoreSameFile : Nat
  resolveScoreDirectImport : Nat
  resolveScoreGlobal : Nat
  fileKindMinSymbols : Nat
  fileKindLowCohesionThreshold : Rat
  clusterDensityThreshold_range : 0 ≤ clusterDensityThreshold
  clusterMaxSize_range : 2 ≤ clusterMaxSize ∧ clusterMaxSize ≤ 200
  clusterEntryCount_range : 1 ≤ clusterEntryCount ∧ clusterEntryCount ≤ 20
  synthInterfaceFanoutCap_range : 1 ≤ synthInterfaceFanoutCap ∧ synthInterfaceFanoutCap ≤ 100
  synthEventFanoutCap_range : 1 ≤ synthEventFanoutCap ∧ synthEventFanoutCap ≤ 200
  resolveFanoutCap_range : 1 ≤ resolveFanoutCap ∧ resolveFanoutCap ≤ 100
  resolveScoreSameFile_range : resolveScoreSameFile ≤ 100
  resolveScoreDirectImport_range : resolveScoreDirectImport ≤ 100
  resolveScoreGlobal_range : resolveScoreGlobal ≤ 100
  fileKindMinSymbols_range : 1 ≤ fileKindMinSymbols ∧ fileKindMinSymbols ≤ 50
  fileKindLowCohesionThreshold_range :
    0 ≤ fileKindLowCohesionThreshold ∧ fileKindLowCohesionThreshold ≤ 1

/-- The values a configuration has where nothing sets them. -/
def PostprocessConfig.default : PostprocessConfig where
  clusterDensityThreshold := 1 / 2
  clusterMaxSize := 15
  clusterEntryCount := 3
  synthInterfaceFanoutCap := 10
  synthEventFanoutCap := 20
  resolveFanoutCap := 10
  resolveScoreSameFile := 2
  resolveScoreDirectImport := 1
  resolveScoreGlobal := 0
  fileKindMinSymbols := 5
  fileKindLowCohesionThreshold := 1 / 4
  clusterDensityThreshold_range := by decide +kernel
  clusterMaxSize_range := by decide
  clusterEntryCount_range := by decide
  synthInterfaceFanoutCap_range := by decide
  synthEventFanoutCap_range := by decide
  resolveFanoutCap_range := by decide
  resolveScoreSameFile_range := by decide
  resolveScoreDirectImport_range := by decide
  resolveScoreGlobal_range := by decide
  fileKindMinSymbols_range := by decide
  fileKindLowCohesionThreshold_range := by decide +kernel

end RemyCC.Index
