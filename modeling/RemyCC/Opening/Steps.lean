import RemyCC.Text

/-!
# Opening the index

A call is the list of its writes, decided by what it finds at the path. It may
stop after any of them: killed, or with the error of the write that failed.
-/

namespace RemyCC.Opening

open Text

def schemaVersion : String := "12.0.0"

/-- `u64::from_str`: digits after a sign that may be left out. -/
def parseU64 (s : String) : Option Nat :=
  let digits := if s.toList.head? = some '+' then s.toList.tail else s.toList
  if digits ≠ [] ∧ digits.all Char.isDigit then
    let value := digits.foldl (fun n c => 10 * n + (c.toNat - '0'.toNat)) 0
    if value < 18446744073709551616 then some value else none
  else none

/-- "major.minor.patch" with all-numeric components. -/
def parseVersion (value : String) : Option (Nat × Nat × Nat) :=
  match split '.' value with
  | [major, minor, patch] => do
    let major ← parseU64 major
    let minor ← parseU64 minor
    let patch ← parseU64 patch
    pure (major, minor, patch)
  | _ => none

def versionLt (a b : Nat × Nat × Nat) : Bool :=
  decide (a.1 < b.1) || (a.1 == b.1 && (decide (a.2.1 < b.2.1) ||
    (a.2.1 == b.2.1 && decide (a.2.2 < b.2.2))))

def belowCurrent (version : String) : Bool :=
  match parseVersion version, parseVersion schemaVersion with
  | some stored, some current => versionLt stored current
  | _, _ => false

/-- A database file: its tables, the version row of `meta`, and its rows. -/
structure Database (γ : Type) where
  tables : List String
  version : Option String
  rows : γ
  deriving DecidableEq, Repr

/-- The file at the path and the one at the path with `.bak`. -/
structure Disk (γ : Type) where
  main : Option (Database γ)
  backup : Option (Database γ)
  deriving DecidableEq, Repr

inductive Statement where
  | createTable (name : String)
  | createIndex (name : String)
  | createTrigger (name : String)
  deriving DecidableEq, Repr

def schemaSql : List Statement :=
  ["files", "symbols", "symbol_occurrences", "edges", "edge_candidates", "patterns", "clusters",
    "cluster_members", "summary_versions", "node_change_counters", "judge_cache", "migration_log",
    "meta"].map .createTable ++
  ["idx_symbols_name", "idx_symbols_short", "idx_symbols_file", "idx_occurrences_file_name",
    "idx_occurrences_one_canonical", "idx_edges_callee_q", "idx_edges_caller",
    "idx_edges_provenance", "idx_edges_source_file", "idx_edges_inferred_identity",
    "idx_patterns_type_signal", "idx_patterns_file", "idx_sv_lookup", "idx_sv_status",
    "idx_jc_created"].map .createIndex ++
  [.createTable "retrieval_documents", .createIndex "idx_retrieval_kind",
    .createIndex "idx_retrieval_file", .createTable "retrieval_fts"] ++
  ["retrieval_fts_ai", "retrieval_fts_ad", "retrieval_fts_au"].map .createTrigger

/-- Every statement is `IF NOT EXISTS`. -/
def Statement.execute {γ : Type} (d : Database γ) : Statement → Database γ
  | .createTable name => if name ∈ d.tables then d else { d with tables := d.tables ++ [name] }
  | .createIndex _ => d
  | .createTrigger _ => d

inductive Step where
  /-- `Connection::open`, which creates a file that is not there. -/
  | openMain
  | journalMode
  | execute (statement : Statement)
  | stampVersion
  | openBackup
  /-- `run_to_completion`: the destination is written in one transaction. -/
  | copyBackup
  | removeMain
  | removeSidecar (suffix : String)
  deriving DecidableEq, Repr

inductive OpenOutcome where
  | ready
  | rebuilt
  deriving DecidableEq, Repr

def createCurrentSchema : List Step :=
  .journalMode :: schemaSql.map .execute ++ [.stampVersion]

def backupAndRebuild : List Step :=
  [.openBackup, .copyBackup, .removeMain, .removeSidecar "-wal", .removeSidecar "-shm",
    .openMain] ++ createCurrentSchema

section Calls

variable {γ : Type} (fresh : γ)

def Step.apply (disk : Disk γ) : Step → Disk γ
  | .openMain => { disk with main := some (disk.main.getD ⟨[], none, fresh⟩) }
  | .journalMode => disk
  | .execute statement => { disk with main := disk.main.map statement.execute }
  | .stampVersion => { disk with main := disk.main.map ({ · with version := some schemaVersion }) }
  | .openBackup => { disk with backup := some (disk.backup.getD ⟨[], none, fresh⟩) }
  | .copyBackup => { disk with backup := disk.main }
  | .removeMain => { disk with main := none }
  | .removeSidecar _ => disk

/-- The writes of `open_db` on what it finds, and how it ends when none fails. -/
def openDb (path : String) (main : Option (Database γ)) : List Step × Except String OpenOutcome :=
  match main with
  | none => (.openMain :: createCurrentSchema, .ok .ready)
  | some d =>
    if d.tables = [] then (.openMain :: createCurrentSchema, .ok .ready)
    else
      match d.version with
      | none => (.openMain :: backupAndRebuild, .ok .rebuilt)
      | some version =>
        if version = schemaVersion then (.openMain :: schemaSql.map .execute, .ok .ready)
        else if belowCurrent version then (.openMain :: backupAndRebuild, .ok .rebuilt)
        else
          ([.openMain], .error ("logic_index.db at " ++ path ++ " has schema version " ++ version ++
            ", expected " ++ schemaVersion ++ ". The database is preserved unchanged; only " ++
            "databases below the current version are rebuilt."))

def runSteps (steps : List Step) (disk : Disk γ) : Disk γ := steps.foldl (Step.apply fresh) disk

/-- A call that stops after its first `n` writes. -/
def openUpTo (path : String) (n : Nat) (disk : Disk γ) : Disk γ :=
  runSteps fresh ((openDb path disk.main).1.take n) disk

/-- Calls one after another, each with where it stops. -/
def openRuns (path : String) (stops : List Nat) (disk : Disk γ) : Disk γ :=
  stops.foldl (fun disk n => openUpTo fresh path n disk) disk

variable {fresh} {path : String}

/-- What every write of a list keeps holds wherever the list is cut. -/
theorem runSteps_induction {P : Disk γ → Prop} {steps : List Step} {disk : Disk γ}
    (hstep : ∀ step ∈ steps, ∀ disk, P disk → P (step.apply fresh disk)) (h : P disk) :
    P (runSteps fresh steps disk) := by
  unfold runSteps
  induction steps generalizing disk with
  | nil => exact h
  | cons step steps ih =>
    exact ih (fun s hs => hstep s (List.mem_cons_of_mem step hs))
      (hstep step List.mem_cons_self disk h)

theorem runSteps_append (before after : List Step) (disk : Disk γ) :
    runSteps fresh (before ++ after) disk = runSteps fresh after (runSteps fresh before disk) :=
  List.foldl_append

theorem openRuns_concat (stops : List Nat) (n : Nat) (disk : Disk γ) :
    openRuns fresh path (stops ++ [n]) disk =
      openUpTo fresh path n (openRuns fresh path stops disk) :=
  List.foldl_append

end Calls

end RemyCC.Opening
