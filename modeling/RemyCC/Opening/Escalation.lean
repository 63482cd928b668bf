import RemyCC.Opening.Steps
import RemyCC.Index.Convergence
import RemyCC.Index.Listing

/-!
# Scans after a rebuild

A rebuild empties the index, and only the call that rebuilt it knows. It scans
all that the walk lists; what it leaves to a later call, if it is cut short, is
an index that looks ready.
-/

namespace RemyCC.Opening

open Index

inductive ScanKind where
  | full
  | files (requested : List String)

/-- Where a call ends: after some writes of `open_db`, after all of them but
before the commit, or with the commit. -/
inductive Stop where
  | opening (n : Nat)
  | uncommitted
  | committed
  deriving DecidableEq, Repr

structure ScanCall where
  src : Sources
  config : PostprocessConfig
  kind : ScanKind
  delivered : List FileOutcome
  stop : Stop

section Calls

variable (h : Hashes) (path : String)

/-- A finished `open_db`. -/
def opened (disk : Disk Index.Database) : Disk Index.Database :=
  runSteps .empty (openDb path disk.main).1 disk

def Disk.commit (f : Index.Database → Index.Database) (disk : Disk Index.Database) :
    Disk Index.Database :=
  { disk with main := disk.main.map fun d => { d with rows := f d.rows } }

namespace ScanCall

/-- The requested paths, with all that the walk finds after a rebuild. -/
def requested (call : ScanCall) (requested : List String) : OpenOutcome → List String
  | .ready => requested
  | .rebuilt => requested ++ call.src.discover

def scan (call : ScanCall) (outcome : OpenOutcome) (d : Index.Database) : Index.Database :=
  match call.kind with
  | .full => scanFull h call.src call.config call.delivered d
  | .files requested =>
    scanFiles h call.src call.config (call.requested requested outcome) call.delivered d

/-- The transaction rolls back unless the call commits. -/
def run (call : ScanCall) (disk : Disk Index.Database) : Disk Index.Database :=
  match call.stop, (openDb path disk.main).2 with
  | .opening n, _ => openUpTo .empty path n disk
  | .uncommitted, _ => opened path disk
  | .committed, .error _ => opened path disk
  | .committed, .ok outcome => (opened path disk).commit (call.scan h outcome)

/-- A call that commits had all delivered that it set out to parse. -/
def Delivered (call : ScanCall) (disk : Disk Index.Database) : Prop :=
  call.stop = .committed → ∀ outcome d, (openDb path disk.main).2 = .ok outcome → (opened path disk).main = some d →
    match call.kind with
    | .full => Delivers call.src call.src.discover call.delivered
    | .files requested =>
      Delivers call.src (toParse h call.src (call.requested requested outcome) d.rows)
        call.delivered

def writes (call : ScanCall) (disk : Disk Index.Database) : List Step :=
  match call.stop with
  | .opening n => (openDb path disk.main).1.take n
  | _ => (openDb path disk.main).1

end ScanCall

/-- The disk, and the sources of the scans committed since the index was last
rebuilt, if it ever was. -/
structure History where
  disk : Disk Index.Database
  since : Option (List Sources)

def History.opening (call : ScanCall) (s : History) : Option (List Sources) :=
  if .removeMain ∈ call.writes path s.disk then some [] else s.since

def History.step (call : ScanCall) (s : History) : History where
  disk := call.run h path s.disk
  since :=
    match call.stop, (openDb path s.disk.main).2 with
    | .committed, .ok _ => (s.opening path call).map (· ++ [call.src])
    | _, _ => s.opening path call

/-- No scan of given files commits to an index that was rebuilt and not scanned
since, unless it rebuilt it; and its walk lists nothing that the path test excludes. -/
def Escalates (call : ScanCall) (s : History) : Prop :=
  call.stop = .committed → ∀ requested, call.kind = .files requested →
    call.src.Plain ∧ (s.since = some [] → (openDb path s.disk.main).2 ≠ .ok .ready)

/-- The histories of calls that all meet a condition. -/
inductive Histories (P : ScanCall → History → Prop) : History → Prop
  | start (disk : Disk Index.Database) : Histories P ⟨disk, none⟩
  | call {s : History} (call : ScanCall) (hs : Histories P s)
      (hdelivered : call.Delivered h path s.disk) (hcall : P call s) :
      Histories P (s.step h path call)

end Calls

section Opened

variable {h : Hashes} {path : String} {disk : Disk Index.Database}

/-- An index of the current schema. -/
def Database.Current (d : Database Index.Database) : Prop :=
  "files" ∈ d.tables ∧ d.version = some schemaVersion

theorem Statement.execute_version {γ : Type} (statement : Statement) (d : Database γ) :
    (statement.execute d).version = d.version := by
  cases statement <;> simp only [Statement.execute]
  split <;> rfl

theorem Statement.execute_rows {γ : Type} (statement : Statement) (d : Database γ) :
    (statement.execute d).rows = d.rows := by
  cases statement <;> simp only [Statement.execute]
  split <;> rfl

theorem Statement.execute_tables {γ : Type} {statement : Statement} {d : Database γ} {t : String}
    (ht : t ∈ d.tables) : t ∈ (statement.execute d).tables := by
  cases statement with
  | createTable name =>
    rw [Statement.execute]
    split
    · exact ht
    · exact List.mem_append_left _ ht
  | createIndex name => exact ht
  | createTrigger name => exact ht

def Disk.HasFiles (disk : Disk Index.Database) : Prop :=
  ∃ d, disk.main = some d ∧ "files" ∈ d.tables

theorem Disk.HasFiles.apply {step : Step} (hd : disk.HasFiles) (hremove : step ≠ .removeMain) :
    (step.apply Index.Database.empty disk).HasFiles := by
  obtain ⟨d, hmain, hfiles⟩ := hd
  cases step with
  | openMain => exact ⟨d, by rw [Step.apply, hmain]; rfl, hfiles⟩
  | execute statement =>
    exact ⟨statement.execute d, by rw [Step.apply, hmain]; rfl, Statement.execute_tables hfiles⟩
  | stampVersion =>
    exact ⟨{ d with version := some schemaVersion }, by rw [Step.apply, hmain]; rfl, hfiles⟩
  | removeMain => exact absurd rfl hremove
  | journalMode | openBackup | copyBackup | removeSidecar => exact ⟨d, hmain, hfiles⟩

theorem schemaSql_head : schemaSql = .createTable "files" :: schemaSql.tail := rfl

theorem Statement.createTable_mem {γ : Type} (name : String) (d : Database γ) :
    name ∈ ((Statement.createTable name).execute d).tables := by
  rw [Statement.execute]
  split
  · assumption
  · exact List.mem_append_right _ List.mem_cons_self

theorem created_current (disk : Disk Index.Database) :
    ∃ d, (runSteps Index.Database.empty (.openMain :: createCurrentSchema) disk).main = some d ∧
      d.Current := by
  have hsteps : Step.openMain :: createCurrentSchema =
      ([.openMain, .journalMode, .execute (.createTable "files")] ++
        schemaSql.tail.map .execute) ++ [.stampVersion] := by
    unfold createCurrentSchema
    rw [schemaSql_head, List.map_cons, List.tail_cons]
    simp only [List.cons_append, List.nil_append]
  have hfirst : (runSteps Index.Database.empty
      [.openMain, .journalMode, .execute (.createTable "files")] disk).HasFiles :=
    ⟨(Statement.createTable "files").execute (disk.main.getD ⟨[], none, .empty⟩), rfl,
      Statement.createTable_mem "files" _⟩
  rw [hsteps, runSteps_append, runSteps_append]
  have htail : ∀ step ∈ schemaSql.tail.map Step.execute, ∀ disk, Disk.HasFiles disk →
      (step.apply Index.Database.empty disk).HasFiles := fun step hstep _ hd =>
    hd.apply fun heq => by
      obtain ⟨statement, -, rfl⟩ := List.mem_map.mp hstep
      cases heq
  obtain ⟨d, hmain, hfiles⟩ := runSteps_induction htail hfirst
  have hstamp (disk : Disk Index.Database) :
      (runSteps Index.Database.empty [.stampVersion] disk).main =
        disk.main.map ({ · with version := some schemaVersion }) := rfl
  rw [hstamp, hmain]
  exact ⟨{ d with version := some schemaVersion }, rfl, hfiles, rfl⟩

/-- Replaying the schema keeps the version and the rows. -/
theorem runSteps_replayed {γ : Type} (fresh : γ) {disk : Disk γ} {d : Database γ}
    (hmain : disk.main = some d) {steps : List Step}
    (hsteps : ∀ step ∈ steps, step ∈ Step.openMain :: schemaSql.map .execute) :
    ∃ d', (runSteps fresh steps disk).main = some d' ∧ d'.version = d.version ∧
      d'.rows = d.rows ∧ ∀ t ∈ d.tables, t ∈ d'.tables := by
  refine runSteps_induction (P := fun disk => ∃ d', disk.main = some d' ∧
    d'.version = d.version ∧ d'.rows = d.rows ∧ ∀ t ∈ d.tables, t ∈ d'.tables)
    (fun step hstep disk' hd' => ?_) ⟨d, hmain, rfl, rfl, fun _ ht => ht⟩
  obtain ⟨d', hmain', hversion, hrows, htables⟩ := hd'
  rcases List.mem_cons.mp (hsteps step hstep) with rfl | hmem
  · exact ⟨d', by rw [Step.apply, hmain']; rfl, hversion, hrows, htables⟩
  · obtain ⟨statement, -, rfl⟩ := List.mem_map.mp hmem
    refine ⟨statement.execute d', by rw [Step.apply, hmain']; rfl, ?_, ?_, fun t ht => ?_⟩
    · rw [statement.execute_version, hversion]
    · rw [statement.execute_rows, hrows]
    · exact Statement.execute_tables (htables t ht)

theorem openDb_cases (path : String) (main : Option (Database Index.Database)) :
    (openDb path main = (.openMain :: createCurrentSchema, .ok .ready)) ∨
      (openDb path main = (.openMain :: backupAndRebuild, .ok .rebuilt)) ∨
      (∃ d, main = some d ∧ d.tables ≠ [] ∧ d.version = some schemaVersion ∧
        openDb path main = (.openMain :: schemaSql.map .execute, .ok .ready)) ∨
      ∃ message, openDb path main = ([.openMain], .error message) := by
  cases main with
  | none => exact .inl rfl
  | some d =>
    by_cases htables : d.tables = []
    · exact .inl (by rw [openDb, if_pos htables])
    · cases hversion : d.version with
      | none => exact .inr (.inl (by simp only [openDb, if_neg htables, hversion]))
      | some version =>
        by_cases hcurrent : version = schemaVersion
        · refine .inr (.inr (.inl ⟨d, rfl, htables, by rw [hversion, hcurrent], ?_⟩))
          simp only [openDb, if_neg htables, hversion, if_pos hcurrent]
        · by_cases hbelow : belowCurrent version
          · refine .inr (.inl ?_)
            simp only [openDb, if_neg htables, hversion, if_neg hcurrent, if_pos hbelow]
          · simp only [openDb, if_neg htables, hversion, if_neg hcurrent, if_neg hbelow]
            exact .inr (.inr (.inr ⟨_, rfl⟩))

/-- On an index of the current schema `open_db` has nothing to do. -/
theorem openDb_of_current {d : Database Index.Database} (hd : d.Current) :
    openDb path (some d) = (.openMain :: schemaSql.map .execute, .ok .ready) := by
  have htables : d.tables ≠ [] := List.ne_nil_of_mem hd.1
  simp only [openDb, if_neg htables, hd.2, if_true]

theorem current_kept (path : String) {d : Database Index.Database} (hd : d.Current) (hmain : disk.main = some d)
    {steps : List Step} (hsteps : ∀ step ∈ steps, step ∈ (openDb path disk.main).1) :
    ∃ d', (runSteps Index.Database.empty steps disk).main = some d' ∧ d'.Current ∧
      d'.rows = d.rows := by
  rw [hmain, openDb_of_current hd] at hsteps
  obtain ⟨d', hmain', hversion, hrows, htables⟩ :=
    runSteps_replayed Index.Database.empty hmain hsteps
  exact ⟨d', hmain', ⟨htables "files" hd.1, hversion.trans hd.2⟩, hrows⟩

theorem replayed_current {d : Database Index.Database} (hmain : disk.main = some d)
    (hversion : d.version = some schemaVersion) :
    ∃ d', (runSteps Index.Database.empty (.openMain :: schemaSql.map .execute) disk).main =
      some d' ∧ d'.Current := by
  have hsteps : Step.openMain :: schemaSql.map .execute =
      [.openMain, .execute (.createTable "files")] ++ schemaSql.tail.map .execute := by
    rw [schemaSql_head, List.map_cons, List.tail_cons]
    rfl
  have hfirst : (runSteps Index.Database.empty [.openMain, .execute (.createTable "files")]
      disk).main = some ((Statement.createTable "files").execute d) := by
    rw [runSteps, List.foldl_cons, Step.apply, hmain]
    rfl
  rw [hsteps, runSteps_append]
  obtain ⟨d', hmain', hversion', -, htables⟩ :=
    runSteps_replayed Index.Database.empty hfirst fun step hstep =>
      List.mem_cons_of_mem _ (by
        obtain ⟨statement, hstatement, rfl⟩ := List.mem_map.mp hstep
        exact List.mem_map_of_mem (List.mem_of_mem_tail hstatement))
  refine ⟨d', hmain', htables "files" (Statement.createTable_mem "files" d), ?_⟩
  rw [hversion', Statement.execute_version, hversion]

/-- A finished `open_db` leaves an index of the current schema. -/
theorem opened_current {outcome : OpenOutcome}
    (houtcome : (openDb path disk.main).2 = .ok outcome) :
    ∃ d, (opened path disk).main = some d ∧ d.Current := by
  unfold opened
  rcases openDb_cases path disk.main with hopen | hopen | ⟨d, hmain, -, hversion, hopen⟩ |
    ⟨message, hopen⟩
  · rw [hopen]
    exact created_current disk
  · have hsteps : Step.openMain :: backupAndRebuild =
        [.openMain, .openBackup, .copyBackup, .removeMain, .removeSidecar "-wal",
          .removeSidecar "-shm"] ++ (.openMain :: createCurrentSchema) := by
      unfold backupAndRebuild
      simp only [List.cons_append, List.nil_append]
    rw [hopen, hsteps, runSteps_append]
    exact created_current _
  · rw [hopen]
    exact replayed_current hmain hversion
  · rw [hopen] at houtcome
    cases houtcome

theorem rebuilt_of_removeMain (hmem : .removeMain ∈ (openDb path disk.main).1) :
    (openDb path disk.main).2 = .ok .rebuilt := by
  rcases openDb_cases path disk.main with hopen | hopen | ⟨_, -, -, -, hopen⟩ | ⟨message, hopen⟩
  · rw [hopen] at hmem
    exact absurd hmem (by decide)
  · rw [hopen]
  · rw [hopen] at hmem
    exact absurd hmem (by decide)
  · rw [hopen] at hmem
    cases List.mem_singleton.mp hmem

end Opened

section Coverage

variable {h : Hashes} {path : String} {s : History} {call : ScanCall}

/-- Once a scan has committed since the last rebuild, the index has every file
that the scans since then have all listed. -/
def History.Covered (s : History) : Prop :=
  ∀ committed, s.since = some committed → committed ≠ [] →
    ∃ d, s.disk.main = some d ∧ d.Current ∧
      ∀ rel, (∀ src ∈ committed, src.Lists rel) → d.rows.hasFile rel = true

theorem ScanCall.writes_sub (call : ScanCall) (disk : Disk Index.Database) :
    ∀ step ∈ call.writes path disk, step ∈ (openDb path disk.main).1 := by
  intro step hstep
  unfold ScanCall.writes at hstep
  split at hstep
  · exact List.mem_of_mem_take hstep
  · exact hstep

/-- Opening keeps what the scans since the last rebuild cover. -/
theorem History.Covered.opening (hs : s.Covered) :
    History.Covered ⟨runSteps .empty (call.writes path s.disk) s.disk, s.opening path call⟩ := by
  intro committed hsince hne
  unfold History.opening at hsince
  split at hsince
  · cases hsince
    exact absurd rfl hne
  · obtain ⟨d, hmain, hcurrent, hcovers⟩ := hs committed hsince hne
    obtain ⟨d', hmain', hcurrent', hrows⟩ :=
      current_kept path hcurrent hmain (call.writes_sub s.disk)
    exact ⟨d', hmain', hcurrent', by rw [hrows]; exact hcovers⟩

theorem scan_covers {d : Database Index.Database} {committed : List Sources}
    {outcome : OpenOutcome} (houtcome : (openDb path s.disk.main).2 = .ok outcome)
    (hmain : (opened path s.disk).main = some d) (hstop : call.stop = .committed)
    (hsince : s.opening path call = some committed)
    (hold : committed ≠ [] → ∀ rel, (∀ src ∈ committed, src.Lists rel) → d.rows.hasFile rel = true)
    (hdelivered : call.Delivered h path s.disk) (hcall : Escalates path call s)
    {rel : String} (hlists : ∀ src ∈ committed ++ [call.src], src.Lists rel) :
    (call.scan h outcome d.rows).hasFile rel = true := by
  have hlisted : call.src.Lists rel := hlists _ (List.mem_append_right _ List.mem_cons_self)
  have hdelivers := hdelivered hstop outcome d houtcome hmain
  unfold ScanCall.scan
  cases hkind : call.kind with
  | full =>
    rw [hkind] at hdelivers
    exact scanFull_hasFile hdelivers hlisted
  | files requested =>
    rw [hkind] at hdelivers
    obtain ⟨hplain, hescalates⟩ := hcall hstop requested hkind
    refine scanFiles_hasFile hdelivers hlisted (hplain rel hlisted.1)
      (discover_language hlisted.1) ?_
    by_cases hnil : committed = []
    · -- Nothing was scanned since the rebuild, so this call rebuilt the index.
      right
      cases outcome with
      | rebuilt => exact List.mem_append_right _ hlisted.1
      | ready =>
        have hkept : .removeMain ∉ call.writes path s.disk := fun hmem => by
          rw [rebuilt_of_removeMain (call.writes_sub s.disk _ hmem)] at houtcome
          cases houtcome
        rw [History.opening, if_neg hkept, hnil] at hsince
        exact absurd houtcome (hescalates hsince)
    · exact .inl (hold hnil rel fun src hsrc => hlists src (List.mem_append_left _ hsrc))

theorem History.Covered.step (hs : s.Covered) (hdelivered : call.Delivered h path s.disk)
    (hcall : Escalates path call s) : (s.step h path call).Covered := by
  have hopening : History.Covered ⟨runSteps .empty (call.writes path s.disk) s.disk,
    s.opening path call⟩ := hs.opening
  unfold History.step ScanCall.run
  cases hstop : call.stop with
  | opening n =>
    simp only [ScanCall.writes, hstop] at hopening
    exact hopening
  | uncommitted =>
    simp only [ScanCall.writes, hstop] at hopening
    exact hopening
  | committed =>
    simp only [ScanCall.writes, hstop] at hopening
    cases houtcome : (openDb path s.disk.main).2 with
    | error message => exact hopening
    | ok outcome =>
      intro committed hsince hne
      obtain ⟨before, hbefore, rfl⟩ := Option.map_eq_some_iff.mp hsince
      obtain ⟨d, hmain, hcurrent⟩ := opened_current houtcome
      refine ⟨{ d with rows := call.scan h outcome d.rows }, congrArg (Option.map _) hmain,
        hcurrent, fun rel hlists => ?_⟩
      refine scan_covers houtcome hmain hstop hbefore (fun hnil => ?_) hdelivered hcall hlists
      obtain ⟨d', hmain', -, hcovers⟩ := hopening before hbefore hnil
      have heq : d' = d := Option.some.inj (hmain'.symm.trans hmain)
      rw [← heq]
      exact hcovers

/-- Wherever calls are cut, a scan that commits first after a rebuild lists all
that its walk lists, and what every later scan still lists stays. -/
theorem rebuilt_index_is_covered (h : Hashes) (path : String) (s : History)
    (hs : Histories h path (Escalates path) s) :
    ∀ committed, s.since = some committed → committed ≠ [] →
      ∃ d, s.disk.main = some d ∧
        ∀ rel, (∀ src ∈ committed, src.Lists rel) → d.rows.hasFile rel = true := by
  have hcovered : s.Covered := by
    induction hs with
    | start disk => exact fun committed hsince => nomatch hsince
    | call call _ hdelivered hcall ih => exact History.Covered.step ih hdelivered hcall
  intro committed hsince hne
  obtain ⟨d, hmain, -, hcovers⟩ := hcovered committed hsince hne
  exact ⟨d, hmain, hcovers⟩

end Coverage

section Samples

open Discovery

theorem lib_slashless : '/' ∉ "lib".toList := by decide

theorem lib_notDot : "lib" ≠ "." := by decide

theorem workPy_slashless : '/' ∉ "work.py".toList := by decide

theorem workPy_notDot : "work.py" ≠ "." := by decide

def workPath : List Name := [⟨"lib", lib_slashless, lib_notDot⟩, ⟨"work.py", workPy_slashless, workPy_notDot⟩]

def parseWork (rel : String) : FileOutcome :=
  if rel = "lib/work.py" then .facts calleeFacts
  else .failed rel ("Unable to read source file: " ++ rel)

theorem parseWork_relPath (rel : String) : (parseWork rel).relPath = rel := by
  unfold parseWork
  split
  · rename_i hrel
    exact hrel.symm
  · rfl

theorem parseWork_exists (rel : String) (f : FileFacts) (hf : parseWork rel = .facts f) :
    (rel == "lib/work.py") = true := by
  unfold parseWork at hf
  split at hf
  · rename_i hrel
    exact beq_iff_eq.mpr hrel
  · cases hf

/-- A tree of one file, with nothing excluded. -/
def oneFile : Sources where
  normcase := id
  config := ⟨[]⟩
  root := [(⟨"lib", lib_slashless, lib_notDot⟩,
    .dir [(⟨"work.py", workPy_slashless, workPy_notDot⟩, .file)])]
  existsAt := fun rel => rel == "lib/work.py"
  parseOne := parseWork
  identityCandidates := fun _ _ => [⟨"1", "ast", "\x7b\x7d"⟩]
  parseOne_relPath := parseWork_relPath
  existsAt_of_facts := parseWork_exists

def oldDisk : Disk Index.Database := ⟨some ⟨["files", "meta"], some "7.0.0", .empty⟩, none⟩

def scanNothing (delivered : List FileOutcome) (stop : Stop) : ScanCall :=
  ⟨oneFile, .default, .files [], delivered, stop⟩

/-- The rebuild of this history is cut before it commits. -/
def cutHistory : History :=
  History.step plainHashes "logic_index.db" (scanNothing [] .uncommitted) ⟨oldDisk, none⟩

def laterHistory : History :=
  cutHistory.step plainHashes "logic_index.db" (scanNothing [] .committed)

/-- The scan calls of the two histories, evaluated. -/
theorem calls_evaluated :
    (("lib/work.py" ∈ oneFile.discover) ∧
      .removeMain ∈ (scanNothing [] .uncommitted).writes "logic_index.db" oldDisk ∧
      .removeMain ∉ (scanNothing [] .committed).writes "logic_index.db" cutHistory.disk) ∧
    ((openDb "logic_index.db" cutHistory.disk.main).2.toOption = some .ready ∧
      ((opened "logic_index.db" cutHistory.disk).main.map fun d =>
        toParse plainHashes oneFile [] d.rows) = some []) ∧
    (laterHistory.disk.main.map fun d => d.rows.hasFile "lib/work.py") = some false ∧
    ((opened "logic_index.db" oldDisk).main.map fun d =>
      toParse plainHashes oneFile (oneFile.discover) d.rows) = some ["lib/work.py"] := by
  decide +kernel

theorem oneFile_lists : oneFile.Lists "lib/work.py" :=
  ⟨calls_evaluated.1.1, calleeFacts, rfl⟩

theorem cut_rebuilds :
    .removeMain ∈ (scanNothing [] .uncommitted).writes "logic_index.db" oldDisk :=
  calls_evaluated.1.2.1

theorem later_keeps :
    .removeMain ∉ (scanNothing [] .committed).writes "logic_index.db" cutHistory.disk :=
  calls_evaluated.1.2.2

theorem cut_since : cutHistory.since = some [] := by
  unfold cutHistory History.step History.opening
  rw [if_pos cut_rebuilds]
  rfl

theorem cut_ready : (openDb "logic_index.db" cutHistory.disk.main).2 = .ok .ready := by
  have hoption : (openDb "logic_index.db" cutHistory.disk.main).2.toOption = some .ready :=
    calls_evaluated.2.1.1
  cases hopen : (openDb "logic_index.db" cutHistory.disk.main).2 with
  | error message =>
    rw [hopen] at hoption
    cases hoption
  | ok outcome =>
    rw [hopen] at hoption
    rw [Option.some.inj hoption]

theorem cut_parses : ((opened "logic_index.db" cutHistory.disk).main.map fun d =>
    toParse plainHashes oneFile [] d.rows) = some [] := calls_evaluated.2.1.2

theorem later_misses : (laterHistory.disk.main.map fun d => d.rows.hasFile "lib/work.py") =
    some false := calls_evaluated.2.2.1

/-- The next scan of no files commits, and the index lacks what its walk lists. -/
theorem cut_rebuild_stays_partial :
    Histories plainHashes "logic_index.db" (fun _ _ => True) laterHistory ∧
      laterHistory.since = some [oneFile] ∧ oneFile.Lists "lib/work.py" ∧
      ∃ d, laterHistory.disk.main = some d ∧ d.rows.hasFile "lib/work.py" = false := by
  refine ⟨.call _ (.call _ (.start oldDisk) (fun hstop => nomatch hstop) trivial) ?_ trivial,
    ?_, oneFile_lists, Option.map_eq_some_iff.mp later_misses⟩
  · intro _ outcome d houtcome hmain
    have hparses := cut_parses
    rw [hmain] at hparses
    rw [cut_ready] at houtcome
    cases houtcome
    change Delivers oneFile (toParse plainHashes oneFile [] d.rows) []
    have hparse : toParse plainHashes oneFile [] d.rows = [] := Option.some.inj hparses
    rw [hparse]
    exact .refl _
  · unfold laterHistory History.step History.opening
    rw [cut_ready, if_neg later_keeps, cut_since]
    rfl

theorem oneFile_plain : oneFile.Plain := fun _ _ => rfl

def rebuiltHistory : History :=
  History.step plainHashes "logic_index.db" (scanNothing [.facts calleeFacts] .committed)
    ⟨oldDisk, none⟩

theorem old_parses : ((opened "logic_index.db" oldDisk).main.map fun d =>
    toParse plainHashes oneFile (oneFile.discover) d.rows) = some ["lib/work.py"] :=
  calls_evaluated.2.2.2

theorem old_rebuilt : (openDb "logic_index.db" oldDisk.main).2 = .ok .rebuilt :=
  rebuilt_of_removeMain cut_rebuilds

/-- A rebuild that commits. -/
theorem rebuilt_index_is_covered_committed :
    ∃ d, rebuiltHistory.disk.main = some d ∧
      ∀ rel, (∀ src ∈ [oneFile], src.Lists rel) → d.rows.hasFile rel = true := by
  refine rebuilt_index_is_covered plainHashes "logic_index.db" rebuiltHistory
    (.call _ (.start oldDisk) ?_ ?_) [oneFile] ?_ (List.cons_ne_nil _ _)
  · intro _ outcome d houtcome hmain
    have hparses := old_parses
    rw [hmain] at hparses
    rw [old_rebuilt] at houtcome
    cases houtcome
    change Delivers oneFile (toParse plainHashes oneFile oneFile.discover d.rows)
      [.facts calleeFacts]
    have hparse : toParse plainHashes oneFile oneFile.discover d.rows = ["lib/work.py"] :=
      Option.some.inj hparses
    rw [hparse]
    exact .refl _
  · intro _ requested _
    refine ⟨oneFile_plain, fun hsince => nomatch hsince⟩
  · have hopening : History.opening "logic_index.db" (scanNothing [.facts calleeFacts] .committed)
        ⟨oldDisk, none⟩ = some [] := if_pos cut_rebuilds
    unfold rebuiltHistory History.step
    rw [old_rebuilt, hopening]
    rfl

end Samples

end RemyCC.Opening
