import RemyCC.State.Operations

/-!
# What the submissions do to the rows

One specification for each operation: the rows afterwards as a map over the
rows before, with at most one row appended, and the errors it can end in.
Callers use these and never unfold the operations.
-/

namespace RemyCC.State

open Relational Database

section Register

variable {db : Database} {key path dbPath : String} {now : Int}

/-- The projects after the upsert: the row of the key rewritten, or a new row. -/
inductive Registered (db : Database) (key path dbPath : String) (now : Int)
    (db' : Database) : Prop
  | updated (p : ProjectRow) (mem : p ∈ db.projects.rows) (hkey : p.projectKey = key)
      (rows : db'.projects.rows = db.projects.rows.map (Table.apply (·.projectKey = key)
        fun p => { p with projectPath := path, dbPath := dbPath, lastSeenAt := now }))
      (jobs : db'.jobs = db.jobs)
  | inserted (id : Int) (fresh : ∀ p ∈ db.projects.rows, p.projectKey ≠ key)
      (rows : db'.projects.rows = db.projects.rows ++
        [{ id := id, projectKey := key, projectPath := path, dbPath := dbPath,
           createdAt := now, lastSeenAt := now }])
      (jobs : db'.jobs = db.jobs)

theorem Registered.jobs_eq {db' : Database} (h : Registered db key path dbPath now db') :
    db'.jobs = db.jobs := by
  cases h <;> assumption

/-- Every project stays registered, under its id and key. -/
theorem Registered.kept {db' : Database} (h : Registered db key path dbPath now db')
    {p : ProjectRow} (hp : p ∈ db.projects.rows) :
    ∃ p' ∈ db'.projects.rows, p'.id = p.id ∧ p'.projectKey = p.projectKey ∧
      p'.createdAt = p.createdAt := by
  cases h with
  | updated _ _ _ rows _ =>
    refine ⟨_, rows ▸ List.mem_map.mpr ⟨p, hp, rfl⟩, ?_⟩
    unfold Table.apply
    split <;> simp
  | inserted _ _ rows _ => exact ⟨p, rows ▸ List.mem_append_left _ hp, rfl, rfl, rfl⟩

theorem Registered.named {db' : Database} (h : Registered db key path dbPath now db') :
    ∃ p ∈ db'.projects.rows, p.projectKey = key ∧ p.projectPath = path ∧ p.dbPath = dbPath := by
  cases h with
  | updated p mem hkey rows _ =>
    refine ⟨_, rows ▸ List.mem_map.mpr ⟨p, mem, rfl⟩, ?_⟩
    simp [Table.apply, hkey]
  | inserted id _ rows _ =>
    rw [rows]
    exact ⟨_, List.mem_append_right _ (List.mem_singleton_self _), rfl, rfl, rfl⟩

theorem Registered.createdAt {db' : Database} (h : Registered db key path dbPath now db')
    {p : ProjectRow} (hp : p ∈ db'.projects.rows) :
    p.createdAt = now ∨ ∃ q ∈ db.projects.rows, q.createdAt = p.createdAt := by
  cases h with
  | updated _ _ _ rows _ =>
    rw [rows] at hp
    obtain ⟨q, hq, rfl⟩ := List.mem_map.mp hp
    refine .inr ⟨q, hq, ?_⟩
    unfold Table.apply
    split <;> rfl
  | inserted _ _ rows _ =>
    rw [rows] at hp
    rcases List.mem_append.mp hp with hp | hp
    · exact .inr ⟨p, hp, rfl⟩
    · rw [List.mem_singleton.mp hp]
      exact .inl rfl

theorem withProjects_yields {projects : Table projectsTable}
    (h : ∀ p ∈ db.projects.rows, ∃ q ∈ projects.rows, q.id = p.id) (err : StateError → Prop) :
    Yields (db.withProjects projects) (fun db' => db'.projects = projects ∧ db'.jobs = db.jobs)
      err := by
  have href : References projects.rows db.jobs.rows := by
    intro r hr
    obtain ⟨p, hp, hid⟩ := (db.references r hr).1
    obtain ⟨q, hq, hqid⟩ := h p hp
    exact ⟨⟨q, hq, hqid.trans hid⟩, (db.references r hr).2⟩
  rw [withProjects, dif_pos href]
  exact ⟨rfl, rfl⟩

theorem lt_freshProjectId {p : ProjectRow} (hp : p ∈ db.projects.rows) :
    p.id < nextRowId (db.projects.rows.map (·.id)) :=
  lt_nextRowId (List.mem_map.mpr ⟨p, hp, rfl⟩)

theorem updateProject_safe (h : ∀ p ∈ db.projects.rows, p.projectKey = key → p.createdAt ≤ now) :
    Table.Safe projectsTable (fun p : ProjectRow => p.projectKey = key)
      (fun p => { p with projectPath := path, dbPath := dbPath, lastSeenAt := now })
      db.projects.rows := by
  refine Table.safe_of_key ProjectRow.projectKey _ ?_ ?_ ?_ ?_
  · exact fun p q hpq => .inr hpq
  · exact fun p _ q _ hp hq => hp.trans hq.symm
  · intro p hp hkey
    exact ⟨(db.projects.checked p hp).1, h p hp hkey⟩
  · rintro p hp - q hq hne (hid | hkey)
    · exact hne (congrArg ProjectRow.projectKey (db.project_ext hp hq hid))
    · exact hne hkey

/-- Registration only fails on a clock that has gone back behind `created_at`. -/
theorem registerProject_yields (hnow : 0 ≤ now) :
    Yields (registerProject db key path dbPath now) (Registered db key path dbPath now)
      (fun _ => ∃ p ∈ db.projects.rows, p.projectKey = key ∧ now < p.createdAt) := by
  unfold registerProject
  refine Yields.ite ?_ ?_
  · rintro ⟨p, hp, hkey⟩
    unfold Database.updateProjects
    refine Yields.through (fun u => u.1.rows = db.projects.rows.map
      (Table.apply (·.projectKey = key)
        fun p => { p with projectPath := path, dbPath := dbPath, lastSeenAt := now })) ?_ ?_
    · by_cases hclock : ∀ p ∈ db.projects.rows, p.projectKey = key → p.createdAt ≤ now
      · exact Yields.liftError ((Table.update_yields _ (updateProject_safe hclock) _).mono
          (fun _ _ h => h.1) (fun _ h => h))
      · refine Yields.liftError ?_
        cases hu : db.projects.update (·.projectKey = key) fun p =>
          { p with projectPath := path, dbPath := dbPath, lastSeenAt := now } with
        | ok u => exact (Table.update_rows hu).1
        | error e =>
          push Not at hclock
          exact hclock
    · rintro ⟨projects, count⟩ - hrows
      refine (withProjects_yields ?_ _).mono ?_ (fun _ h => h)
      · intro q hq
        refine ⟨_, hrows ▸ List.mem_map.mpr ⟨q, hq, rfl⟩, ?_⟩
        unfold Table.apply
        split <;> rfl
      · rintro db' - ⟨hprojects, hjobs⟩
        exact .updated p hp hkey (hprojects ▸ hrows) hjobs
  · intro hfresh
    unfold Database.insertProject
    have hne : ∀ p ∈ db.projects.rows, p.projectKey ≠ key := fun p hp hk => hfresh ⟨p, hp, hk⟩
    have hcheck : ProjectRow.Check
        { id := nextRowId (db.projects.rows.map (·.id)), projectKey := key, projectPath := path,
          dbPath := dbPath, createdAt := now, lastSeenAt := now } := ⟨hnow, le_refl _⟩
    refine Yields.bind (Yields.liftError (Table.insert_yields _ _ hcheck ?_ _)) ?_
    · rintro q hq (hid | hk)
      · exact absurd hid (ne_of_gt (lt_freshProjectId hq))
      · exact hne q hq hk.symm
    · intro projects _ hrows
      refine (withProjects_yields ?_ _).mono ?_ (fun _ h => h)
      · intro q hq
        exact ⟨q, hrows ▸ List.mem_append_left _ hq, rfl⟩
      · rintro db' - ⟨hprojects, hjobs⟩
        exact .inserted _ hne (hprojects ▸ hrows) hjobs

end Register

section Enqueue

variable {db : Database} {projectId now : Int} {dbPath filePath : String} {priority : JobPriority}

/-- The row of a submission that a pending full scan absorbs. -/
def absorbedRow (projectId : Int) (dbPath filePath : String) (priority : JobPriority) (now : Int)
    (fullScanId id : Int) : JobRow :=
  { newJobRow projectId .incrementalScan dbPath filePath priority .superseded now
      (incrementalDedupeKey filePath) id
    with finishedAt := some now, supersededByJobId := some fullScanId }

def queuedRow (projectId : Int) (dbPath filePath : String) (priority : JobPriority) (now : Int)
    (id : Int) : JobRow :=
  newJobRow projectId .incrementalScan dbPath filePath priority .pending now
    (incrementalDedupeKey filePath) id

def raiseRow (jobId : Int) (priority : JobPriority) (r : JobRow) : JobRow :=
  Table.apply (·.id = jobId) (fun r => { r with priority := r.priority.max priority }) r

theorem editOk_priority {r : JobRow} (hr : r ∈ db.jobs.rows) (p : JobPriority) :
    EditOk db r { r with priority := p } := by
  have hcheck : r.Check := check hr
  exact ⟨rfl, rfl, hcheck, fun h => .inl h, fun h => .inl h, fun _ h => .inl h⟩

/-- The three ways a submission enters the queue. -/
inductive Enqueued (db : Database) (projectId : Int) (dbPath filePath : String)
    (priority : JobPriority) (now : Int) (db' : Database) (result : SubmitResult) : Prop
  | absorbed (fullScan : JobRow) (found : pendingFullScan? db projectId = some fullScan)
      (rows : db'.jobs.rows = db.jobs.rows ++
        [absorbedRow projectId dbPath filePath priority now fullScan.id db.freshId])
      (p : ProjectRow) (project : db'.project? projectId = some p)
      (job : result.job =
        (absorbedRow projectId dbPath filePath priority now fullScan.id db.freshId).toJob p)
      (rest : SameRest db db')
  | deduped (twin : JobRow) (alone : pendingFullScan? db projectId = none)
      (found : pendingTwin? db projectId (incrementalDedupeKey filePath) = some twin)
      (rows : db'.jobs.rows = db.jobs.rows.map (raiseRow twin.id priority))
      (p : ProjectRow) (project : db'.project? projectId = some p)
      (job : result.job = (raiseRow twin.id priority twin).toJob p) (rest : SameRest db db')
  | queued (alone : pendingFullScan? db projectId = none)
      (fresh : pendingTwin? db projectId (incrementalDedupeKey filePath) = none)
      (rows : db'.jobs.rows = db.jobs.rows ++
        [queuedRow projectId dbPath filePath priority now db.freshId])
      (p : ProjectRow) (project : db'.project? projectId = some p)
      (job : result.job = (queuedRow projectId dbPath filePath priority now db.freshId).toJob p)
      (rest : SameRest db db')

theorem pendingFullScan?_eq_some {r : JobRow} (h : pendingFullScan? db projectId = some r) :
    r ∈ db.jobs.rows ∧ r.projectId = projectId ∧ r.jobType = .fullScan ∧ r.status = .pending :=
  ⟨List.mem_of_find?_eq_some h, by simpa using List.find?_some h⟩

theorem pendingFullScan?_eq_none (h : pendingFullScan? db projectId = none) :
    ∀ r ∈ db.jobs.rows, r.projectId = projectId → r.jobType = .fullScan → r.status ≠ .pending := by
  simpa [pendingFullScan?] using h

theorem pendingTwin?_eq_some {dedupeKey : String} {r : JobRow}
    (h : pendingTwin? db projectId dedupeKey = some r) :
    r ∈ db.jobs.rows ∧ r.projectId = projectId ∧ r.jobType = .incrementalScan ∧
      r.dedupeKey = dedupeKey ∧ r.status = .pending :=
  ⟨List.mem_of_find?_eq_some h, by simpa using List.find?_some h⟩

theorem pendingTwin?_eq_none {dedupeKey : String} (h : pendingTwin? db projectId dedupeKey = none) :
    ∀ r ∈ db.jobs.rows, r.key = (projectId, .incrementalScan, dedupeKey) → r.status ≠ .pending := by
  intro r hr hkey
  simp only [JobRow.key, Prod.mk.injEq] at hkey
  have hnone := List.find?_eq_none.mp h r hr
  simp only [decide_eq_true_eq] at hnone
  exact fun hp => hnone ⟨hkey.1, hkey.2.1, hkey.2.2, hp⟩

theorem absorbedRow_check (hnow : 0 ≤ now) (fullScanId id : Int) :
    (absorbedRow projectId dbPath filePath priority now fullScanId id).Check := by
  simp [JobRow.Check, JobRow.ProgressCheck, JobRow.TimeCheck, JobRow.PayloadCheck,
    JobRow.SupersededCheck, absorbedRow, newJobRow, hnow]

theorem newJobRow_check (hnow : 0 ≤ now) (jobType : JobType) (dedupeKey : String) (id : Int) :
    (newJobRow projectId jobType dbPath filePath priority .pending now dedupeKey id).Check := by
  simp [JobRow.Check, JobRow.ProgressCheck, JobRow.TimeCheck, JobRow.PayloadCheck,
    JobRow.SupersededCheck, newJobRow, hnow]

theorem enqueue_yields (hnow : 0 ≤ now) (hproject : ∃ p ∈ db.projects.rows, p.id = projectId)
    (err : StateError → Prop) :
    Yields (enqueue db projectId dbPath filePath priority now)
      (fun r => Enqueued db projectId dbPath filePath priority now r.1 r.2) err := by
  unfold enqueue
  cases hfull : pendingFullScan? db projectId with
  | some fullScan =>
    obtain ⟨hmem, -, -, -⟩ := pendingFullScan?_eq_some hfull
    have hok : InsertOk db
        (absorbedRow projectId dbPath filePath priority now fullScan.id db.freshId) :=
      { id := rfl
        check := absorbedRow_check hnow _ _
        pending := fun h => by cases h
        executing := by rintro (h | h) <;> cases h
        project := hproject
        superseded := by
          intro k hk
          simp only [absorbedRow, Option.mem_some_iff] at hk
          exact ⟨fullScan, hmem, hk⟩ }
    refine Yields.bind (insertJob_yields
      (absorbedRow projectId dbPath filePath priority now fullScan.id) hok err) ?_
    rintro ⟨db', id⟩ - ⟨hid, hrows, hrest⟩
    simp only at hid hrows hrest
    subst hid
    refine (loaded_yields (r := absorbedRow projectId dbPath filePath priority now fullScan.id
      db.freshId) (by simp [hrows]) _ err).mono ?_ (fun _ h => h)
    rintro _ - ⟨p, hp, rfl⟩
    exact .absorbed fullScan hfull hrows p hp rfl hrest
  | none =>
    cases htwin : pendingTwin? db projectId (incrementalDedupeKey filePath) with
    | some twin =>
      obtain ⟨hmem, hpid, -, -, -⟩ := pendingTwin?_eq_some htwin
      refine Yields.bind (updateJob_yields db twin.id (fun _ h => h) ?_ err) ?_
      · exact fun r hr _ => editOk_priority hr _
      · rintro ⟨db', count⟩ - ⟨hrows, -, hrest⟩
        simp only at hrows hrest
        have hid : (raiseRow twin.id priority twin).id = twin.id := by simp [raiseRow, Table.apply]
        have hpid' : (raiseRow twin.id priority twin).projectId = projectId := by
          simp [raiseRow, Table.apply, hpid]
        have hmem' : raiseRow twin.id priority twin ∈ db'.jobs.rows :=
          hrows ▸ List.mem_map.mpr ⟨twin, hmem, rfl⟩
        have hload := loaded_yields hmem' (fun job => (db', SubmitResult.mk job false)) err
        rw [hid] at hload
        refine hload.mono ?_ (fun _ h => h)
        rintro _ - ⟨p, hp, rfl⟩
        exact .deduped twin hfull htwin hrows p (hpid' ▸ hp) rfl hrest
    | none =>
      have hok : InsertOk db (queuedRow projectId dbPath filePath priority now db.freshId) :=
        { id := rfl
          check := newJobRow_check hnow _ _ _
          pending := fun _ s hs hkey => pendingTwin?_eq_none htwin s hs hkey
          executing := by rintro (h | h) <;> cases h
          project := hproject
          superseded := fun k hk => by cases hk }
      refine Yields.bind (insertJob_yields
        (queuedRow projectId dbPath filePath priority now) hok err) ?_
      rintro ⟨db', id⟩ - ⟨hid, hrows, hrest⟩
      simp only at hid hrows hrest
      subst hid
      refine (loaded_yields (r := queuedRow projectId dbPath filePath priority now db.freshId)
        (by simp [hrows]) _ err).mono ?_ (fun _ h => h)
      rintro _ - ⟨p, hp, rfl⟩
      exact .queued hfull htwin hrows p hp rfl hrest

end Enqueue

section Submit

variable {fs : FileSystem} {now : Int} {request : SubmitJob} {db : Database}

theorem notConstraint_io (message : String) : NotConstraint (.io message) :=
  fun c => by simp [StateError.constraint]

theorem notConstraint_invalidInput (message : String) : NotConstraint (.invalidInput message) :=
  fun c => by simp [StateError.constraint]

theorem canonicalize_yields (answer : Except String String) :
    Yields (liftError StateError.io answer) (fun _ => True) NotConstraint := by
  cases answer with
  | ok _ => trivial
  | error message => exact notConstraint_io message

theorem normalizeExistingProject_yields (value : String) :
    Yields (normalizeExistingProject fs value) (fun _ => True) NotConstraint :=
  Yields.ite (fun _ => notConstraint_invalidInput _) (fun _ => canonicalize_yields _)

theorem existingAncestor_yields (parts : List Component) (suffix : List String) :
    Yields (existingAncestor fs parts suffix) (fun _ => True) NotConstraint := by
  induction parts generalizing suffix with
  | nil =>
    unfold existingAncestor
    exact Yields.ite (fun _ => trivial) (fun _ => notConstraint_invalidInput _)
  | cons part parts ih =>
    unfold existingAncestor
    refine Yields.ite (fun _ => trivial) (fun _ => ?_)
    cases part with
    | normal name => exact ih _
    | curDir | parentDir => exact notConstraint_invalidInput _

theorem normalizeDatabasePath_yields (value : String) :
    Yields (normalizeDatabasePath fs value) (fun _ => True) NotConstraint := by
  refine Yields.ite (fun _ => ?_) (fun _ => notConstraint_invalidInput _)
  refine Yields.bind (existingAncestor_yields _ _) fun _ _ _ => ?_
  exact Yields.bind (canonicalize_yields _) fun _ _ _ => trivial

theorem normalizeSourcePath_yields (value : String) :
    Yields (normalizeSourcePath value) (fun _ => True) NotConstraint := by
  refine Yields.ite (fun _ => notConstraint_invalidInput _) (fun _ => ?_)
  cases (components value).mapM normalName? with
  | none => exact notConstraint_invalidInput _
  | some parts =>
    exact Yields.ite (fun _ => trivial) (fun _ => notConstraint_invalidInput _)

/-- An accepted submission: its normalised paths, the registration of its
project and the row it entered the queue by. -/
structure Submitted (fs : FileSystem) (now : Int) (request : SubmitJob) (db : Database)
    (projectPath dbPath filePath : String) (registered : Database) (project : ProjectRow)
    (db' : Database) (result : SubmitResult) : Prop where
  project_eq : normalizeExistingProject fs request.projectPath = .ok projectPath
  db_eq : normalizeDatabasePath fs request.dbPath = .ok dbPath
  file_eq : normalizeSourcePath request.filePath = .ok filePath
  readable : Readable now
  register : Registered db (projectKey projectPath) projectPath dbPath now registered
  mem : project ∈ registered.projects.rows
  keyed : project.projectKey = projectKey projectPath
  enqueued : Enqueued registered project.id dbPath filePath request.priority now db' result

theorem submit_yields :
    Yields (submit fs now request db)
      (fun r => ∃ projectPath dbPath filePath registered project,
        Submitted fs now request db projectPath dbPath filePath registered project r.1 r.2)
      (fun e => NotConstraint e ∨ ∃ projectPath dbPath filePath,
        normalizeExistingProject fs request.projectPath = .ok projectPath ∧
        normalizeDatabasePath fs request.dbPath = .ok dbPath ∧
        normalizeSourcePath request.filePath = .ok filePath ∧
        ∃ p ∈ db.projects.rows, p.projectKey = projectKey projectPath ∧ now < p.createdAt) := by
  unfold submit
  refine Yields.bind ((normalizeExistingProject_yields _).mono (fun _ _ h => h)
    (fun _ h => .inl h)) fun projectPath hpath _ => ?_
  refine Yields.bind ((normalizeDatabasePath_yields _).mono (fun _ _ h => h)
    (fun _ h => .inl h)) fun dbPath hdb _ => ?_
  refine Yields.bind ((normalizeSourcePath_yields _).mono (fun _ _ h => h)
    (fun _ h => .inl h)) fun filePath hfile _ => ?_
  refine Yields.bind ((nowMillis_yields now).mono (fun _ _ h => h)
    (fun _ h => .inl h.1)) ?_
  rintro _ - ⟨rfl, hnow⟩
  refine Yields.bind ((registerProject_yields hnow.1).mono (fun _ _ h => h)
    (fun _ h => .inr ⟨projectPath, dbPath, filePath, hpath, hdb, hfile, h⟩)) fun registered _ hreg => ?_
  cases hfind : registered.projects.rows.find? (·.projectKey = projectKey projectPath) with
  | none =>
    obtain ⟨p, hp, hkey, -⟩ := hreg.named
    have hnone := List.find?_eq_none.mp hfind p hp
    simp [hkey] at hnone
  | some project =>
    have hmem := List.mem_of_find?_eq_some hfind
    refine (enqueue_yields hnow.1 ⟨project, hmem, rfl⟩ _).mono ?_ (fun _ h => h)
    intro r _ henq
    exact ⟨projectPath, dbPath, filePath, registered, project, hpath, hdb, hfile, hnow, hreg, hmem,
      by simpa using List.find?_some hfind, henq⟩

end Submit

section SubmitFullScan

variable {now projectId : Int} {db : Database}

def fullScanRow (projectId : Int) (dbPath : String) (now id : Int) : JobRow :=
  newJobRow projectId .fullScan dbPath "." .background .pending now fullScanDedupeKey id

/-- The queue-level fold of one row. -/
def foldRow (projectId now fullScanId : Int) (r : JobRow) : JobRow :=
  Table.apply
    (fun r => r.projectId = projectId ∧ r.jobType = .incrementalScan ∧ r.status = .pending)
    (transitionEdit .pending .superseded now (some fullScanId)) r

theorem foldRow_fullScanRow (dbPath : String) (fullScanId id : Int) :
    foldRow projectId now fullScanId (fullScanRow projectId dbPath now id) =
      fullScanRow projectId dbPath now id := by
  simp [foldRow, Table.apply, fullScanRow, newJobRow]

inductive FullScanSubmitted (now projectId : Int) (db db' : Database)
    (result : SubmitResult) : Prop
  | existing (project : ProjectRow) (registered : db.project? projectId = some project)
      (active : JobRow) (found : activeFullScan? db projectId = some active) (same : db' = db)
      (job : result.job = active.toJob project)
  | created (project : ProjectRow) (registered : db.project? projectId = some project)
      (inactive : activeFullScan? db projectId = none) (readable : Readable now)
      (rows : db'.jobs.rows = db.jobs.rows.map (foldRow projectId now db.freshId) ++
        [fullScanRow projectId project.dbPath now db.freshId])
      (job : result.job = (fullScanRow projectId project.dbPath now db.freshId).toJob project)
      (rest : SameRest db db')

theorem activeFullScan?_eq_some {r : JobRow} (h : activeFullScan? db projectId = some r) :
    r ∈ db.jobs.rows ∧ r.projectId = projectId ∧ r.jobType = .fullScan ∧
      (r.status = .pending ∨ r.status = .running ∨ r.status = .cancelRequested) :=
  ⟨List.mem_of_find?_eq_some h, by simpa using List.find?_some h⟩

theorem activeFullScan?_eq_none (h : activeFullScan? db projectId = none) {r : JobRow}
    (hr : r ∈ db.jobs.rows) (hpid : r.projectId = projectId) (htype : r.jobType = .fullScan) :
    r.status ≠ .pending ∧ ¬ r.status.executing := by
  have hnone := List.find?_eq_none.mp h r hr
  simp only [decide_eq_true_eq, hpid, htype, true_and] at hnone
  exact ⟨fun hp => hnone (.inl hp), fun he => hnone (.inr he)⟩

theorem submitFullScan_yields :
    Yields (submitFullScan now projectId db)
      (fun r => FullScanSubmitted now projectId db r.1 r.2)
      (fun e => NotConstraint e ∧ (Readable now → db.project? projectId = none)) := by
  unfold submitFullScan
  refine Yields.bind ((nowMillis_yields now).mono (fun _ _ h => h)
    (fun _ h => ⟨h.1, fun hnow => absurd hnow h.2⟩)) ?_
  rintro _ - ⟨rfl, hnow⟩
  cases hproject : db.project? projectId with
  | none => exact ⟨notConstraint_invalidInput _, fun _ => rfl⟩
  | some project =>
    obtain ⟨hpmem, hpid⟩ := project?_eq_some.mp hproject
    cases hactive : activeFullScan? db projectId with
    | some active =>
      obtain ⟨hmem, hapid, -, -⟩ := activeFullScan?_eq_some hactive
      refine (loaded_yields hmem _ _).mono ?_ (fun _ h => h)
      rintro _ - ⟨p, hp, rfl⟩
      rw [hapid, hproject] at hp
      cases hp
      exact .existing project hproject active hactive rfl rfl
    | none =>
      have hok : InsertOk db (fullScanRow projectId project.dbPath now db.freshId) :=
        { id := rfl
          check := newJobRow_check hnow.1 _ _ _
          pending := by
            intro _ s hs hkey
            simp only [JobRow.key, Prod.mk.injEq] at hkey
            exact (activeFullScan?_eq_none hactive hs hkey.1 hkey.2.1).1
          executing := by rintro (h | h) <;> cases h
          project := ⟨project, hpmem, hpid⟩
          superseded := fun k hk => by cases hk }
      refine Yields.bind (insertJob_yields (fullScanRow projectId project.dbPath now) hok _) ?_
      rintro ⟨mid, id⟩ - ⟨hid, hrows, hrest⟩
      simp only at hid hrows hrest
      subst hid
      have hnew : fullScanRow projectId project.dbPath now db.freshId ∈ mid.jobs.rows := by
        simp [hrows]
      refine Yields.bind (updateJobs_yields_of_terminal mid ?_ ?_ _) ?_
      · exact fun r => .inr (.inr (.inr rfl))
      · rintro r hr ⟨-, -, hstatus⟩
        exact transitionEdit_ok hr hstatus .fold (fun h => by cases h) (fun h => by cases h)
          (fun _ => ⟨db.freshId, rfl, _, hnew, rfl⟩)
      · rintro ⟨db', count⟩ - ⟨hrows', -, hrest'⟩
        simp only at hrows' hrest'
        have hmap : db'.jobs.rows = db.jobs.rows.map (foldRow projectId now db.freshId) ++
            [fullScanRow projectId project.dbPath now db.freshId] := by
          rw [hrows', hrows, List.map_append]
          change List.map (foldRow _ _ _) _ ++ [foldRow _ _ _ _] = _
          rw [foldRow_fullScanRow]
        have hmem' : fullScanRow projectId project.dbPath now db.freshId ∈ db'.jobs.rows := by
          simp [hmap]
        refine (loaded_yields hmem' _ _).mono ?_ (fun _ h => h)
        rintro _ - ⟨p, hp, rfl⟩
        have hp' : db'.project? projectId = some p := hp
        rw [hrest'.project?, hrest.project?, hproject] at hp'
        cases hp'
        exact .created project hproject hactive hnow hmap rfl (hrest.trans hrest')

end SubmitFullScan

end RemyCC.State
