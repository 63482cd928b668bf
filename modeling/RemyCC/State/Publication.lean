import Mathlib.Data.List.Sort
import RemyCC.State.Runs

/-!
# Publishing the scanner and its full scans

A start-up that publishes the provider is handed the projects to scan, and submits one
full scan after the other. Nothing but its own list remembers what is still to submit,
so the list is lost where the start-up ends early.
-/

namespace RemyCC.State

open Relational Database

section Provider

/-- `SELECT id FROM projects ORDER BY id`. -/
def projectIds (db : Database) : List Int := (db.projects.rows.map (·.id)).insertionSort (· ≤ ·)

def publishProvider (now : Int) (provider daemonVersion probeSummary : String) (db : Database) :
    Except StateError (Database × PublishedProvider) := do
  if provider ≠ providerRust then
    .error (.invalidInput ("unsupported provider " ++ provider))
  else
    let now ← nowMillis now
    let row : PublishedProvider := ⟨provider, daemonVersion, now, probeSummary⟩
    if h : ProviderCheck row then
      .ok ({ db with publishedProvider := some row, providerCheck := by simpa using h }, row)
    else .error (.constraint .check)

structure ScannerStatus where
  desired : String
  published : Option PublishedProvider
  diagnostic : Option String

structure SyncOutcome where
  status : ScannerStatus
  fullScanProjectIds : List Int

def Published (db : Database) : Prop := ∃ row ∈ db.publishedProvider, row.provider = providerRust

instance : DecidablePred Published := fun _ => inferInstanceAs (Decidable (∃ row ∈ _, _))

/-- `validation` is what the probe of the binary answers. -/
def syncWith (now : Int) (daemonVersion : String) (validation : Except String String)
    (db : Database) : Except StateError (Database × SyncOutcome) :=
  if Published db then
    .ok (db, ⟨⟨providerRust, db.publishedProvider, none⟩, []⟩)
  else
    match validation with
    | .error message => .ok (db, ⟨⟨providerRust, db.publishedProvider, some message⟩, []⟩)
    | .ok probeSummary => do
      let (db, row) ← publishProvider now providerRust daemonVersion probeSummary db
      .ok (db, ⟨⟨providerRust, some row, none⟩, projectIds db⟩)

end Provider

section Daemon

/-- How far a start-up has come. -/
inductive Phase where
  | down
  | opened
  | submitting (projects : List Int)
  | serving
  deriving DecidableEq

/-- The projects and the jobs there were when the provider was published. -/
structure Publication where
  projects : List Int
  jobs : List Int

/-- The store and the process; what was published, and whether a start-up has been
completed since, is recorded beside them. -/
structure Daemon where
  db : Database
  phase : Phase
  publication : Option Publication
  completed : Bool

inductive Event where
  | start (now : Int)
  | sync (now : Int) (daemonVersion : String) (validation : Except String String)
  | submit (now : Int)
  | serve
  | crash
  | call (c : Call)

/-- `StateStore::open`, up to the recovered jobs. -/
def Daemon.start (s : Daemon) (now : Int) : Daemon :=
  match s.phase with
  | .down =>
    match recover now s.db with
    | .ok (db, _) => { s with db := db, phase := .opened }
    | .error _ => s
  | _ => s

/-- An error ends the start-up. -/
def Daemon.sync (s : Daemon) (now : Int) (daemonVersion : String)
    (validation : Except String String) : Daemon :=
  match s.phase with
  | .opened =>
    match syncWith now daemonVersion validation s.db with
    | .ok (db, outcome) =>
      if ¬Published s.db ∧ Published db then
        { db := db, phase := .submitting outcome.fullScanProjectIds, completed := false,
          publication := some ⟨s.db.projects.rows.map (·.id), s.db.jobs.rows.map (·.id)⟩ }
      else { s with db := db, phase := .submitting outcome.fullScanProjectIds }
    | .error _ => { s with phase := .down }
  | _ => s

/-- One turn of the loop over the projects; an error is logged, and the loop goes on. -/
def Daemon.submit (s : Daemon) (now : Int) : Daemon :=
  match s.phase with
  | .submitting (projectId :: projects) =>
    match submitFullScan now projectId s.db with
    | .ok (db, _) => { s with db := db, phase := .submitting projects }
    | .error _ => { s with phase := .submitting projects }
  | _ => s

def Daemon.serve (s : Daemon) : Daemon :=
  match s.phase with
  | .submitting [] => { s with phase := .serving, completed := s.publication.isSome }
  | _ => s

/-- The scheduler works on the store from its start on. -/
def Daemon.call (s : Daemon) (c : Call) : Daemon :=
  match s.phase with
  | .submitting _ | .serving => { s with db := step s.db c }
  | _ => s

/-- One event in the life of the daemon; one that does not fit the phase is without
effect. -/
def advance (s : Daemon) : Event → Daemon
  | .start now => s.start now
  | .sync now daemonVersion validation => s.sync now daemonVersion validation
  | .submit now => s.submit now
  | .serve => s.serve
  | .crash => { s with phase := .down }
  | .call c => s.call c

/-- A full scan of the project came after the publication. -/
def Rescanned (publication : Publication) (projectId : Int) (db : Database) : Prop :=
  ∃ r ∈ db.jobs.rows, r.projectId = projectId ∧ r.jobType = .fullScan ∧ r.id ∉ publication.jobs

/-- After a completed start-up every project of the publication has its full scan. -/
def PromiseKept (s : Daemon) : Prop :=
  ∀ publication ∈ s.publication, s.completed = true →
    ∀ projectId ∈ publication.projects, Rescanned publication projectId s.db

instance (publication : Publication) (projectId : Int) : DecidablePred (Rescanned publication projectId) :=
  fun _ => inferInstanceAs (Decidable (∃ r ∈ _, _))

instance : DecidablePred PromiseKept := fun _ => inferInstanceAs (Decidable (∀ _ ∈ _, _))

/-- The start-up is not ended while it owes a full scan, and what it submits is accepted
as a new job. -/
def KeepsUp (publication : Publication) (db : Database) (e : Event) (phase : Phase) : Prop :=
  match e, phase with
  | .crash, .submitting projects => ∀ projectId ∈ projects, Rescanned publication projectId db
  | .submit now, .submitting (projectId :: _) => Rescanned publication projectId db ∨
    (Readable now ∧ activeFullScan? db projectId = none)
  | _, _ => True

instance (publication : Publication) (db : Database) (e : Event) (phase : Phase) :
    Decidable (KeepsUp publication db e phase) := by
  unfold KeepsUp
  split <;> infer_instance

def Uninterrupted (s : Daemon) (e : Event) : Prop :=
  ∀ publication ∈ s.publication, KeepsUp publication s.db e s.phase

instance (s : Daemon) (e : Event) : Decidable (Uninterrupted s e) :=
  inferInstanceAs (Decidable (∀ _ ∈ _, _))

/-- What the start-up still has to submit. -/
def Phase.owed : Phase → List Int
  | .submitting projects => projects
  | _ => []

/-- Of a publication that has happened nothing is lost sight of. -/
structure Records (publication : Publication) (s : Daemon) : Prop where
  published : Published s.db
  projects : ∀ projectId ∈ publication.projects, ∃ p ∈ s.db.projects.rows, p.id = projectId
  jobs : ∀ jobId ∈ publication.jobs, ∃ r ∈ s.db.jobs.rows, r.id = jobId
  owed : ∀ projectId ∈ publication.projects,
    Rescanned publication projectId s.db ∨ projectId ∈ s.phase.owed
  kept : s.completed = true → ∀ projectId ∈ publication.projects,
    Rescanned publication projectId s.db

def Accounted (s : Daemon) : Prop :=
  match s.publication with
  | none => ¬Published s.db ∧ s.phase.owed = []
  | some publication => Records publication s

end Daemon

section Persists

variable {db db' : Database} {c : Call}

theorem withProjects_published {projects : Table projectsTable}
    (h : db.withProjects projects = .ok db') : db'.publishedProvider = db.publishedProvider := by
  unfold withProjects at h
  split at h
  · cases h
    rfl
  · cases h

theorem registerProject_published {key path dbPath : String} {now : Int}
    (h : registerProject db key path dbPath now = .ok db') :
    db'.publishedProvider = db.publishedProvider := by
  unfold registerProject updateProjects insertProject at h
  split at h
  · cases hupdate : liftError StateError.constraint (db.projects.update (·.projectKey = key)
        fun p => { p with projectPath := path, dbPath := dbPath, lastSeenAt := now }) with
    | ok u =>
      rw [hupdate] at h
      exact withProjects_published h
    | error e =>
      rw [hupdate] at h
      cases h
  · cases hinsert : liftError StateError.constraint (db.projects.insert
        { id := nextRowId (db.projects.rows.map (·.id)), projectKey := key, projectPath := path,
          dbPath := dbPath, createdAt := now, lastSeenAt := now }) with
    | ok projects =>
      simp only [hinsert] at h
      exact withProjects_published h
    | error e =>
      simp only [hinsert] at h
      cases h

theorem submit_published (fs : FileSystem) (now : Int) (request : SubmitJob) :
    Yields (submit fs now request db) (fun r => r.1.publishedProvider = db.publishedProvider)
      (fun _ => True) := by
  unfold submit
  refine Yields.bind ((normalizeExistingProject_yields _).mono (fun _ _ h => h)
    fun _ _ => trivial) fun projectPath _ _ => ?_
  refine Yields.bind ((normalizeDatabasePath_yields _).mono (fun _ _ h => h)
    fun _ _ => trivial) fun dbPath _ _ => ?_
  refine Yields.bind ((normalizeSourcePath_yields _).mono (fun _ _ h => h)
    fun _ _ => trivial) fun filePath _ _ => ?_
  refine Yields.bind ((nowMillis_yields now).mono (fun _ _ h => h) fun _ _ => trivial) ?_
  rintro _ - ⟨rfl, hnow⟩
  refine Yields.bind ((registerProject_yields hnow.1).mono (fun _ _ h => h)
    fun _ _ => trivial) fun registered hregistered _ => ?_
  cases hfind : registered.projects.rows.find? (·.projectKey = projectKey projectPath) with
  | none => trivial
  | some project =>
    have hproject : ∃ p ∈ registered.projects.rows, p.id = project.id :=
      ⟨project, List.mem_of_find?_eq_some hfind, rfl⟩
    refine (enqueue_yields hnow.1 hproject _).mono (fun r _ henqueued => ?_) fun _ h => h
    have hrest : SameRest registered r.1 := by cases henqueued <;> assumption
    exact hrest.publishedProvider.trans (registerProject_published hregistered)

theorem exec_published (h : c.exec db = .ok db') :
    db'.publishedProvider = db.publishedProvider := by
  obtain ⟨now, op⟩ := c
  cases op with
  | submit fs request =>
    obtain ⟨result, hr⟩ := exec_map_ok h
    exact (submit_published fs now request).of_eq_ok hr
  | submitFullScan projectId =>
    obtain ⟨result, hr⟩ := exec_map_ok h
    cases submitFullScan_yields.of_eq_ok hr with
    | existing _ _ _ _ same _ => exact same ▸ rfl
    | created _ _ _ _ _ _ rest => exact rest.publishedProvider
  | promote jobId priority =>
    obtain ⟨result, hr⟩ := exec_map_ok h
    obtain ⟨_, hp⟩ := promote_yields.of_eq_ok hr
    exact hp.rest.publishedProvider
  | claimNextPending provider =>
    obtain ⟨result, hr⟩ := exec_map_ok h
    cases (claimNextPending_yields.of_eq_ok hr).2 with
    | idle _ same _ => exact same ▸ rfl
    | started _ _ _ _ _ _ _ rest => exact rest.publishedProvider
  | updateProgress jobId update =>
    obtain ⟨result, hr⟩ := exec_map_ok h
    obtain ⟨_, hp⟩ := updateProgress_yields.of_eq_ok hr
    exact hp.rest.publishedProvider
  | completeSuccess jobId value =>
    obtain ⟨result, hr⟩ := exec_map_ok h
    obtain ⟨_, hc⟩ := complete_yields.of_eq_ok hr
    exact hc.rest.publishedProvider
  | completeFailure jobId value =>
    obtain ⟨result, hr⟩ := exec_map_ok h
    obtain ⟨_, hc⟩ := complete_yields.of_eq_ok hr
    exact hc.rest.publishedProvider
  | cancel jobId =>
    obtain ⟨result, hr⟩ := exec_map_ok h
    obtain ⟨_, hc⟩ := cancel_yields.of_eq_ok hr
    exact hc.rest.publishedProvider
  | confirmCancelled jobId =>
    obtain ⟨result, hr⟩ := exec_map_ok h
    obtain ⟨_, hc⟩ := confirmCancelled_yields.of_eq_ok hr
    exact hc.rest.publishedProvider
  | reopen =>
    obtain ⟨result, hr⟩ := exec_map_ok h
    obtain ⟨-, -, hrest⟩ := recover_yields.of_eq_ok hr
    exact hrest.publishedProvider

theorem step_published (db : Database) (c : Call) :
    (step db c).publishedProvider = db.publishedProvider := by
  unfold step
  cases h : c.exec db with
  | ok db' => exact exec_published h
  | error e => rfl

/-- Rows and projects stay under their ids, and what is published stays so. -/
structure Persists (db db' : Database) : Prop where
  published : Published db → Published db'
  jobs : ∀ r ∈ db.jobs.rows, ∃ r' ∈ db'.jobs.rows,
    r'.id = r.id ∧ r'.projectId = r.projectId ∧ r'.jobType = r.jobType
  projects : ∀ p ∈ db.projects.rows, ∃ p' ∈ db'.projects.rows, p'.id = p.id

theorem Persists.refl (db : Database) : Persists db db where
  published h := h
  jobs r hr := ⟨r, hr, rfl, rfl, rfl⟩
  projects p hp := ⟨p, hp, rfl⟩

theorem step_persists (db : Database) (c : Call) : Persists db (step db c) where
  published := by
    unfold Published
    rw [step_published]
    exact id
  jobs r hr := by
    obtain ⟨r', hr', hmoved⟩ := step_moved (c := c) hr
    have hkey := hmoved.identity.key
    simp only [JobRow.key, Prod.mk.injEq] at hkey
    exact ⟨r', hr', hmoved.identity.id, hkey.1, hkey.2.1⟩
  projects p hp := by
    rcases step_cases db c with ⟨hsame, -⟩ | ⟨-, hevolves⟩
    · exact ⟨p, hsame.symm ▸ hp, rfl⟩
    · obtain ⟨p', hp', hid, -, -⟩ := hevolves.projects p hp
      exact ⟨p', hp', hid⟩

end Persists

section Owed

variable {s s' : Daemon} {e : Event} {publication : Publication} {projectId now : Int}
  {db db' : Database}

theorem Rescanned.mono (h : Rescanned publication projectId db) (hpersists : Persists db db') :
    Rescanned publication projectId db' := by
  obtain ⟨r, hr, hproject, htype, hnew⟩ := h
  obtain ⟨r', hr', hid, hproject', htype'⟩ := hpersists.jobs r hr
  exact ⟨r', hr', hproject'.trans hproject, htype'.trans htype, hid ▸ hnew⟩

theorem Records.mono (h : Records publication s) (hpersists : Persists s.db s'.db)
    (howed : ∀ projectId ∈ publication.projects, projectId ∈ s.phase.owed →
      Rescanned publication projectId s'.db ∨ projectId ∈ s'.phase.owed)
    (hcompleted : s'.completed = s.completed) : Records publication s' where
  published := hpersists.published h.published
  projects projectId hp := by
    obtain ⟨p, hmem, rfl⟩ := h.projects projectId hp
    exact hpersists.projects p hmem
  jobs jobId hj := by
    obtain ⟨r, hr, rfl⟩ := h.jobs jobId hj
    obtain ⟨r', hr', hid, -, -⟩ := hpersists.jobs r hr
    exact ⟨r', hr', hid⟩
  owed projectId hp := by
    rcases h.owed projectId hp with hrescanned | hphase
    · exact .inl (hrescanned.mono hpersists)
    · exact howed projectId hp hphase
  kept hc projectId hp := (h.kept (hcompleted ▸ hc) projectId hp).mono hpersists

/-- An event that neither publishes nor completes a start-up. -/
theorem Accounted.mono (h : Accounted s) (hpublication : s'.publication = s.publication)
    (hcompleted : s'.completed = s.completed) (hpersists : Persists s.db s'.db)
    (hpublished : Published s'.db → Published s.db)
    (howed : ∀ publication ∈ s.publication, Records publication s →
      ∀ projectId ∈ publication.projects, projectId ∈ s.phase.owed →
        Rescanned publication projectId s'.db ∨ projectId ∈ s'.phase.owed)
    (hidle : s.phase.owed = [] → s'.phase.owed = []) : Accounted s' := by
  unfold Accounted at h ⊢
  rw [hpublication]
  cases hs : s.publication with
  | none =>
    rw [hs] at h
    exact ⟨fun hp => h.1 (hpublished hp), hidle h.2⟩
  | some publication =>
    rw [hs] at h
    exact h.mono hpersists (howed publication hs h) hcompleted

theorem Accounted.records (h : Accounted s) (hs : publication ∈ s.publication) :
    Records publication s := by
  unfold Accounted at h
  rw [Option.mem_def.mp hs] at h
  exact h

theorem Accounted.unpublished (h : Accounted s) (hs : s.publication = none) : ¬Published s.db := by
  unfold Accounted at h
  rw [hs] at h
  exact h.1

theorem step_publishes {c : Call} (h : Published (step db c)) : Published db := by
  unfold Published at h ⊢
  rwa [step_published] at h

/-- A submission made at a readable clock, with no full scan under way, makes a new job. -/
theorem submitFullScan_rescanned (hrecords : Records publication s)
    (hp : projectId ∈ publication.projects) (hnow : Readable now)
    (hinactive : activeFullScan? s.db projectId = none) :
    Rescanned publication projectId (step s.db ⟨now, .submitFullScan projectId⟩) := by
  have hregistered : s.db.project? projectId ≠ none := by
    obtain ⟨p, hp, hid⟩ := hrecords.projects projectId hp
    intro hnone
    exact List.find?_eq_none.mp hnone p hp (by simpa using hid)
  cases h : submitFullScan now projectId s.db with
  | error e => exact absurd ((submitFullScan_yields.of_eq_error h).2 hnow) hregistered
  | ok result =>
    have hstep : step s.db ⟨now, .submitFullScan projectId⟩ = result.1 := by
      simp [step, Call.exec, h]
    rw [hstep]
    cases submitFullScan_yields.of_eq_ok h with
    | existing _ _ active found _ _ => exact absurd (found.symm.trans hinactive) fun h => by cases h
    | created project _ _ _ rows _ _ =>
      refine ⟨fullScanRow projectId project.dbPath now s.db.freshId, by simp [rows], rfl, rfl, ?_⟩
      intro hold
      obtain ⟨r, hr, hid⟩ := hrecords.jobs _ hold
      exact absurd hid (ne_of_lt (s.db.lt_freshId hr))

theorem syncWith_of_published {daemonVersion : String} {validation : Except String String}
    (h : Published db) : syncWith now daemonVersion validation db =
      .ok (db, ⟨⟨providerRust, db.publishedProvider, none⟩, []⟩) := if_pos h

theorem publishProvider_yields (daemonVersion probeSummary : String) :
    Yields (publishProvider now providerRust daemonVersion probeSummary db)
      (fun u => u.1.projects = db.projects ∧ u.1.jobs = db.jobs ∧ Published u.1) (fun _ => True) := by
  unfold publishProvider
  refine Yields.ite (fun _ => trivial) fun _ => ?_
  refine Yields.bind ((nowMillis_yields now).mono (fun _ _ h => h) fun _ _ => trivial) ?_
  rintro _ - -
  dsimp only
  split
  · exact ⟨rfl, rfl, _, rfl, rfl⟩
  · trivial

/-- A synchronisation that publishes owes every project its full scan. -/
inductive Synced (db db' : Database) (outcome : SyncOutcome) : Prop
  | same (same : db' = db) (none : outcome.fullScanProjectIds = [])
  | publishes (new : ¬Published db) (published : Published db')
      (projects : db'.projects = db.projects) (jobs : db'.jobs = db.jobs)
      (owed : outcome.fullScanProjectIds = projectIds db')

theorem syncWith_yields (daemonVersion : String) (validation : Except String String) :
    Yields (syncWith now daemonVersion validation db) (fun u => Synced db u.1 u.2)
      (fun _ => True) := by
  unfold syncWith
  refine Yields.ite (fun _ => .same rfl rfl) fun hnew => ?_
  cases validation with
  | error message => exact .same rfl rfl
  | ok probeSummary =>
    refine Yields.bind (publishProvider_yields daemonVersion probeSummary) ?_
    rintro ⟨db', row⟩ - ⟨hprojects, hjobs, hpublished⟩
    exact .publishes hnew hpublished hprojects hjobs rfl

@[simp]
theorem mem_projectIds : projectId ∈ projectIds db ↔ ∃ p ∈ db.projects.rows, p.id = projectId := by
  simp [projectIds]

theorem start_accounted (h : Accounted s) : Accounted (s.start now) := by
  unfold Daemon.start
  split
  · rename_i hphase
    cases hrecover : recover now s.db with
    | error _ => exact h
    | ok u =>
      obtain ⟨db', report⟩ := u
      have hstep : step s.db ⟨now, .reopen⟩ = db' := by simp [step, Call.exec, hrecover]
      subst hstep
      refine h.mono rfl rfl (step_persists _ _) step_publishes ?_ fun _ => rfl
      intro publication _ _ projectId _ howed
      rw [hphase] at howed
      cases howed
  · exact h

theorem sync_accounted (h : Accounted s) (daemonVersion : String)
    (validation : Except String String) : Accounted (s.sync now daemonVersion validation) := by
  unfold Daemon.sync
  split
  · rename_i hphase
    have hnothing : ∀ publication ∈ s.publication, Records publication s →
        ∀ projectId ∈ publication.projects, projectId ∈ s.phase.owed → False := by
      rw [hphase]
      exact fun _ _ _ _ _ => nofun
    cases hsync : syncWith now daemonVersion validation s.db with
    | error _ =>
      exact h.mono rfl rfl (Persists.refl _) id
        (fun _ hs hrecords _ hp howed => (hnothing _ hs hrecords _ hp howed).elim) fun _ => rfl
    | ok u =>
      obtain ⟨db', outcome⟩ := u
      dsimp only
      cases (syncWith_yields daemonVersion validation).of_eq_ok hsync with
      | same same none =>
        simp only at same none
        subst same
        rw [if_neg fun hp => hp.1 hp.2, none]
        exact h.mono rfl rfl (Persists.refl _) id
          (fun _ hs hrecords _ hp howed => (hnothing _ hs hrecords _ hp howed).elim) fun _ => rfl
      | publishes new published projects jobs owed =>
        simp only at published projects jobs owed
        rw [if_pos ⟨new, published⟩]
        exact
          { published := published
            projects := by
              intro projectId hp
              rw [projects]
              simpa using hp
            jobs := by
              intro jobId hj
              rw [jobs]
              simpa using hj
            owed := by
              intro projectId hp
              refine .inr ?_
              simp only [Phase.owed, owed, mem_projectIds, projects]
              simpa using hp
            kept := nofun }
  · exact h

/-- Accepted or not, the store is the one the call leaves. -/
theorem submit_eq {projects : List Int} (hphase : s.phase = .submitting (projectId :: projects)) :
    s.submit now = { s with db := step s.db ⟨now, .submitFullScan projectId⟩,
                            phase := .submitting projects } := by
  unfold Daemon.submit
  rw [hphase]
  cases hsubmit : submitFullScan now projectId s.db <;> simp [step, Call.exec, hsubmit]

theorem submit_accounted (h : Accounted s) (he : Uninterrupted s (.submit now)) :
    Accounted (s.submit now) := by
  cases hphase : s.phase with
  | submitting projects =>
    cases projects with
    | nil =>
      unfold Daemon.submit
      rwa [hphase]
    | cons projectId projects =>
      rw [submit_eq hphase]
      refine h.mono rfl rfl (step_persists _ _) step_publishes ?_ ?_
      · intro publication hs hrecords p hp howed
        have hsubmit := he publication hs
        rw [hphase] at howed hsubmit
        rcases List.mem_cons.mp howed with rfl | howed
        · rcases hsubmit with hrescanned | ⟨hnow, hinactive⟩
          · exact .inl (hrescanned.mono (step_persists _ _))
          · exact .inl (submitFullScan_rescanned hrecords hp hnow hinactive)
        · exact .inr howed
      · intro hnil
        rw [hphase] at hnil
        cases hnil
  | down | opened | serving =>
    unfold Daemon.submit
    rwa [hphase]

theorem serve_accounted (h : Accounted s) : Accounted s.serve := by
  unfold Daemon.serve
  split
  · rename_i hphase
    cases hs : s.publication with
    | none =>
      exact ⟨h.unpublished hs, rfl⟩
    | some publication =>
      have hrecords := h.records hs
      have hall : ∀ projectId ∈ publication.projects, Rescanned publication projectId s.db := by
        intro projectId hp
        refine (hrecords.owed projectId hp).resolve_right ?_
        rw [hphase]
        exact nofun
      exact ⟨hrecords.published, hrecords.projects, hrecords.jobs,
        fun projectId hp => .inl (hall projectId hp), fun _ => hall⟩
  · exact h

theorem crash_accounted (h : Accounted s) (he : Uninterrupted s .crash) :
    Accounted { s with phase := .down } := by
  refine h.mono rfl rfl (Persists.refl _) id ?_ fun _ => rfl
  intro publication hs _ projectId _ howed
  have hcrash := he publication hs
  cases hphase : s.phase with
  | submitting projects =>
    rw [hphase] at howed hcrash
    exact .inl (hcrash projectId howed)
  | down | opened | serving =>
    rw [hphase] at howed
    cases howed

theorem call_accounted (h : Accounted s) (c : Call) : Accounted (s.call c) := by
  unfold Daemon.call
  split
  · exact h.mono rfl rfl (step_persists _ _) step_publishes (fun _ _ _ _ _ howed => .inr howed) id
  · exact h.mono rfl rfl (step_persists _ _) step_publishes (fun _ _ _ _ _ howed => .inr howed) id
  · exact h

theorem advance_accounted (h : Accounted s) (he : Uninterrupted s e) : Accounted (advance s e) := by
  cases e with
  | start now => exact start_accounted h
  | sync now daemonVersion validation => exact sync_accounted h daemonVersion validation
  | submit now => exact submit_accounted h he
  | serve => exact serve_accounted h
  | crash => exact crash_accounted h he
  | call c => exact call_accounted h c

theorem Accounted.promiseKept (h : Accounted s) : PromiseKept s :=
  fun _ hs hcompleted projectId hp => (h.records hs).kept hcompleted projectId hp

end Owed

section Promise

/-- The daemon before its first start-up. -/
def Daemon.fresh (db : Database) : Daemon := ⟨db, .down, none, false⟩

theorem fresh_accounted {db : Database} (h : ¬Published db) : Accounted (.fresh db) := ⟨h, rfl⟩

/-- The full scans a publication promises are there after every completed start-up of a run
in which no start-up ends while it owes one. -/
theorem promise_kept {db : Database} (hdb : ¬Published db) {events : List Event}
    (hevents : Meets advance Uninterrupted (.fresh db) events) :
    ∀ before after, events = before ++ after → PromiseKept (run advance (.fresh db) before) := by
  rintro before after rfl
  have hbefore := (meets_append.mp hevents).1
  exact (run_invariant (fun _ _ h he => advance_accounted h he) (fresh_accounted hdb)
    hbefore).promiseKept

/-- A first start-up finds no valid scanner; under it a project is registered. -/
def registration : List Event :=
  [.start 1, .sync 2 "1.0.0" (.error "version probe failed"), .serve,
    .call (submitCall 3 "a.py"), .crash]

/-- The next one publishes and submits, the last one finds nothing left to do. -/
theorem promise_kept_restart :
    (run advance (.fresh .empty) (registration ++ [.start 4, .sync 5 "1.0.0" (.ok "\x7b\x7d"),
        .submit 6, .serve, .crash, .start 7, .sync 8 "1.0.0" (.ok "\x7b\x7d"), .serve])).completed ∧
      PromiseKept (run advance (.fresh .empty) (registration ++ [.start 4,
        .sync 5 "1.0.0" (.ok "\x7b\x7d"), .submit 6, .serve, .crash, .start 7,
        .sync 8 "1.0.0" (.ok "\x7b\x7d"), .serve])) := by
  refine ⟨by decide +kernel, promise_kept (by decide) ?_ _ [] (List.append_nil _).symm⟩
  decide +kernel

/-- A crash between the publication and the submission: nothing makes up for it. -/
theorem promise_lost :
    ¬ ∀ db, ¬Published db → ∀ events, PromiseKept (run advance (.fresh db) events) := by
  intro h
  have hlost := h .empty (by decide) (registration ++
    [.start 4, .sync 5 "1.0.0" (.ok "\x7b\x7d"), .crash,
      .start 6, .sync 7 "1.0.0" (.ok "\x7b\x7d"), .serve])
  exact absurd hlost (by decide +kernel)

end Promise

end RemyCC.State
