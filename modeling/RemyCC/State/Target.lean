import RemyCC.State.FullScan

/-!
# The database a submission is executed against

The row that carries a submission keeps the target it was inserted with.
Absorption and deduplication look at the project and the file only, so the
target is right exactly when the row found in the queue already names it.
-/

namespace RemyCC.State

open Relational Database

variable {db db' : Database}

/-- The row that carries the work of a returned job: the job itself while it
waits, or the pending full scan it is superseded by. -/
def CarriesWork (db : Database) (job : Job) (r : JobRow) : Prop :=
  r ∈ db.jobs.rows ∧ r.status = .pending ∧
    ((job.status = .pending ∧ r.id = job.id) ∨
      (job.status = .superseded ∧ job.supersededByJobId = some r.id ∧ r.jobType = .fullScan))

theorem carriesWork_unique {job : Job} {r s : JobRow} (hr : CarriesWork db job r)
    (hs : CarriesWork db job s) : r = s := by
  obtain ⟨hrmem, -, hr⟩ := hr
  obtain ⟨hsmem, -, hs⟩ := hs
  refine db.job_ext hrmem hsmem ?_
  rcases hr with ⟨hstatus, hid⟩ | ⟨hstatus, hlink, -⟩ <;>
    rcases hs with ⟨hstatus', hid'⟩ | ⟨hstatus', hlink', -⟩
  · exact hid.trans hid'.symm
  · rw [hstatus] at hstatus'
    cases hstatus'
  · rw [hstatus] at hstatus'
    cases hstatus'
  · exact Option.some.inj (hlink.symm.trans hlink')

/-- What the queue already holds for a file of a project names the database:
the pending full scan if there is one, else the pending job of the file. -/
def QueueTargets (db : Database) (projectId : Int) (file dbPath : String) : Prop :=
  (∀ full ∈ db.jobs.rows, full.projectId = projectId → full.jobType = .fullScan →
    full.status = .pending → full.targetDbPath = dbPath) ∧
  ((∀ full ∈ db.jobs.rows, full.projectId = projectId → full.jobType = .fullScan →
      full.status ≠ .pending) →
    ∀ twin ∈ db.jobs.rows, twin.projectId = projectId → twin.jobType = .incrementalScan →
      twin.filePath = file → twin.status = .pending → twin.targetDbPath = dbPath)

theorem Enqueued.target_iff {projectId now : Int} {dbPath file : String} {priority : JobPriority}
    {result : SubmitResult} (h : Enqueued db projectId dbPath file priority now db' result)
    (hkeyed : WellKeyed db) :
    (∃ r, CarriesWork db' result.job r ∧ r.targetDbPath = dbPath) ↔
      QueueTargets db projectId file dbPath := by
  cases h with
  | absorbed full found rows p _ job _ =>
    obtain ⟨hmem, hproject, htype, hpending⟩ := pendingFullScan?_eq_some found
    have hcarries : CarriesWork db' result.job full := by
      rw [job]
      exact ⟨rows ▸ List.mem_append_left _ hmem, hpending, .inr ⟨rfl, rfl, htype⟩⟩
    constructor
    · rintro ⟨r, hr, htarget⟩
      rw [carriesWork_unique hr hcarries] at htarget
      refine ⟨fun s hs hsproject hstype hspending => ?_,
        fun hnone => absurd hpending (hnone full hmem hproject htype)⟩
      obtain rfl : s = full := by
        refine db.pending_ext hs hmem hspending hpending ?_
        simp [JobRow.key, hsproject, hproject, hstype, htype, (hkeyed s hs).2 hstype,
          (hkeyed full hmem).2 htype]
      exact htarget
    · intro htargets
      exact ⟨full, hcarries, htargets.1 full hmem hproject htype hpending⟩
  | deduped twin alone found rows p _ job _ =>
    obtain ⟨hmem, hproject, htype, hdedupe, hpending⟩ := pendingTwin?_eq_some found
    have hfile := incrementalDedupeKey_injective (((hkeyed twin hmem).1 htype).symm.trans hdedupe)
    have hrow : raiseRow twin.id priority twin =
        { twin with priority := twin.priority.max priority } := if_pos rfl
    have hcarries : CarriesWork db' result.job (raiseRow twin.id priority twin) := by
      refine ⟨rows ▸ List.mem_map_of_mem hmem, ?_, ?_⟩
      · rw [hrow]
        exact hpending
      · rw [job, hrow]
        exact .inl ⟨hpending, rfl⟩
    have htarget : (raiseRow twin.id priority twin).targetDbPath = twin.targetDbPath := by
      rw [hrow]
    have hnone := pendingFullScan?_eq_none alone
    constructor
    · rintro ⟨r, hr, hrtarget⟩
      rw [carriesWork_unique hr hcarries, htarget] at hrtarget
      refine ⟨fun full hfull hp ht hs => absurd hs (hnone full hfull hp ht), fun _ s hs => ?_⟩
      intro hsproject hstype hsfile hspending
      obtain rfl : s = twin := by
        refine db.pending_ext hs hmem hspending hpending ?_
        simp [JobRow.key, hsproject, hproject, hstype, htype, (hkeyed s hs).1 hstype,
          (hkeyed twin hmem).1 htype, hsfile, hfile]
      exact hrtarget
    · intro htargets
      exact ⟨_, hcarries, htarget.trans (htargets.2 hnone twin hmem hproject htype hfile hpending)⟩
  | queued alone fresh rows p _ job _ =>
    have hcarries : CarriesWork db' result.job
        (queuedRow projectId dbPath file priority now db.freshId) := by
      rw [job]
      exact ⟨by rw [rows]; exact List.mem_append_right _ (List.mem_singleton_self _), rfl,
        .inl ⟨rfl, rfl⟩⟩
    refine ⟨fun _ => ⟨?_, ?_⟩, fun _ => ⟨_, hcarries, rfl⟩⟩
    · exact fun full hfull hp ht hs => absurd hs (pendingFullScan?_eq_none alone full hfull hp ht)
    · intro _ twin hmem hp ht hfile hs
      refine absurd hs (pendingTwin?_eq_none fresh twin hmem ?_)
      simp [JobRow.key, hp, ht, (hkeyed twin hmem).1 ht, hfile]

/-- The jobs of a project are those of its row before the registration, if any. -/
theorem Submitted.queueTargets_iff {fs : FileSystem} {now : Int} {request : SubmitJob}
    {projectPath dbPath file : String} {registered : Database} {project : ProjectRow}
    {result : SubmitResult}
    (h : Submitted fs now request db projectPath dbPath file registered project db' result) :
    QueueTargets registered project.id file dbPath ↔
      ∀ p ∈ db.projects.rows, p.projectKey = projectKey projectPath →
        QueueTargets db p.id file dbPath := by
  have hjobs := h.register.jobs_eq
  constructor
  · intro htargets p hp hkey
    obtain ⟨p', hp', hid, hkey', -⟩ := h.register.kept hp
    have hsame := registered.project_key_ext hp' h.mem (hkey'.trans (hkey.trans h.keyed.symm))
    rw [← hid, hsame]
    simpa [QueueTargets, hjobs] using htargets
  · intro htargets
    by_cases hknown : ∃ p ∈ db.projects.rows, p.id = project.id
    · obtain ⟨p, hp, hid⟩ := hknown
      obtain ⟨p', hp', hid', hkey', -⟩ := h.register.kept hp
      have hsame := registered.project_ext hp' h.mem (hid'.trans hid)
      have hkey : p.projectKey = projectKey projectPath := by
        rw [← hkey', hsame, h.keyed]
      have hq := htargets p hp hkey
      rw [hid] at hq
      simpa [QueueTargets, hjobs] using hq
    · -- A project registered just now has no jobs.
      have hnone : ∀ r ∈ registered.jobs.rows, r.projectId ≠ project.id := by
        intro r hr hproject
        rw [hjobs] at hr
        obtain ⟨p, hp, hid⟩ := (db.references r hr).1
        exact hknown ⟨p, hp, hid.trans hproject⟩
      exact ⟨fun full hfull hproject => absurd hproject (hnone full hfull),
        fun _ twin hmem hproject => absurd hproject (hnone twin hmem)⟩

/-- A submission is carried out against the database it names exactly when the
pending full scan of its project, or else the pending job of its file, does. -/
theorem submit_target_iff (calls : List Call) (fs : FileSystem) (now : Int) (request : SubmitJob)
    (db' : Database) (result : SubmitResult) (projectPath dbPath file : String)
    (hok : submit fs now request (run step .empty calls) = .ok (db', result))
    (hproject : normalizeExistingProject fs request.projectPath = .ok projectPath)
    (hdb : normalizeDatabasePath fs request.dbPath = .ok dbPath)
    (hfile : normalizeSourcePath request.filePath = .ok file) :
    (∃ r, CarriesWork db' result.job r ∧ r.targetDbPath = dbPath) ↔
      ∀ p ∈ (run step .empty calls).projects.rows, p.projectKey = projectKey projectPath →
        QueueTargets (run step .empty calls) p.id file dbPath := by
  obtain ⟨projectPath', dbPath', file', registered, project, h⟩ := submit_yields.of_eq_ok hok
  obtain rfl := Except.ok.inj (h.project_eq.symm.trans hproject)
  obtain rfl := Except.ok.inj (h.db_eq.symm.trans hdb)
  obtain rfl := Except.ok.inj (h.file_eq.symm.trans hfile)
  have hkeyed : WellKeyed registered := by
    intro r hr
    rw [h.register.jobs_eq] at hr
    exact run_wellKeyed calls r hr
  exact (h.enqueued.target_iff hkeyed).trans h.queueTargets_iff

/-- The second submission names another database and joins the waiting job. -/
theorem redirected_submission : ∃ db' result,
    submit exampleFs 2 ⟨"/p", "/q/j.db", "a.py", .background⟩
        (run step .empty [submitCall 1 "a.py"]) = .ok (db', result) ∧
      normalizeDatabasePath exampleFs "/q/j.db" = .ok "/q/j.db" ∧
      ∀ r, CarriesWork db' result.job r → r.targetDbPath ≠ "/q/j.db" := by
  have hrows : (submit exampleFs 2 ⟨"/p", "/q/j.db", "a.py", .background⟩
      (run step .empty [submitCall 1 "a.py"])).map
        (fun u => u.1.jobs.rows.map (·.targetDbPath)) = .ok ["/p/i.db"] := by decide
  obtain ⟨u, hsubmit, htargets⟩ := exists_of_map_eq_ok hrows
  refine ⟨u.1, u.2, hsubmit, by decide, fun r hr => ?_⟩
  have hmem : r.targetDbPath ∈ u.1.jobs.rows.map (·.targetDbPath) := List.mem_map_of_mem hr.1
  rw [htargets] at hmem
  rw [List.mem_singleton.mp hmem]
  decide

theorem submit_target_fresh : ∃ db' result,
    submit exampleFs 1 ⟨"/p", "/p/i.db", "a.py", .background⟩ (run step .empty []) =
        .ok (db', result) ∧
      ∃ r, CarriesWork db' result.job r ∧ r.targetDbPath = "/p/i.db" := by
  have hjob : (submit exampleFs 1 ⟨"/p", "/p/i.db", "a.py", .background⟩ (run step .empty [])).map
      (fun u => u.2.job.id) = .ok 1 := by decide
  obtain ⟨u, hsubmit, -⟩ := exists_of_map_eq_ok hjob
  refine ⟨u.1, u.2, hsubmit, (submit_target_iff [] exampleFs 1
    ⟨"/p", "/p/i.db", "a.py", .background⟩ u.1 u.2 "/p" "/p/i.db" "a.py" hsubmit (by decide)
    (by decide) (by decide)).mpr ?_⟩
  intro p hp
  cases hp

end RemyCC.State
