import RemyCC.State.Recovery

/-!
# One call on the store and everything it can do to a row

`Evolves` is the inversion of a successful call: where each row goes, which
rows are new, and what becomes of the projects. The invariants of whole runs
are derived from it alone.
-/

namespace RemyCC.State

open Relational Database

inductive Op where
  | submit (fs : FileSystem) (request : SubmitJob)
  | submitFullScan (projectId : Int)
  | promote (jobId : Int) (priority : JobPriority)
  | claimNextPending (provider : String)
  | updateProgress (jobId : Int) (update : ProgressUpdate)
  | completeSuccess (jobId : Int) (result : Json.Value)
  | completeFailure (jobId : Int) (error : Json.Value)
  | cancel (jobId : Int)
  | confirmCancelled (jobId : Int)
  | reopen

/-- An operation with the clock reading it meets. -/
structure Call where
  now : Int
  op : Op

def Call.exec (c : Call) (db : Database) : Except StateError Database :=
  match c.op with
  | .submit fs request => Prod.fst <$> submit fs c.now request db
  | .submitFullScan projectId => Prod.fst <$> submitFullScan c.now projectId db
  | .promote jobId priority => Prod.fst <$> promote jobId priority db
  | .claimNextPending provider => Prod.fst <$> claimNextPending c.now provider db
  | .updateProgress jobId update => Prod.fst <$> updateProgress jobId update db
  | .completeSuccess jobId result => Prod.fst <$> completeSuccess c.now jobId result db
  | .completeFailure jobId error => Prod.fst <$> completeFailure c.now jobId error db
  | .cancel jobId => Prod.fst <$> cancel c.now jobId db
  | .confirmCancelled jobId => Prod.fst <$> confirmCancelled c.now jobId db
  | .reopen => Prod.fst <$> recover c.now db

/-- A failed call leaves the database as it was. -/
def step (db : Database) (c : Call) : Database :=
  match c.exec db with
  | .ok db' => db'
  | .error _ => db

/-- What a call does to the status of a row, with the row a superseded one is
left to, as it stands in `db'`. -/
inductive Change (op : Op) (db' : Database) (r r' : JobRow) : Prop
  | kept (status : r'.status = r.status)
      (supersededBy : r'.supersededByJobId = r.supersededByJobId)
  | started (provider : String) (hop : op = .claimNextPending provider)
      (source : r.status = .pending) (target : r'.status = .running)
  | succeeded (result : Json.Value) (hop : op = .completeSuccess r.id result)
      (source : r.status = .running) (target : r'.status = .succeeded)
  | failed (error : Json.Value) (hop : op = .completeFailure r.id error)
      (source : r.status = .running) (target : r'.status = .failed)
  | folded (hop : op = .submitFullScan r.projectId) (type : r.jobType = .incrementalScan)
      (source : r.status = .pending) (target : r'.status = .superseded) (fullScan : JobRow)
      (mem : fullScan ∈ db'.jobs.rows) (project : fullScan.projectId = r.projectId)
      (fullType : fullScan.jobType = .fullScan) (pending : fullScan.status = .pending)
      (supersededBy : r'.supersededByJobId = some fullScan.id)
  | replaced (hop : op = .reopen) (source : r.status = .running) (target : r'.status = .superseded)
      (successor : JobRow) (mem : successor ∈ db'.jobs.rows) (key : successor.key = r.key)
      (pending : successor.status = .pending) (supersededBy : r'.supersededByJobId = some successor.id)
  | requeued (hop : op = .reopen) (source : r.status = .running) (target : r'.status = .pending)
  | cancelled (hop : op = .cancel r.id) (source : r.status = .pending)
      (target : r'.status = .cancelled)
  | cancelRequested (hop : op = .cancel r.id) (source : r.status = .running)
      (target : r'.status = .cancelRequested)
  | confirmed (hop : op = .confirmCancelled r.id ∨ op = .reopen)
      (source : r.status = .cancelRequested) (target : r'.status = .cancelled)

/-- The columns no call rewrites. -/
structure SameIdentity (r r' : JobRow) : Prop where
  id : r'.id = r.id
  key : r'.key = r.key
  filePath : r'.filePath = r.filePath
  targetDbPath : r'.targetDbPath = r.targetDbPath
  createdAt : r'.createdAt = r.createdAt

structure Moved (op : Op) (db' : Database) (r r' : JobRow) : Prop where
  identity : SameIdentity r r'
  frozen : r.status.terminal → r' = r
  change : Change op db' r r'

/-- A row a call has added. -/
inductive Entered (c : Call) (db db' : Database) (r : JobRow) : Prop
  | queued (fs : FileSystem) (request : SubmitJob) (hop : c.op = .submit fs request)
      (dbPath filePath : String) (projectId : Int)
      (row : r = queuedRow projectId dbPath filePath request.priority c.now db.freshId)
      (open_ : ∀ s ∈ db.jobs.rows, s.projectId = projectId → s.jobType = .fullScan →
        s.status ≠ .pending)
  | absorbed (fs : FileSystem) (request : SubmitJob) (hop : c.op = .submit fs request)
      (dbPath filePath : String) (projectId : Int) (fullScan : JobRow)
      (row : r = absorbedRow projectId dbPath filePath request.priority c.now fullScan.id
        db.freshId)
      (mem : fullScan ∈ db'.jobs.rows) (project : fullScan.projectId = projectId)
      (fullType : fullScan.jobType = .fullScan) (pending : fullScan.status = .pending)
  | fullScan (projectId : Int) (hop : c.op = .submitFullScan projectId) (dbPath : String)
      (row : r = fullScanRow projectId dbPath c.now db.freshId)
      (inactive : ∀ s ∈ db.jobs.rows, s.projectId = projectId → s.jobType = .fullScan →
        s.status ≠ .pending ∧ ¬ s.status.executing)
      (folded : ∀ s ∈ db'.jobs.rows, s.projectId = projectId → s.jobType = .incrementalScan →
        s.status ≠ .pending)

structure Evolves (c : Call) (db db' : Database) : Prop where
  moved : ∀ r ∈ db.jobs.rows, ∃ r' ∈ db'.jobs.rows, Moved c.op db' r r'
  origin : ∀ r' ∈ db'.jobs.rows,
    (∃ r ∈ db.jobs.rows, Moved c.op db' r r') ∨ Entered c db db' r'
  projects : ∀ p ∈ db.projects.rows, ∃ p' ∈ db'.projects.rows,
    p'.id = p.id ∧ p'.projectKey = p.projectKey ∧ p'.createdAt = p.createdAt
  created : ∀ p ∈ db'.projects.rows,
    p.createdAt = c.now ∨ ∃ q ∈ db.projects.rows, q.createdAt = p.createdAt

theorem SameIdentity.refl (r : JobRow) : SameIdentity r r := ⟨rfl, rfl, rfl, rfl, rfl⟩

theorem Moved.refl (op : Op) (db' : Database) (r : JobRow) : Moved op db' r r :=
  ⟨SameIdentity.refl r, fun _ => rfl, .kept rfl rfl⟩

theorem exec_map_ok {α : Type} {x : Except StateError (Database × α)} {db' : Database}
    (h : Prod.fst <$> x = .ok db') : ∃ a, x = .ok (db', a) := by
  cases x with
  | ok u => exact ⟨u.2, by cases h; rfl⟩
  | error e => cases h

section Evolves

variable {c : Call} {db db' : Database}

theorem Database.SameRest.projects_kept (h : SameRest db db') : ∀ p ∈ db.projects.rows,
    ∃ p' ∈ db'.projects.rows, p'.id = p.id ∧ p'.projectKey = p.projectKey ∧
      p'.createdAt = p.createdAt :=
  fun p hp => ⟨p, h.projects ▸ hp, rfl, rfl, rfl⟩

theorem Database.SameRest.projects_created (h : SameRest db db') (now : Int) : ∀ p ∈ db'.projects.rows,
    p.createdAt = now ∨ ∃ q ∈ db.projects.rows, q.createdAt = p.createdAt :=
  fun p hp => .inr ⟨p, h.projects ▸ hp, rfl⟩

/-- A call that rewrites rows in place. -/
theorem Evolves.of_map {f : JobRow → JobRow} (hrows : db'.jobs.rows = db.jobs.rows.map f)
    (hrest : SameRest db db') (hmoved : ∀ r ∈ db.jobs.rows, Moved c.op db' r (f r)) :
    Evolves c db db' where
  moved := fun r hr => ⟨f r, hrows ▸ List.mem_map.mpr ⟨r, hr, rfl⟩, hmoved r hr⟩
  origin := by
    intro r' hr'
    rw [hrows] at hr'
    obtain ⟨r, hr, rfl⟩ := List.mem_map.mp hr'
    exact .inl ⟨r, hr, hmoved r hr⟩
  projects := hrest.projects_kept
  created := hrest.projects_created c.now

/-- A row that only changes in columns no status rule looks at. -/
theorem Moved.of_live {op : Op} {r r' : JobRow} (hidentity : SameIdentity r r')
    (hlive : r' ≠ r → ¬ r.status.terminal) (hstatus : r'.status = r.status)
    (hsup : r'.supersededByJobId = r.supersededByJobId) : Moved op db' r r' :=
  ⟨hidentity, fun ht => by_contra fun hne => hlive hne ht, .kept hstatus hsup⟩

theorem not_terminal_of_pending {s : JobStatus} (h : s = .pending) : ¬ s.terminal := by
  simp [h, JobStatus.terminal]

theorem not_terminal_of_executing {s : JobStatus} (h : s.executing) : ¬ s.terminal := by
  rcases h with h | h <;> simp [h, JobStatus.terminal]

theorem transitionEdit_identity {source target : JobStatus} {now : Int}
    {supersededBy : Option Int} (r : JobRow) :
    SameIdentity r (transitionEdit source target now supersededBy r) := by
  cases source <;> cases target <;> exact ⟨rfl, rfl, rfl, rfl, rfl⟩

theorem Moved.of_transition {op : Op} {r : JobRow} {source target : JobStatus} {now : Int}
    {supersededBy : Option Int} (hstatus : r.status = source)
    (h : PlainTransition source target)
    (hchange : Change op db' r (transitionEdit source target now supersededBy r)) :
    Moved op db' r (transitionEdit source target now supersededBy r) where
  identity := transitionEdit_identity r
  frozen := by
    rw [hstatus]
    cases h <;> exact fun ht => absurd ht (by decide)
  change := hchange

theorem promoted_evolves {jobId : Int} {priority : JobPriority} {r : JobRow}
    {result : PromoteResult} (h : Promoted jobId priority db r db' result) :
    Evolves c db db' := by
  refine Evolves.of_map h.rows h.rest fun s _ => ?_
  unfold promoteRow Table.apply
  split
  · rename_i hsel
    exact Moved.of_live ⟨rfl, rfl, rfl, rfl, rfl⟩ (fun _ => not_terminal_of_pending hsel.2.1) rfl rfl
  · exact Moved.refl _ _ s

theorem claimed_evolves {provider : String} {result : Option Job}
    (h : Claimed c.now provider db db' result) (hop : c.op = .claimNextPending provider) :
    Evolves c db db' := by
  cases h with
  | idle _ same _ =>
    subst same
    exact Evolves.of_map (List.map_id _).symm (SameRest.refl _) fun r _ => Moved.refl _ _ r
  | started next found _ rows _ _ _ rest =>
    obtain ⟨hmem, hpending, -⟩ := nextPending?_eq_some found
    refine Evolves.of_map rows rest fun s hs => ?_
    unfold startRow Table.apply
    split
    · rename_i hid
      rw [db.job_ext hs hmem hid]
      exact ⟨⟨rfl, rfl, rfl, rfl, rfl⟩, fun ht => absurd ht (not_terminal_of_pending hpending),
        .started provider hop hpending rfl⟩
    · exact Moved.refl _ _ s

theorem progressed_evolves {jobId : Int} {update : ProgressUpdate} {r : JobRow} {job : Job}
    (h : Progressed jobId update db r db' job) : Evolves c db db' := by
  refine Evolves.of_map h.rows h.rest fun s _ => ?_
  unfold progressRow Table.apply
  split
  · rename_i hsel
    exact Moved.of_live ⟨rfl, rfl, rfl, rfl, rfl⟩ (fun _ => not_terminal_of_executing hsel.2.1) rfl rfl
  · exact Moved.refl _ _ s

theorem completed_evolves {jobId : Int} {completion : Completion} {r : JobRow} {job : Job}
    (h : Completed c.now jobId completion db r db' job)
    (hop : (∃ value, completion = .success value ∧ c.op = .completeSuccess jobId value) ∨
      ∃ value, completion = .failure value ∧ c.op = .completeFailure jobId value) :
    Evolves c db db' := by
  refine Evolves.of_map h.rows h.rest fun s _ => ?_
  unfold completeRow Table.apply
  split
  · rename_i hsel
    obtain ⟨rfl, hrunning⟩ := hsel
    refine ⟨⟨rfl, rfl, rfl, rfl, rfl⟩,
      fun ht => absurd ht (not_terminal_of_executing (.inl hrunning)), ?_⟩
    rcases hop with ⟨value, rfl, hop⟩ | ⟨value, rfl, hop⟩
    · exact .succeeded value hop hrunning rfl
    · exact .failed value hop hrunning rfl
  · exact Moved.refl _ _ s

theorem confirmed_evolves {jobId : Int} {r : JobRow} {job : Job}
    (h : Confirmed c.now jobId db r db' job) (hop : c.op = .confirmCancelled jobId) :
    Evolves c db db' := by
  refine Evolves.of_map h.rows h.rest fun s _ => ?_
  unfold transitionRow Table.apply
  split
  · rename_i hsel
    obtain ⟨rfl, hrequested⟩ := hsel
    exact Moved.of_transition hrequested .confirmCancel (.confirmed (.inl hop) hrequested rfl)
  · exact Moved.refl _ _ s

theorem cancelled_evolves {jobId : Int} {r : JobRow} {result : CancelResult}
    (h : Cancelled c.now jobId db r db' result) (hop : c.op = .cancel jobId) :
    Evolves c db db' := by
  refine Evolves.of_map h.rows h.rest fun s _ => ?_
  unfold cancelRow Table.apply
  split
  · rename_i hid
    subst hid
    unfold cancelEdit
    split
    · rename_i hpending
      exact Moved.of_transition hpending .cancelPending (.cancelled hop hpending rfl)
    · rename_i hrunning
      exact Moved.of_transition hrunning .requestCancel (.cancelRequested hop hrunning rfl)
    · exact Moved.refl _ _ s
  · exact Moved.refl _ _ s

theorem recovered_evolves (hrows : db'.jobs.rows = db.jobs.rows.map (recoverRow db c.now))
    (hrest : SameRest db db') (hop : c.op = .reopen) : Evolves c db db' := by
  refine Evolves.of_map hrows hrest fun r hr => ?_
  unfold recoverRow
  split
  · rename_i hrunning
    unfold requeueEdit
    split
    · rename_i successor hfind
      obtain ⟨hmem, hkey, hpending⟩ := successor?_eq_some hfind
      refine Moved.of_transition hrunning .supersede
        (.replaced hop hrunning rfl successor ?_ hkey hpending rfl)
      rw [hrows]
      exact List.mem_map.mpr ⟨successor, hmem, by simp [recoverRow, hpending]⟩
    · exact Moved.of_transition hrunning .requeue (.requeued hop hrunning rfl)
  · rename_i hrequested
    exact Moved.of_transition hrequested .confirmCancel (.confirmed (.inr hop) hrequested rfl)
  · exact Moved.refl _ _ r

/-- A call that appends one row to rows it leaves alone. -/
theorem Evolves.of_append {row : JobRow} (hrows : db'.jobs.rows = db.jobs.rows ++ [row])
    (hentered : Entered c db db' row)
    (hprojects : ∀ p ∈ db.projects.rows, ∃ p' ∈ db'.projects.rows,
      p'.id = p.id ∧ p'.projectKey = p.projectKey ∧ p'.createdAt = p.createdAt)
    (hcreated : ∀ p ∈ db'.projects.rows,
      p.createdAt = c.now ∨ ∃ q ∈ db.projects.rows, q.createdAt = p.createdAt) :
    Evolves c db db' where
  moved := fun r hr => ⟨r, hrows ▸ List.mem_append_left _ hr, Moved.refl _ _ r⟩
  origin := by
    intro r' hr'
    rw [hrows] at hr'
    rcases List.mem_append.mp hr' with hr' | hr'
    · exact .inl ⟨r', hr', Moved.refl _ _ r'⟩
    · rw [List.mem_singleton.mp hr']
      exact .inr hentered
  projects := hprojects
  created := hcreated

theorem freshId_congr {db db' : Database} (h : db'.jobs = db.jobs) : db'.freshId = db.freshId := by
  unfold Database.freshId
  rw [h]

theorem submitted_evolves {fs : FileSystem} {request : SubmitJob} {projectPath dbPath filePath : String}
    {registered : Database} {project : ProjectRow} {result : SubmitResult}
    (h : Submitted fs c.now request db projectPath dbPath filePath registered project db' result)
    (hop : c.op = .submit fs request) : Evolves c db db' := by
  have hjobs := h.register.jobs_eq
  have hfresh := freshId_congr hjobs
  have hprojects : ∀ {db' : Database}, SameRest registered db' → ∀ p ∈ db.projects.rows,
      ∃ p' ∈ db'.projects.rows,
        p'.id = p.id ∧ p'.projectKey = p.projectKey ∧ p'.createdAt = p.createdAt :=
    fun hrest p hp => hrest.projects ▸ h.register.kept hp
  have hcreated : ∀ {db' : Database}, SameRest registered db' → ∀ p ∈ db'.projects.rows,
      p.createdAt = c.now ∨ ∃ q ∈ db.projects.rows, q.createdAt = p.createdAt :=
    fun hrest p hp => h.register.createdAt (hrest.projects ▸ hp)
  cases h.enqueued with
  | absorbed fullScan found rows p _ _ rest =>
    obtain ⟨hmem, hpid, htype, hpending⟩ := pendingFullScan?_eq_some found
    rw [hjobs, hfresh] at rows
    refine Evolves.of_append rows ?_ (hprojects rest) (hcreated rest)
    refine .absorbed fs request hop dbPath filePath project.id fullScan rfl ?_ hpid htype hpending
    rw [rows, ← hjobs]
    exact List.mem_append_left _ hmem
  | deduped twin _ found rows p _ _ rest =>
    obtain ⟨hmem, -, -, -, hpending⟩ := pendingTwin?_eq_some found
    rw [hjobs] at rows hmem
    have hmoved : ∀ r ∈ db.jobs.rows, Moved c.op db' r (raiseRow twin.id request.priority r) := by
      intro r hr
      unfold raiseRow Table.apply
      split
      · rename_i hid
        rw [db.job_ext hr hmem hid]
        exact Moved.of_live ⟨rfl, rfl, rfl, rfl, rfl⟩ (fun _ => not_terminal_of_pending hpending)
          rfl rfl
      · exact Moved.refl _ _ r
    refine ⟨fun r hr => ⟨_, rows ▸ List.mem_map.mpr ⟨r, hr, rfl⟩, hmoved r hr⟩, ?_,
      hprojects rest, hcreated rest⟩
    intro r' hr'
    rw [rows] at hr'
    obtain ⟨r, hr, rfl⟩ := List.mem_map.mp hr'
    exact .inl ⟨r, hr, hmoved r hr⟩
  | queued alone _ rows p _ _ rest =>
    rw [hjobs, hfresh] at rows
    refine Evolves.of_append rows ?_ (hprojects rest) (hcreated rest)
    exact .queued fs request hop dbPath filePath project.id rfl
      fun s hs hpid htype => pendingFullScan?_eq_none alone s (hjobs ▸ hs) hpid htype

theorem fullScanSubmitted_evolves {projectId : Int} {result : SubmitResult}
    (h : FullScanSubmitted c.now projectId db db' result) (hop : c.op = .submitFullScan projectId) :
    Evolves c db db' := by
  cases h with
  | existing _ _ _ _ same _ =>
    subst same
    exact Evolves.of_map (List.map_id _).symm (SameRest.refl _) fun r _ => Moved.refl _ _ r
  | created project _ inactive _ rows _ rest =>
    have hnew : fullScanRow projectId project.dbPath c.now db.freshId ∈ db'.jobs.rows := by
      simp [rows]
    have hfold : ∀ r ∈ db.jobs.rows, Moved c.op db' r (foldRow projectId c.now db.freshId r) := by
      intro r _
      unfold foldRow Table.apply
      split
      · rename_i hsel
        obtain ⟨rfl, htype, hpending⟩ := hsel
        exact Moved.of_transition hpending .fold (.folded hop htype hpending rfl _ hnew rfl rfl rfl rfl)
      · exact Moved.refl _ _ r
    refine ⟨fun r hr => ⟨_, ?_, hfold r hr⟩, ?_, rest.projects_kept, rest.projects_created c.now⟩
    · rw [rows]
      exact List.mem_append_left _ (List.mem_map.mpr ⟨r, hr, rfl⟩)
    · intro r' hr'
      rw [rows] at hr'
      rcases List.mem_append.mp hr' with hr' | hr'
      · obtain ⟨r, hr, rfl⟩ := List.mem_map.mp hr'
        exact .inl ⟨r, hr, hfold r hr⟩
      · rw [List.mem_singleton.mp hr']
        refine .inr (.fullScan projectId hop project.dbPath rfl
          (fun s hs hpid htype => activeFullScan?_eq_none inactive hs hpid htype) ?_)
        intro s hs hpid htype hpending
        rw [rows] at hs
        rcases List.mem_append.mp hs with hs | hs
        · obtain ⟨r, hr, rfl⟩ := List.mem_map.mp hs
          unfold foldRow Table.apply at hpid htype hpending
          split at hpending
          · cases hpending
          · rename_i hsel
            rw [if_neg hsel] at hpid htype
            exact hsel ⟨hpid, htype, hpending⟩
        · rw [List.mem_singleton.mp hs] at htype
          cases htype

/-- The inversion of a successful call. -/
theorem exec_evolves (h : c.exec db = .ok db') : Evolves c db db' := by
  obtain ⟨now, op⟩ := c
  cases op with
  | submit fs request =>
    obtain ⟨result, hr⟩ := exec_map_ok h
    obtain ⟨_, _, _, _, _, hs⟩ := submit_yields.of_eq_ok hr
    exact submitted_evolves hs rfl
  | submitFullScan projectId =>
    obtain ⟨result, hr⟩ := exec_map_ok h
    exact fullScanSubmitted_evolves (submitFullScan_yields.of_eq_ok hr) rfl
  | promote jobId priority =>
    obtain ⟨result, hr⟩ := exec_map_ok h
    obtain ⟨_, hp⟩ := promote_yields.of_eq_ok hr
    exact promoted_evolves hp
  | claimNextPending provider =>
    obtain ⟨result, hr⟩ := exec_map_ok h
    exact claimed_evolves (claimNextPending_yields.of_eq_ok hr).2 rfl
  | updateProgress jobId update =>
    obtain ⟨result, hr⟩ := exec_map_ok h
    obtain ⟨_, hp⟩ := updateProgress_yields.of_eq_ok hr
    exact progressed_evolves hp
  | completeSuccess jobId value =>
    obtain ⟨result, hr⟩ := exec_map_ok h
    obtain ⟨_, hc⟩ := complete_yields.of_eq_ok hr
    exact completed_evolves hc (.inl ⟨value, rfl, rfl⟩)
  | completeFailure jobId value =>
    obtain ⟨result, hr⟩ := exec_map_ok h
    obtain ⟨_, hc⟩ := complete_yields.of_eq_ok hr
    exact completed_evolves hc (.inr ⟨value, rfl, rfl⟩)
  | cancel jobId =>
    obtain ⟨result, hr⟩ := exec_map_ok h
    obtain ⟨_, hc⟩ := cancel_yields.of_eq_ok hr
    exact cancelled_evolves hc rfl
  | confirmCancelled jobId =>
    obtain ⟨result, hr⟩ := exec_map_ok h
    obtain ⟨_, hc⟩ := confirmCancelled_yields.of_eq_ok hr
    exact confirmed_evolves hc rfl
  | reopen =>
    obtain ⟨result, hr⟩ := exec_map_ok h
    obtain ⟨-, hrows, hrest⟩ := recover_yields.of_eq_ok hr
    exact recovered_evolves hrows hrest rfl

end Evolves

end RemyCC.State
