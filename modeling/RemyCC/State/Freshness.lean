import RemyCC.State.Queue

/-!
# Silence about a file

The hook asks for the latest job of a file and reports nothing when that job has
succeeded. Of two rows with one key the newer one begins only when the older one is
through, so what was submitted before the latest row began went into it or into a row
that was through before it.
-/

namespace RemyCC.State

open Relational Database

section Latest

variable {db : Database} {key file : String}

/-- `latest_job` of the hook, up to the connection. -/
def latestJob (fs : FileSystem) (project filePath : String) (db : Database) :
    Except StateError (Option Job) := do
  let jobs ← list fs { projectPath := some project, filePath := some filePath, status := none,
                       jobType := some "incremental_scan", limit := 1 } db
  .ok jobs.getLast?

/-- The row is a scan of the file in the project with this key. -/
def OfFile (db : Database) (key file : String) (r : JobRow) : Prop :=
  (∃ p ∈ db.projects.rows, p.id = r.projectId ∧ p.projectKey = key) ∧ r.filePath = file ∧
    r.jobType = .incrementalScan

instance (db : Database) (key file : String) : DecidablePred (OfFile db key file) :=
  fun _ => inferInstanceAs (Decidable (_ ∧ _))

theorem listOrder_total (r s : JobRow) : listOrder r s ∨ listOrder s r := by
  unfold listOrder
  omega

theorem listOrder_trans {r s t : JobRow} (hrs : listOrder r s) (hst : listOrder s t) :
    listOrder r t := by
  unfold listOrder at *
  omega

instance : Std.Total listOrder := ⟨listOrder_total⟩

instance : IsTrans JobRow listOrder := ⟨fun _ _ _ => listOrder_trans⟩

/-- The rows that `list` finds, the first one first. -/
def filesOf (db : Database) (key file : String) : List JobRow :=
  (db.jobs.rows.filter (OfFile db key file)).insertionSort listOrder

theorem mem_filesOf {r : JobRow} : r ∈ filesOf db key file ↔ r ∈ db.jobs.rows ∧ OfFile db key file r := by
  simp [filesOf]

theorem filesOf_head {r : JobRow} (h : (filesOf db key file).head? = some r) :
    ∀ s ∈ db.jobs.rows, OfFile db key file s → listOrder r s := by
  intro s hs hof
  have hsorted := List.pairwise_insertionSort listOrder (db.jobs.rows.filter (OfFile db key file))
  have hmem : s ∈ filesOf db key file := mem_filesOf.mpr ⟨hs, hof⟩
  obtain ⟨rest, hrest⟩ := List.head?_eq_some_iff.mp h
  unfold filesOf at hrest hmem
  rw [hrest] at hsorted hmem
  rcases List.mem_cons.mp hmem with rfl | hmem
  · exact (listOrder_total s s).elim id id
  · exact (List.pairwise_cons.mp hsorted).1 s hmem

theorem list_eq {fs : FileSystem} {project filePath : String}
    (hkey : normalizeProjectFilter fs project = .ok key)
    (hfile : normalizeSourcePath filePath = .ok file) :
    list fs { projectPath := some project, filePath := some filePath, status := none,
              jobType := some "incremental_scan", limit := 1 } db =
      ((filesOf db key file).take 1).mapM fun r => loadJob db r.id := by
  unfold list
  have hproject : (some project).mapM (normalizeProjectFilter fs) = .ok (some key) := by
    rw [Option.mapM_some, hkey]
    rfl
  have hpath : (some filePath).mapM normalizeSourcePath = .ok (some file) := by
    rw [Option.mapM_some, hfile]
    rfl
  simp only [hproject, hpath]
  have hfilter : (db.jobs.rows.filter fun r =>
      (∃ p ∈ db.projects.rows, p.id = r.projectId ∧ ∀ k ∈ some key, p.projectKey = k) ∧
        (∀ f ∈ some file, r.filePath = f) ∧ (∀ s ∈ (none : Option JobStatus), r.status = s) ∧
        ∀ t ∈ some JobType.incrementalScan, r.jobType = t) =
      db.jobs.rows.filter (OfFile db key file) := by
    refine List.filter_congr fun r _ => decide_eq_decide.mpr ?_
    simp [OfFile]
  unfold filesOf
  rw [← hfilter]
  rfl

/-- The latest job is that of the first of the file's rows, if there is one. -/
theorem latestJob_cases {fs : FileSystem} {project filePath : String} {latest : Option Job}
    (hkey : normalizeProjectFilter fs project = .ok key)
    (hfile : normalizeSourcePath filePath = .ok file)
    (h : latestJob fs project filePath db = .ok latest) :
    (latest = none ∧ ∀ r ∈ db.jobs.rows, ¬OfFile db key file r) ∨
      ∃ job r, latest = some job ∧ r ∈ db.jobs.rows ∧ OfFile db key file r ∧ job.id = r.id ∧
        job.status = r.status ∧ ∀ s ∈ db.jobs.rows, OfFile db key file s → listOrder r s := by
  unfold latestJob at h
  rw [list_eq hkey hfile] at h
  cases hrows : filesOf db key file with
  | nil =>
    rw [hrows] at h
    cases h
    refine .inl ⟨rfl, fun r hr hof => ?_⟩
    have hmem := mem_filesOf.mpr ⟨hr, hof⟩
    rw [hrows] at hmem
    cases hmem
  | cons r rest =>
    have hhead : (filesOf db key file).head? = some r := by rw [hrows]; rfl
    obtain ⟨hr, hof⟩ := mem_filesOf.mp (List.mem_of_mem_head? hhead)
    obtain ⟨p, hp⟩ := db.exists_project hr
    rw [hrows] at h
    simp only [List.take_succ_cons, List.take_zero, List.mapM_cons, List.mapM_nil,
      loadJob_eq hr hp] at h
    cases h
    exact .inr ⟨r.toJob p, r, rfl, hr, hof, rfl, rfl, filesOf_head hhead⟩

end Latest

section Turns

variable {db : Database} {c : Call}

/-- The scanner has been at the job, and it is not waiting for it again. -/
def JobStatus.begun (s : JobStatus) : Prop := s.executing ∨ s = .succeeded ∨ s = .failed

/-- Of two rows with one key the newer one begins when the older one is through. -/
def InTurn (db : Database) : Prop :=
  ∀ r ∈ db.jobs.rows, ∀ s ∈ db.jobs.rows, r.key = s.key → r.id < s.id → s.status.begun →
    r.status.terminal

theorem JobStatus.terminal_or (s : JobStatus) : s = .pending ∨ s.executing ∨ s.terminal := by
  cases s <;> simp [JobStatus.executing, JobStatus.terminal]

/-- A row that has begun had begun before, or it is just started by a claim. -/
theorem Change.begun {op : Op} {db' : Database} {r r' : JobRow} (h : Change op db' r r')
    (hbegun : r'.status.begun) : r.status.begun ∨
      (r.status = .pending ∧ r'.status = .running ∧ ∃ provider, op = .claimNextPending provider) := by
  cases h with
  | kept status _ => exact .inl (status ▸ hbegun)
  | started provider hop source target => exact .inr ⟨source, target, provider, hop⟩
  | succeeded _ _ source _ | failed _ _ source _ | cancelRequested _ source _ =>
    exact .inl (.inl (.inl source))
  | folded _ _ _ target | replaced _ _ target | requeued _ _ target | cancelled _ _ target
  | confirmed _ _ target =>
    rw [target] at hbegun
    exact absurd hbegun (by simp [JobStatus.begun, JobStatus.executing])

/-- A claim leaves a row as it is or starts it. -/
theorem Change.of_claim {provider : String} {db' : Database} {r r' : JobRow}
    (h : Change (.claimNextPending provider) db' r r') :
    r'.status = r.status ∨ r.status = .pending := by
  cases h with
  | kept status _ => exact .inl status
  | started _ _ source _ => exact .inr source
  | succeeded _ hop _ _ | failed _ hop _ _ | folded hop _ _ _ | replaced hop _ _ | requeued hop _ _
  | cancelled hop _ _ | cancelRequested hop _ _ => cases hop
  | confirmed hop _ _ => rcases hop with hop | hop <;> cases hop

theorem Entered.not_begun {db' : Database} {r : JobRow} (h : Entered c db db' r) :
    ¬r.status.begun := by
  rcases h.status with hstatus | ⟨hstatus, -⟩ <;>
    simp [hstatus, JobStatus.begun, JobStatus.executing]

theorem step_inTurn (h : InTurn db) : InTurn (step db c) := by
  intro r' hr' s' hs' hkey hlt hbegun
  rcases step_origin hs' with ⟨s, hs, hsm⟩ | hse
  · rcases step_origin hr' with ⟨r, hr, hrm⟩ | hre
    · have hkey₀ : r.key = s.key := by rw [← hrm.identity.key, ← hsm.identity.key, hkey]
      have hlt₀ : r.id < s.id := by rwa [← hrm.identity.id, ← hsm.identity.id]
      rcases hsm.change.begun hbegun with hbefore | ⟨hpending, hrunning, provider, hop⟩
      · have hterminal := h r hr s hs hkey₀ hlt₀ hbefore
        rwa [hrm.frozen hterminal]
      · -- The claim leaves the older row, which can neither wait nor execute.
        have hnotPending : r.status ≠ .pending := fun hp =>
          hlt₀.ne (congrArg JobRow.id (db.pending_ext hr hs hp hpending hkey₀))
        have hsame : r'.status = r.status :=
          (Change.of_claim (hop ▸ hrm.change)).resolve_right hnotPending
        have hnotExecuting : ¬r'.status.executing := fun he =>
          hlt.ne (congrArg JobRow.id ((step db c).executing_ext hr' hs' he (.inl hrunning) hkey))
        rcases JobStatus.terminal_or r'.status with hp | he | ht
        · exact absurd (hsame ▸ hp) hnotPending
        · exact absurd he hnotExecuting
        · exact ht
    · have hfresh := db.lt_freshId hs
      rw [← hre.id_eq, ← hsm.identity.id] at hfresh
      exact absurd hlt hfresh.not_gt
  · exact absurd hbegun hse.not_begun

theorem run_inTurn (calls : List Call) : InTurn (run step .empty calls) :=
  run_invariant_of_forall (fun _ _ => step_inTurn) (fun _ hr => by cases hr) calls

/-- Ids are given out in the order of creation. -/
def Dated (db : Database) : Prop :=
  ∀ r ∈ db.jobs.rows, ∀ s ∈ db.jobs.rows, r.id < s.id → r.createdAt ≤ s.createdAt

theorem Entered.createdAt {db' : Database} {r : JobRow} (h : Entered c db db' r) :
    r.createdAt = c.now := by
  cases h <;> rename_i row <;> simp_all [queuedRow, absorbedRow, fullScanRow, newJobRow]

theorem step_dated (h : Dated db) (hclock : ∀ r ∈ db.jobs.rows, r.createdAt ≤ c.now) :
    Dated (step db c) := by
  intro r' hr' s' hs' hlt
  rcases step_origin hr' with ⟨r, hr, hrm⟩ | hre <;>
    rcases step_origin hs' with ⟨s, hs, hsm⟩ | hse
  · rw [hrm.identity.createdAt, hsm.identity.createdAt]
    exact h r hr s hs (by rwa [← hrm.identity.id, ← hsm.identity.id])
  · rw [hrm.identity.createdAt, hse.createdAt]
    exact hclock r hr
  · have hfresh := db.lt_freshId hs
    rw [← hre.id_eq, ← hsm.identity.id] at hfresh
    exact absurd hlt hfresh.not_gt
  · rw [hre.createdAt, hse.createdAt]

theorem run_dated {calls : List Call} (hclock : calls.Pairwise fun a b => a.now ≤ b.now)
    (h : Dated db) (hdb : ∀ r ∈ db.jobs.rows, ∀ c ∈ calls, r.createdAt ≤ c.now) :
    Dated (run step db calls) := by
  induction calls generalizing db with
  | nil => exact h
  | cons c calls ih =>
    obtain ⟨hhead, htail⟩ := List.pairwise_cons.mp hclock
    refine ih htail (step_dated h fun r hr => hdb r hr c List.mem_cons_self) ?_
    intro r' hr' d hd
    rcases step_origin hr' with ⟨r, hr, hrm⟩ | hre
    · rw [hrm.identity.createdAt]
      exact hdb r hr d (List.mem_cons_of_mem c hd)
    · rw [hre.createdAt]
      exact hhead d hd

end Turns

section Accepted

variable {db : Database} {c : Call} {key file : String}

/-- The call submits the file in the project with this key and is answered with a job. -/
def Accepted (db : Database) (c : Call) (key file : String) : Prop :=
  ∃ fs request result projectPath, c.op = .submit fs request ∧
    submit fs c.now request db = .ok result ∧
    normalizeExistingProject fs request.projectPath = .ok projectPath ∧
    projectKey projectPath = key ∧ normalizeSourcePath request.filePath = .ok file

/-- What an accepted submission leaves: a row of the file that waits, or the newest row of
all, taken over by a full scan. -/
theorem Accepted.leaves (h : Accepted db c key file) (hkeyed : WellKeyed db) :
    ∃ t ∈ (step db c).jobs.rows, OfFile (step db c) key file t ∧
      (t.status = .pending ∨
        (t.status = .superseded ∧ ∀ r ∈ (step db c).jobs.rows, r.id ≤ t.id)) := by
  obtain ⟨fs, request, result, projectPath, hop, hok, hproject, rfl, hfile⟩ := h
  have hstep : step db c = result.1 := by
    obtain ⟨now, op⟩ := c
    cases hop
    simp only [step, Call.exec, hok]
    rfl
  rw [hstep]
  obtain ⟨path, dbPath, filePath, registered, project, hs⟩ := submit_yields.of_eq_ok hok
  obtain rfl : projectPath = path := Except.ok.inj (hproject.symm.trans hs.project_eq)
  obtain rfl : file = filePath := Except.ok.inj (hfile.symm.trans hs.file_eq)
  have hjobs := hs.register.jobs_eq
  have hregistered : ∀ {db' : Database}, SameRest registered db' →
      ∃ p ∈ db'.projects.rows, p.id = project.id ∧ p.projectKey = projectKey projectPath :=
    fun hrest => ⟨project, hrest.projects ▸ hs.mem, rfl, hs.keyed⟩
  cases hs.enqueued with
  | absorbed fullScan found rows p _ _ rest =>
    refine ⟨_, rows ▸ List.mem_append_right _ (List.mem_singleton_self _),
      ⟨hregistered rest, rfl, rfl⟩, .inr ⟨rfl, fun r hr => ?_⟩⟩
    rw [rows] at hr
    rcases List.mem_append.mp hr with hr | hr
    · exact (registered.lt_freshId hr).le
    · rw [List.mem_singleton.mp hr]
  | deduped twin _ found rows p _ _ rest =>
    obtain ⟨hmem, hid, htype, hdedupe, hpending⟩ := pendingTwin?_eq_some found
    have htwin : twin ∈ db.jobs.rows := hjobs ▸ hmem
    have hpath : twin.filePath = file := by
      have hkey := (hkeyed twin htwin).1 htype
      exact incrementalDedupeKey_injective (hkey.symm.trans hdedupe)
    have hraised : raiseRow twin.id request.priority twin =
        { twin with priority := twin.priority.max request.priority } := if_pos rfl
    refine ⟨_, rows ▸ List.mem_map_of_mem hmem, ?_, ?_⟩
    · rw [hraised]
      exact ⟨hid.symm ▸ hregistered rest, hpath, htype⟩
    · rw [hraised]
      exact .inl hpending
  | queued _ _ rows p _ _ rest =>
    exact ⟨_, rows ▸ List.mem_append_right _ (List.mem_singleton_self _),
      ⟨hregistered rest, rfl, rfl⟩, .inl rfl⟩

theorem OfFile.moved {op : Op} {r r' : JobRow} (h : OfFile db key file r)
    (hmoved : Moved op (step db c) r r') : OfFile (step db c) key file r' := by
  obtain ⟨⟨p, hp, hid, hkey⟩, hpath, htype⟩ := h
  refine ⟨?_, hmoved.identity.filePath.trans hpath, hmoved.identity.jobType.trans htype⟩
  rw [hmoved.identity.projectId]
  rcases step_cases db c with ⟨hsame, -⟩ | ⟨-, hevolves⟩
  · exact ⟨p, hsame.symm ▸ hp, hid, hkey⟩
  · obtain ⟨p', hp', hid', hkey', -⟩ := hevolves.projects p hp
    exact ⟨p', hp', hid'.trans hid, hkey'.trans hkey⟩

theorem SameIdentity.trans {r s t : JobRow} (h : SameIdentity r s) (h' : SameIdentity s t) :
    SameIdentity r t :=
  ⟨h'.id.trans h.id, h'.key.trans h.key, h'.filePath.trans h.filePath,
    h'.targetDbPath.trans h.targetDbPath, h'.createdAt.trans h.createdAt⟩

theorem run_identity {t : JobRow} (ht : t ∈ db.jobs.rows) (calls : List Call) :
    ∃ t' ∈ (run step db calls).jobs.rows, SameIdentity t t' ∧
      (OfFile db key file t → OfFile (run step db calls) key file t') := by
  induction calls generalizing db t with
  | nil => exact ⟨t, ht, .refl t, id⟩
  | cons c calls ih =>
    obtain ⟨s, hs, hmoved⟩ := step_moved (c := c) ht
    obtain ⟨t', ht', hsame, hof⟩ := ih hs
    exact ⟨t', ht', hmoved.identity.trans hsame, fun h => hof (h.moved hmoved)⟩

/-- Rows of one file in one project have one key. -/
theorem OfFile.key_eq {r s : JobRow} (hr : OfFile db key file r) (hs : OfFile db key file s)
    (hkeyed : WellKeyed db) (hrmem : r ∈ db.jobs.rows) (hsmem : s ∈ db.jobs.rows) :
    r.key = s.key := by
  obtain ⟨⟨p, hp, hpid, hpkey⟩, hrpath, hrtype⟩ := hr
  obtain ⟨⟨q, hq, hqid, hqkey⟩, hspath, hstype⟩ := hs
  obtain rfl := db.project_key_ext hp hq (hpkey.trans hqkey.symm)
  simp only [JobRow.key, Prod.mk.injEq]
  refine ⟨hpid.symm.trans hqid, hrtype.trans hstype.symm, ?_⟩
  rw [(hkeyed r hrmem).1 hrtype, (hkeyed s hsmem).1 hstype, hrpath, hspath]

end Accepted

section Silence

variable {calls : List Call} {n m : Nat} {jobId : Int} {key file : String}

/-- A job that had not begun after `n` calls has begun by a start since then. -/
theorem begun_since (hidle : ∀ r ∈ (run step .empty (calls.take n)).jobs.rows, r.id = jobId →
      ¬r.status.begun) (hle : n ≤ m) :
    ∀ r ∈ (run step .empty (calls.take m)).jobs.rows, r.id = jobId → r.status.begun →
      ∃ k, n ≤ k ∧ k < m ∧ StartsAt calls k jobId := by
  induction m, hle using Nat.le_induction with
  | base => exact fun r hr hid hbegun => absurd hbegun (hidle r hr hid)
  | succ m hle ih =>
    intro r' hr' hid hbegun
    have hlater : (∃ k, n ≤ k ∧ k < m ∧ StartsAt calls k jobId) →
        ∃ k, n ≤ k ∧ k < m + 1 ∧ StartsAt calls k jobId :=
      fun ⟨k, hk, hlt, hstart⟩ => ⟨k, hk, Nat.lt_succ_of_lt hlt, hstart⟩
    cases hc : calls[m]? with
    | none =>
      have hlength := List.getElem?_eq_none_iff.mp hc
      rw [List.take_of_length_le (Nat.le_succ_of_le hlength)] at hr'
      rw [List.take_of_length_le hlength] at ih
      exact hlater (ih r' hr' hid hbegun)
    | some c =>
      have htake : calls.take (m + 1) = calls.take m ++ [c] := by
        rw [List.take_add_one, hc]
        rfl
      have hrow := hr'
      rw [htake, run_concat] at hr'
      rcases step_origin hr' with ⟨r, hr, hmoved⟩ | hentered
      · have hid₀ : r.id = jobId := hmoved.identity.id.symm.trans hid
        rcases hmoved.change.begun hbegun with hbefore | ⟨hpending, hrunning, -⟩
        · exact hlater (ih r hr hid₀ hbefore)
        · exact ⟨m, hle, Nat.lt_succ_self m, r, hr, r', hrow, ⟨hid₀, hpending⟩, hid, hrunning⟩
      · exact absurd hbegun hentered.not_begun

/-- Of the rows of a file the first one listed has the greatest id. -/
theorem id_le_of_listOrder {db : Database} (hdated : Dated db) {r s : JobRow} (hr : r ∈ db.jobs.rows)
    (hs : s ∈ db.jobs.rows) (h : listOrder r s) : s.id ≤ r.id := by
  by_contra hlt
  have hcreated := hdated r hr s hs (not_le.mp hlt)
  unfold listOrder at h
  omega

theorem step_run_take {c : Call} (hc : calls[n]? = some c) (db : Database) :
    step (run step db (calls.take n)) c = run step db (calls.take (n + 1)) := by
  rw [List.take_add_one, hc]
  exact (run_concat step db (calls.take n) c).symm

theorem run_drop (calls : List Call) (n : Nat) (db : Database) :
    run step (run step db (calls.take n)) (calls.drop n) = run step db calls := by
  rw [← run_append, List.take_append_drop]

/-- When a submission of its file is accepted, the row that is listed first in the end
has not begun. -/
theorem not_begun_of_accepted {c : Call} {job : JobRow} (hdated : Dated (run step .empty calls))
    (hjob : job ∈ (run step .empty calls).jobs.rows)
    (hof : OfFile (run step .empty calls) key file job)
    (hfirst : ∀ s ∈ (run step .empty calls).jobs.rows,
      OfFile (run step .empty calls) key file s → listOrder job s)
    (hc : calls[n]? = some c) (haccepted : Accepted (run step .empty (calls.take n)) c key file) :
    ∀ r ∈ (run step .empty (calls.take (n + 1))).jobs.rows, r.id = job.id → ¬r.status.begun := by
  intro r hr hid hbegun
  obtain ⟨t, ht, htof, hstatus⟩ := haccepted.leaves (run_wellKeyed _)
  rw [step_run_take hc] at ht htof hstatus
  obtain ⟨t', ht', htsame, htof'⟩ := run_identity ht (calls.drop (n + 1))
  have hkept : ∃ r' ∈ _, SameIdentity r r' ∧ (OfFile _ key file r → OfFile _ key file r') :=
    run_identity hr (calls.drop (n + 1))
  obtain ⟨r', hr', hrsame, -⟩ := hkept
  rw [run_drop] at ht' hr' htof'
  obtain rfl := (run step .empty calls).job_ext hr' hjob (hrsame.id.trans hid)
  have hkey : t.key = r.key := by
    rw [← htsame.key, ← hrsame.key]
    exact (htof' htof).key_eq hof (run_wellKeyed calls) ht' hr'
  have hle : t.id ≤ r.id := by
    rw [← htsame.id, ← hrsame.id]
    exact id_le_of_listOrder hdated hr' ht' (hfirst t' ht' (htof' htof))
  rcases hle.lt_or_eq with hlt | heq
  · rcases hstatus with hpending | ⟨-, hnewest⟩
    · have hterminal := run_inTurn _ t ht r hr hkey hlt hbegun
      exact not_terminal_of_pending hpending hterminal
    · exact absurd hlt (hnewest r hr).not_gt
  · obtain rfl := (run step .empty (calls.take (n + 1))).job_ext ht hr heq
    rcases hstatus with hpending | ⟨hsuperseded, -⟩
    · exact absurd hbegun (by simp [hpending, JobStatus.begun, JobStatus.executing])
    · exact absurd hbegun (by simp [hsuperseded, JobStatus.begun, JobStatus.executing])

/-- A job that is started is started for a last time. -/
theorem exists_last_start (h : StartsAt calls n jobId) :
    ∃ k, n ≤ k ∧ StartsAt calls k jobId ∧ ∀ m, StartsAt calls m jobId → m ≤ k := by
  classical
  refine ⟨Nat.findGreatest (fun k => StartsAt calls k jobId) calls.length, ?_, ?_, ?_⟩
  · exact Nat.le_findGreatest h.lt_length.le h
  · exact Nat.findGreatest_spec (P := fun k => StartsAt calls k jobId) h.lt_length.le h
  · exact fun m hm => Nat.le_findGreatest hm.lt_length.le hm

/-- Silence about a file: its latest job was last started after every accepted submission
of the file; and where there is no job, none was accepted. -/
theorem silence_means_fresh (hclock : calls.Pairwise fun a b => a.now ≤ b.now)
    {fs : FileSystem} {project filePath : String} {latest : Option Job}
    (hkey : normalizeProjectFilter fs project = .ok key)
    (hfile : normalizeSourcePath filePath = .ok file)
    (h : latestJob fs project filePath (run step .empty calls) = .ok latest) :
    (∀ job ∈ latest, job.status = .succeeded →
      ∀ n c, calls[n]? = some c → Accepted (run step .empty (calls.take n)) c key file →
        ∃ k, n < k ∧ StartsAt calls k job.id ∧ ∀ m, StartsAt calls m job.id → m ≤ k) ∧
    (latest = none → ∀ n c, calls[n]? = some c →
      ¬Accepted (run step .empty (calls.take n)) c key file) := by
  have hdated : Dated (run step .empty calls) :=
    run_dated hclock (fun _ hr => by cases hr) fun _ hr => by cases hr
  rcases latestJob_cases hkey hfile h with
    ⟨hlatest, hnone⟩ | ⟨job, r, hlatest, hr, hof, hid, hstatus, hfirst⟩
  · rw [hlatest]
    refine ⟨fun _ hjob => (by cases hjob), fun _ n c hc haccepted => ?_⟩
    obtain ⟨t, ht, htof, -⟩ := haccepted.leaves (run_wellKeyed _)
    rw [step_run_take hc] at ht htof
    obtain ⟨t', ht', -, htof'⟩ := run_identity ht (calls.drop (n + 1))
    rw [run_drop] at ht' htof'
    exact hnone t' ht' (htof' htof)
  · rw [hlatest]
    refine ⟨fun listed hlisted hsucceeded n c hc haccepted => ?_, fun hnone => (by cases hnone)⟩
    obtain rfl : job = listed := Option.mem_some_iff.mp hlisted
    have hidle := not_begun_of_accepted hdated hr hof hfirst hc haccepted
    have hlt : n < calls.length := (List.getElem?_eq_some_iff.mp hc).1
    have hall : calls.take calls.length = calls := List.take_length
    obtain ⟨k, hk, -, hstart⟩ := begun_since hidle hlt r (hall.symm ▸ hr) rfl
      (.inr (.inl (hstatus ▸ hsucceeded)))
    rw [hid]
    obtain ⟨last, hle, hlast, hmax⟩ := exists_last_start hstart
    exact ⟨last, lt_of_lt_of_le hk hle, hlast, hmax⟩

/-- A file is submitted twice before its scan starts, and the scan succeeds. -/
def scannedRun : List Call :=
  [submitCall 1 "a.py", submitCall 1 "a.py", ⟨2, .claimNextPending providerRust⟩,
    ⟨3, .completeSuccess 1 .null⟩]

theorem silence_means_fresh_scanned : ∃ job,
    latestJob exampleFs "/p" "a.py" (run step .empty scannedRun) = .ok (some job) ∧
      job.status = .succeeded ∧
      ∀ n c, scannedRun[n]? = some c →
        Accepted (run step .empty (scannedRun.take n)) c "/p" "a.py" →
          ∃ k, n < k ∧ StartsAt scannedRun k job.id ∧ ∀ m, StartsAt scannedRun m job.id → m ≤ k := by
  have hstatus : (latestJob exampleFs "/p" "a.py" (run step .empty scannedRun)).map
      (fun latest => latest.map (·.status)) = .ok (some .succeeded) := by decide +kernel
  obtain ⟨latest, hlatest, hsome⟩ := exists_of_map_eq_ok hstatus
  obtain ⟨job, rfl, hsucceeded⟩ := Option.map_eq_some_iff.mp hsome
  have hclock : scannedRun.Pairwise fun a b => a.now ≤ b.now := by decide
  exact ⟨job, hlatest, hsucceeded,
    (silence_means_fresh hclock (by decide) (by decide) hlatest).1 job rfl hsucceeded⟩

end Silence

end RemyCC.State
