import Mathlib.Data.List.Induction
import RemyCC.State.Runs

/-!
# No submission is lost in the queue

Deduplication, absorption, the fold and recovery all redirect a submission to
another row. The rows reached by following `superseded_by_job_id` are tracked
over the run: the chain only grows at its end, and it grows to a pending row.
-/

namespace RemyCC.State

open Relational Database

variable {db db' : Database} {c : Call}

/-- The columns that name the work of a row agree. -/
def WellKeyed (db : Database) : Prop :=
  ∀ r ∈ db.jobs.rows,
    (r.jobType = .incrementalScan → r.dedupeKey = incrementalDedupeKey r.filePath) ∧
      (r.jobType = .fullScan → r.dedupeKey = fullScanDedupeKey)

theorem incrementalDedupeKey_injective {f g : String}
    (h : incrementalDedupeKey f = incrementalDedupeKey g) : f = g :=
  (String.append_right_inj _).mp h

theorem SameIdentity.jobType {r r' : JobRow} (h : SameIdentity r r') : r'.jobType = r.jobType :=
  congrArg (fun k => k.2.1) h.key

theorem SameIdentity.projectId {r r' : JobRow} (h : SameIdentity r r') :
    r'.projectId = r.projectId :=
  congrArg Prod.fst h.key

theorem SameIdentity.dedupeKey {r r' : JobRow} (h : SameIdentity r r') :
    r'.dedupeKey = r.dedupeKey :=
  congrArg (fun k => k.2.2) h.key

theorem step_wellKeyed (h : WellKeyed db) : WellKeyed (step db c) := by
  intro r' hr'
  rcases step_origin hr' with ⟨r, hr, hmoved⟩ | hentered
  · rw [hmoved.identity.jobType, hmoved.identity.dedupeKey, hmoved.identity.filePath]
    exact h r hr
  · cases hentered with
    | queued _ _ _ _ _ _ row _ | absorbed _ _ _ _ _ _ _ row _ _ _ _ =>
      subst row
      exact ⟨fun _ => rfl, fun htype => by cases htype⟩
    | fullScan _ _ _ row _ _ =>
      subst row
      exact ⟨fun htype => (by cases htype), fun _ => rfl⟩

theorem wellKeyed_empty : WellKeyed .empty := by
  intro r hr
  cases hr

theorem run_wellKeyed (calls : List Call) : WellKeyed (run step .empty calls) :=
  run_invariant_of_forall (fun _ _ => step_wellKeyed) wellKeyed_empty calls

def NotCancel (c : Call) : Prop := ∀ jobId, c.op ≠ .cancel jobId

def Uncancelled (db : Database) : Prop :=
  ∀ r ∈ db.jobs.rows, r.status ≠ .cancelRequested ∧ r.status ≠ .cancelled

theorem Change.uncancelled {r r' : JobRow} (h : Change c.op db' r r') (hc : NotCancel c)
    (hr : r.status ≠ .cancelRequested ∧ r.status ≠ .cancelled) :
    r'.status ≠ .cancelRequested ∧ r'.status ≠ .cancelled := by
  cases h with
  | kept status _ => rwa [status]
  | started _ _ _ target | succeeded _ _ _ target | failed _ _ _ target
  | folded _ _ _ target | replaced _ _ target | requeued _ _ target =>
    rw [target]
    decide
  | cancelled hop _ _ | cancelRequested hop _ _ => exact absurd hop (hc _)
  | confirmed _ source _ => exact absurd source hr.1

theorem step_uncancelled (hc : NotCancel c) (h : Uncancelled db) : Uncancelled (step db c) := by
  intro r' hr'
  rcases step_origin hr' with ⟨r, hr, hmoved⟩ | hentered
  · exact hmoved.change.uncancelled hc (h r hr)
  · rcases hentered.status with hs | ⟨hs, -⟩ <;> rw [hs] <;> decide

theorem uncancelled_empty : Uncancelled .empty := by
  intro r hr
  cases hr

theorem run_uncancelled {calls : List Call} (hcalls : ∀ c ∈ calls, NotCancel c)
    (h : Uncancelled db) : Uncancelled (run step db calls) := by
  induction calls generalizing db with
  | nil => exact h
  | cons c calls ih =>
    exact ih (fun d hd => hcalls d (List.mem_cons_of_mem c hd))
      (step_uncancelled (hcalls c List.mem_cons_self) h)

/-- Following `superseded_by_job_id` from the row of an id ends in a row. -/
inductive Leads (db : Database) : Int → JobRow → Prop
  | here {r : JobRow} (mem : r ∈ db.jobs.rows) (live : r.status ≠ .superseded) : Leads db r.id r
  | next {r s : JobRow} {k : Int} (mem : r ∈ db.jobs.rows) (superseded : r.status = .superseded)
      (link : r.supersededByJobId = some k) (rest : Leads db k s) : Leads db r.id s

theorem Leads.mem {id : Int} {r : JobRow} (h : Leads db id r) : r ∈ db.jobs.rows := by
  induction h with
  | here mem _ => exact mem
  | next _ _ _ _ ih => exact ih

theorem Leads.live {id : Int} {r : JobRow} (h : Leads db id r) : r.status ≠ .superseded := by
  induction h with
  | here _ live => exact live
  | next _ _ _ _ ih => exact ih

theorem Leads.id_eq {id : Int} {r : JobRow} (h : Leads db id r)
    (hnone : ∀ s ∈ db.jobs.rows, s.status ≠ .superseded) : r.id = id := by
  cases h with
  | here _ _ => rfl
  | next mem superseded _ _ => exact absurd superseded (hnone _ mem)

theorem Leads.transfer {id : Int} {r s : JobRow} (h : Leads db id r)
    (hkeep : ∀ r ∈ db.jobs.rows, r.status = .superseded → r ∈ db'.jobs.rows)
    (hs : Leads db' r.id s) : Leads db' id s := by
  induction h with
  | here _ _ => exact hs
  | next mem superseded link _ ih => exact .next (hkeep _ mem superseded) superseded link (ih hs)

/-- Call number `n` of the run takes the job from pending to running. -/
def StartsAt (calls : List Call) (n : Nat) (jobId : Int) : Prop :=
  ∃ r ∈ (run step .empty (calls.take n)).jobs.rows,
    ∃ r' ∈ (run step .empty (calls.take (n + 1))).jobs.rows,
      (r.id = jobId ∧ r.status = .pending) ∧ r'.id = jobId ∧ r'.status = .running

theorem StartsAt.lt_length {calls : List Call} {n : Nat} {jobId : Int}
    (h : StartsAt calls n jobId) : n < calls.length := by
  by_contra hle
  have hle : calls.length ≤ n := not_lt.mp hle
  obtain ⟨r, hr, r', hr', ⟨hid, hpending⟩, hid', hrunning⟩ := h
  rw [List.take_of_length_le hle] at hr
  rw [List.take_of_length_le (Nat.le_succ_of_le hle)] at hr'
  rw [Database.job_ext hr hr' (hid.trans hid'.symm), hrunning] at hpending
  cases hpending

theorem StartsAt.append {calls : List Call} {n : Nat} {jobId : Int} (h : StartsAt calls n jobId)
    (more : List Call) : StartsAt (calls ++ more) n jobId := by
  have hlt := h.lt_length
  unfold StartsAt
  rw [List.take_append_of_le_length (Nat.le_of_lt hlt), List.take_append_of_le_length hlt]
  exact h

theorem startsAt_concat {calls : List Call} {c : Call} {r r' : JobRow}
    (hr : r ∈ (run step .empty calls).jobs.rows)
    (hr' : r' ∈ (run step .empty (calls ++ [c])).jobs.rows) (hid : r'.id = r.id)
    (hpending : r.status = .pending) (hrunning : r'.status = .running) :
    StartsAt (calls ++ [c]) calls.length r.id := by
  refine ⟨r, ?_, r', ?_, ⟨rfl, hpending⟩, hid, hrunning⟩
  · rwa [List.take_left]
  · rwa [List.take_of_length_le (by simp)]

/-- The row stands for the work of a submission of the file in the project. -/
def Stands (projectId : Int) (file : String) (r : JobRow) : Prop :=
  r.projectId = projectId ∧
    (r.jobType = .fullScan ∨ (r.jobType = .incrementalScan ∧ r.filePath = file))

theorem SameIdentity.stands {projectId : Int} {file : String} {r r' : JobRow}
    (h : SameIdentity r r') (hr : Stands projectId file r) : Stands projectId file r' := by
  unfold Stands
  rw [h.projectId, h.jobType, h.filePath]
  exact hr

/-- Rows of one key are about the same file. -/
theorem WellKeyed.stands (hdb : WellKeyed db) {r : JobRow} (hr : r ∈ db.jobs.rows)
    (hdb' : WellKeyed db') {s : JobRow} (hs : s ∈ db'.jobs.rows) (hkey : s.key = r.key)
    {projectId : Int} {file : String} (h : Stands projectId file r) :
    Stands projectId file s := by
  simp only [JobRow.key, Prod.mk.injEq] at hkey
  obtain ⟨hproject, htype, hdedupe⟩ := hkey
  refine ⟨hproject.trans h.1, ?_⟩
  rcases h.2 with hfull | ⟨hincremental, hfile⟩
  · exact .inl (htype.trans hfull)
  · have htype' := htype.trans hincremental
    rw [(hdb r hr).1 hincremental, (hdb' s hs).1 htype'] at hdedupe
    exact .inr ⟨htype', (incrementalDedupeKey_injective hdedupe).trans hfile⟩

/-- Where the submission numbered `n` of a run stands at its end. -/
def Carried (calls : List Call) (n : Nat) (jobId projectId : Int) (file : String) : Prop :=
  ∃ r, Leads (run step .empty calls) jobId r ∧ Stands projectId file r ∧
    (r.status = .pending ∨ ∃ m, n < m ∧ StartsAt calls m r.id)

theorem Leads.step_eq {id : Int} {r s : JobRow} (h : Leads db id r)
    (hs : Leads (step db c) r.id s) : Leads (step db c) id s :=
  h.transfer (fun _ hmem hsup => step_terminal hmem (.inr (.inr (.inr hsup)))) hs

/-- One more call moves the end of the chain, or lengthens it to a row that waits. -/
theorem carried_concat {calls : List Call} {n : Nat} {jobId projectId : Int} {file : String}
    (hn : n < calls.length) (hcalls : ∀ d ∈ calls ++ [c], NotCancel d)
    (h : Carried calls n jobId projectId file) :
    Carried (calls ++ [c]) n jobId projectId file := by
  obtain ⟨r, hleads, hstands, hstart⟩ := h
  have hkeyed := run_wellKeyed calls
  have hkeyed' := run_wellKeyed (calls ++ [c])
  have hfree := run_uncancelled (fun d hd => hcalls d (List.mem_append_left _ hd))
    uncancelled_empty
  unfold Carried
  rw [run_concat] at hkeyed' ⊢
  obtain ⟨r', hr', hmoved⟩ := step_moved (c := c) hleads.mem
  have hid := hmoved.identity.id
  have hstands' := hmoved.identity.stands hstands
  -- The image of the old end is the new end, unless it has just been superseded.
  have hend : r'.status ≠ .superseded →
      (r'.status = .pending ∨ ∃ m, n < m ∧ StartsAt (calls ++ [c]) m r'.id) →
      ∃ s, Leads (step (run step .empty calls) c) jobId s ∧ Stands projectId file s ∧
        (s.status = .pending ∨ ∃ m, n < m ∧ StartsAt (calls ++ [c]) m s.id) :=
    fun hlive hs => ⟨r', hleads.step_eq (hid ▸ .here hr' hlive), hstands', hs⟩
  have hlink : ∀ s ∈ (step (run step .empty calls) c).jobs.rows, s.status = .pending →
      r'.status = .superseded → r'.supersededByJobId = some s.id → Stands projectId file s →
      ∃ s, Leads (step (run step .empty calls) c) jobId s ∧ Stands projectId file s ∧
        (s.status = .pending ∨ ∃ m, n < m ∧ StartsAt (calls ++ [c]) m s.id) := by
    intro s hs hpending hsup hlink hstands
    have hrest := Leads.here hs (by rw [hpending]; decide)
    exact ⟨s, hleads.step_eq (hid ▸ .next hr' hsup hlink hrest), hstands, .inl hpending⟩
  have hkept : ∀ m, n < m ∧ StartsAt calls m r.id → n < m ∧ StartsAt (calls ++ [c]) m r'.id :=
    fun m hm => ⟨hm.1, hid ▸ hm.2.append [c]⟩
  have hstarted : r.status = .running → ∃ m, n < m ∧ StartsAt (calls ++ [c]) m r'.id := by
    intro hrunning
    rcases hstart with hp | ⟨m, hm⟩
    · rw [hrunning] at hp
      cases hp
    · exact ⟨m, hkept m hm⟩
  cases hmoved.change with
  | kept status _ =>
    refine hend (status ▸ hleads.live) ?_
    rw [status]
    exact hstart.imp_right fun ⟨m, hm⟩ => ⟨m, hkept m hm⟩
  | started _ _ source target =>
    refine hend (by rw [target]; decide) (.inr ⟨calls.length, hn, ?_⟩)
    rw [hid]
    exact startsAt_concat hleads.mem (by rwa [run_concat]) hid source target
  | succeeded _ _ source target | failed _ _ source target =>
    exact hend (by rw [target]; decide) (.inr (hstarted source))
  | folded _ _ _ target fullScan mem project fullType pending supersededBy =>
    exact hlink fullScan mem pending target supersededBy
      ⟨project.trans hstands.1, .inl fullType⟩
  | replaced _ _ target successor mem key pending supersededBy =>
    exact hlink successor mem pending target supersededBy
      (hkeyed.stands hleads.mem hkeyed' mem key hstands)
  | requeued _ _ target => exact hend (by rw [target]; decide) (.inl target)
  | cancelled hop _ _ | cancelRequested hop _ _ =>
    exact absurd hop (hcalls c (by simp) _)
  | confirmed _ source _ => exact absurd source (hfree r hleads.mem).1

theorem carried_append {calls more : List Call} {n : Nat} {jobId projectId : Int} {file : String}
    (hn : n < calls.length) (hcalls : ∀ d ∈ calls ++ more, NotCancel d)
    (h : Carried calls n jobId projectId file) :
    Carried (calls ++ more) n jobId projectId file := by
  induction more using List.reverseRecOn with
  | nil => simpa using h
  | append_singleton more c ih =>
    rw [← List.append_assoc] at hcalls ⊢
    refine carried_concat ?_ hcalls (ih fun d hd => hcalls d (List.mem_append_left _ hd))
    exact Nat.lt_of_lt_of_le hn (by simp)

/-- The row a submission returns leads to a waiting row for its file. -/
theorem Enqueued.leads {projectId now : Int} {dbPath file : String} {priority : JobPriority}
    {result : SubmitResult} (h : Enqueued db projectId dbPath file priority now db' result)
    (hkeyed : WellKeyed db) :
    ∃ r, Leads db' result.job.id r ∧ Stands projectId file r ∧ r.status = .pending := by
  cases h with
  | absorbed fullScan found rows p _ job _ =>
    obtain ⟨hmem, hproject, htype, hpending⟩ := pendingFullScan?_eq_some found
    rw [job]
    refine ⟨fullScan, .next ?_ rfl rfl (.here ?_ ?_), ⟨hproject, .inl htype⟩, hpending⟩
    · simp [rows]
    · exact rows ▸ List.mem_append_left _ hmem
    · rw [hpending]
      decide
  | deduped twin _ found rows p _ job _ =>
    obtain ⟨hmem, hproject, htype, hdedupe, hpending⟩ := pendingTwin?_eq_some found
    have hrow : raiseRow twin.id priority twin =
        { twin with priority := twin.priority.max priority } := if_pos rfl
    have hmem' : { twin with priority := twin.priority.max priority } ∈ db'.jobs.rows := by
      rw [rows, ← hrow]
      exact List.mem_map_of_mem hmem
    have hlive : twin.status ≠ .superseded := by
      rw [hpending]
      decide
    have hfile := incrementalDedupeKey_injective (((hkeyed twin hmem).1 htype).symm.trans hdedupe)
    have hleads := Leads.here hmem' hlive
    rw [job, hrow]
    exact ⟨_, hleads, ⟨hproject, .inr ⟨htype, hfile⟩⟩, hpending⟩
  | queued _ _ rows p _ job _ =>
    rw [job]
    exact ⟨_, .here (by simp [rows]) (by simp [queuedRow, newJobRow]), ⟨rfl, .inr ⟨rfl, rfl⟩⟩, rfl⟩

theorem Submitted.leads {fs : FileSystem} {now : Int} {request : SubmitJob}
    {projectPath dbPath file : String} {registered : Database} {project : ProjectRow}
    {result : SubmitResult}
    (h : Submitted fs now request db projectPath dbPath file registered project db' result)
    (hkeyed : WellKeyed db) :
    ∃ r, Leads db' result.job.id r ∧ Stands project.id file r ∧ r.status = .pending := by
  refine h.enqueued.leads fun r hr => hkeyed r ?_
  rwa [h.register.jobs_eq] at hr

/-- The project of an id is registered under a key. -/
def Names (id : Int) (key : String) (db : Database) : Prop :=
  ∃ p ∈ db.projects.rows, p.id = id ∧ p.projectKey = key

theorem step_names {id : Int} {key : String} (h : Names id key db) : Names id key (step db c) := by
  obtain ⟨p, hp, hid, hkey⟩ := h
  rcases step_cases db c with ⟨hsame, -⟩ | ⟨-, hevolves⟩
  · exact ⟨p, hsame.symm ▸ hp, hid, hkey⟩
  · obtain ⟨p', hp', hid', hkey', -⟩ := hevolves.projects p hp
    exact ⟨p', hp', hid'.trans hid, hkey'.trans hkey⟩

theorem Submitted.names {fs : FileSystem} {now : Int} {request : SubmitJob}
    {projectPath dbPath file : String} {registered : Database} {project : ProjectRow}
    {result : SubmitResult}
    (h : Submitted fs now request db projectPath dbPath file registered project db' result) :
    Names project.id (projectKey projectPath) db' := by
  have hrest : SameRest registered db' := by
    cases h.enqueued <;> assumption
  exact ⟨project, hrest.projects ▸ h.mem, rfl, h.keyed⟩

/-- No submission is lost while nothing is cancelled: from the returned job
the chain of successors ends in a job for the same file, or in a full scan, of
the same project, which still waits or was started after the submission. -/
theorem submission_carried (before after : List Call) (fs : FileSystem) (now : Int)
    (request : SubmitJob) (db' : Database) (result : SubmitResult)
    (hcalls : ∀ c ∈ before ++ after, NotCancel c)
    (hok : submit fs now request (run step .empty before) = .ok (db', result)) :
    ∃ projectPath file r,
      normalizeExistingProject fs request.projectPath = .ok projectPath ∧
      normalizeSourcePath request.filePath = .ok file ∧
      Leads (run step .empty (before ++ ⟨now, .submit fs request⟩ :: after)) result.job.id r ∧
      Names r.projectId (projectKey projectPath)
        (run step .empty (before ++ ⟨now, .submit fs request⟩ :: after)) ∧
      (r.jobType = .fullScan ∨ (r.jobType = .incrementalScan ∧ r.filePath = file)) ∧
      r.status ≠ .superseded ∧ r.status ≠ .cancelled ∧
      (r.status = .pending ∨ ∃ m, before.length < m ∧
        StartsAt (before ++ ⟨now, .submit fs request⟩ :: after) m r.id) := by
  obtain ⟨projectPath, dbPath, file, registered, project, h⟩ := submit_yields.of_eq_ok hok
  have hstep : run step .empty (before ++ [⟨now, .submit fs request⟩]) = db' := by
    rw [run_concat]
    simp [step, Call.exec, hok]
  have hcalls' : ∀ d ∈ (before ++ [⟨now, .submit fs request⟩]) ++ after, NotCancel d := by
    intro d hd
    simp only [List.append_assoc, List.mem_append, List.mem_singleton] at hd
    rcases hd with hd | rfl | hd
    · exact hcalls d (List.mem_append_left _ hd)
    · exact fun jobId hop => by cases hop
    · exact hcalls d (List.mem_append_right _ hd)
  have hcarried : Carried (before ++ [⟨now, .submit fs request⟩]) before.length result.job.id
      project.id file := by
    obtain ⟨r, hleads, hstands, hpending⟩ := h.leads (run_wellKeyed before)
    exact ⟨r, hstep ▸ hleads, hstands, .inl hpending⟩
  have hproject : Names project.id (projectKey projectPath) (run step db' after) :=
    run_invariant_of_forall (fun _ _ => step_names) h.names after
  obtain ⟨r, hleads, hstands, hstart⟩ := carried_append (by simp) hcalls' hcarried
  have hfree := run_uncancelled hcalls' uncancelled_empty
  rw [← hstep, ← run_append] at hproject
  rw [List.append_assoc, List.singleton_append] at hleads hstart hproject hfree
  exact ⟨projectPath, file, r, h.project_eq, h.file_eq, hleads, hstands.1 ▸ hproject, hstands.2,
    hleads.live, (hfree r hleads.mem).2, hstart⟩

/-- A crash requeues the started job, and the next submission of its file
joins it. -/
def requeueRun : List Call :=
  [submitCall 1 "a.py", ⟨2, .claimNextPending "rust"⟩, ⟨3, .reopen⟩, submitCall 4 "a.py"]

theorem requeueRun_not_started_after :
    (∀ c ∈ requeueRun, NotCancel c) ∧
    ∃ db' result,
      submit exampleFs 4 ⟨"/p", "/p/i.db", "a.py", .background⟩
        (run step .empty (requeueRun.take 3)) = .ok (db', result) ∧
      ∀ r, Leads (run step .empty requeueRun) result.job.id r →
        (∃ m, StartsAt requeueRun m r.id) ∧ ¬ ∃ m, 3 < m ∧ StartsAt requeueRun m r.id := by
  have hjob : (submit exampleFs 4 ⟨"/p", "/p/i.db", "a.py", .background⟩
      (run step .empty (requeueRun.take 3))).map (fun u => u.2.job.id) = .ok 1 := by decide
  have hlive : ∀ r ∈ (run step .empty requeueRun).jobs.rows, r.status ≠ .superseded := by decide
  have hstart : StartsAt requeueRun 1 1 := by
    unfold StartsAt
    decide
  obtain ⟨u, hsubmit, hid⟩ := exists_of_map_eq_ok hjob
  refine ⟨by simp [requeueRun, submitCall, NotCancel], u.1, u.2, hsubmit, fun r hleads => ?_⟩
  rw [hleads.id_eq hlive, hid]
  refine ⟨⟨1, hstart⟩, ?_⟩
  rintro ⟨m, hlt, hm⟩
  exact absurd hm.lt_length (not_lt.mpr hlt)

theorem submission_carried_requeued :
    (∀ c ∈ requeueRun.take 3 ++ [], NotCancel c) ∧
    ∃ db' result, submit exampleFs 4 ⟨"/p", "/p/i.db", "a.py", .background⟩
        (run step .empty (requeueRun.take 3)) = .ok (db', result) ∧
      ∃ r, Leads (run step .empty (requeueRun.take 3 ++
        [⟨4, .submit exampleFs ⟨"/p", "/p/i.db", "a.py", .background⟩⟩])) result.job.id r ∧
        r.status ≠ .superseded ∧ r.status ≠ .cancelled := by
  have hcalls : ∀ c ∈ requeueRun.take 3 ++ [], NotCancel c := by
    simp [requeueRun, submitCall, NotCancel]
  have hjob : (submit exampleFs 4 ⟨"/p", "/p/i.db", "a.py", .background⟩
      (run step .empty (requeueRun.take 3))).map (fun u => u.2.job.id) = .ok 1 := by decide
  obtain ⟨u, hsubmit, -⟩ := exists_of_map_eq_ok hjob
  obtain ⟨_, _, r, -, -, hleads, -, -, hlive, hfree, -⟩ := submission_carried
    (requeueRun.take 3) [] exampleFs 4 ⟨"/p", "/p/i.db", "a.py", .background⟩ u.1 u.2 hcalls hsubmit
  exact ⟨hcalls, u.1, u.2, hsubmit, r, hleads, hlive, hfree⟩

end RemyCC.State
