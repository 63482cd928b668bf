import RemyCC.State.Fold

/-!
# Which full scan a request is handed

A project has at most one full scan in progress. While nobody cancels or fails
it, that job stays on the way to success and can always reach it: every claim
takes a row out of the pending ones, so its turn comes.
-/

namespace RemyCC.State

open Relational Database

variable {db db' : Database} {c : Call}

def JobStatus.active (s : JobStatus) : Prop := s = .pending ∨ s.executing

theorem Change.of_active {op : Op} {r r' : JobRow} (h : Change op db' r r')
    (hactive : r'.status.active) : r.status.active := by
  cases h with
  | kept status _ => exact status ▸ hactive
  | started _ _ source _ | cancelled _ source _ | folded _ _ source _ => exact .inl source
  | succeeded _ _ source _ | failed _ _ source _ | replaced _ source _ | requeued _ source _
  | cancelRequested _ source _ => exact .inr (.inl source)
  | confirmed _ source _ => exact .inr (.inr source)

def OneFullScan (db : Database) : Prop :=
  ∀ r ∈ db.jobs.rows, ∀ s ∈ db.jobs.rows, r.jobType = .fullScan → s.jobType = .fullScan →
    r.projectId = s.projectId → r.status.active → s.status.active → r = s

/-- A full scan enters only a project without one in progress. -/
theorem Entered.no_active {r s : JobRow} (h : Entered c db db' r) (htype : r.jobType = .fullScan)
    (hs : s ∈ db.jobs.rows) (hfull : s.jobType = .fullScan) (hproject : s.projectId = r.projectId) :
    ¬ s.status.active := by
  cases h with
  | queued _ _ _ _ _ _ row _ | absorbed _ _ _ _ _ _ _ row _ _ _ _ =>
    subst row
    cases htype
  | fullScan _ _ _ row inactive _ =>
    subst row
    rintro (hpending | hexecuting)
    · exact (inactive s hs hproject hfull).1 hpending
    · exact (inactive s hs hproject hfull).2 hexecuting

theorem step_oneFullScan (h : OneFullScan db) : OneFullScan (step db c) := by
  intro r' hr' s' hs' hr hs hproject hra hsa
  rcases step_origin hr' with ⟨r, hrmem, hrm⟩ | hre <;>
    rcases step_origin hs' with ⟨s, hsmem, hsm⟩ | hse
  · refine (step db c).job_ext hr' hs' ?_
    rw [hrm.identity.id, hsm.identity.id]
    refine congrArg JobRow.id (h r hrmem s hsmem ?_ ?_ ?_ (hrm.change.of_active hra)
      (hsm.change.of_active hsa))
    · exact hrm.identity.jobType ▸ hr
    · exact hsm.identity.jobType ▸ hs
    · rw [← hrm.identity.projectId, ← hsm.identity.projectId, hproject]
  · refine absurd (hrm.change.of_active hra) (hse.no_active hs hrmem ?_ ?_)
    · exact hrm.identity.jobType ▸ hr
    · rw [← hrm.identity.projectId, hproject]
  · refine absurd (hsm.change.of_active hsa) (hre.no_active hr hsmem ?_ ?_)
    · exact hsm.identity.jobType ▸ hs
    · rw [← hsm.identity.projectId, hproject]
  · exact (step db c).job_ext hr' hs' (hre.id_eq.trans hse.id_eq.symm)

theorem oneFullScan_empty : OneFullScan .empty := by
  intro r hr
  cases hr

theorem run_oneFullScan (calls : List Call) : OneFullScan (run step .empty calls) :=
  run_invariant_of_forall (fun _ _ => step_oneFullScan) oneFullScan_empty calls

/-- A call that neither cancels the job nor reports that its scanner failed. -/
def Spares (jobId : Int) (c : Call) : Prop :=
  c.op ≠ .cancel jobId ∧ ∀ error, c.op ≠ .completeFailure jobId error

/-- The statuses of a full scan on its way to success. -/
def JobStatus.underway (s : JobStatus) : Prop := s = .pending ∨ s = .running ∨ s = .succeeded

def Underway (jobId : Int) (db : Database) : Prop :=
  ∃ r ∈ db.jobs.rows, r.id = jobId ∧ r.jobType = .fullScan ∧ r.status.underway

theorem step_underway {jobId : Int} (hone : OneFullScan db) (hc : Spares jobId c)
    (h : Underway jobId db) : Underway jobId (step db c) := by
  obtain ⟨r, hr, rfl, hfull, hstatus⟩ := h
  obtain ⟨r', hr', hmoved⟩ := step_moved (c := c) hr
  refine ⟨r', hr', hmoved.identity.id, hmoved.identity.jobType.trans hfull, ?_⟩
  cases hmoved.change with
  | kept status _ => rwa [status]
  | started _ _ _ target => exact .inr (.inl target)
  | succeeded _ _ _ target => exact .inr (.inr target)
  | requeued _ _ target => exact .inl target
  | failed error hop _ _ => exact absurd hop (hc.2 error)
  | cancelled hop _ _ | cancelRequested hop _ _ => exact absurd hop hc.1
  | folded _ type _ _ =>
    rw [hfull] at type
    cases type
  | confirmed _ source _ =>
    rcases hstatus with h | h | h <;> rw [h] at source <;> cases source
  | replaced hop source target successor mem key pending _ =>
    -- The successor would be a second full scan in progress of the project.
    simp only [JobRow.key, Prod.mk.injEq] at key
    rcases step_origin mem with ⟨s, hs, hsm⟩ | hentered
    · have hsame : r = s := by
        refine hone r hr s hs hfull ?_ ?_ (.inr (.inl source))
          (hsm.change.of_active (.inl pending))
        · rw [← hsm.identity.jobType, key.2.1, hfull]
        · rw [← hsm.identity.projectId, key.1]
      subst hsame
      have hid := (step db c).job_ext hr' mem (hmoved.identity.id.trans hsm.identity.id.symm)
      rw [hid, pending] at target
      cases target
    · exact absurd (.inr (.inl source))
        (hentered.no_active (key.2.1.trans hfull) hr hfull key.1.symm)

theorem run_underway {jobId : Int} {calls : List Call} (hone : OneFullScan db)
    (hcalls : ∀ c ∈ calls, Spares jobId c) (h : Underway jobId db) :
    Underway jobId (run step db calls) := by
  induction calls generalizing db with
  | nil => exact h
  | cons c calls ih =>
    exact ih (step_oneFullScan hone) (fun d hd => hcalls d (List.mem_cons_of_mem c hd))
      (step_underway hone (hcalls c List.mem_cons_self) h)

theorem countP_map_lt {α : Type*} {l : List α} {p : α → Bool} {f : α → α}
    (hkeep : ∀ a ∈ l, p (f a) = true → p a = true) {a : α} (ha : a ∈ l) (hp : p a = true)
    (hf : p (f a) = false) : (l.map f).countP p < l.countP p := by
  rw [List.countP_map]
  induction l with
  | nil => cases ha
  | cons b l ih =>
    have hle : l.countP (p ∘ f) ≤ l.countP p :=
      List.countP_mono_left fun x hx => hkeep x (List.mem_cons_of_mem b hx)
    simp only [List.countP_cons]
    rcases List.mem_cons.mp ha with rfl | ha
    · simp only [Function.comp, hf, hp, if_true]
      simp only [Bool.false_eq_true, if_false, Nat.add_zero]
      exact Nat.lt_succ_of_le hle
    · have hlt := ih (fun x hx => hkeep x (List.mem_cons_of_mem b hx)) ha
      have hb := hkeep b List.mem_cons_self
      simp only [Function.comp]
      split
      · rename_i hfb
        rw [if_pos (hb hfb)]
        exact Nat.add_lt_add_right hlt 1
      · exact Nat.lt_of_lt_of_le hlt (Nat.le_add_right _ _)

theorem claimable_of_oneFullScan (hone : OneFullScan db) {r : JobRow} (hr : r ∈ db.jobs.rows)
    (hfull : r.jobType = .fullScan) (hpending : r.status = .pending) : claimable db r := by
  refine ⟨hpending, ?_⟩
  rintro ⟨s, hs, hkey, hexecuting⟩
  simp only [JobRow.key, Prod.mk.injEq] at hkey
  have hsame := hone s hs r hr (hkey.2.1.trans hfull) hfull hkey.1 (.inr hexecuting) (.inl hpending)
  rw [hsame, hpending] at hexecuting
  rcases hexecuting with h | h <;> cases h

def claimCall (now : Int) : Call := ⟨now, .claimNextPending providerRust⟩

/-- A claim starts the job or shortens the line before it. -/
theorem step_claimCall {now : Int} (hnow : Readable now) (hone : OneFullScan db) {r : JobRow}
    (hr : r ∈ db.jobs.rows) (hfull : r.jobType = .fullScan) (hpending : r.status = .pending) :
    (∃ s ∈ (step db (claimCall now)).jobs.rows, s.id = r.id ∧ s.status = .running) ∨
      (r ∈ (step db (claimCall now)).jobs.rows ∧
        (step db (claimCall now)).jobs.rows.countP (·.status = .pending) <
          db.jobs.rows.countP (·.status = .pending)) := by
  cases hclaim : claimNextPending now providerRust db with
  | error e => exact absurd hnow ((claimNextPending_yields.of_eq_error hclaim).2 rfl)
  | ok u =>
    have hstep : step db (claimCall now) = u.1 := by
      simp [step, Call.exec, claimCall, hclaim]
    rw [hstep]
    cases (claimNextPending_yields.of_eq_ok hclaim).2 with
    | idle empty _ _ =>
      exact absurd (claimable_of_oneFullScan hone hr hfull hpending)
        (nextPending?_eq_none empty r hr)
    | started next found _ rows _ _ _ _ =>
      obtain ⟨hmem, hnext, -⟩ := nextPending?_eq_some found
      by_cases hid : r.id = next.id
      · refine .inl ⟨startRow now providerRust next.id r, ?_, ?_, ?_⟩
        · exact rows ▸ List.mem_map_of_mem hr
        · simp [startRow, Table.apply, hid]
        · simp [startRow, Table.apply, hid]
      · have hself : startRow now providerRust next.id r = r := if_neg hid
        refine .inr ⟨?_, ?_⟩
        · rw [rows]
          exact List.mem_map.mpr ⟨r, hr, hself⟩
        · rw [rows]
          refine countP_map_lt ?_ hmem (by simpa using hnext) (by simp [startRow, Table.apply])
          intro s _ hs
          unfold startRow Table.apply at hs
          split at hs
          · simp at hs
          · exact hs

/-- Enough claims start a waiting full scan. -/
theorem exists_claims {now : Int} (hnow : Readable now) (hone : OneFullScan db) {r : JobRow}
    (hr : r ∈ db.jobs.rows) (hfull : r.jobType = .fullScan) (hpending : r.status = .pending) :
    ∃ n, ∃ s ∈ (run step db (List.replicate n (claimCall now))).jobs.rows,
      s.id = r.id ∧ s.status = .running := by
  induction hcount : db.jobs.rows.countP (·.status = .pending) using Nat.strong_induction_on
    generalizing db with
  | h count ih =>
    rcases step_claimCall hnow hone hr hfull hpending with ⟨s, hs, hid, hrunning⟩ | ⟨hr', hlt⟩
    · exact ⟨1, s, hs, hid, hrunning⟩
    · obtain ⟨n, s, hs, hid, hrunning⟩ := ih _ (hcount ▸ hlt) (step_oneFullScan hone) hr' rfl
      exact ⟨n + 1, s, hs, hid, hrunning⟩

theorem step_completeSuccess {now : Int} (hnow : Readable now) {r : JobRow}
    (hr : r ∈ db.jobs.rows) (hrunning : r.status = .running) (value : Json.Value) :
    ∃ s ∈ (step db ⟨now, .completeSuccess r.id value⟩).jobs.rows,
      s.id = r.id ∧ s.status = .succeeded := by
  cases hcomplete : complete now r.id (.success value) db with
  | error e =>
    exact absurd hrunning ((complete_yields.of_eq_error hcomplete).2 hnow r hr rfl)
  | ok u =>
    obtain ⟨s, hc⟩ := complete_yields.of_eq_ok hcomplete
    have hstep : step db ⟨now, .completeSuccess r.id value⟩ = u.1 := by
      simp [step, Call.exec, completeSuccess, hcomplete]
    rw [hstep, hc.rows]
    refine ⟨_, List.mem_map_of_mem hr, ?_, ?_⟩
    · simp [completeRow, Table.apply, hrunning]
    · simp [completeRow, Table.apply, hrunning, Completion.status]

/-- From any state the job is still underway in, claims and its own successful
completion finish it. -/
theorem exists_finish {now : Int} (hnow : Readable now) (hone : OneFullScan db) {jobId : Int}
    (h : Underway jobId db) (value : Json.Value) :
    ∃ more, (∀ c ∈ more, c = claimCall now ∨ c = ⟨now, .completeSuccess jobId value⟩) ∧
      ∃ s ∈ (run step db more).jobs.rows, s.id = jobId ∧ s.status = .succeeded := by
  obtain ⟨r, hr, rfl, hfull, hpending | hrunning | hsucceeded⟩ := h
  · obtain ⟨n, s, hs, hid, hrunning⟩ := exists_claims hnow hone hr hfull hpending
    obtain ⟨t, ht, htid, hfinal⟩ := step_completeSuccess hnow hs hrunning value
    refine ⟨List.replicate n (claimCall now) ++ [⟨now, .completeSuccess r.id value⟩], ?_, t, ?_,
      htid.trans hid, hfinal⟩
    · intro c hc
      rcases List.mem_append.mp hc with hc | hc
      · exact .inl (List.eq_of_mem_replicate hc)
      · exact .inr (List.mem_singleton.mp hc)
    · rw [run_concat, ← hid]
      exact ht
  · obtain ⟨t, ht, htid, hfinal⟩ := step_completeSuccess hnow hr hrunning value
    exact ⟨[⟨now, .completeSuccess r.id value⟩], fun c hc => .inr (List.mem_singleton.mp hc), t,
      ht, htid, hfinal⟩
  · exact ⟨[], fun c hc => (by cases hc), r, hr, rfl, hsucceeded⟩

/-- Whatever follows without a cancel or a failure of the job, it is underway,
and claims followed by its successful completion end it succeeded. -/
def EndsSucceeded (db : Database) (jobId : Int) : Prop :=
  ∀ calls, (∀ c ∈ calls, Spares jobId c) →
    (∃ r ∈ (run step db calls).jobs.rows, r.id = jobId ∧ r.status.underway) ∧
    ∀ now, Readable now → ∀ value, ∃ more,
      (∀ c ∈ more, c = claimCall now ∨ c = ⟨now, .completeSuccess jobId value⟩) ∧
      ∃ s ∈ (run step db (calls ++ more)).jobs.rows, s.id = jobId ∧ s.status = .succeeded

theorem endsSucceeded {jobId : Int} (hone : OneFullScan db) (h : Underway jobId db) :
    EndsSucceeded db jobId := by
  intro calls hcalls
  have hrun := run_underway hone hcalls h
  have hone' : OneFullScan (run step db calls) :=
    run_invariant_of_forall (fun _ _ => step_oneFullScan) hone calls
  refine ⟨?_, fun now hnow value => ?_⟩
  · obtain ⟨r, hr, hid, -, hstatus⟩ := hrun
    exact ⟨r, hr, hid, hstatus⟩
  · obtain ⟨more, hmore, hfinal⟩ := exists_finish hnow hone' hrun value
    exact ⟨more, hmore, by rwa [run_append]⟩

/-- A request for a full scan is handed a job on its way to success exactly
when no full scan of the project is being cancelled. -/
theorem submitFullScan_endsSucceeded_iff (calls : List Call) (now projectId : Int)
    (db' : Database) (result : SubmitResult)
    (hok : submitFullScan now projectId (run step .empty calls) = .ok (db', result)) :
    ((result.job.status = .pending ∨ result.job.status = .running) ∧
        EndsSucceeded db' result.job.id) ↔
      ¬ ∃ r ∈ (run step .empty calls).jobs.rows, r.projectId = projectId ∧
        r.jobType = .fullScan ∧ r.status = .cancelRequested := by
  have hone := run_oneFullScan calls
  have hsubmitted : FullScanSubmitted now projectId (run step .empty calls) db' result :=
    submitFullScan_yields.of_eq_ok hok
  cases hsubmitted with
  | existing project _ active found same job =>
    obtain ⟨hmem, hproject, htype, hstatus⟩ := activeFullScan?_eq_some found
    rw [job, same]
    constructor
    · rintro ⟨hlive, -⟩ ⟨r, hr, hrproject, hrtype, hrequested⟩
      have hsame := hone active hmem r hr htype hrtype (hproject.trans hrproject.symm)
        hstatus (.inr (.inr hrequested))
      rw [← hsame] at hrequested
      simp only [JobRow.toJob, hrequested] at hlive
      rcases hlive with h | h <;> cases h
    · intro hnone
      have hlive : active.status = .pending ∨ active.status = .running := by
        rcases hstatus with h | h | h
        · exact .inl h
        · exact .inr h
        · exact absurd ⟨active, hmem, hproject, htype, h⟩ hnone
      exact ⟨hlive, endsSucceeded hone ⟨active, hmem, rfl, htype, hlive.imp_right .inl⟩⟩
  | created project _ inactive _ rows job _ =>
    have hstep : step (run step .empty calls) ⟨now, .submitFullScan projectId⟩ = db' := by
      simp [step, Call.exec, hok]
    have hone' : OneFullScan db' := hstep ▸ step_oneFullScan hone
    rw [job]
    constructor
    · rintro - ⟨r, hr, hrproject, hrtype, hrequested⟩
      exact (activeFullScan?_eq_none inactive hr hrproject hrtype).2 (.inr hrequested)
    · intro _
      refine ⟨.inl rfl, endsSucceeded hone' ⟨fullScanRow projectId project.dbPath now _, ?_, rfl,
        rfl, .inl rfl⟩⟩
      rw [rows]
      exact List.mem_append_right _ (List.mem_singleton_self _)

/-- A running full scan is cancelled, and before it stops another is requested. -/
def doomedRun : List Call :=
  [submitCall 1 "a.py", ⟨2, .submitFullScan 1⟩, claimCall 3, ⟨4, .cancel 2⟩]

theorem doomedRun_handed : ∃ db' result,
    submitFullScan 5 1 (run step .empty doomedRun) = .ok (db', result) ∧
      ¬ (result.job.status = .pending ∨ result.job.status = .running) := by
  have hjob : (submitFullScan 5 1 (run step .empty doomedRun)).map (fun u => u.2.job.status) =
      .ok .cancelRequested := by decide
  obtain ⟨u, hsubmit, hstatus⟩ := exists_of_map_eq_ok hjob
  exact ⟨u.1, u.2, hsubmit, by rw [hstatus]; decide⟩

theorem submitFullScan_endsSucceeded_running : ∃ db' result,
    submitFullScan 5 1 (run step .empty (doomedRun.take 3)) = .ok (db', result) ∧
      EndsSucceeded db' result.job.id := by
  have hjob : (submitFullScan 5 1 (run step .empty (doomedRun.take 3))).map
      (fun u => u.2.job.id) = .ok 2 := by decide
  obtain ⟨u, hsubmit, -⟩ := exists_of_map_eq_ok hjob
  have hnone : ¬ ∃ r ∈ (run step .empty (doomedRun.take 3)).jobs.rows, r.projectId = 1 ∧
      r.jobType = .fullScan ∧ r.status = .cancelRequested := by decide
  exact ⟨u.1, u.2, hsubmit,
    ((submitFullScan_endsSucceeded_iff (doomedRun.take 3) 5 1 u.1 u.2 hsubmit).mpr hnone).2⟩

end RemyCC.State
