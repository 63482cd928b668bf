import RemyCC.State.Queue

/-!
# When the supersede fold is exclusive

A pending full scan absorbs the pending incremental jobs of its project.
Submissions respect the fold; recovery requeues both kinds of job and does
not fold again, so everything depends on what a reopening finds.
-/

namespace RemyCC.State

open Relational Database

variable {db db' : Database} {c : Call}

/-- No project has a pending full scan next to a pending incremental job. -/
def Exclusive (db : Database) : Prop :=
  ∀ full ∈ db.jobs.rows, ∀ r ∈ db.jobs.rows, full.projectId = r.projectId →
    full.jobType = .fullScan → full.status = .pending → r.jobType = .incrementalScan →
      r.status ≠ .pending

instance (db : Database) : Decidable (Exclusive db) :=
  inferInstanceAs (Decidable (∀ full ∈ db.jobs.rows, ∀ r ∈ db.jobs.rows, _))

/-- The statuses recovery leaves pending, or replaced by a pending row of the key. -/
def JobStatus.outstanding (s : JobStatus) : Prop := s = .pending ∨ s = .running

instance : DecidablePred JobStatus.outstanding :=
  fun s => inferInstanceAs (Decidable (s = _ ∨ s = _))

/-- A reopening that goes through finds no project with work of both types
outstanding. -/
def FoldSafe (db : Database) (c : Call) : Prop :=
  c.op = .reopen → Readable c.now → ∀ full ∈ db.jobs.rows, ∀ r ∈ db.jobs.rows,
    full.projectId = r.projectId → full.jobType = .fullScan → full.status.outstanding →
      r.jobType = .incrementalScan → ¬ r.status.outstanding

theorem Change.of_pending {op : Op} {r r' : JobRow} (h : Change op db' r r')
    (hpending : r'.status = .pending) :
    r.status = .pending ∨ (op = .reopen ∧ r.status = .running) := by
  cases h with
  | kept status _ => exact .inl (status ▸ hpending)
  | requeued hop source _ => exact .inr ⟨hop, source⟩
  | started _ _ _ target | succeeded _ _ _ target | failed _ _ _ target
  | folded _ _ _ target | replaced _ _ target | cancelled _ _ target
  | cancelRequested _ _ target | confirmed _ _ target =>
    rw [target] at hpending
    cases hpending

theorem exec_reopen_readable (hop : c.op = .reopen) (h : c.exec db = .ok db') :
    Readable c.now := by
  obtain ⟨now, op⟩ := c
  cases hop
  obtain ⟨report, hr⟩ := exec_map_ok h
  exact (recover_yields.of_eq_ok hr).1

theorem step_exclusive (hsafe : FoldSafe db c) (h : Exclusive db) : Exclusive (step db c) := by
  rcases step_cases db c with ⟨hsame, -⟩ | ⟨hexec, hevolves⟩
  · rwa [hsame]
  intro full' hfull' r' hr' hproject hfullType hfullPending htype hpending
  rcases hevolves.origin full' hfull' with ⟨full, hfull, hmovedFull⟩ | hentered
  · rw [hmovedFull.identity.projectId] at hproject
    rw [hmovedFull.identity.jobType] at hfullType
    rcases hevolves.origin r' hr' with ⟨r, hr, hmoved⟩ | hentered
    · rw [hmoved.identity.projectId] at hproject
      rw [hmoved.identity.jobType] at htype
      have hsourceFull := hmovedFull.change.of_pending hfullPending
      have hsource := hmoved.change.of_pending hpending
      have hboth : c.op = .reopen → False := fun hop =>
        hsafe hop (exec_reopen_readable hop hexec) full hfull r hr hproject hfullType
          (hsourceFull.imp_right And.right) htype (hsource.imp_right And.right)
      rcases hsourceFull with hp | ⟨hop, -⟩
      · rcases hsource with hq | ⟨hop, -⟩
        · exact h full hfull r hr hproject hfullType hp htype hq
        · exact hboth hop
      · exact hboth hop
    · cases hentered with
      | queued fs request hop dbPath filePath projectId row open_ =>
        subst row
        refine open_ full hfull hproject hfullType ?_
        rcases hmovedFull.change.of_pending hfullPending with hp | ⟨hop', -⟩
        · exact hp
        · rw [hop] at hop'
          cases hop'
      | absorbed _ _ _ _ _ _ _ row _ _ _ _ =>
        subst row
        cases hpending
      | fullScan _ _ _ row _ _ =>
        subst row
        cases htype
  · cases hentered with
    | queued _ _ _ _ _ _ row _ | absorbed _ _ _ _ _ _ _ row _ _ _ _ =>
      subst row
      cases hfullType
    | fullScan projectId _ _ row _ folded =>
      subst row
      exact folded r' hr' hproject.symm htype hpending

/-- After a reopening a row that was outstanding has a pending row of its key. -/
theorem recover_pending {now : Int} {r : JobRow}
    (hrows : db'.jobs.rows = db.jobs.rows.map (recoverRow db now)) (hr : r ∈ db.jobs.rows)
    (h : r.status.outstanding) : ∃ s ∈ db'.jobs.rows, s.key = r.key ∧ s.status = .pending := by
  have hmem : ∀ s ∈ db.jobs.rows, recoverRow db now s ∈ db'.jobs.rows :=
    fun s hs => hrows ▸ List.mem_map_of_mem hs
  rcases h with hpending | hrunning
  · refine ⟨r, ?_, rfl, hpending⟩
    have hself := hmem r hr
    rwa [show recoverRow db now r = r by simp [recoverRow, hpending]] at hself
  · cases hfind : successor? db r.key with
    | some s =>
      obtain ⟨hs, hkey, hpending⟩ := successor?_eq_some hfind
      refine ⟨s, ?_, hkey, hpending⟩
      have hself := hmem s hs
      rwa [show recoverRow db now s = s by simp [recoverRow, hpending]] at hself
    | none =>
      refine ⟨_, hmem r hr, recoverRow_key db r, ?_⟩
      simp [recoverRow, hrunning, requeueEdit, hfind, transitionEdit]

theorem foldSafe_of_exclusive (h : Exclusive (step db c)) : FoldSafe db c := by
  intro hop hreadable full hfull r hr hproject hfullType hfullOutstanding htype houtstanding
  obtain ⟨now, op⟩ := c
  cases hop
  cases hrecover : recover now db with
  | error e => exact (recover_yields.of_eq_error hrecover).2 hreadable
  | ok u =>
    obtain ⟨-, hrows, -⟩ := recover_yields.of_eq_ok hrecover
    have hstep : step db ⟨now, .reopen⟩ = u.1 := by simp [step, Call.exec, hrecover]
    rw [hstep] at h
    obtain ⟨full', hfull', hkeyFull, hpendingFull⟩ := recover_pending hrows hfull hfullOutstanding
    obtain ⟨r', hr', hkey, hpending⟩ := recover_pending hrows hr houtstanding
    simp only [JobRow.key, Prod.mk.injEq] at hkeyFull hkey
    refine h full' hfull' r' hr' ?_ (hkeyFull.2.1.trans hfullType) hpendingFull
      (hkey.2.1.trans htype) hpending
    rw [hkeyFull.1, hkey.1, hproject]

theorem exclusive_empty : Exclusive .empty := by
  intro full hfull
  cases hfull

/-- The fold is exclusive in every state of a run exactly when no reopening of
the run finds work of both types outstanding for one project. -/
theorem run_exclusive_iff (calls : List Call) :
    (∀ before after, calls = before ++ after → Exclusive (run step .empty before)) ↔
      Meets step FoldSafe .empty calls := by
  rw [meets_iff_split]
  constructor
  · intro h before c after hcalls
    have hnext := h (before ++ [c]) after (by simp [hcalls])
    rw [run_concat] at hnext
    exact foldSafe_of_exclusive hnext
  · intro h before after hcalls
    have hmeets : Meets step FoldSafe .empty before := by
      refine meets_iff_split.mpr ?_
      rintro before' c after' rfl
      exact h before' c (after' ++ after) (by simp [hcalls])
    exact run_invariant (fun _ _ h hsafe => step_exclusive hsafe h) exclusive_empty hmeets

/-- A full scan is submitted while an incremental job runs, and the daemon
crashes: recovery requeues the job next to the pending full scan. -/
def unfoldedRun : List Call :=
  [submitCall 1 "a.py", ⟨2, .claimNextPending "rust"⟩, ⟨3, .submitFullScan 1⟩, ⟨4, .reopen⟩]

theorem unfoldedRun_not_exclusive : ¬ Exclusive (run step .empty unfoldedRun) := by decide

end RemyCC.State
