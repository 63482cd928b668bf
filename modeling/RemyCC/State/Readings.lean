import RemyCC.State.Runs

/-!
# Clocks that go back

A submission rewrites `last_seen_at` of its project with the reading it meets, and
`projects` asks it to be no earlier than `created_at`. No other call depends on the
order of the readings.
-/

namespace RemyCC.State

open Relational Database

variable {db : Database} {c : Call}

structure ValidPaths (fs : FileSystem) (request : SubmitJob) (projectPath dbPath filePath : String) :
    Prop where
  project : normalizeExistingProject fs request.projectPath = .ok projectPath
  db : normalizeDatabasePath fs request.dbPath = .ok dbPath
  file : normalizeSourcePath request.filePath = .ok filePath

/-- The call breaks no constraint, and if it is a submission of valid paths it succeeds. -/
structure Prevails (db : Database) (c : Call) : Prop where
  unconstrained : ∀ e, c.exec db = .error e → NotConstraint e
  submitted : ∀ fs request projectPath dbPath filePath, c.op = .submit fs request →
    ValidPaths fs request projectPath dbPath filePath → ∃ db', c.exec db = .ok db'

/-- A submission of valid paths meets a reading that fits the column and is not before
the registration of its project. -/
def NotBehind (db : Database) (c : Call) : Prop :=
  ∀ fs request projectPath dbPath filePath, c.op = .submit fs request →
    ValidPaths fs request projectPath dbPath filePath →
      c.now ≤ i64Max ∧
        ∀ p ∈ db.projects.rows, p.projectKey = projectKey projectPath → p.createdAt ≤ c.now

section Submit

variable {fs : FileSystem} {request : SubmitJob} {projectPath dbPath filePath : String} {now : Int}

theorem submit_ok (hvalid : ValidPaths fs request projectPath dbPath filePath)
    (hnow : Readable now)
    (hclock : ∀ p ∈ db.projects.rows, p.projectKey = projectKey projectPath → p.createdAt ≤ now) :
    ∃ db' result, submit fs now request db = .ok (db', result) := by
  have hyields : Yields (submit fs now request db) (fun _ => True) (fun _ => False) := by
    unfold submit
    rw [hvalid.project, hvalid.db, hvalid.file, nowMillis_of_readable hnow]
    simp only [Except.bind, bind]
    refine Yields.bind ((registerProject_yields hnow.1).mono (fun _ _ h => h) ?_)
      fun registered _ hregistered => ?_
    · rintro _ ⟨p, hp, hkey, hlt⟩
      exact absurd (hclock p hp hkey) (not_le.mpr hlt)
    · cases hfind : registered.projects.rows.find? (·.projectKey = projectKey projectPath) with
      | none =>
        obtain ⟨p, hp, hkey, -⟩ := hregistered.named
        have hnone := List.find?_eq_none.mp hfind p hp
        simp [hkey] at hnone
      | some project =>
        have hmem := List.mem_of_find?_eq_some hfind
        exact (enqueue_yields hnow.1 ⟨project, hmem, rfl⟩ _).mono (fun _ _ _ => trivial)
          fun _ h => h
  cases h : submit fs now request db with
  | ok u => exact ⟨u.1, u.2, rfl⟩
  | error e => exact (hyields.of_eq_error h).elim

/-- The row of a registered project is checked, so an accepted reading is not behind. -/
theorem Registered.not_behind {key path dbPath : String} {db' : Database}
    (h : Registered db key path dbPath now db') :
    ∀ p ∈ db.projects.rows, p.projectKey = key → p.createdAt ≤ now := by
  intro p hp hkey
  cases h with
  | updated _ _ _ rows _ =>
    have hmem : { p with projectPath := path, dbPath := dbPath, lastSeenAt := now } ∈
        db'.projects.rows := by
      rw [rows]
      exact List.mem_map.mpr ⟨p, hp, if_pos hkey⟩
    exact (db'.projects.checked _ hmem).2
  | inserted _ fresh _ _ => exact absurd hkey (fresh p hp)

theorem submit_ok_iff (hepoch : 0 ≤ now)
    (hvalid : ValidPaths fs request projectPath dbPath filePath) :
    (∃ db' result, submit fs now request db = .ok (db', result)) ↔
      now ≤ i64Max ∧
        ∀ p ∈ db.projects.rows, p.projectKey = projectKey projectPath → p.createdAt ≤ now := by
  constructor
  · rintro ⟨db', result, hok⟩
    obtain ⟨projectPath', _, _, registered, project, h⟩ := submit_yields.of_eq_ok hok
    have hpath : projectPath' = projectPath :=
      Except.ok.inj (h.project_eq.symm.trans hvalid.project)
    subst hpath
    exact ⟨h.readable.2, h.register.not_behind⟩
  · rintro ⟨hfits, hclock⟩
    exact submit_ok hvalid ⟨hepoch, hfits⟩ hclock

end Submit

theorem exec_submit_ok {fs : FileSystem} {request : SubmitJob} (hop : c.op = .submit fs request) :
    (∃ db', c.exec db = .ok db') ↔ ∃ db' result, submit fs c.now request db = .ok (db', result) := by
  rw [Call.exec, hop]
  constructor
  · rintro ⟨db', h⟩
    obtain ⟨result, hok⟩ := exec_map_ok h
    exact ⟨db', result, hok⟩
  · rintro ⟨db', result, hok⟩
    exact ⟨db', congrArg (Prod.fst <$> ·) hok⟩

theorem prevails_iff (hepoch : 0 ≤ c.now) : Prevails db c ↔ NotBehind db c := by
  constructor
  · intro h fs request projectPath dbPath filePath hop hvalid
    have hok := h.submitted fs request projectPath dbPath filePath hop hvalid
    exact (submit_ok_iff hepoch hvalid).mp ((exec_submit_ok hop).mp hok)
  · intro h
    refine ⟨fun e he => ?_, fun fs request projectPath dbPath filePath hop hvalid => ?_⟩
    · by_cases hsubmit : ∃ fs request, c.op = .submit fs request
      · obtain ⟨fs, request, hop⟩ := hsubmit
        rw [Call.exec, hop] at he
        rcases submit_yields.of_eq_error (exec_map_error he) with he | he
        · exact he
        · obtain ⟨projectPath, dbPath, filePath, hproject, hdb, hfile, p, hp, hkey, hlt⟩ := he
          have hclock := (h fs request projectPath dbPath filePath hop ⟨hproject, hdb, hfile⟩).2
          exact absurd (hclock p hp hkey) (not_le.mpr hlt)
      · have hother := fun fs request hop => hsubmit ⟨fs, request, hop⟩
        exact exec_notConstraint_of_not_submit hother he
    · have hclock := h fs request projectPath dbPath filePath hop hvalid
      exact (exec_submit_ok hop).mpr ((submit_ok_iff hepoch hvalid).mpr hclock)

/-- Under readings from the epoch on, every call of a run goes as it should exactly when
no submission falls behind its project. -/
theorem run_prevails_iff (calls : List Call) (hepoch : ∀ c ∈ calls, 0 ≤ c.now) :
    Meets step Prevails .empty calls ↔ Meets step NotBehind .empty calls := by
  rw [meets_iff_split, meets_iff_split]
  constructor
  · rintro h before c after rfl
    exact (prevails_iff (hepoch c (by simp))).mp (h before c after rfl)
  · rintro h before c after rfl
    exact (prevails_iff (hepoch c (by simp))).mpr (h before c after rfl)

theorem run_prevails_iff_later :
    Meets step Prevails .empty [submitCall 1 "a.py", submitCall 2 "a.py"] ↔
      Meets step NotBehind .empty [submitCall 1 "a.py", submitCall 2 "a.py"] :=
  run_prevails_iff _ (by decide)

theorem clock_back_refused :
    (∀ c ∈ [submitCall 2 "a.py", submitCall 1 "a.py"], 0 ≤ c.now) ∧
      submit exampleFs 1 ⟨"/p", "/p/i.db", "a.py", .background⟩
        (run step .empty [submitCall 2 "a.py"]) = .error (.constraint .check) ∧
      ¬Meets step Prevails .empty [submitCall 2 "a.py", submitCall 1 "a.py"] := by
  have hrefused : submit exampleFs 1 ⟨"/p", "/p/i.db", "a.py", .background⟩
      (run step .empty [submitCall 2 "a.py"]) = .error (.constraint .check) := by
    have herror : (submit exampleFs 1 ⟨"/p", "/p/i.db", "a.py", .background⟩
        (run step .empty [submitCall 2 "a.py"])).map (fun _ => ()) =
          .error (.constraint .check) := by decide
    cases h : submit exampleFs 1 ⟨"/p", "/p/i.db", "a.py", .background⟩
        (run step .empty [submitCall 2 "a.py"]) with
    | ok u =>
      rw [h] at herror
      cases herror
    | error e =>
      rw [h] at herror
      exact congrArg _ (Except.error.inj herror)
  refine ⟨by decide, hrefused, fun h => ?_⟩
  obtain ⟨-, hlast, -⟩ := h
  exact hlast.unconstrained _ (congrArg (Prod.fst <$> ·) hrefused) .check rfl

end RemyCC.State
