import RemyCC.Scheduler.Interleavings
import RemyCC.Server.Connection

/-!
# Which requests end in a fatal error

A fatal error is carried through a computation like any other; where it can
arise is computed from the parts. Of what a client can ask for, only the calls
that resolve a submitted path raise one, when the file system does not resolve
a path it has just said exists.
-/

namespace RemyCC.Server

open State Relational Scheduler

def Fatal {α : Type} (x : Except StateError α) : Prop := ∃ e, x = .error e ∧ isFatal e = true

section Rules

variable {α β : Type}

@[simp]
theorem not_fatal_ok (a : α) : ¬ Fatal (.ok a : Except StateError α) := by
  rintro ⟨e, h, -⟩
  cases h

@[simp]
theorem fatal_error_iff (e : StateError) :
    Fatal (.error e : Except StateError α) ↔ isFatal e = true := by
  constructor
  · rintro ⟨e', h, hfatal⟩
    cases h
    exact hfatal
  · exact fun h => ⟨e, rfl, h⟩

@[simp]
theorem fatal_bind_iff (x : Except StateError α) (f : α → Except StateError β) :
    Fatal (x >>= f) ↔ Fatal x ∨ ∃ a, x = .ok a ∧ Fatal (f a) := by
  cases x with
  | ok a =>
    constructor
    · exact fun h => .inr ⟨a, rfl, h⟩
    · rintro (h | ⟨b, hb, h⟩)
      · exact absurd h (not_fatal_ok a)
      · cases hb
        exact h
  | error e =>
    have hx : Fatal (.error e : Except StateError α) ↔ isFatal e = true := fatal_error_iff e
    have hbind : Fatal (.error e : Except StateError β) ↔ isFatal e = true := fatal_error_iff e
    constructor
    · exact fun h => .inl (hx.mpr (hbind.mp h))
    · rintro (h | ⟨b, hb, -⟩)
      · exact hbind.mpr (hx.mp h)
      · cases hb

theorem not_fatal_bind {x : Except StateError α} {f : α → Except StateError β} (hx : ¬ Fatal x)
    (hf : ∀ a, x = .ok a → ¬ Fatal (f a)) : ¬ Fatal (x >>= f) := by
  rw [fatal_bind_iff]
  rintro (h | ⟨a, ha, h⟩)
  · exact hx h
  · exact hf a ha h

theorem not_fatal_lift_constraint (x : Except ConstraintError α) :
    ¬ Fatal (liftError StateError.constraint x) := by
  cases x with
  | ok a => exact not_fatal_ok a
  | error e => exact fun h => Bool.false_ne_true ((fatal_error_iff _).mp h)

theorem not_fatal_mapM (f : α → Except StateError β) (hf : ∀ a, ¬ Fatal (f a)) (l : List α) :
    ¬ Fatal (l.mapM f) := by
  induction l with
  | nil => exact not_fatal_ok []
  | cons a l ih =>
    rw [List.mapM_cons]
    exact not_fatal_bind (hf a) fun b _ => not_fatal_bind ih fun bs _ => not_fatal_ok _

theorem fatal_option_mapM (f : α → Except StateError β) (o : Option α) :
    Fatal (o.mapM f) ↔ ∃ a ∈ o, Fatal (f a) := by
  cases o with
  | none => exact ⟨fun h => absurd h (not_fatal_ok none), fun ⟨_, h, _⟩ => nomatch h⟩
  | some a =>
    have hmap : Option.mapM f (some a) = (f a >>= fun b => .ok (some b)) := by
      rw [Option.mapM_some]
      cases f a <;> rfl
    rw [hmap, fatal_bind_iff]
    simp

end Rules

/-- The answer to a call of `canonicalize` on a path that was just found. -/
def Resolves (answer : Except String String) : Prop := ∃ real, answer = .ok real

theorem fatal_lift_io (answer : Except String String) :
    Fatal (liftError StateError.io answer) ↔ ¬ Resolves answer := by
  cases answer with
  | ok real => exact ⟨fun h => absurd h (not_fatal_ok _), fun h => absurd ⟨real, rfl⟩ h⟩
  | error message =>
    refine ⟨fun _ => ?_, fun _ => (fatal_error_iff _).mpr rfl⟩
    rintro ⟨real, h⟩
    cases h

section Statements

variable (db : Database)

theorem not_fatal_insertJob (row : Int → JobRow) : ¬ Fatal (db.insertJob row) := by
  refine not_fatal_bind (not_fatal_lift_constraint _) fun jobs _ => ?_
  split
  · exact not_fatal_ok _
  · simp [StateError.constraint, isFatal]

theorem not_fatal_updateJobs (select : JobRow → Prop) [DecidablePred select]
    (edit : JobRow → JobRow) : ¬ Fatal (db.updateJobs select edit) := by
  refine not_fatal_bind (not_fatal_lift_constraint _) fun u _ => ?_
  obtain ⟨jobs, count⟩ := u
  simp only
  split
  · exact not_fatal_ok _
  · simp [StateError.constraint, isFatal]

theorem not_fatal_withProjects (projects : Table projectsTable) :
    ¬ Fatal (db.withProjects projects) := by
  unfold Database.withProjects
  split
  · exact not_fatal_ok _
  · simp [StateError.constraint, isFatal]

theorem not_fatal_loadJob (jobId : Int) : ¬ Fatal (loadJob db jobId) := by
  unfold loadJob
  split
  · simp [isFatal]
  · split
    · simp [isFatal]
    · exact not_fatal_ok _

theorem not_fatal_loaded {α : Type} (jobId : Int) (result : Job → α) :
    ¬ Fatal (do let job ← loadJob db jobId; .ok (result job)) :=
  not_fatal_bind (not_fatal_loadJob db jobId) fun _ _ => not_fatal_ok _

theorem not_fatal_registerProject (key path dbPath : String) (now : Int) :
    ¬ Fatal (registerProject db key path dbPath now) := by
  unfold registerProject
  split
  · exact not_fatal_bind (not_fatal_lift_constraint _) fun _ _ => not_fatal_withProjects db _
  · exact not_fatal_bind (not_fatal_lift_constraint _) fun _ _ => not_fatal_withProjects db _

theorem not_fatal_transitionJob (jobId : Int) (source target : JobStatus) (now : Int)
    (supersededBy : Option Int) :
    ¬ Fatal (transitionJob db jobId source target now supersededBy) := by
  unfold transitionJob
  split
  · split
    · simp [isFatal]
    · simp [isFatal]
    · exact not_fatal_bind (not_fatal_updateJobs db _ _) fun _ _ => not_fatal_ok _
  · simp [isFatal]

theorem not_fatal_enqueue (projectId : Int) (dbPath filePath : String) (priority : JobPriority)
    (now : Int) : ¬ Fatal (enqueue db projectId dbPath filePath priority now) := by
  unfold enqueue
  split
  · exact not_fatal_bind (not_fatal_insertJob db _) fun _ _ => not_fatal_loaded _ _ _
  · split
    · exact not_fatal_bind (not_fatal_updateJobs db _ _) fun _ _ => not_fatal_loaded _ _ _
    · exact not_fatal_bind (not_fatal_insertJob db _) fun _ _ => not_fatal_loaded _ _ _

end Statements

section Paths

variable (fs : FileSystem)

theorem fatal_normalizeExistingProject_iff (value : String) :
    Fatal (normalizeExistingProject fs value) ↔
      isAbsolute value = true ∧ fs.isDir value = true ∧ ¬ Resolves (fs.canonicalize value) := by
  unfold normalizeExistingProject
  split
  · rename_i h
    simp only [fatal_error_iff, isFatal, Bool.false_eq_true, false_iff]
    rintro ⟨ha, hd, -⟩
    exact h.elim (fun h => h ha) (fun h => h hd)
  · rename_i h
    simp only [not_or, not_not] at h
    rw [fatal_lift_io]
    exact ⟨fun hr => ⟨h.1, h.2, hr⟩, fun hr => hr.2.2⟩

theorem not_fatal_existingAncestor (parts : List Component) (suffix : List String) :
    ¬ Fatal (existingAncestor fs parts suffix) := by
  induction parts generalizing suffix with
  | nil =>
    unfold existingAncestor
    split
    · exact not_fatal_ok _
    · simp [isFatal]
  | cons part parts ih =>
    unfold existingAncestor
    split
    · exact not_fatal_ok _
    · cases part with
      | normal name => exact ih _
      | curDir | parentDir => simp [isFatal]

theorem fatal_normalizeDatabasePath_iff (value : String) :
    Fatal (normalizeDatabasePath fs value) ↔ isAbsolute value = true ∧
      ∃ existing suffix, existingAncestor fs (components value).reverse [] = .ok (existing, suffix) ∧
        ¬ Resolves (fs.canonicalizeAncestor existing) := by
  unfold normalizeDatabasePath
  split
  · rename_i h
    rw [fatal_bind_iff]
    constructor
    · rintro (hf | ⟨⟨existing, suffix⟩, hfound, hf⟩)
      · exact absurd hf (not_fatal_existingAncestor fs _ _)
      · refine ⟨h, existing, suffix, hfound, ?_⟩
        rcases (fatal_bind_iff _ _).mp hf with hf | ⟨_, _, hf⟩
        · exact (fatal_lift_io _).mp hf
        · exact absurd hf (not_fatal_ok _)
    · rintro ⟨-, existing, suffix, hfound, hf⟩
      exact .inr ⟨_, hfound, (fatal_bind_iff _ _).mpr (.inl ((fatal_lift_io _).mpr hf))⟩
  · rename_i h
    simp [isFatal, h]

theorem not_fatal_normalizeSourcePath (value : String) : ¬ Fatal (normalizeSourcePath value) := by
  unfold normalizeSourcePath
  split
  · simp [isFatal]
  · split
    · simp [isFatal]
    · split
      · exact not_fatal_ok _
      · simp [isFatal]

theorem fatal_normalizeProjectFilter_iff (value : String) :
    Fatal (normalizeProjectFilter fs value) ↔
      isAbsolute value = true ∧ fs.pathExists value = true ∧
        ¬ Resolves (fs.canonicalize value) := by
  unfold normalizeProjectFilter
  split
  · rename_i h
    split
    · rename_i hexists
      rw [fatal_bind_iff, fatal_lift_io]
      constructor
      · rintro (hf | ⟨_, _, hf⟩)
        · exact ⟨h, hexists, hf⟩
        · exact absurd hf (not_fatal_ok _)
      · exact fun hf => .inl hf.2.2
    · rename_i hexists
      simp [hexists]
  · rename_i h
    simp [isFatal, h]

end Paths

/-- What a submission asks the file system to resolve is resolved. -/
structure SubmitResolves (fs : FileSystem) (request : SubmitJob) : Prop where
  project : isAbsolute request.projectPath = true → fs.isDir request.projectPath = true →
    Resolves (fs.canonicalize request.projectPath)
  database : isAbsolute request.projectPath = true → fs.isDir request.projectPath = true →
    isAbsolute request.dbPath = true → ∀ existing suffix,
      existingAncestor fs (components request.dbPath).reverse [] = .ok (existing, suffix) →
        Resolves (fs.canonicalizeAncestor existing)

/-- The file system resolves each path a command names once it has said that
the path, or an ancestor of it, exists. -/
def Resolving (fs : FileSystem) : Command → Prop
  | .submit request => SubmitResolves fs request
  | .list filter => ∀ path ∈ filter.projectPath, isAbsolute path = true →
      fs.pathExists path = true → Resolves (fs.canonicalize path)
  | _ => True

section Operations

variable {fs : FileSystem} {now : Int} {db : Database}

theorem normalizeExistingProject_eq_ok {value path : String}
    (h : normalizeExistingProject fs value = .ok path) :
    isAbsolute value = true ∧ fs.isDir value = true := by
  unfold normalizeExistingProject at h
  split at h
  · cases h
  · rename_i hnot
    simpa only [not_or, not_not] using hnot

theorem fatal_submit_iff (hnow : Readable now) (request : SubmitJob) :
    Fatal (submit fs now request db) ↔ ¬ SubmitResolves fs request := by
  unfold submit
  rw [fatal_bind_iff, fatal_normalizeExistingProject_iff]
  constructor
  · rintro (⟨habs, hdir, hfails⟩ | ⟨projectPath, hproject, hf⟩) hresolves
    · exact hfails (hresolves.project habs hdir)
    · obtain ⟨habs, hdir⟩ := normalizeExistingProject_eq_ok hproject
      rcases (fatal_bind_iff _ _).mp hf with hf | ⟨dbPath, -, hf⟩
      · obtain ⟨hdb, existing, suffix, hfound, hfails⟩ :=
          (fatal_normalizeDatabasePath_iff fs _).mp hf
        exact hfails (hresolves.database habs hdir hdb existing suffix hfound)
      · refine absurd hf (not_fatal_bind (not_fatal_normalizeSourcePath _) fun filePath _ => ?_)
        rw [nowMillis_of_readable hnow]
        refine not_fatal_bind (not_fatal_ok now) fun now' _ => ?_
        refine not_fatal_bind (not_fatal_registerProject db _ _ _ _) fun registered _ => ?_
        split
        · simp [isFatal]
        · exact not_fatal_enqueue _ _ _ _ _ _
  · intro hnot
    by_cases hproject : Fatal (normalizeExistingProject fs request.projectPath)
    · exact .inl ((fatal_normalizeExistingProject_iff fs _).mp hproject)
    · right
      -- The project is resolved, so it is the database path that is not.
      have hresolved : isAbsolute request.projectPath = true →
          fs.isDir request.projectPath = true → Resolves (fs.canonicalize request.projectPath) := by
        intro habs hdir
        by_contra hfails
        exact hproject ((fatal_normalizeExistingProject_iff fs _).mpr ⟨habs, hdir, hfails⟩)
      have hdatabase : isAbsolute request.projectPath = true ∧
          fs.isDir request.projectPath = true ∧
            Fatal (normalizeDatabasePath fs request.dbPath) := by
        by_contra hfine
        refine hnot ⟨hresolved, fun habs hdir hdb existing suffix hfound => ?_⟩
        by_contra hfails
        exact hfine ⟨habs, hdir, (fatal_normalizeDatabasePath_iff fs _).mpr
          ⟨hdb, existing, suffix, hfound, hfails⟩⟩
      obtain ⟨habs, hdir, hfatal⟩ := hdatabase
      obtain ⟨real, hreal⟩ := hresolved habs hdir
      refine ⟨real, ?_, (fatal_bind_iff _ _).mpr (.inl hfatal)⟩
      rw [normalizeExistingProject, if_neg (by simp [habs, hdir]), hreal]
      rfl

theorem not_fatal_promote (jobId : Int) (priority : JobPriority) :
    ¬ Fatal (promote jobId priority db) :=
  not_fatal_bind (not_fatal_updateJobs db _ _) fun _ _ => not_fatal_loaded _ _ _

theorem not_fatal_cancel (hnow : Readable now) (jobId : Int) : ¬ Fatal (cancel now jobId db) := by
  unfold cancel
  rw [nowMillis_of_readable hnow]
  refine not_fatal_bind (not_fatal_ok now) fun now' _ => ?_
  refine not_fatal_bind (not_fatal_loadJob db jobId) fun current _ => ?_
  simp only
  split
  · exact not_fatal_bind (not_fatal_transitionJob db _ _ _ _ _) fun u _ =>
      not_fatal_loaded u.1 jobId _
  · exact not_fatal_bind (not_fatal_transitionJob db _ _ _ _ _) fun u _ =>
      not_fatal_loaded u.1 jobId _
  · exact not_fatal_bind (not_fatal_ok (db, false)) fun u _ => not_fatal_loaded u.1 jobId _
  · exact not_fatal_bind (not_fatal_ok (db, false)) fun u _ => not_fatal_loaded u.1 jobId _
  · refine not_fatal_bind ?_ fun u _ => not_fatal_loaded u.1 jobId _
    simp [isFatal]

theorem fatal_list_iff (filter : ListJobs) :
    Fatal (list fs filter db) ↔ ¬ Resolving fs (.list filter) := by
  unfold list
  rw [fatal_bind_iff, fatal_option_mapM]
  simp only [fatal_normalizeProjectFilter_iff, Resolving]
  constructor
  · rintro (⟨path, hpath, habs, hexists, hfails⟩ | ⟨key, -, hf⟩) hresolves
    · exact hfails (hresolves path hpath habs hexists)
    · refine absurd hf (not_fatal_bind ?_ fun filePath _ => not_fatal_bind ?_ fun jobType _ => ?_)
      · rw [fatal_option_mapM]
        rintro ⟨path, -, h⟩
        exact not_fatal_normalizeSourcePath path h
      · rw [fatal_option_mapM]
        rintro ⟨name, -, h⟩
        revert h
        cases jobTypeOfName? name with
        | some jobType => exact not_fatal_ok _
        | none => simp [isFatal]
      · exact not_fatal_mapM (fun r : JobRow => loadJob db r.id) (fun r => not_fatal_loadJob db r.id)
          _
  · intro hnot
    simp only [not_forall] at hnot
    obtain ⟨path, hpath, habs, hexists, hfails⟩ := hnot
    exact .inl ⟨path, hpath, habs, hexists, hfails⟩

theorem not_fatal_list_all {filter : ListJobs} (h : filter.projectPath = none) :
    ¬ Fatal (list fs filter db) := by
  rw [fatal_list_iff, not_not]
  intro path hpath
  rw [h] at hpath
  cases hpath

theorem not_fatal_statusJobs : ¬ Fatal (statusJobs fs db) :=
  not_fatal_bind (not_fatal_list_all rfl) fun _ _ =>
    not_fatal_bind (not_fatal_list_all rfl) fun _ _ =>
      not_fatal_bind (not_fatal_list_all rfl) fun _ _ => not_fatal_ok _

end Operations

end RemyCC.Server
