import RemyCC.State.Statements

/-!
# Clock readings and status transitions

The pieces the operations share: reading the clock, moving one row along an
edge of `allowed_transition`, and loading the row an operation answers with.
-/

namespace RemyCC.State

open Relational Database

def Readable (now : Int) : Prop := 0 ≤ now ∧ now ≤ i64Max

instance : DecidablePred Readable := fun _ => inferInstanceAs (Decidable (_ ∧ _))

theorem nowMillis_of_readable {now : Int} (h : Readable now) : nowMillis now = .ok now := by
  simp [nowMillis, not_lt.mpr h.1, not_lt.mpr h.2]

theorem nowMillis_yields (now : Int) :
    Yields (nowMillis now) (fun n => now = n ∧ Readable now)
      (fun e => NotConstraint e ∧ ¬ Readable now) := by
  unfold nowMillis
  split
  · rename_i h
    exact ⟨fun c => by simp [StateError.constraint], fun hr => absurd hr.1 (not_le.mpr h)⟩
  · rename_i h0
    split
    · rename_i h
      exact ⟨fun c => by simp [StateError.constraint], fun hr => absurd hr.2 (not_le.mpr h)⟩
    · rename_i h
      exact ⟨rfl, not_lt.mp h0, not_lt.mp h⟩

section Transition

variable {db : Database} {source target : JobStatus} {now : Int} {supersededBy : Option Int}

@[simp]
theorem transitionEdit_id (r : JobRow) :
    (transitionEdit source target now supersededBy r).id = r.id := by
  cases source <;> cases target <;> rfl

@[simp]
theorem transitionEdit_key (r : JobRow) :
    (transitionEdit source target now supersededBy r).key = r.key := by
  cases source <;> cases target <;> rfl

/-- The transitions `transition_job` carries out; the two that need a payload
are left to `complete`. -/
inductive PlainTransition : JobStatus → JobStatus → Prop
  | start : PlainTransition .pending .running
  | cancelPending : PlainTransition .pending .cancelled
  | fold : PlainTransition .pending .superseded
  | requeue : PlainTransition .running .pending
  | requestCancel : PlainTransition .running .cancelRequested
  | supersede : PlainTransition .running .superseded
  | confirmCancel : PlainTransition .cancelRequested .cancelled

theorem plainTransition_iff : PlainTransition source target ↔
    allowedTransition source target ∧ target ≠ .succeeded ∧ target ≠ .failed := by
  constructor
  · intro h
    cases h <;> decide
  · rintro ⟨hallowed, hs, hf⟩
    cases source <;> cases target <;> first
      | exact absurd hallowed (by decide)
      | exact absurd rfl hs
      | exact absurd rfl hf
      | constructor

theorem transitionEdit_status {r : JobRow} (h : PlainTransition source target) :
    (transitionEdit source target now supersededBy r).status = target := by
  cases h <;> rfl

theorem transitionEdit_check {r : JobRow} (hr : r.Check) (hstatus : r.status = source)
    (h : PlainTransition source target) (hsup : target = .superseded → supersededBy ≠ none) :
    (transitionEdit source target now supersededBy r).Check := by
  obtain ⟨hprovider, hcreated, hprogress, hboth, htime, hpayload, hsuperseded⟩ := hr
  unfold JobRow.TimeCheck at htime
  unfold JobRow.PayloadCheck at hpayload
  unfold JobRow.SupersededCheck at hsuperseded
  refine ⟨?_, ?_, ?_, ?_, ?_, ?_, ?_⟩
  · cases h <;> exact hprovider
  · cases h <;> exact hcreated
  · cases h <;> first | exact hprogress | simp [JobRow.ProgressCheck, transitionEdit]
  · cases h <;> exact hboth
  · cases h <;> simp_all [JobRow.TimeCheck, transitionEdit, JobStatus.executing]
  · cases h <;> simp_all [JobRow.PayloadCheck, transitionEdit]
  · cases h <;> simp_all [JobRow.SupersededCheck, transitionEdit]

theorem transitionEdit_ok {r : JobRow} (hr : r ∈ db.jobs.rows) (hstatus : r.status = source)
    (h : PlainTransition source target)
    (hpending : target = .pending → ∀ s ∈ db.jobs.rows, s.key = r.key → s.status ≠ .pending)
    (hrunning : target = .running → ∀ s ∈ db.jobs.rows, s.key = r.key → ¬ s.status.executing)
    (hsup : target = .superseded → ∃ k, supersededBy = some k ∧ ∃ s ∈ db.jobs.rows, s.id = k) :
    EditOk db r (transitionEdit source target now supersededBy r) where
  id := transitionEdit_id r
  key := transitionEdit_key r
  check := by
    refine transitionEdit_check (check hr) hstatus h fun ht => ?_
    obtain ⟨k, hk, -⟩ := hsup ht
    simp [hk]
  pending := by
    rw [transitionEdit_status h]
    exact fun ht => .inr (hpending ht)
  executing := by
    rw [transitionEdit_status h]
    rintro (rfl | rfl)
    · exact .inr (hrunning rfl)
    · cases h
      exact .inl (.inl hstatus)
  superseded := by
    intro k hk
    cases h with
    | fold | supersede =>
      obtain ⟨k', hk', hex⟩ := hsup rfl
      simp only [transitionEdit, hk', Option.mem_some_iff] at hk
      exact .inr (hk ▸ hex)
    | start | cancelPending | requeue | requestCancel | confirmCancel => exact .inl hk

theorem transitionJob_eq (jobId : Int) (h : PlainTransition source target) :
    transitionJob db jobId source target now supersededBy = (do
      let (db, changed) ← db.updateJobs (fun r => r.id = jobId ∧ r.status = source)
        (transitionEdit source target now supersededBy)
      .ok (db, changed == 1)) := by
  cases h <;> rfl

/-- One row taken from `source` to `target`. -/
def transitionRow (jobId : Int) (source target : JobStatus) (now : Int)
    (supersededBy : Option Int) (r : JobRow) : JobRow :=
  Table.apply (fun r => r.id = jobId ∧ r.status = source)
    (transitionEdit source target now supersededBy) r

theorem transitionJob_yields {r : JobRow} (hr : r ∈ db.jobs.rows) (hstatus : r.status = source)
    (h : PlainTransition source target)
    (hok : EditOk db r (transitionEdit source target now supersededBy r))
    (err : StateError → Prop) :
    Yields (transitionJob db r.id source target now supersededBy)
      (fun u => u.1.jobs.rows = db.jobs.rows.map (transitionRow r.id source target now supersededBy)
        ∧ u.2 = true ∧ SameRest db u.1) err := by
  rw [transitionJob_eq r.id h]
  have hone : ∀ s ∈ db.jobs.rows, s.id = r.id ∧ s.status = source → s = r :=
    fun s hs hsel => db.job_ext hs hr hsel.1
  refine Yields.bind (updateJob_yields db r.id (fun s hs => hs.1) ?_ err) ?_
  · intro s hs hsel
    rw [hone s hs hsel]
    exact hok
  · rintro ⟨db', count⟩ - ⟨hrows, hcount, hrest⟩
    have hcount' : count = 1 := by
      rw [show count = _ from hcount]
      exact countP_eq_one hr (fun s hs => hs.1) ⟨rfl, hstatus⟩
    exact ⟨hrows, by simp [hcount'], hrest⟩

end Transition

theorem loaded_yields {db : Database} {r : JobRow} (hr : r ∈ db.jobs.rows) {β : Type}
    (result : Job → β) (err : StateError → Prop) :
    Yields (do let job ← loadJob db r.id; .ok (result job))
      (fun b => ∃ p, db.project? r.projectId = some p ∧ b = result (r.toJob p)) err := by
  obtain ⟨p, hp⟩ := db.exists_project hr
  rw [loadJob_eq hr hp]
  exact ⟨p, hp, rfl⟩

end RemyCC.State
