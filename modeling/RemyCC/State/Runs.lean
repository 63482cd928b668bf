import RemyCC.Relational.Run
import RemyCC.State.Evolution

/-!
# Runs of the store

A run starts from the freshly created database. The clock only has to be
non-decreasing; a reading outside the range of the store makes a call fail
without effect.
-/

namespace RemyCC.State

open Relational Database

variable {db db' : Database} {c : Call}

theorem exec_map_error {α : Type} {x : Except StateError (Database × α)} {e : StateError}
    (h : Prod.fst <$> x = .error e) : x = .error e := by
  cases x with
  | ok u => cases h
  | error e' =>
    cases h
    rfl

/-- No call but a submission breaks a constraint. -/
theorem exec_notConstraint_of_not_submit {e : StateError} (hop : ∀ fs request, c.op ≠ .submit fs request)
    (h : c.exec db = .error e) : NotConstraint e := by
  obtain ⟨now, op⟩ := c
  cases op with
  | submit fs request => exact absurd rfl (hop fs request)
  | submitFullScan projectId => exact (submitFullScan_yields.of_eq_error (exec_map_error h)).1
  | promote jobId priority =>
    rw [promote_yields.of_eq_error (exec_map_error h)]
    exact notConstraint_notFound jobId
  | claimNextPending provider =>
    exact (claimNextPending_yields.of_eq_error (exec_map_error h)).1
  | updateProgress jobId update => exact (updateProgress_yields.of_eq_error (exec_map_error h)).1
  | completeSuccess jobId value => exact (complete_yields.of_eq_error (exec_map_error h)).1
  | completeFailure jobId value => exact (complete_yields.of_eq_error (exec_map_error h)).1
  | cancel jobId => exact cancel_yields.of_eq_error (exec_map_error h)
  | confirmCancelled jobId => exact (confirmCancelled_yields.of_eq_error (exec_map_error h)).1
  | reopen => exact (recover_yields.of_eq_error (exec_map_error h)).1

/-- With a clock that has not gone back, no call breaks a constraint. -/
theorem exec_notConstraint {e : StateError} (hclock : ∀ p ∈ db.projects.rows, p.createdAt ≤ c.now)
    (h : c.exec db = .error e) : NotConstraint e := by
  by_cases hsubmit : ∃ fs request, c.op = .submit fs request
  · obtain ⟨now, op⟩ := c
    obtain ⟨fs, request, rfl⟩ := hsubmit
    rcases submit_yields.of_eq_error (exec_map_error h) with he | he
    · exact he
    · obtain ⟨_, _, _, -, -, -, p, hp, -, hlt⟩ := he
      exact absurd (hclock p hp) (not_le.mpr hlt)
  · exact exec_notConstraint_of_not_submit (fun fs request hop => hsubmit ⟨fs, request, hop⟩) h

theorem step_cases (db : Database) (c : Call) :
    (step db c = db ∧ ∃ e, c.exec db = .error e) ∨
      (c.exec db = .ok (step db c) ∧ Evolves c db (step db c)) := by
  cases h : c.exec db with
  | ok db' =>
    have hstep : step db c = db' := by simp [step, h]
    exact .inr ⟨by rw [hstep], hstep ▸ exec_evolves h⟩
  | error e => exact .inl ⟨by simp [step, h], e, rfl⟩

/-- Where a row goes in one step, successful or not. -/
theorem step_moved {r : JobRow} (hr : r ∈ db.jobs.rows) :
    ∃ r' ∈ (step db c).jobs.rows, Moved c.op (step db c) r r' := by
  rcases step_cases db c with ⟨hsame, -⟩ | ⟨-, hevolves⟩
  · exact ⟨r, hsame.symm ▸ hr, Moved.refl _ _ r⟩
  · exact hevolves.moved r hr

theorem step_origin {r' : JobRow} (hr' : r' ∈ (step db c).jobs.rows) :
    (∃ r ∈ db.jobs.rows, Moved c.op (step db c) r r') ∨ Entered c db (step db c) r' := by
  rcases step_cases db c with ⟨hsame, -⟩ | ⟨-, hevolves⟩
  · exact .inl ⟨r', hsame ▸ hr', Moved.refl _ _ r'⟩
  · exact hevolves.origin r' hr'

theorem step_terminal {r : JobRow} (hr : r ∈ db.jobs.rows) (hterminal : r.status.terminal) :
    r ∈ (step db c).jobs.rows := by
  obtain ⟨r', hr', hmoved⟩ := step_moved (c := c) hr
  rwa [hmoved.frozen hterminal] at hr'

theorem run_terminal {r : JobRow} (hr : r ∈ db.jobs.rows) (hterminal : r.status.terminal)
    (calls : List Call) : r ∈ (run step db calls).jobs.rows :=
  have hkeep : ∀ (db : Database) (c : Call), r ∈ db.jobs.rows → r ∈ (step db c).jobs.rows :=
    fun _ _ h => step_terminal h hterminal
  run_invariant_of_forall hkeep hr calls

/-- Every change of status is an edge of `allowed_transition`. -/
theorem Change.edge {op : Op} {r r' : JobRow} (h : Change op db' r r') :
    r'.status = r.status ∨ allowedTransition r.status r'.status = true := by
  cases h with
  | kept status _ => exact .inl status
  | started _ _ source target | succeeded _ _ source target | failed _ _ source target
  | folded _ _ source target | replaced _ source target | requeued _ source target
  | cancelled _ source target | cancelRequested _ source target | confirmed _ source target =>
    rw [source, target]
    exact .inr rfl

theorem Entered.id_eq {r : JobRow} (h : Entered c db db' r) : r.id = db.freshId := by
  cases h <;> rename_i row <;> simp_all [queuedRow, absorbedRow, fullScanRow, newJobRow]

theorem Entered.fresh {r s : JobRow} (h : Entered c db db' r) (hs : s ∈ db.jobs.rows) :
    s.id ≠ r.id := by
  rw [h.id_eq]
  exact ne_of_lt (db.lt_freshId hs)

/-- A new row waits, unless `submit` hands it to a pending full scan at once. -/
theorem Entered.status {r : JobRow} (h : Entered c db db' r) :
    r.status = .pending ∨
      (r.status = .superseded ∧ ∃ fs request, c.op = .submit fs request) := by
  cases h with
  | queued _ _ _ _ _ _ row _ =>
    subst row
    exact .inl rfl
  | absorbed fs request hop _ _ _ _ row _ _ _ _ =>
    subst row
    exact .inr ⟨rfl, fs, request, hop⟩
  | fullScan _ _ _ row _ _ =>
    subst row
    exact .inl rfl

/-- What the store promises of one call in the state it meets. -/
structure Conforms (db : Database) (c : Call) : Prop where
  unconstrained : ∀ e, c.exec db = .error e → NotConstraint e
  kept : ∀ r ∈ db.jobs.rows, ∃ r' ∈ (step db c).jobs.rows, r'.id = r.id
  edge : ∀ r ∈ db.jobs.rows, ∀ r' ∈ (step db c).jobs.rows, r'.id = r.id →
    r'.status = r.status ∨ allowedTransition r.status r'.status = true
  entered : ∀ r' ∈ (step db c).jobs.rows, (∀ r ∈ db.jobs.rows, r.id ≠ r'.id) →
    r'.status = .pending ∨ (r'.status = .superseded ∧ ∃ fs request, c.op = .submit fs request)

theorem conforms (hclock : ∀ p ∈ db.projects.rows, p.createdAt ≤ c.now) : Conforms db c where
  unconstrained := fun _ h => exec_notConstraint hclock h
  kept := by
    intro r hr
    obtain ⟨r', hr', hmoved⟩ := step_moved (c := c) hr
    exact ⟨r', hr', hmoved.identity.id⟩
  edge := by
    intro r hr r' hr' hid
    obtain ⟨s, hs, hmoved⟩ := step_moved (c := c) hr
    rw [(step db c).job_ext hr' hs (hid.trans hmoved.identity.id.symm)]
    exact hmoved.change.edge
  entered := by
    intro r' hr' hnew
    rcases step_origin hr' with ⟨r, hr, hmoved⟩ | hentered
    · exact absurd hmoved.identity.id.symm (hnew r hr)
    · exact hentered.status

theorem step_createdAt {t : Int} (h : ∀ p ∈ db.projects.rows, p.createdAt ≤ t) (hc : c.now ≤ t) :
    ∀ p ∈ (step db c).projects.rows, p.createdAt ≤ t := by
  rcases step_cases db c with ⟨hsame, -⟩ | ⟨-, hevolves⟩
  · rwa [hsame]
  · intro p hp
    rcases hevolves.created p hp with hnow | ⟨q, hq, hcreated⟩
    · rwa [hnow]
    · exact hcreated ▸ h q hq

/-- Projects registered no later than every call still to come. -/
theorem meets_conforms {calls : List Call} (hclock : calls.Pairwise fun a b => a.now ≤ b.now)
    (hdb : ∀ p ∈ db.projects.rows, ∀ c ∈ calls, p.createdAt ≤ c.now) :
    Meets step Conforms db calls := by
  induction calls generalizing db with
  | nil => trivial
  | cons c calls ih =>
    obtain ⟨hhead, htail⟩ := List.pairwise_cons.mp hclock
    refine ⟨conforms fun p hp => hdb p hp c List.mem_cons_self, ih htail ?_⟩
    intro p hp d hd
    refine step_createdAt (fun q hq => ?_) (hhead d hd) p hp
    exact hdb q hq d (List.mem_cons_of_mem c hd)

/-- For each project, type and dedupe key, at most one row waits and at most
one executes. -/
def OnePerKey (db : Database) : Prop :=
  ∀ key, (db.jobs.rows.filter fun r => r.key = key ∧ r.status = .pending).length ≤ 1 ∧
    (db.jobs.rows.filter fun r => r.key = key ∧ r.status.executing).length ≤ 1

theorem length_le_one_of_pairwise_false {α : Type*} {l : List α}
    (h : l.Pairwise fun _ _ => False) : l.length ≤ 1 := by
  match l, h with
  | [], _ => simp
  | [_], _ => simp
  | a :: b :: _, h => exact absurd ((List.pairwise_cons.mp h).1 b List.mem_cons_self) id

theorem onePerKey (db : Database) : OnePerKey db := by
  intro key
  constructor
  · refine length_le_one_of_pairwise_false ((db.jobs.distinct.filter _).imp_of_mem ?_)
    intro r s hr hs hn
    obtain ⟨-, hr⟩ := List.mem_filter.mp hr
    obtain ⟨-, hs⟩ := List.mem_filter.mp hs
    simp only [decide_eq_true_eq] at hr hs
    exact hn (.inr (.inl ⟨hr.2, hs.2, hr.1.trans hs.1.symm⟩))
  · refine length_le_one_of_pairwise_false ((db.jobs.distinct.filter _).imp_of_mem ?_)
    intro r s hr hs hn
    obtain ⟨-, hr⟩ := List.mem_filter.mp hr
    obtain ⟨-, hs⟩ := List.mem_filter.mp hs
    simp only [decide_eq_true_eq] at hr hs
    exact hn (.inr (.inr ⟨hr.2, hs.2, hr.1.trans hs.1.symm⟩))

/-- Under a non-decreasing clock the store keeps its contract: unique and
checked rows in every state, conforming calls, and terminal rows kept as they
are for the rest of the run. -/
theorem run_keeps_contract (calls : List Call)
    (hclock : calls.Pairwise fun a b => a.now ≤ b.now) :
    (∀ before after, calls = before ++ after →
      OnePerKey (run step .empty before) ∧
        ∀ r ∈ (run step .empty before).jobs.rows, r.Check) ∧
    Meets step Conforms .empty calls ∧
    ∀ before middle after, calls = before ++ middle ++ after →
      ∀ r ∈ (run step .empty before).jobs.rows, r.status.terminal →
        r ∈ (run step .empty (before ++ middle)).jobs.rows := by
  refine ⟨fun before _ _ => ⟨onePerKey _, fun r hr => check hr⟩, meets_conforms hclock ?_, ?_⟩
  · intro p hp
    cases hp
  · intro before middle _ _ r hr hterminal
    rw [run_append]
    exact run_terminal hr hterminal middle


/-- A submission, its claim and two reopenings: the row is requeued once. -/
def exampleFs : FileSystem where
  isDir := fun _ => true
  pathExists := fun _ => true
  canonicalize := fun path => .ok path
  canonicalizeAncestor := fun path => .ok path

def submitCall (now : Int) (file : String) : Call :=
  ⟨now, .submit exampleFs ⟨"/p", "/p/i.db", file, .background⟩⟩

theorem run_keeps_contract_crash :
    [submitCall 1 "a.py", ⟨2, .claimNextPending "rust"⟩, ⟨3, .reopen⟩].Pairwise
        (fun a b => a.now ≤ b.now) ∧
      Meets step Conforms .empty
        [submitCall 1 "a.py", ⟨2, .claimNextPending "rust"⟩, ⟨3, .reopen⟩] :=
  ⟨by simp [submitCall], (run_keeps_contract _ (by simp [submitCall])).2.1⟩

end RemyCC.State
