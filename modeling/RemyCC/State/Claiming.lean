import Mathlib.Data.List.Sort
import RemyCC.State.Queue

/-!
# Which job is claimed

A claim takes the first unblocked job of the line. Identity and creation time of
a row never change, so the line only moves where a priority is raised.
-/

namespace RemyCC.State

open Relational Database

section Order

variable {r s t : JobRow}

theorem claimOrder_total (r s : JobRow) : claimOrder r s ∨ claimOrder s r := by
  unfold claimOrder
  omega

theorem claimOrder_trans (hrs : claimOrder r s) (hst : claimOrder s t) : claimOrder r t := by
  unfold claimOrder at *
  omega

theorem id_eq_of_claimOrder (hrs : claimOrder r s) (hsr : claimOrder s r) : r.id = s.id := by
  unfold claimOrder at *
  omega

instance : Std.Total claimOrder := ⟨claimOrder_total⟩

instance : IsTrans JobRow claimOrder := ⟨fun _ _ _ => claimOrder_trans⟩

variable {db : Database}

theorem nextPending?_first (h : nextPending? db = some r) (hs : s ∈ db.jobs.rows)
    (hclaimable : claimable db s) : claimOrder r s := by
  have hsorted := List.pairwise_insertionSort claimOrder (db.jobs.rows.filter (claimable db))
  have hmem : s ∈ (db.jobs.rows.filter (claimable db)).insertionSort claimOrder :=
    (List.mem_insertionSort _).mpr (by simpa using ⟨hs, hclaimable⟩)
  obtain ⟨rest, hrest⟩ := List.head?_eq_some_iff.mp h
  rw [hrest] at hsorted hmem
  rcases List.mem_cons.mp hmem with rfl | hmem
  · exact (claimOrder_total s s).elim id id
  · exact (List.pairwise_cons.mp hsorted).1 s hmem

end Order

section Claim

variable {db db' : Database} {now : Int} {provider : String} {result : Option Job}

/-- A running or cancelling job has the key of this one. -/
def Blocked (db : Database) (r : JobRow) : Prop :=
  ∃ active ∈ db.jobs.rows, active.key = r.key ∧ active.status.executing

theorem claimable_iff {r : JobRow} : claimable db r ↔ r.status = .pending ∧ ¬Blocked db r := .rfl

/-- The claimed job comes before every other unblocked one, and only its row changes. -/
structure Serves (now : Int) (provider : String) (db db' : Database) (r : JobRow) (job : Job) :
    Prop where
  mem : r ∈ db.jobs.rows
  pending : r.status = .pending
  unblocked : ¬Blocked db r
  first : ∀ s ∈ db.jobs.rows, s.status = .pending → ¬Blocked db s → s ≠ r →
    claimOrder r s ∧ ¬claimOrder s r
  others : ∀ s, s ≠ r → s ∈ db.jobs.rows → s ∈ db'.jobs.rows
  rows : db'.jobs.rows = db.jobs.rows.map (startRow now provider r.id)
  rest : SameRest db db'
  answer : job.id = r.id ∧ job.status = .running ∧ job.progressCurrent = some 0 ∧
    job.progressTotal = some 3 ∧ job.provider = provider

theorem claimed_serves {job : Job} (h : Claimed now provider db db' (some job)) :
    ∃ r, Serves now provider db db' r job := by
  cases h with
  | idle _ _ nothing => cases nothing
  | started next found readable rows p project hjob rest =>
    obtain ⟨hmem, hpending, hfree⟩ := nextPending?_eq_some found
    cases hjob
    refine ⟨next, hmem, hpending, hfree, fun s hs hstatus hunblocked hne => ?_, fun s hne hs => ?_,
      rows, rest, ?_⟩
    · have hfirst := nextPending?_first found hs ⟨hstatus, hunblocked⟩
      refine ⟨hfirst, fun hback => hne ?_⟩
      exact db.job_ext hs hmem (id_eq_of_claimOrder hback hfirst)
    · rw [rows]
      have hid : s.id ≠ next.id := fun heq => hne (db.job_ext hs hmem heq)
      exact List.mem_map.mpr ⟨s, hs, if_neg hid⟩
    · simp [startRow, Table.apply, JobRow.toJob]

theorem claimNextPending_total (hnow : Readable now) (db : Database) :
    ∃ db' result, claimNextPending now providerRust db = .ok (db', result) := by
  cases h : claimNextPending now providerRust db with
  | ok u => exact ⟨u.1, u.2, rfl⟩
  | error e => exact absurd hnow ((claimNextPending_yields.of_eq_error h).2 rfl)

theorem claimNextPending_none_iff (h : claimNextPending now provider db = .ok (db', result)) :
    result = none ↔ ∀ r ∈ db.jobs.rows, r.status = .pending → Blocked db r := by
  cases (claimNextPending_yields.of_eq_ok h).2 with
  | idle empty _ nothing =>
    refine iff_of_true nothing fun r hr hpending => ?_
    by_contra hfree
    exact nextPending?_eq_none empty r hr ⟨hpending, hfree⟩
  | started next found _ _ _ _ hjob _ =>
    obtain ⟨hmem, hpending, hfree⟩ := nextPending?_eq_some found
    refine iff_of_false ?_ fun hall => hfree (hall next hmem hpending)
    rw [show result = _ from hjob]
    exact Option.some_ne_none _

end Claim

section Starts

variable {db : Database} {c : Call}

/-- The row is before the other one by its time of creation, then by its id. -/
def Older (r s : JobRow) : Prop :=
  r.createdAt < s.createdAt ∨ (r.createdAt = s.createdAt ∧ r.id < s.id)

/-- A step that starts a job is a claim of the first in line. -/
theorem step_started {r r' : JobRow} (hr : r ∈ db.jobs.rows) (hr' : r' ∈ (step db c).jobs.rows)
    (hid : r'.id = r.id) (hpending : r.status = .pending) (hrunning : r'.status = .running) :
    nextPending? db = some r := by
  obtain ⟨s, hs, hmoved⟩ := step_moved (c := c) hr
  obtain rfl := (step db c).job_ext hr' hs (hid.trans hmoved.identity.id.symm)
  have hclaim : ∃ provider, c.op = .claimNextPending provider := by
    cases hmoved.change with
    | started provider hop _ _ => exact ⟨provider, hop⟩
    | kept status _ =>
      rw [hrunning, hpending] at status
      cases status
    | succeeded _ _ _ target | failed _ _ _ target | folded _ _ _ target | replaced _ _ target
    | requeued _ _ target | cancelled _ _ target | cancelRequested _ _ target
    | confirmed _ _ target =>
      rw [hrunning] at target
      cases target
  obtain ⟨provider, hop⟩ := hclaim
  rcases step_cases db c with ⟨hsame, -⟩ | ⟨hexec, -⟩
  · rw [hsame] at hr'
    rw [db.job_ext hr' hr hid, hpending] at hrunning
    cases hrunning
  · rw [Call.exec, hop] at hexec
    obtain ⟨result, hok⟩ := exec_map_ok hexec
    cases (claimNextPending_yields.of_eq_ok hok).2 with
    | idle _ same _ =>
      rw [show step db c = db from same] at hr'
      rw [db.job_ext hr' hr hid, hpending] at hrunning
      cases hrunning
    | started next found _ rows _ _ _ _ =>
      by_cases hnext : r.id = next.id
      · rw [found, db.job_ext hr (nextPending?_eq_some found).1 hnext]
      · have hself : startRow c.now provider next.id r = r := if_neg hnext
        have hkept : r ∈ (step db c).jobs.rows :=
          (show (step db c).jobs.rows = _ from rows) ▸ List.mem_map.mpr ⟨r, hr, hself⟩
        rw [(step db c).job_ext hr' hkept hid, hpending] at hrunning
        cases hrunning

/-- How a job that waited after `n` calls stands after `m`. -/
def Since (calls : List Call) (n m : Nat) (r : JobRow) : Prop :=
  ∃ r' ∈ (run step .empty (calls.take m)).jobs.rows, r'.id = r.id ∧ r'.createdAt = r.createdAt ∧
    (r'.status = .pending ∨ r'.status = .superseded ∨ ∃ k, n ≤ k ∧ k < m ∧ StartsAt calls k r.id)

theorem since_succ {calls : List Call} {n m : Nat} {r : JobRow} (hcalls : ∀ c ∈ calls, NotCancel c)
    (hle : n ≤ m) (h : Since calls n m r) : Since calls n (m + 1) r := by
  obtain ⟨r', hr', hid, hcreated, hstatus⟩ := h
  have hlater : (∃ k, n ≤ k ∧ k < m ∧ StartsAt calls k r.id) →
      ∃ k, n ≤ k ∧ k < m + 1 ∧ StartsAt calls k r.id :=
    fun ⟨k, hk, hlt, hstart⟩ => ⟨k, hk, Nat.lt_succ_of_lt hlt, hstart⟩
  cases hc : calls[m]? with
  | none =>
    have hlength := List.getElem?_eq_none_iff.mp hc
    rw [Since, List.take_of_length_le (Nat.le_succ_of_le hlength)]
    rw [List.take_of_length_le hlength] at hr'
    exact ⟨r', hr', hid, hcreated, hstatus.imp_right (Or.imp_right hlater)⟩
  | some c =>
    have htake : calls.take (m + 1) = calls.take m ++ [c] := by
      rw [List.take_succ, hc]
      rfl
    have hfree := hcalls c (List.mem_of_getElem? hc)
    obtain ⟨s, hs, hmoved⟩ := step_moved (c := c) hr'
    have hs' : s ∈ (run step .empty (calls.take (m + 1))).jobs.rows := by
      rw [htake, run_concat]
      exact hs
    refine ⟨s, hs', hmoved.identity.id.trans hid, hmoved.identity.createdAt.trans hcreated, ?_⟩
    rcases hstatus with hpending | hsuperseded | hstarted
    · cases hmoved.change with
      | kept status _ => exact .inl (status.trans hpending)
      | started _ _ _ target =>
        refine .inr (.inr ⟨m, hle, Nat.lt_succ_self m, r', hr', s, hs', ⟨hid, hpending⟩, ?_, target⟩)
        exact hmoved.identity.id.trans hid
      | folded _ _ _ target => exact .inr (.inl target)
      | cancelled hop _ _ => exact absurd hop (hfree _)
      | succeeded _ _ source _ | failed _ _ source _ | replaced _ source _ | requeued _ source _
      | cancelRequested _ source _ | confirmed _ source _ =>
        rw [hpending] at source
        cases source
    · rw [hmoved.frozen (.inr (.inr (.inr hsuperseded)))]
      exact .inr (.inl hsuperseded)
    · exact .inr (.inr (hlater hstarted))

theorem since_of_le {calls : List Call} {n m : Nat} {r : JobRow}
    (hcalls : ∀ c ∈ calls, NotCancel c) (hr : r ∈ (run step .empty (calls.take n)).jobs.rows)
    (hpending : r.status = .pending) (hle : n ≤ m) : Since calls n m r := by
  induction m, hle using Nat.le_induction with
  | base => exact ⟨r, hr, rfl, rfl, .inl hpending⟩
  | succ m hle ih => exact since_succ hcalls hle ih

theorem run_createdAt {r : JobRow} (hr : r ∈ db.jobs.rows) (calls : List Call) :
    ∃ r' ∈ (run step db calls).jobs.rows, r'.id = r.id ∧ r'.createdAt = r.createdAt := by
  have hkeep : ∀ (db : Database) (c : Call),
      (∃ r' ∈ db.jobs.rows, r'.id = r.id ∧ r'.createdAt = r.createdAt) →
        ∃ r' ∈ (step db c).jobs.rows, r'.id = r.id ∧ r'.createdAt = r.createdAt := by
    rintro db c ⟨r', hr', hid, hcreated⟩
    obtain ⟨s, hs, hmoved⟩ := step_moved (c := c) hr'
    exact ⟨s, hs, hmoved.identity.id.trans hid, hmoved.identity.createdAt.trans hcreated⟩
  exact run_invariant_of_forall hkeep ⟨r, hr, rfl, rfl⟩ calls

theorem StartsAt.next {calls : List Call} {m : Nat} {jobId : Int} (h : StartsAt calls m jobId) :
    ∃ r, nextPending? (run step .empty (calls.take m)) = some r ∧ r.id = jobId := by
  have hlt := h.lt_length
  obtain ⟨r, hr, r', hr', ⟨hid, hpending⟩, hid', hrunning⟩ := h
  have htake : calls.take (m + 1) = calls.take m ++ [calls[m]] := by
    rw [List.take_succ, List.getElem?_eq_getElem hlt]
    rfl
  rw [htake, run_concat] at hr'
  exact ⟨r, step_started hr hr' (hid'.trans hid.symm) hpending hrunning, hid⟩

/-- The older of two waiting jobs is started first, or it is folded into a full scan. -/
theorem starts_in_order {calls : List Call} {n m : Nat} {r s : JobRow}
    (hcalls : ∀ c ∈ calls, NotCancel c) (hle : n ≤ m)
    (hr : r ∈ (run step .empty (calls.take n)).jobs.rows) (hpending : r.status = .pending)
    (hs : s ∈ (run step .empty (calls.take n)).jobs.rows) (holder : Older r s)
    (hstarts : StartsAt calls m s.id)
    (hfair : ∀ r' ∈ (run step .empty (calls.take m)).jobs.rows, ∀ s' ∈ (run step .empty
      (calls.take m)).jobs.rows, r'.id = r.id → s'.id = s.id → r'.status = .pending →
        r'.priority = s'.priority ∧ ¬Blocked (run step .empty (calls.take m)) r') :
    (∃ k, n ≤ k ∧ k < m ∧ StartsAt calls k r.id) ∨
      ∃ r' ∈ (run step .empty (calls.take m)).jobs.rows, r'.id = r.id ∧ r'.status = .superseded := by
  obtain ⟨r', hr', hid, hcreated, hstatus⟩ := since_of_le hcalls hr hpending hle
  rcases hstatus with hwaits | hsuperseded | hstarted
  · exfalso
    obtain ⟨s₁, hnext, hid₁⟩ := hstarts.next
    obtain ⟨hs₁, -⟩ := nextPending?_eq_some hnext
    obtain ⟨s', hs', hid', hcreated'⟩ := run_createdAt hs ((calls.take m).drop n)
    have hsplit : calls.take n ++ (calls.take m).drop n = calls.take m := by
      have htake := List.take_append_drop n (calls.take m)
      rwa [List.take_take, min_eq_left hle] at htake
    rw [← run_append, hsplit] at hs'
    obtain rfl := (run step .empty (calls.take m)).job_ext hs₁ hs' (hid₁.trans hid'.symm)
    obtain ⟨hpriority, hunblocked⟩ := hfair r' hr' s₁ hs₁ hid hid₁ hwaits
    have hfirst := nextPending?_first hnext hr' ⟨hwaits, hunblocked⟩
    have hsame : r'.priority.asDb = s₁.priority.asDb := congrArg JobPriority.asDb hpriority
    unfold claimOrder at hfirst
    unfold Older at holder
    omega
  · exact .inr ⟨r', hr', hid, hsuperseded⟩
  · exact .inl hstarted

end Starts

section Raise

variable {db db' : Database} {jobId : Int} {r : JobRow}

/-- The unblocked jobs that are claimed before this one. -/
def aheadOf (db : Database) (r : JobRow) : List Int :=
  (db.jobs.rows.filter fun s => claimable db s ∧ s.id ≠ r.id ∧ claimOrder s r).map (·.id)

/-- Only the priority of one job changes, and it does not drop. -/
def Raises (jobId : Int) (db db' : Database) : Prop :=
  ∃ raise : JobRow → JobPriority, (∀ r, r.priority.asDb ≤ (raise r).asDb) ∧
    db'.jobs.rows = db.jobs.rows.map fun r => if r.id = jobId then { r with priority := raise r } else r

theorem asDb_max (p q : JobPriority) : p.asDb ≤ (p.max q).asDb := by
  cases p <;> cases q <;> decide

theorem Raises.moves_earlier (h : Raises jobId db db') (hr : r ∈ db.jobs.rows) (hid : r.id = jobId) :
    ∃ r' ∈ db'.jobs.rows, r'.id = r.id ∧ r'.status = r.status ∧
      (Blocked db' r' ↔ Blocked db r) ∧ (aheadOf db' r').Sublist (aheadOf db r) := by
  obtain ⟨raise, hraise, hrows⟩ := h
  have hmem : { r with priority := raise r } ∈ db'.jobs.rows := by
    rw [hrows]
    exact List.mem_map.mpr ⟨r, hr, if_pos hid⟩
  have hblocked (s t : JobRow) (hkey : t.key = s.key) : Blocked db' t ↔ Blocked db s := by
    unfold Blocked
    rw [hrows, hkey]
    simp only [List.mem_map, exists_exists_and_eq_and]
    refine exists_congr fun active => and_congr_right fun _ => ?_
    split <;> rfl
  refine ⟨_, hmem, rfl, rfl, hblocked r _ rfl, ?_⟩
  have hids : (JobRow.id ∘ fun s => if s.id = jobId then { s with priority := raise s } else s) =
      JobRow.id := by
    funext s
    rw [Function.comp]
    split <;> rfl
  unfold aheadOf
  rw [hrows, List.filter_map, List.map_map, hids]
  refine (List.monotone_filter_right _ fun s hs => ?_).map _
  -- A row ahead of the raised job is another row, and it was ahead before.
  simp only [Function.comp, decide_eq_true_eq] at hs ⊢
  obtain ⟨hclaimable, hne, hahead⟩ := hs
  have hother : s.id ≠ jobId := by
    intro heq
    rw [if_pos heq] at hne
    exact hne (heq.trans hid.symm)
  rw [if_neg hother] at hclaimable hne hahead
  refine ⟨⟨hclaimable.1, fun h => hclaimable.2 ((hblocked s s rfl).mpr h)⟩, hne, ?_⟩
  have hle := hraise r
  unfold claimOrder at hahead ⊢
  simp only at hahead
  omega

theorem promote_raises {priority : JobPriority} {row : JobRow} {result : PromoteResult}
    (h : Promoted jobId priority db row db' result) : Raises jobId db db' := by
  refine ⟨fun r => if r.status = .pending ∧ r.priority.asDb < priority.asDb then
    r.priority.max priority else r.priority, fun r => ?_, ?_⟩
  · dsimp only
    split
    · exact asDb_max _ _
    · exact le_rfl
  · rw [h.rows]
    refine List.map_congr_left fun r _ => ?_
    unfold promoteRow Table.apply
    by_cases hid : r.id = jobId
    · subst hid
      simp only [true_and, if_true]
      split <;> rfl
    · simp only [hid, false_and, if_false]

theorem yields_true {α : Type} (x : Except StateError α) :
    Yields x (fun _ => True) (fun _ => True) := by
  cases x <;> trivial

variable {projectId now : Int} {dbPath filePath : String} {priority : JobPriority}

/-- A submission that creates no job joins its pending twin. -/
theorem enqueue_joins :
    Yields (enqueue db projectId dbPath filePath priority now)
      (fun r => r.2.created = false → pendingFullScan? db projectId = none ∧
        ∃ twin, pendingTwin? db projectId (incrementalDedupeKey filePath) = some twin)
      (fun _ => True) := by
  unfold enqueue
  cases hfull : pendingFullScan? db projectId with
  | some fullScan =>
    refine Yields.bind (yields_true _) fun u _ _ => Yields.bind (yields_true _) fun job _ _ => ?_
    exact fun h => nomatch h
  | none =>
    cases htwin : pendingTwin? db projectId (incrementalDedupeKey filePath) with
    | some twin =>
      refine Yields.bind (yields_true _) fun u _ _ => Yields.bind (yields_true _) fun job _ _ => ?_
      exact fun _ => ⟨rfl, twin, rfl⟩
    | none =>
      refine Yields.bind (yields_true _) fun u _ _ => Yields.bind (yields_true _) fun job _ _ => ?_
      exact fun h => nomatch h

theorem raiseRow_eq (r : JobRow) : raiseRow jobId priority r =
    if r.id = jobId then { r with priority := r.priority.max priority } else r := rfl

theorem submit_raises {fs : FileSystem} {request : SubmitJob} :
    Yields (submit fs now request db)
      (fun r => r.2.created = false →
        (∃ row ∈ db.jobs.rows, row.id = r.2.job.id) ∧ Raises r.2.job.id db r.1)
      (fun _ => True) := by
  unfold submit
  refine Yields.bind (yields_true _) fun projectPath _ _ => ?_
  refine Yields.bind (yields_true _) fun dbPath _ _ => ?_
  refine Yields.bind (yields_true _) fun filePath _ _ => ?_
  refine Yields.bind ((nowMillis_yields now).mono (fun _ _ h => h) fun _ _ => trivial) ?_
  rintro _ - ⟨rfl, hnow⟩
  refine Yields.bind ((registerProject_yields hnow.1).mono (fun _ _ h => h) fun _ _ => trivial)
    fun registered _ hreg => ?_
  have hjobs := hreg.jobs_eq
  cases hfind : registered.projects.rows.find? (·.projectKey = projectKey projectPath) with
  | none => trivial
  | some project =>
    have hmem := List.mem_of_find?_eq_some hfind
    have hjoins := @enqueue_joins registered project.id now dbPath filePath request.priority
    refine (enqueue_yields hnow.1 ⟨project, hmem, rfl⟩ fun _ => True).mono ?_ fun _ h => h
    intro r hr henqueued hcreated
    obtain ⟨hfull, twin, htwin⟩ := hjoins.of_eq_ok hr hcreated
    cases henqueued with
    | absorbed fullScan found _ _ _ _ _ =>
      rw [hfull] at found
      cases found
    | queued _ fresh _ _ _ _ _ =>
      rw [htwin] at fresh
      cases fresh
    | deduped twin _ found rows p _ hjob _ =>
      have hid : r.2.job.id = twin.id := by
        rw [hjob]
        simp [raiseRow, Table.apply, JobRow.toJob]
      rw [hid]
      obtain ⟨htwin, -⟩ := pendingTwin?_eq_some found
      rw [hjobs] at rows htwin
      exact ⟨⟨twin, htwin, rfl⟩, fun r => r.priority.max request.priority,
        fun r => asDb_max _ _, rows⟩

end Raise

section Line

/-- What the claims make of the jobs that wait in a state. -/
structure ServesInOrder (db : Database) : Prop where
  total : ∀ now, Readable now →
    ∃ db' result, claimNextPending now providerRust db = .ok (db', result)
  idle : ∀ now provider db' result, claimNextPending now provider db = .ok (db', result) →
    ((result = none ↔ ∀ r ∈ db.jobs.rows, r.status = .pending → Blocked db r) ∧
      (result = none → db' = db))
  served : ∀ now provider db' job, claimNextPending now provider db = .ok (db', some job) →
    ∃ r, Serves now provider db db' r job
  promoted : ∀ jobId priority db' result, promote jobId priority db = .ok (db', result) →
    ∀ r ∈ db.jobs.rows, r.id = jobId → ∃ r' ∈ db'.jobs.rows, r'.id = r.id ∧ r'.status = r.status ∧
      (Blocked db' r' ↔ Blocked db r) ∧ (aheadOf db' r').Sublist (aheadOf db r)
  joined : ∀ now fs request db' result, submit fs now request db = .ok (db', result) →
    result.created = false →
      ∃ r ∈ db.jobs.rows, ∃ r' ∈ db'.jobs.rows, r.id = result.job.id ∧ r'.id = r.id ∧
        r'.status = r.status ∧ (Blocked db' r' ↔ Blocked db r) ∧
          (aheadOf db' r').Sublist (aheadOf db r)

theorem servesInOrder (db : Database) : ServesInOrder db where
  total now hnow := claimNextPending_total hnow db
  idle now provider db' result h := by
    refine ⟨claimNextPending_none_iff h, fun hnone => ?_⟩
    cases (claimNextPending_yields.of_eq_ok h).2 with
    | idle _ same _ => exact same
    | started _ _ _ _ _ _ hjob _ =>
      rw [hnone] at hjob
      cases hjob
  served now provider db' job h := claimed_serves (claimNextPending_yields.of_eq_ok h).2
  promoted jobId priority db' result h r hr hid := by
    obtain ⟨row, hpromoted⟩ := promote_yields.of_eq_ok h
    exact (promote_raises hpromoted).moves_earlier hr hid
  joined now fs request db' result h hcreated := by
    obtain ⟨⟨r, hr, hid⟩, hraises⟩ := submit_raises.of_eq_ok h hcreated
    obtain ⟨r', hr', hrest⟩ := hraises.moves_earlier hr hid
    exact ⟨r, hr, r', hr', hid, hrest⟩

/-- Every state of a run serves the first job of the line, and without cancellation the
older of two jobs is started first. -/
theorem claims_serve_line (calls : List Call) :
    ServesInOrder (run step .empty calls) ∧
      ((∀ c ∈ calls, NotCancel c) → ∀ n m, n ≤ m →
        ∀ r ∈ (run step .empty (calls.take n)).jobs.rows,
        ∀ s ∈ (run step .empty (calls.take n)).jobs.rows,
        r.status = .pending → s.status = .pending → Older r s → StartsAt calls m s.id →
        (∀ r' ∈ (run step .empty (calls.take m)).jobs.rows,
          ∀ s' ∈ (run step .empty (calls.take m)).jobs.rows, r'.id = r.id → s'.id = s.id →
            r'.status = .pending →
              r'.priority = s'.priority ∧ ¬Blocked (run step .empty (calls.take m)) r') →
        (∃ k, n ≤ k ∧ k < m ∧ StartsAt calls k r.id) ∨
          ∃ r' ∈ (run step .empty (calls.take m)).jobs.rows,
            r'.id = r.id ∧ r'.status = .superseded) :=
  ⟨servesInOrder _, fun hcalls _ _ hle _ hr _ hs hpending _ holder hstarts hfair =>
    starts_in_order hcalls hle hr hpending hs holder hstarts hfair⟩

end Line

end RemyCC.State
