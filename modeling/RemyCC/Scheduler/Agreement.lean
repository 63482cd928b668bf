import RemyCC.Relational.Run
import RemyCC.Scheduler.Loop
import RemyCC.State.Runs

/-!
# The slot and the store agree

Every completion still to be handled, in the queue or owed by a worker, belongs
to the job in the slot. With that token count the slot, the flag and the rows
stay in step over every interleaving of clients and workers.
-/

namespace RemyCC.Scheduler

open Relational State Database

variable {now : Int} {fs : FileSystem}

/-- The slot names the executing row, and its flag the status of that row. -/
structure SlotAgrees (s : Owned) : Prop where
  executing : ∀ r ∈ s.store.jobs.rows, r.status.executing →
    ∃ a, s.activeJob = some a ∧ a.jobId = r.id
  active : ∀ a, s.activeJob = some a → ∃ r ∈ s.store.jobs.rows, r.id = a.jobId ∧
    r.status.executing ∧ (a.cancel = true ↔ r.status = .cancelRequested)

/-- The history of the loop is the history of the rows. -/
structure HistoryAgrees (store : Database) (accepted launched : List Int) : Prop where
  stopped : ∀ j ∈ accepted, ∃ r ∈ store.jobs.rows, r.id = j ∧
    (r.status = .cancelRequested ∨ r.status = .cancelled)
  requested : ∀ r ∈ store.jobs.rows, r.status = .cancelRequested → r.id ∈ accepted
  begun : ∀ j ∈ launched, ∃ r ∈ store.jobs.rows, r.id = j ∧ r.status ≠ .pending

/-- The operations that leave executing rows to execute. -/
def Quiet : Op → Prop
  | .submit _ _ | .submitFullScan _ | .promote _ _ | .updateProgress _ _ => True
  | _ => False

theorem Quiet.change {op : Op} {db' : Database} {r r' : JobRow} (hop : Quiet op)
    (h : Change op db' r r') :
    r'.status = r.status ∨ (r.status = .pending ∧ r'.status = .superseded) := by
  cases h with
  | kept status _ => exact .inl status
  | folded _ _ source target => exact .inr ⟨source, target⟩
  | started _ hop' _ _ | succeeded _ hop' _ _ | failed _ hop' _ _ | replaced hop' _ _
  | requeued hop' _ _ | cancelled hop' _ _ | cancelRequested hop' _ _ =>
    rw [hop'] at hop
    exact hop.elim
  | confirmed hop' _ _ =>
    rcases hop' with hop' | hop' <;> rw [hop'] at hop <;> exact hop.elim

theorem Quiet.kept {db : Database} {op : Op} (hop : Quiet op) {r : JobRow}
    (hr : r ∈ db.jobs.rows) (hstatus : r.status ≠ .pending) :
    ∃ r' ∈ (step db ⟨now, op⟩).jobs.rows, r'.id = r.id ∧ r'.status = r.status := by
  obtain ⟨r', hr', hmoved⟩ := step_moved (c := ⟨now, op⟩) hr
  refine ⟨r', hr', hmoved.identity.id, ?_⟩
  rcases hop.change hmoved.change with h | ⟨h, -⟩
  · exact h
  · exact absurd h hstatus

/-- Where a row of a quiet step comes from, if it neither waits nor is superseded. -/
theorem Quiet.origin {db : Database} {op : Op} (hop : Quiet op) {r' : JobRow}
    (hr' : r' ∈ (step db ⟨now, op⟩).jobs.rows) (hstatus : r'.status.executing) :
    ∃ r ∈ db.jobs.rows, r.id = r'.id ∧ r.status = r'.status := by
  rcases step_origin hr' with ⟨r, hr, hmoved⟩ | hentered
  · refine ⟨r, hr, hmoved.identity.id.symm, ?_⟩
    rcases hop.change hmoved.change with h | ⟨-, h⟩
    · exact h.symm
    · rw [h] at hstatus
      rcases hstatus with h | h <;> cases h
  · rcases hentered.status with h | ⟨h, -⟩ <;> rw [h] at hstatus <;>
      rcases hstatus with h | h <;> cases h

theorem SlotAgrees.quiet {s : Owned} (h : SlotAgrees s) {op : Op} (hop : Quiet op) :
    SlotAgrees { s with store := step s.store ⟨now, op⟩ } where
  executing := by
    intro r' hr' hexecuting
    obtain ⟨r, hr, hid, hstatus⟩ := hop.origin hr' hexecuting
    obtain ⟨a, ha, haid⟩ := h.executing r hr (hstatus ▸ hexecuting)
    exact ⟨a, ha, haid.trans hid⟩
  active := by
    intro a ha
    obtain ⟨r, hr, hid, hexecuting, hflag⟩ := h.active a ha
    have hne : r.status ≠ .pending := by
      rcases hexecuting with h | h <;> rw [h] <;> decide
    obtain ⟨r', hr', hid', hstatus⟩ := hop.kept hr hne
    exact ⟨r', hr', hid'.trans hid, hstatus ▸ hexecuting, hstatus ▸ hflag⟩

theorem HistoryAgrees.quiet {db : Database} {accepted launched : List Int}
    (h : HistoryAgrees db accepted launched) {op : Op} (hop : Quiet op) :
    HistoryAgrees (step db ⟨now, op⟩) accepted launched where
  stopped := by
    intro j hj
    obtain ⟨r, hr, hid, hstatus⟩ := h.stopped j hj
    have hne : r.status ≠ .pending := by
      rcases hstatus with h | h <;> rw [h] <;> decide
    obtain ⟨r', hr', hid', hstatus'⟩ := hop.kept hr hne
    exact ⟨r', hr', hid'.trans hid, hstatus' ▸ hstatus⟩
  requested := by
    intro r' hr' hrequested
    obtain ⟨r, hr, hid, hstatus⟩ := hop.origin hr' (.inr hrequested)
    exact hid ▸ h.requested r hr (hstatus.trans hrequested)
  begun := by
    intro j hj
    obtain ⟨r, hr, hid, hstatus⟩ := h.begun j hj
    obtain ⟨r', hr', hid', hstatus'⟩ := hop.kept hr hstatus
    exact ⟨r', hr', hid'.trans hid, hstatus' ▸ hstatus⟩

/-- Both agreements, for what the loop owns and its history. -/
def Agrees (s : Owned) (accepted launched : List Int) : Prop :=
  SlotAgrees s ∧ HistoryAgrees s.store accepted launched

theorem answer_owned {α : Type} (s : Owned) (wrap : Except StateError α → Reply) {op : Op}
    {result : Except StateError (Database × α)}
    (hexec : Call.exec ⟨now, op⟩ s.store = Prod.fst <$> result) :
    (answer s wrap result).1 = { s with store := step s.store ⟨now, op⟩ } := by
  cases result with
  | ok u => simp [answer, step, hexec]
  | error e => simp [answer, step, hexec]

section Cancel

/-- What a cancel makes of a status. -/
def cancelStatus : JobStatus → JobStatus
  | .pending => .cancelled
  | .running => .cancelRequested
  | s => s

theorem cancelRow_status (jobId : Int) (r : JobRow) :
    (cancelRow now jobId r).status = if r.id = jobId then cancelStatus r.status else r.status := by
  unfold cancelRow Table.apply cancelEdit cancelStatus
  cases h : r.status <;> split <;> simp [h, transitionEdit]

@[simp]
theorem cancelRow_id (jobId : Int) (r : JobRow) : (cancelRow now jobId r).id = r.id := by
  unfold cancelRow Table.apply cancelEdit
  cases h : r.status <;> split <;> simp

theorem cancelStatus_executing {s : JobStatus} : (cancelStatus s).executing ↔ s.executing := by
  cases s <;> simp [cancelStatus, JobStatus.executing]

theorem signalCancel_eq_some {activeJob : Option ActiveJob} {jobId : Int} {outcome : CancelResult}
    {b : ActiveJob} (h : signalCancel activeJob jobId outcome = some b) :
    ∃ a, activeJob = some a ∧ b.jobId = a.jobId ∧
      (b.cancel = true ↔ a.cancel = true ∨
        (outcome.changed = true ∧ outcome.job.status = .cancelRequested ∧ a.jobId = jobId)) := by
  obtain ⟨a, ha, rfl⟩ := Option.map_eq_some_iff.mp h
  refine ⟨a, ha, ?_⟩
  split
  · rename_i hsignal
    exact ⟨rfl, by simp [hsignal]⟩
  · rename_i hsignal
    exact ⟨rfl, by simp [hsignal]⟩

theorem signalCancel_of_some {activeJob : Option ActiveJob} (jobId : Int) (outcome : CancelResult)
    {a : ActiveJob} (h : activeJob = some a) :
    ∃ b, signalCancel activeJob jobId outcome = some b ∧ b.jobId = a.jobId := by
  subst h
  refine ⟨_, rfl, ?_⟩
  dsimp only
  split <;> rfl

variable {s : Owned} {accepted launched : List Int} {jobId : Int}

/-- The answer of a cancel says which row it took out of which status. -/
theorem Cancelled.job_status {db db' : Database} {r : JobRow} {result : CancelResult}
    (h : Cancelled now jobId db r db' result) :
    result.job.status = cancelStatus r.status ∧
      (result.changed = true ↔ r.status = .pending ∨ r.status = .running) := by
  obtain ⟨p, -, hjob⟩ := h.job
  refine ⟨?_, ?_⟩
  · rw [hjob]
    exact (cancelRow_status jobId r).trans (if_pos h.id)
  · rw [h.changed]
    exact decide_eq_true_iff

theorem SlotAgrees.cancel (h : SlotAgrees s) {db' : Database} {r : JobRow} {result : CancelResult}
    (hc : Cancelled now jobId s.store r db' result) :
    SlotAgrees { store := db', activeJob := signalCancel s.activeJob jobId result } where
  executing := by
    intro t' ht' hexecuting
    rw [hc.rows] at ht'
    obtain ⟨t, ht, rfl⟩ := List.mem_map.mp ht'
    have hsource : t.status.executing := by
      rw [cancelRow_status] at hexecuting
      split at hexecuting
      · exact cancelStatus_executing.mp hexecuting
      · exact hexecuting
    obtain ⟨a, ha, haid⟩ := h.executing t ht hsource
    obtain ⟨b, hb, hbid⟩ := signalCancel_of_some jobId result ha
    exact ⟨b, hb, by rw [hbid, haid, cancelRow_id]⟩
  active := by
    intro b hb
    obtain ⟨a, ha, hid, hsignal⟩ := signalCancel_eq_some hb
    obtain ⟨t, ht, htid, hexecuting, hflag⟩ := h.active a ha
    obtain ⟨hjob, hchanged⟩ := Cancelled.job_status hc
    refine ⟨cancelRow now jobId t, hc.rows ▸ List.mem_map_of_mem ht, ?_, ?_, ?_⟩
    · rw [cancelRow_id, htid, hid]
    · rw [cancelRow_status]
      split
      · exact cancelStatus_executing.mpr hexecuting
      · exact hexecuting
    · rw [cancelRow_status, hsignal, hflag, hjob, hchanged, ← htid]
      by_cases hjobId : t.id = jobId
      · have hsame := s.store.job_ext ht hc.mem (hjobId.trans hc.id.symm)
        rw [if_pos hjobId, ← hsame]
        rcases hexecuting with h | h <;> simp [h, cancelStatus, hjobId]
      · simp [hjobId]

theorem HistoryAgrees.cancel {db db' : Database} (h : HistoryAgrees db accepted launched)
    {r : JobRow} {result : CancelResult} (hc : Cancelled now jobId db r db' result) :
    HistoryAgrees db' (accepted ++ if result.changed then [jobId] else []) launched where
  stopped := by
    intro j hj
    rcases List.mem_append.mp hj with hj | hj
    · obtain ⟨t, ht, hid, hstatus⟩ := h.stopped j hj
      refine ⟨cancelRow now jobId t, hc.rows ▸ List.mem_map_of_mem ht, by simp [hid], ?_⟩
      rw [cancelRow_status]
      split
      · rcases hstatus with h | h <;> simp [h, cancelStatus]
      · exact hstatus
    · split at hj
      · rename_i hchanged
        rw [List.mem_singleton.mp hj]
        refine ⟨cancelRow now jobId r, hc.rows ▸ List.mem_map_of_mem hc.mem, by simp [hc.id], ?_⟩
        rw [cancelRow_status, if_pos hc.id]
        rcases (Cancelled.job_status hc).2.mp hchanged with h | h <;> simp [h, cancelStatus]
      · cases hj
  requested := by
    intro t' ht' hrequested
    rw [hc.rows] at ht'
    obtain ⟨t, ht, rfl⟩ := List.mem_map.mp ht'
    rw [cancelRow_id]
    rw [cancelRow_status] at hrequested
    by_cases hold : t.status = .cancelRequested
    · exact List.mem_append_left _ (h.requested t ht hold)
    · split at hrequested
      · rename_i hid
        have hsame := db.job_ext ht hc.mem (hid.trans hc.id.symm)
        have hrunning : t.status = .running := by
          cases hs : t.status <;> rw [hs] at hrequested <;> simp_all [cancelStatus]
        have hchanged := (Cancelled.job_status hc).2.mpr (.inr (hsame ▸ hrunning))
        exact List.mem_append_right _ (by simp [hchanged, hid])
      · exact absurd hrequested hold
  begun := by
    intro j hj
    obtain ⟨t, ht, hid, hstatus⟩ := h.begun j hj
    refine ⟨cancelRow now jobId t, hc.rows ▸ List.mem_map_of_mem ht, by simp [hid], ?_⟩
    rw [cancelRow_status]
    split
    · cases hs : t.status <;> simp_all [cancelStatus]
    · exact hstatus

theorem handleCancel_agrees (h : Agrees s accepted launched) :
    Agrees (handleCancel now jobId s).1
      (accepted ++ acceptedCancel (.cancel jobId) (handleCancel now jobId s).2) launched := by
  unfold handleCancel
  cases hcancel : cancel now jobId s.store with
  | error e => simpa [acceptedCancel] using h
  | ok u =>
    obtain ⟨r, hc⟩ := cancel_yields.of_eq_ok hcancel
    exact ⟨h.1.cancel hc, h.2.cancel hc⟩

end Cancel

section Complete

/-- How an executing job ends when its worker reports. -/
def endStatus : JobStatus → WorkerOutcome → JobStatus
  | .running, .succeeded _ => .succeeded
  | .running, .failed _ => .failed
  | .cancelRequested, _ => .cancelled
  | s, _ => s

theorem endStatus_terminal {status : JobStatus} (h : status.executing) (outcome : WorkerOutcome) :
    (endStatus status outcome).terminal := by
  rcases h with rfl | rfl <;> cases outcome <;> simp [endStatus, JobStatus.terminal]

/-- The rows after a completion: the row of the job has ended, the others stand. -/
structure Settled (jobId : Int) (outcome : WorkerOutcome) (db db' : Database) : Prop where
  others : ∀ t ∈ db.jobs.rows, t.id ≠ jobId → t ∈ db'.jobs.rows
  ended : ∀ t ∈ db.jobs.rows, t.id = jobId →
    ∃ t' ∈ db'.jobs.rows, t'.id = jobId ∧ t'.status = endStatus t.status outcome
  origin : ∀ t' ∈ db'.jobs.rows, t'.id ≠ jobId → t' ∈ db.jobs.rows

theorem Settled.of_map {jobId : Int} {outcome : WorkerOutcome} {db db' : Database}
    {f : JobRow → JobRow} (hrows : db'.jobs.rows = db.jobs.rows.map f)
    (hid : ∀ t, (f t).id = t.id) (hother : ∀ t, t.id ≠ jobId → f t = t)
    (hended : ∀ t ∈ db.jobs.rows, t.id = jobId → (f t).status = endStatus t.status outcome) :
    Settled jobId outcome db db' where
  others := by
    intro t ht hne
    rw [hrows]
    exact List.mem_map.mpr ⟨t, ht, hother t hne⟩
  ended := by
    intro t ht heq
    exact ⟨f t, hrows ▸ List.mem_map_of_mem ht, (hid t).trans heq, hended t ht heq⟩
  origin := by
    intro t' ht' hne
    rw [hrows] at ht'
    obtain ⟨t, ht, rfl⟩ := List.mem_map.mp ht'
    rw [hid] at hne
    rwa [hother t hne]

variable {jobId : Int} {outcome : WorkerOutcome}

theorem Completed.settled {db db' : Database} {completion : Completion} {r : JobRow} {job : Job}
    (h : Completed now jobId completion db r db' job)
    (hstatus : completion.status = endStatus .running outcome) :
    Settled jobId outcome db db' := by
  refine Settled.of_map h.rows ?_ ?_ ?_
  · intro t
    unfold completeRow Table.apply
    split <;> rfl
  · intro t hne
    exact if_neg fun hsel => hne hsel.1
  · intro t ht heq
    rw [db.job_ext ht h.mem (heq.trans h.id.symm), h.running, ← hstatus]
    simp [completeRow, Table.apply, h.id, h.running]

theorem Confirmed.settled {db db' : Database} {r : JobRow} {job : Job}
    (h : Confirmed now jobId db r db' job) : Settled jobId outcome db db' := by
  refine Settled.of_map h.rows ?_ ?_ ?_
  · exact fun t => transitionRow_id _ _ _ t
  · intro t hne
    exact if_neg fun hsel => hne hsel.1
  · intro t ht heq
    rw [db.job_ext ht h.mem (heq.trans h.id.symm), h.requested]
    simp [transitionRow, Table.apply, h.id, h.requested, transitionEdit, endStatus]

/-- A completion of an executing job only fails on an unreadable clock. -/
theorem settle_yields {db : Database} {r : JobRow} (hr : r ∈ db.jobs.rows)
    (hexecuting : r.status.executing) :
    Yields (settle now r.id outcome r.status db) (Settled r.id outcome db)
      (fun _ => ¬ Readable now) := by
  rcases hexecuting with hrunning | hrequested
  · rw [hrunning]
    have hcomplete : ∀ completion : Completion, completion.status = endStatus .running outcome →
        Yields (Prod.fst <$> complete now r.id completion db) (Settled r.id outcome db)
          (fun _ => ¬ Readable now) := by
      intro completion hstatus
      cases h : complete now r.id completion db with
      | error e =>
        exact fun hnow => (complete_yields.of_eq_error h).2 hnow r hr rfl hrunning
      | ok u =>
        obtain ⟨t, hc⟩ := complete_yields.of_eq_ok h
        exact Completed.settled hc hstatus
    cases outcome with
    | succeeded result => exact hcomplete (.success result) rfl
    | failed error => exact hcomplete (.failure error) rfl
  · rw [hrequested]
    unfold settle
    cases h : confirmCancelled now r.id db with
    | error e =>
      exact fun hnow => (confirmCancelled_yields.of_eq_error h).2 hnow r hr rfl hrequested
    | ok u =>
      obtain ⟨t, hc⟩ := confirmCancelled_yields.of_eq_ok h
      exact Confirmed.settled hc

theorem handleComplete_yields (now : Int) (outcome : WorkerOutcome) {s : Owned} {r : JobRow}
    (hr : r ∈ s.store.jobs.rows)
    (hexecuting : r.status.executing) :
    Yields (handleComplete now r.id outcome s)
      (fun s' => Settled r.id outcome s.store s'.store ∧
        s'.activeJob = s.activeJob.filter (·.jobId ≠ r.id)) (fun _ => ¬ Readable now) := by
  obtain ⟨p, hp⟩ := s.store.exists_project hr
  unfold handleComplete State.get
  rw [loadJob_eq hr hp]
  change Yields (settle now r.id outcome r.status s.store >>= _) _ _
  refine Yields.bind (settle_yields hr hexecuting) ?_
  intro store _ hsettled
  exact ⟨hsettled, rfl⟩

theorem SlotAgrees.settle {s s' : Owned} (h : SlotAgrees s) {a : ActiveJob}
    (ha : s.activeJob = some a) (hid : a.jobId = jobId)
    (hsettled : Settled jobId outcome s.store s'.store)
    (hslot : s'.activeJob = s.activeJob.filter (·.jobId ≠ jobId)) :
    SlotAgrees s' ∧ s'.activeJob = none := by
  have hnone : s'.activeJob = none := by
    rw [hslot, ha]
    simp [hid]
  refine ⟨⟨fun t' ht' hexecuting => ?_, fun b hb => ?_⟩, hnone⟩
  · obtain ⟨r, hr, hrid, hrexecuting, -⟩ := h.active a ha
    exfalso
    by_cases hjob : t'.id = jobId
    · obtain ⟨t, ht, htid, hstatus⟩ := hsettled.ended r hr (hrid.trans hid)
      rw [s'.store.job_ext ht' ht (hjob.trans htid.symm), hstatus] at hexecuting
      exact not_terminal_of_executing hexecuting (endStatus_terminal hrexecuting outcome)
    · obtain ⟨b, hb, hbid⟩ := h.executing t' (hsettled.origin t' ht' hjob) hexecuting
      rw [ha] at hb
      cases hb
      exact hjob (hbid.symm.trans hid)
  · rw [hnone] at hb
    cases hb

theorem HistoryAgrees.settle {db db' : Database} {accepted launched : List Int}
    (h : HistoryAgrees db accepted launched) (hsettled : Settled jobId outcome db db') {r : JobRow}
    (hr : r ∈ db.jobs.rows) (hid : r.id = jobId) (hexecuting : r.status.executing) :
    HistoryAgrees db' accepted launched where
  stopped := by
    intro j hj
    obtain ⟨t, ht, htid, hstatus⟩ := h.stopped j hj
    by_cases hjob : t.id = jobId
    · obtain ⟨t', ht', htid', hended⟩ := hsettled.ended t ht hjob
      refine ⟨t', ht', htid'.trans (hjob.symm.trans htid), .inr ?_⟩
      have hsame := db.job_ext ht hr (hjob.trans hid.symm)
      rcases hstatus with h | h
      · rw [hended, h]
        cases outcome <;> rfl
      · rw [hsame] at h
        rw [h] at hexecuting
        rcases hexecuting with h | h <;> cases h
    · exact ⟨t, hsettled.others t ht hjob, htid, hstatus⟩
  requested := by
    intro t' ht' hrequested
    by_cases hjob : t'.id = jobId
    · obtain ⟨t, ht, htid, hended⟩ := hsettled.ended r hr hid
      rw [db'.job_ext ht' ht (hjob.trans htid.symm), hended] at hrequested
      exact absurd (endStatus_terminal hexecuting outcome)
        (not_terminal_of_executing (.inr hrequested))
    · exact h.requested t' (hsettled.origin t' ht' hjob) hrequested
  begun := by
    intro j hj
    obtain ⟨t, ht, htid, hstatus⟩ := h.begun j hj
    by_cases hjob : t.id = jobId
    · obtain ⟨t', ht', htid', hended⟩ := hsettled.ended t ht hjob
      refine ⟨t', ht', htid'.trans (hjob.symm.trans htid), ?_⟩
      rw [hended, db.job_ext ht hr (hjob.trans hid.symm)]
      exact fun hp => not_terminal_of_pending hp (endStatus_terminal hexecuting outcome)
    · exact ⟨t, hsettled.others t ht hjob, htid, hstatus⟩

end Complete

section Progress

variable {s : Owned} {jobId current : Int} {message : String}

/-- A progress event in the range of the worker never ends the loop. -/
theorem handleProgress_eq (now : Int) (hcurrent : 0 ≤ current ∧ current ≤ 3) :
    handleProgress jobId current message s = .ok { s with
      store := step s.store ⟨now, .updateProgress jobId ⟨current, 3, message⟩⟩ } := by
  unfold handleProgress
  cases h : updateProgress jobId { current := current, total := 3, message := message } s.store with
  | ok u => simp [step, Call.exec, h]
  | error e =>
    have hstep : step s.store ⟨now, .updateProgress jobId ⟨current, 3, message⟩⟩ = s.store := by
      simp [step, Call.exec, h]
    rw [hstep]
    rcases (updateProgress_yields.of_eq_error h).2 hcurrent with ⟨status, he⟩ | he <;> rw [he]

theorem handle_progress_eq (hcurrent : 0 ≤ current ∧ current ≤ 3) :
    handle now fs (.worker (.progress jobId current message)) s = .ok ({ s with
      store := step s.store ⟨now, .updateProgress jobId ⟨current, 3, message⟩⟩ }, none) := by
  change (handleProgress jobId current message s >>= fun s => .ok (s, none)) = _
  rw [handleProgress_eq now hcurrent]
  rfl

/-- Progress of a job that does not execute changes nothing. -/
theorem step_updateProgress_late (now : Int) {db : Database} {update : ProgressUpdate}
    (hlate : ∀ r ∈ db.jobs.rows, r.id = jobId → ¬ r.status.executing) :
    step db ⟨now, .updateProgress jobId update⟩ = db := by
  cases h : updateProgress jobId update db with
  | ok u =>
    obtain ⟨r, hp⟩ := updateProgress_yields.of_eq_ok h
    exact absurd hp.accepted.2.1 (hlate r hp.mem hp.accepted.1)
  | error e => simp [step, Call.exec, h]

end Progress

section Dispatch

variable {s : Owned} {spawnError : Option String}

/-- The three ends of a dispatch. -/
inductive Dispatched (now : Int) (s : Owned) : Owned × Option Launch → Prop
  | busy (a : ActiveJob) (active : s.activeJob = some a) : Dispatched now s (s, none)
  | idle (free : s.activeJob = none) (none_ : nextPending? s.store = none) :
      Dispatched now s (s, none)
  | claimed (free : s.activeJob = none) (next : JobRow) (found : nextPending? s.store = some next)
      (store : Database)
      (rows : store.jobs.rows = s.store.jobs.rows.map (startRow now providerRust next.id))
      (launch : Launch)
      (launched : launch = .worker next.id ∨ ∃ o, launch = .posted (.complete next.id o)) :
      Dispatched now s
        ({ store := store, activeJob := some { jobId := next.id, cancel := false } }, some launch)

theorem startRow_id (provider : String) (jobId : Int) (r : JobRow) :
    (startRow now provider jobId r).id = r.id := by
  unfold startRow Table.apply
  split <;> rfl

theorem dispatch_yields :
    Yields (dispatch now spawnError s) (Dispatched now s) (fun _ => ¬ Readable now) := by
  unfold dispatch
  obtain ⟨db, active⟩ := s
  cases hactive : active with
  | some a => exact .busy a rfl
  | none =>
    refine Yields.bind (claimNextPending_yields.mono (fun _ _ h => h) (fun _ h => h.2 rfl)) ?_
    rintro ⟨store, claimed⟩ - ⟨-, hclaimed⟩
    cases hclaimed with
    | idle empty same nothing =>
      simp only at same nothing
      subst same nothing
      exact Dispatched.idle rfl empty
    | started next found _ rows p _ job _ =>
      subst job
      have hid : ((startRow now providerRust next.id next).toJob p).id = next.id :=
        startRow_id _ _ next
      simp only [hid]
      cases spawnError with
      | none => exact Dispatched.claimed rfl next found store rows _ (.inl rfl)
      | some message => exact Dispatched.claimed rfl next found store rows _ (.inr ⟨_, rfl⟩)

/-- The worker a dispatch has started. -/
def Launch.started : Launch → List Int
  | .worker jobId => [jobId]
  | .posted _ => []

theorem SlotAgrees.no_executing (h : SlotAgrees s) (hfree : s.activeJob = none) :
    ∀ r ∈ s.store.jobs.rows, ¬ r.status.executing := by
  intro r hr hexecuting
  obtain ⟨a, ha, -⟩ := h.executing r hr hexecuting
  rw [hfree] at ha
  cases ha

theorem Dispatched.idle_of_none {u : Owned × Option Launch} (h : Dispatched now s u)
    (hagrees : SlotAgrees s) (hnone : u.1.activeJob = none) :
    ∀ r ∈ u.1.store.jobs.rows, r.status ≠ .pending := by
  cases h with
  | busy a active =>
    rw [active] at hnone
    cases hnone
  | claimed _ _ _ _ _ _ _ => cases hnone
  | idle free none_ =>
    intro r hr hpending
    refine nextPending?_eq_none none_ r hr ⟨hpending, ?_⟩
    rintro ⟨t, ht, -, hexecuting⟩
    exact hagrees.no_executing free t ht hexecuting

theorem Dispatched.agrees {u : Owned × Option Launch} (h : Dispatched now s u)
    {accepted launched : List Int} (hagrees : Agrees s accepted launched) :
    Agrees u.1 accepted (launched ++ (u.2.map Launch.started).getD []) := by
  cases h with
  | busy _ _ | idle _ _ => simpa using hagrees
  | claimed free next found store rows launch started =>
    obtain ⟨hslot, hhistory⟩ := hagrees
    obtain ⟨hnext, hpending, -⟩ := nextPending?_eq_some found
    have hmem : ∀ t ∈ s.store.jobs.rows, startRow now providerRust next.id t ∈ store.jobs.rows :=
      fun t ht => rows ▸ List.mem_map_of_mem ht
    have hother : ∀ t : JobRow, t.id ≠ next.id → startRow now providerRust next.id t = t :=
      fun t hne => if_neg hne
    have hkept : ∀ t ∈ s.store.jobs.rows, t.status ≠ .pending → t ∈ store.jobs.rows := by
      intro t ht hne
      have hid : t.id ≠ next.id := by
        intro hid
        rw [s.store.job_ext ht hnext hid] at hne
        exact hne hpending
      have hself := hmem t ht
      rwa [hother t hid] at hself
    have hrunning : (startRow now providerRust next.id next).status = .running := by
      simp [startRow, Table.apply]
    refine ⟨⟨?_, ?_⟩, ⟨?_, ?_, ?_⟩⟩
    · intro t' ht' hexecuting
      rw [rows] at ht'
      obtain ⟨t, ht, rfl⟩ := List.mem_map.mp ht'
      by_cases hid : t.id = next.id
      · exact ⟨_, rfl, by rw [startRow_id, hid]⟩
      · rw [hother t hid] at hexecuting
        exact absurd hexecuting (hslot.no_executing free t ht)
    · intro a ha
      cases ha
      exact ⟨_, hmem next hnext, startRow_id _ _ _, .inl hrunning, by simp [hrunning]⟩
    · intro j hj
      obtain ⟨t, ht, hid, hstatus⟩ := hhistory.stopped j hj
      refine ⟨t, hkept t ht ?_, hid, hstatus⟩
      rcases hstatus with h | h <;> rw [h] <;> decide
    · intro t' ht' hrequested
      rw [rows] at ht'
      obtain ⟨t, ht, rfl⟩ := List.mem_map.mp ht'
      by_cases hid : t.id = next.id
      · rw [s.store.job_ext ht hnext hid, hrunning] at hrequested
        cases hrequested
      · rw [hother t hid] at hrequested ⊢
        exact hhistory.requested t ht hrequested
    · intro j hj
      rcases List.mem_append.mp hj with hj | hj
      · obtain ⟨t, ht, hid, hstatus⟩ := hhistory.begun j hj
        exact ⟨t, hkept t ht hstatus, hid, hstatus⟩
      · have hj : j = next.id := by
          rcases started with rfl | ⟨o, rfl⟩
          · simpa [Launch.started] using hj
          · simp [Launch.started] at hj
        refine ⟨_, hmem next hnext, (startRow_id _ _ _).trans hj.symm, ?_⟩
        rw [hrunning]
        decide

end Dispatch

section Turn

def Command.completes? : Command → Option Int
  | .worker (.complete jobId _) => some jobId
  | _ => none

/-- The completions still to be handled. -/
def System.completions (s : System) : List Int := s.owing ++ s.queue.filterMap Command.completes?

def ActiveJob.ids (activeJob : Option ActiveJob) : List Int := (activeJob.map (·.jobId)).toList

/-- The invariant of the running loop, between two turns. -/
structure System.Sound (s : System) : Prop where
  agrees : Agrees s.owned s.accepted s.launched
  idle : s.owned.activeJob = none → ∀ r ∈ s.owned.store.jobs.rows, r.status ≠ .pending
  tokens : s.completions = ActiveJob.ids s.owned.activeJob
  events : ∀ jobId current message, .worker (.progress jobId current message) ∈ s.queue →
    jobId ∈ s.launched ∧ 0 ≤ current ∧ current ≤ 3

theorem signalCancel_ids (activeJob : Option ActiveJob) (jobId : Int) (outcome : CancelResult) :
    ActiveJob.ids (signalCancel activeJob jobId outcome) = ActiveJob.ids activeJob := by
  cases activeJob with
  | none => rfl
  | some a =>
    simp only [ActiveJob.ids, signalCancel, Option.map_some, Option.toList_some]
    split <;> rfl

theorem handleCancel_ids (jobId : Int) (s : Owned) :
    ActiveJob.ids (handleCancel now jobId s).1.activeJob = ActiveJob.ids s.activeJob := by
  unfold handleCancel
  split
  · exact signalCancel_ids _ _ _
  · rfl

variable {s : System} {command : Command} {rest : List Command}

/-- The completion taken from the queue is the only one, and of the job in the slot. -/
theorem System.Sound.complete_active (h : s.Sound) {jobId : Int} {outcome : WorkerOutcome}
    (hqueue : s.queue = .worker (.complete jobId outcome) :: rest) :
    (∃ a, s.owned.activeJob = some a ∧ a.jobId = jobId) ∧ s.owing = [] ∧
      rest.filterMap Command.completes? = [] := by
  have htokens := h.tokens
  unfold System.completions at htokens
  rw [hqueue] at htokens
  simp only [List.filterMap_cons, Command.completes?] at htokens
  cases hactive : s.owned.activeJob with
  | none =>
    rw [hactive] at htokens
    simp [ActiveJob.ids] at htokens
  | some a =>
    rw [hactive] at htokens
    simp only [ActiveJob.ids, Option.map_some, Option.toList_some] at htokens
    rcases List.append_eq_singleton_iff.mp htokens with ⟨hnil, hcons⟩ | ⟨-, hcons⟩
    · obtain ⟨hid, hrest⟩ := List.cons.inj hcons
      exact ⟨⟨a, rfl, hid.symm⟩, hnil, hrest⟩
    · cases hcons

theorem System.Sound.tokens_rest (h : s.Sound) (hqueue : s.queue = command :: rest)
    (hcommand : command.completes? = none) :
    s.owing ++ rest.filterMap Command.completes? = ActiveJob.ids s.owned.activeJob := by
  have htokens := h.tokens
  unfold System.completions at htokens
  rw [hqueue, List.filterMap_cons_none hcommand] at htokens
  exact htokens

/-- What handling a command keeps; only a pending row may be left without a slot. -/
structure Handled (s : System) (command : Command) (rest : List Command) (owned : Owned)
    (reply : Option Reply) : Prop where
  agrees : Agrees owned (s.accepted ++ acceptedCancel command reply) s.launched
  tokens : s.owing ++ rest.filterMap Command.completes? = ActiveJob.ids owned.activeJob

theorem Handled.quiet (h : s.Sound) (hqueue : s.queue = command :: rest)
    (hcommand : command.completes? = none) {reply : Option Reply}
    (haccepted : acceptedCancel command reply = []) {op : Op} (hop : Quiet op) :
    Handled s command rest { s.owned with store := step s.owned.store ⟨now, op⟩ } reply where
  agrees := by
    rw [haccepted, List.append_nil]
    exact ⟨h.agrees.1.quiet hop, h.agrees.2.quiet hop⟩
  tokens := h.tokens_rest hqueue hcommand

theorem Handled.unchanged (h : s.Sound) (hqueue : s.queue = command :: rest)
    (hcommand : command.completes? = none) {reply : Option Reply}
    (haccepted : acceptedCancel command reply = []) :
    Handled s command rest s.owned reply where
  agrees := by
    rw [haccepted, List.append_nil]
    exact h.agrees
  tokens := h.tokens_rest hqueue hcommand

theorem Handled.answer (h : s.Sound) (hqueue : s.queue = command :: rest)
    (hcommand : command.completes? = none) (haccepted : ∀ reply, acceptedCancel command reply = [])
    (now : Int) (op : Op) (hop : Quiet op) {α : Type} (wrap : Except StateError α → Reply)
    {result : Except StateError (Database × α)}
    (hexec : Call.exec ⟨now, op⟩ s.owned.store = Prod.fst <$> result) :
    Handled s command rest (Scheduler.answer s.owned wrap result).1
      (Scheduler.answer s.owned wrap result).2 := by
  rw [answer_owned s.owned wrap hexec]
  exact Handled.quiet h hqueue hcommand (haccepted _) hop

theorem handle_yields (h : s.Sound) (hqueue : s.queue = command :: rest) :
    Yields (handle now fs command s.owned) (fun u => Handled s command rest u.1 u.2)
      (fun _ => ¬ Readable now) := by
  cases command with
  | submit request =>
    exact Handled.answer h hqueue rfl (fun _ => rfl) now (.submit fs request) trivial
      .submit rfl
  | submitFullScan projectId =>
    exact Handled.answer h hqueue rfl (fun _ => rfl) now (.submitFullScan projectId)
      trivial .submit rfl
  | promote jobId priority =>
    exact Handled.answer h hqueue rfl (fun _ => rfl) now (.promote jobId priority)
      trivial .promote rfl
  | get jobId => exact Handled.unchanged h hqueue rfl rfl
  | list filter => exact Handled.unchanged h hqueue rfl rfl
  | status => exact Handled.unchanged h hqueue rfl rfl
  | shutdown => exact Handled.unchanged h hqueue rfl rfl
  | cancel jobId =>
    exact ⟨handleCancel_agrees h.agrees,
      (h.tokens_rest hqueue rfl).trans (handleCancel_ids jobId s.owned).symm⟩
  | worker event =>
    cases event with
    | progress jobId current message =>
      have hcurrent := (h.events jobId current message (by simp [hqueue])).2
      rw [handle_progress_eq hcurrent]
      exact Handled.quiet h hqueue rfl rfl trivial
    | complete jobId outcome =>
      obtain ⟨⟨a, ha, haid⟩, howing, hrest⟩ := h.complete_active hqueue
      obtain ⟨r, hr, hrid, hexecuting, -⟩ := h.agrees.1.active a ha
      have hjob : r.id = jobId := hrid.trans haid
      subst hjob
      refine Yields.bind (handleComplete_yields now outcome hr hexecuting) ?_
      rintro owned - ⟨hsettled, hslot⟩
      obtain ⟨hagrees, hnone⟩ := h.agrees.1.settle ha haid hsettled hslot
      refine ⟨⟨hagrees, ?_⟩, ?_⟩
      · rw [show acceptedCancel (.worker (.complete r.id outcome)) none = [] from rfl,
          List.append_nil]
        exact h.agrees.2.settle hsettled hr rfl hexecuting
      · rw [howing, hrest, hnone]
        rfl

variable {env : Surroundings}

theorem iterate_eq_turn (h : command ≠ .shutdown) :
    s.iterate env command rest = s.turn env command rest := by
  cases command <;> first | rfl | exact absurd rfl h

theorem launch_running (s : System) (launch : Option Launch) :
    (s.launch launch).running = s.running := by
  cases launch with
  | none => rfl
  | some launch => cases launch <;> rfl

theorem launch_owned (s : System) (launch : Option Launch) :
    (s.launch launch).owned = s.owned := by
  cases launch with
  | none => rfl
  | some launch => cases launch <;> rfl

/-- The dispatch at the end of a turn restores the invariant. -/
theorem Dispatched.sound {owned : Owned} {u : Owned × Option Launch}
    (h : Dispatched now owned u) (hagrees : Agrees owned s.accepted s.launched)
    (htokens : s.completions = ActiveJob.ids owned.activeJob)
    (hevents : ∀ jobId current message, .worker (.progress jobId current message) ∈ s.queue →
      jobId ∈ s.launched ∧ 0 ≤ current ∧ current ≤ 3) :
    ({ s with owned := u.1 }.launch u.2).Sound := by
  have hagrees' := h.agrees hagrees
  have hidle := h.idle_of_none hagrees.1
  cases h with
  | busy _ _ | idle _ _ =>
    exact ⟨by simpa [System.launch] using hagrees', hidle, htokens, hevents⟩
  | claimed free next _ store _ launch started =>
    rw [free] at htokens
    obtain ⟨howing, hqueue⟩ := List.append_eq_nil_iff.mp htokens
    rcases started with rfl | ⟨outcome, rfl⟩
    · refine ⟨by simpa [System.launch, Launch.started] using hagrees', hidle, ?_, ?_⟩
      · simp [System.completions, System.launch, howing, hqueue, ActiveJob.ids]
      · intro jobId current message hmem
        obtain ⟨hlaunched, hcurrent⟩ := hevents jobId current message hmem
        exact ⟨List.mem_append_left _ hlaunched, hcurrent⟩
    · refine ⟨by simpa [System.launch, Launch.started] using hagrees', hidle, ?_, ?_⟩
      · simp [System.completions, System.launch, howing, hqueue, ActiveJob.ids,
          Command.completes?]
      · intro jobId current message hmem
        refine hevents jobId current message ?_
        simpa [System.launch] using hmem

theorem System.Sound.turn (h : s.Sound) (hqueue : s.queue = command :: rest)
    (hrunning : (s.turn env command rest).running = true) : (s.turn env command rest).Sound := by
  unfold System.turn at hrunning ⊢
  cases hhandle : handle env.now env.fs command s.owned with
  | error e =>
    rw [hhandle] at hrunning
    cases hrunning
  | ok u =>
    obtain ⟨hagrees, htokens⟩ := (handle_yields h hqueue).of_eq_ok hhandle
    rw [hhandle] at hrunning
    simp only at hrunning ⊢
    cases hdispatch : dispatch env.dispatchNow env.spawnError u.1 with
    | error e =>
      rw [hdispatch] at hrunning
      cases hrunning
    | ok v =>
      have hevents : ∀ jobId current message,
          Command.worker (.progress jobId current message) ∈ rest →
            jobId ∈ s.launched ∧ 0 ≤ current ∧ current ≤ 3 :=
        fun jobId current message hmem =>
          h.events jobId current message (hqueue ▸ List.mem_cons_of_mem _ hmem)
      exact Dispatched.sound
        (s := { s with owned := u.1, queue := rest,
                       accepted := s.accepted ++ acceptedCancel command u.2 })
        (dispatch_yields.of_eq_ok hdispatch) hagrees htokens hevents

end Turn

end RemyCC.Scheduler
