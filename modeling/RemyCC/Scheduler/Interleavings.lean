import RemyCC.Scheduler.Agreement

/-!
# Every interleaving keeps slot and store in step

Posting to the queue only moves a completion from the worker that owes it into
the queue, and a turn of the loop restores the invariant. What a completion or
a late event does is then read off the invariant.
-/

namespace RemyCC.Scheduler

open Relational State Database

variable {s s' : System}

theorem recoverRow_not_executing (base : Database) (now : Int) (r : JobRow) :
    ¬ (recoverRow base now r).status.executing := by
  unfold recoverRow
  cases hstatus : r.status with
  | running =>
    simp only
    unfold requeueEdit
    split <;> simp [transitionEdit, JobStatus.executing]
  | cancelRequested => simp [transitionEdit, JobStatus.executing]
  | pending | succeeded | failed | cancelled | superseded =>
    simp [hstatus, JobStatus.executing]

theorem start_sound {db : Database} {now dispatchNow : Int} {spawnError : Option String}
    (h : System.start db now dispatchNow spawnError = .ok s) : s.Sound := by
  have hyields : Yields (System.start db now dispatchNow spawnError) System.Sound
      (fun _ => True) := by
    unfold System.start
    refine Yields.bind (recover_yields.mono (fun _ _ h => h) (fun _ _ => trivial)) ?_
    rintro ⟨store, report⟩ - ⟨-, hrows, -⟩
    have hnone : ∀ t ∈ store.jobs.rows, ¬ t.status.executing := by
      intro t ht
      simp only at hrows
      rw [hrows] at ht
      obtain ⟨r, -, rfl⟩ := List.mem_map.mp ht
      exact recoverRow_not_executing db now r
    have hagrees : Agrees { store := store, activeJob := none } [] [] := by
      refine ⟨⟨fun t ht he => absurd he (hnone t ht), fun a ha => (by cases ha)⟩,
        ⟨fun j hj => (by cases hj), fun t ht he => absurd (.inr he) (hnone t ht),
          fun j hj => (by cases hj)⟩⟩
    refine Yields.bind (dispatch_yields.mono (fun _ _ h => h) (fun _ _ => trivial)) ?_
    rintro u - hdispatched
    refine Dispatched.sound
      (s := { owned := u.1, queue := [], owing := [], launched := [], accepted := [],
              running := true }) hdispatched hagrees rfl ?_
    intro jobId current message hmem
    cases hmem
  exact hyields.of_eq_ok h

theorem System.Sound.owing_eq (h : s.Sound) {jobId : Int} (howing : jobId ∈ s.owing) :
    s.owing = [jobId] ∧ s.queue.filterMap Command.completes? = [] := by
  have htokens := h.tokens
  unfold System.completions at htokens
  cases hactive : s.owned.activeJob with
  | none =>
    rw [hactive] at htokens
    rw [(List.append_eq_nil_iff.mp htokens).1] at howing
    cases howing
  | some a =>
    rw [hactive] at htokens
    simp only [ActiveJob.ids, Option.map_some, Option.toList_some] at htokens
    rcases List.append_eq_singleton_iff.mp htokens with ⟨hnil, -⟩ | ⟨hone, hnil⟩
    · rw [hnil] at howing
      cases howing
    · rw [hone] at howing
      rw [List.mem_singleton.mp howing]
      exact ⟨hone, hnil⟩

theorem step_sound (h : s.Sound) (hstep : SystemStep s s') (hrunning : s'.running = true) :
    s'.Sound := by
  cases hstep with
  | client command hclient =>
    refine ⟨h.agrees, h.idle, ?_, ?_⟩
    · have hnone : command.completes? = none := by
        cases command <;> first | rfl | cases hclient
      rw [← h.tokens]
      simp [System.completions, hnone]
    · intro jobId current message hmem
      rcases List.mem_append.mp hmem with hmem | hmem
      · exact h.events jobId current message hmem
      · rw [← List.mem_singleton.mp hmem] at hclient
        cases hclient
  | progress jobId current message hlaunched hcurrent =>
    refine ⟨h.agrees, h.idle, ?_, ?_⟩
    · rw [← h.tokens]
      simp [System.completions, Command.completes?]
    · intro jobId' current' message' hmem
      rcases List.mem_append.mp hmem with hmem | hmem
      · exact h.events jobId' current' message' hmem
      · cases List.mem_singleton.mp hmem
        exact ⟨hlaunched, hcurrent⟩
  | complete jobId outcome howing =>
    obtain ⟨hone, hnil⟩ := h.owing_eq howing
    refine ⟨h.agrees, h.idle, ?_, ?_⟩
    · rw [← h.tokens]
      simp [System.completions, Command.completes?, hone, hnil]
    · intro jobId' current' message' hmem
      rcases List.mem_append.mp hmem with hmem | hmem
      · exact h.events jobId' current' message' hmem
      · cases List.mem_singleton.mp hmem
  | iterate env command rest hqueue _ =>
    by_cases hcommand : command = .shutdown
    · subst hcommand
      cases hrunning
    · rw [iterate_eq_turn hcommand] at hrunning ⊢
      exact h.turn hqueue hrunning

theorem step_running (hstep : SystemStep s s') (hrunning : s'.running = true) :
    s.running = true := by
  cases hstep with
  | client _ _ | progress _ _ _ _ _ | complete _ _ _ => exact hrunning
  | iterate _ _ _ _ hrun => exact hrun

theorem reachable_sound (h : Reachable s) (hrunning : s.running = true) : s.Sound := by
  induction h with
  | start h => exact start_sound h
  | step _ hstep ih => exact step_sound (ih (step_running hstep hrunning)) hstep hrunning

section Turn

variable {env : Surroundings} {command : Command} {rest : List Command}

/-- With a readable clock only `Shutdown` ends the loop. -/
theorem System.Sound.turn_running (h : s.Sound) (hqueue : s.queue = command :: rest)
    (hnow : Readable env.now) (hdispatch : Readable env.dispatchNow) :
    (s.turn env command rest).running = s.running := by
  unfold System.turn
  cases hhandle : handle env.now env.fs command s.owned with
  | error e => exact absurd hnow ((handle_yields h hqueue).of_eq_error hhandle)
  | ok u =>
    simp only
    cases hd : dispatch env.dispatchNow env.spawnError u.1 with
    | error e => exact absurd hdispatch (dispatch_yields.of_eq_error hd)
    | ok v => exact launch_running _ _

theorem Dispatched.terminal {now : Int} {owned : Owned} {u : Owned × Option Launch}
    (h : Dispatched now owned u) {t : JobRow} (ht : t ∈ owned.store.jobs.rows)
    (hterminal : t.status.terminal) : t ∈ u.1.store.jobs.rows := by
  cases h with
  | busy _ _ | idle _ _ => exact ht
  | claimed _ next found store rows _ _ =>
    obtain ⟨hnext, hpending, -⟩ := nextPending?_eq_some found
    rw [rows]
    refine List.mem_map.mpr ⟨t, ht, if_neg ?_⟩
    intro hid
    rw [owned.store.job_ext ht hnext hid] at hterminal
    exact not_terminal_of_pending hpending hterminal

def WorkerOutcome.status : WorkerOutcome → JobStatus
  | .succeeded _ => .succeeded
  | .failed _ => .failed

theorem System.Sound.turn_complete (h : s.Sound) {jobId : Int} {outcome : WorkerOutcome}
    (hqueue : s.queue = .worker (.complete jobId outcome) :: rest) (hnow : Readable env.now) :
    ∃ r ∈ (s.turn env (.worker (.complete jobId outcome)) rest).owned.store.jobs.rows,
      r.id = jobId ∧ r.status = if jobId ∈ s.accepted then .cancelled else outcome.status := by
  obtain ⟨⟨a, ha, haid⟩, -, -⟩ := h.complete_active hqueue
  obtain ⟨r, hr, hrid, hexecuting, -⟩ := h.agrees.1.active a ha
  have hjob : r.id = jobId := hrid.trans haid
  subst hjob
  have hrequested : r.id ∈ s.accepted ↔ r.status = .cancelRequested := by
    refine ⟨fun hmem => ?_, h.agrees.2.requested r hr⟩
    obtain ⟨t, ht, htid, hstatus⟩ := h.agrees.2.stopped r.id hmem
    rw [s.owned.store.job_ext ht hr htid] at hstatus
    rcases hstatus with h | h
    · exact h
    · rw [h] at hexecuting
      rcases hexecuting with h | h <;> cases h
  have hended : endStatus r.status outcome =
      if r.id ∈ s.accepted then .cancelled else outcome.status := by
    rcases hexecuting with h | h
    · rw [if_neg (by rw [hrequested, h]; decide), h]
      cases outcome <;> rfl
    · rw [if_pos (hrequested.mpr h), h]
      cases outcome <;> rfl
  have hhandle := handleComplete_yields env.now outcome hr hexecuting
  unfold System.turn
  cases hcomplete : handleComplete env.now r.id outcome s.owned with
  | error e => exact absurd hnow (hhandle.of_eq_error hcomplete)
  | ok owned =>
    obtain ⟨hsettled, -⟩ := hhandle.of_eq_ok hcomplete
    obtain ⟨t, ht, htid, hstatus⟩ := hsettled.ended r hr rfl
    have hok : handle env.now env.fs (.worker (.complete r.id outcome)) s.owned =
        .ok (owned, none) := by
      change (handleComplete env.now r.id outcome s.owned >>= fun s => .ok (s, none)) = _
      rw [hcomplete]
      rfl
    rw [hok]
    refine ⟨t, ?_, htid, hstatus.trans hended⟩
    simp only
    cases hd : dispatch env.dispatchNow env.spawnError owned with
    | error e => exact ht
    | ok u =>
      simp only
      rw [launch_owned]
      refine (dispatch_yields.of_eq_ok hd).terminal ht ?_
      rw [hstatus]
      exact endStatus_terminal hexecuting outcome

/-- A late progress event leaves the store and the slot as they are. -/
theorem System.Sound.turn_late (h : s.Sound) {jobId current : Int} {message : String}
    (hqueue : s.queue = .worker (.progress jobId current message) :: rest)
    (hlate : ∀ r ∈ s.owned.store.jobs.rows, r.id = jobId → ¬ r.status.executing) :
    (s.turn env (.worker (.progress jobId current message)) rest).owned = s.owned := by
  have hcurrent := (h.events jobId current message (by simp [hqueue])).2
  unfold System.turn
  rw [handle_progress_eq hcurrent, step_updateProgress_late env.now hlate]
  simp only
  cases hd : dispatch env.dispatchNow env.spawnError s.owned with
  | error e => rfl
  | ok u =>
    simp only
    rw [launch_owned]
    cases dispatch_yields.of_eq_ok hd with
    | busy _ _ | idle _ _ => rfl
    | claimed free next found _ _ _ _ =>
      obtain ⟨hnext, hpending, -⟩ := nextPending?_eq_some found
      exact absurd hpending (h.idle free next hnext)

end Turn

/-- Slot, flags and rows between two iterations, and what the next event does. -/
structure InStep (s : System) : Prop where
  slot : ∀ j, (∃ a, s.owned.activeJob = some a ∧ a.jobId = j) ↔
    ∃ r ∈ s.owned.store.jobs.rows, r.id = j ∧ r.status.executing ∧
      ∀ t ∈ s.owned.store.jobs.rows, t.status.executing → t = r
  flag : ∀ a, s.owned.activeJob = some a → ∀ r ∈ s.owned.store.jobs.rows, r.id = a.jobId →
    (r.status = .cancelRequested → a.cancel = true) ∧ (r.status = .running → a.cancel = false)
  idle : s.owned.activeJob = none → ∀ r ∈ s.owned.store.jobs.rows, r.status ≠ .pending
  completion : ∀ env jobId outcome rest, s.queue = .worker (.complete jobId outcome) :: rest →
    Readable env.now →
      ∃ r ∈ (s.iterate env (.worker (.complete jobId outcome)) rest).owned.store.jobs.rows,
        r.id = jobId ∧ r.status = if jobId ∈ s.accepted then .cancelled else outcome.status
  late : ∀ env jobId current message rest,
    s.queue = .worker (.progress jobId current message) :: rest →
    (∀ r ∈ s.owned.store.jobs.rows, r.id = jobId → ¬ r.status.executing) →
      (s.iterate env (.worker (.progress jobId current message)) rest).owned = s.owned
  alive : ∀ env command rest, s.queue = command :: rest → command ≠ .shutdown →
    Readable env.now → Readable env.dispatchNow → (s.iterate env command rest).running = true

theorem System.Sound.slot_iff (h : s.Sound) (j : Int) :
    (∃ a, s.owned.activeJob = some a ∧ a.jobId = j) ↔
      ∃ r ∈ s.owned.store.jobs.rows, r.id = j ∧ r.status.executing ∧
        ∀ t ∈ s.owned.store.jobs.rows, t.status.executing → t = r := by
  constructor
  · rintro ⟨a, ha, rfl⟩
    obtain ⟨r, hr, hid, hexecuting, -⟩ := h.agrees.1.active a ha
    refine ⟨r, hr, hid, hexecuting, fun t ht hte => ?_⟩
    obtain ⟨b, hb, hbid⟩ := h.agrees.1.executing t ht hte
    rw [ha] at hb
    cases hb
    exact s.owned.store.job_ext ht hr (hbid.symm.trans hid.symm)
  · rintro ⟨r, hr, rfl, hexecuting, -⟩
    exact h.agrees.1.executing r hr hexecuting

/-- In every state the running loop reaches, from any database it was opened on. -/
theorem reachable_inStep (s : System) (h : Reachable s) (hrunning : s.running = true) :
    InStep s := by
  have hsound := reachable_sound h hrunning
  refine ⟨hsound.slot_iff, ?_, hsound.idle, ?_, ?_, ?_⟩
  · intro a ha r hr hid
    obtain ⟨t, ht, htid, -, hflag⟩ := hsound.agrees.1.active a ha
    rw [s.owned.store.job_ext hr ht (hid.trans htid.symm)]
    refine ⟨hflag.mpr, fun hrun => ?_⟩
    have hnot : ¬ a.cancel = true := by
      rw [hflag, hrun]
      decide
    exact Bool.eq_false_iff.mpr hnot
  · intro env jobId outcome rest hqueue hnow
    exact hsound.turn_complete hqueue hnow
  · intro env jobId current message rest hqueue hlate
    exact hsound.turn_late hqueue hlate
  · intro env command rest hqueue hcommand hnow hdispatch
    rw [iterate_eq_turn hcommand]
    exact (hsound.turn_running hqueue hnow hdispatch).trans hrunning

/-- The store reopened over a submission: its job is dispatched at once. -/
theorem start_inStep : ∃ s, System.start (run step .empty [submitCall 1 "a.py"]) 2 3 none = .ok s ∧
    s.owned.activeJob = some { jobId := 1, cancel := false } ∧ InStep s := by
  have hstart : (System.start (run step .empty [submitCall 1 "a.py"]) 2 3 none).map
      (fun s => (s.running, s.owned.activeJob)) =
        .ok (true, some { jobId := 1, cancel := false }) := by decide
  obtain ⟨s, hs, hvalues⟩ := exists_of_map_eq_ok hstart
  obtain ⟨hrunning, hactive⟩ := Prod.mk.inj hvalues
  exact ⟨s, hs, hactive, reachable_inStep s (.start hs) hrunning⟩

end RemyCC.Scheduler
