import RemyCC.Scheduler.Interleavings
import Mathlib.Algebra.GroupWithZero.Nat
import Mathlib.Data.Finset.Card

/-!
# The queue drains

A weight on what is still to be done, the commands in the queue, the workers
that owe a completion and the pending rows, falls with every turn of the loop
and with every completion. Only what is posted from outside adds to it, so when
no more is posted the loop comes to rest, and then every job has ended.
-/

namespace RemyCC.Scheduler

open Relational State Database

section Pending

variable {now : Int} {fs : FileSystem} {db : Database}

def pendingIds (db : Database) : Finset Int :=
  ((db.jobs.rows.filter (·.status = .pending)).map (·.id)).toFinset

theorem mem_pendingIds {id : Int} :
    id ∈ pendingIds db ↔ ∃ r ∈ db.jobs.rows, r.id = id ∧ r.status = .pending := by
  simp only [pendingIds, List.mem_toFinset, List.mem_map, List.mem_filter, decide_eq_true_eq]
  exact ⟨fun ⟨r, ⟨hr, hs⟩, hid⟩ => ⟨r, hr, hid, hs⟩, fun ⟨r, hr, hid, hs⟩ => ⟨r, ⟨hr, hs⟩, hid⟩⟩

/-- Only the opening of the store puts a job back in the queue. -/
theorem pending_of_change {op : Op} {db' : Database} {r r' : JobRow} (h : Change op db' r r')
    (hop : op ≠ .reopen) (hpending : r'.status = .pending) : r.status = .pending := by
  cases h with
  | kept status _ => exact status.symm.trans hpending
  | requeued hop' _ _ => exact absurd hop' hop
  | started _ _ source _ | folded _ _ source _ | cancelled _ source _ => exact source
  | succeeded _ _ _ target | failed _ _ _ target | replaced _ _ target | cancelRequested _ _ target
  | confirmed _ _ target =>
    rw [target] at hpending
    cases hpending

def enters : Op → Bool
  | .submit _ _ | .submitFullScan _ => true
  | _ => false

theorem enters_of_entered {c : Call} {db' : Database} {r : JobRow} (h : Entered c db db' r) :
    enters c.op = true := by
  cases h with
  | queued _ _ hop _ _ _ _ _ | absorbed _ _ hop _ _ _ _ _ _ _ _ _ | fullScan _ hop _ _ _ _ =>
    rw [hop]
    rfl

/-- A call puts at most one job in the queue, and only a submission does. -/
theorem pendingIds_step {c : Call} (hop : c.op ≠ .reopen) :
    (pendingIds (step db c)).card ≤ (pendingIds db).card + (enters c.op).toNat := by
  have hsubset : pendingIds (step db c) ⊆
      if enters c.op then insert db.freshId (pendingIds db) else pendingIds db := by
    intro id hid
    obtain ⟨r', hr', rfl, hpending⟩ := mem_pendingIds.mp hid
    rcases step_origin hr' with ⟨r, hr, hmoved⟩ | hentered
    · have hmem : r'.id ∈ pendingIds db := mem_pendingIds.mpr
        ⟨r, hr, hmoved.identity.id.symm, pending_of_change hmoved.change hop hpending⟩
      split
      · exact Finset.mem_insert_of_mem hmem
      · exact hmem
    · rw [if_pos (enters_of_entered hentered), hentered.id_eq]
      exact Finset.mem_insert_self _ _
  have hcard := Finset.card_le_card hsubset
  cases henters : enters c.op with
  | false => simpa [henters] using hcard
  | true =>
    rw [henters, if_pos rfl] at hcard
    exact hcard.trans (Finset.card_insert_le _ _)

end Pending

section Handle

variable {now : Int} {fs : FileSystem} {s : Owned}

def Command.submits : Command → Bool
  | .submit _ | .submitFullScan _ => true
  | _ => false

/-- The store is left as it is, or one call is made on it; only a command that submits
makes one that adds a job. -/
def Called (now : Int) (command : Command) (db db' : Database) : Prop :=
  db' = db ∨ ∃ op : Op, op ≠ .reopen ∧ (enters op = true → command.submits = true) ∧
    db' = step db ⟨now, op⟩

theorem Called.of_exec {command : Command} {db db' : Database} {op : Op} (hop : op ≠ .reopen)
    (henters : enters op = true → command.submits = true)
    (hexec : Call.exec ⟨now, op⟩ db = .ok db') : Called now command db db' :=
  .inr ⟨op, hop, henters, by simp [step, hexec]⟩

theorem Called.of_answer {command : Command} {α : Type} (wrap : Except StateError α → Reply)
    {op : Op} {result : Except StateError (Database × α)} (hop : op ≠ .reopen)
    (henters : enters op = true → command.submits = true)
    (hexec : Call.exec ⟨now, op⟩ s.store = Prod.fst <$> result) :
    Called now command s.store (answer s wrap result).1.store :=
  .inr ⟨op, hop, henters, congrArg Owned.store (answer_owned s wrap hexec)⟩

theorem settle_called {command : Command} {jobId : Int} {outcome : WorkerOutcome}
    {status : JobStatus} {db db' : Database} (h : settle now jobId outcome status db = .ok db') :
    Called now command db db' := by
  have hcall : ∀ op : Op, op ≠ .reopen → enters op = false → Call.exec ⟨now, op⟩ db = .ok db' →
      Called now command db db' :=
    fun op hop henters hexec => .of_exec hop (fun h => absurd h (by simp [henters])) hexec
  unfold settle at h
  split at h
  · exact hcall (.confirmCancelled jobId) Op.noConfusion rfl h
  · exact hcall (.completeSuccess jobId _) Op.noConfusion rfl h
  · exact hcall (.completeFailure jobId _) Op.noConfusion rfl h
  · cases h
    exact .inl rfl

theorem handle_called {command : Command} {u : Owned × Option Reply}
    (h : handle now fs command s = .ok u) : Called now command s.store u.1.store := by
  have hquiet : ∀ {b c : Bool}, b = false → b = true → c = true :=
    fun hb h => absurd h (by simp [hb])
  cases command with
  | submit request =>
    cases h
    have hop : Op.submit fs request ≠ .reopen := Op.noConfusion
    exact .of_answer .submit hop (fun _ => rfl) rfl
  | submitFullScan projectId =>
    cases h
    have hop : Op.submitFullScan projectId ≠ .reopen := Op.noConfusion
    exact .of_answer .submit hop (fun _ => rfl) rfl
  | promote jobId priority =>
    cases h
    have hop : Op.promote jobId priority ≠ .reopen := Op.noConfusion
    exact .of_answer .promote hop (hquiet rfl) rfl
  | get jobId | list filter | status | shutdown =>
    cases h
    exact .inl rfl
  | cancel jobId =>
    cases h
    unfold handleCancel
    cases hcancel : cancel now jobId s.store with
    | error e => exact .inl rfl
    | ok v =>
      have hop : Op.cancel jobId ≠ .reopen := Op.noConfusion
      exact .of_exec hop (hquiet rfl) (by simp [Call.exec, hcancel])
  | worker event =>
    cases event with
    | progress jobId current message =>
      change (handleProgress jobId current message s >>= fun s => .ok (s, none)) = _ at h
      unfold handleProgress at h
      cases hprogress : updateProgress jobId ⟨current, 3, message⟩ s.store with
      | ok v =>
        rw [hprogress] at h
        cases h
        have hop : Op.updateProgress jobId ⟨current, 3, message⟩ ≠ .reopen := Op.noConfusion
        exact .of_exec hop (hquiet rfl) (by simp [Call.exec, hprogress])
      | error e =>
        rw [hprogress] at h
        cases e with
        | invalidTransition _ _ | notFound _ =>
          cases h
          exact .inl rfl
        | sqlite _ | io _ | invalidInput _ | notCancellable _ | corrupt _ => cases h
    | complete jobId outcome =>
      change (handleComplete now jobId outcome s >>= fun s => .ok (s, none)) = _ at h
      unfold handleComplete at h
      cases hget : State.get s.store jobId with
      | error e =>
        rw [hget] at h
        cases h
      | ok current =>
        rw [hget] at h
        change (settle now jobId outcome current.status s.store >>= _) >>= _ = _ at h
        cases hsettle : settle now jobId outcome current.status s.store with
        | error e =>
          rw [hsettle] at h
          cases h
        | ok store =>
          rw [hsettle] at h
          cases h
          exact settle_called hsettle

theorem Called.pending {command : Command} {db db' : Database} (h : Called now command db db') :
    (pendingIds db').card ≤ (pendingIds db).card + command.submits.toNat := by
  rcases h with rfl | ⟨op, hop, henters, rfl⟩
  · exact Nat.le_add_right _ _
  · have hcard : (pendingIds (step db ⟨now, op⟩)).card ≤ (pendingIds db).card + (enters op).toNat :=
      pendingIds_step hop
    have hle : (enters op).toNat ≤ command.submits.toNat := by
      cases hop' : enters op with
      | false => exact Nat.zero_le _
      | true => rw [henters hop']
    omega

/-- Every job of the first store is one of the second. -/
def Kept (db db' : Database) : Prop :=
  ∀ r ∈ db.jobs.rows, ∃ r' ∈ db'.jobs.rows, r'.id = r.id

theorem Called.kept {command : Command} {db db' : Database} (h : Called now command db db') :
    Kept db db' := by
  rcases h with rfl | ⟨op, -, -, rfl⟩
  · exact fun r hr => ⟨r, hr, rfl⟩
  · intro r hr
    obtain ⟨r', hr', hmoved⟩ := step_moved (c := ⟨now, op⟩) hr
    exact ⟨r', hr', hmoved.identity.id⟩

theorem Kept.trans {db db' db'' : Database} (h : Kept db db') (h' : Kept db' db'') :
    Kept db db'' := by
  intro r hr
  obtain ⟨r', hr', hid⟩ := h r hr
  obtain ⟨r'', hr'', hid'⟩ := h' r' hr'
  exact ⟨r'', hr'', hid'.trans hid⟩

theorem Dispatched.kept {u : Owned × Option Launch} (h : Dispatched now s u) :
    Kept s.store u.1.store := by
  cases h with
  | busy _ _ | idle _ _ => exact fun r hr => ⟨r, hr, rfl⟩
  | claimed _ _ _ _ rows _ _ =>
    exact fun r hr => ⟨_, rows ▸ List.mem_map_of_mem hr, startRow_id _ _ r⟩

end Handle

section Weight

/-- What a command in the queue may still lead to: a submission, that its job is dispatched
and reported on. -/
def Command.cost (command : Command) : Nat := if command.submits then 4 else 1

def System.weight (s : System) : Nat :=
  2 * s.owing.length + (s.queue.map Command.cost).sum + 3 * (pendingIds s.owned.store).card

theorem cost_eq (command : Command) : command.cost = 3 * command.submits.toNat + 1 := by
  unfold Command.cost
  cases command.submits <;> rfl

variable {s : System} {env : Surroundings} {command : Command} {rest : List Command}

/-- Claiming a job takes it out of the pending ones. -/
theorem pendingIds_claimed {now : Int} {db db' : Database} {next : JobRow}
    (found : nextPending? db = some next)
    (rows : db'.jobs.rows = db.jobs.rows.map (startRow now providerRust next.id)) :
    (pendingIds db').card + 1 ≤ (pendingIds db).card := by
  obtain ⟨hnext, hpending, -⟩ := nextPending?_eq_some found
  have hsubset : pendingIds db' ⊆ (pendingIds db).erase next.id := by
    intro id hid
    obtain ⟨r', hr', rfl, hstatus⟩ := mem_pendingIds.mp hid
    rw [rows] at hr'
    obtain ⟨r, hr, rfl⟩ := List.mem_map.mp hr'
    rw [startRow_id]
    unfold startRow Table.apply at hstatus
    split at hstatus
    · cases hstatus
    · next hne => exact Finset.mem_erase.mpr ⟨hne, mem_pendingIds.mpr ⟨r, hr, rfl, hstatus⟩⟩
  have hmem : next.id ∈ pendingIds db := mem_pendingIds.mpr ⟨next, hnext, rfl, hpending⟩
  have hcard := Finset.card_le_card hsubset
  rw [Finset.card_erase_of_mem hmem] at hcard
  have hpos := Finset.card_pos.mpr ⟨_, hmem⟩
  omega

theorem launch_weight {now : Int} {owned : Owned} {u : Owned × Option Launch}
    (h : Dispatched now owned u) :
    ({ s with owned := u.1 }.launch u.2).weight ≤ { s with owned := owned }.weight := by
  cases h with
  | busy _ _ | idle _ _ => exact Nat.le_refl _
  | claimed free next found store rows launch started =>
    have hcard := pendingIds_claimed found rows
    rcases started with rfl | ⟨o, rfl⟩
    · simp only [System.weight, System.launch, List.length_append, List.length_singleton]
      omega
    · have hcost : Command.cost (.worker (.complete next.id o)) = 1 := rfl
      simp only [System.weight, System.launch, List.map_append, List.sum_append, List.map_cons,
        List.map_nil, List.sum_cons, List.sum_nil, hcost]
      omega

/-- A turn of the loop takes more off than it puts on. -/
theorem System.Sound.turn_weight (h : s.Sound) (hqueue : s.queue = command :: rest)
    (hnow : Readable env.now) (hdispatch : Readable env.dispatchNow) :
    (s.turn env command rest).weight + 1 ≤ s.weight := by
  unfold System.turn
  cases hhandle : handle env.now env.fs command s.owned with
  | error e => exact absurd hnow ((handle_yields h hqueue).of_eq_error hhandle)
  | ok u =>
    have hpending := (handle_called hhandle).pending
    have hcost := cost_eq command
    simp only
    cases hd : dispatch env.dispatchNow env.spawnError u.1 with
    | error e => exact absurd hdispatch (dispatch_yields.of_eq_error hd)
    | ok v =>
      have hlaunch := launch_weight
        (s := { s with owned := u.1, queue := rest,
                       accepted := s.accepted ++ acceptedCancel command u.2 })
        (dispatch_yields.of_eq_ok hd)
      refine Nat.le_trans (Nat.succ_le_succ hlaunch) ?_
      simp only [System.weight, hqueue, List.map_cons, List.sum_cons]
      omega

end Weight

section Run

inductive Move where
  | post
  | progress
  | complete
  | turn
  deriving DecidableEq

/-- The steps while the clocks are readable and nobody shuts the daemon down. -/
inductive CalmStep : Move → System → System → Prop
  | post (s : System) (command : Command) (hclient : command.isWorker = false)
      (hstay : command ≠ .shutdown) :
      CalmStep .post s { s with queue := s.queue ++ [command] }
  | progress (s : System) (jobId current : Int) (message : String) (hlaunched : jobId ∈ s.launched)
      (hcurrent : 0 ≤ current ∧ current ≤ 3) :
      CalmStep .progress s
        { s with queue := s.queue ++ [.worker (.progress jobId current message)] }
  | complete (s : System) (jobId : Int) (outcome : WorkerOutcome) (howing : jobId ∈ s.owing) :
      CalmStep .complete s { s with queue := s.queue ++ [.worker (.complete jobId outcome)],
                                    owing := s.owing.erase jobId }
  | turn (s : System) (env : Surroundings) (command : Command) (rest : List Command)
      (hqueue : s.queue = command :: rest) (hrunning : s.running = true)
      (hnow : Readable env.now) (hdispatch : Readable env.dispatchNow) :
      CalmStep .turn s (s.iterate env command rest)

inductive CalmRun : List Move → System → System → Prop
  | nil (s : System) : CalmRun [] s s
  | cons {move : Move} {moves : List Move} {s t u : System} (hstep : CalmStep move s t)
      (hrest : CalmRun moves t u) : CalmRun (move :: moves) s u

/-- A running loop with nothing in its queue that would end it. -/
structure Open (s : System) : Prop where
  sound : s.Sound
  running : s.running = true
  stay : .shutdown ∉ s.queue

theorem CalmStep.systemStep {move : Move} {s t : System} (h : CalmStep move s t) :
    SystemStep s t := by
  cases h with
  | post _ command hclient _ => exact .client s command hclient
  | progress _ jobId current message hlaunched hcurrent =>
    exact .progress s jobId current message hlaunched hcurrent
  | complete _ jobId outcome howing => exact .complete s jobId outcome howing
  | turn _ env command rest hqueue hrunning _ _ => exact .iterate s env command rest hqueue hrunning

variable {s t : System} {move : Move} {moves : List Move}

theorem turn_queue {env : Surroundings} {command : Command} {rest : List Command}
    (hstay : .shutdown ∉ rest) : .shutdown ∉ (s.turn env command rest).queue := by
  unfold System.turn
  cases handle env.now env.fs command s.owned with
  | error e => exact hstay
  | ok u =>
    simp only
    cases dispatch env.dispatchNow env.spawnError u.1 with
    | error e => exact hstay
    | ok v =>
      obtain ⟨owned, launch⟩ := v
      cases launch with
      | none => exact hstay
      | some launch =>
        cases launch with
        | worker jobId => exact hstay
        | posted event =>
          simp only [System.launch, List.mem_append, List.mem_singleton, not_or]
          exact ⟨hstay, Command.noConfusion⟩

theorem Open.turn {env : Surroundings} {command : Command} {rest : List Command} (h : Open s)
    (hqueue : s.queue = command :: rest) : s.iterate env command rest = s.turn env command rest :=
  iterate_eq_turn fun hcommand => h.stay (by rw [hqueue, hcommand]; exact List.mem_cons_self)

theorem CalmStep.open_ (hstep : CalmStep move s t) (h : Open s) : Open t := by
  have hrunning : t.running = true := by
    cases hstep with
    | post _ _ _ _ | progress _ _ _ _ _ _ | complete _ _ _ _ => exact h.running
    | turn _ env command rest hqueue _ hnow hdispatch =>
      rw [h.turn hqueue]
      exact (h.sound.turn_running hqueue hnow hdispatch).trans h.running
  refine ⟨step_sound h.sound hstep.systemStep hrunning, hrunning, ?_⟩
  cases hstep with
  | post _ command _ hstay =>
    simp only [List.mem_append, List.mem_singleton, not_or]
    exact ⟨h.stay, Ne.symm hstay⟩
  | progress _ _ _ _ _ _ | complete _ _ _ _ =>
    simp only [List.mem_append, List.mem_singleton, not_or]
    exact ⟨h.stay, Command.noConfusion⟩
  | turn _ env command rest hqueue _ _ _ =>
    rw [h.turn hqueue]
    exact turn_queue fun hmem => h.stay (hqueue ▸ List.mem_cons_of_mem _ hmem)

theorem CalmStep.kept (hstep : CalmStep move s t) (h : Open s) :
    Kept s.owned.store t.owned.store := by
  cases hstep with
  | post _ _ _ _ | progress _ _ _ _ _ _ | complete _ _ _ _ => exact fun r hr => ⟨r, hr, rfl⟩
  | turn _ env command rest hqueue _ _ _ =>
    rw [h.turn hqueue]
    unfold System.turn
    cases hhandle : handle env.now env.fs command s.owned with
    | error e => exact fun r hr => ⟨r, hr, rfl⟩
    | ok u =>
      have hcalled := (handle_called hhandle).kept
      simp only
      cases hd : dispatch env.dispatchNow env.spawnError u.1 with
      | error e => exact hcalled
      | ok v =>
        simp only [launch_owned]
        exact hcalled.trans (dispatch_yields.of_eq_ok hd).kept

/-- What a step adds at most, and what it takes off at least. -/
def Move.gain : Move → Nat
  | .post => 4
  | .progress => 1
  | .complete | .turn => 0

def Move.loss : Move → Nat
  | .post | .progress => 0
  | .complete | .turn => 1

theorem CalmStep.weight (hstep : CalmStep move s t) (h : Open s) :
    t.weight + move.loss ≤ s.weight + move.gain := by
  cases hstep with
  | post _ command _ _ =>
    have hcost : command.cost ≤ 4 := by
      rw [cost_eq]
      cases command.submits <;> decide
    simp only [System.weight, List.map_append, List.sum_append, List.map_cons, List.map_nil,
      List.sum_cons, List.sum_nil, Move.gain, Move.loss]
    omega
  | progress _ jobId current message _ _ =>
    have hcost : Command.cost (.worker (.progress jobId current message)) = 1 := rfl
    simp only [System.weight, List.map_append, List.sum_append, List.map_cons, List.map_nil,
      List.sum_cons, List.sum_nil, hcost, Move.gain, Move.loss]
    omega
  | complete _ jobId outcome howing =>
    have hcost : Command.cost (.worker (.complete jobId outcome)) = 1 := rfl
    have hlength := List.length_erase_of_mem howing
    have hpos := List.length_pos_of_mem howing
    simp only [System.weight, List.map_append, List.sum_append, List.map_cons, List.map_nil,
      List.sum_cons, List.sum_nil, hcost, hlength, Move.gain, Move.loss]
    omega
  | turn _ env command rest hqueue _ hnow hdispatch =>
    rw [h.turn hqueue]
    exact h.sound.turn_weight hqueue hnow hdispatch

theorem CalmRun.keeps (hrun : CalmRun moves s t) (h : Open s) : Open t ∧
    Kept s.owned.store t.owned.store ∧
      t.weight + (moves.map Move.loss).sum ≤ s.weight + (moves.map Move.gain).sum := by
  induction hrun with
  | nil s => exact ⟨h, fun r hr => ⟨r, hr, rfl⟩, Nat.le_refl _⟩
  | cons hstep _ ih =>
    obtain ⟨hopen, hkept, hweight⟩ := ih (hstep.open_ h)
    have hfirst := hstep.weight h
    refine ⟨hopen, (hstep.kept h).trans hkept, ?_⟩
    simp only [List.map_cons, List.sum_cons]
    omega

/-- The loop has nothing to take and no worker has to report. -/
def Still (s : System) : Prop := ∀ t, ¬ CalmStep .complete s t ∧ ¬ CalmStep .turn s t

theorem Open.of_still (h : Open s) (hstill : Still s) :
    ∀ r ∈ s.owned.store.jobs.rows, r.status.terminal := by
  have hqueue : s.queue = [] := by
    cases hqueue : s.queue with
    | nil => rfl
    | cons command rest =>
      have hreadable : Readable 0 := by decide
      exact absurd (CalmStep.turn s ⟨0, 0, exampleFs, none⟩ command rest hqueue h.running
        hreadable hreadable) (hstill _).2
  have howing : s.owing = [] := by
    cases howing : s.owing with
    | nil => rfl
    | cons jobId rest =>
      have hmem : jobId ∈ s.owing := by
        rw [howing]
        exact List.mem_cons_self
      exact absurd (CalmStep.complete s jobId (.failed .null) hmem) (hstill _).1
  have hfree : s.owned.activeJob = none := by
    have htokens := h.sound.tokens
    rw [System.completions, howing, hqueue] at htokens
    cases hactive : s.owned.activeJob with
    | none => rfl
    | some a =>
      rw [hactive] at htokens
      cases htokens
  intro r hr
  have hexecuting := h.sound.agrees.1.no_executing hfree r hr
  have hpending := h.sound.idle hfree r hr
  cases hstatus : r.status with
  | pending => exact absurd hstatus hpending
  | running => exact absurd (.inl hstatus) hexecuting
  | cancelRequested => exact absurd (.inr hstatus) hexecuting
  | succeeded | failed | cancelled | superseded => simp [JobStatus.terminal]

theorem Open.comes_to_rest (h : Open s) : ∃ moves t, CalmRun moves s t ∧
    (∀ move ∈ moves, move = .complete ∨ move = .turn) ∧ Still t := by
  induction hweight : s.weight using Nat.strong_induction_on generalizing s with
  | _ n ih =>
    by_cases hstill : Still s
    · exact ⟨[], s, .nil s, fun _ hmem => absurd hmem List.not_mem_nil, hstill⟩
    · have hmove : ∃ move t, CalmStep move s t ∧ (move = .complete ∨ move = .turn) := by
        by_contra hnone
        refine hstill fun t => ⟨fun hstep => hnone ⟨_, t, hstep, .inl rfl⟩, fun hstep => ?_⟩
        exact hnone ⟨_, t, hstep, .inr rfl⟩
      obtain ⟨move, t, hstep, hmove⟩ := hmove
      have hless := hstep.weight h
      have hloss : move.loss = 1 ∧ move.gain = 0 := by
        rcases hmove with rfl | rfl <;> exact ⟨rfl, rfl⟩
      obtain ⟨moves, u, hrun, hmoves, hrest⟩ := ih t.weight (by omega) (hstep.open_ h) rfl
      exact ⟨move :: moves, u, .cons hstep hrun, List.forall_mem_cons.mpr ⟨hmove, hmoves⟩, hrest⟩

theorem sum_loss (moves : List Move) :
    (moves.map Move.loss).sum = moves.count .turn + moves.count .complete := by
  induction moves with
  | nil => rfl
  | cons move moves ih =>
    rw [List.map_cons, List.sum_cons, ih, List.count_cons, List.count_cons]
    cases move <;> simp [Move.loss] <;> omega

theorem sum_gain (moves : List Move) :
    (moves.map Move.gain).sum = 4 * moves.count .post + moves.count .progress := by
  induction moves with
  | nil => rfl
  | cons move moves ih =>
    rw [List.map_cons, List.sum_cons, ih, List.count_cons, List.count_cons]
    cases move <;> simp [Move.gain] <;> omega

/-- The work behind any posts is bounded by them, and when it is done all jobs have ended. -/
structure Drains (s : System) : Prop where
  bound : ∀ moves t, CalmRun moves s t → moves.count .turn + moves.count .complete ≤
    s.weight + 4 * moves.count .post + moves.count .progress
  rest : ∀ moves t, CalmRun moves s t → Still t → Kept s.owned.store t.owned.store ∧
    ∀ r ∈ t.owned.store.jobs.rows, r.status.terminal
  ends : ∀ moves t, CalmRun moves s t → ∃ moves' u, CalmRun moves' t u ∧
    (∀ move ∈ moves', move = .complete ∨ move = .turn) ∧ Still u

theorem reachable_drains (s : System) (h : Reachable s) (hrunning : s.running = true)
    (hstay : .shutdown ∉ s.queue) : Drains s := by
  have hopen : Open s := ⟨reachable_sound h hrunning, hrunning, hstay⟩
  refine ⟨fun moves t hrun => ?_, fun moves t hrun hstill => ?_, fun moves t hrun => ?_⟩
  · have hweight := (hrun.keeps hopen).2.2
    rw [sum_loss, sum_gain] at hweight
    omega
  · obtain ⟨hlast, hkept, -⟩ := hrun.keeps hopen
    exact ⟨hkept, hlast.of_still hstill⟩
  · exact (hrun.keeps hopen).1.comes_to_rest

/-- The store reopened over a submission, its worker just started. -/
theorem start_drains : ∃ s, System.start (run step .empty [submitCall 1 "a.py"]) 2 3 none = .ok s ∧
    s.owing ≠ [] ∧ Drains s := by
  have hstart : (System.start (run step .empty [submitCall 1 "a.py"]) 2 3 none).map
      (fun s => (s.running, s.queue.isEmpty, s.owing)) = .ok (true, true, [1]) := by decide
  obtain ⟨s, hs, hvalues⟩ := exists_of_map_eq_ok hstart
  obtain ⟨hrunning, hvalues⟩ := Prod.mk.inj hvalues
  obtain ⟨hqueue, howing⟩ := Prod.mk.inj hvalues
  refine ⟨s, hs, by rw [howing]; exact List.cons_ne_nil _ _,
    reachable_drains s (.start hs) hrunning ?_⟩
  rw [List.isEmpty_iff.mp hqueue]
  exact List.not_mem_nil

end Run

end RemyCC.Scheduler
