import RemyCC.Server.Fatal
import RemyCC.Server.Framing

/-!
# What a client can do to the daemon

Every turn of the loop a connection waits for is a step of the system, so the
loop goes on whatever the client sends. The connection itself ends in an error
exactly when a command it asks for meets a path that exists and cannot be
resolved.
-/

namespace RemyCC.Server

open State Relational Scheduler

/-- A state of the scheduler while the daemon takes connections. -/
structure Serving (s : System) : Prop where
  reachable : Reachable s
  running : s.running = true
  quiet : Command.shutdown ∉ s.queue

def Turn.Readable (turn : Turn) : Prop :=
  State.Readable turn.env.now ∧ State.Readable turn.env.dispatchNow

structure Wait.Readable (wait : Wait) : Prop where
  idle : ∀ turn ∈ wait.idle, turn.Readable
  ahead : ∀ n, (wait.ahead n).Readable
  own : wait.own.Readable

section Turns

variable {s : System}

theorem report_serving (h : Serving s) (r : Report) : Serving (report s r) := by
  cases r with
  | progress jobId current message =>
    unfold report
    simp only
    split
    · rename_i hposted
      refine ⟨.step h.reachable (.progress s jobId current message hposted.1 hposted.2), h.running, ?_⟩
      simp [h.quiet]
    · exact h
  | complete jobId outcome =>
    unfold report
    simp only
    split
    · rename_i howing
      refine ⟨.step h.reachable (.complete s jobId outcome howing), h.running, ?_⟩
      simp [h.quiet]
    · exact h

theorem report_queue (s : System) (r : Report) : ∃ more, (report s r).queue = s.queue ++ more := by
  cases r with
  | progress jobId current message =>
    unfold report
    simp only
    split
    · exact ⟨_, rfl⟩
    · exact ⟨[], (List.append_nil _).symm⟩
  | complete jobId outcome =>
    unfold report
    simp only
    split
    · exact ⟨_, rfl⟩
    · exact ⟨[], (List.append_nil _).symm⟩

theorem reports_serving (h : Serving s) (reports : List Report) :
    Serving (reports.foldl report s) := by
  induction reports generalizing s with
  | nil => exact h
  | cons r reports ih => exact ih (report_serving h r)

theorem reports_queue (reports : List Report) (s : System) :
    ∃ more, (reports.foldl report s).queue = s.queue ++ more := by
  induction reports generalizing s with
  | nil => exact ⟨[], (List.append_nil _).symm⟩
  | cons r reports ih =>
    obtain ⟨more, hmore⟩ := report_queue s r
    obtain ⟨rest, hrest⟩ := ih (report s r)
    exact ⟨more ++ rest, by rw [List.foldl_cons, hrest, hmore, List.append_assoc]⟩

theorem launch_queue (s : System) (launch : Option Launch) :
    ∃ more, (s.launch launch).queue = s.queue ++ more ∧ Command.shutdown ∉ more := by
  rcases launch with _ | (_ | _)
  · exact ⟨[], (List.append_nil _).symm, List.not_mem_nil⟩
  · exact ⟨[], (List.append_nil _).symm, List.not_mem_nil⟩
  · exact ⟨_, rfl, by simp⟩

theorem turn_queue (s : System) (env : Surroundings) (command : Command) (rest : List Command) :
    ∃ more, (s.turn env command rest).queue = rest ++ more ∧ Command.shutdown ∉ more := by
  have hsame : ∃ more, rest = rest ++ more ∧ Command.shutdown ∉ more :=
    ⟨[], (List.append_nil _).symm, List.not_mem_nil⟩
  unfold System.turn
  split
  · exact hsame
  · simp only
    split
    · exact hsame
    · exact launch_queue _ _

theorem iterate_serving (h : Serving s) {env : Surroundings} {command : Command}
    {rest : List Command} (hqueue : s.queue = command :: rest) (hnow : State.Readable env.now)
    (hdispatch : State.Readable env.dispatchNow) :
    Serving (s.iterate env command rest) ∧
      ∃ more, (s.iterate env command rest).queue = rest ++ more := by
  have hnot : command ≠ .shutdown := by
    rintro rfl
    exact h.quiet (hqueue ▸ List.mem_cons_self)
  have hrest : Command.shutdown ∉ rest := fun hmem => h.quiet (hqueue ▸ List.mem_cons_of_mem _ hmem)
  obtain ⟨more, hmore, hquiet⟩ := turn_queue s env command rest
  refine ⟨⟨.step h.reachable (.iterate s env command rest hqueue h.running), ?_, ?_⟩, more, ?_⟩
  · exact (reachable_inStep s h.reachable h.running).alive env command rest hqueue hnot hnow hdispatch
  · rw [iterate_eq_turn hnot, hmore]
    exact fun hmem => (List.mem_append.mp hmem).elim hrest hquiet
  · rw [iterate_eq_turn hnot, hmore]

theorem work_serving (h : Serving s) {turn : Turn} (hturn : turn.Readable) :
    Serving (work s turn) := by
  have hreports := reports_serving h turn.reports
  unfold work
  simp only
  split
  · exact hreports
  · rename_i command rest hqueue
    rw [if_pos hreports.running]
    exact (iterate_serving hreports hqueue hturn.1 hturn.2).1

/-- A turn takes the front of the queue and leaves the order of the rest. -/
theorem work_queue (h : Serving s) {turn : Turn} (hturn : turn.Readable)
    {command : Command} {rest : List Command} (hqueue : s.queue = command :: rest) :
    ∃ more, (work s turn).queue = rest ++ more := by
  have hreports := reports_serving h turn.reports
  obtain ⟨posted, hposted⟩ := reports_queue turn.reports s
  rw [hqueue, List.cons_append] at hposted
  obtain ⟨more, hmore⟩ := (iterate_serving hreports hposted hturn.1 hturn.2).2
  refine ⟨posted ++ more, ?_⟩
  unfold work
  simp only [hposted]
  rw [if_pos hreports.running, hmore, List.append_assoc]

theorem idle_serving (h : Serving s) {turns : List Turn} (hturns : ∀ turn ∈ turns, turn.Readable) :
    Serving (turns.foldl work s) := by
  induction turns generalizing s with
  | nil => exact h
  | cons turn turns ih =>
    exact ih (work_serving h (hturns turn List.mem_cons_self))
      fun t ht => hturns t (List.mem_cons_of_mem _ ht)

/-- After as many turns as there were commands ahead, what stood behind them
is in front. -/
theorem workAhead_serving (h : Serving s) {turns : Nat → Turn} (hturns : ∀ n, (turns n).Readable)
    (n : Nat) : Serving (workAhead turns n s) ∧ ∀ ahead behind, s.queue = ahead ++ behind →
      ahead.length = n → behind ≠ [] → ∃ more, (workAhead turns n s).queue = behind ++ more := by
  have hgeneral : ∀ n, Serving (workAhead turns n s) ∧ ∀ ahead behind,
      s.queue = ahead ++ behind → n ≤ ahead.length → behind ≠ [] →
        ∃ more, (workAhead turns n s).queue = ahead.drop n ++ behind ++ more := by
    intro n
    induction n with
    | zero =>
      refine ⟨h, fun ahead behind hqueue _ _ => ⟨[], ?_⟩⟩
      rw [List.append_nil]
      exact hqueue
    | succ n ih =>
      obtain ⟨hserving, hbehind⟩ := ih
      refine ⟨work_serving hserving (hturns n), fun ahead behind hqueue hlength hne => ?_⟩
      obtain ⟨more, hmore⟩ := hbehind ahead behind hqueue (Nat.le_of_succ_le hlength) hne
      rw [List.drop_eq_getElem_cons hlength, List.cons_append, List.cons_append] at hmore
      obtain ⟨posted, hposted⟩ := work_queue hserving (hturns n) hmore
      exact ⟨more ++ posted, by rw [workAhead, hposted]; simp [List.append_assoc]⟩
  refine ⟨(hgeneral n).1, fun ahead behind hqueue hlength hne => ?_⟩
  obtain ⟨more, hmore⟩ := (hgeneral n).2 ahead behind hqueue hlength.ge hne
  exact ⟨more, by simpa [← hlength] using hmore⟩

/-- A posted command is answered by a turn of its own, and the loop goes on. -/
theorem request_serving (h : Serving s) {wait : Wait} (hwait : wait.Readable) {command : Command}
    (hnot : command ≠ .shutdown) (hclient : command.isWorker = false)
    (hreply : ∀ owned, ∃ reply, replyTo wait.own.env command owned = some reply) :
    ∃ owned reply, replyTo wait.own.env command owned = some reply ∧
      (request s wait command).2 = .ok reply ∧ Serving (request s wait command).1 := by
  have hidle := idle_serving h hwait.idle
  generalize hs : wait.idle.foldl work s = t at hidle
  have hposted : Serving { t with queue := t.queue ++ [command] } := by
    refine ⟨.step hidle.reachable (.client t command hclient), hidle.running, ?_⟩
    simp only [List.mem_append, List.mem_singleton, not_or]
    exact ⟨hidle.quiet, hnot.symm⟩
  obtain ⟨hahead, hfront⟩ := workAhead_serving hposted hwait.ahead t.queue.length
  obtain ⟨behind, hbehind⟩ := hfront t.queue [command] rfl rfl (List.cons_ne_nil _ _)
  have hown := reports_serving hahead wait.own.reports
  obtain ⟨posted, hqueue⟩ := reports_queue wait.own.reports
    (workAhead wait.ahead t.queue.length { t with queue := t.queue ++ [command] })
  rw [hbehind, List.append_assoc, List.singleton_append] at hqueue
  obtain ⟨hlast, -⟩ := iterate_serving hown hqueue hwait.own.1 hwait.own.2
  generalize hu : wait.own.reports.foldl report
    (workAhead wait.ahead t.queue.length { t with queue := t.queue ++ [command] }) = u at *
  obtain ⟨reply, hreply⟩ := hreply u.owned
  have heq : request s wait command =
      (u.iterate wait.own.env command (behind ++ posted), .ok reply) := by
    unfold request
    simp only [hs]
    rw [if_pos hidle.running]
    simp only [hu, hown.running, hqueue, hreply]
  exact ⟨u.owned, reply, hreply, by rw [heq], by rw [heq]; exact hlast⟩

end Turns

section Answers

variable (host : Host) {meeting : Meeting}

theorem relay_isOk {α : Type} (result : Except StateError α) (wrap : α → Response) :
    (∃ response, host.relay result wrap = .ok response) ↔ ¬ Fatal result := by
  unfold Host.relay
  cases result with
  | ok value => exact ⟨fun _ => not_fatal_ok value, fun _ => ⟨_, rfl⟩⟩
  | error e =>
    rw [fatal_error_iff]
    simp only
    split
    · rename_i hfatal
      exact ⟨fun ⟨_, h⟩ => (by cases h), fun h => absurd hfatal h⟩
    · rename_i hfatal
      exact ⟨fun _ => hfatal, fun _ => ⟨_, rfl⟩⟩

/-- A request is put to the scheduler as a command of a client; the loop has a
reply to it, which the handler can pass on exactly when the paths resolve. -/
structure Answerable (command : Command) (respond : Reply → Except StateError Response) : Prop where
  not_shutdown : command ≠ .shutdown
  client : command.isWorker = false
  reply : ∀ env owned, ∃ reply, replyTo env command owned = some reply
  passed : ∀ env owned reply, State.Readable env.now → replyTo env command owned = some reply →
    ((∃ response, respond reply = .ok response) ↔ Resolving env.fs command)

theorem replyTo_answer {α : Type} {env : Surroundings} {command : Command} {owned : Owned}
    {wrap : Except StateError α → Reply} {result : Except StateError (Database × α)}
    (h : handle env.now env.fs command owned = .ok (answer owned wrap result)) :
    replyTo env command owned = some (wrap (Prod.snd <$> result)) := by
  unfold replyTo
  rw [h]
  cases result <;> rfl

theorem fatal_map_iff {α β : Type} (f : α → β) (x : Except StateError α) :
    Fatal (f <$> x) ↔ Fatal x := by
  cases x with
  | ok a => exact ⟨fun h => absurd h (not_fatal_ok _), fun h => absurd h (not_fatal_ok _)⟩
  | error e =>
    have hmap : Fatal (f <$> Except.error e) ↔ isFatal e = true := fatal_error_iff e
    exact hmap.trans (fatal_error_iff e).symm

theorem answerable_submit (request : SubmitJob) :
    Answerable (.submit request) fun
      | .submit result => host.relay result fun r => .submitted r.job r.created
      | _ => .error replyClosed where
  not_shutdown := by simp
  client := rfl
  reply := fun env owned => ⟨_, replyTo_answer rfl⟩
  passed := by
    intro env owned reply hnow hreply
    obtain rfl := Option.some.inj ((replyTo_answer rfl).symm.trans hreply)
    rw [relay_isOk, fatal_map_iff, fatal_submit_iff hnow, not_not]
    rfl

theorem answerable_promote (jobId : Int) (priority : JobPriority) :
    Answerable (.promote jobId priority) fun
      | .promote result => host.relay result fun r => .promoted r.job r.changed
      | _ => .error replyClosed where
  not_shutdown := by simp
  client := rfl
  reply := fun env owned => ⟨_, replyTo_answer rfl⟩
  passed := by
    intro env owned reply _ hreply
    obtain rfl := Option.some.inj ((replyTo_answer rfl).symm.trans hreply)
    rw [relay_isOk, fatal_map_iff]
    exact ⟨fun _ => trivial, fun _ => not_fatal_promote jobId priority⟩

theorem answerable_get (jobId : Int) :
    Answerable (.get jobId) fun
      | .get result => host.relay result .job
      | _ => .error replyClosed where
  not_shutdown := by simp
  client := rfl
  reply := fun env owned => ⟨_, rfl⟩
  passed := by
    intro env owned reply _ hreply
    cases hreply
    rw [relay_isOk]
    exact ⟨fun _ => trivial, fun _ => not_fatal_loadJob _ jobId⟩

theorem replyTo_cancel (env : Surroundings) (jobId : Int) (owned : Owned) :
    replyTo env (.cancel jobId) owned =
      some (.cancel (Prod.snd <$> cancel env.now jobId owned.store)) := by
  unfold replyTo handle
  simp only [handleCancel]
  cases cancel env.now jobId owned.store <;> rfl

theorem answerable_cancel (jobId : Int) :
    Answerable (.cancel jobId) fun
      | .cancel result => host.relay result fun r => .cancelled r.job r.changed
      | _ => .error replyClosed where
  not_shutdown := by simp
  client := rfl
  reply := fun env owned => ⟨_, replyTo_cancel env jobId owned⟩
  passed := by
    intro env owned reply hnow hreply
    obtain rfl := Option.some.inj ((replyTo_cancel env jobId owned).symm.trans hreply)
    rw [relay_isOk, fatal_map_iff]
    exact ⟨fun _ => trivial, fun _ => not_fatal_cancel hnow jobId⟩

theorem answerable_list (filter : ListJobs) (limit : Nat) (filters : JobFilters) :
    Answerable (.list filter) fun
      | .list result => host.relay result fun jobs => .jobList jobs limit filters
      | _ => .error replyClosed where
  not_shutdown := by simp
  client := rfl
  reply := fun env owned => ⟨_, rfl⟩
  passed := by
    intro env owned reply _ hreply
    cases hreply
    rw [relay_isOk, fatal_list_iff, not_not]

theorem answerable_status (meeting : Meeting) :
    Answerable .status fun
      | .status result => host.relay result fun r => .status r.1 r.2 host.scanner meeting.ui
      | _ => .error replyClosed where
  not_shutdown := by simp
  client := rfl
  reply := fun env owned => ⟨_, rfl⟩
  passed := by
    intro env owned reply _ hreply
    cases hreply
    rw [relay_isOk]
    exact ⟨fun _ => trivial, fun _ => not_fatal_statusJobs⟩

theorem perform_ask {request : Request} {command : Command}
    {respond : Reply → Except StateError Response}
    (h : host.perform meeting request = .ask command respond) : Answerable command respond := by
  cases request with
  | hello _ _ | ping _ | shutdown _ | openConfigUi _ _ _ _ _ => cases h
  | submitJob _ _ _ _ _ _ _ =>
    cases h
    exact answerable_submit host _
  | promoteJob _ _ _ jobId priority =>
    cases h
    exact answerable_promote host jobId priority
  | getJob _ _ _ jobId =>
    cases h
    exact answerable_get host jobId
  | cancelJob _ _ _ jobId =>
    cases h
    exact answerable_cancel host jobId
  | listJobs _ _ _ _ _ _ _ _ =>
    cases h
    exact answerable_list host _ _ _
  | statusSnapshot _ _ _ =>
    cases h
    exact answerable_status host meeting

theorem judge_ask {line : Option String} {command : Command}
    {respond : Reply → Except StateError Response}
    (h : host.judge meeting line = .ask command respond) : Answerable command respond := by
  unfold Host.judge at h
  split at h
  · cases h
  · split at h
    · cases h
    · split at h
      · cases h
      · split at h
        · cases h
        · exact perform_ask host h

/-- Only a shutdown request with the token of the session closes the daemon. -/
theorem judge_shutdown {line : Option String} {written : List Response}
    (h : host.judge meeting line = .close .shutdown written) :
    ∃ text, line = some text ∧ host.decode text = some (.shutdown host.token) := by
  unfold Host.judge at h
  split at h
  · cases h
  · rename_i text
    refine ⟨text, rfl, ?_⟩
    split at h
    · cases h
    · rename_i request hdecode
      split at h
      · cases h
      · rename_i htoken
        split at h
        · cases h
        · rw [hdecode]
          cases request with
          | shutdown token =>
            have htoken : token = host.token := not_not.mp htoken
            rw [htoken]
          | _ => cases h

end Answers

/-- The commands the handler comes to, each with the number of its line. -/
def asked (host : Host) (meetings : Nat → Meeting) :
    Nat → List (Option String) → List (Nat × Command)
  | _, [] => []
  | n, line :: rest =>
    match host.judge (meetings n) line with
    | .say _ => asked host meetings (n + 1) rest
    | .close _ _ => []
    | .ask command _ => (n, command) :: asked host meetings (n + 1) rest

/-- What a client must not be able to break: the handler returns `Ok`, the
loop goes on, and a shutdown is one that was asked for with the token. -/
structure Survives (host : Host) (lines : List (Option String)) (served : Served) : Prop where
  returned : ∃ outcome, served.outcome = .ok outcome
  serving : Serving served.system
  shutdown : served.outcome = .ok .shutdown →
    ∃ text, some text ∈ lines ∧ host.decode text = some (.shutdown host.token)

section Run

variable {host : Host} {meetings : Nat → Meeting} {s : System}

theorem Survives.after {lines : List (Option String)} {served : Served} (line : Option String)
    (response : Response) :
    Survives host lines served → Survives host (line :: lines) (served.after response) := by
  intro h
  refine ⟨h.returned, h.serving, fun hshutdown => ?_⟩
  obtain ⟨text, hmem, hdecode⟩ := h.shutdown hshutdown
  exact ⟨text, List.mem_cons_of_mem _ hmem, hdecode⟩

/-- The scheduler goes on in every case; the rest depends on the paths alone. -/
theorem converse_survives (hclock : ∀ n, (meetings n).wait.Readable) (n : Nat)
    (lines : List (Option String)) (h : Serving s) :
    (Survives host lines (converse host meetings n lines s) ↔
      ∀ asks ∈ asked host meetings n lines,
        Resolving (meetings asks.1).wait.own.env.fs asks.2) ∧
    ((∃ outcome, (converse host meetings n lines s).outcome = .ok outcome) →
      Survives host lines (converse host meetings n lines s)) := by
  induction lines generalizing n s with
  | nil =>
    have hnil : Survives host [] (converse host meetings n [] s) :=
      ⟨⟨_, rfl⟩, h, fun hshutdown => by cases hshutdown⟩
    exact ⟨⟨fun _ _ hmem => (by cases hmem), fun _ => hnil⟩, fun _ => hnil⟩
  | cons line rest ih =>
    cases hjudge : host.judge (meetings n) line with
    | say response =>
      obtain ⟨hiff, hreturned⟩ := ih (n + 1) h
      have hconverse : converse host meetings n (line :: rest) s =
          (converse host meetings (n + 1) rest s).after response := by
        rw [converse, hjudge]
      have hasked : asked host meetings n (line :: rest) = asked host meetings (n + 1) rest := by
        rw [asked, hjudge]
      rw [hconverse, hasked]
      refine ⟨⟨fun hs => hiff.mp (hreturned hs.returned), fun hall => ?_⟩, fun hs => ?_⟩
      · exact (hiff.mpr hall).after line response
      · exact (hreturned hs).after line response
    | close outcome written =>
      have hconverse : converse host meetings n (line :: rest) s =
          { system := s, written := written, outcome := .ok outcome } := by
        rw [converse, hjudge]
      have hasked : asked host meetings n (line :: rest) = [] := by
        rw [asked, hjudge]
      have hsurvives : Survives host (line :: rest)
          { system := s, written := written, outcome := .ok outcome } := by
        refine ⟨⟨_, rfl⟩, h, fun hshutdown => ?_⟩
        cases hshutdown
        obtain ⟨text, rfl, hdecode⟩ := judge_shutdown host hjudge
        exact ⟨text, List.mem_cons_self, hdecode⟩
      rw [hconverse, hasked]
      exact ⟨⟨fun _ _ hmem => (by cases hmem), fun _ => hsurvives⟩, fun _ => hsurvives⟩
    | ask command respond =>
      have hanswerable := judge_ask host hjudge
      obtain ⟨owned, reply, hreply, hrequest, hserving⟩ := request_serving h (hclock n)
        hanswerable.not_shutdown hanswerable.client (hanswerable.reply _)
      have hpassed := hanswerable.passed _ owned reply (hclock n).own.1 hreply
      have hasked : asked host meetings n (line :: rest) =
          (n, command) :: asked host meetings (n + 1) rest := by
        rw [asked, hjudge]
      generalize hu : request s (meetings n).wait command = u at hrequest hserving
      obtain ⟨t, answered⟩ := u
      cases hrequest
      rw [hasked, List.forall_mem_cons]
      cases hrespond : respond reply with
      | error e =>
        have hconverse : converse host meetings n (line :: rest) s =
            { system := t, written := [], outcome := .error e } := by
          rw [converse, hjudge]
          simp only [hu, hrespond]
        have hnot : ¬ Resolving (meetings n).wait.own.env.fs command := by
          rw [← hpassed, hrespond]
          rintro ⟨response, hresponse⟩
          cases hresponse
        rw [hconverse]
        refine ⟨⟨fun hs => ?_, fun hall => absurd hall.1 hnot⟩, fun hs => ?_⟩
        · obtain ⟨outcome, houtcome⟩ := hs.returned
          cases houtcome
        · obtain ⟨outcome, houtcome⟩ := hs
          cases houtcome
      | ok response =>
        have hconverse : converse host meetings n (line :: rest) s =
            (converse host meetings (n + 1) rest t).after response := by
          rw [converse, hjudge]
          simp only [hu, hrespond]
        have hresolving : Resolving (meetings n).wait.own.env.fs command :=
          hpassed.mp ⟨response, hrespond⟩
        obtain ⟨hiff, hreturned⟩ := ih (n + 1) hserving
        rw [hconverse]
        refine ⟨⟨fun hs => ⟨hresolving, hiff.mp (hreturned hs.returned)⟩, fun hall => ?_⟩,
          fun hs => ?_⟩
        · exact (hiff.mpr hall.2).after line response
        · exact (hreturned hs).after line response

end Run

/-- Whatever a client sends, the daemon survives it exactly when the file
system resolves every path of a submission or of a filter that it has just
said exists. -/
theorem client_survives_iff (host : Host) (meetings : Nat → Meeting) (stream : Stream) (s : System)
    (hserving : Serving s) (hclock : ∀ n, (meetings n).wait.Readable) :
    Survives host stream.limited.lines (handleConnection host meetings stream s) ↔
      ∀ asks ∈ asked host meetings 0 stream.limited.lines,
        Resolving (meetings asks.1).wait.own.env.fs asks.2 :=
  (converse_survives hclock 0 stream.limited.lines hserving).1

section Example

def submitLine : Written where
  text := "\x7b\"cmd\":\"submit_job\",\"protocol_version\":6,\"state_schema_version\":2," ++
    "\"token\":\"t\",\"project_path\":\"/p\",\"db_path\":\"/d\",\"file_path\":\"a.py\"," ++
    "\"priority\":\"interactive\"\x7d"
  crlf := false

def exampleHost : Host where
  token := "t"
  daemonVersion := "0.1.0"
  scanner := { desired := "rust", published := none, diagnostic := none }
  decode := fun line =>
    if line = submitLine.text then some (.submitJob 6 2 "t" "/p" "/d" "a.py" .interactive) else none
  display := fun _ => ""

/-- The project is removed after it was found to be a directory. -/
def lostFs : FileSystem where
  isDir := fun _ => true
  pathExists := fun _ => true
  canonicalize := fun _ => .error "No such file or directory (os error 2)"
  canonicalizeAncestor := fun path => .ok path

def turnOn (fs : FileSystem) : Turn where
  reports := []
  env := { now := 2, dispatchNow := 3, fs := fs, spawnError := none }

def meetingOn (fs : FileSystem) : Meeting where
  wait := { idle := [], ahead := fun _ => turnOn fs, own := turnOn fs }
  opened := fun _ _ => .spawnFailed "no interpreter"
  ui := none

theorem meetingOn_readable (fs : FileSystem) : (meetingOn fs).wait.Readable :=
  have hturn : State.Readable 2 ∧ State.Readable 3 := ⟨by decide, by decide⟩
  ⟨fun _ h => (by cases h), fun _ => hturn, hturn⟩

theorem submitLine_framed : submitLine.Framed ∧ submitLine.bytes.length ≤ MAX_LINE_BYTES :=
  ⟨⟨by decide +kernel, by decide +kernel⟩, by decide +kernel⟩

theorem submitLine_lines :
    (Stream.limited { bytes := submitLine.bytes, cut := false }).lines = [some submitLine.text] := by
  have h := lines_written [submitLine] (fun line hline => by
    rw [List.mem_singleton.mp hline]
    exact submitLine_framed.1) (by rw [List.flatMap_singleton]; exact submitLine_framed.2)
  rwa [List.flatMap_singleton] at h

theorem asked_submitLine (fs : FileSystem) :
    asked exampleHost (fun _ => meetingOn fs) 0 [some submitLine.text] =
      [(0, .submit ⟨"/p", "/d", "a.py", .interactive⟩)] := by
  have hdecode : exampleHost.decode submitLine.text =
      some (.submitJob 6 2 "t" "/p" "/d" "a.py" .interactive) := by
    simp [exampleHost]
  have hjudge : exampleHost.judge (meetingOn fs) (some submitLine.text) =
      exampleHost.perform (meetingOn fs) (.submitJob 6 2 "t" "/p" "/d" "a.py" .interactive) := by
    unfold Host.judge
    simp only [hdecode]
    rfl
  rw [asked, hjudge]
  rfl

theorem start_serving : ∃ s, System.start .empty 1 1 none = .ok s ∧ Serving s := by
  have hstart : ∃ s, System.start .empty 1 1 none = .ok s ∧ s.running = true ∧ s.queue = [] :=
    ⟨_, rfl, rfl, rfl⟩
  obtain ⟨s, hs, hrunning, hqueue⟩ := hstart
  exact ⟨s, hs, .start hs, hrunning, hqueue ▸ List.not_mem_nil⟩

/-- The directory a submission names vanishes while it is looked up: the
handler returns the error, and the daemon with it. -/
theorem client_ends_daemon : ∃ s, Serving s ∧ (∀ _ : Nat, (meetingOn lostFs).wait.Readable) ∧
    ¬ Survives exampleHost (Stream.limited { bytes := submitLine.bytes, cut := false }).lines
      (handleConnection exampleHost (fun _ => meetingOn lostFs)
        { bytes := submitLine.bytes, cut := false } s) := by
  obtain ⟨s, -, hserving⟩ := start_serving
  refine ⟨s, hserving, fun _ => meetingOn_readable lostFs, fun hsurvives => ?_⟩
  have hresolving := (converse_survives (fun _ => meetingOn_readable lostFs) 0 _ hserving).1.mp
    hsurvives
  rw [submitLine_lines, asked_submitLine, List.forall_mem_singleton] at hresolving
  obtain ⟨real, hreal⟩ := hresolving.project rfl rfl
  cases hreal

/-- The same submission while the directory stays. -/
theorem client_survives_submission : ∃ s, Serving s ∧
    Survives exampleHost (Stream.limited { bytes := submitLine.bytes, cut := false }).lines
      (handleConnection exampleHost (fun _ => meetingOn exampleFs)
        { bytes := submitLine.bytes, cut := false } s) := by
  obtain ⟨s, -, hserving⟩ := start_serving
  refine ⟨s, hserving, (client_survives_iff exampleHost (fun _ => meetingOn exampleFs)
    { bytes := submitLine.bytes, cut := false } s hserving
    fun _ => meetingOn_readable exampleFs).mpr ?_⟩
  rw [submitLine_lines, asked_submitLine, List.forall_mem_singleton]
  exact ⟨fun _ _ => ⟨_, rfl⟩, fun _ _ _ existing _ _ => ⟨existing, rfl⟩⟩

end Example

end RemyCC.Server
