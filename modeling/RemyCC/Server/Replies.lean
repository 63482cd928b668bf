import RemyCC.Server.Survival
import RemyCC.Server.Wire

/-!
# Every request gets its reply

The handler goes through the lines in order and writes one response to each,
up to the request that shuts the daemon down. A response to the hook client
has one job at most, so what the row takes decides whether it fits its limit.
-/

namespace RemyCC.Server

open State Relational Scheduler

/-- A request the handler does not turn away at the door. -/
structure Accepted (host : Host) (request : Request) : Prop where
  token : request.token = host.token
  versions : versionError request.businessVersions = none

/-- The response is one to this request. -/
inductive Answers (host : Host) : Request → Response → Prop
  | hello (version : Nat) (token : String) :
      Answers host (.hello version token) (.ofHello host.daemonVersion)
  | ping (token : String) : Answers host (.ping token) .ack
  | shutdown (token : String) : Answers host (.shutdown token) .ack
  | submitted {protocol schema : Nat} {token projectPath dbPath filePath : String}
      {priority : JobPriority} (job : Job) (created : Bool) :
      Answers host (.submitJob protocol schema token projectPath dbPath filePath priority)
        (.submitted job created)
  | promoted {protocol schema : Nat} {token : String} {jobId : Int} {priority : JobPriority}
      {job : Job} (changed : Bool) (hid : job.id = jobId) :
      Answers host (.promoteJob protocol schema token jobId priority) (.promoted job changed)
  | found {protocol schema : Nat} {token : String} {jobId : Int} {job : Job}
      (hid : job.id = jobId) : Answers host (.getJob protocol schema token jobId) (.job job)
  | cancelled {protocol schema : Nat} {token : String} {jobId : Int} {job : Job}
      (changed : Bool) (hid : job.id = jobId) :
      Answers host (.cancelJob protocol schema token jobId) (.cancelled job changed)
  | listed {protocol schema : Nat} {token : String} {projectPath filePath : Option String}
      {status : Option JobStatus} {jobType : Option String} {limit : Option Nat} {jobs : List Job}
      (hlength : jobs.length ≤ Host.listLimit limit) :
      Answers host (.listJobs protocol schema token projectPath filePath status jobType limit)
        (.jobList jobs (Host.listLimit limit)
          { projectPath := projectPath, filePath := filePath, status := status, jobType := jobType })
  | status {protocol schema : Nat} {token : String} (active recent : List Job)
      (ui : Option UiStatus) :
      Answers host (.statusSnapshot protocol schema token) (.status active recent host.scanner ui)
  | configUi {protocol schema : Nat} {token mode : String} {target : Option String}
      (url uiToken : String) :
      Answers host (.openConfigUi protocol schema token mode target) (.configUi url uiToken)
  | refused {request : Request} (hbusiness : request.businessVersions ≠ none)
      (code message : String) : Answers host request (.error code message)

/-- The requests up to the first that shuts the daemon down, and that one. -/
def throughShutdown : List Request → List Request
  | [] => []
  | .shutdown token :: _ => [.shutdown token]
  | request :: rest => request :: throughShutdown rest

section Answers

variable {host : Host}

theorem relay_ok {α : Type} {result : Except StateError α} {wrap : α → Response}
    {response : Response} (h : host.relay result wrap = .ok response) :
    (∃ value, result = .ok value ∧ response = wrap value) ∨
      ∃ code message, response = .error code message := by
  unfold Host.relay at h
  cases result with
  | ok value =>
    cases h
    exact .inl ⟨value, rfl, rfl⟩
  | error e =>
    simp only at h
    split at h
    · cases h
    · cases h
      exact .inr ⟨_, _, rfl⟩

theorem length_of_mapM_eq_ok {α β : Type} {f : α → Except StateError β} {l : List α}
    {bs : List β} (h : l.mapM f = .ok bs) : bs.length = l.length := by
  induction l generalizing bs with
  | nil =>
    cases h
    rfl
  | cons a l ih =>
    rw [List.mapM_cons] at h
    cases ha : f a with
    | error e =>
      rw [ha] at h
      cases h
    | ok b =>
      cases hl : l.mapM f with
      | error e =>
        rw [ha, hl] at h
        cases h
      | ok bs' =>
        rw [ha, hl] at h
        cases h
        rw [List.length_cons, List.length_cons, ih hl]

theorem yields_trivial {α : Type} (x : Except StateError α) :
    Yields x (fun _ => True) (fun _ => True) := by
  cases x <;> trivial

theorem list_length {fs : FileSystem} {filter : ListJobs} {db : Database} {jobs : List Job}
    (h : list fs filter db = .ok jobs) : jobs.length ≤ max 1 (min filter.limit 200) := by
  have hyields : Yields (list fs filter db)
      (fun jobs => jobs.length ≤ max 1 (min filter.limit 200)) (fun _ => True) := by
    unfold list
    refine (yields_trivial _).bind fun key _ _ => ?_
    refine (yields_trivial _).bind fun filePath _ _ => ?_
    refine (yields_trivial _).bind fun jobType _ _ => ?_
    refine (yields_trivial _).mono (fun jobs hjobs _ => ?_) fun _ _ => trivial
    rw [length_of_mapM_eq_ok hjobs, List.length_take]
    exact Nat.min_le_left _ _
  exact hyields.of_eq_ok h

theorem loadJob_id {db : Database} {jobId : Int} {job : Job} (h : loadJob db jobId = .ok job) :
    job.id = jobId := by
  obtain ⟨r, -, hid, p, -, rfl⟩ := (Database.loadJob_yields jobId).of_eq_ok h
  exact hid

theorem promote_id {db db' : Database} {jobId : Int} {priority : JobPriority}
    {result : PromoteResult} (h : promote jobId priority db = .ok (db', result)) :
    result.job.id = jobId := by
  obtain ⟨r, hpromoted⟩ := promote_yields.of_eq_ok h
  obtain ⟨p, -, hjob⟩ := hpromoted.job
  rw [hjob]
  exact (promoteRow_id r).trans hpromoted.id

theorem cancel_id {db db' : Database} {now jobId : Int} {result : CancelResult}
    (h : cancel now jobId db = .ok (db', result)) : result.job.id = jobId := by
  obtain ⟨r, hcancelled⟩ := cancel_yields.of_eq_ok h
  obtain ⟨p, -, hjob⟩ := hcancelled.job
  rw [hjob]
  exact (cancelRow_id jobId r).trans hcancelled.id

theorem snd_map_eq_ok {α β : Type} {x : Except StateError (α × β)} {b : β}
    (h : Prod.snd <$> x = .ok b) : ∃ a, x = .ok (a, b) := by
  obtain ⟨⟨a, b'⟩, hx, rfl⟩ := exists_of_map_eq_ok h
  exact ⟨a, hx⟩

theorem perform_answers {meeting : Meeting} {request : Request} {command : Command}
    {respond : Reply → Except StateError Response}
    (h : host.perform meeting request = .ask command respond) {env : Surroundings} {owned : Owned}
    {reply : Reply} (hreply : replyTo env command owned = some reply) {response : Response}
    (hresponse : respond reply = .ok response) : Answers host request response := by
  have hrefused : ∀ {code message : String}, request.businessVersions ≠ none →
      response = .error code message → Answers host request response := by
    rintro code message hbusiness rfl
    exact .refused hbusiness code message
  cases request with
  | hello _ _ | ping _ | shutdown _ | openConfigUi _ _ _ _ _ => cases h
  | submitJob _ _ _ _ _ _ _ =>
    cases h
    obtain rfl := Option.some.inj ((replyTo_answer rfl).symm.trans hreply)
    rcases relay_ok hresponse with ⟨value, -, rfl⟩ | ⟨_, _, herror⟩
    · exact .submitted _ _
    · exact hrefused (by simp [Request.businessVersions]) herror
  | promoteJob _ _ _ jobId priority =>
    cases h
    obtain rfl := Option.some.inj ((replyTo_answer rfl).symm.trans hreply)
    rcases relay_ok hresponse with ⟨value, hvalue, rfl⟩ | ⟨_, _, herror⟩
    · obtain ⟨db', hpromote⟩ := snd_map_eq_ok hvalue
      exact .promoted _ (promote_id hpromote)
    · exact hrefused (by simp [Request.businessVersions]) herror
  | getJob _ _ _ jobId =>
    cases h
    cases hreply
    rcases relay_ok hresponse with ⟨value, hvalue, rfl⟩ | ⟨_, _, herror⟩
    · exact .found (loadJob_id hvalue)
    · exact hrefused (by simp [Request.businessVersions]) herror
  | cancelJob _ _ _ jobId =>
    cases h
    obtain rfl := Option.some.inj ((replyTo_cancel env jobId owned).symm.trans hreply)
    rcases relay_ok hresponse with ⟨value, hvalue, rfl⟩ | ⟨_, _, herror⟩
    · obtain ⟨db', hcancel⟩ := snd_map_eq_ok hvalue
      exact .cancelled _ (cancel_id hcancel)
    · exact hrefused (by simp [Request.businessVersions]) herror
  | listJobs _ _ _ _ _ _ _ limit =>
    cases h
    cases hreply
    rcases relay_ok hresponse with ⟨value, hvalue, rfl⟩ | ⟨_, _, herror⟩
    · refine .listed ((list_length hvalue).trans ?_)
      simp only [Host.listLimit]
      omega
    · exact hrefused (by simp [Request.businessVersions]) herror
  | statusSnapshot _ _ _ =>
    cases h
    cases hreply
    rcases relay_ok hresponse with ⟨value, -, rfl⟩ | ⟨_, _, herror⟩
    · exact .status _ _ _
    · exact hrefused (by simp [Request.businessVersions]) herror

theorem perform_say {meeting : Meeting} {request : Request} {response : Response}
    (h : host.perform meeting request = .say response) : Answers host request response := by
  cases request with
  | submitJob _ _ _ _ _ _ _ | promoteJob _ _ _ _ _ | getJob _ _ _ _ | cancelJob _ _ _ _
  | listJobs _ _ _ _ _ _ _ _ | statusSnapshot _ _ _ | shutdown _ => cases h
  | hello version token =>
    cases h
    exact .hello version token
  | ping token =>
    cases h
    exact .ping token
  | openConfigUi _ _ _ mode target =>
    cases h
    unfold openConfigUi
    split
    · split
      · exact .configUi _ _
      · exact .refused (by simp [Request.businessVersions]) _ _
      · exact .refused (by simp [Request.businessVersions]) _ _
    · exact .refused (by simp [Request.businessVersions]) _ _

theorem perform_close {meeting : Meeting} {request : Request} {outcome : ConnectionOutcome}
    {written : List Response} (h : host.perform meeting request = .close outcome written) :
    ∃ token, request = .shutdown token ∧ written = [.ack] := by
  cases request with
  | shutdown token =>
    cases h
    exact ⟨token, rfl, rfl⟩
  | _ => cases h

theorem throughShutdown_cons {request : Request} (rest : List Request)
    (h : ∀ token, request ≠ .shutdown token) :
    throughShutdown (request :: rest) = request :: throughShutdown rest := by
  cases request with
  | shutdown token => exact absurd rfl (h token)
  | _ => rfl

theorem judge_accepted {meeting : Meeting} {text : String} {request : Request}
    (hdecode : host.decode text = some request) (h : Accepted host request) :
    host.judge meeting (some text) = host.perform meeting request := by
  unfold Host.judge
  simp only [hdecode]
  rw [if_neg (not_not.mpr h.token), h.versions]

/-- One response to each request, in the order they were read. -/
theorem converse_answers {meetings : Nat → Meeting} (hclock : ∀ n, (meetings n).wait.Readable)
    (n : Nat) (sent : List (String × Request))
    (hsent : ∀ p ∈ sent, host.decode p.1 = some p.2 ∧ Accepted host p.2) {s : System}
    (h : Serving s)
    (hresolving : ∀ asks ∈ asked host meetings n (sent.map fun p => some p.1),
      Resolving (meetings asks.1).wait.own.env.fs asks.2) :
    List.Forall₂ (Answers host) (throughShutdown (sent.map Prod.snd))
      (converse host meetings n (sent.map fun p => some p.1) s).written := by
  induction sent generalizing n s with
  | nil => exact .nil
  | cons p sent ih =>
    obtain ⟨text, request⟩ := p
    obtain ⟨hdecode, haccepted⟩ := hsent _ List.mem_cons_self
    have hrest := fun p hp => hsent p (List.mem_cons_of_mem _ hp)
    have hjudge : host.judge (meetings n) (some text) = host.perform (meetings n) request :=
      judge_accepted hdecode haccepted
    rw [List.map_cons, asked] at hresolving
    rw [List.map_cons, List.map_cons, converse]
    rw [hjudge] at hresolving ⊢
    cases hperform : host.perform (meetings n) request with
    | say response =>
      have hnot : ∀ token, request ≠ .shutdown token := by
        rintro token rfl
        cases hperform
      rw [hperform] at hresolving
      rw [throughShutdown_cons _ hnot]
      exact .cons (perform_say hperform) (ih (n + 1) hrest h hresolving)
    | close outcome written =>
      obtain ⟨token, rfl, rfl⟩ := perform_close hperform
      exact .cons (.shutdown token) .nil
    | ask command respond =>
      have hnot : ∀ token, request ≠ .shutdown token := by
        rintro token rfl
        cases hperform
      have hanswerable := perform_ask host hperform
      obtain ⟨owned, reply, hreply, hrequest, hserving⟩ := request_serving h (hclock n)
        hanswerable.not_shutdown hanswerable.client (hanswerable.reply _)
      rw [hperform, List.forall_mem_cons] at hresolving
      obtain ⟨response, hresponse⟩ :=
        (hanswerable.passed _ owned reply (hclock n).own.1 hreply).mpr hresolving.1
      rw [throughShutdown_cons _ hnot]
      generalize hu : Server.request s (meetings n).wait command = u at hrequest hserving
      obtain ⟨t, answered⟩ := u
      cases hrequest
      simp only [hu, hresponse]
      exact .cons (perform_answers hperform hreply hresponse)
        (ih (n + 1) hrest hserving hresolving.2)

end Answers

/-- The requests of the hook client. -/
inductive HookRequest : Request → Prop
  | submit (protocol schema : Nat) (token projectPath dbPath filePath : String)
      (priority : JobPriority) :
      HookRequest (.submitJob protocol schema token projectPath dbPath filePath priority)
  | latestJob (protocol schema : Nat) (token projectPath filePath : String) :
      HookRequest (.listJobs protocol schema token (some projectPath) (some filePath) none
        (some "incremental_scan") (some 1))
  | promote (protocol schema : Nat) (token : String) (jobId : Int) :
      HookRequest (.promoteJob protocol schema token jobId .interactive)

def responseJobs : Response → List Job
  | .submitted job _ | .promoted job _ | .job job | .cancelled job _ => [job]
  | .jobList jobs _ _ => jobs
  | .status active recent _ _ => active ++ recent
  | .hello _ _ _ | .ack | .configUi _ _ | .error _ _ => []

/-- The payloads of the jobs are what the deserialiser made of their columns. -/
def PlainPayloads (response : Response) : Prop :=
  ∀ job ∈ responseJobs response,
    (∀ v ∈ job.result, Json.OneLine v) ∧ ∀ v ∈ job.error, Json.OneLine v

/-- What the values of the rows, the filters or the message take as JSON. -/
def rowBytes : Response → Nat
  | .jobList jobs _ filters =>
    (jobs.map fun job => Json.valuesSize (jobFields job)).sum +
      Json.valuesSize (filterFields filters)
  | .error code message => Json.size (.str code) + Json.size (.str message)
  | response => ((responseJobs response).map fun job => Json.valuesSize (jobFields job)).sum

section Sizes

open Json

theorem frameSize_eq (fields : List (String × Value)) :
    frameSize fields = ((fields.map Prod.fst).map keySize).sum := by
  rw [List.map_map]
  rfl

def jobKeys : List String :=
  ["id", "project_id", "project_path", "target_db_path", "job_type", "file_path", "priority",
    "provider", "status", "progress_current", "progress_total", "progress_message", "result",
    "error", "created_at", "started_at", "finished_at", "superseded_by_job_id"]

def filterKeys : List String := ["project_path", "file_path", "status", "job_type"]

theorem frame_sizes : (jobKeys.map keySize).sum = 257 ∧ (filterKeys.map keySize).sum = 51 ∧
    keySize "type" = 8 ∧ keySize "job" = 7 ∧ keySize "jobs" = 8 ∧ keySize "limit" = 9 ∧
    keySize "filters" = 11 ∧ keySize "code" = 8 ∧ keySize "message" = 11 ∧
    keySize "created" = 11 ∧ keySize "changed" = 11 := by
  decide +kernel

theorem constant_sizes : size (.str "submitted") = 11 ∧ size (.str "promoted") = 10 ∧
    size (.str "job_list") = 10 ∧ size (.str "error") = 7 ∧ size (.arr []) = 2 ∧
    size (.int 1) = 1 ∧ ∀ b, size (.bool b) ≤ 5 := by
  decide +kernel

theorem size_jobJson (job : Job) : size (jobJson job) = valuesSize (jobFields job) + 258 := by
  have hframe : frameSize (jobFields job) = 257 := (frameSize_eq _).trans frame_sizes.1
  unfold jobJson jobFields at *
  rw [size_obj_cons, hframe]
  omega

theorem size_filters (filters : JobFilters) :
    size (.obj (filterFields filters)) = valuesSize (filterFields filters) + 52 := by
  have hframe : frameSize (filterFields filters) = 51 := (frameSize_eq _).trans frame_sizes.2.1
  unfold filterFields at *
  rw [size_obj_cons, hframe]
  omega

/-- The tag, the job and a flag. -/
theorem size_jobAndFlag_le (tag flag : String) (job : Job) (b : Bool)
    (htag : size (.str tag) ≤ 16) (hflag : keySize flag ≤ 16) :
    size (.obj [("type", .str tag), ("job", jobJson job), (flag, .bool b)]) ≤
      valuesSize (jobFields job) + 320 := by
  obtain ⟨-, -, htype, hkey, -⟩ := frame_sizes
  obtain ⟨-, -, -, -, -, -, hbool⟩ := constant_sizes
  have hjob := size_jobJson job
  have hb := hbool b
  rw [size_obj_cons]
  simp only [frameSize, valuesSize, List.map_cons, List.map_nil, List.sum_cons, List.sum_nil, htype,
    hkey]
  simp only [valuesSize] at hjob
  omega

theorem size_jobList_le (jobs : List Job) (filters : JobFilters) (hlength : jobs.length ≤ 1) :
    size (responseJson (.jobList jobs 1 filters)) ≤ rowBytes (.jobList jobs 1 filters) + 400 := by
  obtain ⟨-, -, htype, -, hkeyJobs, hkeyLimit, hkeyFilters, -⟩ := frame_sizes
  obtain ⟨-, -, htag, -, hnil, hlimit, -⟩ := constant_sizes
  have hfilters := size_filters filters
  have hjobs : size (.arr (jobs.map jobJson)) ≤
      (jobs.map fun job => valuesSize (jobFields job)).sum + 260 := by
    have hcases : jobs = [] ∨ ∃ job, jobs = [job] := by
      rcases jobs with _ | ⟨job, _ | ⟨next, rest⟩⟩
      · exact .inl rfl
      · exact .inr ⟨job, rfl⟩
      · simp at hlength
    rcases hcases with rfl | ⟨job, rfl⟩
    · rw [List.map_nil, hnil]
      omega
    · have hjob := size_jobJson job
      rw [List.map_cons, List.map_nil, size_arr_singleton, hjob]
      simp only [List.map_cons, List.map_nil, List.sum_cons, List.sum_nil]
      omega
  rw [responseJson, size_obj_cons]
  simp only [frameSize, List.map_cons, List.map_nil, List.sum_cons, List.sum_nil, htype,
    hkeyJobs, hkeyLimit, hkeyFilters, rowBytes]
  have hvalues : valuesSize [("type", .str "job_list"), ("jobs", .arr (jobs.map jobJson)),
      ("limit", .int ((1 : Nat) : Int)), ("filters", .obj (filterFields filters))] =
      size (.str "job_list") + (size (.arr (jobs.map jobJson)) +
        (size (.int 1) + (size (.obj (filterFields filters)) + 0))) := rfl
  rw [hvalues]
  omega

theorem size_error_le (code message : String) :
    size (responseJson (.error code message)) ≤ rowBytes (.error code message) + 64 := by
  obtain ⟨-, -, htype, -, -, -, -, hcode, hmessage, -⟩ := frame_sizes
  obtain ⟨-, -, -, htag, -⟩ := constant_sizes
  rw [responseJson, size_obj_cons]
  simp only [frameSize, valuesSize, List.map_cons, List.map_nil, List.sum_cons, List.sum_nil, htype,
    hcode, hmessage, htag, rowBytes]
  omega

theorem hookResponse_size {host : Host} {request : Request} {response : Response}
    (hanswers : Answers host request response) (hhook : HookRequest request) :
    size (responseJson response) ≤ rowBytes response + 400 := by
  obtain ⟨-, -, -, -, -, -, -, -, -, hcreated, hchanged⟩ := frame_sizes
  obtain ⟨hsubmitted, hpromoted, -⟩ := constant_sizes
  cases hanswers with
  | submitted job created =>
    have hsize := size_jobAndFlag_le "submitted" "created" job created (by omega) (by omega)
    simp only [responseJson, rowBytes, responseJobs, List.map_cons, List.map_nil, List.sum_cons,
      List.sum_nil]
    omega
  | @promoted _ _ _ _ _ job changed _ =>
    have hsize := size_jobAndFlag_le "promoted" "changed" job changed (by omega) (by omega)
    simp only [responseJson, rowBytes, responseJobs, List.map_cons, List.map_nil, List.sum_cons,
      List.sum_nil]
    omega
  | listed hlength =>
    cases hhook
    exact size_jobList_le _ _ hlength
  | refused _ code message => exact (size_error_le code message).trans (by omega)
  | hello | ping | shutdown | found | cancelled | status | configUi => cases hhook

theorem oneLine_optional {α : Type} {toJson : α → Value} {o : Option α}
    (h : ∀ a ∈ o, OneLine (toJson a)) : OneLine (optional toJson o) := by
  cases o with
  | none => exact .null
  | some a => exact h a rfl

theorem oneLine_jobJson {job : Job} (hresult : ∀ v ∈ job.result, OneLine v)
    (herror : ∀ v ∈ job.error, OneLine v) : OneLine (jobJson job) := by
  have hint : ∀ o : Option Int, OneLine (optional .int o) :=
    fun o => oneLine_optional fun n _ => .int n
  have hstr : ∀ o : Option String, OneLine (optional .str o) :=
    fun o => oneLine_optional fun s _ => .str s
  refine .obj ?_
  simp only [jobFields, List.forall_mem_cons, List.not_mem_nil, false_implies, implies_true,
      and_true]
  exact ⟨.int _, .int _, .str _, .str _, .str _, .str _, .str _, .str _, .str _, hint _, hint _,
    hstr _, oneLine_optional hresult, oneLine_optional herror, .int _, hint _, hint _, hint _⟩

theorem hookResponse_oneLine {host : Host} {request : Request} {response : Response}
    (hanswers : Answers host request response) (hhook : HookRequest request)
    (hplain : PlainPayloads response) : OneLine (responseJson response) := by
  have hjob : ∀ job ∈ responseJobs response, OneLine (jobJson job) :=
    fun job hmem => oneLine_jobJson (hplain job hmem).1 (hplain job hmem).2
  have hstr : ∀ o : Option String, OneLine (optional .str o) :=
    fun o => oneLine_optional fun s _ => .str s
  cases hanswers with
  | submitted job created =>
    refine .obj ?_
    simp only [List.forall_mem_cons, List.not_mem_nil, false_implies, implies_true,
      and_true]
    exact ⟨.str _, hjob job List.mem_cons_self, .bool _⟩
  | @promoted _ _ _ _ _ job changed _ =>
    refine .obj ?_
    simp only [List.forall_mem_cons, List.not_mem_nil, false_implies, implies_true,
      and_true]
    exact ⟨.str _, hjob job List.mem_cons_self, .bool _⟩
  | @listed _ _ _ _ _ _ _ _ jobs _ =>
    refine .obj ?_
    simp only [List.forall_mem_cons, List.not_mem_nil, false_implies, implies_true,
      and_true]
    refine ⟨.str _, .arr ?_, .int _, .obj ?_⟩
    · intro v hv
      obtain ⟨job, hmem, rfl⟩ := List.mem_map.mp hv
      exact hjob job hmem
    · simp only [filterFields, List.forall_mem_cons, List.not_mem_nil, false_implies, implies_true,
      and_true]
      exact ⟨hstr _, hstr _, oneLine_optional fun _ _ => .str _, hstr _⟩
  | refused _ code message =>
    refine .obj ?_
    simp only [List.forall_mem_cons, List.not_mem_nil, false_implies, implies_true,
      and_true]
    exact ⟨.str _, .str _, .str _⟩
  | hello | ping | shutdown | found | cancelled | status | configUi => cases hhook

theorem length_printed (v : Value) : (bytesOf (print v)).length = size v :=
  length_bytesOf_ofList _

theorem feed_not_mem_printed {v : Value} (h : OneLine v) : lineFeed ∉ bytesOf (print v) := by
  rw [print, bytesOf_ofList]
  intro hmem
  obtain ⟨c, hc, hfeed⟩ := List.mem_flatMap.mp hmem
  rw [feed_mem_utf8EncodeChar hfeed] at hc
  exact feed_not_mem_print h hc

/-- A response to the hook client is read whole as long as the values in it
leave the frame its room. -/
theorem hookRead_response {host : Host} {request : Request} {response : Response}
    (hanswers : Answers host request response) (hhook : HookRequest request)
    (hplain : PlainPayloads response) (hrow : rowBytes response ≤ MAX_LINE_BYTES - 512)
    (later : List UInt8) : hookRead (lineOf response ++ later) = .ok (lineOf response) := by
  have hsize := hookResponse_size hanswers hhook
  have hfeed := feed_not_mem_printed (hookResponse_oneLine hanswers hhook hplain)
  have hlength := length_printed (responseJson response)
  unfold lineOf
  rw [List.append_assoc, List.singleton_append]
  refine hookRead_line later hfeed ?_
  rw [hlength]
  unfold MAX_LINE_BYTES at *
  omega

end Sizes

/-- On a connection within the limit every request gets its reply, in order,
up to a shutdown; and the hook client reads a reply whose values leave half a
KiB of its limit. -/
theorem requests_answered (host : Host) (meetings : Nat → Meeting) (s : System)
    (sent : List (Written × Request)) (hserving : Serving s)
    (hclock : ∀ n, (meetings n).wait.Readable)
    (hsent : ∀ p ∈ sent, p.1.Framed ∧ host.decode p.1.text = some p.2 ∧ Accepted host p.2)
    (hlimit : ((sent.map Prod.fst).flatMap Written.bytes).length ≤ MAX_LINE_BYTES)
    (hresolving : ∀ asks ∈ asked host meetings 0 (sent.map fun p => some p.1.text),
      Resolving (meetings asks.1).wait.own.env.fs asks.2) :
    List.Forall₂
      (fun request response => Answers host request response ∧
        (HookRequest request → PlainPayloads response → rowBytes response ≤ MAX_LINE_BYTES - 512 →
          ∀ later, hookRead (lineOf response ++ later) = .ok (lineOf response)))
      (throughShutdown (sent.map Prod.snd))
      (handleConnection host meetings
        { bytes := (sent.map Prod.fst).flatMap Written.bytes, cut := false } s).written := by
  have hlines := lines_written (sent.map Prod.fst) (fun line hline => by
    obtain ⟨p, hp, rfl⟩ := List.mem_map.mp hline
    exact (hsent p hp).1) hlimit
  have hanswers := converse_answers hclock 0 (sent.map fun p => (p.1.text, p.2)) (fun q hq => by
    obtain ⟨p, hp, rfl⟩ := List.mem_map.mp hq
    exact (hsent p hp).2) hserving (by rwa [List.map_map])
  unfold handleConnection
  rw [hlines]
  simp only [List.map_map] at hanswers ⊢
  exact hanswers.imp fun request response h =>
    ⟨h, fun hhook hplain hrow later => hookRead_response h hhook hplain hrow later⟩

theorem submission_answered : ∃ s, Serving s ∧
    List.Forall₂
      (fun request response => Answers exampleHost request response ∧
        (HookRequest request → PlainPayloads response → rowBytes response ≤ MAX_LINE_BYTES - 512 →
          ∀ later, hookRead (lineOf response ++ later) = .ok (lineOf response)))
      [.submitJob 6 2 "t" "/p" "/d" "a.py" .interactive]
      (handleConnection exampleHost (fun _ => meetingOn exampleFs)
        { bytes := submitLine.bytes, cut := false } s).written := by
  obtain ⟨s, -, hserving⟩ := start_serving
  have hdecode : exampleHost.decode submitLine.text =
      some (.submitJob 6 2 "t" "/p" "/d" "a.py" .interactive) := by
    simp [exampleHost]
  have hbytes : [submitLine].flatMap Written.bytes = submitLine.bytes := List.flatMap_singleton _ _
  have h := requests_answered exampleHost (fun _ => meetingOn exampleFs) s
    [(submitLine, .submitJob 6 2 "t" "/p" "/d" "a.py" .interactive)] hserving
    (fun _ => meetingOn_readable exampleFs)
    (fun p hp => by
      rw [List.mem_singleton.mp hp]
      exact ⟨submitLine_framed.1, hdecode, rfl, rfl⟩)
    (by simpa using submitLine_framed.2)
    (fun asks hasks => by
      rw [List.map_cons, List.map_nil, asked_submitLine, List.mem_singleton] at hasks
      rw [hasks]
      exact ⟨fun _ _ => ⟨_, rfl⟩, fun _ _ _ existing _ _ => ⟨existing, rfl⟩⟩)
  simp only [List.map_cons, List.map_nil, hbytes] at h
  exact ⟨s, hserving, h⟩

section Limits

def pingText : String := "\x7b\"cmd\":\"ping\",\"token\":\"t\"\x7d"

/-- A ping after `n` blanks. -/
def paddedPing (n : Nat) : Written where
  text := String.ofList (List.replicate n ' ') ++ pingText
  crlf := false

def shutdownLine : Written where
  text := "\x7b\"cmd\":\"shutdown\",\"token\":\"t\"\x7d"
  crlf := false

/-- A host that knows the two lines of the examples. -/
def pingHost (n : Nat) : Host where
  token := "t"
  daemonVersion := "0.1.0"
  scanner := { desired := "rust", published := none, diagnostic := none }
  decode := fun line =>
    if line = (paddedPing n).text ∨ line = pingText then some (.ping "t")
    else if line = shutdownLine.text then some (.shutdown "t")
    else none
  display := fun _ => ""

theorem bytesOf_append (s t : String) : bytesOf (s ++ t) = bytesOf s ++ bytesOf t := by
  simp [bytesOf]

theorem bytesOf_blanks (n : Nat) :
    bytesOf (String.ofList (List.replicate n ' ')) = List.replicate n 32 := by
  rw [bytesOf_ofList]
  induction n with
  | zero => rfl
  | succ n ih =>
    rw [List.replicate_succ, List.flatMap_cons, ih]
    rfl

theorem paddedPing_bytes (n : Nat) :
    bytesOf (paddedPing n).text = List.replicate n 32 ++ bytesOf pingText := by
  rw [paddedPing, bytesOf_append, bytesOf_blanks]

theorem pingText_bytes : lineFeed ∉ bytesOf pingText ∧
    (bytesOf pingText).getLast? = some 125 ∧ (bytesOf pingText).length = 26 := by
  decide +kernel

theorem paddedPing_framed (n : Nat) : (paddedPing n).Framed := by
  obtain ⟨hfeed, hlast, -⟩ := pingText_bytes
  refine ⟨?_, ?_⟩
  · rw [paddedPing_bytes, List.mem_append, not_or]
    exact ⟨fun h => absurd (List.eq_of_mem_replicate h) (by decide), hfeed⟩
  · rw [paddedPing_bytes, List.getLast?_append, hlast, Option.some_or]
    decide

theorem paddedPing_length (n : Nat) : (paddedPing n).bytes.length = n + 27 := by
  obtain ⟨-, -, hping⟩ := pingText_bytes
  rw [Written.bytes, Written.body, paddedPing_bytes]
  simp [paddedPing, hping]

theorem shutdownLine_framed : shutdownLine.Framed ∧
    ([shutdownLine, paddedPing 0].flatMap Written.bytes).length ≤ MAX_LINE_BYTES ∧
      (pingHost 0).decode shutdownLine.text = some (.shutdown "t") :=
  ⟨⟨by decide +kernel, by decide +kernel⟩, by decide +kernel, by decide +kernel⟩

theorem ping_alone {n : Nat} {text : String}
    (hdecode : (pingHost n).decode text = some (.ping "t")) (s : System) :
    (converse (pingHost n) (fun _ => meetingOn exampleFs) 0 [some text] s).written = [.ack] := by
  rw [converse, judge_accepted hdecode ⟨rfl, rfl⟩]
  rfl

theorem shutdown_first {n : Nat} {text : String}
    (hdecode : (pingHost n).decode text = some (.shutdown "t")) (rest : List (Option String))
    (s : System) :
    (converse (pingHost n) (fun _ => meetingOn exampleFs) 0 (some text :: rest) s).written =
      [.ack] := by
  rw [converse, judge_accepted hdecode ⟨rfl, rfl⟩]
  rfl

/-- The row of a job whose worker failed with this error. -/
def failedRun (error : Json.Value) : List Call :=
  [submitCall 1 "a.py", ⟨2, .claimNextPending "rust"⟩, ⟨3, .completeFailure 1 error⟩]

def latestFilter : ListJobs where
  projectPath := some "/p"
  filePath := some "a.py"
  status := none
  jobType := some "incremental_scan"
  limit := 1

def latestFilters : JobFilters where
  projectPath := some "/p"
  filePath := some "a.py"
  status := none
  jobType := some "incremental_scan"

theorem le_size_str (n : Nat) :
    n ≤ Json.size (.str (String.ofList (List.replicate n 'a'))) := by
  have hchars : ∀ n, String.utf8Len ((List.replicate n 'a').flatMap Json.escapeChar) = n := by
    intro n
    induction n with
    | zero => rfl
    | succ n ih =>
      rw [List.replicate_succ, List.flatMap_cons, String.utf8Len_append, ih]
      have hone : String.utf8Len (Json.escapeChar 'a') = 1 := by decide
      omega
  unfold Json.size
  simp only [Json.printChars, Json.quote, String.toList_ofList, Json.compact_escape,
    String.utf8Len_cons, String.utf8Len_append, hchars]
  omega

/-- A shutdown is the last request answered; a second line is lost once the
first has used up the limit of one line; and a reply that carries the error of
a job can be longer than the hook client reads. -/
theorem requests_unanswered :
    (∃ s, Serving s ∧
      (handleConnection (pingHost 0) (fun _ => meetingOn exampleFs)
        { bytes := [shutdownLine, paddedPing 0].flatMap Written.bytes, cut := false } s).written =
          [.ack]) ∧
    (∃ n s, Serving s ∧ (paddedPing n).bytes.length ≤ MAX_LINE_BYTES ∧
      (handleConnection (pingHost n) (fun _ => meetingOn exampleFs)
        { bytes := [paddedPing n, paddedPing 0].flatMap Written.bytes, cut := false } s).written =
          [.ack]) ∧
    ∃ s job, Serving s ∧
      replyTo (turnOn exampleFs).env (.list latestFilter) s.owned = some (.list (.ok [job])) ∧
      hookRead (lineOf (.jobList [job] 1 latestFilters)) =
        .error ⟨"response_size", "daemon response exceeds line limit"⟩ := by
  obtain ⟨s, -, hserving⟩ := start_serving
  refine ⟨⟨s, hserving, ?_⟩, ?_, ?_⟩
  · have hlines := lines_written [shutdownLine, paddedPing 0] (by
      simp only [List.forall_mem_cons, List.not_mem_nil, false_implies, implies_true, and_true]
      exact ⟨shutdownLine_framed.1, paddedPing_framed 0⟩) shutdownLine_framed.2.1
    have hdecode := shutdownLine_framed.2.2
    unfold handleConnection
    rw [hlines]
    exact shutdown_first hdecode _ s
  · obtain ⟨n, hn⟩ : ∃ n, n + 27 = MAX_LINE_BYTES := ⟨65509, rfl⟩
    have hlength : (paddedPing n).bytes.length = MAX_LINE_BYTES := (paddedPing_length n).trans hn
    refine ⟨n, s, hserving, hlength.le, ?_⟩
    have hlines : (Stream.limited
        { bytes := [paddedPing n, paddedPing 0].flatMap Written.bytes, cut := false }).lines =
          [paddedPing n].map fun line => some line.text := by
      have hone := lines_written [paddedPing n] (by
        simp only [List.forall_mem_cons, List.not_mem_nil, false_implies, implies_true, and_true]
        exact paddedPing_framed n) (by simp [hlength])
      rw [← hone]
      unfold Stream.limited
      simp only [List.flatMap_cons, List.flatMap_nil, List.append_nil, Bool.false_and]
      rw [List.take_left' hlength, List.take_of_length_le hlength.le]
    have hdecode : (pingHost n).decode (paddedPing n).text = some (.ping "t") := by
      simp [pingHost]
    unfold handleConnection
    rw [hlines]
    exact ping_alone hdecode s
  · have hfailed : ∀ error : Json.Value, ∃ s job,
        System.start (run step .empty (failedRun error)) 4 5 none = .ok s ∧ s.running = true ∧
          s.queue = [] ∧ list exampleFs latestFilter s.owned.store = .ok [job] ∧
          job.error = some error ∧ job.result = none :=
      fun error => ⟨_, _, rfl, rfl, rfl, rfl, rfl, rfl⟩
    obtain ⟨n, hn⟩ : ∃ n, MAX_LINE_BYTES < n := ⟨MAX_LINE_BYTES + 1, Nat.lt_succ_self _⟩
    obtain ⟨t, job, ht, hrunning, hqueue, hlist, herror, hresult⟩ :=
      hfailed (.str (String.ofList (List.replicate n 'a')))
    refine ⟨t, job, ⟨.start ht, hrunning, hqueue ▸ List.not_mem_nil⟩, ?_, ?_⟩
    · unfold replyTo handle
      simp only [turnOn, hlist]
    · have hanswers : Answers exampleHost (.listJobs 6 2 "t" (some "/p") (some "a.py") none
          (some "incremental_scan") (some 1)) (.jobList [job] 1 latestFilters) :=
        .listed (Nat.le_refl 1)
      have hplain : PlainPayloads (.jobList [job] 1 latestFilters) := by
        intro j hj
        rw [List.mem_singleton.mp hj, herror, hresult]
        exact ⟨nofun, fun v hv => Option.mem_some_iff.mp hv ▸ .str _⟩
      have hfeed := feed_not_mem_printed
        (hookResponse_oneLine hanswers (.latestJob 6 2 "t" "/p" "a.py") hplain)
      have hlong : n ≤ Json.size (responseJson (.jobList [job] 1 latestFilters)) :=
        calc n ≤ Json.size (.str (String.ofList (List.replicate n 'a'))) := le_size_str n
          _ = Json.size (optional id job.error) := by rw [herror]; rfl
          _ ≤ Json.size (jobJson job) :=
            Json.size_le_of_mem "error" (by simp [jobFields])
          _ ≤ Json.size (.arr [jobJson job]) := by rw [Json.size_arr_singleton]; omega
          _ ≤ _ := Json.size_le_of_mem "jobs" (by simp)
      rw [← length_printed] at hlong
      exact hookRead_long [] hfeed (hn.trans_le hlong)

end Limits

end RemyCC.Server
