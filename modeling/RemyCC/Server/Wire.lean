import RemyCC.Json.Layout
import RemyCC.Server.Framing

/-!
# A response as a line, and the client that reads it

The handler writes a response as one line of JSON. The hook client reads at
most one byte more than its own limit and refuses what does not end there.
-/

namespace RemyCC.Server

open State String

def priorityName : JobPriority → String
  | .background => "background"
  | .interactive => "interactive"

def jobTypeName : JobType → String
  | .incrementalScan => "incremental_scan"
  | .fullScan => "full_scan"

section Json

open Json (Value)

def optional {α : Type} (toJson : α → Value) : Option α → Value
  | none => .null
  | some a => toJson a

def jobFields (job : Job) : List (String × Value) :=
  [("id", .int job.id), ("project_id", .int job.projectId),
    ("project_path", .str job.projectPath), ("target_db_path", .str job.targetDbPath),
    ("job_type", .str (jobTypeName job.jobType)), ("file_path", .str job.filePath),
    ("priority", .str (priorityName job.priority)), ("provider", .str job.provider),
    ("status", .str (statusName job.status)),
    ("progress_current", optional .int job.progressCurrent),
    ("progress_total", optional .int job.progressTotal),
    ("progress_message", optional .str job.progressMessage),
    ("result", optional id job.result), ("error", optional id job.error),
    ("created_at", .int job.createdAt), ("started_at", optional .int job.startedAt),
    ("finished_at", optional .int job.finishedAt),
    ("superseded_by_job_id", optional .int job.supersededByJobId)]

def jobJson (job : Job) : Value := .obj (jobFields job)

def filterFields (filters : JobFilters) : List (String × Value) :=
  [("project_path", optional .str filters.projectPath),
    ("file_path", optional .str filters.filePath),
    ("status", optional (fun status => .str (statusName status)) filters.status),
    ("job_type", optional .str filters.jobType)]

def providerJson (p : PublishedProvider) : Value :=
  .obj [("provider", .str p.provider), ("daemon_version", .str p.daemonVersion),
    ("verified_at", .int p.verifiedAt), ("probe_summary", .str p.probeSummary)]

def scannerJson (scanner : ScannerStatus) : Value :=
  .obj [("desired", .str scanner.desired), ("published", optional providerJson scanner.published),
    ("diagnostic", optional .str scanner.diagnostic)]

def uiJson (ui : UiStatus) : Value :=
  .obj [("pid", .int ui.pid), ("port", .int ui.port), ("mode", .str ui.mode),
    ("target", optional .str ui.target)]

/-- The derived serialiser: the tag of the variant comes first. -/
def responseJson : Response → Value
  | .hello protocol schema version =>
    .obj [("type", .str "hello"), ("protocol_version", .int protocol),
      ("state_schema_version", .int schema), ("daemon_version", .str version)]
  | .ack => .obj [("type", .str "ack")]
  | .submitted job created =>
    .obj [("type", .str "submitted"), ("job", jobJson job), ("created", .bool created)]
  | .promoted job changed =>
    .obj [("type", .str "promoted"), ("job", jobJson job), ("changed", .bool changed)]
  | .job job => .obj [("type", .str "job"), ("job", jobJson job)]
  | .cancelled job changed =>
    .obj [("type", .str "cancelled"), ("job", jobJson job), ("changed", .bool changed)]
  | .jobList jobs limit filters =>
    .obj [("type", .str "job_list"), ("jobs", .arr (jobs.map jobJson)), ("limit", .int limit),
      ("filters", .obj (filterFields filters))]
  | .status active recent scanner ui =>
    .obj [("type", .str "status"), ("active_jobs", .arr (active.map jobJson)),
      ("recent_errors", .arr (recent.map jobJson)), ("scanner", scannerJson scanner),
      ("ui", optional uiJson ui)]
  | .configUi url token =>
    .obj [("type", .str "config_ui"), ("url", .str url), ("token", .str token)]
  | .error code message =>
    .obj [("type", .str "error"), ("code", .str code), ("message", .str message)]

end Json

/-- What `write_response` puts on the wire. -/
def lineOf (response : Response) : List UInt8 :=
  bytesOf (Json.print (responseJson response)) ++ [lineFeed]

/-- `read_until` the line feed. -/
def readUntilFeed : List UInt8 → List UInt8
  | [] => []
  | b :: rest => if b = lineFeed then [b] else b :: readUntilFeed rest

structure ClientError where
  code : String
  message : String
  deriving DecidableEq, Repr

/-- The reading half of the hook client's `request`, on what the daemon sent. -/
def hookRead (received : List UInt8) : Except ClientError (List UInt8) :=
  let line := readUntilFeed (received.take (MAX_LINE_BYTES + 1))
  if line.length = 0 then .error ⟨"eof", "daemon closed without a response"⟩
  else if MAX_LINE_BYTES < line.length ∨ line.getLast? ≠ some lineFeed then
    .error ⟨"response_size", "daemon response exceeds line limit"⟩
  else .ok line

section Bytes

theorem bytesOf_ofList (l : List Char) : bytesOf (String.ofList l) = l.flatMap utf8EncodeChar := by
  simp [bytesOf, List.utf8Encode]

theorem length_bytesOf_ofList (l : List Char) : (bytesOf (String.ofList l)).length = utf8Len l := by
  rw [bytesOf_ofList]
  induction l with
  | nil => rfl
  | cons c l ih => simp [ih, Nat.add_comm]

theorem feed_mem_utf8EncodeChar {c : Char} (h : lineFeed ∈ utf8EncodeChar c) : c = '\n' := by
  have hbyte : ∀ {n : Nat}, lineFeed = UInt8.ofNat n → n < 256 → n = 10 := by
    intro n hn hlt
    have htoNat := congrArg UInt8.toNat hn
    rw [UInt8.toNat_ofNat', Nat.mod_eq_of_lt hlt] at htoNat
    exact htoNat.symm
  have hmax : c.val.toNat < 0x110000 := by
    rcases c.valid with h | h <;> omega
  unfold utf8EncodeChar at h
  simp only at h
  split at h
  · rename_i hascii
    have hval := hbyte (List.mem_singleton.mp h) (by omega)
    exact Char.ext (UInt32.toNat_inj.mp hval)
  · -- Every byte of a longer encoding is above the ASCII range.
    have hnot : ∀ {n : Nat}, lineFeed = UInt8.ofNat n → 128 ≤ n → n < 256 → False := by
      intro n hn hlow hhigh
      have := hbyte hn hhigh
      omega
    exfalso
    split at h
    · simp only [List.mem_cons, List.not_mem_nil, or_false] at h
      rcases h with h | h <;> exact hnot h (by omega) (by omega)
    · split at h
      · simp only [List.mem_cons, List.not_mem_nil, or_false] at h
        rcases h with h | h | h <;> exact hnot h (by omega) (by omega)
      · simp only [List.mem_cons, List.not_mem_nil, or_false] at h
        rcases h with h | h | h | h <;> exact hnot h (by omega) (by omega)

theorem readUntilFeed_append (line rest : List UInt8) (h : lineFeed ∉ line) :
    readUntilFeed (line ++ lineFeed :: rest) = line ++ [lineFeed] := by
  induction line with
  | nil => simp [readUntilFeed]
  | cons b line ih =>
    simp only [List.mem_cons, not_or] at h
    rw [List.cons_append, readUntilFeed, if_neg (Ne.symm h.1), ih h.2, List.cons_append]

theorem readUntilFeed_absent (line : List UInt8) (h : lineFeed ∉ line) :
    readUntilFeed line = line := by
  induction line with
  | nil => rfl
  | cons b line ih =>
    simp only [List.mem_cons, not_or] at h
    rw [readUntilFeed, if_neg (Ne.symm h.1), ih h.2]

/-- A line is taken whole, whatever follows it, exactly when it is in the limit. -/
theorem hookRead_line {line : List UInt8} (later : List UInt8) (h : lineFeed ∉ line)
    (hlimit : line.length < MAX_LINE_BYTES) :
    hookRead (line ++ lineFeed :: later) = .ok (line ++ [lineFeed]) := by
  have htake : (line ++ lineFeed :: later).take (MAX_LINE_BYTES + 1) =
      line ++ lineFeed :: later.take (MAX_LINE_BYTES - line.length) := by
    rw [List.take_append, List.take_of_length_le (by omega),
      show MAX_LINE_BYTES + 1 - line.length = MAX_LINE_BYTES - line.length + 1 by omega,
      List.take_succ_cons]
  unfold hookRead
  simp only [htake, readUntilFeed_append _ _ h]
  rw [if_neg (by simp), if_neg (by simp; omega)]

theorem hookRead_long {line : List UInt8} (later : List UInt8) (h : lineFeed ∉ line)
    (hlimit : MAX_LINE_BYTES < line.length) :
    hookRead (line ++ lineFeed :: later) =
      .error ⟨"response_size", "daemon response exceeds line limit"⟩ := by
  have htake : (line ++ lineFeed :: later).take (MAX_LINE_BYTES + 1) =
      line.take (MAX_LINE_BYTES + 1) := List.take_append_of_le_length hlimit
  have hnot : lineFeed ∉ line.take (MAX_LINE_BYTES + 1) := fun hmem => h (List.mem_of_mem_take hmem)
  have hlength : (line.take (MAX_LINE_BYTES + 1)).length = MAX_LINE_BYTES + 1 := by
    rw [List.length_take]
    omega
  unfold hookRead
  simp only [htake, readUntilFeed_absent _ hnot, hlength]
  rw [if_neg (by omega), if_pos (by simp)]

end Bytes

end RemyCC.Server
