import RemyCC.State.Store

/-!
# The requests and responses of the daemon

One request and one response is a line of JSON. Decoding a request is left to
the derived deserialiser; what each request carries is kept whole.
-/

namespace RemyCC.Server

open State

def PROTOCOL_VERSION : Nat := 6

def MAX_LINE_BYTES : Nat := 65536

def STATE_SCHEMA_VERSION : Nat := 2

inductive Request where
  | hello (protocolVersion : Nat) (token : String)
  | ping (token : String)
  | shutdown (token : String)
  | submitJob (protocolVersion stateSchemaVersion : Nat)
      (token projectPath dbPath filePath : String) (priority : JobPriority)
  | promoteJob (protocolVersion stateSchemaVersion : Nat) (token : String) (jobId : Int)
      (priority : JobPriority)
  | getJob (protocolVersion stateSchemaVersion : Nat) (token : String) (jobId : Int)
  | cancelJob (protocolVersion stateSchemaVersion : Nat) (token : String) (jobId : Int)
  | listJobs (protocolVersion stateSchemaVersion : Nat) (token : String)
      (projectPath filePath : Option String) (status : Option JobStatus)
      (jobType : Option String) (limit : Option Nat)
  | statusSnapshot (protocolVersion stateSchemaVersion : Nat) (token : String)
  | openConfigUi (protocolVersion stateSchemaVersion : Nat) (token mode : String)
      (target : Option String)
  deriving DecidableEq, Repr

namespace Request

def token : Request → String
  | hello _ token | ping token | shutdown token | submitJob _ _ token _ _ _ _
  | promoteJob _ _ token _ _ | getJob _ _ token _ | cancelJob _ _ token _
  | listJobs _ _ token _ _ _ _ _ | statusSnapshot _ _ token | openConfigUi _ _ token _ _ => token

def businessVersions : Request → Option (Nat × Nat)
  | submitJob protocol schema _ _ _ _ _ | promoteJob protocol schema _ _ _
  | getJob protocol schema _ _ | cancelJob protocol schema _ _
  | listJobs protocol schema _ _ _ _ _ _ | statusSnapshot protocol schema _
  | openConfigUi protocol schema _ _ _ => some (protocol, schema)
  | hello _ _ | ping _ | shutdown _ => none

end Request

structure JobFilters where
  projectPath : Option String
  filePath : Option String
  status : Option JobStatus
  jobType : Option String

structure ScannerStatus where
  desired : String
  published : Option PublishedProvider
  diagnostic : Option String

structure UiStatus where
  pid : Nat
  port : Nat
  mode : String
  target : Option String

inductive Response where
  | hello (protocolVersion stateSchemaVersion : Nat) (daemonVersion : String)
  | ack
  | submitted (job : Job) (created : Bool)
  | promoted (job : Job) (changed : Bool)
  | job (job : Job)
  | cancelled (job : Job) (changed : Bool)
  | jobList (jobs : List Job) (limit : Nat) (filters : JobFilters)
  | status (activeJobs recentErrors : List Job) (scanner : ScannerStatus) (ui : Option UiStatus)
  | configUi (url token : String)
  | error (code message : String)

def Response.ofHello (daemonVersion : String) : Response :=
  .hello PROTOCOL_VERSION STATE_SCHEMA_VERSION daemonVersion

def statusName : JobStatus → String
  | .pending => "pending"
  | .running => "running"
  | .cancelRequested => "cancel_requested"
  | .succeeded => "succeeded"
  | .failed => "failed"
  | .cancelled => "cancelled"
  | .superseded => "superseded"

/-- `StateError::is_fatal`; the failures of SQLite that a healthy state
database can report are constraint violations, and none of them is fatal. -/
def isFatal : StateError → Bool
  | .corrupt _ | .io _ => true
  | .sqlite _ | .invalidInput _ | .notFound _ | .notCancellable _ | .invalidTransition _ _ => false

/-- The text of a state error; that of a failure of SQLite is `sqlite`. -/
def errorText (sqlite : SqliteError → String) : StateError → String
  | .sqlite error => "state database error: " ++ sqlite error
  | .io error => "state file error: " ++ error
  | .invalidInput message => "invalid state input: " ++ message
  | .notFound id => "job " ++ toString id ++ " not found"
  | .notCancellable status => "job in state " ++ statusName status ++ " is not cancellable"
  | .invalidTransition source target =>
    "invalid job transition: " ++ statusName source ++ " -> " ++ statusName target
  | .corrupt message => "state database is corrupt: " ++ message

def errorCode : StateError → String
  | .invalidInput _ => "invalid_request"
  | .notFound _ => "not_found"
  | .notCancellable _ => "not_cancellable"
  | .invalidTransition _ _ => "invalid_transition"
  | .sqlite _ | .io _ | .corrupt _ => "storage_error"

def stateErrorResponse (sqlite : SqliteError → String) (error : StateError) : Response :=
  .error (errorCode error) (errorText sqlite error)

end RemyCC.Server
