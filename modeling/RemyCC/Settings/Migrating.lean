import RemyCC.Settings.Document

/-!
# Moving the settings of old into the configuration

A run reads `settings.json`, then the configuration, saves what is missing
there, keeps the old file under another name and takes the old variables out.
Each access to a file is a step; between two of them another process may save
the configuration, and the run may come to an end.
-/

namespace RemyCC.Settings

open Json Json.Value Python

section Legacy

def stripped (raw : String) : String :=
  let chars := raw.toList.dropWhile fun c => isSpace c.toNat
  String.ofList (chars.reverse.dropWhile fun c => isSpace c.toNat).reverse

/-- The value of an old variable, where the field it is for takes it. -/
def acceptLegacy (project : Bool) (env : Members) (pair : String × String) : Option String := do
  let raw ← (field env pair.1).bind asStr
  let spec ← fieldSpec pair.2
  if project ∧ spec.projectAllowed = false then none
  else if spec.isSecret ∧ stripped raw ∈ invalidSecretValues then none
  else match coerce spec raw with
    | .ok _ => some raw
    | .error _ => none

def legacyStep (project : Bool) (env : Members) (migrated : List (String × String))
    (pair : String × String) : List (String × String) :=
  if pair.2 ∈ migrated.map Prod.fst then migrated
  else match acceptLegacy project env pair with
    | some raw => migrated ++ [(pair.2, raw)]
    | none => migrated

/-- `legacy_values_from_settings`. -/
def legacyValues (project : Bool) (settings : Members) : List (String × String) :=
  match field settings "env" with
  | some (.obj env) => oldToNew.foldl (legacyStep project env) []
  | _ => []

/-- The settings without the old variables; none if there is none of them. -/
def withoutLegacy (settings : Members) : Option Members :=
  match field settings "env" with
  | some (.obj env) =>
    if env.any (·.1 ∈ legacyKeys) then
      let rest := env.filter (·.1 ∉ legacyKeys)
      some (if rest.isEmpty then pop "env" settings else setField "env" (.obj rest) settings)
    else none
  | _ => none

end Legacy

section Machine

structure Files where
  settings : File
  config : File
  backup : File

/-- What a run has read: the settings, and the values of the configuration as they were then. -/
structure Job where
  project : Bool
  settings : Members
  existing : Members

def Job.missing (job : Job) : List (String × String) :=
  (legacyValues job.project job.settings).filter fun m => (field job.existing m.1).isNone

/-- Where a run of `migrate_settings_file` stands. -/
inductive Phase where
  | idle
  | loaded (project : Bool) (settings : Members)
  | judged (job : Job)
  | saving (job : Job)
  | checking (job : Job)
  | deciding (job : Job)
  | copying (job : Job)
  | rewriting (job : Job) (fresh : Bool)

structure System where
  files : Files
  phase : Phase

namespace System

def start (project : Bool) (s : System) : System :=
  match s.phase, s.files.settings with
  | .idle, some (.json (.obj settings)) => { s with phase := .loaded project settings }
  | _, _ => s

/-- One access to a file; an error ends the run. -/
def advance (s : System) : System :=
  match s.phase with
  | .idle => s
  | .loaded project settings =>
    match readDocument project s.files.config with
    | .ok existing => { s with phase := .judged ⟨project, settings, existing⟩ }
    | .error _ => { s with phase := .idle }
  | .judged job =>
    if job.missing ≠ [] ∨ s.files.config.isNone then { s with phase := .saving job }
    else { s with phase := .checking job }
  | .saving job =>
    match saveConfig ⟨job.missing, [], [], job.project⟩ s.files.config with
    | .ok content => ⟨{ s.files with config := some content }, .checking job⟩
    | .error _ => { s with phase := .idle }
  | .checking job =>
    match readDocument job.project s.files.config with
    | .ok _ => { s with phase := .deciding job }
    | .error _ => { s with phase := .idle }
  | .deciding job =>
    if (withoutLegacy job.settings).isNone then { s with phase := .idle }
    else if s.files.backup.isNone then { s with phase := .copying job }
    else { s with phase := .rewriting job false }
  | .copying job => ⟨{ s.files with backup := s.files.settings }, .rewriting job true⟩
  | .rewriting job _ =>
    match withoutLegacy job.settings with
    | some settings => ⟨{ s.files with settings := some (.json (.obj settings)) }, .idle⟩
    | none => { s with phase := .idle }

/-- Another process saves the configuration. -/
def save (request : SaveRequest) (s : System) : System :=
  match saveConfig request s.files.config with
  | .ok content => { s with files := { s.files with config := some content } }
  | .error _ => s

end System

inductive Event where
  | start (project : Bool)
  | advance
  | crash
  /-- The run ends while it writes the backup, which is not replaced at once. -/
  | cutCopy
  | save (request : SaveRequest)
  /-- Between two runs the files may become any others. -/
  | edit (files : Files)

def step (s : System) (e : Event) : System :=
  match e with
  | .start project => s.start project
  | .advance => s.advance
  | .crash => { s with phase := .idle }
  | .cutCopy => match s.phase with
    | .copying _ => ⟨{ s.files with backup := some .broken }, .idle⟩
    | _ => s
  | .save request => s.save request
  | .edit files => match s.phase with
    | .idle => ⟨files, .idle⟩
    | _ => s

end Machine

section Properties

def Phase.existing : Phase → Members
  | .idle | .loaded _ _ => []
  | .judged job | .saving job | .checking job | .deciding job | .copying job | .rewriting job _ =>
    job.existing

/-- Where a value taken out of the settings is still to be found. -/
def Recorded (existing : Members) (files : Files) (old : String) (v : Value) : Prop :=
  envValue files.backup old = some v ∨
    ∃ key, (old, key) ∈ oldToNew ∧
      ((field existing key).isSome = true ∨ configValue files.config key = some v)

/-- What a step of the run leaves of both documents. -/
structure Keeps (existing : Members) (files files' : Files) : Prop where
  values : ∀ key v, configValue files.config key = some v → configValue files'.config key = some v
  added : ∀ key v, configValue files'.config key = some v → configValue files.config key = some v ∨
    ∃ old, (old, key) ∈ oldToNew ∧ envValue files.settings old = some v
  document : ∀ key v, key ≠ "values" → field (topMembers files.config) key = some v →
    field (topMembers files'.config) key = some v
  settings : ∀ key, key ≠ "env" →
    field (topMembers files'.settings) key = field (topMembers files.settings) key
  envOther : ∀ v, field (topMembers files.settings) "env" = some v → v.asObject = none →
    field (topMembers files'.settings) "env" = some v
  env : ∀ key, key ∉ legacyKeys → envValue files'.settings key = envValue files.settings key
  removed : ∀ old v, envValue files.settings old = some v →
    envValue files'.settings old = some v ∨ Recorded existing files' old v

/-- Each step of a run loses nothing and overrides nothing. -/
def Kept (s : System) (e : Event) : Prop :=
  match e with
  | .save _ | .edit _ => True
  | _ => Keeps s.phase.existing s.files (step s e).files

end Properties

end RemyCC.Settings
