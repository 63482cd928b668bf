import RemyCC.Python.Numbers

/-!
# The fields of the configuration

Each field has the names it had in the environment of `settings.json`, a type
of value and bounds, and `coerce` checks a text against them.
-/

namespace RemyCC.Settings

open Python

inductive ValueType where
  | password
  | url
  | text
  | int
  | float
  | bool
  | path
  | enum
  deriving DecidableEq, Repr

structure FieldSpec where
  key : String
  oldKeys : List String
  valueType : ValueType
  minimum : Option ℚ
  maximum : Option ℚ
  options : List String
  isSecret : Bool
  projectAllowed : Bool
  allowEmpty : Bool

inductive ConfigError where
  | unreadable
  | unsupportedSchema
  | valuesNotObject
  | notString (key : String)
  | notInProject (key : String)
  | notSecret (key : String)
  | unknownField (key : String)
  | emptyValue (key : String)
  | badSyntax (key : String)
  | notAnOption (key : String)
  | belowMinimum (key : String)
  | aboveMaximum (key : String)
  deriving DecidableEq, Repr

section Registry

def plainField (valueType : ValueType) (key : String) (oldKeys : List String) : FieldSpec :=
  { key, oldKeys, valueType, minimum := none, maximum := none, options := [], isSecret := false,
    projectAllowed := true, allowEmpty := false }

def intField (key : String) (oldKeys : List String) (minimum maximum : ℚ) : FieldSpec :=
  { plainField .int key oldKeys with minimum := some minimum, maximum := some maximum }

def floatField (key : String) (oldKeys : List String) (minimum maximum : Option ℚ) : FieldSpec :=
  { plainField .float key oldKeys with minimum, maximum }

def enumField (key : String) (oldKeys : List String) (options : List String) : FieldSpec :=
  { plainField .enum key oldKeys with options }

def fields : List FieldSpec :=
  [{ plainField .password "REMY_LLM_API_KEY" ["OPENAI_API_KEY"] with
      isSecret := true, projectAllowed := false, allowEmpty := true },
    plainField .url "REMY_LLM_BASE_URL" ["OPENAI_BASE_URL"],
    plainField .text "REMY_LLM_MODEL" ["OPENAI_MODEL"],
    intField "REMY_LLM_MAX_WORKERS" ["OPENAI_MAX_WORKERS"] 1 64,
    intField "REMY_LLM_RETRY_LIMIT" ["OPENAI_RETRY_LIMIT"] 0 32,
    intField "REMY_LLM_TIMEOUT" ["OPENAI_TIMEOUT"] 30 3600,
    intField "REMY_LLM_MAX_TOKENS" ["OPENAI_MAX_TOKENS"] 1024 1048576,
    { plainField .bool "REMY_LLM_TLS_INSECURE" [] with projectAllowed := false },
    plainField .bool "REMY_LOGIC_INDEX_FILTER_SMALL" ["LOGIC_INDEX_FILTER_SMALL"],
    plainField .path "REMY_LOGIC_INDEX_DB_PATH" ["LOGIC_INDEX_DB_PATH"],
    intField "REMY_SCAN_COMMIT_BATCH_SIZE" ["SCAN_COMMIT_BATCH_SIZE"] 10 10000,
    floatField "REMY_CLUSTER_DENSITY_THRESHOLD" ["CLUSTER_DENSITY_THRESHOLD"] (some 0) none,
    intField "REMY_CLUSTER_MAX_SIZE" ["CLUSTER_MAX_SIZE"] 2 200,
    intField "REMY_CLUSTER_ENTRY_COUNT" ["CLUSTER_ENTRY_COUNT"] 1 20,
    intField "REMY_SYNTH_INTERFACE_FANOUT_CAP" ["SYNTH_INTERFACE_FANOUT_CAP"] 1 100,
    intField "REMY_SYNTH_EVENT_FANOUT_CAP" ["SYNTH_EVENT_FANOUT_CAP"] 1 200,
    intField "REMY_RESOLVE_FANOUT_CAP" ["RESOLVE_FANOUT_CAP"] 1 100,
    intField "REMY_RESOLVE_SCORE_SAME_FILE" ["RESOLVE_SCORE_SAME_FILE"] 0 100,
    intField "REMY_RESOLVE_SCORE_DIRECT_IMPORT" ["RESOLVE_SCORE_DIRECT_IMPORT"] 0 100,
    intField "REMY_RESOLVE_SCORE_GLOBAL" ["RESOLVE_SCORE_GLOBAL"] 0 100,
    enumField "REMY_LOGIC_INDEX_AUTO_INJECT" ["LOGIC_INDEX_AUTO_INJECT"] ["ALWAYS", "ASK", "NEVER"],
    enumField "REMY_PROJECT_TREE_AUTO_INJECT" ["PROJECT_TREE_AUTO_INJECT"]
      ["ALWAYS", "ASK", "NEVER"],
    enumField "REMY_TIMELINE_AUTO_INJECT" ["TIMELINE_AUTO_INJECT"] ["ALWAYS", "ASK", "NEVER"],
    intField "REMY_ENRICHMENT_TIER_FULL_MAX" ["ENRICHMENT_TIER_FULL_MAX"] 0 10000,
    intField "REMY_ENRICHMENT_TIER_MID_MAX" ["ENRICHMENT_TIER_MID_MAX"] 0 50000,
    intField "REMY_ENRICHMENT_CAP" ["ENRICHMENT_CAP"] 1 100,
    intField "REMY_ENRICHMENT_CAP_LARGE" ["ENRICHMENT_CAP_LARGE"] 1 100,
    intField "REMY_ENRICHMENT_SIG_MAX_CHARS" ["ENRICHMENT_SIG_MAX_CHARS"] 0 500,
    plainField .bool "REMY_MCP_SERVER_ENABLED" ["MCP_SERVER_ENABLED"],
    intField "REMY_MCP_BFS_MAX_DEPTH" ["MCP_BFS_MAX_DEPTH"] 1 10,
    intField "REMY_MCP_RESULT_LIMIT" ["MCP_RESULT_LIMIT"] 10 500,
    plainField .bool "REMY_MCP_STATIC_ONLY_DEFAULT" ["MCP_STATIC_ONLY_DEFAULT"],
    intField "REMY_FLOW_MAX_DEPTH" ["FLOW_MAX_DEPTH"] 1 50,
    intField "REMY_FLOW_MAX_VISITED" ["FLOW_MAX_VISITED"] 100 50000,
    intField "REMY_NAVIGATE_CANDIDATE_CLUSTERS" [] 1 50,
    intField "REMY_NAVIGATE_CANDIDATE_FILES" [] 1 50,
    intField "REMY_NAVIGATE_CANDIDATE_SYMBOLS" [] 1 50,
    intField "REMY_SUMMARY_CHAR_LIMIT_SYMBOL" ["SUMMARY_CHAR_LIMIT_SYMBOL"] 20 500,
    intField "REMY_SUMMARY_CHAR_LIMIT_FILE_COHESIVE" ["SUMMARY_CHAR_LIMIT_FILE_COHESIVE"] 50 1000,
    intField "REMY_SUMMARY_CHAR_LIMIT_FILE_UTILITY" ["SUMMARY_CHAR_LIMIT_FILE_UTILITY"] 100 4000,
    intField "REMY_SUMMARY_CHAR_LIMIT_CLUSTER" ["SUMMARY_CHAR_LIMIT_CLUSTER"] 100 2000,
    intField "REMY_FILE_KIND_MIN_SYMBOLS" ["FILE_KIND_MIN_SYMBOLS"] 1 50,
    floatField "REMY_FILE_KIND_LOW_COHESION_THRESHOLD" ["FILE_KIND_LOW_COHESION_THRESHOLD"]
      (some 0) (some 1),
    intField "REMY_FORCE_RECOMPUTE_THRESHOLD_PRIMARY" ["FORCE_RECOMPUTE_THRESHOLD_PRIMARY"] 1 10000,
    intField "REMY_FORCE_RECOMPUTE_THRESHOLD_BACKUP" ["FORCE_RECOMPUTE_THRESHOLD_BACKUP"]
      (-1) 100000,
    intField "REMY_FORCE_RECOMPUTE_INTERVAL_DAYS" ["FORCE_RECOMPUTE_INTERVAL_DAYS"] 1 365,
    enumField "REMY_SUMMARY_BOOTSTRAP_MODE" ["SUMMARY_BOOTSTRAP_MODE"] ["auto", "ask", "never"],
    intField "REMY_BOOTSTRAP_AUTO_SIZE_GUARD" ["BOOTSTRAP_AUTO_SIZE_GUARD"] 10 100000,
    enumField "REMY_SYMBOL_SUMMARY_MODE" [] ["auto", "ask", "never"],
    intField "REMY_SYMBOL_AUTO_SIZE_GUARD" [] 10 100000,
    enumField "REMY_TIMELINE_INJECT_MODE" ["TIMELINE_INJECT_MODE"]
      ["all", "last_n", "since_date", "within_days"],
    { plainField .text "REMY_TIMELINE_INJECT_VALUE" ["TIMELINE_INJECT_VALUE"] with
      allowEmpty := true },
    enumField "REMY_LANG" ["REMY_LANG"] ["en", "zh-CN"],
    plainField .bool "REMY_BANNER_ENABLED" ["REMY_BANNER_ENABLED"],
    plainField .bool "REMY_PERMISSION_GATE" [],
    plainField .bool "REMY_DAEMON_AUTOSTART" [],
    plainField .path "REMY_REPO_AUDIT_ROOT" ["REPO_AUDIT_ROOT"],
    intField "REMY_STRUCT_SCAN_TIMEOUT" ["STRUCT_SCAN_TIMEOUT"] 10 300,
    intField "REMY_FULL_SCAN_TIMEOUT" [] 60 86400,
    intField "REMY_UPDATE_TIMEOUT" [] 5 600,
    floatField "REMY_INDEX_SCAN_LOCK_TIMEOUT" ["INDEX_SCAN_LOCK_TIMEOUT"] (some 0) (some 300),
    intField "REMY_CONFIG_UI_IDLE_TIMEOUT" [] 0 86400,
    plainField .text "REMY_EVAL_MODEL" ["EVAL_MODEL"]]

/-- `FIELD_SPECS`. -/
def fieldSpec (key : String) : Option FieldSpec := fields.find? (·.key == key)

/-- `OLD_TO_NEW`. -/
def oldToNew : List (String × String) :=
  fields.flatMap fun spec => spec.oldKeys.map fun old => (old, spec.key)

def unusedOldKeys : List String :=
  ["SUMMARY_LLM_TIMEOUT", "IMPACT_DEPTH_UP", "IMPACT_DEPTH_DOWN", "MCP_IMPACT_MAX_DEPTH_UP",
    "MCP_IMPACT_MAX_DEPTH_DOWN"]

def legacyKeys : List String := oldToNew.map Prod.fst ++ unusedOldKeys

def secretKeys : List String := ["REMY_LLM_API_KEY"]

def invalidSecretValues : List String := ["", "YOUR_API_KEY_HERE", "PROXY_MANAGED"]

end Registry

section Coercion

inductive Coerced where
  | int (n : Int)
  | float (q : ℚ)
  | bool (b : Bool)
  | text (s : String)
  deriving DecidableEq, Repr

def Coerced.number : Coerced → Option ℚ
  | .int n => some n
  | .float q => some q
  | _ => none

def readValue (spec : FieldSpec) (raw : String) : Option Coerced :=
  match spec.valueType with
  | .int => (readInt raw).map .int
  | .float => match readFloat raw with
    | some (.finite q) => some (.float q)
    | _ => none
  -- only ASCII letters have the letters of `true` and `false` as their lower case
  | .bool => match String.ofList (raw.toList.map Char.toLower) with
    | "true" => some (.bool true)
    | "false" => some (.bool false)
    | _ => none
  | _ => some (.text raw)

def coerce (spec : FieldSpec) (raw : String) : Except ConfigError Coerced := do
  if raw = "" ∧ spec.allowEmpty = false then throw (.emptyValue spec.key)
  let value ← match readValue spec raw with
    | some value => .ok value
    | none => .error (.badSyntax spec.key)
  if spec.options ≠ [] ∧ raw ∉ spec.options then throw (.notAnOption spec.key)
  if let some n := value.number then
    if spec.minimum.any (n < ·) then throw (.belowMinimum spec.key)
    if spec.maximum.any (· < n) then throw (.aboveMaximum spec.key)
  return value

end Coercion

/-- No two fields have a name in common, old or new. -/
theorem oldToNew_nodup : (oldToNew.map Prod.fst).Nodup ∧ (oldToNew.map Prod.snd).Nodup := by
  decide +kernel

end RemyCC.Settings
