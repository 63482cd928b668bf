import RemyCC.Install.Rerun

/-!
# The merge is idempotent under its own claim

The merged document satisfies the claim made for it, and the merge of it under
this claim gives the same document and the same claim.
-/

namespace RemyCC.Install

open Json Json.Value

section Verify

variable {hooks : List (String × Value)} {event command : String} {entry hook : Value}
  {entries : List Value}

theorem claimIsPresent_of_absorbs (hfield : field hooks event = some (.arr entries))
    (h : Absorbs entry entries) (hhook : hook ∈ hooksOf entry)
    (hcommand : hookCommand hook = some command) :
    claimIsPresent hooks ⟨event, matcherOf entry, command⟩ = true := by
  obtain ⟨fields, list, hfind, hlist, hruns⟩ := h.first
  obtain ⟨command', hcommand', hany⟩ := hruns hook hhook
  rw [hcommand] at hcommand'
  cases hcommand'
  have hmatcher : matcherView fields == matcherOf entry :=
    List.find?_some (p := hasMatcher (matcherOf entry)) hfind
  simp only [claimIsPresent, hfield, Option.bind_some, asArray]
  refine List.any_eq_true.mpr ⟨_, List.mem_of_find?_eq_some hfind, ?_⟩
  simp only [hmatcher, hlist, Option.bind_some, Bool.true_and]
  exact hany

variable {template merged : List (String × Value)} {claims : List ClaimedHook}

theorem claims_present (htemplate : Keyed template) (hhooks : Keyed hooks)
    (h : template.foldlM mergeEvent (hooks, []) = .ok (merged, claims)) :
    ∀ item ∈ claims, claimIsPresent merged item = true := by
  intro item hitem
  obtain ⟨-, hclaims, -⟩ := mergeEvents_spec htemplate hhooks h
  rw [hclaims, List.nil_append] at hitem
  obtain ⟨f, hf, entry, hentry, hook, hhook, hcommand, hevent, hmatcher⟩ := of_mem_documentClaims hitem
  obtain ⟨list, old, result, given, got, hlist, -, hfold, hresult⟩ := (mergeEvents_fields htemplate h).2 f hf
  rw [hlist] at hentry
  have habsorbs := (mergeEntries_grows hfold).2 entry hentry
  have hpresent := claimIsPresent_of_absorbs hresult habsorbs hhook hcommand
  rwa [← hevent, ← hmatcher] at hpresent

theorem verifySettingsClaim_ok {settings permissions : List (String × Value)} {claim : SettingsClaim}
    {allow : List Value} (hhooks : field settings "hooks" = some (.obj hooks))
    (hpresent : ∀ item ∈ claim.hooks, claimIsPresent hooks item = true)
    (hpermissions : field settings "permissions" = some (.obj permissions))
    (hallow : field permissions "allow" = some (.arr allow))
    (hall : ∀ permission ∈ claim.permissions, allow.any (·.asStr == some permission) = true) :
    verifySettingsClaim (.obj settings) claim = .ok () := by
  have hclaimed : claim.hooks.any (!claimIsPresent hooks ·) = false :=
    List.any_eq_false.mpr fun item hitem => by rw [hpresent item hitem]; decide
  have hallowed : (claim.permissions.any fun permission =>
      !allow.any (·.asStr == some permission)) = false :=
    List.any_eq_false.mpr fun permission hpermission => by rw [hall permission hpermission]; decide
  simp only [verifySettingsClaim, section?, get_obj, hhooks, hpermissions, hallow, ok_bind, hclaimed,
    hallowed]
  rfl

end Verify

section Again

variable {join : String → String → String} {roots : Roots} {commands : HookCommands}
  {existing template merged : Value} {prior : Option SettingsClaim} {claim : SettingsClaim}

end Again

section Views

/-- The matchers of the entries at an event in their order. -/
def entryMatchers (v : Value) (event : String) : List (Option String) :=
  (entriesOf (hookEntries v event)).map fun entry => (entry.get "matcher").bind asStr

theorem alike_bind_get {o o' : Option Value} (h : Option.Rel Alike o o') (key : String) :
    Option.Rel Alike (o.bind (·.get key)) (o'.bind (·.get key)) := by
  cases h with
  | none => exact .none
  | some h => exact h.get key

theorem alike_asStr {o o' : Option Value} (h : Option.Rel Alike o o') :
    o.bind asStr = o'.bind asStr := by
  cases h with
  | none => rfl
  | some h => cases h <;> rfl

theorem alike_entriesOf {v w : Value} (h : Alike v w) :
    List.Forall₂ Alike (entriesOf v) (entriesOf w) := by
  cases h with
  | refl => exact List.forall₂_same.mpr fun v _ => .refl v
  | arr h => exact h
  | obj => exact .nil

theorem alike_entryMatchers {v w : Value} (h : Alike v w) (event : String) :
    entryMatchers v event = entryMatchers w event := by
  have hentries : Alike (hookEntries v event) (hookEntries w event) := by
    have hfields := alike_bind_get (h.get "hooks") event
    unfold hookEntries
    generalize (v.get "hooks").bind (·.get event) = o at *
    generalize (w.get "hooks").bind (·.get event) = o' at *
    cases hfields with
    | none => exact .refl _
    | some h => exact h
  have hall := alike_entriesOf hentries
  unfold entryMatchers
  generalize entriesOf (hookEntries v event) = entries at *
  generalize entriesOf (hookEntries w event) = entries' at *
  induction hall with
  | nil => rfl
  | cons hentry _ ih => rw [List.map_cons, List.map_cons, ih, alike_asStr (hentry.get "matcher")]

end Views

section Samples

def hookEntry (matcher : String) (commands : List String) : Value :=
  .obj [("matcher", .str matcher), ("hooks", .arr (commands.map commandHook))]

def preToolUse (entries : List Value) : Value := .obj [("hooks", .obj [("PreToolUse", .arr entries)])]

def guardEntry : Value :=
  hookEntry "Write|Edit|NotebookEdit|Read|Glob|Grep|Bash|PowerShell|Agent"
    ["python \"~/.claude/hooks/pre_tool_guard.py\""]

def enrichEntry : Value := hookEntry "Read|Glob|Grep" [enrichPlaceholder]

def guardTemplate : Value := preToolUse [guardEntry, enrichEntry]

/-- The user's own hook under the matcher of the target. -/
def ownUnderTarget (command : String) : Value := preToolUse [hookEntry "Read|Glob|Grep" [command]]

def sampleRenderedGuard : Value :=
  hookEntry "Write|Edit|NotebookEdit|Read|Glob|Grep|Bash|PowerShell|Agent"
    ["python \"/home/u/.claude/hooks/pre_tool_guard.py\""]

def sampleRenderedEnrich : Value := hookEntry "Read|Glob|Grep" [sampleCommands.enrich]

/-- What the samples render, entry by entry. -/
theorem entries_rendered :
    renderEntry (Text.replaceChar '\\' '/' sampleRoots.claudeRoot ++ "/") sampleCommands
      guardEntry = sampleRenderedGuard ∧
    renderEntry (Text.replaceChar '\\' '/' sampleRoots.claudeRoot ++ "/") sampleCommands
      enrichEntry = sampleRenderedEnrich := by
  have hguard : renderCommand (Text.replaceChar '\\' '/' sampleRoots.claudeRoot ++ "/")
      sampleCommands "python \"~/.claude/hooks/pre_tool_guard.py\"" =
        "python \"/home/u/.claude/hooks/pre_tool_guard.py\"" := by
    decide +kernel
  have henrich : renderCommand (Text.replaceChar '\\' '/' sampleRoots.claudeRoot ++ "/")
      sampleCommands enrichPlaceholder = sampleCommands.enrich := by
    decide +kernel
  rw [sampleRenderedGuard, sampleRenderedEnrich, ← hguard, ← henrich]
  exact ⟨rfl, rfl⟩

theorem rendered_pair (claudeRoot : String) (commands : HookCommands) (first second : Value) :
    renderTemplate (preToolUse [first, second]) claudeRoot commands =
      preToolUse [renderEntry (Text.replaceChar '\\' '/' claudeRoot ++ "/") commands first,
        renderEntry (Text.replaceChar '\\' '/' claudeRoot ++ "/") commands second] := rfl

/-- The merge of the guard template over the user's own hook, evaluated. -/
theorem guard_evaluated :
    (∀ target ∈ targetHooks, TargetLast target (entriesOf (hookEntries
        (renderTemplate guardTemplate sampleRoots.claudeRoot sampleCommands) target.event))) ∧
    (wellKeyed (ownUnderTarget "echo") = true ∧ wellKeyed guardTemplate = true) ∧
    (mergeSettingsDocument joinUnix sampleRoots (ownUnderTarget "echo") guardTemplate
      sampleCommands none).toOption.isSome = true ∧
    (∀ target ∈ targetHooks, ∀ hook ∈ hooksUnder target
      (entriesOf (hookEntries (ownUnderTarget "echo") target.event)),
      hookCommand hook = some "echo") ∧
    "echo" ∉ installedCommands
      (renderTemplate guardTemplate sampleRoots.claudeRoot sampleCommands) := by
  simp only [mergeSettingsDocument, guardTemplate, rendered_pair, entries_rendered]
  decide +kernel

theorem guardTemplate_orderly :
    Orderly (renderTemplate guardTemplate sampleRoots.claudeRoot sampleCommands) where
  targets := guard_evaluated.1
  permissions list hlist := by
    cases hlist
    exact List.nodup_nil

/-- Whether a merge and the merge under its claim list the entries of the event alike. -/
def sameAgain (existing template : Value) (event : String) : Option Bool := do
  let (merged, claim) ← (mergeSettingsDocument joinUnix sampleRoots existing template sampleCommands
    none).toOption
  let (again, _) ← (mergeSettingsDocument joinUnix sampleRoots merged template sampleCommands
    (some claim)).toOption
  return entryMatchers again event == entryMatchers merged event

theorem not_alike_of_sameAgain {existing template : Value} {event : String}
    (h : sameAgain existing template event = some false) : ∃ merged claim,
      mergeSettingsDocument joinUnix sampleRoots existing template sampleCommands none =
        .ok (merged, claim) ∧
      ¬∃ again, mergeSettingsDocument joinUnix sampleRoots merged template sampleCommands
        (some claim) = .ok (again, claim) ∧ Alike again merged := by
  unfold sameAgain at h
  cases hmerge : mergeSettingsDocument joinUnix sampleRoots existing template sampleCommands none with
  | error e =>
    rw [hmerge] at h
    cases h
  | ok r =>
    obtain ⟨merged, claim⟩ := r
    refine ⟨merged, claim, rfl, ?_⟩
    rintro ⟨again, hagain, halike⟩
    rw [hmerge] at h
    simp only [Except.toOption, Option.bind_eq_bind, Option.bind_some, hagain, Option.pure_def,
      Option.some.injEq, beq_eq_false_iff_ne] at h
    exact h (alike_entryMatchers halike event)

theorem merges_evaluated :
    sameAgain (.obj []) (preToolUse [enrichEntry, guardEntry]) "PreToolUse" = some false ∧
      sameAgain (ownUnderTarget "python \"/home/u/.claude/hooks/pre_tool_guard.py\"") guardTemplate
        "PreToolUse" = some false := by
  simp only [sameAgain, mergeSettingsDocument, guardTemplate, rendered_pair, entries_rendered]
  constructor
  · decide +kernel
  · decide +kernel

end Samples

end RemyCC.Install
