import RemyCC.Install.Settings
import Mathlib.Data.List.Lemmas

/-!
# What the merge leaves at an event

Each stage of the merge and of the removal is described by the entries it
leaves at every event.
-/

namespace RemyCC.Install

open Json Json.Value

theorem bind_eq_ok {α β : Type} {x : Except InstallError α} {f : α → Except InstallError β} {b : β}
    (h : x >>= f = .ok b) : ∃ a, x = .ok a ∧ f a = .ok b := by
  cases x with
  | error e => cases h
  | ok a => exact ⟨a, rfl, h⟩

def entriesAt (hooks : List (String × Value)) (event : String) : Value :=
  (field hooks event).getD (.arr [])

def sectionOf (key : String) (settings : List (String × Value)) : List (String × Value) :=
  match field settings key with
  | some (.obj fields) => fields
  | _ => []

def hookEntries (settings : Value) (event : String) : Value :=
  ((settings.get "hooks").bind (·.get event)).getD (.arr [])

def allowed (settings : Value) : Value :=
  ((settings.get "permissions").bind (·.get "allow")).getD (.arr [])

def entriesOf : Value → List Value
  | .arr entries => entries
  | _ => []

def hooksOf (entry : Value) : List Value := ((entry.get "hooks").bind asArray).getD []

section Views

variable {settings hooks : List (String × Value)} {key event : String} {v : Value}

theorem get_obj (fields : List (String × Value)) (key : String) :
    (Value.obj fields).get key = field fields key := rfl

theorem get_section (settings : List (String × Value)) (key inner : String) :
    ((Value.obj settings).get key).bind (·.get inner) = field (sectionOf key settings) inner := by
  rw [get_obj]
  unfold sectionOf
  cases field settings key with
  | none => rfl
  | some v => cases v <;> rfl

theorem hookEntries_obj (settings : List (String × Value)) (event : String) :
    hookEntries (.obj settings) event = entriesAt (sectionOf "hooks" settings) event := by
  rw [hookEntries, get_section, entriesAt]

theorem allowed_obj (settings : List (String × Value)) :
    allowed (.obj settings) = (field (sectionOf "permissions" settings) "allow").getD (.arr []) := by
  rw [allowed, get_section]

theorem sectionOf_keyed (h : wellKeyed (.obj settings) = true) (key : String) :
    Keyed (sectionOf key settings) := by
  unfold sectionOf
  split
  · next fields hfield => exact wellKeyed_keyed (wellKeyed_field h hfield)
  · exact List.nodup_nil

theorem sectionOf_setField_self {fields : List (String × Value)} :
    sectionOf key (setField key (.obj fields) settings) = fields := by
  rw [sectionOf, field_setField_self]

theorem sectionOf_setField_of_ne {other : String} (h : key ≠ other) :
    sectionOf key (setField other v settings) = sectionOf key settings := by
  rw [sectionOf, field_setField_of_ne h, sectionOf]

theorem sectionOf_of_getD {fields : List (String × Value)}
    (h : (field settings key).getD (.obj []) = .obj fields) : sectionOf key settings = fields := by
  unfold sectionOf
  cases hfield : field settings key with
  | none =>
    rw [hfield] at h
    cases h
    rfl
  | some v =>
    rw [hfield] at h
    cases h
    rfl

theorem entriesAt_setEntries (hkeyed : Keyed hooks) (entries : List Value) (other : String) :
    entriesAt (setEntries event entries hooks) other =
      if other = event then .arr entries else entriesAt hooks other := by
  unfold entriesAt setEntries
  split
  · next hempty =>
    rw [hkeyed.field_removeField, List.isEmpty_iff.mp hempty]
    split <;> rfl
  · split
    · next h => rw [h, field_setField_self, Option.getD_some]
    · next h => rw [field_setField_of_ne h]

theorem setEntries_keyed (hkeyed : Keyed hooks) (entries : List Value) :
    Keyed (setEntries event entries hooks) := by
  unfold setEntries
  split
  · exact hkeyed.removeField
  · exact hkeyed.setField

end Views

section Clear

variable {join : String → String → String} {roots : Roots} {target : TargetHook}

/-- An entry without the default commands of a target, unless these are all its hooks. -/
def clearDefaults (join : String → String → String) (roots : Roots) (target : TargetHook) :
    Value → Option Value
  | .obj fields =>
    if matcherView fields ≠ target.matcher then some (.obj fields)
    else match field fields "hooks" with
      | some (.arr list) =>
        let kept := list.filter fun hook => !(hookCommand hook).any (isLegacy join roots target)
        if kept.isEmpty && !list.isEmpty then none
        else some (.obj (setField "hooks" (.arr kept) fields))
      | _ => some (.obj fields)
  | entry => some entry

theorem clearHooks_eq {list kept : List Value} (h : clearHooks join roots [] target list = .ok kept) :
    kept = list.filter fun hook => !(hookCommand hook).any (isLegacy join roots target) := by
  induction list generalizing kept with
  | nil =>
    cases h
    rfl
  | cons hook list ih =>
    rw [clearHooks] at h
    cases hcommand : hookCommand hook with
    | none =>
      rw [hcommand] at h
      obtain ⟨rest, hrest, hkept⟩ := bind_eq_ok h
      cases hkept
      rw [List.filter_cons_of_pos (by rw [hcommand]; rfl), ih hrest]
    | some command =>
      rw [hcommand] at h
      simp only [List.contains_nil, Bool.false_or] at h
      split at h
      · next hlegacy =>
        rw [List.filter_cons_of_neg (by rw [hcommand, Option.any_some, hlegacy]; decide), ih h]
      · next hlegacy =>
        split at h
        · cases h
        · obtain ⟨rest, hrest, hkept⟩ := bind_eq_ok h
          cases hkept
          have hnot : isLegacy join roots target command = false := by simpa using hlegacy
          rw [List.filter_cons_of_pos (by rw [hcommand, Option.any_some, hnot]; rfl), ih hrest]

theorem holdsHooks_setField {fields : List (String × Value)} {list : List Value} :
    holdsHooks (.obj (setField "hooks" (.arr list) fields)) = !list.isEmpty := by
  rw [holdsHooks, get_obj, field_setField_self]
  rfl

theorem clearEntry_spec {entry cleared : Value}
    (h : clearEntry join roots [] target entry = .ok cleared) :
    clearDefaults join roots target entry = some cleared ∨
      clearDefaults join roots target entry = none ∧ holdsHooks cleared = false := by
  cases entry with
  | obj fields =>
    simp only [clearEntry] at h
    simp only [clearDefaults]
    split at h
    · next hmatcher =>
      cases h
      exact .inl (if_pos hmatcher)
    · next hmatcher =>
      rw [if_neg hmatcher]
      cases hfield : field fields "hooks" with
      | none =>
        rw [hfield] at h
        cases h
        exact .inl rfl
      | some v =>
        rw [hfield] at h
        cases v with
        | arr list =>
          obtain ⟨kept, hkept, hcleared⟩ := bind_eq_ok h
          cases hcleared
          simp only [← clearHooks_eq hkept]
          cases hempty : kept.isEmpty && !list.isEmpty with
          | true =>
            refine .inr ⟨rfl, ?_⟩
            rw [holdsHooks_setField, (Bool.and_eq_true_iff.mp hempty).1]
            rfl
          | false => exact .inl rfl
        | null | bool | int | float | str | obj =>
          cases h
          exact .inl rfl
  | null | bool | int | float | str | arr =>
    cases h
    exact .inl rfl

theorem clearEntries_retained {entries cleared : List Value}
    (h : clearEntries join roots [] target entries = .ok cleared) :
    retainNonempty cleared = retainNonempty (entries.filterMap (clearDefaults join roots target)) := by
  unfold retainNonempty
  induction entries generalizing cleared with
  | nil =>
    cases h
    rfl
  | cons entry entries ih =>
    obtain ⟨first, hfirst, h⟩ := bind_eq_ok h
    obtain ⟨rest, hrest, h⟩ := bind_eq_ok h
    cases h
    rcases clearEntry_spec hfirst with hsome | ⟨hnone, hempty⟩
    · rw [List.filterMap_cons_some hsome, List.filter_cons, List.filter_cons, ih hrest]
    · rw [List.filterMap_cons_none hnone, List.filter_cons_of_neg (by rw [hempty]; decide), ih hrest]

def targetFor (targets : List TargetHook) (event : String) : Option TargetHook :=
  targets.find? (·.event == event)

/-- The entries of an event without the default commands. -/
def withoutDefaults (join : String → String → String) (roots : Roots) (targets : List TargetHook)
    (event : String) : Value → Value
  | .arr entries =>
    match targetFor targets event with
    | some target => .arr (entries.filterMap (clearDefaults join roots target))
    | none => .arr entries
  | entries => entries

/-- An entry that holds no hook is dropped at the events of the targets. -/
def keptEntries (targets : List TargetHook) (event : String) : Value → Value
  | .arr entries =>
    if (targetFor targets event).isSome then .arr (retainNonempty entries) else .arr entries
  | entries => entries

theorem targetFor_cons_self {targets : List TargetHook} :
    targetFor (target :: targets) target.event = some target := by
  rw [targetFor, List.find?_cons_of_pos (by simp)]

theorem targetFor_cons_of_ne {targets : List TargetHook} {event : String} (h : event ≠ target.event) :
    targetFor (target :: targets) event = targetFor targets event := by
  rw [targetFor, List.find?_cons_of_neg (by simpa using Ne.symm h), targetFor]

theorem kept_of_untargeted {targets : List TargetHook} {event : String}
    (h : targetFor targets event = none) (v : Value) :
    keptEntries targets event (withoutDefaults join roots targets event v) = v := by
  cases v with
  | arr entries => simp only [withoutDefaults, h, keptEntries, Option.isSome_none, Bool.false_eq_true,
      if_false]
  | null | bool | int | float | str | obj => rfl

theorem kept_of_targeted {targets : List TargetHook} {event : String}
    (h : targetFor targets event = some target) (entries : List Value) :
    keptEntries targets event (withoutDefaults join roots targets event (.arr entries)) =
      .arr (retainNonempty (entries.filterMap (clearDefaults join roots target))) := by
  simp only [withoutDefaults, h, keptEntries, Option.isSome_some, if_true]

theorem kept_of_not_arr {targets : List TargetHook} {event : String} {v : Value}
    (h : ∀ entries, v ≠ .arr entries) :
    keptEntries targets event (withoutDefaults join roots targets event v) = v := by
  cases v with
  | arr entries => exact absurd rfl (h entries)
  | null | bool | int | float | str | obj => rfl

theorem kept_congr {targets targets' : List TargetHook} {event : String}
    (h : targetFor targets event = targetFor targets' event) (v : Value) :
    keptEntries targets event (withoutDefaults join roots targets event v) =
      keptEntries targets' event (withoutDefaults join roots targets' event v) := by
  cases v with
  | arr entries => simp only [withoutDefaults, keptEntries, h]
  | null | bool | int | float | str | obj => rfl

variable {hooks cleared : List (String × Value)}

theorem clearTarget_entriesAt (hkeyed : Keyed hooks)
    (h : clearTarget join roots [] hooks target = .ok cleared) :
    Keyed cleared ∧ ∀ event, entriesAt cleared event =
      keptEntries [target] event (withoutDefaults join roots [target] event (entriesAt hooks event)) := by
  have hself : targetFor [target] target.event = some target := targetFor_cons_self
  have hother {event : String} (hne : event ≠ target.event) : targetFor [target] event = none :=
    targetFor_cons_of_ne hne
  unfold clearTarget at h
  split at h
  · next entries hentries =>
    obtain ⟨cleared', hcleared', h⟩ := bind_eq_ok h
    cases h
    refine ⟨setEntries_keyed hkeyed _, fun event => ?_⟩
    rw [entriesAt_setEntries hkeyed]
    split
    · next hevent =>
      rw [hevent, clearEntries_retained hcleared', entriesAt, hentries, Option.getD_some,
        kept_of_targeted hself]
    · next hevent => rw [kept_of_untargeted (hother hevent)]
  · next hentries =>
    cases h
    refine ⟨hkeyed, fun event => ?_⟩
    by_cases hevent : event = target.event
    · unfold entriesAt
      cases hfield : field hooks event with
      | none => rw [hevent, Option.getD_none, kept_of_targeted hself, List.filterMap_nil]; rfl
      | some v => rw [Option.getD_some, kept_of_not_arr fun entries hv =>
          hentries entries (by rw [← hevent, hfield, hv])]
    · rw [kept_of_untargeted (hother hevent)]

theorem clearTargets_entriesAt {targets : List TargetHook} (hevents : (targets.map (·.event)).Nodup)
    (hkeyed : Keyed hooks) (h : targets.foldlM (clearTarget join roots []) hooks = .ok cleared) :
    Keyed cleared ∧ ∀ event, entriesAt cleared event =
      keptEntries targets event (withoutDefaults join roots targets event (entriesAt hooks event)) := by
  induction targets generalizing hooks with
  | nil =>
    cases h
    exact ⟨hkeyed, fun event => (kept_of_untargeted rfl _).symm⟩
  | cons target targets ih =>
    obtain ⟨first, hfirst, h⟩ := bind_eq_ok h
    obtain ⟨hfresh, hevents⟩ := List.nodup_cons.mp hevents
    obtain ⟨hkeyed', hat⟩ := clearTarget_entriesAt hkeyed hfirst
    obtain ⟨hkeyed', hat'⟩ := ih hevents hkeyed' h
    refine ⟨hkeyed', fun event => ?_⟩
    rw [hat', hat]
    by_cases hevent : event = target.event
    · have hnone : targetFor targets event = none := by
        refine List.find?_eq_none.mpr fun other hother heq => hfresh ?_
        exact List.mem_map.mpr ⟨other, hother, (beq_iff_eq.mp heq).trans hevent⟩
      rw [kept_of_untargeted hnone]
      refine kept_congr ?_ _
      rw [hevent, targetFor_cons_self, targetFor_cons_self]
    · have hone : targetFor [target] event = none := targetFor_cons_of_ne hevent
      rw [kept_of_untargeted hone]
      exact kept_congr (targetFor_cons_of_ne hevent).symm _

theorem removePriorTargetHooks_spec {settings result : List (String × Value)}
    (hkeyed : Keyed settings) (hhooks : Keyed (sectionOf "hooks" settings))
    (h : removePriorTargetHooks join roots none settings = .ok result) :
    Keyed result ∧ Keyed (sectionOf "hooks" result) ∧
      (∀ key ≠ "hooks", field result key = field settings key) ∧
      ∀ event, entriesAt (sectionOf "hooks" result) event = keptEntries targetHooks event
        (withoutDefaults join roots targetHooks event (entriesAt (sectionOf "hooks" settings) event)) := by
  unfold removePriorTargetHooks at h
  split at h
  · next hfield =>
    cases h
    refine ⟨hkeyed, hhooks, fun _ _ => rfl, fun event => ?_⟩
    have hempty : sectionOf "hooks" settings = [] := by rw [sectionOf, hfield]
    rw [hempty, entriesAt, field_nil, Option.getD_none]
    cases htarget : targetFor targetHooks event with
    | none => rw [kept_of_untargeted htarget]
    | some target => rw [kept_of_targeted htarget]; rfl
  · next hooks hfield =>
    obtain ⟨cleared, hcleared, h⟩ := bind_eq_ok h
    cases h
    have hsection : sectionOf "hooks" settings = hooks := by rw [sectionOf, hfield]
    rw [hsection] at hhooks ⊢
    rw [sectionOf_setField_self]
    obtain ⟨hkeyed', hat⟩ := clearTargets_entriesAt (by decide) hhooks hcleared
    exact ⟨hkeyed.setField, hkeyed', fun key hkey => field_setField_of_ne hkey, hat⟩
  · cases h

end Clear

section Entries

variable {event matcher : String} {claims : List ClaimedHook} {item : Value}
variable {entries merged list : List Value}

def isClaimed (claims : List ClaimedHook) (matcher : String) (hook : Value) : Bool :=
  claims.any fun item => item.matcher == matcher && hookCommand hook == some item.command

def withoutClaimed (claims : List ClaimedHook) : Value → Value
  | .obj entry =>
    match field entry "hooks" with
    | some (.arr list) =>
      .obj (setField "hooks" (.arr (list.filter (!isClaimed claims (matcherView entry) ·))) entry)
    | _ => .obj entry
  | entry => entry

/-- What is left of an entry when the claimed hooks are taken out, if it still holds one. -/
def restoreEntry (claims : List ClaimedHook) (entry : Value) : Option Value :=
  if holdsHooks (withoutClaimed claims entry) then some (withoutClaimed claims entry) else none

def listClaims (event matcher : String) (list : List Value) : List ClaimedHook :=
  list.filterMap fun hook => (hookCommand hook).map (ClaimedHook.mk event matcher)

def entryClaims (event : String) (entry : Value) : List ClaimedHook :=
  listClaims event (stringView (entry.get "matcher")) (hooksOf entry)

/-- The claims that the entries of a template give rise to. -/
def templateClaims (event : String) (template : List Value) : List ClaimedHook :=
  template.flatMap (entryClaims event)

/-- An object without a list of hooks gets an empty one. -/
def giveHooks : Value → Value
  | .obj fields => .obj (setDefault fields ("hooks", .arr []))
  | entry => entry

def listFirst (matcher : String) : List Value → List Value
  | [] => []
  | item :: items =>
    if hasMatcher matcher item then giveHooks item :: items else item :: listFirst matcher items

/-- What a template entry without hooks does to the entries of the event. -/
def addBlank (entries : List Value) (matcher : String) : List Value :=
  if entries.any (hasMatcher matcher) then listFirst matcher entries
  else entries ++ [blankEntry matcher]

theorem matcherView_setField {fields : List (String × Value)} {v : Value} :
    matcherView (setField "hooks" v fields) = matcherView fields := by
  rw [matcherView, field_setField_of_ne (by decide), matcherView]

theorem holdsHooks_of_unlisted {fields : List (String × Value)}
    (h : ∀ list, field fields "hooks" ≠ some (.arr list)) : holdsHooks (.obj fields) = false := by
  unfold holdsHooks
  rw [get_obj]
  cases hfield : field fields "hooks" with
  | none => rfl
  | some v =>
    cases v with
    | arr list => exact absurd hfield (h list)
    | null | bool | int | float | str | obj => rfl

theorem withoutClaimed_list {fields : List (String × Value)} {list : List Value}
    (h : field fields "hooks" = some (.arr list)) :
    withoutClaimed claims (.obj fields) =
      .obj (setField "hooks" (.arr (list.filter (!isClaimed claims (matcherView fields) ·))) fields) := by
  simp only [withoutClaimed, h]

theorem restoreEntry_list {fields : List (String × Value)} {list : List Value}
    (h : field fields "hooks" = some (.arr list)) :
    restoreEntry claims (.obj fields) =
      if (list.filter (!isClaimed claims (matcherView fields) ·)).isEmpty then none
      else some (.obj (setField "hooks"
        (.arr (list.filter (!isClaimed claims (matcherView fields) ·))) fields)) := by
  rw [restoreEntry, withoutClaimed_list h, holdsHooks_setField]
  cases (list.filter (!isClaimed claims (matcherView fields) ·)).isEmpty <;> rfl

theorem restoreEntry_unlisted {fields : List (String × Value)}
    (h : ∀ list, field fields "hooks" ≠ some (.arr list)) :
    restoreEntry claims (.obj fields) = none := by
  have hsame : withoutClaimed claims (.obj fields) = .obj fields := by
    simp only [withoutClaimed]
  rw [restoreEntry, hsame, holdsHooks_of_unlisted h]
  rfl

theorem isClaimed_of_mem {hook : Value} {command : String}
    (hmem : ⟨event, matcher, command⟩ ∈ claims) (hcommand : hookCommand hook = some command) :
    isClaimed claims matcher hook = true :=
  List.any_eq_true.mpr ⟨_, hmem, by simp [hcommand]⟩

/-- Hooks that are claimed may stand in an entry or not. -/
theorem restoreEntry_pushed {fields : List (String × Value)} {present pushed : List Value}
    (hpresent : (field fields "hooks").getD (.arr []) = .arr present)
    (hpushed : ∀ hook ∈ pushed, isClaimed claims (matcherView fields) hook = true) :
    restoreEntry claims (.obj (setField "hooks" (.arr (present ++ pushed)) fields)) =
      restoreEntry claims (.obj fields) := by
  have hnone : pushed.filter (!isClaimed claims (matcherView fields) ·) = [] :=
    List.filter_eq_nil_iff.mpr fun hook hhook => by rw [hpushed hook hhook]; decide
  rw [restoreEntry_list field_setField_self, matcherView_setField, List.filter_append, hnone,
    List.append_nil, setField_setField]
  cases hfield : field fields "hooks" with
  | none =>
    rw [hfield] at hpresent
    cases hpresent
    rw [restoreEntry_unlisted fun list h => by rw [hfield] at h; cases h]
    rfl
  | some v =>
    rw [hfield, Option.getD_some] at hpresent
    rw [restoreEntry_list (hpresent ▸ hfield)]

theorem listClaims_cons {hook : Value} {command : String} (h : hookCommand hook = some command) :
    listClaims event matcher (hook :: list) =
      ⟨event, matcher, command⟩ :: listClaims event matcher list := by
  simp only [listClaims, List.filterMap_cons, h, Option.map_some]

theorem mem_listClaims {hook : Value} {command : String} (hhook : hook ∈ list)
    (h : hookCommand hook = some command) :
    ⟨event, matcher, command⟩ ∈ listClaims event matcher list :=
  List.mem_filterMap.mpr ⟨hook, hhook, by rw [h, Option.map_some]⟩

theorem mergeList_spec_from {present hooks : List Value} {before : List ClaimedHook}
    (h : list.foldlM (mergeHook event matcher) (present, before) = .ok (hooks, claims)) :
    (∃ pushed, hooks = present ++ pushed ∧ ∀ hook ∈ pushed, hook ∈ list) ∧
      claims = before ++ listClaims event matcher list ∧ ∀ hook ∈ list, (hookCommand hook).isSome := by
  induction list generalizing present before with
  | nil =>
    cases h
    exact ⟨⟨[], (List.append_nil _).symm, fun _ h => nomatch h⟩, (List.append_nil _).symm,
      fun _ h => nomatch h⟩
  | cons hook list ih =>
    obtain ⟨⟨present', before'⟩, hstep, h⟩ := bind_eq_ok h
    unfold mergeHook at hstep
    cases hcommand : (hook.get "command").bind asStr with
    | none =>
      rw [hcommand] at hstep
      cases hstep
    | some command =>
      rw [hcommand] at hstep
      have hhook : hookCommand hook = some (Text.trim command) := by
        rw [hookCommand, hcommand, Option.map_some]
      obtain ⟨hpresent, hbefore⟩ := Prod.mk.inj (Except.ok.inj hstep)
      obtain ⟨⟨pushed, hhooks, hpushed⟩, hclaims, hall⟩ := ih h
      refine ⟨?_, ?_, List.forall_mem_cons.mpr ⟨by rw [hhook]; rfl, hall⟩⟩
      · simp only at hpresent
        split at hpresent
        · exact ⟨pushed, by rw [hhooks, ← hpresent], fun h hh => List.mem_cons_of_mem _ (hpushed h hh)⟩
        · exact ⟨hook :: pushed, by rw [hhooks, ← hpresent, List.append_assoc]; rfl,
            List.forall_mem_cons.mpr ⟨List.mem_cons_self,
              fun h hh => List.mem_cons_of_mem _ (hpushed h hh)⟩⟩
      · rw [hclaims, ← hbefore, listClaims_cons hhook, List.append_assoc]
        rfl

theorem mergeList_spec {present hooks : List Value}
    (h : mergeList event matcher present list = .ok (hooks, claims)) :
    (∃ pushed, hooks = present ++ pushed ∧ ∀ hook ∈ pushed, hook ∈ list) ∧
      claims = listClaims event matcher list ∧ ∀ hook ∈ list, (hookCommand hook).isSome :=
  mergeList_spec_from h

/-- What merging a template into the entries of an event leaves of them. -/
structure MergedFrom (given : List ClaimedHook) (blanks : List Value → List Value)
    (entries merged : List Value) : Prop where
  restored : ∀ claims, (∀ item ∈ given, item ∈ claims) →
    merged.filterMap (restoreEntry claims) = entries.filterMap (restoreEntry claims)
  blank : given = [] → merged = blanks entries

theorem mergedItem {fields : List (String × Value)} {present hooks : List Value}
    (hpresent : (field fields "hooks").getD (.arr []) = .arr present)
    (h : mergeList event (matcherView fields) present list = .ok (hooks, claims)) :
    claims = listClaims event (matcherView fields) list ∧
      (∀ given, (∀ item ∈ claims, item ∈ given) →
        restoreEntry given (.obj (setField "hooks" (.arr hooks) fields)) =
          restoreEntry given (.obj fields)) ∧
      (claims = [] → .obj (setField "hooks" (.arr hooks) fields) = giveHooks (.obj fields)) := by
  obtain ⟨⟨pushed, rfl, hpushed⟩, hclaims, hall⟩ := mergeList_spec h
  have hclaimed (hook : Value) (hhook : hook ∈ pushed) :
      ∃ command, hookCommand hook = some command ∧
        ⟨event, matcherView fields, command⟩ ∈ claims := by
    obtain ⟨command, hcommand⟩ := Option.isSome_iff_exists.mp (hall hook (hpushed hook hhook))
    exact ⟨command, hcommand, hclaims ▸ mem_listClaims (hpushed hook hhook) hcommand⟩
  refine ⟨hclaims, fun given hgiven => restoreEntry_pushed hpresent fun hook hhook => ?_,
    fun hnil => ?_⟩
  · obtain ⟨command, hcommand, hmem⟩ := hclaimed hook hhook
    exact isClaimed_of_mem (hgiven _ hmem) hcommand
  · have hnone : pushed = [] := List.eq_nil_iff_forall_not_mem.mpr fun hook hhook => by
      obtain ⟨command, -, hmem⟩ := hclaimed hook hhook
      rw [hnil] at hmem
      cases hmem
    rw [hnone, List.append_nil, giveHooks, setDefault]
    cases hfield : field fields "hooks" with
    | none =>
      rw [hfield] at hpresent
      cases hpresent
      rfl
    | some v =>
      rw [hfield, Option.getD_some] at hpresent
      rw [setField_self (hpresent ▸ hfield)]
      rfl

theorem mergeFirst_spec (h : mergeFirst event matcher list entries = .ok (merged, claims))
    (hany : entries.any (hasMatcher matcher) = true) :
    claims = listClaims event matcher list ∧
      MergedFrom claims (listFirst matcher) entries merged := by
  induction entries generalizing merged with
  | nil => cases hany
  | cons item items ih =>
    cases hitem : hasMatcher matcher item with
    | false =>
      rw [List.any_cons, hitem, Bool.false_or] at hany
      simp only [mergeFirst, hitem] at h
      obtain ⟨⟨merged', claims'⟩, hmerged, h⟩ := bind_eq_ok h
      cases h
      obtain ⟨hclaims, hspec⟩ := ih hmerged hany
      refine ⟨hclaims, fun claims hsub => ?_, fun hnil => ?_⟩
      · rw [List.filterMap_cons, List.filterMap_cons, hspec.restored claims hsub]
      · rw [listFirst, if_neg (by rw [hitem]; decide), hspec.blank hnil]
    | true =>
      cases item with
      | obj fields =>
        have hmatcher : matcherView fields = matcher := beq_iff_eq.mp hitem
        simp only [mergeFirst, hitem] at h
        cases hpresent : (field fields "hooks").getD (.arr []) with
        | arr present =>
          rw [hpresent] at h
          obtain ⟨⟨hooks, claims'⟩, hlist, h⟩ := bind_eq_ok h
          cases h
          obtain ⟨hclaims, hrestored, hblank⟩ := mergedItem hpresent (hmatcher ▸ hlist)
          refine ⟨hmatcher ▸ hclaims, fun claims hsub => ?_, fun hnil => ?_⟩
          · rw [List.filterMap_cons, List.filterMap_cons, hrestored claims hsub]
          · rw [listFirst, if_pos hitem, hblank hnil]
        | null | bool | int | float | str | obj =>
          rw [hpresent] at h
          cases h
      | null | bool | int | float | str | arr => cases hitem

theorem restoreEntry_blank : restoreEntry claims (blankEntry matcher) = none := rfl

theorem hasMatcher_blank : hasMatcher matcher (blankEntry matcher) = true := by
  rw [blankEntry, hasMatcher]
  exact beq_self_eq_true matcher

theorem listFirst_append_of_none {entries' : List Value} (h : entries.any (hasMatcher matcher) = false) :
    listFirst matcher (entries ++ entries') = entries ++ listFirst matcher entries' := by
  induction entries with
  | nil => rfl
  | cons entry entries ih =>
    rw [List.any_cons, Bool.or_eq_false_iff] at h
    rw [List.cons_append, listFirst, if_neg (by rw [h.1]; decide), ih h.2, List.cons_append]

theorem listFirst_blank : listFirst matcher [blankEntry matcher] = [blankEntry matcher] := by
  rw [listFirst, if_pos hasMatcher_blank]
  rfl

theorem mergeEntry_spec {entry : Value} {before : List ClaimedHook}
    (h : mergeEntry event (entries, before) entry = .ok (merged, claims)) :
    claims = before ++ entryClaims event entry ∧
      MergedFrom (entryClaims event entry) (addBlank · (stringView (entry.get "matcher")))
        entries merged := by
  cases entry with
  | obj fields =>
    obtain ⟨⟨merged', claims'⟩, hmerged, h⟩ := bind_eq_ok h
    cases h
    have hgiven : listClaims event (matcherView fields) (((field fields "hooks").bind asArray).getD []) =
        entryClaims event (.obj fields) := rfl
    have hview : stringView ((Value.obj fields).get "matcher") = matcherView fields := rfl
    rw [hview]
    simp only at hmerged
    cases hany : entries.any (hasMatcher (matcherView fields)) with
    | true =>
      rw [hany, if_pos rfl] at hmerged
      obtain ⟨hclaims, hspec⟩ := mergeFirst_spec hmerged hany
      rw [hgiven] at hclaims
      rw [hclaims] at hspec ⊢
      refine ⟨rfl, hspec.restored, fun hnil => ?_⟩
      rw [hspec.blank hnil, addBlank, if_pos hany]
    | false =>
      rw [hany, if_neg Bool.false_ne_true] at hmerged
      obtain ⟨hclaims, hspec⟩ := mergeFirst_spec hmerged (by
        rw [List.any_append, List.any_cons, hasMatcher_blank, Bool.true_or, Bool.or_true])
      rw [hgiven] at hclaims
      rw [hclaims] at hspec ⊢
      refine ⟨rfl, fun claims hsub => ?_, fun hnil => ?_⟩
      · rw [hspec.restored claims hsub, List.filterMap_append,
          List.filterMap_cons_none restoreEntry_blank, List.filterMap_nil, List.append_nil]
      · rw [hspec.blank hnil, listFirst_append_of_none hany, listFirst_blank, addBlank,
          if_neg (by rw [hany]; decide)]
  | null | bool | int | float | str | arr => cases h

def templateMatchers (template : List Value) : List String :=
  template.map fun entry => stringView (entry.get "matcher")

theorem mergeEntries_spec {template : List Value} {before : List ClaimedHook}
    (h : template.foldlM (mergeEntry event) (entries, before) = .ok (merged, claims)) :
    claims = before ++ templateClaims event template ∧
      MergedFrom (templateClaims event template) ((templateMatchers template).foldl addBlank ·)
        entries merged := by
  induction template generalizing entries before with
  | nil =>
    cases h
    exact ⟨(List.append_nil _).symm, fun _ _ => rfl, fun _ => rfl⟩
  | cons entry template ih =>
    obtain ⟨⟨first, middle⟩, hfirst, h⟩ := bind_eq_ok h
    obtain ⟨hmiddle, hspec⟩ := mergeEntry_spec hfirst
    obtain ⟨hclaims, hspec'⟩ := ih h
    have hgiven : templateClaims event (entry :: template) =
        entryClaims event entry ++ templateClaims event template := rfl
    refine ⟨by rw [hclaims, hmiddle, List.append_assoc, hgiven], fun claims hsub => ?_, fun hnil => ?_⟩
    · rw [hgiven, List.forall_mem_append] at hsub
      rw [hspec'.restored claims hsub.2, hspec.restored claims hsub.1]
    · rw [hgiven, List.append_eq_nil_iff] at hnil
      rw [hspec'.blank hnil.2, hspec.blank hnil.1]
      rfl

end Entries

end RemyCC.Install
