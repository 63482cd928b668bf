import RemyCC.Install.Merge

/-!
# Taking a claim back

The removal of the claim that a merge returned, compared with the document
before the merge: the permissions always come back, and for each event there is
an exact condition on its entries.
-/

namespace RemyCC.Install

open Json Json.Value

section Events

variable {hooks merged : List (String × Value)} {claims before : List ClaimedHook}
variable {template : List (String × Value)} {event : String}

/-- The merge of the entries of a template into what stands at an event. -/
inductive MergedAt (event : String) (template : List Value) : Value → Value → Prop
  | untouched (v : Value) : template = [] → MergedAt event template v v
  | merged {entries merged : List Value} :
    MergedFrom (templateClaims event template) ((templateMatchers template).foldl addBlank ·)
      entries merged → MergedAt event template (.arr entries) (.arr merged)

theorem MergedAt.eq_of_nil {v w : Value} (h : MergedAt event [] v w) : w = v := by
  cases h with
  | untouched => rfl
  | merged h => rw [h.blank rfl]; rfl

theorem MergedAt.arr {template : List Value} {entries : List Value} {w : Value}
    (h : MergedAt event template (.arr entries) w) :
    ∃ merged, w = .arr merged ∧
      MergedFrom (templateClaims event template) ((templateMatchers template).foldl addBlank ·)
        entries merged := by
  cases h with
  | untouched _ hnil =>
    subst hnil
    exact ⟨entries, rfl, fun _ _ => rfl, fun _ => rfl⟩
  | merged h => exact ⟨_, rfl, h⟩

theorem entriesAt_setField (entries : List Value) (other : String) :
    entriesAt (setField event (.arr entries) hooks) other =
      if other = event then .arr entries else entriesAt hooks other := by
  unfold entriesAt
  split
  · next h => rw [h, field_setField_self, Option.getD_some]
  · next h => rw [field_setField_of_ne h]

theorem entriesAt_cons {f : String × Value} :
    entriesAt (f :: template) event = if f.1 = event then f.2 else entriesAt template event := by
  unfold entriesAt
  rw [field_cons]
  split <;> rfl

theorem entriesAt_of_fresh (h : event ∉ template.map Prod.fst) : entriesAt template event = .arr [] := by
  unfold entriesAt
  cases hfield : field template event with
  | none => rfl
  | some v => exact absurd (List.mem_map_of_mem (mem_of_field hfield)) h

def documentClaims (template : List (String × Value)) : List ClaimedHook :=
  template.flatMap fun f => templateClaims f.1 (entriesOf f.2)

theorem event_of_mem_templateClaims {entries : List Value} {item : ClaimedHook}
    (h : item ∈ templateClaims event entries) : item.event = event := by
  obtain ⟨entry, -, h⟩ := List.mem_flatMap.mp h
  obtain ⟨hook, -, h⟩ := List.mem_filterMap.mp h
  obtain ⟨command, -, rfl⟩ := Option.map_eq_some_iff.mp h
  rfl

theorem documentClaims_filter (hkeyed : Keyed template) (event : String) :
    (documentClaims template).filter (·.event == event) =
      templateClaims event (entriesOf (entriesAt template event)) := by
  induction template with
  | nil => rfl
  | cons f template ih =>
    obtain ⟨hfresh, hkeyed⟩ := List.nodup_cons.mp hkeyed
    rw [documentClaims, List.flatMap_cons, List.filter_append, entriesAt_cons]
    change _ ++ (documentClaims template).filter (·.event == event) = _
    rw [ih hkeyed]
    split
    · next hevent =>
      subst hevent
      rw [entriesAt_of_fresh hfresh]
      rw [List.filter_eq_self.mpr fun item hitem =>
        beq_iff_eq.mpr (event_of_mem_templateClaims hitem)]
      exact List.append_nil _
    · next hevent =>
      rw [List.filter_eq_nil_iff.mpr fun item hitem heq =>
        hevent ((event_of_mem_templateClaims hitem).symm.trans (beq_iff_eq.mp heq))]
      rfl

theorem mergeEvent_spec {f : String × Value} (hkeyed : Keyed hooks)
    (h : mergeEvent (hooks, before) f = .ok (merged, claims)) :
    Keyed merged ∧ claims = before ++ templateClaims f.1 (entriesOf f.2) ∧
      MergedAt f.1 (entriesOf f.2) (entriesAt hooks f.1) (entriesAt merged f.1) ∧
      ∀ event ≠ f.1, entriesAt merged event = entriesAt hooks event := by
  obtain ⟨key, v⟩ := f
  cases v with
  | arr entries =>
    simp only [mergeEvent] at h
    cases hat : (field hooks key).getD (.arr []) with
    | arr destination =>
      rw [hat] at h
      obtain ⟨⟨merged', claims'⟩, hmerged, h⟩ := bind_eq_ok h
      cases h
      obtain ⟨hclaims, hspec⟩ := mergeEntries_spec hmerged
      refine ⟨hkeyed.setField, hclaims, ?_, fun event hevent => ?_⟩
      · rw [entriesAt_setField, if_pos rfl, entriesAt, hat]
        exact .merged hspec
      · rw [entriesAt_setField, if_neg hevent]
    | null | bool | int | float | str | obj =>
      rw [hat] at h
      cases h
  | null | bool | int | float | str | obj => cases h

theorem mergeEvents_spec (htemplate : Keyed template) (hkeyed : Keyed hooks)
    (h : template.foldlM mergeEvent (hooks, before) = .ok (merged, claims)) :
    Keyed merged ∧ claims = before ++ documentClaims template ∧
      ∀ event, MergedAt event (entriesOf (entriesAt template event)) (entriesAt hooks event)
        (entriesAt merged event) := by
  induction template generalizing hooks before with
  | nil =>
    cases h
    exact ⟨hkeyed, (List.append_nil _).symm, fun event => .untouched _ rfl⟩
  | cons f template ih =>
    obtain ⟨⟨first, middle⟩, hfirst, h⟩ := bind_eq_ok h
    obtain ⟨hfresh, htemplate⟩ := List.nodup_cons.mp htemplate
    obtain ⟨hkeyed, hmiddle, hself, hother⟩ := mergeEvent_spec hkeyed hfirst
    obtain ⟨hkeyed, hclaims, hat⟩ := ih htemplate hkeyed h
    refine ⟨hkeyed, ?_, fun event => ?_⟩
    · rw [hclaims, hmiddle, List.append_assoc]
      rfl
    · rw [entriesAt_cons]
      split
      · next hevent =>
        subst hevent
        have hlast := hat f.1
        rw [entriesAt_of_fresh hfresh] at hlast
        rwa [hlast.eq_of_nil]
      · next hevent => exact hother event (Ne.symm hevent) ▸ hat event

end Events

section Removal

variable {hooks settings : List (String × Value)} {claims rest : List ClaimedHook}
variable {item : ClaimedHook} {event : String}

def restoreAll (claims : List ClaimedHook) : Value → Value
  | .arr entries => .arr (entries.filterMap (restoreEntry claims))
  | v => v

theorem dropHooks_eq (item : ClaimedHook) (entry : Value) :
    dropHooks item entry = withoutClaimed [item] entry := by
  cases entry with
  | obj fields =>
    simp only [dropHooks]
    cases hfield : field fields "hooks" with
    | none => simp only [withoutClaimed, hfield, ite_self]
    | some v =>
      cases v with
      | arr list =>
        rw [withoutClaimed_list hfield]
        split
        · next hmatcher =>
          have hkept : list.filter (!isClaimed [item] (matcherView fields) ·) = list :=
            List.filter_eq_self.mpr fun hook _ => by
              simp only [isClaimed, List.any_cons, List.any_nil, Bool.or_false, Bool.not_eq_true',
                Bool.and_eq_false_iff, beq_eq_false_iff_ne]
              exact .inl (Ne.symm hmatcher)
          rw [hkept, setField_self hfield]
        · next hmatcher =>
          have heq : item.matcher = matcherView fields := (not_not.mp hmatcher).symm
          simp only [isClaimed, List.any_cons, List.any_nil, Bool.or_false, heq, beq_self_eq_true,
            Bool.true_and, bne]
      | null | bool | int | float | str | obj =>
        simp only [withoutClaimed, hfield, ite_self]
  | null | bool | int | float | str | arr => rfl

theorem retain_dropHooks (item : ClaimedHook) (entries : List Value) :
    retainNonempty (entries.map (dropHooks item)) = entries.filterMap (restoreEntry [item]) := by
  unfold retainNonempty
  induction entries with
  | nil => rfl
  | cons entry entries ih =>
    rw [List.map_cons, List.filter_cons, List.filterMap_cons, restoreEntry, ih, dropHooks_eq]
    split <;> rfl

theorem restoreEntry_bind (entry : Value) :
    (restoreEntry [item] entry).bind (restoreEntry rest) = restoreEntry (item :: rest) entry := by
  cases entry with
  | obj fields =>
    cases hfield : field fields "hooks" with
    | none =>
      have hnot (list : List Value) : field fields "hooks" ≠ some (.arr list) := by
        rw [hfield]
        exact nofun
      rw [restoreEntry_unlisted hnot, restoreEntry_unlisted hnot, Option.bind_none]
    | some v =>
      cases v with
      | arr list =>
        have hsplit : list.filter (!isClaimed (item :: rest) (matcherView fields) ·) =
            (list.filter (!isClaimed [item] (matcherView fields) ·)).filter
              (!isClaimed rest (matcherView fields) ·) := by
          rw [List.filter_filter]
          refine List.filter_congr fun hook _ => ?_
          simp only [isClaimed, List.any_cons, List.any_nil, Bool.or_false, Bool.not_or, Bool.and_comm]
        rw [restoreEntry_list hfield, restoreEntry_list hfield, hsplit]
        split
        · next hempty =>
          rw [List.isEmpty_iff.mp hempty]
          rfl
        · rw [Option.bind_some, restoreEntry_list field_setField_self, matcherView_setField,
            setField_setField]
      | null | bool | int | float | str | obj =>
        have hnot (list : List Value) : field fields "hooks" ≠ some (.arr list) := by
          rw [hfield]
          exact nofun
        rw [restoreEntry_unlisted hnot, restoreEntry_unlisted hnot, Option.bind_none]
  | null | bool | int | float | str | arr => rfl

theorem restoreAll_restoreAll (v : Value) :
    restoreAll rest (restoreAll [item] v) = restoreAll (item :: rest) v := by
  cases v with
  | arr entries =>
    rw [restoreAll, restoreAll, List.filterMap_filterMap]
    simp only [restoreEntry_bind, restoreAll]
  | null | bool | int | float | str | obj => rfl

theorem removeClaimedHook_spec (hkeyed : Keyed hooks) (item : ClaimedHook) :
    Keyed (removeClaimedHook hooks item) ∧ ∀ event,
      entriesAt (removeClaimedHook hooks item) event =
        if event = item.event then restoreAll [item] (entriesAt hooks event)
        else entriesAt hooks event := by
  have hunlisted (hnot : ∀ entries, field hooks item.event ≠ some (.arr entries)) (event : String) :
      entriesAt hooks event = if event = item.event then restoreAll [item] (entriesAt hooks event)
        else entriesAt hooks event := by
    split
    · next h =>
      rw [h, entriesAt]
      cases hfield : field hooks item.event with
      | none => rfl
      | some v =>
        cases v with
        | arr entries => exact absurd hfield (hnot entries)
        | null | bool | int | float | str | obj => rfl
    · rfl
  unfold removeClaimedHook
  split
  · next entries hentries =>
    refine ⟨setEntries_keyed hkeyed _, fun event => ?_⟩
    rw [entriesAt_setEntries hkeyed, retain_dropHooks]
    split
    · next h => rw [h, entriesAt, hentries, Option.getD_some, restoreAll]
    · rfl
  · next hnot => exact ⟨hkeyed, hunlisted hnot⟩

theorem removeClaims_spec (hkeyed : Keyed hooks) (claims : List ClaimedHook) :
    Keyed (claims.foldl removeClaimedHook hooks) ∧ ∀ event,
      entriesAt (claims.foldl removeClaimedHook hooks) event =
        if claims.filter (·.event == event) = [] then entriesAt hooks event
        else restoreAll (claims.filter (·.event == event)) (entriesAt hooks event) := by
  induction claims generalizing hooks with
  | nil => exact ⟨hkeyed, fun event => (if_pos rfl).symm⟩
  | cons item claims ih =>
    obtain ⟨hkeyed, hat⟩ := removeClaimedHook_spec hkeyed item
    obtain ⟨hkeyed, hat'⟩ := ih hkeyed
    refine ⟨hkeyed, fun event => ?_⟩
    rw [List.foldl_cons, hat', hat]
    by_cases hevent : event = item.event
    · rw [List.filter_cons_of_pos (by simpa using hevent.symm), if_pos hevent,
        if_neg (List.cons_ne_nil _ _), restoreAll_restoreAll]
      split
      · next hnil => rw [hnil]
      · rfl
    · rw [List.filter_cons_of_neg (by simpa using Ne.symm hevent), if_neg hevent]

theorem removeClaimedHook_nil : removeClaimedHook [] item = [] := rfl

theorem sectionOf_setSection_self {key : String} {fields : List (String × Value)}
    (hkeyed : Keyed settings) : sectionOf key (setSection key fields settings) = fields := by
  unfold setSection
  split
  · next hempty =>
    rw [sectionOf, hkeyed.field_removeField, if_pos rfl, List.isEmpty_iff.mp hempty]
  · exact sectionOf_setField_self

theorem sectionOf_setSection_of_ne {key other : String} {fields : List (String × Value)}
    (hkeyed : Keyed settings) (h : key ≠ other) :
    sectionOf key (setSection other fields settings) = sectionOf key settings := by
  unfold setSection
  split
  · rw [sectionOf, hkeyed.field_removeField, if_neg h, sectionOf]
  · exact sectionOf_setField_of_ne h

theorem setSection_keyed {key : String} {fields : List (String × Value)} (hkeyed : Keyed settings) :
    Keyed (setSection key fields settings) := by
  unfold setSection
  split
  · exact hkeyed.removeField
  · exact hkeyed.setField

theorem removeClaimedHooks_sections (claim : SettingsClaim) (hkeyed : Keyed settings) :
    Keyed (removeClaimedHooks claim settings) ∧
      sectionOf "hooks" (removeClaimedHooks claim settings) =
        claim.hooks.foldl removeClaimedHook (sectionOf "hooks" settings) ∧
      sectionOf "permissions" (removeClaimedHooks claim settings) =
        sectionOf "permissions" settings := by
  unfold removeClaimedHooks
  split
  · next hooks hfield =>
    refine ⟨setSection_keyed hkeyed, ?_, sectionOf_setSection_of_ne hkeyed (by decide)⟩
    rw [sectionOf_setSection_self hkeyed, sectionOf, hfield]
  · next hfield =>
    have hempty : sectionOf "hooks" settings = [] := by
      unfold sectionOf
      split
      · next hooks h => exact absurd h (hfield hooks)
      · rfl
    refine ⟨hkeyed, ?_, rfl⟩
    rw [hempty]
    induction claim.hooks with
    | nil => rfl
    | cons item items ih => rw [List.foldl_cons, removeClaimedHook_nil, ← ih]

theorem removeClaimedPermissions_sections (claim : SettingsClaim) (hkeyed : Keyed settings)
    (hpermissions : Keyed (sectionOf "permissions" settings)) {allow : List Value}
    (hallow : entriesAt (sectionOf "permissions" settings) "allow" = .arr allow) :
    sectionOf "hooks" (removeClaimedPermissions claim settings) = sectionOf "hooks" settings ∧
      entriesAt (sectionOf "permissions" (removeClaimedPermissions claim settings)) "allow" =
        .arr (allow.filter fun item => !item.asStr.any claim.permissions.contains) := by
  unfold removeClaimedPermissions
  split
  · next permissions hfield =>
    have hsection : sectionOf "permissions" settings = permissions := by rw [sectionOf, hfield]
    rw [hsection] at hpermissions hallow
    refine ⟨sectionOf_setSection_of_ne hkeyed (by decide), ?_⟩
    rw [sectionOf_setSection_self hkeyed]
    unfold entriesAt at hallow
    split
    · next allow' hfield' =>
      rw [hfield'] at hallow
      cases hallow
      rw [entriesAt_setEntries hpermissions, if_pos rfl]
    · next hnot =>
      rw [entriesAt]
      cases hfield' : field permissions "allow" with
      | none =>
        rw [hfield'] at hallow
        cases hallow
        rfl
      | some v =>
        rw [hfield', Option.getD_some] at hallow
        exact absurd (hallow ▸ hfield') (hnot allow)
  · next hfield =>
    refine ⟨rfl, ?_⟩
    have hempty : sectionOf "permissions" settings = [] := by
      unfold sectionOf
      split
      · next permissions h => exact absurd h (hfield permissions)
      · rfl
    rw [hempty] at hallow ⊢
    cases hallow
    rfl

end Removal

section Documents

variable {settings result : List (String × Value)} {rendered template : Value}
variable {join : String → String → String} {roots : Roots} {commands : HookCommands}

theorem section?_eq {key message : String} {v : Value} {fields : List (String × Value)}
    (h : section? key message v = .ok fields) (event : String) :
    (v.get key).bind (·.get event) = field fields event ∧
      (fields = [] ∨ v.get key = some (.obj fields)) := by
  unfold section? at h
  cases hget : v.get key with
  | none =>
    rw [hget] at h
    cases h
    exact ⟨rfl, .inl rfl⟩
  | some w =>
    rw [hget] at h
    cases w with
    | obj fields' =>
      cases h
      exact ⟨rfl, .inr rfl⟩
    | null | bool | int | float | str | arr => cases h

theorem mergeHooks_spec {claims : List ClaimedHook}
    (hrendered : ∀ fields, rendered.get "hooks" = some (.obj fields) → Keyed fields)
    (hkeyed : Keyed settings) (hhooks : Keyed (sectionOf "hooks" settings))
    (h : mergeHooks rendered settings = .ok (result, claims)) :
    Keyed result ∧ Keyed (sectionOf "hooks" result) ∧
      (∀ key ≠ "hooks", sectionOf key result = sectionOf key settings) ∧
      ∀ event,
        claims.filter (·.event == event) =
          templateClaims event (entriesOf (hookEntries rendered event)) ∧
        MergedAt event (entriesOf (hookEntries rendered event))
          (entriesAt (sectionOf "hooks" settings) event)
          (entriesAt (sectionOf "hooks" result) event) := by
  obtain ⟨template, htemplate, h⟩ := bind_eq_ok h
  cases hfield : (field settings "hooks").getD (.obj []) with
  | obj hooks =>
    rw [hfield] at h
    obtain ⟨⟨merged, claims'⟩, hmerged, h⟩ := bind_eq_ok h
    cases h
    rw [sectionOf_of_getD hfield] at hhooks ⊢
    have hkeys : Keyed template := by
      rcases (section?_eq htemplate "").2 with rfl | hget
      · exact List.nodup_nil
      · exact hrendered template hget
    obtain ⟨hmergedKeyed, hclaims, hat⟩ := mergeEvents_spec hkeys hhooks hmerged
    rw [sectionOf_setField_self]
    refine ⟨hkeyed.setField, hmergedKeyed, fun key hkey => sectionOf_setField_of_ne hkey,
      fun event => ?_⟩
    have hentries : hookEntries rendered event = entriesAt template event := by
      rw [hookEntries, (section?_eq htemplate event).1, entriesAt]
    rw [hentries, hclaims, List.nil_append, documentClaims_filter hkeys]
    exact ⟨rfl, hat event⟩
  | null | bool | int | float | str | arr =>
    rw [hfield] at h
    cases h

theorem mergePermission_fold (list : List String) (allow : List Value) (before : List String) :
    ∃ added : List String,
      list.foldl (mergePermission []) (allow, before) = (allow ++ added.map .str, before ++ added) ∧
        ∀ item ∈ allow, ∀ p ∈ added, item.asStr ≠ some p := by
  induction list generalizing allow before with
  | nil => exact ⟨[], by simp, fun _ _ _ h => nomatch h⟩
  | cons permission list ih =>
    rw [List.foldl_cons, mergePermission]
    split
    · next hnew =>
      obtain ⟨added, hadded, hfresh⟩ := ih (allow ++ [.str permission]) (before ++ [permission])
      refine ⟨permission :: added, by rw [hadded]; simp, fun item hitem p hp => ?_⟩
      rcases List.mem_cons.mp hp with rfl | hp
      · have hnone := List.any_eq_false.mp ((Bool.not_eq_true' _).mp hnew) item hitem
        exact fun heq => hnone (beq_iff_eq.mpr heq)
      · exact hfresh item (List.mem_append_left _ hitem) p hp
    · rw [if_neg (by simp)]
      exact ih allow before

theorem mergePermissions_spec {claims : List String} (hkeyed : Keyed settings)
    (hpermissions : Keyed (sectionOf "permissions" settings))
    (h : mergePermissions rendered none settings = .ok (result, claims)) :
    Keyed result ∧ Keyed (sectionOf "permissions" result) ∧
      (∀ key ≠ "permissions", sectionOf key result = sectionOf key settings) ∧
      ∃ allow : List Value, entriesAt (sectionOf "permissions" settings) "allow" = .arr allow ∧
        entriesAt (sectionOf "permissions" result) "allow" = .arr (allow ++ claims.map .str) ∧
        ∀ item ∈ allow, ∀ p ∈ claims, item.asStr ≠ some p := by
  obtain ⟨template, -, h⟩ := bind_eq_ok h
  cases hfield : (field settings "permissions").getD (.obj []) with
  | obj permissions =>
    rw [hfield] at h
    rw [sectionOf_of_getD hfield] at hpermissions ⊢
    simp only at h
    cases hallow : (field permissions "allow").getD (.arr []) with
    | arr allow =>
      rw [hallow] at h
      obtain ⟨added, hadded, hfresh⟩ := mergePermission_fold template allow []
      simp only [Option.elim_none, hadded, List.nil_append] at h
      cases h
      rw [sectionOf_setField_self]
      refine ⟨hkeyed.setField, hpermissions.setField, fun key hkey => sectionOf_setField_of_ne hkey,
        allow, hallow, ?_, hfresh⟩
      rw [entriesAt_setField, if_pos rfl]
    | null | bool | int | float | str | obj =>
      rw [hallow] at h
      cases h
  | null | bool | int | float | str | arr =>
    rw [hfield] at h
    cases h

theorem setDefault_sections (hkeyed : Keyed settings) (f : String × Value) :
    Keyed (setDefault settings f) ∧
      ∀ key ≠ f.1, sectionOf key (setDefault settings f) = sectionOf key settings := by
  unfold setDefault
  split
  · exact ⟨hkeyed, fun _ _ => rfl⟩
  · exact ⟨hkeyed.setField, fun key hkey => sectionOf_setField_of_ne hkey⟩

theorem copyMissing_sections (rendered : Value) (key : String) (hkeyed : Keyed settings) :
    Keyed (copyMissing rendered settings key) ∧
      ∀ other ≠ key, sectionOf other (copyMissing rendered settings key) = sectionOf other settings := by
  unfold copyMissing
  split
  · next v _ => exact setDefault_sections hkeyed (key, v)
  · exact ⟨hkeyed, fun _ _ => rfl⟩

theorem mergeEnv_spec (hkeyed : Keyed settings) (h : mergeEnv rendered settings = .ok result) :
    Keyed result ∧ ∀ key ≠ "env", sectionOf key result = sectionOf key settings := by
  obtain ⟨template, -, h⟩ := bind_eq_ok h
  cases hfield : (field settings "env").getD (.obj []) with
  | obj env =>
    rw [hfield] at h
    cases h
    exact ⟨hkeyed.setField, fun key hkey => sectionOf_setField_of_ne hkey⟩
  | null | bool | int | float | str | arr =>
    rw [hfield] at h
    cases h

theorem renderTemplate_keyed (claudeRoot : String) (htemplate : wellKeyed template = true)
    {fields : List (String × Value)}
    (h : (renderTemplate template claudeRoot commands).get "hooks" = some (.obj fields)) :
    Keyed fields := by
  cases template with
  | obj settings =>
    simp only [renderTemplate] at h
    cases hfield : field settings "hooks" with
    | none =>
      rw [hfield] at h
      simp only [get_obj, hfield] at h
      cases h
    | some v =>
      rw [hfield] at h
      cases v with
      | obj hooks =>
        rw [get_obj, field_setField_self] at h
        cases h
        have hkeyed := wellKeyed_keyed (wellKeyed_field htemplate hfield)
        unfold Keyed
        rwa [List.map_map]
      | null | bool | int | float | str | arr =>
        simp only [get_obj, hfield] at h
        cases h
  | null | bool | int | float | str | arr => cases h

/-- The merge as its document and its claim show it. -/
theorem mergeSettingsDocument_spec {existing merged : Value} {claim : SettingsClaim}
    (hexisting : wellKeyed existing = true) (htemplate : wellKeyed template = true)
    (hrendered : renderTemplate template roots.claudeRoot commands = rendered)
    (h : mergeSettingsDocument join roots existing template commands none = .ok (merged, claim)) :
    ∃ result, merged = .obj result ∧ Keyed result ∧ Keyed (sectionOf "hooks" result) ∧
      Keyed (sectionOf "permissions" result) ∧
      (∀ event,
        claim.hooks.filter (·.event == event) =
          templateClaims event (entriesOf (hookEntries rendered event)) ∧
        MergedAt event (entriesOf (hookEntries rendered event))
          (keptEntries targetHooks event
            (withoutDefaults join roots targetHooks event (hookEntries existing event)))
          (entriesAt (sectionOf "hooks" result) event)) ∧
      ∃ allow : List Value, allowed existing = .arr allow ∧
        entriesAt (sectionOf "permissions" result) "allow" =
          .arr (allow ++ claim.permissions.map .str) ∧
        ∀ item ∈ allow, ∀ p ∈ claim.permissions, item.asStr ≠ some p := by
  cases existing with
  | obj settings =>
    have hkeyed := wellKeyed_keyed hexisting
    simp only [mergeSettingsDocument, hrendered] at h
    obtain ⟨cleared, hcleared, h⟩ := bind_eq_ok h
    obtain ⟨⟨hooked, hooks⟩, hhooked, h⟩ := bind_eq_ok h
    obtain ⟨⟨permitted, permissions⟩, hpermitted, h⟩ := bind_eq_ok h
    obtain ⟨final, hfinal, h⟩ := bind_eq_ok h
    cases h
    have hkeys (fields : List (String × Value)) (hget : rendered.get "hooks" = some (.obj fields)) :
        Keyed fields := renderTemplate_keyed roots.claudeRoot htemplate (hrendered ▸ hget)
    obtain ⟨k₁, kh₁, hother₁, hat₁⟩ :=
      removePriorTargetHooks_spec hkeyed (sectionOf_keyed hexisting "hooks") hcleared
    obtain ⟨k₂, kh₂, hother₂, hat₂⟩ := mergeHooks_spec hkeys k₁ kh₁ hhooked
    have hperms : sectionOf "permissions" hooked = sectionOf "permissions" settings := by
      rw [hother₂ _ (by decide), sectionOf, hother₁ _ (by decide), sectionOf]
    have kp₂ : Keyed (sectionOf "permissions" hooked) :=
      hperms ▸ sectionOf_keyed hexisting "permissions"
    obtain ⟨k₃, kp₃, hother₃, allow, hallow, hallow', hfresh⟩ :=
      mergePermissions_spec k₂ kp₂ hpermitted
    obtain ⟨k₄, hother₄⟩ := mergeEnv_spec k₃ hfinal
    obtain ⟨k₅, hother₅⟩ := copyMissing_sections rendered "outputStyle" k₄
    obtain ⟨k₆, hother₆⟩ := copyMissing_sections rendered "spinnerTipsEnabled" k₅
    refine ⟨_, rfl, k₆.removeField, ?_⟩
    have hlast (key : String) (hkey : key ∈ ["hooks", "permissions"]) :
        sectionOf key (removeField "mcpServers"
          (["outputStyle", "spinnerTipsEnabled"].foldl (copyMissing rendered) final)) =
          sectionOf key permitted := by
      have hne : key ≠ "mcpServers" ∧ key ≠ "spinnerTipsEnabled" ∧ key ≠ "outputStyle" ∧
          key ≠ "env" := by
        simp only [List.mem_cons, List.not_mem_nil, or_false] at hkey
        rcases hkey with rfl | rfl <;> decide
      rw [List.foldl_cons, List.foldl_cons, List.foldl_nil, sectionOf, k₆.field_removeField,
        if_neg hne.1, ← sectionOf.eq_def, hother₆ _ hne.2.1, hother₅ _ hne.2.2.1, hother₄ _ hne.2.2.2]
    rw [hlast "hooks" (by decide), hlast "permissions" (by decide), hother₃ _ (by decide)]
    refine ⟨kh₂, kp₃, fun event => ?_, allow, ?_, hallow', hfresh⟩
    · obtain ⟨hclaims, hmerged⟩ := hat₂ event
      refine ⟨hclaims, ?_⟩
      rwa [hookEntries_obj, ← hat₁]
    · rw [allowed_obj, ← hperms]
      exact hallow
  | null | bool | int | float | str | arr => cases h

end Documents

end RemyCC.Install
