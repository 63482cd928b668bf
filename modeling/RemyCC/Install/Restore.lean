import RemyCC.Install.Undo

/-!
# When a claim gives back the document before the merge

A claim names commands, not places: what the user had under a claimed command
goes with it, and so do the entries without hooks beside it.
-/

namespace RemyCC.Install

open Json Json.Value

/-- The document after the removal has the hooks of the one before the merge but
the cleared defaults, and its permissions. -/
structure Undone (join : String → String → String) (roots : Roots) (existing removed : Value) :
    Prop where
  hooks : ∀ event, hookEntries removed event =
    withoutDefaults join roots targetHooks event (hookEntries existing event)
  permissions : allowed removed = allowed existing

/-- The matchers of a template that no entry of the event has, each once. -/
def newMatchers (entries : List Value) : List String → List String → List String
  | _, [] => []
  | seen, matcher :: rest =>
    if entries.any (hasMatcher matcher) || seen.contains matcher then newMatchers entries seen rest
    else matcher :: newMatchers entries (seen ++ [matcher]) rest

def keptList (event : String) (entries : List Value) : List Value :=
  if (targetFor targetHooks event).isSome then retainNonempty entries else entries

/-- Where the template has hooks for the event, each entry holds a hook and none of
them is claimed. Where it has none, nothing without hooks is dropped and nothing
blank is added, but what the one takes away the other may put back. -/
structure Restorable (event : String) (template entries : List Value) : Prop where
  claimed : templateClaims event template ≠ [] → ∀ entry ∈ entries, holdsHooks entry = true ∧
    ∀ hook ∈ hooksOf entry,
      isClaimed (templateClaims event template) (stringView (entry.get "matcher")) hook = false
  unclaimed : templateClaims event template = [] →
    entries = keptList event entries ++
        (newMatchers (keptList event entries) [] (templateMatchers template)).map blankEntry ∧
      ∀ matcher ∈ templateMatchers template, ∀ entry,
        (keptList event entries).find? (hasMatcher matcher) = some entry →
          (entry.get "hooks").isSome

section Entries

variable {event matcher : String} {claims : List ClaimedHook} {entry : Value}
variable {entries : List Value}

theorem filterMap_eq_self_iff {α : Type} {l : List α} {f : α → Option α} :
    l.filterMap f = l ↔ ∀ x ∈ l, f x = some x := by
  induction l with
  | nil => exact iff_of_true rfl fun _ h => nomatch h
  | cons x l ih =>
    rw [List.filterMap_cons, List.forall_mem_cons, ← ih]
    cases f x with
    | none =>
      refine iff_of_false (fun h => ?_) fun h => nomatch h.1
      have hlength : (l.filterMap f).length = l.length + 1 := congrArg List.length h
      have hle := List.length_filterMap_le f l
      omega
    | some y => simp only [List.cons.injEq, Option.some.injEq]

theorem restoreEntry_eq_some_iff :
    restoreEntry claims entry = some entry ↔ holdsHooks entry = true ∧
      ∀ hook ∈ hooksOf entry, isClaimed claims (stringView (entry.get "matcher")) hook = false := by
  cases entry with
  | obj fields =>
    cases hfield : field fields "hooks" with
    | none =>
      have hnot (list : List Value) : field fields "hooks" ≠ some (.arr list) := by
        rw [hfield]
        exact fun h => by cases h
      rw [restoreEntry_unlisted hnot, holdsHooks_of_unlisted hnot]
      exact iff_of_false (fun h => by cases h) fun h => by cases h.1
    | some v =>
      cases v with
      | arr list =>
        have hhooks : hooksOf (.obj fields) = list := by rw [hooksOf, get_obj, hfield]; rfl
        have hholds : holdsHooks (.obj fields) = !list.isEmpty := by rw [holdsHooks, get_obj, hfield]; rfl
        have hview : stringView ((Value.obj fields).get "matcher") = matcherView fields := rfl
        rw [restoreEntry_list hfield, hhooks, hholds, hview]
        constructor
        · intro h
          split at h
          · cases h
          · next hnonempty =>
            have hfields := congrArg (field · "hooks") (Value.obj.inj (Option.some.inj h))
            simp only [field_setField_self, hfield, Option.some.injEq, Value.arr.injEq] at hfields
            rw [hfields] at hnonempty
            refine ⟨by simpa using hnonempty, fun hook hhook => ?_⟩
            simpa using List.filter_eq_self.mp hfields hook hhook
        · rintro ⟨hnonempty, hall⟩
          have hself : list.filter (!isClaimed claims (matcherView fields) ·) = list :=
            List.filter_eq_self.mpr fun hook hhook => by rw [hall hook hhook]; rfl
          rw [hself, setField_self hfield, if_neg (by simpa using hnonempty)]
      | null | bool | int | float | str | obj =>
        have hnot (list : List Value) : field fields "hooks" ≠ some (.arr list) := by
          rw [hfield]
          exact fun h => by cases h
        rw [restoreEntry_unlisted hnot, holdsHooks_of_unlisted hnot]
        exact iff_of_false (fun h => by cases h) fun h => by cases h.1
  | null | bool | int | float | str | arr =>
    exact iff_of_false (fun h => by cases h) fun h => by cases h.1

theorem holdsHooks_of_restoreEntry (h : (restoreEntry claims entry).isSome) :
    holdsHooks entry = true := by
  cases entry with
  | obj fields =>
    cases hfield : field fields "hooks" with
    | none =>
      rw [restoreEntry_unlisted (by rw [hfield]; exact fun _ h => by cases h)] at h
      cases h
    | some v =>
      cases v with
      | arr list =>
        rw [restoreEntry_list hfield] at h
        split at h
        · cases h
        · next hnonempty =>
          rw [holdsHooks, get_obj, hfield]
          cases list with
          | nil => exact absurd rfl hnonempty
          | cons => rfl
      | null | bool | int | float | str | obj =>
        rw [restoreEntry_unlisted (by rw [hfield]; exact fun _ h => by cases h)] at h
        cases h
  | null | bool | int | float | str | arr => cases h

theorem filterMap_keptList :
    (keptList event entries).filterMap (restoreEntry claims) =
      entries.filterMap (restoreEntry claims) := by
  unfold keptList
  split
  · rw [retainNonempty, List.filterMap_filter]
    refine List.filterMap_congr fun entry _ => ?_
    split
    · rfl
    · next hnot =>
      refine (Option.not_isSome_iff_eq_none.mp fun h => hnot ?_).symm
      exact holdsHooks_of_restoreEntry h
  · rfl

theorem hasMatcher_giveHooks : hasMatcher matcher (giveHooks entry) = hasMatcher matcher entry := by
  cases entry with
  | obj fields =>
    rw [giveHooks, setDefault]
    split
    · rfl
    · rw [hasMatcher, matcherView_setField, hasMatcher]
  | null | bool | int | float | str | arr => rfl

theorem any_listFirst (other : String) :
    (listFirst other entries).any (hasMatcher matcher) = entries.any (hasMatcher matcher) := by
  induction entries with
  | nil => rfl
  | cons entry entries ih =>
    rw [listFirst]
    split
    · rw [List.any_cons, List.any_cons, hasMatcher_giveHooks]
    · rw [List.any_cons, List.any_cons, ih]

theorem listFirst_append {entries' : List Value} (h : entries.any (hasMatcher matcher) = true) :
    listFirst matcher (entries ++ entries') = listFirst matcher entries ++ entries' := by
  induction entries with
  | nil => cases h
  | cons entry entries ih =>
    rw [List.cons_append, listFirst, listFirst]
    split
    · rfl
    · next hentry =>
      rw [List.any_cons, Bool.or_eq_true_iff] at h
      rw [ih (h.resolve_left hentry), List.cons_append]

theorem listFirst_blanks (matchers : List String) :
    listFirst matcher (matchers.map blankEntry) = matchers.map blankEntry := by
  induction matchers with
  | nil => rfl
  | cons other matchers ih =>
    rw [List.map_cons, listFirst, ih, ite_eq_right_iff]
    exact fun _ => rfl

theorem any_blanks (matchers : List String) :
    (matchers.map blankEntry).any (hasMatcher matcher) = matchers.contains matcher := by
  induction matchers with
  | nil => rfl
  | cons other matchers ih =>
    rw [List.map_cons, List.any_cons, ih, List.contains_cons]
    exact congrArg (· || matchers.contains matcher) BEq.comm

theorem length_listFirst : (listFirst matcher entries).length = entries.length := by
  induction entries with
  | nil => rfl
  | cons entry entries ih =>
    rw [listFirst]
    split
    · rfl
    · rw [List.length_cons, List.length_cons, ih]

theorem newMatchers_listFirst (other : String) (seen template : List String) :
    newMatchers (listFirst other entries) seen template = newMatchers entries seen template := by
  induction template generalizing seen with
  | nil => rfl
  | cons matcher template ih => rw [newMatchers, newMatchers, any_listFirst, ih, ih]

theorem listFirst_of_none (h : entries.any (hasMatcher matcher) = false) :
    listFirst matcher entries = entries := by
  have happend : listFirst matcher (entries ++ []) = entries ++ listFirst matcher [] :=
    listFirst_append_of_none h
  rwa [List.append_nil, listFirst, List.append_nil] at happend

theorem addBlanks_eq (entries : List Value) (seen template : List String) :
    template.foldl addBlank (entries ++ seen.map blankEntry) =
      template.foldl (fun entries matcher => listFirst matcher entries) entries ++
        (seen ++ newMatchers entries seen template).map blankEntry := by
  induction template generalizing entries seen with
  | nil => rw [newMatchers, List.append_nil]; rfl
  | cons matcher template ih =>
    rw [List.foldl_cons, List.foldl_cons, newMatchers, addBlank, List.any_append, any_blanks]
    cases hany : entries.any (hasMatcher matcher) with
    | true =>
      rw [Bool.true_or, if_pos rfl, if_pos rfl, listFirst_append hany, ih, newMatchers_listFirst]
    | false =>
      rw [Bool.false_or, listFirst_append_of_none hany, listFirst_blanks, listFirst_of_none hany]
      cases hseen : seen.contains matcher with
      | true => rw [if_pos rfl, if_pos rfl, ih]
      | false =>
        have hblanks : entries ++ seen.map blankEntry ++ [blankEntry matcher] =
            entries ++ (seen ++ [matcher]).map blankEntry := by
          rw [List.map_append, List.append_assoc]
          rfl
        rw [if_neg Bool.false_ne_true, if_neg Bool.false_ne_true, hblanks, ih, List.append_assoc]
        rfl

def isListed (entry : Value) : Bool := (entry.get "hooks").isSome

theorem listFirst_eq_self_iff :
    listFirst matcher entries = entries ↔
      ∀ entry, entries.find? (hasMatcher matcher) = some entry → isListed entry = true := by
  induction entries with
  | nil => exact iff_of_true rfl fun _ h => nomatch h
  | cons entry entries ih =>
    rw [listFirst]
    cases hentry : hasMatcher matcher entry with
    | true =>
      rw [if_pos rfl, List.find?_cons_of_pos hentry]
      simp only [List.cons.injEq, and_true, Option.some.injEq, forall_eq']
      cases entry with
      | obj fields =>
        rw [giveHooks, setDefault, isListed, get_obj]
        split
        · next h => exact iff_of_true rfl h
        · next h =>
          refine iff_of_false (fun heq => h ?_) h
          rw [← Value.obj.inj heq, field_setField_self]
          rfl
      | null | bool | int | float | str | arr => cases hentry
    | false =>
      rw [if_neg Bool.false_ne_true, List.find?_cons_of_neg (by rw [hentry]; decide), ← ih]
      simp only [List.cons.injEq, true_and]

theorem isListed_giveHooks (h : isListed entry = true) : giveHooks entry = entry := by
  cases entry with
  | obj fields =>
    have hfield : (field fields "hooks").isSome = true := h
    rw [giveHooks, setDefault, if_pos hfield]
  | null | bool | int | float | str | arr => rfl

theorem countP_listFirst :
    entries.countP isListed ≤ (listFirst matcher entries).countP isListed ∧
      ((listFirst matcher entries).countP isListed = entries.countP isListed →
        listFirst matcher entries = entries) := by
  induction entries with
  | nil => exact ⟨le_rfl, fun _ => rfl⟩
  | cons entry entries ih =>
    rw [listFirst]
    cases hentry : hasMatcher matcher entry with
    | true =>
      rw [if_pos rfl, List.countP_cons, List.countP_cons]
      cases hlisted : isListed entry with
      | true =>
        rw [isListed_giveHooks hlisted, hlisted]
        exact ⟨le_rfl, fun _ => rfl⟩
      | false =>
        have hgiven : isListed (giveHooks entry) = true := by
          cases entry with
          | obj fields =>
            have hnone : ¬(field fields "hooks").isSome = true := by
              rw [isListed, get_obj] at hlisted
              rw [hlisted]
              decide
            rw [giveHooks, setDefault, if_neg hnone, isListed, get_obj, field_setField_self]
            rfl
          | null | bool | int | float | str | arr => cases hentry
        rw [hgiven, if_pos rfl, if_neg Bool.false_ne_true]
        exact ⟨by omega, by omega⟩
    | false =>
      rw [if_neg Bool.false_ne_true, List.countP_cons, List.countP_cons]
      refine ⟨by omega, fun h => ?_⟩
      rw [ih.2 (by omega)]

theorem countP_listFirsts (entries : List Value) (template : List String) :
    entries.countP isListed ≤
        (template.foldl (fun entries matcher => listFirst matcher entries) entries).countP isListed := by
  induction template generalizing entries with
  | nil => exact le_rfl
  | cons matcher template ih => exact countP_listFirst.1.trans (ih _)

theorem listFirsts_eq_self_iff (template : List String) :
    template.foldl (fun entries matcher => listFirst matcher entries) entries = entries ↔
      ∀ matcher ∈ template, listFirst matcher entries = entries := by
  induction template with
  | nil => exact iff_of_true rfl fun _ h => nomatch h
  | cons matcher template ih =>
    rw [List.foldl_cons, List.forall_mem_cons]
    constructor
    · intro h
      have hcount := countP_listFirsts (listFirst matcher entries) template
      rw [h] at hcount
      have hfirst : listFirst matcher entries = entries :=
        countP_listFirst.2 (le_antisymm hcount countP_listFirst.1)
      rw [hfirst] at h
      exact ⟨hfirst, ih.mp h⟩
    · rintro ⟨hfirst, hrest⟩
      rw [hfirst]
      exact ih.mpr hrest

end Entries

section Theorem

variable {event : String} {template entries : List Value}

theorem isListed_of_holdsHooks {entry : Value} (h : holdsHooks entry = true) :
    isListed entry = true := by
  unfold isListed
  cases hget : entry.get "hooks" with
  | none =>
    rw [holdsHooks, hget] at h
    cases h
  | some v => rfl

theorem keptList_sublist : (keptList event entries).Sublist entries := by
  unfold keptList
  split
  · exact List.filter_sublist
  · exact List.Sublist.refl entries

/-- Adding blanks to the entries that are kept gives the entries back. -/
theorem addBlanks_eq_iff (matchers : List String) :
    matchers.foldl addBlank (keptList event entries) = entries ↔
      entries = keptList event entries ++
          (newMatchers (keptList event entries) [] matchers).map blankEntry ∧
        ∀ matcher ∈ matchers, ∀ entry,
          (keptList event entries).find? (hasMatcher matcher) = some entry →
            (entry.get "hooks").isSome := by
  have hlisted : (∀ matcher ∈ matchers, ∀ entry,
      (keptList event entries).find? (hasMatcher matcher) = some entry → isListed entry = true) ↔
        matchers.foldl (fun entries matcher => listFirst matcher entries) (keptList event entries) =
          keptList event entries := by
    rw [listFirsts_eq_self_iff]
    exact forall₂_congr fun matcher _ => listFirst_eq_self_iff.symm
  have hblanks := addBlanks_eq (keptList event entries) [] matchers
  rw [List.map_nil, List.append_nil, List.nil_append] at hblanks
  rw [hblanks]
  constructor
  · intro h
    have hself : matchers.foldl (fun entries matcher => listFirst matcher entries)
        (keptList event entries) = keptList event entries := by
      by_cases htarget : (targetFor targetHooks event).isSome
      · -- Every entry that is kept holds a hook, so none is changed.
        refine hlisted.mp fun matcher _ entry hfind => isListed_of_holdsHooks ?_
        have hmem := List.mem_of_find?_eq_some hfind
        rw [keptList, if_pos htarget] at hmem
        exact (List.mem_filter.mp hmem).2
      · -- All entries are kept, so the lengths leave no room for a blank.
        have hkept : keptList event entries = entries := if_neg htarget
        rw [hkept] at h ⊢
        have hlength : (matchers.foldl (fun entries matcher => listFirst matcher entries)
            entries).length = entries.length := by
          clear h hblanks hlisted hkept
          induction matchers generalizing entries with
          | nil => rfl
          | cons matcher matchers ih => rw [List.foldl_cons, ih, length_listFirst]
        exact (List.append_inj (h.trans (List.append_nil entries).symm) hlength).1
    rw [hself] at h
    exact ⟨h.symm, hlisted.mpr hself⟩
  · rintro ⟨h, hall⟩
    rw [hlisted.mp hall]
    exact h.symm

theorem keptEntries_arr :
    keptEntries targetHooks event (.arr entries) = .arr (keptList event entries) := by
  rw [keptEntries, keptList]
  split <;> rfl

/-- What the removal leaves of the entries of an event. -/
def removedAt (claims : List ClaimedHook) (merged : Value) : Value :=
  if claims = [] then merged else restoreAll claims merged

theorem removedAt_eq_iff {v merged : Value}
    (h : MergedAt event template (keptEntries targetHooks event v) merged) :
    removedAt (templateClaims event template) merged = v ↔
      Restorable event template (entriesOf v) := by
  unfold removedAt
  cases v with
  | arr entries =>
    rw [keptEntries_arr] at h
    obtain ⟨merged, rfl, hmerged⟩ := h.arr
    split
    · next hnil =>
      rw [hmerged.blank hnil, Value.arr.injEq, addBlanks_eq_iff]
      exact ⟨fun h => ⟨fun hne => absurd hnil hne, fun _ => h⟩, fun h => h.unclaimed hnil⟩
    · next hne =>
      rw [restoreAll, hmerged.restored _ fun _ h => h, filterMap_keptList, Value.arr.injEq,
        filterMap_eq_self_iff]
      simp only [restoreEntry_eq_some_iff]
      exact ⟨fun h => ⟨fun _ => h, fun hnil => absurd hnil hne⟩, fun h => h.claimed hne⟩
  | null | bool | int | float | str | obj =>
    cases h with
    | untouched _ hnil =>
      subst hnil
      refine iff_of_true (if_pos rfl) ⟨fun hne => absurd rfl hne, fun _ => ⟨?_, fun _ h => (by cases h)⟩⟩
      rw [keptList]
      split <;> rfl

variable {join : String → String → String} {roots : Roots} {commands : HookCommands}
variable {existing template merged : Value} {claim : SettingsClaim}

theorem removeSettingsClaim_spec (hexisting : wellKeyed existing = true)
    (htemplate : wellKeyed template = true)
    (hmerge : mergeSettingsDocument join roots existing template commands none =
      .ok (merged, claim)) :
    (∀ event, ∃ at',
      MergedAt event
          (entriesOf (hookEntries (renderTemplate template roots.claudeRoot commands) event))
          (keptEntries targetHooks event
            (withoutDefaults join roots targetHooks event (hookEntries existing event))) at' ∧
        hookEntries (removeSettingsClaimLenient merged claim) event =
          removedAt (templateClaims event (entriesOf
            (hookEntries (renderTemplate template roots.claudeRoot commands) event))) at') ∧
      allowed (removeSettingsClaimLenient merged claim) = allowed existing := by
  obtain ⟨result, rfl, hkeyed, hhooks, hpermissions, hat, allow, hallow, hallow', hfresh⟩ :=
    mergeSettingsDocument_spec hexisting htemplate rfl hmerge
  obtain ⟨hkeyed', hsections, hperms⟩ := removeClaimedHooks_sections claim hkeyed
  rw [← hperms] at hpermissions hallow'
  obtain ⟨hsame, hremoved⟩ := removeClaimedPermissions_sections claim hkeyed' hpermissions hallow'
  rw [removeSettingsClaimLenient]
  refine ⟨fun event => ?_, ?_⟩
  · obtain ⟨hclaims, hmerged⟩ := hat event
    refine ⟨_, hmerged, ?_⟩
    rw [hookEntries_obj, hsame, hsections, (removeClaims_spec hhooks claim.hooks).2, hclaims,
      removedAt]
  · have hkept : (allow ++ claim.permissions.map Value.str).filter
        (fun item => !item.asStr.any claim.permissions.contains) = allow := by
      rw [List.filter_append, List.filter_eq_self.mpr, List.filter_eq_nil_iff.mpr, List.append_nil]
      · intro item hitem
        obtain ⟨p, hp, rfl⟩ := List.mem_map.mp hitem
        simpa [asStr] using hp
      · intro item hitem
        cases htext : item.asStr with
        | none => rfl
        | some text =>
          have hnot : text ∉ claim.permissions := fun hmem => hfresh item hitem text hmem htext
          simpa using hnot
    rw [allowed_obj, hallow, ← hkept]
    exact hremoved

theorem removal_undoes_merge_iff (hexisting : wellKeyed existing = true)
    (htemplate : wellKeyed template = true)
    (hmerge : mergeSettingsDocument join roots existing template commands none =
      .ok (merged, claim)) :
    Undone join roots existing (removeSettingsClaimLenient merged claim) ↔
      ∀ event, Restorable event
        (entriesOf (hookEntries (renderTemplate template roots.claudeRoot commands) event))
        (entriesOf (withoutDefaults join roots targetHooks event (hookEntries existing event))) := by
  obtain ⟨hat, hpermissions⟩ := removeSettingsClaim_spec hexisting htemplate hmerge
  constructor
  · intro h event
    obtain ⟨at', hmerged, hremoved⟩ := hat event
    exact (removedAt_eq_iff hmerged).mp (hremoved.symm.trans (h.hooks event))
  · refine fun h => ⟨fun event => ?_, hpermissions⟩
    obtain ⟨at', hmerged, hremoved⟩ := hat event
    exact hremoved.trans ((removedAt_eq_iff hmerged).mpr (h event))

/-- A path and a segment with one slash between them. -/
def joinUnix (path segment : String) : String :=
  if path.isEmpty || Text.endsWith path "/" then path ++ segment else path ++ "/" ++ segment

def sampleRoots : Roots := ⟨"/home/u/.claude", "/home/u/.remy-cc"⟩

def sampleCommands : HookCommands :=
  ⟨"\"/home/u/.remy-cc/bin/remy-cc\" hook enrich", "\"/home/u/.remy-cc/bin/remy-cc\" hook dirty"⟩

def commandHook (command : String) : Value :=
  .obj [("type", .str "command"), ("command", .str command)]

def sessionEndTemplate : Value :=
  .obj [("hooks", .obj [("SessionEnd",
    .arr [.obj [("hooks", .arr [commandHook "python \"~/.claude/hooks/lifecycle_hook.py\""])]])])]

theorem removal_undoes_merge_iff_empty :
    ∃ merged claim,
      mergeSettingsDocument joinUnix sampleRoots (.obj []) sessionEndTemplate sampleCommands none =
        .ok (merged, claim) ∧
      (Undone joinUnix sampleRoots (.obj []) (removeSettingsClaimLenient merged claim) ↔
        ∀ event, Restorable event
          (entriesOf (hookEntries
            (renderTemplate sessionEndTemplate sampleRoots.claudeRoot sampleCommands) event))
          (entriesOf (withoutDefaults joinUnix sampleRoots targetHooks event
            (hookEntries (.obj []) event)))) := by
  obtain ⟨hok, hexisting, htemplate⟩ : (mergeSettingsDocument joinUnix sampleRoots (.obj [])
      sessionEndTemplate sampleCommands none).toOption.isSome = true ∧
      wellKeyed (.obj []) = true ∧ wellKeyed sessionEndTemplate = true := by decide +kernel
  cases hmerge : mergeSettingsDocument joinUnix sampleRoots (.obj []) sessionEndTemplate
      sampleCommands none with
  | error e =>
    rw [hmerge] at hok
    cases hok
  | ok r => exact ⟨r.1, r.2, rfl, removal_undoes_merge_iff hexisting htemplate hmerge⟩

/-- The user's own entry with the command that the template has at the same event. -/
def ownSessionEnd : Value :=
  .obj [("hooks", .obj [("SessionEnd",
    .arr [.obj [("hooks",
      .arr [commandHook "python \"/home/u/.claude/hooks/lifecycle_hook.py\""])]])])]

theorem own_hook_goes_with_claim :
    ∃ merged claim,
      mergeSettingsDocument joinUnix sampleRoots ownSessionEnd sessionEndTemplate sampleCommands none =
        .ok (merged, claim) ∧
      ¬Undone joinUnix sampleRoots ownSessionEnd (removeSettingsClaimLenient merged claim) := by
  obtain ⟨hleft, hbefore⟩ : (mergeSettingsDocument joinUnix sampleRoots ownSessionEnd
      sessionEndTemplate sampleCommands none).toOption.map (fun r =>
        (entriesOf (hookEntries (removeSettingsClaimLenient r.1 r.2) "SessionEnd")).length) =
        some 0 ∧
      (entriesOf (withoutDefaults joinUnix sampleRoots targetHooks "SessionEnd"
        (hookEntries ownSessionEnd "SessionEnd"))).length = 1 := by decide +kernel
  cases hmerge : mergeSettingsDocument joinUnix sampleRoots ownSessionEnd sessionEndTemplate
      sampleCommands none with
  | error e =>
    rw [hmerge] at hleft
    cases hleft
  | ok r =>
    refine ⟨r.1, r.2, rfl, fun h => ?_⟩
    rw [hmerge] at hleft
    have hzero : (entriesOf (hookEntries (removeSettingsClaimLenient r.1 r.2) "SessionEnd")).length =
        0 := Option.some.inj hleft
    rw [h.hooks "SessionEnd", hbefore] at hzero
    cases hzero

end Theorem

end RemyCC.Install
