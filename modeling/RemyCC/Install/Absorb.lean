import RemyCC.Install.Undo

/-!
# Merging a template again

Once a template is merged into some entries, all its commands stand in the first
entries with its matchers, and merging it again changes nothing.
-/

namespace RemyCC.Install

open Json Json.Value

section Lists

variable {event matcher : String} {present list hooks : List Value} {before claims : List ClaimedHook}

/-- One of some hooks runs the command of this one. -/
def Runs (present : List Value) (hook : Value) : Prop :=
  ∃ command, hookCommand hook = some command ∧
    present.any (hookCommand · == some command) = true

theorem Runs.mono {hook : Value} (h : Runs present hook) (hsub : ∀ hook ∈ present, hook ∈ hooks) :
    Runs hooks hook := by
  obtain ⟨command, hcommand, hany⟩ := h
  obtain ⟨current, hcurrent, heq⟩ := List.any_eq_true.mp hany
  exact ⟨command, hcommand, List.any_eq_true.mpr ⟨current, hsub current hcurrent, heq⟩⟩

theorem runs_of_mem {hook : Value} (hhook : hook ∈ present) (hcommand : (hookCommand hook).isSome) :
    Runs present hook := by
  obtain ⟨command, hcommand⟩ := Option.isSome_iff_exists.mp hcommand
  exact ⟨command, hcommand, List.any_eq_true.mpr ⟨hook, hhook, by simp [hcommand]⟩⟩

theorem mergeHook_eq {hook : Value} {command : String} (h : hookCommand hook = some command) :
    mergeHook event matcher (present, before) hook =
      .ok (if present.any (hookCommand · == some command) then present else present ++ [hook],
        before ++ [⟨event, matcher, command⟩]) := by
  obtain ⟨text, htext, rfl⟩ := Option.map_eq_some_iff.mp h
  simp only [mergeHook, htext]

theorem hookCommand_of_mergeHook {hook : Value} {result : List Value × List ClaimedHook}
    (h : mergeHook event matcher (present, before) hook = .ok result) : (hookCommand hook).isSome := by
  unfold mergeHook at h
  unfold hookCommand
  cases htext : (hook.get "command").bind asStr with
  | none =>
    rw [htext] at h
    cases h
  | some text => rfl

theorem mergeList_runs (h : mergeList event matcher present list = .ok (hooks, claims)) :
    ∀ hook ∈ list, Runs hooks hook := by
  unfold mergeList at h
  generalize ([] : List ClaimedHook) = before at h
  induction list generalizing present before with
  | nil => exact fun _ hhook => absurd hhook List.not_mem_nil
  | cons hook list ih =>
    obtain ⟨⟨present', before'⟩, hstep, h⟩ := bind_eq_ok h
    obtain ⟨command, hcommand⟩ := Option.isSome_iff_exists.mp (hookCommand_of_mergeHook hstep)
    rw [mergeHook_eq hcommand] at hstep
    refine List.forall_mem_cons.mpr ⟨?_, ih _ h⟩
    have hsub : ∀ current ∈ present', current ∈ hooks := by
      obtain ⟨⟨pushed, rfl, -⟩, -⟩ := mergeList_spec_from h
      exact fun current hcurrent => List.mem_append_left _ hcurrent
    refine Runs.mono ⟨command, hcommand, ?_⟩ hsub
    obtain ⟨hpresent, -⟩ := Prod.mk.inj (Except.ok.inj hstep)
    rw [← hpresent]
    split
    · next hany => exact hany
    · simp [hcommand]

/-- A list whose commands are all there adds nothing but its claims. -/
theorem mergeList_of_runs (h : ∀ hook ∈ list, Runs present hook) :
    mergeList event matcher present list = .ok (present, listClaims event matcher list) := by
  suffices ∀ before, list.foldlM (mergeHook event matcher) (present, before) =
      .ok (present, before ++ listClaims event matcher list) from this []
  induction list with
  | nil => exact fun before => congrArg (fun c => Except.ok (present, c)) (List.append_nil _).symm
  | cons hook list ih =>
    intro before
    obtain ⟨⟨command, hcommand, hany⟩, hlist⟩ := List.forall_mem_cons.mp h
    rw [List.foldlM_cons, mergeHook_eq hcommand, if_pos hany, listClaims_cons hcommand]
    refine (ih hlist _).trans ?_
    rw [List.append_assoc]
    rfl

end Lists

section Entries

variable {event matcher : String} {entry item : Value} {entries merged list : List Value}
  {claims before : List ClaimedHook} {template : List Value}

/-- The first entry with the matcher of a template entry runs all commands of it. -/
structure Absorbs (entry : Value) (entries : List Value) : Prop where
  fields : ∃ fields, entry = .obj fields
  first : ∃ fields list, entries.find? (hasMatcher (stringView (entry.get "matcher"))) =
    some (.obj fields) ∧ field fields "hooks" = some (.arr list) ∧ ∀ hook ∈ hooksOf entry, Runs list hook

/-- Merging leaves every first entry in its place, with more hooks at most. -/
def Grows (entries merged : List Value) : Prop :=
  ∀ matcher fields list, entries.find? (hasMatcher matcher) = some (.obj fields) →
    field fields "hooks" = some (.arr list) →
    ∃ fields' list', merged.find? (hasMatcher matcher) = some (.obj fields') ∧
      field fields' "hooks" = some (.arr list') ∧ ∀ hook ∈ list, hook ∈ list'

theorem Grows.refl (entries : List Value) : Grows entries entries := fun _ fields list hfind hlist =>
  ⟨fields, list, hfind, hlist, fun _ hhook => hhook⟩

theorem Grows.trans {final : List Value} (h : Grows entries merged) (h' : Grows merged final) :
    Grows entries final := by
  intro matcher fields list hfind hlist
  obtain ⟨fields', list', hfind', hlist', hsub⟩ := h matcher fields list hfind hlist
  obtain ⟨fields'', list'', hfind'', hlist'', hsub'⟩ := h' matcher fields' list' hfind' hlist'
  exact ⟨fields'', list'', hfind'', hlist'', fun hook hhook => hsub' hook (hsub hook hhook)⟩

theorem Absorbs.grow (h : Absorbs entry entries) (hgrows : Grows entries merged) :
    Absorbs entry merged := by
  obtain ⟨fields, list, hfind, hlist, hruns⟩ := h.first
  obtain ⟨fields', list', hfind', hlist', hsub⟩ := hgrows _ fields list hfind hlist
  exact ⟨h.fields, fields', list', hfind', hlist', fun hook hhook => (hruns hook hhook).mono hsub⟩

theorem hasMatcher_setField {fields : List (String × Value)} {v : Value} (other : String) :
    hasMatcher other (.obj (setField "hooks" v fields)) = hasMatcher other (.obj fields) := by
  rw [hasMatcher, matcherView_setField, hasMatcher]

theorem Grows.cons (h : Grows entries merged) (item : Value) :
    Grows (item :: entries) (item :: merged) := by
  intro matcher fields list hfind hlist
  rw [List.find?_cons] at hfind ⊢
  split at hfind
  · exact ⟨fields, list, hfind, hlist, fun _ hhook => hhook⟩
  · exact h matcher fields list hfind hlist

theorem grows_append (entries added : List Value) : Grows entries (entries ++ added) :=
  fun matcher fields list hfind hlist =>
    ⟨fields, list, by rw [List.find?_append, hfind, Option.some_or], hlist, fun _ hhook => hhook⟩

theorem grows_extended {fields : List (String × Value)} {present hooks : List Value}
    (hpresent : (field fields "hooks").getD (.arr []) = .arr present)
    (hsub : ∀ hook ∈ present, hook ∈ hooks) :
    Grows (.obj fields :: entries) (.obj (setField "hooks" (.arr hooks) fields) :: entries) := by
  intro matcher fields' list hfind hlist
  rw [List.find?_cons] at hfind ⊢
  rw [hasMatcher_setField]
  cases hfirst : hasMatcher matcher (.obj fields) with
  | true =>
    rw [hfirst] at hfind
    cases hfind
    rw [hlist, Option.getD_some] at hpresent
    cases hpresent
    exact ⟨_, hooks, rfl, field_setField_self, hsub⟩
  | false =>
    rw [hfirst] at hfind
    exact ⟨fields', list, hfind, hlist, fun _ hhook => hhook⟩

theorem mergeFirst_grows (h : mergeFirst event matcher list entries = .ok (merged, claims))
    (hany : entries.any (hasMatcher matcher) = true) :
    Grows entries merged ∧ ∃ fields hooks, merged.find? (hasMatcher matcher) = some (.obj fields) ∧
      field fields "hooks" = some (.arr hooks) ∧ ∀ hook ∈ list, Runs hooks hook := by
  induction entries generalizing merged with
  | nil => cases hany
  | cons item items ih =>
    cases hitem : hasMatcher matcher item with
    | false =>
      rw [List.any_cons, hitem, Bool.false_or] at hany
      simp only [mergeFirst, hitem] at h
      obtain ⟨⟨merged', claims'⟩, hmerged, h⟩ := bind_eq_ok h
      cases h
      obtain ⟨hgrows, fields, hooks, hfind, hrest⟩ := ih hmerged hany
      refine ⟨hgrows.cons item, fields, hooks, ?_, hrest⟩
      rw [List.find?_cons, hitem]
      exact hfind
    | true =>
      cases item with
      | obj fields =>
        simp only [mergeFirst, hitem] at h
        cases hpresent : (field fields "hooks").getD (.arr []) with
        | arr present =>
          rw [hpresent] at h
          obtain ⟨⟨hooks, claims'⟩, hlist, h⟩ := bind_eq_ok h
          cases h
          obtain ⟨⟨pushed, rfl, -⟩, -⟩ := mergeList_spec hlist
          refine ⟨grows_extended hpresent fun hook hhook => List.mem_append_left _ hhook,
            setField "hooks" (.arr (present ++ pushed)) fields, present ++ pushed, ?_,
            field_setField_self, mergeList_runs hlist⟩
          rw [List.find?_cons, hasMatcher_setField, hitem]
        | null | bool | int | float | str | obj =>
          rw [hpresent] at h
          cases h
      | null | bool | int | float | str | arr => cases hitem

theorem mergeEntry_grows (h : mergeEntry event (entries, before) entry = .ok (merged, claims)) :
    Grows entries merged ∧ Absorbs entry merged := by
  cases entry with
  | obj fields =>
    obtain ⟨⟨merged', claims'⟩, hmerged, h⟩ := bind_eq_ok h
    cases h
    simp only at hmerged
    split at hmerged
    · next hany =>
      obtain ⟨hgrows, hfirst⟩ := mergeFirst_grows hmerged hany
      exact ⟨hgrows, ⟨fields, rfl⟩, hfirst⟩
    · obtain ⟨hgrows, hfirst⟩ := mergeFirst_grows hmerged (by
        rw [List.any_append, List.any_cons, hasMatcher_blank, Bool.true_or, Bool.or_true])
      exact ⟨(grows_append entries _).trans hgrows, ⟨fields, rfl⟩, hfirst⟩
  | null | bool | int | float | str | arr => cases h

theorem mergeEntries_grows (h : template.foldlM (mergeEntry event) (entries, before) =
    .ok (merged, claims)) : Grows entries merged ∧ ∀ entry ∈ template, Absorbs entry merged := by
  induction template generalizing entries before with
  | nil =>
    cases h
    exact ⟨.refl _, fun _ hentry => absurd hentry List.not_mem_nil⟩
  | cons entry template ih =>
    obtain ⟨⟨first, middle⟩, hfirst, h⟩ := bind_eq_ok h
    obtain ⟨hgrows, habsorbs⟩ := mergeEntry_grows hfirst
    obtain ⟨hgrows', habsorbs'⟩ := ih h
    exact ⟨hgrows.trans hgrows',
      List.forall_mem_cons.mpr ⟨habsorbs.grow hgrows', habsorbs'⟩⟩

theorem mergeFirst_of_runs {fields : List (String × Value)} {present : List Value}
    (hfind : entries.find? (hasMatcher matcher) = some (.obj fields))
    (hpresent : field fields "hooks" = some (.arr present)) (hruns : ∀ hook ∈ list, Runs present hook) :
    mergeFirst event matcher list entries = .ok (entries, listClaims event matcher list) := by
  induction entries with
  | nil => cases hfind
  | cons item items ih =>
    rw [List.find?_cons] at hfind
    cases hitem : hasMatcher matcher item with
    | false =>
      rw [hitem] at hfind
      simp only [mergeFirst, hitem, ih hfind]
      rfl
    | true =>
      rw [hitem] at hfind
      cases hfind
      simp only [mergeFirst, hitem, hpresent, Option.getD_some, mergeList_of_runs hruns]
      change Except.ok (Value.obj (setField "hooks" (.arr present) fields) :: items, _) = _
      rw [setField_self hpresent]

theorem any_of_find {fields : List (String × Value)}
    (hfind : entries.find? (hasMatcher matcher) = some (.obj fields)) :
    entries.any (hasMatcher matcher) = true :=
  List.any_eq_true.mpr ⟨_, List.mem_of_find?_eq_some hfind, List.find?_some hfind⟩

theorem Absorbs.mergeEntry (h : Absorbs entry entries) (before : List ClaimedHook) :
    mergeEntry event (entries, before) entry = .ok (entries, before ++ entryClaims event entry) := by
  obtain ⟨⟨fields, rfl⟩, fields', list, hfind, hlist, hruns⟩ := h
  change entries.find? (hasMatcher (matcherView fields)) = _ at hfind
  simp only [Install.mergeEntry, any_of_find hfind, if_true]
  have hmerged : mergeFirst event _ _ _ = _ := mergeFirst_of_runs hfind hlist hruns
  rw [hooksOf, get_obj] at hmerged
  rw [hmerged]
  rfl

/-- Merging entries that are absorbed gives their claims and changes nothing. -/
theorem mergeEntries_of_absorbed (h : ∀ entry ∈ template, Absorbs entry entries)
    (before : List ClaimedHook) : template.foldlM (Install.mergeEntry event) (entries, before) =
      .ok (entries, before ++ templateClaims event template) := by
  induction template generalizing before with
  | nil => exact congrArg (fun c => Except.ok (entries, c)) (List.append_nil _).symm
  | cons entry template ih =>
    obtain ⟨hentry, htemplate⟩ := List.forall_mem_cons.mp h
    rw [List.foldlM_cons, hentry.mergeEntry before]
    refine (ih htemplate _).trans ?_
    rw [List.append_assoc]
    rfl

end Entries

end RemyCC.Install
