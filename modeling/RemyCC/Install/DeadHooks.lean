import RemyCC.Install.Settings

/-!
# Hooks of deleted scripts

After a cleanup the hooks whose command holds the name of a deleted script go
out of the settings, and with them the entries and events without a hook. Which
of these hooks may go is a parameter here.
-/

namespace RemyCC.Install

open Json Json.Value Text

section Removal

variable (names : List String)

def normalizedCommand (hook : Value) : String :=
  replaceChar '\\' '/' (((hook.get "command").bind asStr).getD "")

def mentions (hook : Value) : Bool :=
  names.any fun name => contains (normalizedCommand hook) name

def hookList (entry : Value) : Option (List Value) := (entry.get "hooks").bind asArray

def pruneEntry (entry : Value) : Value :=
  match entry, hookList entry with
  | .obj fields, some list =>
    .obj (setField "hooks" (.arr (list.filter fun hook => !mentions names hook)) fields)
  | _, _ => entry

def shortened (entry : Value) : Bool :=
  (hookList entry).any fun list =>
    (list.filter fun hook => !mentions names hook).length != list.length

/-- An entry without a list of hooks stays. -/
def staysIn (entry : Value) : Bool := (hookList entry).all fun list => !list.isEmpty

def pruneEntries (entries : List Value) : List Value :=
  (entries.map (pruneEntry names)).filter staysIn

def pruneEvent : Value → Value
  | .arr entries => .arr (pruneEntries names entries)
  | entries => entries

def pruneHooks (hooks : List (String × Value)) : List (String × Value) :=
  hooks.map fun f => (f.1, pruneEvent names f.2)

def emptyEvents (hooks : List (String × Value)) : List String :=
  (hooks.filter fun f => f.2.asArray.any List.isEmpty).map Prod.fst

def removeEvents (events : List String) (hooks : List (String × Value)) : List (String × Value) :=
  events.foldl (fun hooks event => removeField event hooks) hooks

def shortens (hooks : List (String × Value)) : Bool :=
  hooks.any fun f => f.2.asArray.any fun entries => entries.any (shortened names)

/-- The document that the settings are replaced by, if anything in it changes. -/
def removeDead (document : Value) : Option Value :=
  match document, (document.get "hooks").bind asObject with
  | .obj fields, some hooks =>
    let pruned := pruneHooks names hooks
    let empty := emptyEvents pruned
    if shortens names hooks || !empty.isEmpty then
      some (.obj (setField "hooks" (.obj (removeEvents empty pruned)) fields))
    else none
  | _, _ => none

end Removal

section Thinned

/-- What a list becomes when some of its elements are changed and some left out. -/
inductive Thinned {α : Type} (kept : α → α → Prop) (gone : α → Prop) : List α → List α → Prop
  | nil : Thinned kept gone [] []
  | keep {a b : α} {as bs : List α} (h : kept a b) (rest : Thinned kept gone as bs) :
    Thinned kept gone (a :: as) (b :: bs)
  | drop {a : α} {as bs : List α} (h : gone a) (rest : Thinned kept gone as bs) :
    Thinned kept gone (a :: as) bs

variable {α : Type} {kept : α → α → Prop} {gone : α → Prop} {as bs : List α}

theorem Thinned.mem (h : Thinned kept gone as bs) {a : α} (ha : a ∈ as) :
    gone a ∨ ∃ b ∈ bs, kept a b := by
  induction h with
  | nil => cases ha
  | keep hkept rest ih =>
    rcases List.mem_cons.mp ha with rfl | ha
    · exact .inr ⟨_, List.mem_cons_self, hkept⟩
    · exact (ih ha).imp_right fun ⟨b, hb, hkept⟩ => ⟨b, List.mem_cons_of_mem _ hb, hkept⟩
  | drop hgone rest ih =>
    rcases List.mem_cons.mp ha with rfl | ha
    · exact .inl hgone
    · exact ih ha

theorem Thinned.of_map {f : α → α} {p : α → Bool} (hkept : ∀ a ∈ as, p (f a) = true → kept a (f a))
    (hgone : ∀ a ∈ as, p (f a) = false → gone a) : Thinned kept gone as ((as.map f).filter p) := by
  induction as with
  | nil => exact .nil
  | cons a as ih =>
    have hrest := ih (fun b hb => hkept b (List.mem_cons_of_mem a hb))
      fun b hb => hgone b (List.mem_cons_of_mem a hb)
    rw [List.map_cons]
    cases hp : p (f a) with
    | true =>
      rw [List.filter_cons_of_pos hp]
      exact .keep (hkept a List.mem_cons_self hp) hrest
    | false =>
      rw [List.filter_cons_of_neg (by rw [hp]; decide)]
      exact .drop (hgone a List.mem_cons_self hp) hrest

theorem thinned_refl (hkept : ∀ a, kept a a)
    (as : List α) : Thinned kept gone as as := by
  induction as with
  | nil => exact .nil
  | cons a as ih => exact .keep (hkept a) ih

theorem Thinned.of_filter {p : α → Bool} (hgone : ∀ a ∈ as, p a = false → gone a) :
    Thinned Eq gone as (as.filter p) := by
  have h : Thinned Eq gone as ((as.map id).filter p) := Thinned.of_map (fun _ _ _ => rfl) hgone
  rwa [List.map_id] at h

end Thinned

section Cleaned

variable (may : Value → Prop)

/-- Of an entry at most hooks that may go are left out. -/
inductive EntryCleaned : Value → Value → Prop
  | same (entry : Value) : EntryCleaned entry entry
  | thinned {fields : List (String × Value)} {list list' : List Value}
    (hlist : field fields "hooks" = some (.arr list)) (h : Thinned Eq may list list') :
    EntryCleaned (.obj fields) (.obj (setField "hooks" (.arr list') fields))

/-- An entry goes with the last of its hooks. -/
def Emptied (entry : Value) : Prop :=
  ∃ list, hookList entry = some list ∧ list ≠ [] ∧ ∀ hook ∈ list, may hook

inductive EventCleaned : Option Value → Option Value → Prop
  | same (entries : Option Value) : EventCleaned entries entries
  | thinned {entries entries' : List Value}
    (h : Thinned (EntryCleaned may) (Emptied may) entries entries') :
    EventCleaned (some (.arr entries)) (some (.arr entries'))
  | emptied {entries : List Value} (hne : entries ≠ [])
    (h : Thinned (EntryCleaned may) (Emptied may) entries []) :
    EventCleaned (some (.arr entries)) none

/-- The documents differ at most in hooks that may go, and in what these leave empty. -/
inductive Cleaned : Value → Value → Prop
  | intro {fields fields' hooks hooks' : List (String × Value)}
    (hhooks : field fields "hooks" = some (.obj hooks))
    (hhooks' : field fields' "hooks" = some (.obj hooks'))
    (hrest : ∀ key, key ≠ "hooks" → field fields' key = field fields key)
    (hevents : ∀ event, EventCleaned may (field hooks event) (field hooks' event)) :
    Cleaned (.obj fields) (.obj fields')

/-- The entry stands under one of the events. -/
def EntryOf (hooks : List (String × Value)) (entry : Value) : Prop :=
  ∃ event entries, field hooks event = some (.arr entries) ∧ entry ∈ entries

/-- Every hook that a name is found in may go, every event has an entry that is not without
hooks, and if a name is found, then all entries are such. -/
structure Separable (names : List String) (hooks : List (String × Value)) : Prop where
  found : ∀ entry, EntryOf hooks entry → ∀ list, hookList entry = some list →
    ∀ hook ∈ list, mentions names hook = true → may hook
  events : ∀ event entries, field hooks event = some (.arr entries) →
    ∃ entry ∈ entries, hookList entry ≠ some []
  entries : (∃ entry, EntryOf hooks entry ∧ shortened names entry = true) →
    ∀ entry, EntryOf hooks entry → hookList entry ≠ some []

end Cleaned

section Fields

variable {names : List String} {hooks : List (String × Value)}

theorem field_pruneHooks (names : List String) (hooks : List (String × Value)) (event : String) :
    field (pruneHooks names hooks) event = (field hooks event).map (pruneEvent names) := by
  unfold pruneHooks
  induction hooks with
  | nil => rfl
  | cons f hooks ih =>
    rw [List.map_cons, field_cons, field_cons, ih]
    split <;> rfl

theorem keyed_pruneHooks (hkeyed : Keyed hooks) : Keyed (pruneHooks names hooks) := by
  unfold Keyed pruneHooks
  rw [List.map_map]
  exact hkeyed

theorem field_removeEvents (hkeyed : Keyed hooks) (events : List String) (key : String) :
    field (removeEvents events hooks) key = if key ∈ events then none else field hooks key := by
  induction events generalizing hooks with
  | nil => rw [if_neg List.not_mem_nil]; rfl
  | cons event events ih =>
    have hremoved : Keyed (removeField event hooks) := hkeyed.removeField
    have hrest := ih hremoved
    rw [hkeyed.field_removeField] at hrest
    change field (removeEvents events (removeField event hooks)) key = _
    rw [hrest]
    by_cases hkey : key = event
    · rw [if_pos hkey, if_pos (List.mem_cons.mpr (.inl hkey)), ite_self]
    · simp only [List.mem_cons, hkey, false_or, if_false]

theorem mem_emptyEvents (hkeyed : Keyed hooks) {event : String} :
    event ∈ emptyEvents hooks ↔ field hooks event = some (.arr []) := by
  rw [field_eq_some_iff hkeyed, emptyEvents, List.mem_map]
  constructor
  · rintro ⟨⟨key, v⟩, hf, rfl⟩
    obtain ⟨hf, hempty⟩ := List.mem_filter.mp hf
    cases v with
    | arr items =>
      rw [List.isEmpty_iff.mp hempty] at hf
      exact hf
    | _ => cases hempty
  · exact fun hf => ⟨(event, .arr []), List.mem_filter.mpr ⟨hf, rfl⟩, rfl⟩

end Fields

section Pruned

variable {names : List String} {may : Value → Prop} {entry : Value}

theorem pruneEntry_of_list {fields : List (String × Value)} {list : List Value}
    (h : hookList (.obj fields) = some list) : pruneEntry names (.obj fields) =
      .obj (setField "hooks" (.arr (list.filter fun hook => !mentions names hook)) fields) := by
  unfold pruneEntry
  rw [h]

theorem pruneEntry_of_none (h : hookList entry = none) : pruneEntry names entry = entry := by
  unfold pruneEntry
  rw [h]
  cases entry <;> rfl

theorem hookList_setField (fields : List (String × Value)) (list : List Value) :
    hookList (.obj (setField "hooks" (.arr list) fields)) = some list := by
  unfold hookList Value.get
  rw [asObject, Option.bind_some, field_setField_self]
  rfl

theorem hookList_obj {list : List Value} (h : hookList entry = some list) :
    ∃ fields, entry = .obj fields ∧ field fields "hooks" = some (.arr list) := by
  cases entry with
  | obj fields =>
    obtain ⟨v, hv, hlist⟩ := Option.bind_eq_some_iff.mp h
    cases v with
    | arr items =>
      cases hlist
      exact ⟨fields, rfl, hv⟩
    | _ => cases hlist
  | _ => cases h

/-- What is left of the hooks of an entry. -/
theorem hookList_pruneEntry (names : List String) (entry : Value) :
    hookList (pruneEntry names entry) =
      (hookList entry).map fun list => list.filter fun hook => !mentions names hook := by
  cases hlist : hookList entry with
  | none => rw [pruneEntry_of_none hlist, hlist]; rfl
  | some list =>
    obtain ⟨fields, rfl, -⟩ := hookList_obj hlist
    rw [pruneEntry_of_list hlist, hookList_setField]
    rfl

theorem shortened_iff : shortened names entry = true ↔
    ∃ list, hookList entry = some list ∧ ∃ hook ∈ list, mentions names hook = true := by
  unfold shortened
  rw [Option.any_eq_true]
  refine exists_congr fun list => and_congr_right fun _ => ?_
  rw [bne_iff_ne, ne_eq, List.length_filter_eq_length_iff]
  simp

theorem EntryCleaned.list {entry' : Value} (h : EntryCleaned may entry entry') {list : List Value}
    (hlist : hookList entry = some list) :
    ∃ list', hookList entry' = some list' ∧ Thinned Eq may list list' := by
  cases h with
  | same =>
    exact ⟨list, hlist, thinned_refl (fun _ => rfl) list⟩
  | thinned hfield hthin =>
    obtain ⟨_, hobj, hfield'⟩ := hookList_obj hlist
    cases hobj
    cases hfield.symm.trans hfield'
    exact ⟨_, hookList_setField _ _, hthin⟩

theorem mem_pruneEntries {entries : List Value} (h : entry ∈ pruneEntries names entries) :
    staysIn entry = true ∧ ∀ list, hookList entry = some list →
      ∀ hook ∈ list, mentions names hook = false := by
  obtain ⟨hmem, hstays⟩ := List.mem_filter.mp h
  refine ⟨hstays, fun list hlist hook hhook => ?_⟩
  obtain ⟨entry', -, rfl⟩ := List.mem_map.mp hmem
  rw [hookList_pruneEntry] at hlist
  obtain ⟨list', -, rfl⟩ := Option.map_eq_some_iff.mp hlist
  simpa using (List.mem_filter.mp hhook).2

/-- The entries that are kept are cleaned ones, and an entry that goes has lost its hooks. -/
theorem pruneEntries_thinned {entries : List Value}
    (hfound : ∀ entry ∈ entries, ∀ list, hookList entry = some list →
      ∀ hook ∈ list, mentions names hook = true → may hook)
    (hentries : ∀ entry ∈ entries, hookList entry ≠ some []) :
    Thinned (EntryCleaned may) (Emptied may) entries (pruneEntries names entries) := by
  refine Thinned.of_map (fun entry hentry _ => ?_) fun entry hentry hgone => ?_
  · cases hlist : hookList entry with
    | none =>
      rw [pruneEntry_of_none hlist]
      exact .same entry
    | some list =>
      obtain ⟨fields, rfl, hfield⟩ := hookList_obj hlist
      rw [pruneEntry_of_list hlist]
      exact .thinned hfield (Thinned.of_filter fun hook hhook hmentions =>
        hfound _ hentry list hlist hook hhook (by simpa using hmentions))
  · rw [staysIn, hookList_pruneEntry] at hgone
    cases hlist : hookList entry with
    | none =>
      rw [hlist] at hgone
      cases hgone
    | some list =>
      rw [hlist, Option.map_some, Option.all_some, Bool.not_eq_false', List.isEmpty_iff,
        List.filter_eq_nil_iff] at hgone
      exact ⟨list, hlist, fun hnil => hentries entry hentry (by rw [hlist, hnil]),
        fun hook hhook => hfound entry hentry list hlist hook hhook
          (by simpa using hgone hook hhook)⟩

/-- What the entries under an event become. -/
def prunedEvent (names : List String) (entries : Option Value) : Option Value :=
  match entries.map (pruneEvent names) with
  | some (.arr []) => none
  | entries => entries

theorem prunedEvent_arr (names : List String) (entries : List Value) :
    prunedEvent names (some (.arr entries)) = if pruneEntries names entries = [] then none
      else some (.arr (pruneEntries names entries)) := by
  unfold prunedEvent
  rw [Option.map_some, pruneEvent]
  cases pruneEntries names entries with
  | nil => rfl
  | cons entry entries => rfl

theorem EventCleaned.of_some {entries entries' : List Value} {after : Option Value}
    (h : EventCleaned may (some (.arr entries)) after) (hafter : after = some (.arr entries')) :
    Thinned (EntryCleaned may) (Emptied may) entries entries' := by
  cases h with
  | same =>
    cases hafter
    exact thinned_refl .same entries
  | thinned hthin =>
    cases hafter
    exact hthin
  | emptied => cases hafter

/-- If an event was cleaned, then it had entries, and they were thinned to what was kept. -/
theorem eventCleaned_iff {entries : List Value} :
    EventCleaned may (some (.arr entries)) (prunedEvent names (some (.arr entries))) ↔
      entries ≠ [] ∧
        Thinned (EntryCleaned may) (Emptied may) entries (pruneEntries names entries) := by
  rw [prunedEvent_arr]
  constructor
  · intro h
    split at h
    · next hnil =>
      rw [hnil]
      cases h with
      | emptied hne hthin => exact ⟨hne, hthin⟩
    · next hne =>
      refine ⟨?_, h.of_some rfl⟩
      rintro rfl
      exact hne rfl
  · rintro ⟨hne, hthin⟩
    split
    · next hnil => exact .emptied hne (hnil ▸ hthin)
    · exact .thinned hthin

theorem thinned_iff {entries : List Value} :
    Thinned (EntryCleaned may) (Emptied may) entries (pruneEntries names entries) ↔
      (∀ entry ∈ entries, ∀ list, hookList entry = some list →
        ∀ hook ∈ list, mentions names hook = true → may hook) ∧
      ∀ entry ∈ entries, hookList entry ≠ some [] := by
  refine ⟨fun h => ⟨fun entry hentry list hlist hook hhook hmentions => ?_,
    fun entry hentry hlist => ?_⟩, fun h => pruneEntries_thinned h.1 h.2⟩
  · rcases h.mem hentry with ⟨list', hlist', -, hmay⟩ | ⟨entry', hentry', hcleaned⟩
    · cases hlist.symm.trans hlist'
      exact hmay hook hhook
    · obtain ⟨list', hlist', hthin⟩ := hcleaned.list hlist
      rcases hthin.mem hhook with hmay | ⟨hook', hhook', rfl⟩
      · exact hmay
      · have hnone := (mem_pruneEntries hentry').2 list' hlist' hook hhook'
        rw [hnone] at hmentions
        cases hmentions
  · rcases h.mem hentry with ⟨list', hlist', hne, -⟩ | ⟨entry', hentry', hcleaned⟩
    · cases hlist.symm.trans hlist'
      exact hne rfl
    · obtain ⟨list', hlist', hthin⟩ := hcleaned.list hlist
      cases hthin
      have hstays := (mem_pruneEntries hentry').1
      rw [staysIn, hlist'] at hstays
      cases hstays

end Pruned

section Documents

variable {names : List String} {may : Value → Prop} {fields hooks : List (String × Value)}

theorem field_pruned (hkeyed : Keyed hooks) (event : String) :
    field (removeEvents (emptyEvents (pruneHooks names hooks))
      (pruneHooks names hooks)) event =
        prunedEvent names (field hooks event) := by
  have hpruned : Keyed (pruneHooks names hooks) := keyed_pruneHooks hkeyed
  have hempty : event ∈ emptyEvents _ ↔ _ := mem_emptyEvents hpruned
  rw [field_pruneHooks] at hempty
  rw [field_removeEvents hpruned, field_pruneHooks]
  unfold prunedEvent
  split
  · next hmem => rw [hempty.mp hmem]
  · next hmem =>
    split
    · next heq => exact absurd (hempty.mpr heq) hmem
    · rfl

theorem eventCleaned_of_not_arr {v : Option Value} (h : ∀ entries, v ≠ some (.arr entries)) :
    EventCleaned may v (prunedEvent names v) := by
  have hsame : prunedEvent names v = v := by
    unfold prunedEvent
    cases v with
    | none => rfl
    | some v =>
      cases v with
      | arr entries => exact absurd rfl (h entries)
      | _ => rfl
  rw [hsame]
  exact .same v

/-- Every event is cleaned if every hook that a name is found in may go and no list was empty. -/
theorem events_cleaned_iff : (∀ event, EventCleaned may (field hooks event)
      (prunedEvent names (field hooks event))) ↔
    (∀ entry, EntryOf hooks entry → ∀ list, hookList entry = some list →
      ∀ hook ∈ list, mentions names hook = true → may hook) ∧
    (∀ event, field hooks event ≠ some (.arr [])) ∧
    ∀ entry, EntryOf hooks entry → hookList entry ≠ some [] := by
  constructor
  · intro h
    have hevent (event : String) (entries : List Value)
        (hentries : field hooks event = some (.arr entries)) := by
      have hcleaned := h event
      rw [hentries, eventCleaned_iff, thinned_iff] at hcleaned
      exact hcleaned
    refine ⟨?_, fun event hempty => (hevent event [] hempty).1 rfl, ?_⟩
    · rintro entry ⟨event, entries, hentries, hentry⟩
      exact (hevent event entries hentries).2.1 entry hentry
    · rintro entry ⟨event, entries, hentries, hentry⟩
      exact (hevent event entries hentries).2.2 entry hentry
  · rintro ⟨hfound, hevents, hentries⟩ event
    by_cases harr : ∃ entries, field hooks event = some (.arr entries)
    · obtain ⟨entries, harr⟩ := harr
      rw [harr, eventCleaned_iff, thinned_iff]
      refine ⟨?_, fun entry hentry => hfound entry ⟨event, entries, harr, hentry⟩,
        fun entry hentry => hentries entry ⟨event, entries, harr, hentry⟩⟩
      rintro rfl
      exact hevents event harr
    · exact eventCleaned_of_not_arr fun entries heq => harr ⟨entries, heq⟩

/-- A document is written again if a name is found in it, or an event is left without entries. -/
theorem written_iff (names : List String) (hkeyed : Keyed hooks) :
    (shortens names hooks || !(emptyEvents (pruneHooks names hooks)).isEmpty)
        = true ↔
      (∃ entry, EntryOf hooks entry ∧ shortened names entry = true) ∨
        ∃ event, field (pruneHooks names hooks) event = some (.arr []) := by
  rw [Bool.or_eq_true]
  refine or_congr ⟨fun h => ?_, ?_⟩ ⟨fun h => ?_, ?_⟩
  · obtain ⟨⟨event, v⟩, hf, hany⟩ := List.any_eq_true.mp h
    obtain ⟨entries, harr, hany⟩ := (Option.any_eq_true _ _).mp hany
    obtain ⟨entry, hentry, hshort⟩ := List.any_eq_true.mp hany
    cases v with
    | arr items =>
      cases harr
      exact ⟨entry, ⟨event, entries, (field_eq_some_iff hkeyed).mpr hf, hentry⟩, hshort⟩
    | _ => cases harr
  · rintro ⟨entry, ⟨event, entries, hentries, hentry⟩, hshort⟩
    refine List.any_eq_true.mpr ⟨(event, .arr entries), mem_of_field hentries, ?_⟩
    exact List.any_eq_true.mpr ⟨entry, hentry, hshort⟩
  · rw [Bool.not_eq_true', ← Bool.not_eq_true, List.isEmpty_iff] at h
    obtain ⟨event, hevent⟩ := List.exists_mem_of_ne_nil _ h
    exact ⟨event, (mem_emptyEvents (keyed_pruneHooks hkeyed)).mp hevent⟩
  · rintro ⟨event, hevent⟩
    rw [Bool.not_eq_true', ← Bool.not_eq_true, List.isEmpty_iff]
    exact List.ne_nil_of_mem ((mem_emptyEvents (keyed_pruneHooks hkeyed)).mpr hevent)

theorem removeDead_eq (hhooks : field fields "hooks" = some (.obj hooks)) :
    removeDead names (.obj fields) =
      if shortens names hooks ||
          !(emptyEvents (pruneHooks names hooks)).isEmpty then
        some (.obj (setField "hooks" (.obj (removeEvents
          (emptyEvents (pruneHooks names hooks))
          (pruneHooks names hooks))) fields))
      else none := by
  have hget : (Value.get (.obj fields) "hooks").bind asObject = some hooks := by
    change (field fields "hooks").bind asObject = some hooks
    rw [hhooks]
    rfl
  unfold removeDead
  rw [hget]

theorem cleaned_iff (hhooks : field fields "hooks" = some (.obj hooks))
    {hooks' : List (String × Value)} :
    Cleaned may (.obj fields) (.obj (setField "hooks" (.obj hooks') fields)) ↔
      ∀ event, EventCleaned may (field hooks event) (field hooks' event) := by
  constructor
  · intro h
    cases h with
    | intro hbefore hafter hrest hevents =>
      rw [hhooks] at hbefore
      rw [field_setField_self] at hafter
      cases hbefore
      cases hafter
      exact hevents
  · exact .intro hhooks field_setField_self fun key hkey => field_setField_of_ne hkey

/-- An event loses its last entries only if one of them was without hooks or loses one. -/
theorem pruneEntries_eq_nil {entries : List Value} (h : pruneEntries names entries = [])
    {entry : Value} (hentry : entry ∈ entries) (hlist : hookList entry ≠ some []) :
    shortened names entry = true := by
  have hgone : staysIn (pruneEntry names entry) = false := by
    have hnot := List.filter_eq_nil_iff.mp h _ (List.mem_map_of_mem hentry)
    exact Bool.eq_false_iff.mpr hnot
  rw [staysIn, hookList_pruneEntry] at hgone
  cases hhooks : hookList entry with
  | none =>
    rw [hhooks] at hgone
    cases hgone
  | some list =>
    rw [hhooks, Option.map_some, Option.all_some, Bool.not_eq_false', List.isEmpty_iff,
      List.filter_eq_nil_iff] at hgone
    obtain ⟨hook, hhook⟩ := List.exists_mem_of_ne_nil list fun hnil => hlist (hnil ▸ hhooks)
    exact shortened_iff.mpr ⟨list, hhooks, hook, hhook, by simpa using hgone hook hhook⟩

theorem pruneEntries_of_bare {entries : List Value}
    (h : ∀ entry ∈ entries, hookList entry = some []) : pruneEntries names entries = [] := by
  refine List.filter_eq_nil_iff.mpr fun entry hentry => ?_
  obtain ⟨bare, hbare, rfl⟩ := List.mem_map.mp hentry
  rw [staysIn, hookList_pruneEntry, h bare hbare, Option.map_some, Option.all_some,
    List.filter_nil]
  decide

theorem field_arr_of_pruned {event : String}
    (h : field (pruneHooks names hooks) event = some (.arr [])) :
    ∃ entries, field hooks event = some (.arr entries) ∧ pruneEntries names entries = [] := by
  rw [field_pruneHooks, Option.map_eq_some_iff] at h
  obtain ⟨v, hv, hpruned⟩ := h
  cases v with
  | arr entries =>
    rw [pruneEvent] at hpruned
    exact ⟨entries, hv, Value.arr.inj hpruned⟩
  | _ => cases hpruned

theorem removed_cleaned_iff (names : List String) (may : Value → Prop)
    (hhooks : field fields "hooks" = some (.obj hooks))
    (hkeyed : Keyed hooks) : Cleaned may (.obj fields) (.obj (setField "hooks" (.obj (removeEvents
      (emptyEvents (pruneHooks names hooks)) (pruneHooks names hooks))) fields)) ↔
    (∀ entry, EntryOf hooks entry → ∀ list, hookList entry = some list →
      ∀ hook ∈ list, mentions names hook = true → may hook) ∧
    (∀ event, field hooks event ≠ some (.arr [])) ∧
    ∀ entry, EntryOf hooks entry → hookList entry ≠ some [] := by
  rw [cleaned_iff hhooks, ← events_cleaned_iff]
  refine forall_congr' fun event => ?_
  rw [field_pruned hkeyed]

/-- What is written in place of the settings is cleaned exactly if the names tell hooks apart. -/
theorem removeDead_cleaned_iff (hhooks : field fields "hooks" = some (.obj hooks))
    (hkeyed : Keyed hooks) : (∀ after, removeDead names (.obj fields) = some after →
      Cleaned may (.obj fields) after) ↔ Separable may names hooks := by
  rw [removeDead_eq hhooks]
  have hwritten := written_iff names hkeyed
  have hcleaned := removed_cleaned_iff names may hhooks hkeyed
  constructor
  · intro h
    have hall (hw : (∃ entry, EntryOf hooks entry ∧ shortened names entry = true) ∨
        ∃ event, field (pruneHooks names hooks) event = some (.arr [])) :=
      hcleaned.mp (h _ (if_pos (hwritten.mpr hw)))
    refine ⟨fun entry hentry list hlist hook hhook hmentions => ?_,
      fun event entries hentries => ?_, fun hshort => (hall (.inl hshort)).2.2⟩
    · have hshort := shortened_iff.mpr ⟨list, hlist, hook, hhook, hmentions⟩
      exact (hall (.inl ⟨entry, hentry, hshort⟩)).1 entry hentry list hlist hook hhook hmentions
    · by_contra hbare
      have hbare (entry : Value) (hentry : entry ∈ entries) : hookList entry = some [] := by
        by_contra hne
        exact hbare ⟨entry, hentry, hne⟩
      have hempty : field (pruneHooks names hooks) event =
          some (.arr []) := by
        rw [field_pruneHooks, hentries, Option.map_some, pruneEvent, pruneEntries_of_bare hbare]
      obtain ⟨-, hevents, hlists⟩ := hall (.inr ⟨event, hempty⟩)
      cases entries with
      | nil => exact hevents event hentries
      | cons entry entries =>
        exact hlists entry ⟨event, _, hentries, List.mem_cons_self⟩
          (hbare entry List.mem_cons_self)
  · intro h after hafter
    split at hafter
    · next hw =>
      cases hafter
      refine hcleaned.mpr ⟨h.found, fun event hempty => ?_, h.entries ?_⟩
      · obtain ⟨entry, hentry, -⟩ := h.events event [] hempty
        cases hentry
      · rcases hwritten.mp hw with hshort | ⟨event, hempty⟩
        · exact hshort
        · obtain ⟨entries, hentries, hnil⟩ := field_arr_of_pruned hempty
          obtain ⟨entry, hentry, hlist⟩ := h.events event entries hentries
          exact ⟨entry, ⟨event, entries, hentries, hentry⟩,
            pruneEntries_eq_nil hnil hentry hlist⟩
    · cases hafter

end Documents

end RemyCC.Install
