import RemyCC.Json.Object
import RemyCC.Settings.Fields

/-!
# The configuration document

A file is absent, or text that is no JSON, or a JSON value. The order of the
keys of an object is not part of a document.
-/

namespace RemyCC.Settings

open Json Json.Value

abbrev Members := List (String × Value)

inductive Content where
  | broken
  | json (v : Value)

abbrev File := Option Content

def schemaVersion : String := "1.0.0"

section Documents

/-- What a strict `_parse_document` returns: the values of fields and the unknown ones. -/
structure Parsed where
  values : Members
  unknown : Members

def checkValue (project : Bool) (member : String × Value) : Except ConfigError Unit :=
  match member.2 with
  | .str _ =>
    if project ∧ (fieldSpec member.1).any (·.projectAllowed == false) then
      .error (.notInProject member.1)
    else .ok ()
  | _ => .error (.notString member.1)

def parseDocument (project : Bool) (file : File) : Except ConfigError Parsed :=
  match file with
  | none => .ok ⟨[], []⟩
  | some (.json (.obj document)) =>
    match field document "schema_version" with
    | some (.str version) =>
      if version = schemaVersion then
        match field document "values" with
        | some (.obj raw) => do
          raw.forM (checkValue project)
          return ⟨raw.filter fun m => (fieldSpec m.1).isSome,
            raw.filter fun m => (fieldSpec m.1).isNone⟩
        | _ => .error .valuesNotObject
      else .error .unsupportedSchema
    | _ => .error .unsupportedSchema
  | some (.json _) => .error .unsupportedSchema
  | some .broken => .error .unreadable

/-- `read_document`: the known values come after the unknown ones, of which they repeat none. -/
def readDocument (project : Bool) (file : File) : Except ConfigError Members := do
  let parsed ← parseDocument project file
  return parsed.unknown ++ parsed.values

end Documents

section Saving

def pop (key : String) (members : Members) : Members := members.filter (·.1 ≠ key)

structure SaveRequest where
  updates : List (String × String)
  removeKeys : List String
  clearSecrets : List String
  project : Bool

def removeKnown (values : Members) (key : String) : Members :=
  if (fieldSpec key).isSome then pop key values else values

def clearSecret (values : Members) (key : String) : Except ConfigError Members :=
  if key ∈ secretKeys then .ok (pop key values) else .error (.notSecret key)

def applyUpdate (project : Bool) (values : Members) (update : String × String) :
    Except ConfigError Members := do
  let spec ← match fieldSpec update.1 with
    | some spec => .ok spec
    | none => .error (.unknownField update.1)
  if project ∧ spec.projectAllowed = false then throw (.notInProject update.1)
  let _ ← coerce spec update.2
  return setField update.1 (.str update.2) values

def documentOf (values : Members) : Content :=
  .json (.obj [("schema_version", .str schemaVersion), ("values", .obj values)])

/-- `save_config`, which holds the lock from the reading to the end: the file it writes. -/
def saveConfig (request : SaveRequest) (file : File) : Except ConfigError Content := do
  let values ← readDocument request.project file
  let values := request.removeKeys.foldl removeKnown values
  let values ← request.clearSecrets.foldlM clearSecret values
  let values ← request.updates.foldlM (applyUpdate request.project) values
  return documentOf values

end Saving

section Views

def topMembers : File → Members
  | some (.json (.obj document)) => document
  | _ => []

def inner (name : String) (file : File) (key : String) : Option Value :=
  match field (topMembers file) name with
  | some (.obj members) => field members key
  | _ => none

/-- The value of a field in the configuration, and of a variable in the settings. -/
abbrev configValue : File → String → Option Value := inner "values"

abbrev envValue : File → String → Option Value := inner "env"

@[simp]
theorem configValue_none (key : String) : configValue none key = none := rfl

@[simp]
theorem configValue_documentOf (values : Members) (key : String) :
    configValue (some (documentOf values)) key = field values key := rfl

end Views

section Lookup

variable {members more : Members} {key other : String}

theorem field_append :
    field (members ++ more) key = (field members key).or (field more key) := by
  induction members with
  | nil => rfl
  | cons m members ih =>
    rw [List.cons_append, field_cons, field_cons, ih]
    split <;> rfl

theorem field_filter (p : String → Bool) :
    field (members.filter fun m => p m.1) key = if p key then field members key else none := by
  induction members with
  | nil => rw [List.filter_nil, field_nil, ite_self]
  | cons m members ih =>
    rw [List.filter_cons, field_cons]
    by_cases hm : p m.1 = true
    · rw [if_pos hm, field_cons, ih]
      by_cases hkey : m.1 = key
      · rw [if_pos hkey, if_pos (hkey ▸ hm), if_pos hkey]
      · rw [if_neg hkey, if_neg hkey]
    · rw [if_neg hm, ih]
      by_cases hkey : m.1 = key
      · rw [if_neg (hkey ▸ hm), if_neg (hkey ▸ hm)]
      · rw [if_neg hkey]

theorem field_pop :
    field (pop key members) other = if other = key then none else field members other := by
  have h : field (members.filter fun m => decide (m.1 ≠ key)) other =
      if decide (other ≠ key) then field members other else none :=
    field_filter fun name => name ≠ key
  by_cases hkey : other = key
  · simpa [pop, hkey] using h
  · simpa [pop, hkey] using h

theorem field_isSome_iff : (field members key).isSome = true ↔ key ∈ members.map Prod.fst := by
  induction members with
  | nil => simp
  | cons m members ih =>
    rw [field_cons, List.map_cons, List.mem_cons]
    split
    · next h => simp [h]
    · next h => rw [ih, or_iff_right (Ne.symm h)]

end Lookup

section Reading

variable {project : Bool} {file : File} {values : Members}

def Valid (project : Bool) (values : Members) : Prop := ∀ m ∈ values, checkValue project m = .ok ()

theorem forM_ok_iff {α : Type} {check : α → Except ConfigError Unit} {items : List α} :
    items.forM check = .ok () ↔ ∀ a ∈ items, check a = .ok () := by
  induction items with
  | nil => simp [pure, Except.pure]
  | cons a items ih =>
    change (check a >>= fun _ => items.forM check) = .ok () ↔ _
    rw [List.forall_mem_cons, ← ih]
    cases h : check a with
    | error e => simp [bind, Except.bind]
    | ok u => simp [bind, Except.bind]

/-- What a strict reading accepts, and what it returns. -/
theorem readDocument_cases (h : readDocument project file = .ok values) :
    file = none ∧ values = [] ∨
    ∃ document raw, file = some (.json (.obj document)) ∧
      field document "schema_version" = some (.str schemaVersion) ∧
      field document "values" = some (.obj raw) ∧ Valid project raw ∧
      values = (raw.filter fun m => (fieldSpec m.1).isNone) ++
        raw.filter fun m => (fieldSpec m.1).isSome := by
  unfold readDocument at h
  cases file with
  | none =>
    exact .inl ⟨rfl, by simpa [parseDocument, bind, Except.bind, pure, Except.pure] using h.symm⟩
  | some content =>
    cases content with
    | broken => cases h
    | json v =>
      cases v with
      | obj document =>
        rw [parseDocument] at h
        split at h
        · next version hversion =>
          split at h
          · next hschema =>
            split at h
            · next raw hraw =>
              cases hcheck : raw.forM (checkValue project) with
              | error e =>
                rw [hcheck] at h
                cases h
              | ok u =>
                rw [hcheck] at h
                cases h
                exact .inr ⟨document, raw, rfl, hversion.trans (by rw [hschema]), hraw,
                  forM_ok_iff.mp hcheck, rfl⟩
            · cases h
          · cases h
        · cases h
      | _ => cases h

theorem readDocument_value (h : readDocument project file = .ok values) (key : String) :
    field values key = configValue file key := by
  rcases readDocument_cases h with ⟨rfl, rfl⟩ | ⟨document, raw, rfl, -, hraw, -, rfl⟩
  · rfl
  · have hvalue : configValue (some (.json (.obj document))) key = field raw key := by
      simp [configValue, inner, topMembers, hraw]
    rw [hvalue, field_append, field_filter fun name => (fieldSpec name).isNone,
      field_filter fun name => (fieldSpec name).isSome]
    cases fieldSpec key <;> simp

theorem readDocument_valid (h : readDocument project file = .ok values) : Valid project values := by
  rcases readDocument_cases h with ⟨rfl, rfl⟩ | ⟨document, raw, rfl, -, -, hvalid, rfl⟩
  · intro m hm
    cases hm
  · intro m hm
    rcases List.mem_append.mp hm with hm | hm
    · exact hvalid m (List.mem_of_mem_filter hm)
    · exact hvalid m (List.mem_of_mem_filter hm)

end Reading

section Written

variable {request : SaveRequest} {file : File} {content : Content} {project : Bool}

theorem Valid.of_subset {values more : Members} (h : Valid project values) (hsub : more ⊆ values) :
    Valid project more :=
  fun m hm => h m (hsub hm)

theorem pop_subset (key : String) (values : Members) : pop key values ⊆ values :=
  List.filter_subset_self values

theorem removeKnown_subset (values : Members) (key : String) : removeKnown values key ⊆ values := by
  unfold removeKnown
  split
  · exact pop_subset key values
  · exact fun m hm => hm

theorem mem_setField_str {values : Members} {key raw : String} {m : String × Value}
    (h : m ∈ setField key (.str raw) values) : m = (key, .str raw) ∨ m ∈ values := by
  induction values with
  | nil => simpa [setField] using h
  | cons f values ih =>
    rw [setField] at h
    split at h
    · rcases List.mem_cons.mp h with rfl | h
      · exact .inl rfl
      · exact .inr (List.mem_cons_of_mem f h)
    · rcases List.mem_cons.mp h with rfl | h
      · exact .inr List.mem_cons_self
      · exact (ih h).imp_right (List.mem_cons_of_mem f)

theorem applyUpdate_ok {values values' : Members} {update : String × String}
    (h : applyUpdate project values update = .ok values') :
    values' = setField update.1 (.str update.2) values ∧
      ∃ spec, fieldSpec update.1 = some spec ∧ (project = true → spec.projectAllowed = true) := by
  unfold applyUpdate at h
  cases hspec : fieldSpec update.1 with
  | none =>
    rw [hspec] at h
    cases h
  | some spec =>
    rw [hspec] at h
    by_cases hallowed : project = true ∧ spec.projectAllowed = false
    · simp [bind, Except.bind, hallowed, throw, throwThe, MonadExceptOf.throw] at h
    · cases hcoerce : coerce spec update.2 with
      | error e => simp [bind, Except.bind, hallowed, hcoerce] at h
      | ok value =>
        simp [bind, Except.bind, hallowed, hcoerce, pure, Except.pure] at h
        exact ⟨h.symm, spec, rfl, by simpa using hallowed⟩

theorem foldlM_applyUpdate {updates : List (String × String)} {values values' : Members}
    (h : updates.foldlM (applyUpdate project) values = .ok values') :
    values' = updates.foldl (fun values update => setField update.1 (.str update.2) values) values ∧
      (Valid project values → Valid project values') := by
  induction updates generalizing values with
  | nil =>
    cases h
    exact ⟨rfl, id⟩
  | cons update updates ih =>
    rw [List.foldlM_cons] at h
    cases happly : applyUpdate project values update with
    | error e =>
      rw [happly] at h
      cases h
    | ok next =>
      rw [happly] at h
      obtain ⟨rfl, spec, hspec, hallowed⟩ := applyUpdate_ok happly
      obtain ⟨heq, hvalid⟩ := ih h
      refine ⟨heq, fun hvalues => hvalid fun m hm => ?_⟩
      rcases mem_setField_str hm with rfl | hm
      · cases project with
        | false => simp [checkValue]
        | true => simp [checkValue, hspec, hallowed rfl]
      · exact hvalues m hm

theorem foldlM_clearSecret {cleared : List String} {values values' : Members}
    (h : cleared.foldlM clearSecret values = .ok values') : values' ⊆ values := by
  induction cleared generalizing values with
  | nil =>
    cases h
    exact fun m hm => hm
  | cons key cleared ih =>
    rw [List.foldlM_cons] at h
    unfold clearSecret at h
    split at h
    · exact fun m hm => pop_subset key values (ih h hm)
    · cases h

theorem foldl_removeKnown_subset (keys : List String) (values : Members) :
    keys.foldl removeKnown values ⊆ values := by
  induction keys generalizing values with
  | nil => exact fun m hm => hm
  | cons key keys ih => exact fun m hm => removeKnown_subset values key (ih _ hm)

theorem saveConfig_cases (h : saveConfig request file = .ok content) :
    ∃ values kept written, readDocument request.project file = .ok values ∧ kept ⊆ values ∧
      request.updates.foldlM (applyUpdate request.project) kept = .ok written ∧
      content = documentOf written ∧
      (request.removeKeys = [] → request.clearSecrets = [] → kept = values) := by
  unfold saveConfig at h
  cases hread : readDocument request.project file with
  | error e =>
    rw [hread] at h
    cases h
  | ok values =>
    rw [hread] at h
    cases hclear : request.clearSecrets.foldlM clearSecret
        (request.removeKeys.foldl removeKnown values) with
    | error e => simp [bind, Except.bind, hclear] at h
    | ok kept =>
      cases hupdate : request.updates.foldlM (applyUpdate request.project) kept with
      | error e => simp [bind, Except.bind, hclear, hupdate] at h
      | ok written =>
        simp only [bind, Except.bind, hclear, hupdate, pure, Except.pure, Except.ok.injEq] at h
        refine ⟨values, kept, written, rfl,
          fun m hm => foldl_removeKnown_subset _ _ (foldlM_clearSecret hclear hm), hupdate, h.symm,
          fun hremove hsecrets => ?_⟩
        rw [hremove, hsecrets] at hclear
        cases hclear
        rfl

/-- The last reading of `save_config` accepts what it has just written. -/
theorem saveConfig_reads_back (h : saveConfig request file = .ok content) :
    ∃ values, readDocument request.project (some content) = .ok values := by
  obtain ⟨values, kept, written, hread, hkept, hupdate, rfl, -⟩ := saveConfig_cases h
  have hvalid : Valid request.project written :=
    (foldlM_applyUpdate hupdate).2 ((readDocument_valid hread).of_subset hkept)
  refine ⟨(written.filter fun m => (fieldSpec m.1).isNone) ++
    written.filter fun m => (fieldSpec m.1).isSome, ?_⟩
  simp [readDocument, parseDocument, documentOf, field_cons, forM_ok_iff.mpr hvalid, bind,
    Except.bind, pure, Except.pure]

theorem field_foldl_setField {updates : List (String × String)}
    (hkeys : (updates.map Prod.fst).Nodup) (values : Members) (key : String) :
    field (updates.foldl (fun values update => setField update.1 (.str update.2) values) values)
        key =
      match updates.find? (·.1 == key) with
      | some update => some (.str update.2)
      | none => field values key := by
  induction updates generalizing values with
  | nil => rfl
  | cons update updates ih =>
    obtain ⟨hfresh, hkeys⟩ := List.nodup_cons.mp hkeys
    rw [List.foldl_cons, ih hkeys]
    by_cases hkey : update.1 = key
    · have hnone : updates.find? (·.1 == key) = none :=
        List.find?_eq_none.mpr fun other hother heq =>
          hfresh (hkey ▸ (beq_iff_eq.mp heq) ▸ List.mem_map_of_mem hother)
      rw [List.find?_cons_of_pos (by simpa using hkey), hnone, ← hkey]
      exact field_setField_self
    · rw [List.find?_cons_of_neg (by simpa using hkey)]
      split
      · rfl
      · exact field_setField_of_ne (Ne.symm hkey)

/-- A save that only updates: the new values, and the old ones under every other key. -/
theorem saveConfig_update {updates : List (String × String)} (hkeys : (updates.map Prod.fst).Nodup)
    (h : saveConfig ⟨updates, [], [], project⟩ file = .ok content) (key : String) :
    configValue (some content) key =
      match updates.find? (·.1 == key) with
      | some update => some (.str update.2)
      | none => configValue file key := by
  obtain ⟨values, kept, written, hread, -, hupdate, rfl, hkept⟩ := saveConfig_cases h
  rw [configValue_documentOf, (foldlM_applyUpdate hupdate).1, hkept rfl rfl,
    field_foldl_setField hkeys, readDocument_value hread]

end Written

end RemyCC.Settings
