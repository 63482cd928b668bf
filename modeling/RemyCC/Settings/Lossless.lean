import RemyCC.Relational.Run
import RemyCC.Settings.Migrating

/-!
# What a migration keeps

The save that a run makes fills only what was missing when it looked, and the
backup is written once. So two things outside the run decide whether a value is
lost: what other processes save in the meantime, and what an older backup holds.
-/

namespace RemyCC.Settings

open Json Json.Value Relational

section Legacy

variable {project : Bool} {env settings : Members}

theorem foldl_legacyStep {pairs : List (String × String)} {migrated : List (String × String)}
    (hpairs : (pairs.map Prod.snd).Nodup) (hfresh : ∀ p ∈ pairs, p.2 ∉ migrated.map Prod.fst) :
    pairs.foldl (legacyStep project env) migrated =
      migrated ++ pairs.filterMap fun p => (acceptLegacy project env p).map (p.2, ·) := by
  induction pairs generalizing migrated with
  | nil => simp
  | cons p pairs ih =>
    obtain ⟨hp, hpairs⟩ := List.nodup_cons.mp hpairs
    obtain ⟨hhead, hfresh⟩ := List.forall_mem_cons.mp hfresh
    rw [List.foldl_cons, legacyStep, if_neg hhead]
    cases haccept : acceptLegacy project env p with
    | none =>
      rw [ih hpairs hfresh, List.filterMap_cons_none (by rw [haccept, Option.map_none])]
    | some raw =>
      have hnext : ∀ q ∈ pairs, q.2 ∉ (migrated ++ [(p.2, raw)]).map Prod.fst := by
        intro q hq hmem
        rw [List.map_append, List.mem_append, List.map_singleton, List.mem_singleton] at hmem
        rcases hmem with hmem | hmem
        · exact hfresh q hq hmem
        · have hsame : q.2 = p.2 := hmem
          exact hp (hsame ▸ List.mem_map_of_mem hq)
      rw [ih hpairs hnext, List.append_assoc, List.singleton_append,
        List.filterMap_cons_some (by rw [haccept, Option.map_some])]

theorem legacyValues_eq (henv : field settings "env" = some (.obj env)) :
    legacyValues project settings =
      oldToNew.filterMap fun p => (acceptLegacy project env p).map (p.2, ·) := by
  unfold legacyValues
  rw [henv]
  exact foldl_legacyStep oldToNew_nodup.2 fun p hp => List.not_mem_nil

theorem legacyValues_nodup (project : Bool) (settings : Members) :
    ((legacyValues project settings).map Prod.fst).Nodup := by
  unfold legacyValues
  split
  · next env henv =>
    rw [foldl_legacyStep oldToNew_nodup.2 fun p hp => List.not_mem_nil, List.nil_append]
    refine List.Nodup.sublist ?_ oldToNew_nodup.2
    generalize oldToNew = pairs
    induction pairs with
    | nil => exact List.Sublist.slnil
    | cons p pairs ih =>
      cases haccept : acceptLegacy project env p with
      | none =>
        rw [List.filterMap_cons_none (by rw [haccept, Option.map_none])]
        exact ih.cons p.2
      | some raw =>
        rw [List.filterMap_cons_some (by rw [haccept, Option.map_some])]
        exact ih.cons_cons p.2
  · exact List.nodup_nil

theorem acceptLegacy_value {p : String × String} {raw : String}
    (h : acceptLegacy project env p = some raw) : field env p.1 = some (.str raw) := by
  unfold acceptLegacy at h
  cases hfield : field env p.1 with
  | none => simp [hfield] at h
  | some v =>
    cases v with
    | str found =>
      cases hspec : fieldSpec p.2 with
      | none => simp [hspec, hfield, asStr] at h
      | some spec =>
        simp only [hspec, hfield, asStr, Option.bind_eq_bind, Option.bind_some] at h
        split at h
        · cases h
        · split at h
          · cases h
          · split at h
            · cases h
              rfl
            · cases h
    | _ => simp [hfield, asStr] at h

theorem mem_legacyValues {key raw : String} (h : (key, raw) ∈ legacyValues project settings) :
    ∃ old env, (old, key) ∈ oldToNew ∧ field settings "env" = some (.obj env) ∧
      field env old = some (.str raw) := by
  cases henv : field settings "env" with
  | none => simp [legacyValues, henv] at h
  | some v =>
    cases v with
    | obj env =>
      rw [legacyValues_eq henv] at h
      obtain ⟨p, hp, haccept⟩ := List.mem_filterMap.mp h
      obtain ⟨raw', haccept, heq⟩ := Option.map_eq_some_iff.mp haccept
      cases heq
      exact ⟨p.1, env, hp, rfl, acceptLegacy_value haccept⟩
    | _ => simp [legacyValues, henv] at h

end Legacy

section Condition

/-- No field about to be filled has got another value since the run looked. -/
def Vacant (job : Job) (config : File) : Prop :=
  ∀ m ∈ job.missing, ∀ v, configValue config m.1 = some v → v = .str m.2

/-- The document has a version and values, and no other key beside them. -/
def Plain (config : File) : Prop :=
  ∀ key, key ≠ "schema_version" → key ≠ "values" → field (topMembers config) key = none

/-- The field of the old variable had a value, or is one that the run fills. -/
def Carried (job : Job) (old : String) (v : Value) : Prop :=
  ∃ key, (old, key) ∈ oldToNew ∧
    ((field job.existing key).isSome = true ∨ ∃ raw, v = .str raw ∧ (key, raw) ∈ job.missing)

/-- The older backup has every old variable whose value the run does not carry over. -/
def Covers (job : Job) (backup : File) : Prop :=
  ∀ old v, old ∈ legacyKeys → envValue (some (.json (.obj job.settings))) old = some v →
    Carried job old v ∨ envValue backup old = some v

/-- The job of a run that has saved and will leave an older backup as it is. -/
def System.exposed (s : System) : Option Job :=
  match s.phase with
  | .checking job | .deciding job => if s.files.backup.isNone then none else some job
  | .rewriting job false => some job
  | _ => none

/-- What the steps have to meet for nothing to be lost. -/
def Sound (s : System) (e : Event) : Prop :=
  match e with
  | .advance => match s.phase with
    | .saving job => Vacant job s.files.config ∧ Plain s.files.config
    | .deciding job => s.files.backup.isNone = false → Covers job s.files.backup
    | _ => True
  | .save _ => ∀ job, s.exposed = some job → ∀ m ∈ job.missing,
      configValue (step s e).files.config m.1 = configValue s.files.config m.1
  | _ => True

end Condition

section Invariant

def Reads (s : System) (settings : Members) : Prop :=
  s.files.settings = some (.json (.obj settings))

/-- What the run has filled is still there. -/
def Holds (job : Job) (config : File) : Prop :=
  ∀ m ∈ job.missing, configValue config m.1 = some (.str m.2)

/-- What is true of the files at each point of a run. -/
def Inv (s : System) : Prop :=
  match s.phase with
  | .idle => True
  | .loaded _ settings => Reads s settings
  | .judged job | .saving job => Reads s job.settings
  | .checking job | .deciding job =>
    Reads s job.settings ∧ (s.files.backup.isNone = false → Holds job s.files.config)
  | .copying job => Reads s job.settings ∧ s.files.backup.isNone = true
  | .rewriting job true => Reads s job.settings ∧ s.files.backup = s.files.settings
  | .rewriting job false =>
    Reads s job.settings ∧ Holds job s.files.config ∧ Covers job s.files.backup

theorem missing_nodup (job : Job) : (job.missing.map Prod.fst).Nodup :=
  (legacyValues_nodup job.project job.settings).sublist (List.filter_sublist.map Prod.fst)

theorem find?_missing {job : Job} {m : String × String} (hm : m ∈ job.missing) :
    job.missing.find? (·.1 == m.1) = some m := by
  have hkeys := missing_nodup job
  generalize job.missing = missing at hm hkeys
  induction missing with
  | nil => cases hm
  | cons first missing ih =>
    obtain ⟨hfresh, hkeys⟩ := List.nodup_cons.mp hkeys
    rcases List.mem_cons.mp hm with rfl | hm
    · rw [List.find?_cons_of_pos (by simp)]
    · have hne : first.1 ≠ m.1 := fun heq => hfresh (heq ▸ List.mem_map_of_mem hm)
      rw [List.find?_cons_of_neg (by simpa using hne), ih hm hkeys]

variable {s : System} {job : Job} {content : Content}

theorem holds_saved {config : File}
    (h : saveConfig ⟨job.missing, [], [], job.project⟩ config = .ok content) :
    Holds job (some content) := by
  intro m hm
  rw [saveConfig_update (missing_nodup job) h m.1, find?_missing hm]

theorem inv_advance (hinv : Inv s) (hsound : Sound s .advance) : Inv s.advance := by
  obtain ⟨files, phase⟩ := s
  cases phase with
  | idle => trivial
  | loaded project settings =>
    simp only [System.advance]
    split
    · exact hinv
    · trivial
  | judged job =>
    simp only [System.advance]
    split
    · exact hinv
    · next hnone =>
      have hmissing : job.missing = [] := by simpa using (not_or.mp hnone).1
      refine ⟨hinv, fun _ m hm => ?_⟩
      rw [hmissing] at hm
      cases hm
  | saving job =>
    simp only [System.advance]
    split
    · next hsave => exact ⟨hinv, fun _ => holds_saved hsave⟩
    · trivial
  | checking job =>
    simp only [System.advance]
    split
    · exact hinv
    · trivial
  | deciding job =>
    simp only [System.advance]
    split
    · trivial
    · split
      · next hbackup => exact ⟨hinv.1, hbackup⟩
      · next hbackup =>
        have hsome : files.backup.isNone = false := Bool.eq_false_iff.mpr hbackup
        exact ⟨hinv.1, hinv.2 hsome, hsound hsome⟩
  | copying job => exact ⟨hinv.1, rfl⟩
  | rewriting job fresh =>
    simp only [System.advance]
    split <;> trivial

/-- Another process changes nothing but the configuration. -/
theorem save_cases (request : SaveRequest) (s : System) :
    s.save request = s ∨
      ∃ content, s.save request = { s with files := { s.files with config := some content } } := by
  unfold System.save
  split
  · next content _ => exact .inr ⟨content, rfl⟩
  · exact .inl rfl

theorem inv_save {request : SaveRequest} (hinv : Inv s) (hsound : Sound s (.save request)) :
    Inv (s.save request) := by
  have hspared : ∀ job, s.exposed = some job → ∀ m ∈ job.missing,
      configValue (s.save request).files.config m.1 = configValue s.files.config m.1 := hsound
  rcases save_cases request s with heq | ⟨content, heq⟩
  · rwa [heq]
  · rw [heq] at hspared ⊢
    obtain ⟨files, phase⟩ := s
    have hholds : ∀ job, System.exposed ⟨files, phase⟩ = some job → Holds job files.config →
        Holds job (some content) := fun job hexposed h m hm =>
      (hspared job hexposed m hm).trans (h m hm)
    cases phase with
    | idle | loaded | judged | saving | copying => exact hinv
    | checking job | deciding job =>
      refine ⟨hinv.1, fun hsome => hholds job ?_ (hinv.2 hsome)⟩
      exact if_neg (Bool.eq_false_iff.mp hsome)
    | rewriting job fresh =>
      cases fresh with
      | true => exact hinv
      | false => exact ⟨hinv.1, hholds job rfl hinv.2.1, hinv.2.2⟩

theorem inv_step {e : Event} (hinv : Inv s) (hsound : Sound s e) : Inv (step s e) := by
  cases e with
  | start project =>
    change Inv (s.start project)
    unfold System.start
    split
    · next hsettings => exact hsettings
    · exact hinv
  | advance => exact inv_advance hinv hsound
  | crash => trivial
  | cutCopy =>
    rw [step]
    split
    · trivial
    · exact hinv
  | save request => exact inv_save hinv hsound
  | edit files =>
    rw [step]
    split
    · trivial
    · exact hinv

end Invariant

section Steps

variable {existing : Members} {files files' : Files} {job : Job} {settings : Members}

theorem keeps_of_same (hsettings : files'.settings = files.settings)
    (hconfig : files'.config = files.config) : Keeps existing files files' := by
  constructor
  · intro key v h
    rwa [hconfig]
  · intro key v h
    rw [hconfig] at h
    exact .inl h
  · intro key v _ h
    rwa [hconfig]
  · intro key _
    rw [hsettings]
  · intro v h _
    rwa [hsettings]
  · intro key _
    rw [hsettings]
  · intro old v h
    rw [hsettings]
    exact .inl h

theorem find?_key {updates : List (String × String)} {update : String × String} {key : String}
    (h : updates.find? (·.1 == key) = some update) : update.1 = key ∧ update ∈ updates := by
  have hkey := List.find?_some h
  exact ⟨by simpa using hkey, List.mem_of_find?_eq_some h⟩

theorem saved_document {request : SaveRequest} {config : File} {content : Content}
    (hplain : Plain config) (hsave : saveConfig request config = .ok content) {key : String}
    {v : Value} (hkey : key ≠ "values") (h : field (topMembers config) key = some v) :
    field (topMembers (some content)) key = some v := by
  obtain ⟨values, kept, written, hread, -, -, rfl, -⟩ := saveConfig_cases hsave
  by_cases hversion : key = "schema_version"
  · rcases readDocument_cases hread with ⟨rfl, -⟩ | ⟨document, raw, rfl, hschema, -⟩
    · cases h
    · rw [hversion] at h ⊢
      rw [← h]
      exact hschema.symm
  · rw [hplain key hversion hkey] at h
    cases h

theorem keeps_saving {content : Content}
    (hreads : files.settings = some (.json (.obj job.settings))) (hvacant : Vacant job files.config)
    (hplain : Plain files.config)
    (hsave : saveConfig ⟨job.missing, [], [], job.project⟩ files.config = .ok content) :
    Keeps existing files { files with config := some content } := by
  have hlookup := saveConfig_update (missing_nodup job) hsave
  constructor
  · intro key v h
    change configValue (some content) key = some v
    rw [hlookup key]
    cases hfind : job.missing.find? (·.1 == key) with
    | none => exact h
    | some update =>
      obtain ⟨hkey, hmem⟩ := find?_key hfind
      rw [hvacant update hmem v (hkey ▸ h)]
  · intro key v h
    change configValue (some content) key = some v at h
    rw [hlookup key] at h
    cases hfind : job.missing.find? (·.1 == key) with
    | none =>
      rw [hfind] at h
      exact .inl h
    | some update =>
      rw [hfind] at h
      obtain ⟨hkey, hmem⟩ := find?_key hfind
      obtain ⟨old, env, hold, henv, hraw⟩ := mem_legacyValues (List.mem_of_mem_filter hmem)
      refine .inr ⟨old, hkey ▸ hold, ?_⟩
      simp only [envValue, inner, hreads, topMembers, henv]
      exact hraw.trans h
  · intro key v hkey h
    exact saved_document hplain hsave hkey h
  · exact fun key _ => rfl
  · exact fun v h _ => h
  · exact fun key _ => rfl
  · exact fun old v h => .inl h

theorem withoutLegacy_cases {rest : Members} (h : withoutLegacy settings = some rest) :
    ∃ env, field settings "env" = some (.obj env) ∧
      ((env.filter (·.1 ∉ legacyKeys) = [] ∧ rest = pop "env" settings) ∨
        rest = setField "env" (.obj (env.filter (·.1 ∉ legacyKeys))) settings) := by
  unfold withoutLegacy at h
  split at h
  · next env henv =>
    refine ⟨env, henv, ?_⟩
    split at h
    · simp only [Option.some.injEq] at h
      split at h
      · next hempty => exact .inl ⟨List.isEmpty_iff.mp hempty, h.symm⟩
      · exact .inr h.symm
    · cases h
  · cases h

theorem withoutLegacy_other {rest : Members} (h : withoutLegacy settings = some rest) {key : String}
    (hkey : key ≠ "env") : field rest key = field settings key := by
  obtain ⟨env, -, ⟨-, rfl⟩ | rfl⟩ := withoutLegacy_cases h
  · rw [field_pop, if_neg hkey]
  · exact field_setField_of_ne hkey

theorem withoutLegacy_env {rest : Members} (h : withoutLegacy settings = some rest) (key : String) :
    envValue (some (.json (.obj rest))) key =
      if key ∈ legacyKeys then none else envValue (some (.json (.obj settings))) key := by
  obtain ⟨env, henv, hrest⟩ := withoutLegacy_cases h
  have hfilter : field (env.filter fun m => decide (m.1 ∉ legacyKeys)) key =
      if decide (key ∉ legacyKeys) then field env key else none :=
    field_filter fun name => name ∉ legacyKeys
  have hold : envValue (some (.json (.obj settings))) key = field env key := by
    simp only [envValue, inner, topMembers, henv]
  have hnew : envValue (some (.json (.obj rest))) key =
      field (env.filter (·.1 ∉ legacyKeys)) key := by
    rcases hrest with ⟨hempty, rfl⟩ | rfl
    · simp only [envValue, inner, topMembers, field_pop, if_true]
      rw [hempty, field_nil]
    · simp only [envValue, inner, topMembers, field_setField_self]
  rw [hnew, hold, hfilter]
  by_cases hkey : key ∈ legacyKeys <;> simp [hkey]

theorem keeps_rewriting {rest : Members}
    (hreads : files.settings = some (.json (.obj job.settings)))
    (hrest : withoutLegacy job.settings = some rest)
    (hrecorded : ∀ old v, old ∈ legacyKeys → envValue files.settings old = some v →
      Recorded existing files old v) :
    Keeps existing files { files with settings := some (.json (.obj rest)) } := by
  have henv := withoutLegacy_env hrest
  constructor
  · exact fun key v h => h
  · exact fun key v h => .inl h
  · exact fun key v _ h => h
  · intro key hkey
    rw [hreads]
    exact withoutLegacy_other hrest hkey
  · intro v h hobject
    obtain ⟨env, hfield, -⟩ := withoutLegacy_cases hrest
    rw [hreads] at h
    rw [show v = .obj env from Option.some.inj (h.symm.trans hfield)] at hobject
    cases hobject
  · intro key hkey
    rw [hreads]
    exact (henv key).trans (if_neg hkey)
  · intro old v h
    by_cases hold : old ∈ legacyKeys
    · exact .inr (hrecorded old v hold h)
    · refine .inl ((henv old).trans ?_)
      rw [if_neg hold, ← hreads, h]

theorem recorded_of_covers (hreads : files.settings = some (.json (.obj job.settings)))
    (hholds : Holds job files.config) (hcovers : Covers job files.backup) {old : String} {v : Value}
    (hold : old ∈ legacyKeys) (h : envValue files.settings old = some v) :
    Recorded job.existing files old v := by
  rw [hreads] at h
  rcases hcovers old v hold h with ⟨key, hpair, hvalue⟩ | hbackup
  · refine .inr ⟨key, hpair, hvalue.imp_right ?_⟩
    rintro ⟨raw, rfl, hmissing⟩
    exact hholds (key, raw) hmissing
  · exact .inl hbackup

end Steps

section Runs

variable {s : System} {e : Event}

theorem keeps_advance (hinv : Inv s) (hsound : Sound s .advance) :
    Keeps s.phase.existing s.files s.advance.files := by
  obtain ⟨files, phase⟩ := s
  cases phase with
  | idle => exact keeps_of_same rfl rfl
  | loaded project settings =>
    simp only [System.advance]
    split <;> exact keeps_of_same rfl rfl
  | judged job =>
    simp only [System.advance]
    split <;> exact keeps_of_same rfl rfl
  | saving job =>
    simp only [System.advance]
    split
    · next hsave => exact keeps_saving hinv hsound.1 hsound.2 hsave
    · exact keeps_of_same rfl rfl
  | checking job =>
    simp only [System.advance]
    split <;> exact keeps_of_same rfl rfl
  | deciding job =>
    simp only [System.advance]
    split
    · exact keeps_of_same rfl rfl
    · split <;> exact keeps_of_same rfl rfl
  | copying job => exact keeps_of_same rfl rfl
  | rewriting job fresh =>
    simp only [System.advance]
    split
    · next rest hrest =>
      cases fresh with
      | true =>
        obtain ⟨hreads, hbackup⟩ := hinv
        refine keeps_rewriting hreads hrest fun old v _ h => .inl ?_
        rw [hbackup]
        exact h
      | false =>
        obtain ⟨hreads, hholds, hcovers⟩ := hinv
        exact keeps_rewriting hreads hrest fun old v hold h =>
          recorded_of_covers hreads hholds hcovers hold h
    · exact keeps_of_same rfl rfl

theorem kept_step (hinv : Inv s) (hsound : Sound s e) : Kept s e := by
  cases e with
  | start project =>
    change Keeps s.phase.existing s.files (s.start project).files
    unfold System.start
    split <;> exact keeps_of_same rfl rfl
  | advance => exact keeps_advance hinv hsound
  | crash => exact keeps_of_same rfl rfl
  | cutCopy =>
    change Keeps s.phase.existing s.files (step s .cutCopy).files
    rw [step]
    split <;> exact keeps_of_same rfl rfl
  | save request => trivial
  | edit files => trivial

/-- Over every sequence of runs whose steps are sound, each step keeps both documents. -/
theorem migration_keeps (files : Files) (events : List Event)
    (hsound : Meets step Sound ⟨files, .idle⟩ events) : Meets step Kept ⟨files, .idle⟩ events := by
  have hkeep (s : System) (e : Event) (hinv : Inv s) (hstep : Sound s e) :
      Kept s e ∧ Inv (step s e) := ⟨kept_step hinv hstep, inv_step hinv hstep⟩
  have hstart : Inv ⟨files, .idle⟩ := trivial
  exact meets_of_invariant hkeep hstart hsound

end Runs

section Overtaken

def oldSettings (name raw : String) : File :=
  some (.json (.obj [("env", .obj [(name, .str raw)])]))

def languageFiles : Files := ⟨oldSettings "REMY_LANG" "en", none, none⟩

def chooseChinese : SaveRequest := ⟨[("REMY_LANG", "zh-CN")], [], [], false⟩

/-- No configuration when the run saves, and no older backup when it comes to that. -/
def System.unhindered (s : System) : Bool :=
  match s.phase with
  | .saving _ => s.files.config.isNone
  | .deciding _ => s.files.backup.isNone
  | _ => true

theorem sound_of_unhindered {s : System} (h : s.unhindered = true) : Sound s .advance := by
  obtain ⟨files, phase⟩ := s
  cases phase with
  | saving job =>
    have hnone : files.config = none := Option.isNone_iff_eq_none.mp h
    simp only [Sound, Vacant, Plain, hnone]
    exact ⟨fun m hm v hv => absurd hv (Option.some_ne_none v).symm, fun key _ _ => rfl⟩
  | deciding job =>
    intro hsome
    rw [System.unhindered, hsome] at h
    cases h
  | _ => trivial

def unhinderedFor : Nat → System → Bool
  | 0, _ => true
  | n + 1, s => s.unhindered && unhinderedFor n s.advance

theorem meets_of_unhindered {n : Nat} {s : System} (h : unhinderedFor n s = true) :
    Meets step Sound s (List.replicate n .advance) := by
  induction n generalizing s with
  | zero => trivial
  | succ n ih =>
    rw [unhinderedFor, Bool.and_eq_true] at h
    exact ⟨sound_of_unhindered h.1, ih h.2⟩

theorem migration_keeps_language :
    Meets step Kept ⟨languageFiles, .idle⟩ (.start false :: List.replicate 7 .advance) :=
  migration_keeps languageFiles _ ⟨trivial, meets_of_unhindered (by decide +kernel)⟩

example : (run step ⟨languageFiles, .idle⟩
    (.start false :: List.replicate 7 .advance)).files.backup.isSome = true := by decide +kernel

/-- The other process saves after the run has looked, and the run is about to save. -/
def overtaking : List Event := [.start false, .advance, .save chooseChinese, .advance]

def overtaken : System := run step ⟨languageFiles, .idle⟩ overtaking

theorem keeps_of_kept {s : System} (h : Kept s .advance) :
    Keeps s.phase.existing s.files s.advance.files := h

theorem language_overtaken :
    ¬∀ (files : Files) (events : List Event), Meets step Kept ⟨files, .idle⟩ events := by
  intro h
  have hmeets : Meets step Kept overtaken [.advance] :=
    (meets_append.mp (h languageFiles (overtaking ++ [Event.advance]))).2
  have hkept := keeps_of_kept hmeets.1
  have hvalues : (configValue overtaken.files.config "REMY_LANG").bind asStr = some "zh-CN" ∧
      (configValue overtaken.advance.files.config "REMY_LANG").bind asStr = some "en" := by
    decide +kernel
  obtain ⟨v, hv, hchinese⟩ := Option.bind_eq_some_iff.mp hvalues.1
  have hsame : configValue overtaken.advance.files.config "REMY_LANG" = some v :=
    hkept.values "REMY_LANG" v hv
  have henglish := hvalues.2
  rw [hsame, Option.bind_some, hchinese] at henglish
  revert henglish
  decide

end Overtaken

end RemyCC.Settings
