import RemyCC.Install.Frames
import RemyCC.Relational.Outcome

/-!
# An install without an interpreter

Where the interpreter cannot be probed, the plan leaves the runtime descriptor
out. The install then takes the deployed one for obsolete.
-/

namespace RemyCC.Install

open Files Json Relational

variable {β : Type}

section Places

variable {roots : Roots}

theorem components_append_name {root path name : String} {front : FilePath}
    (h : components path = front ++ [name]) :
    (place roots root path).getLast? = some name := by
  rw [place, h, ← List.append_assoc, List.getLast?_concat]

theorem descriptorFile_name : (descriptorFile roots).getLast? = some "python.json" :=
  @components_append_name roots rootRemy _ _ ["runtime"] (by decide)

theorem manifestFile_name : (manifestFile roots).getLast? = some "manifest.json" :=
  @components_append_name roots rootRemy _ _ ["install"] (by decide)

theorem lastChar_of_name {p : FilePath} {name : String} {c : Char} (h : p.getLast? = some name)
    (hc : name.toList.getLast? = some c) : lastChar p = some c := by
  rw [lastChar, h, Option.bind_some, hc]

theorem descriptorFile_lastChar : lastChar (descriptorFile roots) = some 'n' :=
  lastChar_of_name descriptorFile_name rfl

theorem manifestFile_lastChar : lastChar (manifestFile roots) = some 'n' :=
  lastChar_of_name manifestFile_name rfl

theorem ne_of_name {p q : FilePath} {name name' : String} (hp : p.getLast? = some name)
    (hq : q.getLast? = some name') (hne : name ≠ name') : p ≠ q := by
  rintro rfl
  exact hne (Option.some.inj (hp.symm.trans hq))

end Places

section Planned

variable {platform : Platform β} {release : Release β} {params : InstallParams} {luck : Luck β}
variable {files : Tree FilePath (Content β)}

theorem map_modify_eq {α γ : Type} {f : α → α} {g : α → γ} (hf : ∀ x, g (f x) = g x) (i : Nat)
    (xs : List α) : (xs.modify i f).map g = xs.map g := by
  induction xs generalizing i with
  | nil => rw [List.modify_nil]
  | cons x xs ih =>
    cases i with
    | zero => rw [List.modify_zero_cons, List.map_cons, List.map_cons, hf]
    | succ i => rw [List.modify_succ_cons, List.map_cons, List.map_cons, ih]

/-- Putting descriptions in changes no name. -/
theorem patchSkill_names (language : String) (contents : List (String × β))
    (skill : String × Value) :
    (patchSkill platform language contents skill).map Prod.fst = contents.map Prod.fst := by
  unfold patchSkill
  split
  · rfl
  · simp only
    split
    · rfl
    · exact map_modify_eq (f := patchEntry platform _) (fun _ => rfl) _ _

theorem foldl_patchSkill_names (language : String) (skills : List (String × Value))
    (contents : List (String × β)) :
    (skills.foldl (patchSkill platform language) contents).map Prod.fst =
      contents.map Prod.fst := by
  induction skills generalizing contents with
  | nil => rfl
  | cons skill skills ih => rw [List.foldl_cons, ih, patchSkill_names]

theorem patchDescriptions_names {language : String} {contents patched : List (String × β)}
    (h : patchDescriptions platform language contents = .ok patched) :
    patched.map Prod.fst = contents.map Prod.fst := by
  unfold patchDescriptions at h
  split at h
  · rw [Except.ok.inj h]
  · split at h
    · rw [← Except.ok.inj h, foldl_patchSkill_names]
    · cases h

/-- The keys of what a release deploys for a language. -/
theorem planClaudeContents_keys {language : String} {planned : List (PlannedFile β)}
    (h : planClaudeContents platform release language = .ok planned) :
    planned.map PlannedFile.key =
      (release.entries.map Prod.fst ++ ["language.md"]).map fun path => (rootClaude, path) := by
  obtain ⟨contents, hcontents, hplanned⟩ := exists_of_bind_ok h
  rw [← Except.ok.inj hplanned, ← patchDescriptions_names hcontents, List.map_map]
  simp only [List.map_append, List.map_cons, List.map_nil, List.map_map]
  rfl

theorem planBinary_key {file : PlannedFile β} (h : planBinary platform params luck files = .ok file) :
    file.key = (rootRemy, binDir ++ "/" ++ managedExeName params.roots.remyRoot) := by
  unfold planBinary at h
  split at h
  · cases h
  · split at h
    · cases h
    · rw [← Except.ok.inj h]
      rfl

/-- What the release deploys whether or not there is an interpreter. -/
def plainKeys (release : Release β) (params : InstallParams) : List (String × String) :=
  (release.entries.map Prod.fst ++ ["language.md"]).map (fun path => (rootClaude, path)) ++
    [(rootRemy, binDir ++ "/" ++ managedExeName params.roots.remyRoot)]

def descriptorKey : String × String := (rootRemy, descriptorRelativePath)

/-- The plan holds all that the release deploys, but for the descriptor if the probe failed. -/
theorem plan_keys {planned : List (PlannedFile β)} {warnings : List Warning}
    (h : plan platform params luck release files = .ok (planned, warnings)) :
    planned.map PlannedFile.key = plainKeys release params ++
      (if params.python.isOk then [descriptorKey] else []) := by
  obtain ⟨contents, hcontents, h⟩ := exists_of_bind_ok h
  obtain ⟨binary, hbinary, h⟩ := exists_of_bind_ok h
  have hkeys := planClaudeContents_keys hcontents
  have hkey := planBinary_key hbinary
  unfold plainKeys
  cases hpython : params.python with
  | ok descriptor =>
    rw [hpython] at h
    obtain ⟨rfl, -⟩ := Prod.mk.inj (Except.ok.inj h)
    rw [List.map_append, List.map_cons, List.map_cons, List.map_nil, hkeys, hkey, List.append_assoc]
    rfl
  | error error =>
    rw [hpython] at h
    obtain ⟨rfl, -⟩ := Prod.mk.inj (Except.ok.inj h)
    rw [List.map_append, List.map_cons, List.map_nil, hkeys, hkey]
    exact (List.append_nil _).symm

theorem checkFiles_decided {records : List FileRecord} {planned : List (PlannedFile β)}
    {checked : Checked β}
    (h : checkFiles platform params luck files records planned = .ok checked) :
    checked.decided.map Prod.fst = planned := by
  induction planned generalizing records checked with
  | nil =>
    rw [← Except.ok.inj h]
    rfl
  | cons file planned ih =>
    obtain ⟨disk, -, h⟩ := exists_of_bind_ok h
    obtain ⟨decision, -, h⟩ := exists_of_bind_ok h
    obtain ⟨checked', hchecked, h⟩ := exists_of_bind_ok h
    have hrest := ih hchecked
    cases decision with
    | inl decision =>
      rw [← Except.ok.inj h, List.map_cons, hrest]
    | inr conflict =>
      rw [← Except.ok.inj h, List.map_cons, hrest]

/-- The obsolete files are those of the records, where they are still there. -/
theorem findObsolete_ok {records : List FileRecord} {obsolete : List FilePath}
    (h : findObsolete platform params luck files records = .ok obsolete) :
    (∀ r ∈ records, ∀ c, files (place params.roots r.root r.path) = some c →
      place params.roots r.root r.path ∈ obsolete) ∧
    ∀ p ∈ obsolete, ∃ r ∈ records, p = place params.roots r.root r.path := by
  induction records generalizing obsolete with
  | nil =>
    rw [← Except.ok.inj h]
    exact ⟨fun r hr => absurd hr List.not_mem_nil, fun p hp => absurd hp List.not_mem_nil⟩
  | cons r records ih =>
    obtain ⟨disk, hdisk, h⟩ := exists_of_bind_ok h
    cases disk with
    | none =>
      obtain ⟨hall, hfrom⟩ := ih h
      refine ⟨fun r' hr' c hc => ?_, fun p hp => ?_⟩
      · rcases List.mem_cons.mp hr' with rfl | hr'
        · unfold diskDigest at hdisk
          rw [hc] at hdisk
          simp only at hdisk
          split at hdisk <;> cases hdisk
        · exact hall r' hr' c hc
      · obtain ⟨r', hr', hp⟩ := hfrom p hp
        exact ⟨r', List.mem_cons_of_mem _ hr', hp⟩
    | some digest =>
      simp only at h
      split at h
      · obtain ⟨rest, hrest, h⟩ := exists_of_bind_ok h
        obtain ⟨hall, hfrom⟩ := ih hrest
        rw [← Except.ok.inj h]
        refine ⟨fun r' hr' c hc => ?_, fun p hp => ?_⟩
        · rcases List.mem_cons.mp hr' with rfl | hr'
          · exact List.mem_cons_self
          · exact List.mem_cons_of_mem _ (hall r' hr' c hc)
        · rcases List.mem_cons.mp hp with rfl | hp
          · exact ⟨r, List.mem_cons_self, rfl⟩
          · obtain ⟨r', hr', hp⟩ := hfrom p hp
            exact ⟨r', List.mem_cons_of_mem _ hr', hp⟩
      · cases h

theorem mem_unplanned {planned : List (PlannedFile β)} {m : Manifest} {r : FileRecord} :
    r ∈ unplanned planned (oldRecords (some m)) ↔
      r ∈ m.files ∧ r.key ∉ planned.map PlannedFile.key := by
  rw [unplanned, List.mem_filter, oldRecords, mem_orderBy]
  simp

/-- What a plan that comes about has gone through. -/
structure Prepared (platform : Platform β) (release : Release β) (params : InstallParams)
    (luck : Luck β) (files : Tree FilePath (Content β)) (plan' : Plan β) : Prop where
  keys : plan'.decided.map (fun f => f.1.key) = plainKeys release params ++
    (if params.python.isOk then [descriptorKey] else [])
  recorded : ∀ r ∈ plan'.manifest.files, r.key ∈ plan'.decided.map fun f => f.1.key
  obsolete : ∀ m, loadManifest platform luck params.roots files = .ok (some m) →
    (∀ r ∈ m.files, r.key ∉ plan'.decided.map (fun f => f.1.key) →
      ∀ c, files (place params.roots r.root r.path) = some c →
        place params.roots r.root r.path ∈ plan'.obsolete) ∧
    ∀ p ∈ plan'.obsolete, ∃ r ∈ m.files, r.key ∉ plan'.decided.map (fun f => f.1.key) ∧
      p = place params.roots r.root r.path

theorem prepared_of_ok {plan' : Plan β}
    (h : prepare platform release params luck files = .ok plan') :
    Prepared platform release params luck files plan' := by
  obtain ⟨old, hold, h⟩ := exists_of_bind_ok h
  obtain ⟨⟨planned, warnings⟩, hplan, h⟩ := exists_of_bind_ok h
  obtain ⟨checked, hchecked, h⟩ := exists_of_bind_ok h
  obtain ⟨-, -, h⟩ := exists_of_bind_ok h
  obtain ⟨obsolete, hobsolete, h⟩ := exists_of_bind_ok h
  obtain ⟨⟨settings, claim⟩, -, h⟩ := exists_of_bind_ok h
  have hdecided := checkFiles_decided hchecked
  have hkeys : checked.decided.map (fun f => f.1.key) = planned.map PlannedFile.key := by
    rw [← hdecided, List.map_map]
    rfl
  rw [← Except.ok.inj h]
  refine ⟨hkeys.trans (plan_keys hplan), fun r hr => ?_, fun m hm => ?_⟩
  · rw [hkeys]
    simp only [newManifest, mem_orderBy, List.mem_map] at hr ⊢
    obtain ⟨file, hfile, rfl⟩ := hr
    exact ⟨file, hfile, rfl⟩
  · rw [hold, Except.ok.injEq] at hm
    subst hm
    obtain ⟨hall, hfrom⟩ := findObsolete_ok hobsolete
    rw [hkeys]
    refine ⟨fun r hr hkey c hc => hall r (mem_unplanned.mpr ⟨hr, hkey⟩) c hc, fun p hp => ?_⟩
    obtain ⟨r, hr, hp⟩ := hfrom p hp
    obtain ⟨hmem, hkey⟩ := mem_unplanned.mp hr
    exact ⟨r, hmem, hkey, hp⟩

end Planned

section Runs

variable {platform : Platform β} {release : Release β} {params : InstallParams} {luck : Luck β}
variable {h : Home (Content β)} {roots : Roots}

/-- No file of the payload is placed where the descriptor or the manifest is. -/
def Clear (release : Release β) (roots : Roots) : Prop :=
  ∀ e ∈ release.entries, place roots rootClaude e.1 ≠ descriptorFile roots ∧
    place roots rootClaude e.1 ≠ manifestFile roots

theorem ne_documents {root path name : String} {front : FilePath}
    (hcomponents : components path = front ++ [name]) (hdescriptor : name ≠ "python.json")
    (hmanifest : name ≠ "manifest.json") :
    place roots root path ≠ descriptorFile roots ∧ place roots root path ≠ manifestFile roots :=
  ⟨ne_of_name (components_append_name hcomponents) descriptorFile_name hdescriptor,
    ne_of_name (components_append_name hcomponents) manifestFile_name hmanifest⟩

theorem plainKeys_clear (hclear : Clear release params.roots) {key : String × String}
    (hkey : key ∈ plainKeys release params) :
    place params.roots key.1 key.2 ≠ descriptorFile params.roots ∧
      place params.roots key.1 key.2 ≠ manifestFile params.roots := by
  rcases List.mem_append.mp hkey with hkey | hkey
  · obtain ⟨path, hpath, rfl⟩ := List.mem_map.mp hkey
    rcases List.mem_append.mp hpath with hpath | hpath
    · obtain ⟨e, he, rfl⟩ := List.mem_map.mp hpath
      exact hclear e he
    · rw [List.mem_singleton.mp hpath]
      exact @ne_documents _ _ _ "language.md" [] (by decide) (by decide) (by decide)
  · rw [List.mem_singleton.mp hkey]
    unfold managedExeName
    split
    · exact @ne_documents _ _ _ "remy-cc.exe" ["bin"] (by decide) (by decide) (by decide)
    · exact @ne_documents _ _ _ "remy-cc" ["bin"] (by decide) (by decide) (by decide)

theorem writeAll_other {p : FilePath} {plan' : Plan β} (hp : lastChar p = some 'n')
    (hplanned : ∀ f ∈ plan'.decided, p ≠ place params.roots f.1.root f.1.path)
    (hsettings : p ≠ settingsFile params.roots) :
    (writeAll params luck plan' h).1.files p = h.files p :=
  andThen_other (deployFiles_other hp hplanned) fun _ _ =>
    andThen_other (writeSettings_other hp hsettings) fun _ _ => rfl

/-- The manifest is valid and can be written. -/
def Commits (luck : Luck β) (m : Manifest) : Prop :=
  (validateV4 m.toValue).isOk = true ∧ luck.manifestWrite = none

instance (luck : Luck β) (m : Manifest) : Decidable (Commits luck m) :=
  inferInstanceAs (Decidable (_ ∧ _))

theorem writeManifest_result (m : Manifest) :
    (Commits luck m ∧ writeManifest params luck m h =
      ({ h with files := put (manifestFile params.roots) (.manifest m) h.files }, .ok ())) ∨
    (¬ Commits luck m ∧ ∃ error, writeManifest params luck m h = (h, .error error)) := by
  unfold writeManifest Commits
  cases hvalid : validateV4 m.toValue with
  | error error => exact .inr ⟨fun hc => (by cases hc.1), error, rfl⟩
  | ok m' =>
    cases hwrite : luck.manifestWrite with
    | some error => exact .inr ⟨fun hc => (by cases hc.2), _, rfl⟩
    | none => exact .inl ⟨⟨rfl, rfl⟩, rfl⟩

theorem postCommit_document {p : FilePath} (hp : lastChar p = some 'n')
    (hname : p.getLast? = some "python.json" ∨ p.getLast? = some "manifest.json") :
    (postCommit params luck h).1.files p = h.files p := by
  have hlegacy : (place params.roots rootClaude legacyManifestName).getLast? =
      some ".installer_manifest.json" := @components_append_name _ _ _ _ [] (by decide)
  have htransaction : (place params.roots rootRemy "install/transaction.json").getLast? =
      some "transaction.json" := @components_append_name _ _ _ _ ["install"] (by decide)
  rcases hname with hname | hname
  · exact postCommit_other hp (ne_of_name hname hlegacy (by decide))
      (ne_of_name hname htransaction (by decide))
  · exact postCommit_other hp (ne_of_name hname hlegacy (by decide))
      (ne_of_name hname htransaction (by decide))

theorem commit_files {plan' : Plan β} {changed : List String} :
    (commit params luck plan' changed h).1.files (descriptorFile params.roots) =
      (removeAll luck plan'.obsolete h).1.files (descriptorFile params.roots) ∧
    (commit params luck plan' changed h).1.files (manifestFile params.roots) =
      if Commits luck plan'.manifest then some (.manifest plan'.manifest)
      else (removeAll luck plan'.obsolete h).1.files (manifestFile params.roots) := by
  unfold commit
  rcases @writeManifest_result β params luck (removeAll luck plan'.obsolete h).1 plan'.manifest with
    ⟨hcommits, hwritten⟩ | ⟨hcommits, error, hwritten⟩
  · simp only [hwritten, andThen, if_pos hcommits]
    rw [postCommit_document descriptorFile_lastChar (.inl descriptorFile_name),
      postCommit_document manifestFile_lastChar (.inr manifestFile_name)]
    exact ⟨put_of_ne (ne_of_name descriptorFile_name manifestFile_name (by decide)), put_self⟩
  · simp only [hwritten, andThen, if_neg hcommits]
    exact ⟨trivial, trivial⟩

/-- The manifest in force records the descriptor, which is in place as recorded. -/
def Deployed (platform : Platform β) (roots : Roots) (files : Tree FilePath (Content β)) : Prop :=
  ∃ m r c, files (manifestFile roots) = some (.manifest m) ∧
    (r ∈ m.files ∧ r.key = descriptorKey) ∧
    (files (descriptorFile roots) = some c ∧ platform.digest c = r.sha256) ∧
    ∀ r' ∈ m.files, place roots r'.root r'.path ≠ manifestFile roots

/-- The descriptor is in place as before and recorded in the manifest in force. -/
def DescriptorKept (roots : Roots) (before after : Tree FilePath (Content β)) : Prop :=
  after (descriptorFile roots) = before (descriptorFile roots) ∧
    ∃ m, after (manifestFile roots) = some (.manifest m) ∧ ∃ r ∈ m.files, r.key = descriptorKey

/-- The install comes to its deletions: a plan comes about and all its writes succeed. -/
def Deletes (platform : Platform β) (release : Release β) (params : InstallParams) (luck : Luck β)
    (h : Home (Content β)) (plan' : Plan β) : Prop :=
  luck.lock = none ∧
    prepare platform release params luck (sweep params.roots luck h).files = .ok plan' ∧
    (writeAll params luck plan' (sweep params.roots luck h)).2.isOk = true

theorem descriptorFile_stale : ((descriptorFile roots).getLast?).any isStaleStagingName = false := by
  rw [descriptorFile_name]
  decide

theorem manifestFile_stale : ((manifestFile roots).getLast?).any isStaleStagingName = false := by
  rw [manifestFile_name]
  decide

/-- What the files of an install come to that gets as far as its deletions. -/
structure Ended (params : InstallParams) (luck : Luck β) (plan' : Plan β)
    (before after : Tree FilePath (Content β)) : Prop where
  descriptor : after (descriptorFile params.roots) =
    if descriptorFile params.roots ∈ plan'.obsolete ∧
      ((luck.attempts (descriptorFile params.roots)).remove = true ∨
        (luck.attempts (descriptorFile params.roots)).aside = true) then none
    else before (descriptorFile params.roots)
  manifest : after (manifestFile params.roots) =
    if Commits luck plan'.manifest then some (.manifest plan'.manifest)
    else if manifestFile params.roots ∈ plan'.obsolete ∧
      ((luck.attempts (manifestFile params.roots)).remove = true ∨
        (luck.attempts (manifestFile params.roots)).aside = true) then none
    else before (manifestFile params.roots)

theorem Prepared.decided_clear {files : Tree FilePath (Content β)} {plan' : Plan β}
    (hprepared : Prepared platform release params luck files plan')
    (hpython : params.python.isOk = false) (hclear : Clear release params.roots) :
    ∀ f ∈ plan'.decided, place params.roots f.1.root f.1.path ≠ descriptorFile params.roots ∧
      place params.roots f.1.root f.1.path ≠ manifestFile params.roots := by
  intro f hf
  have hkey : f.1.key ∈ plan'.decided.map (fun f => f.1.key) := List.mem_map.mpr ⟨f, hf, rfl⟩
  rw [hprepared.keys, hpython, if_neg Bool.false_ne_true, List.append_nil] at hkey
  have hplace := @plainKeys_clear β release params hclear f.1.key hkey
  exact hplace

/-- The two ends of an install that has its lock. -/
theorem install_documents (hpython : params.python.isOk = false)
    (hclear : Clear release params.roots) (hlock : luck.lock = none) :
    (∃ plan', Deletes platform release params luck h plan' ∧
      Ended params luck plan' (sweep params.roots luck h).files
        (install platform release params luck h).1.files) ∨
    ((∀ plan', ¬ Deletes platform release params luck h plan') ∧
      (install platform release params luck h).1.files (descriptorFile params.roots) =
        (sweep params.roots luck h).files (descriptorFile params.roots) ∧
      (install platform release params luck h).1.files (manifestFile params.roots) =
        (sweep params.roots luck h).files (manifestFile params.roots)) := by
  unfold install
  simp only [hlock]
  cases hprepare : prepare platform release params luck (sweep params.roots luck h).files with
  | error error =>
    refine .inr ⟨fun plan' hdeletes => ?_, rfl, rfl⟩
    rw [hdeletes.2.1] at hprepare
    cases hprepare
  | ok plan' =>
    have hdecided := (prepared_of_ok hprepare).decided_clear hpython hclear
    have hsettings : (settingsFile params.roots).getLast? = some "settings.json" :=
      @components_append_name _ _ _ _ [] (by decide)
    have hdescriptor : (writeAll params luck plan' (sweep params.roots luck h)).1.files
        (descriptorFile params.roots) =
          (sweep params.roots luck h).files (descriptorFile params.roots) :=
      writeAll_other descriptorFile_lastChar (fun f hf => (hdecided f hf).1.symm)
        (ne_of_name descriptorFile_name hsettings (by decide))
    have hmanifest : (writeAll params luck plan' (sweep params.roots luck h)).1.files
        (manifestFile params.roots) =
          (sweep params.roots luck h).files (manifestFile params.roots) :=
      writeAll_other manifestFile_lastChar (fun f hf => (hdecided f hf).2.symm)
        (ne_of_name manifestFile_name hsettings (by decide))
    simp only
    cases hwritten : (writeAll params luck plan' (sweep params.roots luck h)).2 with
    | error error =>
      refine .inr ⟨fun plan'' hdeletes => ?_, ?_, ?_⟩
      · have heq : plan'' = plan' := Except.ok.inj (hdeletes.2.1.symm.trans hprepare)
        have hok := hdeletes.2.2
        rw [heq, hwritten] at hok
        cases hok
      · simp only [andThen, hwritten]
        exact hdescriptor
      · simp only [andThen, hwritten]
        exact hmanifest
    | ok changed =>
      refine .inl ⟨plan', ⟨hlock, hprepare, by rw [hwritten]; rfl⟩, ?_⟩
      simp only [andThen, hwritten]
      obtain ⟨hd, hm⟩ := @commit_files β params luck
        (writeAll params luck plan' (sweep params.roots luck h)).1 plan' changed
      refine ⟨?_, ?_⟩
      · rw [hd, removeAll_apply descriptorFile_lastChar, hdescriptor]
      · rw [hm, removeAll_apply manifestFile_lastChar, hmanifest]

/-- The sweep of this install deletes the descriptor or the manifest. -/
def SweepsDocuments (roots : Roots) (luck : Luck β) (h : Home (Content β)) : Prop :=
  luck.lock = none ∧
    (SweptAway roots luck h (descriptorFile roots) ∨ SweptAway roots luck h (manifestFile roots))

/-- What is still possible where the install comes to its deletions. -/
def Escapes (params : InstallParams) (luck : Luck β) (plan' : Plan β) : Prop :=
  ¬ Commits luck plan'.manifest ∧
    (luck.attempts (descriptorFile params.roots)).remove = false ∧
    (luck.attempts (descriptorFile params.roots)).aside = false

theorem Prepared.descriptor_obsolete {files : Tree FilePath (Content β)} {plan' : Plan β}
    (hprepared : Prepared platform release params luck files plan')
    (hpython : params.python.isOk = false) :
    descriptorKey ∉ plan'.decided.map fun f => f.1.key := by
  rw [hprepared.keys, hpython, if_neg Bool.false_ne_true, List.append_nil]
  intro hkey
  rcases List.mem_append.mp hkey with hkey | hkey
  · obtain ⟨path, -, hpath⟩ := List.mem_map.mp hkey
    exact absurd (Prod.mk.inj hpath).1 (by decide)
  · have hname := (Prod.mk.inj (List.mem_singleton.mp hkey)).2
    revert hname
    unfold managedExeName
    split <;> decide

theorem kept_iff (hpython : params.python.isOk = false) (hclear : Clear release params.roots)
    (hdeployed : Deployed platform params.roots h.files) :
    DescriptorKept params.roots h.files (install platform release params luck h).1.files ↔
      ¬ SweepsDocuments params.roots luck h ∧
        ∀ plan', Deletes platform release params luck h plan' → Escapes params luck plan' := by
  obtain ⟨m, r, c, hmanifest, ⟨hr, hkey⟩, ⟨hdescriptor, -⟩, hapart⟩ := hdeployed
  cases hlock : luck.lock with
  | some error =>
    refine iff_of_true ?_ ⟨fun hsweeps => ?_, fun plan' hdeletes => ?_⟩
    · simp only [install, hlock]
      exact ⟨rfl, m, hmanifest, r, hr, hkey⟩
    · exact absurd (hlock.symm.trans hsweeps.1) (by simp)
    · exact absurd (hlock.symm.trans hdeletes.1) (by simp)
  | none =>
    have hsweptD : (sweep params.roots luck h).files (descriptorFile params.roots) =
        if SweptAway params.roots luck h (descriptorFile params.roots) then none else some c := by
      rw [sweep_apply descriptorFile_stale, hdescriptor]
    have hsweptM : (sweep params.roots luck h).files (manifestFile params.roots) =
        if SweptAway params.roots luck h (manifestFile params.roots) then none
        else some (.manifest m) := by
      rw [sweep_apply manifestFile_stale, hmanifest]
    unfold DescriptorKept SweepsDocuments
    rw [hdescriptor]
    rcases @install_documents β platform release params luck h hpython hclear hlock with
      ⟨plan', hdeletes, hended⟩ | ⟨hnone, hd, hm⟩
    · have hprepared := prepared_of_ok hdeletes.2.1
      have hgone := hprepared.descriptor_obsolete hpython
      have hunique : (∀ plan'', Deletes platform release params luck h plan'' →
          Escapes params luck plan'') ↔ Escapes params luck plan' := by
        refine ⟨fun hall => hall plan' hdeletes, fun hescapes plan'' hdeletes' => ?_⟩
        rw [Except.ok.inj (hdeletes'.2.1.symm.trans hdeletes.2.1)]
        exact hescapes
      rw [hunique, hended.descriptor, hended.manifest, hsweptD, hsweptM]
      by_cases hswept : SweptAway params.roots luck h (descriptorFile params.roots)
      · refine iff_of_false (fun hkept => ?_) fun hn => hn.1 ⟨hlock, .inl hswept⟩
        rw [if_pos hswept, ite_self] at hkept
        cases hkept.1
      by_cases hswept' : SweptAway params.roots luck h (manifestFile params.roots)
      · refine iff_of_false (fun hkept => ?_) fun hn => hn.1 ⟨hlock, .inr hswept'⟩
        obtain ⟨-, m', hm', r', hr', hkey'⟩ := hkept
        rw [if_pos hswept', ite_self] at hm'
        split at hm'
        · rw [← Content.manifest.inj (Option.some.inj hm')] at hr'
          exact hgone (hkey' ▸ hprepared.recorded r' hr')
        · cases hm'
      · -- The descriptor's record is the one that no planned file takes up.
        have hload : loadManifest platform luck params.roots (sweep params.roots luck h).files =
            .ok (some m) := by
          unfold loadManifest
          rw [hsweptM, if_neg hswept']
        obtain ⟨hall, hfrom⟩ := hprepared.obsolete m hload
        have hobsolete : descriptorFile params.roots ∈ plan'.obsolete := by
          obtain ⟨hroot, hpath⟩ := Prod.mk.inj hkey
          have hplace : place params.roots r.root r.path = descriptorFile params.roots := by
            rw [hroot, hpath]
            rfl
          rw [← hplace]
          refine hall r hr (hkey ▸ hgone) c ?_
          rw [hplace, hsweptD, if_neg hswept]
        have hnot : manifestFile params.roots ∉ plan'.obsolete := fun hmem => by
          obtain ⟨r', hr', -, heq⟩ := hfrom _ hmem
          exact hapart r' hr' heq.symm
        have hsweeps : ¬ (luck.lock = none ∧
            (SweptAway params.roots luck h (descriptorFile params.roots) ∨
              SweptAway params.roots luck h (manifestFile params.roots))) := fun hsweeps =>
          hsweeps.2.elim hswept hswept'
        rw [if_neg hswept, if_neg hswept', and_iff_right hsweeps]
        unfold Escapes
        by_cases hcommits : Commits luck plan'.manifest
        · refine iff_of_false (fun hkept => ?_) fun hescapes => hescapes.1 hcommits
          obtain ⟨-, m', hm', r', hr', hkey'⟩ := hkept
          rw [if_pos hcommits, Option.some.injEq, Content.manifest.injEq] at hm'
          rw [← hm'] at hr'
          exact hgone (hkey' ▸ hprepared.recorded r' hr')
        · have hstays (P : Prop) : ¬ (manifestFile params.roots ∈ plan'.obsolete ∧ P) :=
            fun hmem => hnot hmem.1
          rw [if_neg hcommits, if_neg (hstays _)]
          constructor
          · rintro ⟨hkept, -⟩
            by_cases hmoved : (luck.attempts (descriptorFile params.roots)).remove = true ∨
                (luck.attempts (descriptorFile params.roots)).aside = true
            · rw [if_pos ⟨hobsolete, hmoved⟩] at hkept
              cases hkept
            · obtain ⟨hremove, haside⟩ := not_or.mp hmoved
              exact ⟨hcommits, Bool.eq_false_iff.mpr hremove, Bool.eq_false_iff.mpr haside⟩
          · rintro ⟨-, hremove, haside⟩
            rw [if_neg (by simp [hremove, haside])]
            exact ⟨rfl, m, rfl, r, hr, hkey⟩
    · -- Without deletions both documents are as the sweep has left them.
      rw [hd, hm, hsweptD, hsweptM]
      by_cases hswept : SweptAway params.roots luck h (descriptorFile params.roots) ∨
          SweptAway params.roots luck h (manifestFile params.roots)
      · refine iff_of_false (fun hkept => ?_) fun hn => hn.1 ⟨hlock, hswept⟩
        rcases hswept with hswept | hswept
        · rw [if_pos hswept] at hkept
          cases hkept.1
        · obtain ⟨-, m', hm', -⟩ := hkept
          rw [if_pos hswept] at hm'
          cases hm'
      · obtain ⟨hnotD, hnotM⟩ := not_or.mp hswept
        rw [if_neg hnotD, if_neg hnotM]
        exact iff_of_true ⟨rfl, m, rfl, r, hr, hkey⟩
          ⟨fun hsweeps => hswept hsweeps.2, fun plan' hdeletes => absurd hdeletes (hnone plan')⟩

/-- What the release deploys, the descriptor included. -/
def releaseKeys (release : Release β) (params : InstallParams) : List (String × String) :=
  plainKeys release params ++ [descriptorKey]

/-- A file of the release is obsolete only if it is the descriptor and the probe has failed. -/
theorem Prepared.obsolete_released {files : Tree FilePath (Content β)} {plan' : Plan β}
    {m : Manifest} (hprepared : Prepared platform release params luck files plan')
    (hload : loadManifest platform luck params.roots files = .ok (some m)) :
    ∀ p ∈ plan'.obsolete, ∃ r ∈ m.files, p = place params.roots r.root r.path ∧
      (r.key ∉ releaseKeys release params ∨
        (r.key = descriptorKey ∧ params.python.isOk = false)) := by
  intro p hp
  obtain ⟨r, hr, hkey, heq⟩ := (hprepared.obsolete m hload).2 p hp
  refine ⟨r, hr, heq, ?_⟩
  rw [hprepared.keys] at hkey
  unfold releaseKeys
  cases hpython : params.python.isOk with
  | true =>
    rw [hpython, if_pos rfl] at hkey
    exact .inl hkey
  | false =>
    rw [hpython, if_neg Bool.false_ne_true, List.append_nil] at hkey
    by_cases hdescriptor : r.key = descriptorKey
    · exact .inr ⟨hdescriptor, rfl⟩
    · refine .inl fun hmem => ?_
      rcases List.mem_append.mp hmem with hmem | hmem
      · exact hkey hmem
      · exact hdescriptor (List.mem_singleton.mp hmem)

/-- After a failed probe the descriptor is kept only where the install does not get to its
deletions, or where neither they nor the new manifest succeed. -/
theorem descriptor_kept_iff (hpython : params.python.isOk = false)
    (hclear : Clear release params.roots) (hdeployed : Deployed platform params.roots h.files) :
    (DescriptorKept params.roots h.files (install platform release params luck h).1.files ↔
      ¬ SweepsDocuments params.roots luck h ∧
        ∀ plan', Deletes platform release params luck h plan' → Escapes params luck plan') ∧
    ∀ (params' : InstallParams) (luck' : Luck β) (files : Tree FilePath (Content β))
      (plan' : Plan β) (m : Manifest), prepare platform release params' luck' files = .ok plan' →
      loadManifest platform luck' params'.roots files = .ok (some m) →
      ∀ p ∈ plan'.obsolete, ∃ r ∈ m.files, p = place params'.roots r.root r.path ∧
        (r.key ∉ releaseKeys release params' ∨
          (r.key = descriptorKey ∧ params'.python.isOk = false)) :=
  ⟨kept_iff hpython hclear hdeployed,
    fun _ _ _ _ _ hprepare hload => (prepared_of_ok hprepare).obsolete_released hload⟩

end Runs

section Reinstalled

def homeRoots : Roots := ⟨"/home/u/.claude", "/home/u/.remy-cc"⟩

def descriptor : RuntimeDescriptor :=
  ⟨"/usr/bin/python3", (3, 12, 1), "CPython", "linux", "2026-01-01T00:00:00+00:00"⟩

/-- An install in an environment without an interpreter. -/
def unprobedParams : InstallParams where
  roots := homeRoots
  language := "en"
  suiteVersion := "2.0.0"
  sourceBinary := ["opt", "remy-cc"]
  python := .error (.runtime "Python interpreter probe failed")
  artifactSha256 := none
  approvedOverwrites := []

/-- The digests of the texts of these runs, which differ in their lengths. -/
def textPlatform : Platform (List Char) where
  sha256
    | .bytes text => match text.length with
      | 6 => "9a3a45d01531a20e89ac6ae10b0b0beb0492acd7216a368aa062d1a5fecaf9cd"
      | 26 => "f634f663bcf357cba2a5898e0180980844b1bd09126f86bc22bdf77085d157ba"
      | 71 => "8633b03c0bced56f996126af732f946f33310d0d138210c2687ac9be8f803808"
      | _ => "8c764662c6f3e996ae65cfd448849c30dfae7a490816594e4e0a931c771d2817"
    | .manifest _ => ""
  text := some
  ofText := id
  join := fun a b => a ++ "/" ++ b

def smallRelease : Release (List Char) := ⟨[], some (.obj [])⟩

/-- Every call succeeds. -/
def fairLuck : Luck (List Char) where
  pid := 7
  now := "2026-02-02T00:00:00+00:00"
  lock := none
  attempts := fun _ => ⟨true, true, none, true, true, true, true, true, true, ""⟩
  read := fun _ => none
  backup := fun _ => none
  aged := fun _ => false
  sweptRegister := true
  manifestWrite := none
  legacyRename := true
  registerMcp := none
  saveLanguage := none
  daemon := .ok false

def binaryContent : Content (List Char) := .bytes "binary".toList

def directiveContent : Content (List Char) := .bytes "Always respond in English\n".toList

def descriptorContent : Content (List Char) := textPlatform.encode descriptor.toValue

def settingsContent : Content (List Char) := textPlatform.encode
  (.obj [("env", .obj []), ("hooks", .obj []), ("permissions", .obj [("allow", .arr [])])])

def descriptorRecord : FileRecord :=
  ⟨rootRemy, descriptorRelativePath, textPlatform.digest descriptorContent, "runtime_descriptor"⟩

/-- The manifest of an install that found an interpreter. -/
def probedManifest : Manifest where
  suiteVersion := "2.0.0"
  installedAt := "2026-01-01T00:00:00+00:00"
  artifactSha256 := none
  files := [⟨rootClaude, "language.md", textPlatform.digest directiveContent, "claude_protocol"⟩,
    ⟨rootRemy, "bin/remy-cc", textPlatform.digest binaryContent, "daemon_binary"⟩, descriptorRecord]
  settingsClaim := ⟨[], []⟩

/-- The home that such an install leaves. -/
def probedHome : Home (Content (List Char)) where
  files := fun p =>
    if p = manifestFile homeRoots then some (.manifest probedManifest)
    else if p = descriptorFile homeRoots then some descriptorContent
    else if p = settingsFile homeRoots then some settingsContent
    else if p = place homeRoots rootClaude "language.md" then some directiveContent
    else if p = place homeRoots rootRemy "bin/remy-cc" then some binaryContent
    else if p = ["opt", "remy-cc"] then some binaryContent
    else none
  registered := []

theorem probedHome_deployed : Deployed textPlatform homeRoots probedHome.files := by
  have hne : descriptorFile homeRoots ≠ manifestFile homeRoots :=
    ne_of_name descriptorFile_name manifestFile_name (by decide)
  refine ⟨probedManifest, descriptorRecord, descriptorContent, ?_, ⟨?_, rfl⟩, ⟨?_, ?_⟩, ?_⟩
  · simp only [probedHome, if_true]
  · simp only [probedManifest, List.mem_cons, true_or, or_true]
  · simp only [probedHome, hne, if_false, if_true]
  · simp only [descriptorRecord]
  · simp only [probedManifest, List.forall_mem_cons]
    refine ⟨?_, ?_, hne, fun r hr => absurd hr List.not_mem_nil⟩
    · exact (@ne_documents _ _ _ "language.md" [] (by decide) (by decide) (by decide)).2
    · exact (@ne_documents _ _ _ "remy-cc" ["bin"] (by decide) (by decide) (by decide)).2

theorem smallRelease_clear : Clear smallRelease unprobedParams.roots :=
  fun _ he => absurd he List.not_mem_nil

theorem probedHome_writes : ∃ plan', Deletes textPlatform smallRelease unprobedParams fairLuck
    probedHome plan' := by
  have hplan : (prepare textPlatform smallRelease unprobedParams fairLuck
      (sweep homeRoots fairLuck probedHome).files).toOption.any (fun plan' =>
        (writeAll unprobedParams fairLuck plan' (sweep homeRoots fairLuck probedHome)).2.isOk) =
      true := by
    decide +kernel
  rw [Option.any_eq_true] at hplan
  obtain ⟨plan', hplan', hwritten⟩ := hplan
  refine ⟨plan', rfl, ?_, hwritten⟩
  cases hprepare : prepare textPlatform smallRelease unprobedParams fairLuck
      (sweep homeRoots fairLuck probedHome).files with
  | error error =>
    rw [hprepare] at hplan'
    cases hplan'
  | ok plan'' =>
    rw [hprepare] at hplan'
    rw [← Option.some.inj hplan']
    exact hprepare

/-- A reinstall without an interpreter loses the descriptor. -/
theorem descriptor_lost : Deployed textPlatform homeRoots probedHome.files ∧
    ¬ DescriptorKept homeRoots probedHome.files
      (install textPlatform smallRelease unprobedParams fairLuck probedHome).1.files := by
  refine ⟨probedHome_deployed, fun hkept => ?_⟩
  obtain ⟨plan', hdeletes⟩ := probedHome_writes
  have hall := ((kept_iff rfl smallRelease_clear probedHome_deployed).mp hkept).2
  exact Bool.false_ne_true (hall plan' hdeletes).2.1.symm

theorem descriptor_kept_iff_home :
    DescriptorKept homeRoots probedHome.files
        (install textPlatform smallRelease unprobedParams fairLuck probedHome).1.files ↔
      ¬ SweepsDocuments homeRoots fairLuck probedHome ∧
        ∀ plan', Deletes textPlatform smallRelease unprobedParams fairLuck probedHome plan' →
          Escapes unprobedParams fairLuck plan' :=
  (@descriptor_kept_iff (List Char) textPlatform smallRelease unprobedParams fairLuck probedHome rfl
    smallRelease_clear probedHome_deployed).1

end Reinstalled

end RemyCC.Install
