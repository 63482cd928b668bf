import RemyCC.Install.Frames
import RemyCC.Install.Probe
import RemyCC.Install.Uninstall

/-!
# Files of the user

What an operation makes beside its target has a name of its own kind. A file
that is not the installer's, by its name, by the manifest and by the register,
and whose bytes no install plans for its place or has been approved to overwrite
there, keeps them through every run of installs and uninstalls, whichever of
their file operations fail.
-/

namespace RemyCC.Install

open Files Json Json.Value Text Relational

variable {β : Type}

/-- No file beside another is made under this path. -/
structure Apart (p : FilePath) : Prop where
  stage : ∀ pid target, p ≠ stagePath pid target
  aside : ∀ pid target, p ≠ asidePath pid target
  backup : ∀ target, p ≠ backupPath target

/-- What a run may do to a file that it is not about. -/
structure Spared (p : FilePath) (h h' : Home (Content β)) : Prop where
  files : h'.files p = h.files p
  registered : p ∈ h'.registered → p ∈ h.registered

section Operations

variable {p target : FilePath} {a : Attempts (Content β)} {luck : Luck β} {h h' h'' : Home (Content β)}

theorem Spared.refl (h : Home (Content β)) : Spared p h h := ⟨rfl, id⟩

theorem Spared.trans (first : Spared p h h') (second : Spared p h' h'') : Spared p h h'' :=
  ⟨second.files.trans first.files, fun hmem => first.registered (second.registered hmem)⟩

theorem spared_files {files : Tree FilePath (Content β)} (hfiles : files p = h.files p) :
    Spared p h { h with files } := ⟨hfiles, id⟩

theorem register_spared {paths : List FilePath} (written : Bool) (hpaths : p ∉ paths) :
    Spared p h (register written paths h) := by
  refine ⟨by rw [register_files], fun hmem => ?_⟩
  rcases mem_register.mp hmem with hmem | ⟨-, hmem⟩
  · exact hmem
  · exact absurd hmem hpaths

theorem moveIn_spared {ε : Type} {allowed : Bool} {src tgt : FilePath} {error : ε}
    (hsrc : p ≠ src) (htgt : p ≠ tgt) : Spared p h (moveIn allowed src tgt error h).1 := by
  unfold moveIn
  cases hrename : rename allowed src tgt h.files with
  | none => exact .refl h
  | some files => exact spared_files (rename_other hrename hsrc htgt)

theorem renameOver_spared {pid : Nat} {stage : FilePath} (hp : Apart p) (htarget : p ≠ target)
    (hstage : p ≠ stage) : Spared p h (renameOver pid a stage target h).1 := by
  unfold renameOver
  cases hfirst : rename a.first stage target h.files with
  | some files => exact spared_files (rename_other hfirst hstage htarget)
  | none =>
    simp only
    cases hrename : rename a.aside target (asidePath pid target) h.files with
    | some files =>
      have hmoved : Spared p h { h with files } :=
        spared_files (rename_other hrename htarget (hp.aside pid target))
      refine (hmoved.trans (register_spared a.register ?_)).trans (moveIn_spared hstage htarget)
      simpa using hp.aside pid target
    | none =>
      refine spared_files ?_
      rw [removeFile]
      split
      · exact drop_of_ne hstage
      · rfl

theorem stagedWrite_spared {pid : Nat} {content : Content β} (hp : Apart p)
    (htarget : p ≠ target) : Spared p h (stagedWrite pid a target content h).1 := by
  have hstage : p ≠ stagePath pid target := hp.stage pid target
  have hstaged : Spared p h { h with
      files := writeStage a (stagePath pid target) content h.files } := by
    refine spared_files ?_
    unfold writeStage
    split
    · exact put_of_ne hstage
    · exact if_neg hstage
  unfold stagedWrite
  cases a.directory with
  | false => exact .refl h
  | true =>
    cases a.write with
    | false => exact hstaged
    | true => exact hstaged.trans (renameOver_spared hp htarget hstage)

theorem removeOrDefer_spared (hp : Apart p) (htarget : p ≠ target) :
    Spared p h (removeOrDefer luck target h).1 := by
  rcases removeOrDefer_cases luck target h with ⟨-, heq⟩ | ⟨-, -, heq⟩ | ⟨files, -, -, hrename, heq⟩ |
    ⟨-, -, -, heq⟩
  · rw [heq]
    exact .refl h
  · rw [heq]
    exact spared_files (drop_of_ne htarget)
  · rw [heq]
    have hmoved : Spared p h { h with files } :=
      spared_files (rename_other hrename htarget (hp.aside luck.pid target))
    exact hmoved.trans (register_spared _ fun hmem =>
      hp.aside luck.pid target (List.mem_singleton.mp hmem))
  · rw [heq]
    exact register_spared _ fun hmem => htarget (List.mem_singleton.mp hmem)

theorem removeAll_spared {targets : List FilePath} (hp : Apart p) (htargets : p ∉ targets) :
    Spared p h (removeAll luck targets h).1 := by
  induction targets generalizing h with
  | nil => exact .refl h
  | cons target targets ih =>
    rw [List.mem_cons, not_or] at htargets
    exact (removeOrDefer_spared hp htargets.1).trans (ih htargets.2)

variable {params : InstallParams} {file : PlannedFile β} {roots : Roots}

theorem andThen_spared {α γ : Type} {r : Home (Content β) × Except InstallError α}
    {next : α → Run β γ} (hr : Spared p h r.1) (hnext : ∀ a h, Spared p h (next a h).1) :
    Spared p h (andThen r next).1 := by
  unfold andThen
  cases r.2 with
  | error error => exact hr
  | ok a => exact hr.trans (hnext a r.1)

theorem writePayload_spared (hp : Apart p) (htarget : p ≠ target) :
    Spared p h (writePayload luck file target h).1 := by
  unfold writePayload
  cases file.payload with
  | bytes content => exact stagedWrite_spared hp htarget
  | file source =>
    simp only [deployBinary]
    split
    · exact .refl h
    · split
      · exact stagedWrite_spared hp htarget
      · exact .refl h
      · exact .refl h

theorem deployFile_spared {decision : Decision} (hp : Apart p)
    (htarget : p ≠ place params.roots file.root file.path) :
    Spared p h (deployFile params luck file decision h).1 := by
  unfold deployFile
  cases decision.write with
  | false => exact .refl h
  | true =>
    refine andThen_spared ?_ fun changed h => andThen_spared (writePayload_spared hp htarget)
      fun _ h => .refl h
    split
    · unfold backupFirst
      split
      · exact spared_files (put_of_ne (hp.backup _))
      · exact .refl h
      · exact .refl h
    · exact .refl h

theorem deployFiles_spared {decided : List (PlannedFile β × Decision)} (hp : Apart p)
    (htargets : ∀ f ∈ decided, p ≠ place params.roots f.1.root f.1.path) :
    Spared p h (deployFiles params luck decided h).1 := by
  induction decided generalizing h with
  | nil => exact .refl h
  | cons f decided ih =>
    obtain ⟨hhead, htail⟩ := List.forall_mem_cons.mp htargets
    exact andThen_spared (deployFile_spared hp hhead) fun _ h =>
      andThen_spared (ih htail) fun _ h => .refl h

theorem writeSettings_spared {settings : Option (Content β)} (hp : Apart p)
    (htarget : p ≠ settingsFile params.roots) :
    Spared p h (writeSettings params luck settings h).1 := by
  unfold writeSettings
  cases settings with
  | none => exact .refl h
  | some content => exact andThen_spared (stagedWrite_spared hp htarget) fun _ h => .refl h

theorem writeManifest_spared {m : Manifest} (htarget : p ≠ manifestFile params.roots) :
    Spared p h (writeManifest params luck m h).1 := by
  unfold writeManifest
  split
  · exact .refl h
  · exact .refl h
  · exact spared_files (put_of_ne htarget)

theorem postCommit_spared (hp : Apart p)
    (hlegacy : p ≠ place params.roots rootClaude legacyManifestName)
    (htransaction : p ≠ place params.roots rootRemy "install/transaction.json") :
    Spared p h (postCommit params luck h).1 := by
  unfold postCommit
  refine Spared.trans ?_ (removeOrDefer_spared hp htransaction)
  split
  next files hrename => exact spared_files (rename_other hrename hlegacy (hp.backup _))
  next => exact removeOrDefer_spared hp hlegacy

theorem removeRecords_spared {records : List FileRecord} (hp : Apart p)
    (hrecords : ∀ r ∈ records, p ≠ place roots r.root r.path) :
    Spared p h (removeRecords roots luck records h).1 := by
  induction records generalizing h with
  | nil => exact .refl h
  | cons r records ih =>
    obtain ⟨hhead, htail⟩ := List.forall_mem_cons.mp hrecords
    unfold removeRecords
    simp only
    split
    · exact ih htail
    · exact (removeOrDefer_spared hp hhead).trans (ih htail)

theorem cleanSettings_spared {platform : Platform β} {claim : SettingsClaim} (hp : Apart p)
    (htarget : p ≠ settingsFile roots) :
    Spared p h (cleanSettings platform roots luck claim h).1 := by
  unfold cleanSettings
  simp only
  split
  · exact .refl h
  · split
    · exact .refl h
    · split
      · exact .refl h
      · exact andThen_spared (stagedWrite_spared hp htarget) fun _ h => .refl h

theorem purgeState_spared {purge : Purge}
    (houtside : (components roots.remyRoot).isPrefixOf p = false) :
    Spared p h (purgeState roots purge h).1 := by
  unfold purgeState
  simp only
  split
  · exact ⟨if_neg (by rw [houtside]; exact Bool.false_ne_true),
      fun hmem => absurd hmem List.not_mem_nil⟩
  · refine ⟨if_neg (by rw [houtside]; exact Bool.false_ne_true), fun hmem => ?_⟩
    simp only at hmem
    split at hmem
    · exact hmem
    · cases hmem

theorem sweepEntries_spared (paths : List FilePath) (files : Tree FilePath (Content β)) :
    (p ∉ paths → (sweepEntries roots luck paths files).1 p = files p) ∧
      (sweepEntries roots luck paths files).2 ⊆ paths := by
  induction paths generalizing files with
  | nil => exact ⟨fun _ => rfl, fun _ hmem => hmem⟩
  | cons path paths ih =>
    obtain ⟨hfiles, hentries⟩ := ih (sweepEntry roots luck path files).1
    have hfirst : p ≠ path → (sweepEntry roots luck path files).1 p = files p := by
      intro hne
      unfold sweepEntry remove
      split
      · rfl
      · split
        next hsome =>
          split at hsome
          · cases hsome
          · split at hsome
            · cases hsome
              exact drop_of_ne hne
            · cases hsome
        next => rfl
        next => rfl
    refine ⟨fun hmem => ?_, fun q hq => ?_⟩
    · rw [List.mem_cons, not_or] at hmem
      exact (hfiles hmem.2).trans (hfirst hmem.1)
    · rcases List.mem_append.mp hq with hq | hq
      · split at hq
        · exact List.mem_singleton.mp hq ▸ List.mem_cons_self
        · cases hq
      · exact List.mem_cons_of_mem path (hentries hq)

theorem sweep_spared (hregistered : p ∉ h.registered)
    (hstale : (p.getLast?).any isStaleStagingName = false) :
    Spared p h (sweep roots luck h) := by
  obtain ⟨hfiles, hentries⟩ :=
    @sweepEntries_spared β p luck roots h.registered h.files
  refine ⟨?_, fun hmem => ?_⟩
  · unfold sweep sweepStaleStaging sweepRegister
    simp only [hstale, Bool.and_false, Bool.false_and, Bool.false_eq_true, if_false]
    exact hfiles hregistered
  · unfold sweep sweepStaleStaging sweepRegister at hmem
    simp only at hmem
    split at hmem
    · exact hentries hmem
    · exact hmem

end Operations

section Names

/-- No staged file, file moved aside or backup is called so. -/
structure PlainName (name : String) : Prop where
  stage : ∀ pid : Nat, endsWith name (".remy-stage-" ++ toString pid) = false
  aside : ∀ pid : Nat, endsWith name (".old-" ++ toString pid) = false
  backup : endsWith name ".bak" = false
  stale : isStaleStagingName name = false

variable {p : FilePath} {name : String}

theorem endsWith_append (front tail : String) : endsWith (front ++ tail) tail = true := by
  unfold endsWith
  rw [List.isSuffixOf_iff_suffix, String.toList_append]
  exact List.suffix_append _ _

theorem apart_of_plain (hlast : p.getLast? = some name) (hname : PlainName name) : Apart p := by
  refine ⟨?_, ?_, ?_⟩
  · rintro pid target rfl
    rw [stagePath, List.getLast?_concat, Option.some.injEq, String.append_assoc] at hlast
    have hends := hname.stage pid
    rw [← hlast, endsWith_append] at hends
    cases hends
  · rintro pid target rfl
    unfold asidePath withExtension at hlast
    split at hlast
    · next front _ =>
      have hdot : "." ++ ("old-" ++ toString pid) = ".old-" ++ toString pid :=
        (String.append_assoc).symm
      rw [List.getLast?_concat, Option.some.injEq, String.append_assoc, hdot] at hlast
      have hends := hname.aside pid
      rw [← hlast, endsWith_append] at hends
      cases hends
    · next hnone =>
      rw [hnone] at hlast
      cases hlast
  · rintro target rfl
    unfold backupPath at hlast
    split at hlast
    · rw [List.getLast?_concat, Option.some.injEq] at hlast
      have hends := hname.backup
      rw [← hlast, endsWith_append] at hends
      cases hends
    · next hnone =>
      rw [hnone] at hlast
      cases hlast

variable {roots : Roots}

theorem apart_manifest : Apart (manifestFile roots) :=
  ⟨fun _ _ => ne_stagePath manifestFile_lastChar, fun _ _ => ne_asidePath manifestFile_lastChar,
    fun _ => ne_backupPath manifestFile_lastChar⟩

theorem settings_name : (settingsFile roots).getLast? = some "settings.json" :=
  @components_append_name _ _ _ _ [] (by decide)

theorem manifest_ne_settings : manifestFile roots ≠ settingsFile roots :=
  ne_of_name manifestFile_name settings_name (by decide)

theorem manifest_ne_legacy : manifestFile roots ≠ place roots rootClaude legacyManifestName :=
  ne_of_name manifestFile_name
    (@components_append_name _ _ _ ".installer_manifest.json" [] (by decide)) (by decide)

theorem manifest_ne_transaction :
    manifestFile roots ≠ place roots rootRemy "install/transaction.json" :=
  ne_of_name manifestFile_name
    (@components_append_name _ _ _ "transaction.json" ["install"] (by decide)) (by decide)

end Names

section Manifests

variable (platform : Platform β) (roots : Roots)

/-- A record of the manifest that the files hold. -/
def Recorded (files : Tree FilePath (Content β)) (r : FileRecord) : Prop :=
  ∃ m, r ∈ m.files ∧ (files (manifestFile roots) = some (.manifest m) ∨
    ∃ b value, files (manifestFile roots) = some (.bytes b) ∧
      platform.parseBytes b = some value ∧ readManifest value = .ok m)

/-- The file is as it was, or gone. -/
def Lessened (q : FilePath) (files files' : Tree FilePath (Content β)) : Prop :=
  files' q = files q ∨ files' q = none

variable {platform roots} {q : FilePath} {files files' files'' : Tree FilePath (Content β)}
variable {r : FileRecord} {luck : Luck β} {h : Home (Content β)}

theorem recorded_of_load {m : Manifest} (hload : loadManifest platform luck roots files = .ok (some m))
    (hr : r ∈ m.files) : Recorded platform roots files r := by
  unfold loadManifest at hload
  refine ⟨m, hr, ?_⟩
  split at hload
  · cases hload
  · next m' hfile =>
    rw [Except.ok.injEq, Option.some.injEq] at hload
    exact .inl (hload ▸ hfile)
  · next b hfile =>
    split at hload
    · next value hread hparse =>
      split at hload
      · cases hvalue : readManifest value with
        | error error =>
          rw [hvalue] at hload
          cases hload
        | ok m' =>
          rw [hvalue] at hload
          cases hload
          exact .inr ⟨b, value, hfile, hparse, hvalue⟩
      · cases hload
    · cases hload

theorem Lessened.refl (q : FilePath) (files : Tree FilePath (Content β)) : Lessened q files files :=
  .inl rfl

theorem Lessened.trans (first : Lessened q files files') (second : Lessened q files' files'') :
    Lessened q files files'' := by
  rcases second with second | second
  · exact first.imp second.trans second.trans
  · exact .inr second

theorem Spared.lessened {h' : Home (Content β)} (hspared : Spared q h h') :
    Lessened q h.files h'.files := .inl hspared.files

theorem Recorded.of_lessened (hlessened : Lessened (manifestFile roots) files files')
    (hr : Recorded platform roots files' r) : Recorded platform roots files r := by
  obtain ⟨m, hmem, hfile⟩ := hr
  rcases hlessened with hsame | hnone
  · rw [hsame] at hfile
    exact ⟨m, hmem, hfile⟩
  · rw [hnone] at hfile
    rcases hfile with hfile | ⟨b, value, hfile, -⟩
    · cases hfile
    · cases hfile

theorem removeOrDefer_lessened (hq : Apart q) (target : FilePath) :
    Lessened q h.files (removeOrDefer luck target h).1.files := by
  by_cases htarget : q = target
  · subst htarget
    rcases removeOrDefer_cases luck q h with ⟨-, heq⟩ | ⟨-, -, heq⟩ | ⟨files, -, -, hrename, heq⟩ |
      ⟨-, -, -, heq⟩
    · rw [heq]
      exact .refl q h.files
    · rw [heq]
      exact .inr drop_self
    · rw [heq, register_files]
      exact .inr (rename_src hrename (hq.aside luck.pid q))
    · rw [heq, register_files]
      exact .refl q h.files
  · exact (removeOrDefer_spared hq htarget).lessened

theorem removeAll_lessened (hq : Apart q) (targets : List FilePath) :
    Lessened q h.files (removeAll luck targets h).1.files := by
  induction targets generalizing h with
  | nil => exact .refl q h.files
  | cons target targets ih => exact (removeOrDefer_lessened hq target).trans ih

theorem removeRecords_lessened (hq : Apart q) (records : List FileRecord) :
    Lessened q h.files (removeRecords roots luck records h).1.files := by
  induction records generalizing h with
  | nil => exact .refl q h.files
  | cons r records ih =>
    unfold removeRecords
    simp only
    split
    · exact ih
    · exact (removeOrDefer_lessened hq _).trans ih

theorem andThen_lessened {α γ : Type} {s : Home (Content β) × Except InstallError α}
    {next : α → Run β γ} (hs : Lessened q files s.1.files)
    (hnext : ∀ a h, Lessened q h.files (next a h).1.files) :
    Lessened q files (andThen s next).1.files := by
  unfold andThen
  cases s.2 with
  | error error => exact hs
  | ok a => exact hs.trans (hnext a s.1)

theorem purgeState_lessened (purge : Purge) :
    Lessened q h.files (purgeState roots purge h).1.files := by
  unfold purgeState
  simp only
  split
  · exact (ite_eq_or_eq _ _ _).symm
  · exact (ite_eq_or_eq _ _ _).symm

theorem sweep_lessened : Lessened (manifestFile roots) h.files (sweep roots luck h).files := by
  rw [Lessened, sweep_apply manifestFile_stale]
  exact (ite_eq_or_eq _ _ _).symm

end Manifests

section Plans

variable {platform : Platform β} {release : Release β} {params : InstallParams} {luck : Luck β}
variable {files : Tree FilePath (Content β)} {p : FilePath} {c : Content β}

/-- Neither planned for the place where it is, nor approved to be overwritten there. -/
def Foreign (platform : Platform β) (params : InstallParams) (p : FilePath) (c : Content β)
    (file : PlannedFile β) : Prop :=
  place params.roots file.root file.path = p → platform.digest c ≠ file.digest ∧
    ∀ a ∈ params.approvedOverwrites, a.root = file.root → a.path = file.path →
      a.sha256 ≠ platform.digest c

theorem decideFile_conflict {file : PlannedFile β} {disk : String}
    (hdigest : disk ≠ file.digest) (happroved : ∀ a ∈ params.approvedOverwrites,
      a.root = file.root → a.path = file.path → a.sha256 ≠ disk) {decision : Decision} :
    decideFile params file (some disk) none ≠ .ok (.inl decision) := by
  unfold decideFile
  simp only [if_neg hdigest]
  cases hfound : approvedFor params file with
  | none =>
    simp only
    intro h
    cases h
  | some a =>
    have hmem := List.mem_of_find?_eq_some hfound
    have hkey := List.find?_some hfound
    rw [Bool.and_eq_true, beq_iff_eq, beq_iff_eq] at hkey
    simp only [if_neg (happroved a hmem hkey.1 hkey.2)]
    intro h
    cases h

/-- A file of the user at a planned place is a conflict. -/
theorem checkFiles_foreign {records : List FileRecord} {planned : List (PlannedFile β)}
    {checked : Checked β} (hc : files p = some c)
    (hrecords : ∀ r ∈ records, p ≠ place params.roots r.root r.path)
    (hforeign : ∀ file ∈ planned, Foreign platform params p c file)
    (hchecked : checkFiles platform params luck files records planned = .ok checked)
    (hnone : checked.conflicts = []) :
    ∀ file ∈ planned, p ≠ place params.roots file.root file.path := by
  induction planned generalizing records checked with
  | nil => exact fun file hfile => absurd hfile List.not_mem_nil
  | cons file planned ih =>
    obtain ⟨hhead, htail⟩ := List.forall_mem_cons.mp hforeign
    obtain ⟨disk, hdisk, hchecked⟩ := exists_of_bind_ok hchecked
    obtain ⟨decision, hdecision, hchecked⟩ := exists_of_bind_ok hchecked
    obtain ⟨checked', hchecked', hchecked⟩ := exists_of_bind_ok hchecked
    cases decision with
    | inr conflict =>
      rw [← Except.ok.inj hchecked] at hnone
      cases hnone
    | inl decision =>
      rw [← Except.ok.inj hchecked] at hnone
      refine List.forall_mem_cons.mpr ⟨fun hplace => ?_, ?_⟩
      · obtain ⟨hdigest, happroved⟩ := hhead hplace.symm
        have hold : records.find? (fun r => r.key == file.key) = none := by
          refine List.find?_eq_none.mpr fun r hr hkey => hrecords r hr ?_
          obtain ⟨hroot, hpath⟩ := Prod.mk.inj (eq_of_beq hkey)
          rw [hplace, hroot, hpath]
        have hread : disk = some (platform.digest c) := by
          unfold diskDigest at hdisk
          rw [← hplace, hc] at hdisk
          simp only at hdisk
          split at hdisk
          · cases hdisk
          · exact (Except.ok.inj hdisk).symm
        rw [hold, hread] at hdecision
        exact decideFile_conflict hdigest happroved hdecision
      · exact ih (fun r hr => hrecords r (List.mem_filter.mp hr).1) htail hchecked' hnone

/-- An install that is prepared is about neither a file of the user nor its record. -/
theorem prepare_foreign {plan' : Plan β}
    (hprepare : prepare platform release params luck files = .ok plan') (hc : files p = some c)
    (hrecorded : ∀ r, Recorded platform params.roots files r → p ≠ place params.roots r.root r.path)
    (hforeign : ∀ planned warnings, plan platform params luck release files = .ok (planned, warnings) →
      ∀ file ∈ planned, Foreign platform params p c file) :
    (∀ f ∈ plan'.decided, p ≠ place params.roots f.1.root f.1.path) ∧ p ∉ plan'.obsolete := by
  obtain ⟨old, hold, hprepare⟩ := exists_of_bind_ok hprepare
  obtain ⟨⟨planned, warnings⟩, hplan, hprepare⟩ := exists_of_bind_ok hprepare
  obtain ⟨checked, hchecked, hprepare⟩ := exists_of_bind_ok hprepare
  obtain ⟨_, hrefused, hprepare⟩ := exists_of_bind_ok hprepare
  obtain ⟨obsolete, hobsolete, hprepare⟩ := exists_of_bind_ok hprepare
  obtain ⟨⟨settings, claim⟩, -, hprepare⟩ := exists_of_bind_ok hprepare
  have hold' : ∀ r ∈ oldRecords old, p ≠ place params.roots r.root r.path := by
    intro r hr
    rw [oldRecords, mem_orderBy] at hr
    cases old with
    | none => cases hr
    | some m => exact hrecorded r (recorded_of_load hold hr)
  have hnone : checked.conflicts = [] := by
    unfold refuseConflicts at hrefused
    split at hrefused
    · next hempty => exact List.isEmpty_iff.mp hempty
    · cases hrefused
  have hdecided := checkFiles_decided hchecked
  rw [← Except.ok.inj hprepare]
  refine ⟨fun f hf => ?_, fun hmem => ?_⟩
  · refine checkFiles_foreign hc hold' (hforeign planned warnings hplan) hchecked hnone f.1 ?_
    rw [← hdecided]
    exact List.mem_map_of_mem hf
  · obtain ⟨r, hr, hplace⟩ := (findObsolete_ok hobsolete).2 p hmem
    exact hold' r (List.mem_filter.mp hr).1 hplace

end Plans

section Runs

inductive Call (β : Type) where
  | install (release : Release β) (params : InstallParams) (luck : Luck β)
  | uninstall (luck : Luck β) (purge : Option Purge)

variable (platform : Platform β) (roots : Roots)

/-- A call on the two roots, whether or not it succeeds. -/
def perform (h : Home (Content β)) : Call β → Home (Content β)
  | .install release params luck => (install platform release { params with roots } luck h).1
  | .uninstall luck purge => (uninstall platform roots luck purge h).1

/-- The call has nothing to do with the file: an install neither plans its bytes nor may overwrite
them, and a purge is of another directory. No release places a file where the manifest is. -/
def Call.Leaves (p : FilePath) (c : Content β) : Call β → Prop
  | .install release params luck => Clear release roots ∧ ∀ files planned warnings,
      plan platform { params with roots } luck release files = .ok (planned, warnings) →
        ∀ file ∈ planned, Foreign platform { params with roots } p c file
  | .uninstall _ purge => purge.isSome → (components roots.remyRoot).isPrefixOf p = false

/-- The path is none of the installer's own. -/
structure Outside (p : FilePath) : Prop where
  name : ∃ name, p.getLast? = some name ∧ PlainName name
  settings : p ≠ settingsFile roots
  manifest : p ≠ manifestFile roots
  legacy : p ≠ place roots rootClaude legacyManifestName
  transaction : p ≠ place roots rootRemy "install/transaction.json"

/-- The file holds these bytes, and no manifest or register knows of it. -/
structure Unknown (p : FilePath) (c : Content β) (h : Home (Content β)) : Prop where
  holds : h.files p = some c
  registered : p ∉ h.registered
  recorded : ∀ r, Recorded platform roots h.files r → p ≠ place roots r.root r.path

variable {platform roots} {p : FilePath} {c : Content β} {h h' : Home (Content β)}
variable {release : Release β} {params : InstallParams} {luck : Luck β}

theorem Outside.apart (hp : Outside roots p) : Apart p := by
  obtain ⟨name, hlast, hname⟩ := hp.name
  exact apart_of_plain hlast hname

theorem Outside.stale (hp : Outside roots p) : (p.getLast?).any isStaleStagingName = false := by
  obtain ⟨name, hlast, hname⟩ := hp.name
  rw [hlast, Option.any_some]
  exact hname.stale

theorem Unknown.of_spared (hunknown : Unknown platform roots p c h) (hspared : Spared p h h')
    (hrecorded : ∀ r, Recorded platform roots h'.files r → p ≠ place roots r.root r.path) :
    Unknown platform roots p c h' :=
  ⟨hspared.files.trans hunknown.holds, fun hmem => hunknown.registered (hspared.registered hmem),
    hrecorded⟩

theorem Unknown.of_lessened (hunknown : Unknown platform roots p c h) (hspared : Spared p h h')
    (hlessened : Lessened (manifestFile roots) h.files h'.files) : Unknown platform roots p c h' :=
  hunknown.of_spared hspared fun r hr => hunknown.recorded r (hr.of_lessened hlessened)

theorem commit_spared {plan' : Plan β} {changed : List String} (hp : Outside params.roots p)
    (hobsolete : p ∉ plan'.obsolete) : Spared p h (commit params luck plan' changed h).1 :=
  (removeAll_spared hp.apart hobsolete).trans
    (andThen_spared (writeManifest_spared hp.manifest) fun _ _ =>
      postCommit_spared hp.apart hp.legacy hp.transaction)

theorem writeAll_spared {plan' : Plan β} (hp : Apart p) (hsettings : p ≠ settingsFile params.roots)
    (hdecided : ∀ f ∈ plan'.decided, p ≠ place params.roots f.1.root f.1.path) :
    Spared p h (writeAll params luck plan' h).1 :=
  andThen_spared (deployFiles_spared hp hdecided) fun _ _ =>
    andThen_spared (writeSettings_spared hp hsettings) fun _ h => .refl h

/-- No planned place is the manifest's. -/
theorem decided_ne_manifest {files : Tree FilePath (Content β)} {plan' : Plan β}
    (hprepared : Prepared platform release params luck files plan')
    (hclear : Clear release params.roots) : ∀ f ∈ plan'.decided,
      manifestFile params.roots ≠ place params.roots f.1.root f.1.path := by
  intro f hf
  have hkey : f.1.key ∈ plan'.decided.map fun f => f.1.key := List.mem_map_of_mem hf
  rw [hprepared.keys] at hkey
  rcases List.mem_append.mp hkey with hkey | hkey
  · exact (plainKeys_clear hclear hkey).2.symm
  · split at hkey
    · obtain ⟨hroot, hpath⟩ := Prod.mk.inj (List.mem_singleton.mp hkey)
      have hplace : place params.roots f.1.root f.1.path = descriptorFile params.roots := by
        rw [hroot, hpath, descriptorFile]
      rw [hplace]
      exact ne_of_name manifestFile_name descriptorFile_name (by decide)
    · cases hkey

/-- What the manifest records after a commit is planned, or was recorded before. -/
theorem recorded_of_commit {plan' : Plan β} {changed : List String} {r : FileRecord}
    (hr : Recorded platform params.roots
      (commit params luck plan' changed h).1.files r) :
    r ∈ plan'.manifest.files ∨ Recorded platform params.roots h.files r := by
  obtain ⟨-, hcommitted⟩ := @commit_files β params luck h plan' changed
  by_cases hcommits : Commits luck plan'.manifest
  · rw [if_pos hcommits] at hcommitted
    obtain ⟨m, hmem, hfile⟩ := hr
    rw [hcommitted] at hfile
    rcases hfile with hfile | ⟨b, value, hfile, -⟩
    · obtain rfl : plan'.manifest = m := Content.manifest.inj (Option.some.inj hfile)
      exact .inl hmem
    · cases hfile
  · rw [if_neg hcommits] at hcommitted
    have hlessened : Lessened (manifestFile params.roots) h.files
        (commit params luck plan' changed h).1.files := by
      rw [Lessened, hcommitted]
      exact removeAll_lessened apart_manifest plan'.obsolete
    exact .inr (hr.of_lessened hlessened)

theorem install_unknown (hp : Outside params.roots p) (hunknown : Unknown platform params.roots p c h)
    (hclear : Clear release params.roots)
    (hforeign : ∀ files planned warnings,
      plan platform params luck release files = .ok (planned, warnings) →
        ∀ file ∈ planned, Foreign platform params p c file) :
    Unknown platform params.roots p c (install platform release params luck h).1 := by
  have hswept : Unknown platform params.roots p c (sweep params.roots luck h) :=
    hunknown.of_lessened (sweep_spared hunknown.registered hp.stale) sweep_lessened
  unfold install
  split
  · exact hunknown
  · simp only
    split
    · exact hswept
    · next plan' hprepare =>
      obtain ⟨hdecided, hobsolete⟩ := prepare_foreign hprepare hswept.holds hswept.recorded
        (hforeign _)
      have hprepared := prepared_of_ok hprepare
      have hmanifest : Spared (manifestFile params.roots) (sweep params.roots luck h)
          (writeAll params luck plan' (sweep params.roots luck h)).1 :=
        writeAll_spared apart_manifest manifest_ne_settings (decided_ne_manifest hprepared hclear)
      have hwritten := hswept.of_lessened (writeAll_spared hp.apart hp.settings hdecided)
        hmanifest.lessened
      unfold andThen
      split
      · exact hwritten
      · refine hwritten.of_spared (commit_spared hp hobsolete) fun r hr => ?_
        rcases recorded_of_commit hr with hmem | hr
        · obtain ⟨f, hf, hkey⟩ := List.mem_map.mp (hprepared.recorded r hmem)
          obtain ⟨hroot, hpath⟩ := Prod.mk.inj hkey
          rw [← hroot, ← hpath]
          exact hdecided f hf
        · exact hwritten.recorded r hr

theorem uninstall_unknown {purge : Option Purge} (hp : Outside roots p)
    (hunknown : Unknown platform roots p c h)
    (hpurge : purge.isSome = true → (components roots.remyRoot).isPrefixOf p = false) :
    Unknown platform roots p c (uninstall platform roots luck purge h).1 := by
  unfold uninstall
  split
  · exact hunknown
  · split
    · exact hunknown
    · next m warnings hplan =>
      have hload : loadManifest platform luck roots h.files = .ok (some m) := by
        unfold uninstallPlan at hplan
        obtain ⟨loaded, hload, hplan⟩ := exists_of_bind_ok hplan
        cases loaded with
        | none => cases hplan
        | some m' =>
          obtain ⟨others, -, hplan⟩ := exists_of_bind_ok hplan
          obtain ⟨rfl, -⟩ := Prod.mk.inj (Except.ok.inj hplan)
          exact hload
      have hrecords : ∀ r ∈ m.files, p ≠ place roots r.root r.path :=
        fun r hr => hunknown.recorded r (recorded_of_load hload hr)
      have hremoved : Unknown platform roots p c (removeRecords roots luck m.files h).1 :=
        hunknown.of_lessened (removeRecords_spared hp.apart hrecords)
          (removeRecords_lessened apart_manifest m.files)
      have hcleaned : Unknown platform roots p c
          (cleanSettings platform roots luck m.settingsClaim (removeRecords roots luck m.files h).1).1 :=
        hremoved.of_lessened (cleanSettings_spared hp.apart hp.settings)
          (Spared.lessened (cleanSettings_spared apart_manifest manifest_ne_settings))
      simp only
      unfold andThen
      split
      · exact hcleaned
      · next cleaned hok =>
        generalize cleanSettings platform roots luck m.settingsClaim
          (removeRecords roots luck m.files h).1 = r at hcleaned
        have hlast : Unknown platform roots p c
            (removeOrDefer luck (manifestFile roots) r.1).1 :=
          hcleaned.of_lessened (removeOrDefer_spared hp.apart hp.manifest)
            (removeOrDefer_lessened apart_manifest _)
        cases purge with
        | none => exact hlast
        | some purge =>
          have hpurged : Unknown platform roots p c
              (purgeState roots purge (removeOrDefer luck (manifestFile roots) r.1).1).1 :=
            hlast.of_lessened (purgeState_spared (hpurge rfl)) (purgeState_lessened purge)
          simp only
          split
          · exact hpurged
          · exact hpurged

theorem perform_unknown (hp : Outside roots p) (hunknown : Unknown platform roots p c h)
    {call : Call β} (hcall : call.Leaves platform roots p c) :
    Unknown platform roots p c (perform platform roots h call) := by
  cases call with
  | install release params luck =>
    have hparams : Unknown platform ({ params with roots } : InstallParams).roots p c
        (install platform release { params with roots } luck h).1 :=
      install_unknown hp hunknown hcall.1 hcall.2
    exact hparams
  | uninstall luck purge => exact uninstall_unknown hp hunknown hcall

end Runs

section Example

def notesPath : FilePath := ["home", "u", ".claude", "notes.md"]

def notesContent : Content (List Char) := .bytes "mine".toList

/-- The home of an install, with a file of the user in it. -/
def sharedHome : Home (Content (List Char)) where
  files := put notesPath notesContent probedHome.files
  registered := []

/-- A reinstall without an interpreter, and an uninstall. -/
def sharedCalls : List (Call (List Char)) :=
  [.install smallRelease unprobedParams fairLuck, .uninstall fairLuck none]

theorem endsWith_toString {name front : String} {c : Char} (pid : Nat)
    (hlast : name.toList.getLast? = some c) (hc : c.isDigit = false) :
    endsWith name (front ++ toString pid) = false := by
  rw [← Bool.not_eq_true]
  intro hends
  obtain ⟨d, hd, hdigit⟩ := getLast?_append_toString front pid
  obtain ⟨others, hothers⟩ := List.isSuffixOf_iff_suffix.mp hends
  rw [← hothers, List.getLast?_append, hd, Option.some_or, Option.some.injEq] at hlast
  rw [hlast, hc] at hdigit
  cases hdigit

theorem notes_plain : PlainName "notes.md" :=
  ⟨fun pid => endsWith_toString pid (c := 'd') (by decide) (by decide),
    fun pid => endsWith_toString pid (c := 'd') (by decide) (by decide), by decide,
    by decide +kernel⟩

theorem notes_outside : Outside homeRoots notesPath :=
  ⟨⟨"notes.md", rfl, notes_plain⟩, by decide +kernel, by decide +kernel, by decide +kernel,
    by decide +kernel⟩

theorem notes_unknown : Unknown textPlatform homeRoots notesPath notesContent sharedHome := by
  have hfiles : sharedHome.files = put notesPath notesContent probedHome.files := rfl
  refine ⟨by rw [hfiles, put_self], List.not_mem_nil, ?_⟩
  rintro r ⟨m, hr, hfile⟩
  have hmanifest : sharedHome.files (manifestFile homeRoots) = some (.manifest probedManifest) := by
    have hne : manifestFile homeRoots ≠ notesPath := by decide +kernel
    rw [hfiles, put_of_ne hne]
    simp only [probedHome, if_true]
  rw [hmanifest] at hfile
  rcases hfile with hfile | ⟨b, value, hfile, -⟩
  · obtain rfl : probedManifest = m := Content.manifest.inj (Option.some.inj hfile)
    have hall : (probedManifest.files.all fun r =>
        notesPath != place homeRoots r.root r.path) = true := by decide +kernel
    exact bne_iff_ne.mp (List.all_eq_true.mp hall r hr)
  · cases hfile

theorem notes_left : ∀ call ∈ sharedCalls,
    call.Leaves textPlatform homeRoots notesPath notesContent := by
  refine List.forall_mem_cons.mpr ⟨⟨smallRelease_clear, ?_⟩, List.forall_mem_singleton.mpr ?_⟩
  · intro files planned warnings hplan file hfile hplace
    have hkey : file.key ∈ planned.map PlannedFile.key := List.mem_map_of_mem hfile
    have hkeys := plan_keys hplan
    have hplain : plainKeys smallRelease { unprobedParams with roots := homeRoots } ++
        (if ({ unprobedParams with roots := homeRoots } : InstallParams).python.isOk then
          [descriptorKey] else []) = [(rootClaude, "language.md"), (rootRemy, "bin/remy-cc")] := by
      decide +kernel
    have hall : ([(rootClaude, "language.md"), (rootRemy, "bin/remy-cc")].all fun key =>
        place homeRoots key.1 key.2 != notesPath) = true := by decide +kernel
    rw [hkeys, hplain] at hkey
    have hne : place homeRoots file.key.1 file.key.2 ≠ notesPath :=
      bne_iff_ne.mp (List.all_eq_true.mp hall file.key hkey)
    exact absurd hplace hne
  · intro hpurge
    cases hpurge

end Example

end RemyCC.Install
