import RemyCC.Install.Deploy

/-!
# What an operation leaves alone

The files an operation makes beside its target have names of their own: staged
files and files moved aside end with the process id, backups with `.bak`. A
document whose name ends otherwise changes only where it is the target.
-/

namespace RemyCC.Install

open Files

variable {β : Type}

section Names

def lastChar (path : FilePath) : Option Char := (path.getLast?).bind fun name => name.toList.getLast?

theorem lastChar_concat (front : FilePath) (name : String) :
    lastChar (front ++ [name]) = name.toList.getLast? := by
  rw [lastChar, List.getLast?_concat, Option.bind_some]

theorem getLast?_toString (pid : Nat) :
    ∃ c, (toString pid).toList.getLast? = some c ∧ c.isDigit = true := by
  have hchars : (toString pid).toList = Nat.toDigits 10 pid := by simp
  have hne : Nat.toDigits 10 pid ≠ [] := Nat.toDigits_ne_nil
  refine ⟨_, by rw [hchars, List.getLast?_eq_some_getLast hne], ?_⟩
  exact Nat.isDigit_of_mem_toDigits (by decide) (by decide) (List.getLast_mem hne)

theorem getLast?_append_toString (front : String) (pid : Nat) :
    ∃ c, (front ++ toString pid).toList.getLast? = some c ∧ c.isDigit = true := by
  obtain ⟨c, hc, hdigit⟩ := getLast?_toString pid
  refine ⟨c, ?_, hdigit⟩
  rw [String.toList_append, List.getLast?_append, hc]
  rfl

variable {p target : FilePath} {pid : Nat}

theorem ne_stagePath (hp : lastChar p = some 'n') : p ≠ stagePath pid target := by
  rintro rfl
  obtain ⟨c, hc, hdigit⟩ :=
    getLast?_append_toString ("." ++ (target.getLast?).getD "" ++ ".remy-stage-") pid
  rw [stagePath, lastChar_concat, hc, Option.some.injEq] at hp
  rw [hp] at hdigit
  cases hdigit

theorem ne_asidePath (hp : lastChar p = some 'n') : p ≠ asidePath pid target := by
  rintro rfl
  unfold asidePath withExtension at hp
  cases htarget : target.getLast? with
  | none =>
    rw [htarget] at hp
    simp only [lastChar, htarget, Option.bind_none] at hp
    cases hp
  | some name =>
    obtain ⟨c, hc, hdigit⟩ := getLast?_append_toString (fileStem name ++ "." ++ "old-") pid
    rw [htarget] at hp
    simp only [lastChar_concat] at hp
    rw [← String.append_assoc, hc, Option.some.injEq] at hp
    rw [hp] at hdigit
    cases hdigit

theorem ne_backupPath (hp : lastChar p = some 'n') : p ≠ backupPath target := by
  rintro rfl
  unfold backupPath at hp
  cases htarget : target.getLast? with
  | none =>
    rw [htarget] at hp
    simp only [lastChar, htarget, Option.bind_none] at hp
    cases hp
  | some name =>
    rw [htarget] at hp
    simp only [lastChar_concat, String.toList_append, List.getLast?_append] at hp
    have hlast : ".bak".toList.getLast? = some 'k' := rfl
    rw [hlast, Option.some_or, Option.some.injEq] at hp
    exact absurd hp (by decide)

end Names

section Operations

variable {p target : FilePath} {a : Attempts (Content β)} {luck : Luck β} {h : Home (Content β)}

theorem moveIn_other {ε : Type} {allowed : Bool} {src tgt : FilePath} {error : ε}
    (hsrc : p ≠ src) (htgt : p ≠ tgt) :
    (moveIn allowed src tgt error h).1.files p = h.files p := by
  unfold moveIn
  cases hrename : rename allowed src tgt h.files with
  | none => rfl
  | some files => exact rename_other hrename hsrc htgt

theorem renameOver_other {pid : Nat} {stage : FilePath} (hp : lastChar p = some 'n')
    (htarget : p ≠ target) (hstage : p ≠ stage) :
    (renameOver pid a stage target h).1.files p = h.files p := by
  unfold renameOver
  cases hfirst : rename a.first stage target h.files with
  | some files => exact rename_other hfirst hstage htarget
  | none =>
    simp only
    cases hrename : rename a.aside target (asidePath pid target) h.files with
    | some files =>
      simp only
      rw [moveIn_other hstage htarget, register_files]
      exact rename_other hrename htarget (ne_asidePath hp)
    | none =>
      simp only [removeFile]
      split
      · exact drop_of_ne hstage
      · rfl

theorem stagedWrite_other {pid : Nat} {content : Content β} (hp : lastChar p = some 'n')
    (htarget : p ≠ target) : (stagedWrite pid a target content h).1.files p = h.files p := by
  have hstage : p ≠ stagePath pid target := ne_stagePath hp
  have hkept : writeStage a (stagePath pid target) content h.files p = h.files p := by
    unfold writeStage
    split
    · exact put_of_ne hstage
    · exact if_neg hstage
  unfold stagedWrite
  cases a.directory with
  | false => rfl
  | true =>
    cases a.write with
    | false => exact hkept
    | true => exact (renameOver_other hp htarget hstage).trans hkept

/-- The four ends of a removal: nothing there, removed, moved aside, or registered in place. -/
theorem removeOrDefer_cases (luck : Luck β) (target : FilePath) (h : Home (Content β)) :
    (h.files target = none ∧ (removeOrDefer luck target h).1 = h) ∨
    (h.files target ≠ none ∧ (luck.attempts target).remove = true ∧
      (removeOrDefer luck target h).1 = { h with files := drop target h.files }) ∨
    (∃ files, h.files target ≠ none ∧ (luck.attempts target).remove = false ∧
      rename (luck.attempts target).aside target (asidePath luck.pid target) h.files = some files ∧
      (removeOrDefer luck target h).1 = register (luck.attempts target).register
        [asidePath luck.pid target] { h with files }) ∨
    (h.files target ≠ none ∧ (luck.attempts target).remove = false ∧
      (luck.attempts target).aside = false ∧
      (removeOrDefer luck target h).1 = register (luck.attempts target).register [target] h) := by
  unfold removeOrDefer remove
  by_cases habsent : h.files target = none
  · exact .inl ⟨habsent, by simp only [habsent, if_true]⟩
  simp only [habsent, if_false]
  cases hremove : (luck.attempts target).remove with
  | true => exact .inr (.inl ⟨habsent, rfl, by simp only [if_true]⟩)
  | false =>
    cases hrename : rename (luck.attempts target).aside target (asidePath luck.pid target)
        h.files with
    | some files =>
      exact .inr (.inr (.inl ⟨files, habsent, rfl, rfl, by simp⟩))
    | none =>
      have haside : (luck.attempts target).aside = false :=
        (rename_eq_none.mp hrename).resolve_right habsent
      exact .inr (.inr (.inr ⟨habsent, rfl, haside, by simp⟩))

theorem removeOrDefer_other (hp : lastChar p = some 'n') (htarget : p ≠ target) :
    (removeOrDefer luck target h).1.files p = h.files p := by
  rcases removeOrDefer_cases luck target h with ⟨-, heq⟩ | ⟨-, -, heq⟩ | ⟨files, -, -, hrename, heq⟩ |
    ⟨-, -, -, heq⟩
  · rw [heq]
  · rw [heq]
    exact drop_of_ne htarget
  · rw [heq, register_files]
    exact rename_other hrename htarget (ne_asidePath hp)
  · rw [heq, register_files]

/-- A document is gone from its place if it can be removed or renamed. -/
theorem removeOrDefer_apply (hp : lastChar p = some 'n') :
    (removeOrDefer luck target h).1.files p =
      if p = target ∧ ((luck.attempts p).remove = true ∨ (luck.attempts p).aside = true) then none
      else h.files p := by
  by_cases htarget : p = target
  · subst htarget
    rcases removeOrDefer_cases luck p h with ⟨hnone, heq⟩ | ⟨-, hremove, heq⟩ |
      ⟨files, -, -, hrename, heq⟩ | ⟨-, hremove, haside, heq⟩
    · rw [heq, hnone, ite_self]
    · rw [heq, if_pos ⟨rfl, .inl hremove⟩]
      exact drop_self
    · rw [heq, register_files, if_pos ⟨rfl, .inr (rename_eq_some.mp hrename).1⟩]
      exact rename_src hrename (ne_asidePath hp)
    · rw [heq, register_files, hremove, haside]
      simp
  · rw [removeOrDefer_other hp htarget, if_neg fun h => htarget h.1]

theorem removeAll_apply {targets : List FilePath} (hp : lastChar p = some 'n') :
    (removeAll luck targets h).1.files p =
      if p ∈ targets ∧ ((luck.attempts p).remove = true ∨ (luck.attempts p).aside = true) then none
      else h.files p := by
  induction targets generalizing h with
  | nil => simp [removeAll]
  | cons target targets ih =>
    rw [removeAll, ih, removeOrDefer_apply hp]
    grind

variable {params : InstallParams} {file : PlannedFile β}

theorem andThen_other {α γ : Type} {r : Home (Content β) × Except InstallError α}
    {next : α → Run β γ} (hr : r.1.files p = h.files p)
    (hnext : ∀ a h, (next a h).1.files p = h.files p) :
    (andThen r next).1.files p = h.files p := by
  unfold andThen
  cases r.2 with
  | error error => exact hr
  | ok a => exact (hnext a r.1).trans hr

theorem writePayload_other (hp : lastChar p = some 'n') (htarget : p ≠ target) :
    (writePayload luck file target h).1.files p = h.files p := by
  unfold writePayload
  cases file.payload with
  | bytes content => exact stagedWrite_other hp htarget
  | file source =>
    simp only [deployBinary]
    split
    · rfl
    · split
      · exact stagedWrite_other hp htarget
      · rfl
      · rfl

theorem deployFile_other {decision : Decision} (hp : lastChar p = some 'n')
    (htarget : p ≠ place params.roots file.root file.path) :
    (deployFile params luck file decision h).1.files p = h.files p := by
  unfold deployFile
  cases decision.write with
  | false => rfl
  | true =>
    refine andThen_other ?_ fun changed h => andThen_other (writePayload_other hp htarget)
      fun _ _ => rfl
    split
    · unfold backupFirst
      split
      · exact put_of_ne (ne_backupPath hp)
      · rfl
      · rfl
    · rfl

theorem deployFiles_other {decided : List (PlannedFile β × Decision)} (hp : lastChar p = some 'n')
    (htargets : ∀ f ∈ decided, p ≠ place params.roots f.1.root f.1.path) :
    (deployFiles params luck decided h).1.files p = h.files p := by
  induction decided generalizing h with
  | nil => rfl
  | cons f decided ih =>
    obtain ⟨hhead, htail⟩ := List.forall_mem_cons.mp htargets
    exact andThen_other (deployFile_other hp hhead) fun _ h =>
      andThen_other (ih htail) fun _ _ => rfl

theorem writeSettings_other {settings : Option (Content β)} (hp : lastChar p = some 'n')
    (htarget : p ≠ settingsFile params.roots) :
    (writeSettings params luck settings h).1.files p = h.files p := by
  unfold writeSettings
  cases settings with
  | none => rfl
  | some content => exact andThen_other (stagedWrite_other hp htarget) fun _ _ => rfl

theorem writeManifest_other {m : Manifest} (htarget : p ≠ manifestFile params.roots) :
    (writeManifest params luck m h).1.files p = h.files p := by
  unfold writeManifest
  split
  · rfl
  · rfl
  · exact put_of_ne htarget

theorem postCommit_other (hp : lastChar p = some 'n')
    (hlegacy : p ≠ place params.roots rootClaude legacyManifestName)
    (htransaction : p ≠ place params.roots rootRemy "install/transaction.json") :
    (postCommit params luck h).1.files p = h.files p := by
  unfold postCommit
  rw [removeOrDefer_other hp htransaction]
  split
  next files hrename => exact rename_other hrename hlegacy (ne_backupPath hp)
  next => exact removeOrDefer_other hp hlegacy

end Operations

section Sweeps

variable {roots : Roots} {luck : Luck β} {p : FilePath}

theorem sweepEntry_apply (path : FilePath) (files : Tree FilePath (Content β)) :
    (sweepEntry roots luck path files).1 p =
      if p = path ∧ isManaged roots p = true ∧ (luck.attempts p).remove = true then none
      else files p := by
  unfold sweepEntry remove
  by_cases hpath : p = path
  · subst hpath
    by_cases habsent : files p = none
    · cases isManaged roots p <;> simp [habsent]
    · cases isManaged roots p <;> cases (luck.attempts p).remove <;> simp [habsent]
  · cases isManaged roots path <;> cases (luck.attempts path).remove <;>
      by_cases habsent : files path = none <;> simp [habsent, hpath, drop_of_ne]

theorem sweepEntries_apply (paths : List FilePath) (files : Tree FilePath (Content β)) :
    (sweepEntries roots luck paths files).1 p =
      if p ∈ paths ∧ isManaged roots p = true ∧ (luck.attempts p).remove = true then none
      else files p := by
  induction paths generalizing files with
  | nil => simp [sweepEntries]
  | cons path paths ih =>
    rw [sweepEntries, ih, sweepEntry_apply]
    grind

/-- What the sweep of the register deletes. -/
def SweptAway (roots : Roots) (luck : Luck β) (h : Home (Content β)) (p : FilePath) : Prop :=
  p ∈ h.registered ∧ isManaged roots p = true ∧ (luck.attempts p).remove = true

instance (roots : Roots) (luck : Luck β) (h : Home (Content β)) (p : FilePath) :
    Decidable (SweptAway roots luck h p) := inferInstanceAs (Decidable (_ ∧ _ ∧ _))

theorem sweep_apply {h : Home (Content β)} (hname : (p.getLast?).any isStaleStagingName = false) :
    (sweep roots luck h).files p = if SweptAway roots luck h p then none else h.files p := by
  unfold sweep sweepStaleStaging sweepRegister
  simp only [hname, Bool.and_false, Bool.false_and, Bool.false_eq_true, if_false]
  exact sweepEntries_apply h.registered h.files

end Sweeps


end RemyCC.Install
