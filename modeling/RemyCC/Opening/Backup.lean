import Mathlib.Data.List.Induction
import RemyCC.Opening.Steps

/-!
# The backup of an old index

Until the copy is complete the old content stands at the path, and from the copy
on it stands at `.bak`. What puts it at risk is a later call that takes a schema
left without its stamp for one more old index and copies that over the backup.
-/

namespace RemyCC.Opening

variable {γ : Type} {fresh : γ} {path : String} {x : Database γ} {disk : Disk γ}

/-- An index that `open_db` has to rebuild: it holds tables, and its version is
missing or below the current one. -/
def Database.Old (d : Database γ) : Prop :=
  d.tables ≠ [] ∧ (d.version = none ∨ ∃ version, d.version = some version ∧
    version ≠ schemaVersion ∧ belowCurrent version)

/-- An index that `open_db` refuses: its version is newer or cannot be compared. -/
def Database.Refused (d : Database γ) : Prop :=
  d.tables ≠ [] ∧ ∃ version, d.version = some version ∧ version ≠ schemaVersion ∧
    belowCurrent version = false

/-- The content stands at the path or at `.bak`. -/
def Disk.Holds (x : Database γ) (disk : Disk γ) : Prop :=
  disk.main = some x ∨ disk.backup = some x

/-- A new index, finished or not. -/
def Database.New (d : Database γ) : Prop := d.version = none ∨ d.version = some schemaVersion

/-- Tables without a version stamp stand at the path and are not the old content:
the creation of a schema was cut short. -/
def Disk.Unfinished (x : Database γ) (disk : Disk γ) : Prop :=
  ∃ d, disk.main = some d ∧ d ≠ x ∧ d.tables ≠ [] ∧ d.version = none

/-- The content is at the path, or at `.bak` with nothing but a new index at the path. -/
def Disk.Kept (x : Database γ) (disk : Disk γ) : Prop :=
  disk.main = some x ∨ disk.backup = some x ∧ ∀ d, disk.main = some d → d.New

/-- The backup stands while a schema is created beside it. -/
def Disk.Moved (x : Database γ) (disk : Disk γ) : Prop :=
  disk.backup = some x ∧ ∀ d, disk.main = some d → d.New

theorem Disk.Kept.holds (h : disk.Kept x) : disk.Holds x := h.imp_right And.left

/-- Every write but the copy leaves a moved content where it is. -/
theorem Step.apply_moved {step : Step} (hcopy : step ≠ .copyBackup) (h : disk.Moved x) :
    (step.apply fresh disk).Moved x := by
  obtain ⟨hbackup, hmain⟩ := h
  cases step with
  | openMain =>
    refine ⟨hbackup, fun d hd => ?_⟩
    cases hfile : disk.main with
    | none =>
      rw [Step.apply, hfile] at hd
      cases hd
      exact .inl rfl
    | some d' =>
      rw [Step.apply, hfile] at hd
      cases hd
      exact hmain d' hfile
  | journalMode => exact ⟨hbackup, hmain⟩
  | execute statement =>
    refine ⟨hbackup, fun d hd => ?_⟩
    obtain ⟨d', hd', rfl⟩ := Option.map_eq_some_iff.mp hd
    have hversion : (statement.execute d').version = d'.version := by
      cases statement <;> simp only [Statement.execute]
      split <;> rfl
    rw [Database.New, hversion]
    exact hmain d' hd'
  | stampVersion =>
    refine ⟨hbackup, fun d hd => ?_⟩
    obtain ⟨d', -, rfl⟩ := Option.map_eq_some_iff.mp hd
    exact .inr rfl
  | openBackup => exact ⟨by rw [Step.apply, hbackup]; rfl, hmain⟩
  | copyBackup => exact absurd rfl hcopy
  | removeMain => exact ⟨hbackup, fun d hd => nomatch hd⟩
  | removeSidecar => exact ⟨hbackup, hmain⟩

theorem runSteps_moved {steps : List Step} (hcopy : .copyBackup ∉ steps) (h : disk.Moved x) :
    (runSteps fresh steps disk).Moved x :=
  runSteps_induction (fun _ hstep _ hd =>
    Step.apply_moved (fun heq => hcopy (heq ▸ hstep)) hd) h

theorem Disk.Moved.kept (h : disk.Moved x) : disk.Kept x := .inr h

theorem openDb_of_old (hold : x.Old) :
    (openDb path (some x)).1 = .openMain :: backupAndRebuild := by
  obtain ⟨htables, hversion | ⟨version, hversion, hcurrent, hbelow⟩⟩ := hold
  · simp only [openDb, if_neg htables, hversion]
  · simp only [openDb, if_neg htables, hversion, if_neg hcurrent, if_pos hbelow]

/-- Before the copy the content stands at the path, after it at `.bak`. -/
theorem rebuild_kept (hmain : disk.main = some x) (n : Nat) :
    (runSteps fresh ((.openMain :: backupAndRebuild).take n) disk).Kept x := by
  have hopen : (Step.apply fresh disk .openMain).main = some x := by
    rw [Step.apply, hmain]
    rfl
  match n with
  | 0 => exact .inl hmain
  | 1 | 2 | 3 => exact .inl hopen
  | n + 4 =>
    have hsteps : (Step.openMain :: backupAndRebuild).take (n + 4) =
        [.openMain, .openBackup, .copyBackup, .removeMain] ++ (backupAndRebuild.drop 3).take n := rfl
    rw [hsteps, runSteps_append]
    refine (runSteps_moved (fun h => ?_) ⟨hopen, fun d hd => by cases hd⟩).kept
    exact absurd (List.mem_of_mem_take h) (by decide)

/-- A call keeps the content unless it copies an unfinished schema over it. -/
theorem openUpTo_kept (hold : x.Old) (h : disk.Kept x) {n : Nat}
    (hcopy : disk.Unfinished x → .copyBackup ∉ (openDb path disk.main).1.take n) :
    (openUpTo fresh path n disk).Kept x := by
  have hmoved (hbackup : disk.Moved x) (hsteps : .copyBackup ∉ (openDb path disk.main).1.take n) :
      (openUpTo fresh path n disk).Kept x := (runSteps_moved hsteps hbackup).kept
  by_cases hmain : disk.main = some x
  · rw [openUpTo, hmain, openDb_of_old hold]
    exact rebuild_kept hmain n
  · have hbackup : disk.Moved x := h.resolve_left hmain
    refine hmoved hbackup ?_
    have hcreate : .copyBackup ∉ (Step.openMain :: createCurrentSchema).take n :=
      fun hmem => absurd (List.mem_of_mem_take hmem) (by decide)
    cases hfile : disk.main with
    | none => exact hcreate
    | some d =>
      rw [hfile] at hcopy
      by_cases htables : d.tables = []
      · rw [openDb, if_pos htables]
        exact hcreate
      · rcases hbackup.2 d hfile with hversion | hversion
        · exact hcopy ⟨d, hfile, fun heq => hmain (heq ▸ hfile), htables, hversion⟩
        · simp only [openDb, if_neg htables, hversion, if_true]
          exact fun hmem => absurd (List.mem_of_mem_take hmem) (by decide)

/-- Every call that starts on an unfinished schema stops before the copy. -/
def NoUnfinishedCopied (fresh : γ) (path : String) (x : Database γ) (disk : Disk γ)
    (stops : List Nat) : Prop :=
  ∀ before n after, stops = before ++ n :: after →
    (openRuns fresh path before disk).Unfinished x →
      .copyBackup ∉ (openDb path (openRuns fresh path before disk).main).1.take n

theorem openRuns_kept (hold : x.Old) (hmain : disk.main = some x) {stops : List Nat}
    (hcopies : NoUnfinishedCopied fresh path x disk stops) :
    (openRuns fresh path stops disk).Kept x := by
  induction stops using List.reverseRecOn with
  | nil => exact .inl hmain
  | append_singleton stops n ih =>
    rw [openRuns_concat]
    refine openUpTo_kept hold (ih fun before m after heq => ?_) (hcopies stops n [] rfl)
    refine hcopies before m (after ++ [n]) ?_
    rw [heq, List.append_assoc]
    rfl

theorem openDb_of_refused (hrefused : x.Refused) :
    (openDb path (some x)).1 = [.openMain] := by
  obtain ⟨htables, version, hversion, hcurrent, hbelow⟩ := hrefused
  simp only [openDb, if_neg htables, hversion, if_neg hcurrent, hbelow, Bool.false_eq_true,
    if_false]

/-- What is refused is left as it is, backup and all. -/
theorem openRuns_of_refused (hrefused : x.Refused) (hmain : disk.main = some x)
    (stops : List Nat) : openRuns fresh path stops disk = disk := by
  induction stops using List.reverseRecOn with
  | nil => rfl
  | append_singleton stops n ih =>
    rw [openRuns_concat, ih, openUpTo, hmain, openDb_of_refused hrefused]
    have hopen : Step.apply fresh disk .openMain = disk := by
      rw [Step.apply, hmain]
      exact congrArg (fun main => { disk with main }) hmain.symm
    cases n with
    | zero => rfl
    | succ n =>
      rw [List.take_succ_cons, List.take_nil]
      exact hopen

/-- After every one of the calls, wherever each was cut, the old content stands at
the path or at `.bak`, and a refused index stands untouched. -/
theorem openRuns_keep_content (fresh : γ) (path : String) (x : Database γ) (disk : Disk γ)
    (hmain : disk.main = some x) (stops : List Nat) :
    (x.Old → NoUnfinishedCopied fresh path x disk stops →
      ∀ before, before <+: stops → (openRuns fresh path before disk).Holds x) ∧
    (x.Refused → ∀ before, before <+: stops → openRuns fresh path before disk = disk) := by
  refine ⟨fun hold hcopies before hbefore => ?_, fun hrefused before _ => ?_⟩
  · obtain ⟨rest, rfl⟩ := hbefore
    refine (openRuns_kept hold hmain fun prior n after heq => ?_).holds
    exact hcopies prior n (after ++ rest) (by rw [heq, List.append_assoc]; rfl)
  · exact openRuns_of_refused hrefused hmain before

section Samples

def indexAt (version : String) : Database (List String) :=
  ⟨["files", "meta"], some version, ["a.c"]⟩

/-- The runs of the three histories, evaluated. -/
theorem runs_evaluated :
    (belowCurrent "7.0.0" ∧ belowCurrent "13.0.0" = false) ∧
    (openRuns [] "logic_index.db" [9] ⟨some (indexAt "7.0.0"), none⟩).backup =
      some (indexAt "7.0.0") ∧
    ((openRuns [] "logic_index.db" [9, 3] ⟨some (indexAt "7.0.0"), none⟩).main ≠
        some (indexAt "7.0.0") ∧
      (openRuns [] "logic_index.db" [9, 3] ⟨some (indexAt "7.0.0"), none⟩).backup ≠
        some (indexAt "7.0.0")) ∧
    (openRuns [] "logic_index.db" [4] ⟨some (indexAt "7.0.0"), none⟩).main = none := by
  decide +kernel

theorem indexAt_old : (indexAt "7.0.0").Old :=
  ⟨List.cons_ne_nil _ _, .inr ⟨"7.0.0", rfl, by decide, runs_evaluated.1.1⟩⟩

theorem indexAt_refused : (indexAt "13.0.0").Refused :=
  ⟨List.cons_ne_nil _ _, "13.0.0", rfl, by decide, runs_evaluated.1.2⟩

/-- Cut after its first table, a rebuild leaves what the next call copies over the backup. -/
theorem unfinished_schema_overwrites_backup :
    (indexAt "7.0.0").Old ∧
      (openRuns [] "logic_index.db" [9] ⟨some (indexAt "7.0.0"), none⟩).Holds (indexAt "7.0.0") ∧
      ¬(openRuns [] "logic_index.db" [9, 3] ⟨some (indexAt "7.0.0"), none⟩).Holds
        (indexAt "7.0.0") := by
  refine ⟨indexAt_old, .inr runs_evaluated.2.1, ?_⟩
  rintro (hmain | hbackup)
  · exact runs_evaluated.2.2.1.1 hmain
  · exact runs_evaluated.2.2.1.2 hbackup

/-- A call cut after the removal and one that completes, and a newer index. -/
theorem openRuns_keep_content_cut :
    (∀ before, before <+: [4, 60] →
      (openRuns [] "logic_index.db" before ⟨some (indexAt "7.0.0"), none⟩).Holds
        (indexAt "7.0.0")) ∧
    (∀ before, before <+: [60, 60] →
      openRuns [] "logic_index.db" before ⟨some (indexAt "13.0.0"), none⟩ =
        ⟨some (indexAt "13.0.0"), none⟩) := by
  refine ⟨(openRuns_keep_content [] _ _ ⟨_, none⟩ rfl _).1 indexAt_old ?_,
    (openRuns_keep_content [] _ _ ⟨_, none⟩ rfl _).2 indexAt_refused⟩
  rintro before n after heq ⟨d, hmain, hne, -, -⟩
  rcases before with _ | ⟨first, _ | ⟨second, before⟩⟩
  · cases hmain
    exact absurd rfl hne
  · obtain ⟨rfl, -⟩ := List.cons_eq_cons.mp heq
    rw [runs_evaluated.2.2.2] at hmain
    cases hmain
  · have hlength := congrArg List.length heq
    simp at hlength

end Samples

end RemyCC.Opening
