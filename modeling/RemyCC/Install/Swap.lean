import RemyCC.Install.Files

/-!
# Replacing a target

A write that cannot be carried out leaves the target as it was, unless the
target has been moved aside and the new bytes cannot take its place. Then the
target is gone, and the one copy of its bytes may be registered for deletion.
-/

namespace RemyCC.Install

open Files

variable {β : Type} {pid : Nat} {target : FilePath}

section Names

theorem withExtension_last {extension : String} {name : String}
    (h : target.getLast? = some name) :
    withExtension extension target = target.dropLast ++ [fileStem name ++ "." ++ extension] := by
  unfold withExtension
  rw [h]

theorem stagePath_ne : stagePath pid target ≠ target := by
  intro h
  have hlast := congrArg List.getLast? h
  rw [stagePath, List.getLast?_concat] at hlast
  rw [← hlast, Option.getD_some] at hlast
  have hlen := congrArg (fun name => (name.getD "").length) hlast
  simp only [Option.getD_some, String.length_append] at hlen
  have hdot : ".".length = 1 := rfl
  omega

/-- Names whose endings before the process id differ are different. -/
theorem name_ne {front front' ending ending' : String} {k : Nat}
    (hlen : k ≤ ending.toList.reverse.length) (hlen' : k ≤ ending'.toList.reverse.length)
    (h : ending.toList.reverse.take k ≠ ending'.toList.reverse.take k) :
    front ++ ending ++ toString pid ≠ front' ++ ending' ++ toString pid := by
  intro heq
  have hchars := congrArg String.toList heq
  rw [String.toList_append, @String.toList_append (front' ++ ending')] at hchars
  have hfront := congrArg (fun cs => cs.reverse.take k) (List.append_cancel_right hchars)
  simp only [String.toList_append, List.reverse_append, List.take_append_of_le_length hlen,
    List.take_append_of_le_length hlen'] at hfront
  exact h hfront

theorem stagePath_ne_asidePath : stagePath pid target ≠ asidePath pid target := by
  intro h
  have hlast := congrArg List.getLast? h
  rw [stagePath, List.getLast?_concat] at hlast
  cases htarget : target.getLast? with
  | none =>
    rw [asidePath, withExtension, htarget, htarget] at hlast
    cases hlast
  | some name =>
    rw [asidePath, withExtension_last htarget, List.getLast?_concat, htarget, Option.getD_some,
      Option.some.injEq, ← @String.append_assoc (fileStem name ++ ".")] at hlast
    have hne : (".remy-stage-".toList.reverse.take 2) ≠ ("old-".toList.reverse.take 2) := by decide
    exact name_ne (by decide) (by decide) hne hlast

theorem incomingPath_ne_asidePath (h : target ≠ []) :
    incomingPath pid target ≠ asidePath pid target := by
  intro heq
  have hlast := congrArg List.getLast? heq
  have htarget := List.getLast?_eq_some_getLast h
  rw [asidePath, incomingPath, withExtension_last htarget, withExtension_last htarget,
    List.getLast?_concat, List.getLast?_concat, Option.some.injEq, ← String.append_assoc,
    ← String.append_assoc] at hlast
  have hne : ("new-".toList.reverse.take 2) ≠ ("old-".toList.reverse.take 2) := by decide
  exact name_ne (by decide) (by decide) hne hlast

end Names

section Writes

variable {a : Attempts β} {h : Home β} {bytes : β}

theorem writeStage_of_ne {path q : FilePath} (hne : q ≠ path) (files : Tree FilePath β) :
    writeStage a path bytes files q = files q := by
  unfold writeStage
  split
  · exact put_of_ne hne
  · exact if_neg hne

theorem writeStage_self {path : FilePath} (hwrite : a.write = true) (files : Tree FilePath β) :
    writeStage a path bytes files path = some bytes := by
  unfold writeStage
  rw [if_pos hwrite]
  exact put_self

theorem removeFile_of_ne {allowed : Bool} {path q : FilePath} (hne : q ≠ path)
    (files : Tree FilePath β) : removeFile allowed path files q = files q := by
  unfold removeFile
  split
  · exact drop_of_ne hne
  · rfl

/-- The target holds the new bytes after a success and what it held before after an error. -/
def AllOrNothing {ε : Type} (target : FilePath) (new : Option β) (h : Home β)
    (r : Home β × Except ε Unit) : Prop :=
  (r.2.isOk = true ∧ r.1.files target = new) ∨
    (r.2.isOk = false ∧ r.1.files target = h.files target)

/-- After an error, the call has registered the only copy of what the target held. -/
def Stranded {ε : Type} (target : FilePath) (h : Home β) (r : Home β × Except ε Unit) : Prop :=
  r.2.isOk = false ∧ ∃ b, h.files target = some b ∧
    ∃ p ∈ r.1.registered, p ∉ h.registered ∧ ∀ q, r.1.files q = some b ↔ q = p

/-- The three ends of a replacement; the last one exactly where the target is `lost`. -/
inductive Replaced {ε : Type} (target : FilePath) (new : Option β) (lost : Prop) (h : Home β) :
    Home β × Except ε Unit → Prop where
  | done (h' : Home β) (hlost : ¬ lost) (hnew : h'.files target = new) :
      Replaced target new lost h (h', .ok ())
  | refused (h' : Home β) (e : ε) (hlost : ¬ lost) (hkept : h'.files target = h.files target)
      (hregistered : h'.registered = h.registered) : Replaced target new lost h (h', .error e)
  | displaced (h' : Home β) (e : ε) (hlost : lost) (hheld : (h.files target).isSome = true)
      (hgone : h'.files target = none) : Replaced target new lost h (h', .error e)

theorem Replaced.atomic_iff {ε : Type} {new : Option β} {lost : Prop}
    {r : Home β × Except ε Unit} (hr : Replaced target new lost h r) :
    (AllOrNothing target new h r ∧ ¬ Stranded target h r) ↔ ¬ lost := by
  cases hr with
  | done h' hlost hnew =>
    refine iff_of_true ⟨.inl ⟨rfl, hnew⟩, fun hstranded => ?_⟩ hlost
    cases hstranded.1
  | refused h' e hlost hkept hregistered =>
    refine iff_of_true ⟨.inr ⟨rfl, hkept⟩, fun hstranded => ?_⟩ hlost
    obtain ⟨-, b, -, p, hp, hnot, -⟩ := hstranded
    rw [hregistered] at hp
    exact hnot hp
  | displaced h' e hlost hheld hgone =>
    refine iff_of_false (fun hproper => ?_) fun hn => hn hlost
    rcases hproper.1 with ⟨hok, -⟩ | ⟨-, hkept⟩
    · cases hok
    · rw [hgone] at hkept
      rw [← hkept] at hheld
      cases hheld

/-- The files before need only agree on the target. -/
theorem Replaced.of_kept {ε : Type} {new : Option β} {lost lost' : Prop} {h' : Home β}
    {r : Home β × Except ε Unit} (hr : Replaced target new lost h' r)
    (hfiles : h'.files target = h.files target) (hregistered : h'.registered = h.registered)
    (hlost : lost ↔ lost') : Replaced target new lost' h r := by
  cases hr with
  | done h'' hn hnew => exact .done h'' (fun hl => hn (hlost.mpr hl)) hnew
  | refused h'' e hn hkept hreg =>
    exact .refused h'' e (fun hl => hn (hlost.mpr hl)) (hkept.trans hfiles) (hreg.trans hregistered)
  | displaced h'' e hl hheld hgone => exact .displaced h'' e (hlost.mp hl) (hfiles ▸ hheld) hgone

/-- A target that is to be replaced has been moved aside, and the way back in is closed. -/
theorem replaced_of_aside {ε : Type} {e : ε} {new : β} {incoming aside : FilePath}
    {files : Tree FilePath β} {h' : Home β} (haside : aside ≠ target) (hincoming : incoming ≠ target)
    (hne : incoming ≠ aside) (hstaged : h.files incoming = some new)
    (hrename : rename a.aside target aside h.files = some files) (hfiles : h'.files = files)
    {lost : Prop} (hlost : lost ↔ a.second = false) (hheld : (h.files target).isSome = true) :
    Replaced target (some new) lost h (moveIn a.second incoming target e h') := by
  have hthere : h'.files incoming = some new := by
    rw [hfiles, rename_other hrename hincoming hne, hstaged]
  unfold moveIn
  cases hrename' : rename a.second incoming target h'.files with
  | some files' =>
    refine .done _ (fun hl => ?_) ?_
    · rw [hlost.mp hl] at hrename'
      cases hrename'
    · exact (rename_tgt hrename').trans hthere
  | none =>
    refine .displaced _ _ (hlost.mpr ?_) hheld ?_
    · rcases rename_eq_none.mp hrename' with hsecond | hnone
      · exact hsecond
      · rw [hthere] at hnone
        cases hnone
    · rw [hfiles]
      exact rename_src hrename haside.symm

theorem rename_refused {allowed : Bool} {src tgt : FilePath} {files : Tree FilePath β}
    (h : rename allowed src tgt files = none) {b : β} (hsrc : files src = some b) :
    allowed = false := by
  rcases rename_eq_none.mp h with hallowed | hnone
  · exact hallowed
  · rw [hsrc] at hnone
    cases hnone

theorem renameOver_replaced {stage : FilePath} (haside : asidePath pid target ≠ target)
    (hstage : stage ≠ target) (hne : stage ≠ asidePath pid target)
    (hstaged : h.files stage = some bytes) :
    Replaced target (some bytes)
      (a.first = false ∧ (h.files target).isSome = true ∧ a.aside = true ∧ a.second = false) h
      (renameOver pid a stage target h) := by
  unfold renameOver
  cases hfirst : rename a.first stage target h.files with
  | some files =>
    refine .done _ (fun hlost => ?_) ((rename_tgt hfirst).trans hstaged)
    rw [hlost.1] at hfirst
    cases hfirst
  | none =>
    have hrefused := rename_refused hfirst hstaged
    simp only
    cases hrename : rename a.aside target (asidePath pid target) h.files with
    | some files =>
      obtain ⟨hallowed, b, hb, -⟩ := rename_eq_some.mp hrename
      have hheld : (h.files target).isSome = true := by rw [hb]; rfl
      refine replaced_of_aside haside hstage hne hstaged hrename (register_files _ _ _) ?_ hheld
      exact ⟨fun hlost => hlost.2.2.2, fun hsecond => ⟨hrefused, hheld, hallowed, hsecond⟩⟩
    | none =>
      refine .refused _ _ (fun hlost => ?_) (removeFile_of_ne hstage.symm _) rfl
      obtain ⟨b, hb⟩ := Option.isSome_iff_exists.mp hlost.2.1
      rw [hlost.2.2.1, rename_of_some rfl hb] at hrename
      cases hrename

theorem swapStaged_replaced {incoming : FilePath} (haside : asidePath pid target ≠ target)
    (hincoming : incoming ≠ target) (hne : incoming ≠ asidePath pid target)
    (hstaged : h.files incoming = some bytes) :
    Replaced target (some bytes)
      ((h.files target).isSome = true ∧ a.aside = true ∧ a.second = false) h
      (swapStaged pid a incoming target h) := by
  unfold swapStaged
  cases htarget : h.files target with
  | none =>
    have hlost : ¬ ((none : Option β).isSome = true ∧ a.aside = true ∧ a.second = false) :=
      fun hlost => Bool.false_ne_true hlost.1
    simp only [Option.isNone_none, if_true]
    unfold moveIn
    cases hrename : rename a.second incoming target h.files with
    | some files => exact .done _ hlost ((rename_tgt hrename).trans hstaged)
    | none => exact .refused _ _ hlost rfl rfl
  | some b =>
    have hheld : (h.files target).isSome = true := by rw [htarget]; rfl
    simp only [Option.isNone_some, Bool.false_eq_true, if_false]
    cases hrename : rename a.aside target (asidePath pid target) h.files with
    | some files =>
      refine replaced_of_aside haside hincoming hne hstaged hrename (register_files _ _ _) ?_ hheld
      have hallowed := (rename_eq_some.mp hrename).1
      exact ⟨fun hlost => hlost.2.2, fun hsecond => ⟨rfl, hallowed, hsecond⟩⟩
    | none =>
      refine .refused _ _ (fun hlost => ?_) (removeFile_of_ne hincoming.symm _) rfl
      rw [hlost.2.1, rename_of_some rfl htarget] at hrename
      cases hrename

/-- The target is moved aside and the staged file cannot take its place. -/
def StageLost (a : Attempts β) (target : FilePath) (h : Home β) : Prop :=
  a.directory = true ∧ a.write = true ∧ a.first = false ∧ (h.files target).isSome = true ∧
    a.aside = true ∧ a.second = false

theorem stagedWrite_replaced (haside : asidePath pid target ≠ target) :
    Replaced target (some bytes) (StageLost a target h) h (stagedWrite pid a target bytes h) := by
  unfold stagedWrite
  cases hdirectory : a.directory with
  | false =>
    exact .refused _ _ (fun hlost => Bool.false_ne_true (hdirectory.symm.trans hlost.1)) rfl rfl
  | true =>
    have hkept := @writeStage_of_ne β a bytes _ _ (@stagePath_ne pid target).symm h.files
    cases hwrite : a.write with
    | false =>
      exact .refused _ _ (fun hlost => Bool.false_ne_true (hwrite.symm.trans hlost.2.1)) hkept rfl
    | true =>
      refine (renameOver_replaced haside stagePath_ne stagePath_ne_asidePath
        (writeStage_self hwrite h.files)).of_kept hkept rfl ?_
      unfold StageLost
      simp only [hkept, hdirectory, hwrite, true_and]

/-- The running image is moved aside and the new one cannot take its place. -/
def ImageLost (a : Attempts β) (newBinary deployed : FilePath) (h : Home β) : Prop :=
  deployed ≠ [] ∧ a.directory = true ∧ (h.files newBinary).isSome = true ∧ a.write = true ∧
    (h.files deployed).isSome = true ∧ a.aside = true ∧ a.second = false

theorem swapBinary_replaced {newBinary : FilePath} (haside : asidePath pid target ≠ target)
    (hincoming : incomingPath pid target ≠ target) :
    Replaced target (h.files newBinary) (ImageLost a newBinary target h) h
      (swapBinary pid a newBinary target h) := by
  unfold swapBinary
  by_cases hroot : target = []
  · rw [if_pos hroot]
    exact .refused _ _ (fun hlost => hlost.1 hroot) rfl rfl
  rw [if_neg hroot]
  cases hdirectory : a.directory with
  | false =>
    exact .refused _ _ (fun hlost => Bool.false_ne_true (hdirectory.symm.trans hlost.2.1)) rfl rfl
  | true =>
    cases hnew : h.files newBinary with
    | none =>
      refine .refused _ _ (fun hlost => ?_) rfl rfl
      have hpresent := hlost.2.2.1
      rw [hnew] at hpresent
      cases hpresent
    | some new =>
      have hkept := @writeStage_of_ne β a new _ _ hincoming.symm h.files
      cases hwrite : a.write with
      | false =>
        exact .refused _ _ (fun hlost => Bool.false_ne_true (hwrite.symm.trans hlost.2.2.2.1))
          hkept rfl
      | true =>
        refine (swapStaged_replaced haside hincoming (incomingPath_ne_asidePath hroot)
          (writeStage_self hwrite h.files)).of_kept hkept rfl ?_
        unfold ImageLost
        simp only [hkept, hroot, hdirectory, hnew, hwrite, Option.isSome_some, ne_eq,
          not_false_eq_true, true_and]

/-- A write or a swap is all or nothing except where the target is displaced for good. -/
theorem replacement_atomic_iff (haside : asidePath pid target ≠ target)
    (hincoming : incomingPath pid target ≠ target) (newBinary : FilePath) :
    ((AllOrNothing target (some bytes) h (stagedWrite pid a target bytes h) ∧
        ¬ Stranded target h (stagedWrite pid a target bytes h)) ↔ ¬ StageLost a target h) ∧
      ((AllOrNothing target (h.files newBinary) h (swapBinary pid a newBinary target h) ∧
        ¬ Stranded target h (swapBinary pid a newBinary target h)) ↔
          ¬ ImageLost a newBinary target h) :=
  ⟨(stagedWrite_replaced haside).atomic_iff, (swapBinary_replaced haside hincoming).atomic_iff⟩

end Writes

section Locked

def settingsPath : FilePath := ["home", ".claude", "settings.json"]

def userHome : Home String where
  files := fun p => if p = settingsPath then some "theirs" else none
  registered := []

/-- The target can be renamed away, but nothing can be renamed to it. -/
def blocked : Attempts String where
  directory := true
  write := true
  left := none
  first := false
  aside := true
  register := true
  second := false
  cleanup := true
  remove := true
  error := "Access is denied."

theorem replacement_atomic_settings :
    (AllOrNothing settingsPath (some "ours") userHome
        (stagedWrite 7 blocked settingsPath "ours" userHome) ∧
      ¬ Stranded settingsPath userHome (stagedWrite 7 blocked settingsPath "ours" userHome) ↔
      ¬ StageLost blocked settingsPath userHome) :=
  (replacement_atomic_iff (by decide) (by decide) []).1

theorem settings_lost : ¬ (AllOrNothing settingsPath (some "ours") userHome
      (stagedWrite 7 blocked settingsPath "ours" userHome) ∧
    ¬ Stranded settingsPath userHome (stagedWrite 7 blocked settingsPath "ours" userHome)) := by
  have hresult : (stagedWrite 7 blocked settingsPath "ours" userHome).2.isOk = false ∧
      (stagedWrite 7 blocked settingsPath "ours" userHome).1.files settingsPath = none ∧
      userHome.files settingsPath = some "theirs" := by decide
  obtain ⟨herror, hgone, htheirs⟩ := hresult
  rintro ⟨⟨hok, -⟩ | ⟨-, hkept⟩, -⟩
  · rw [herror] at hok
    cases hok
  · rw [hgone, htheirs] at hkept
    cases hkept

end Locked

end RemyCC.Install
