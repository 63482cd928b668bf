import RemyCC.Install.Deploy

/-!
# Uninstall

The recorded files that are there are deleted or deferred one after the other,
the managed entries of the settings are taken out, and last goes the manifest.
-/

namespace RemyCC.Install

open Files Json Json.Value Text Relational

variable {β : Type} (platform : Platform β) (roots : Roots) (luck : Luck β)

/-- Each recorded file that is there when its turn comes, with the records that were acted on. -/
def removeRecords : List FileRecord → Home (Content β) →
    Home (Content β) × List Warning × List FileRecord
  | [], h => (h, [], [])
  | r :: rest, h =>
    let target := place roots r.root r.path
    if (h.files target).isNone then removeRecords rest h
    else
      let first := removeOrDefer luck target h
      let others := removeRecords rest first.1
      (others.1, first.2 ++ others.2.1, r :: others.2.2)

/-- Settings that cannot be read are left alone. -/
def cleanSettings (claim : SettingsClaim) : Run β (List String × List Warning) := fun h =>
  let target := settingsFile roots
  match h.files target with
  | none => (h, .ok ([], []))
  | some content =>
    match loadSettings platform luck target h.files with
    | .error error => (h, .ok ([], [.settingsSkipped error.message]))
    | .ok settings =>
      let cleaned := platform.encode (removeSettingsClaimLenient settings claim)
      if platform.digest content = platform.digest cleaned then (h, .ok ([], []))
      else andThen (written (stagedWrite luck.pid (luck.attempts target) target cleaned h))
        fun _ h => (h, .ok (["claude/settings.json"], []))

/-- What `remove_dir_all` leaves of the engine's root if it does not come to its end. -/
structure Purge where
  complete : Bool
  kept : FilePath → Bool
  keptRegister : Bool

/-- The register lies in the engine's root and goes with it. -/
def purgeState (purge : Purge) : Run β Unit := fun h =>
  let inRoot (path : FilePath) := (components roots.remyRoot).isPrefixOf path
  if purge.complete then
    ({ files := fun path => if inRoot path then none else h.files path, registered := [] }, .ok ())
  else
    ({ files := fun path => if inRoot path && !purge.kept path then none else h.files path
       registered := if purge.keptRegister then h.registered else [] },
      .error (.runtime "uninstall committed but engine-state cleanup is incomplete"))

def probeDaemon : Except InstallError (List Warning) :=
  match luck.daemon with
  | .ok true =>
    .error (.runtime "daemon must be stopped before uninstall; run: remy-cc daemon stop")
  | .ok false => .ok []
  | .error error => .ok [.daemonUnknown error]

/-- What an uninstall goes by: the manifest, and a daemon that does not run. -/
def uninstallPlan (files : Tree FilePath (Content β)) :
    Except InstallError (Manifest × List Warning) := do
  match ← loadManifest platform luck roots files with
  | none => throw (.runtime "install manifest is missing")
  | some m => return (m, ← probeDaemon luck)

def uninstall (purge : Option Purge) : Run β InstallReport := fun h =>
  match luck.lock with
  | some error => (h, .error error)
  | none =>
    match uninstallPlan platform roots luck h.files with
    | .error error => (h, .error error)
    | .ok (m, warnings) =>
      let removed := removeRecords roots luck m.files h
      andThen (cleanSettings platform roots luck m.settingsClaim removed.1) fun cleaned h =>
        let last := removeOrDefer luck (manifestFile roots) h
        let report : InstallReport :=
          ⟨removed.2.2.map (fun r => r.root ++ "/" ++ r.path) ++ cleaned.1,
            warnings ++ removed.2.1 ++ cleaned.2 ++ last.2, false⟩
        match purge with
        | none => (last.1, .ok report)
        | some purge => andThen (purgeState roots purge last.1) fun _ h => (h, .ok report)

end RemyCC.Install
