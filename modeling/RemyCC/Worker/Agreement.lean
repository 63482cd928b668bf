import RemyCC.Json.Keys
import RemyCC.Json.Shape
import RemyCC.Server.Wire
import RemyCC.Worker.Capture
import RemyCC.Worker.Stages

/-!
# Scanner and supervisor

What a scan prints is read back line by line, so the outcome of the job follows
from the result of the scan, the length of the output and the stages reported.
Conversely a job only succeeds on an output that ends in the text of a result.
-/

namespace RemyCC.Worker

open Json (Value Printable OneLine)
open Text Scheduler Server

section Printed

theorem pathsJson_printable (paths : List String) : Printable 1 (pathsJson paths) := by
  refine .arr fun v hv => ?_
  obtain ⟨path, -, rfl⟩ := List.mem_map.mp hv
  exact .str path

theorem errorJson_printable (e : StageError) : Printable 1 (errorJson e) := by
  refine .obj (by simp) ?_
  simp only [List.forall_mem_cons, List.not_mem_nil, false_implies, forall_const, and_true]
  refine ⟨.str _, ?_, .str _⟩
  cases e.path with
  | none => exact .null
  | some path => exact .str path

theorem result_printable (r : ScanResult) : Printable 127 r.toJson := by
  have hresult : Printable 3 r.toJson := by
    refine .obj (by simp) ?_
    simp only [List.forall_mem_cons, List.not_mem_nil, false_implies, forall_const, and_true]
    refine ⟨.str _, .int (by decide) (by decide), .str _, (pathsJson_printable _).mono (by decide),
      (pathsJson_printable _).mono (by decide), (pathsJson_printable _).mono (by decide),
      .bool _, ?_⟩
    refine .arr fun v hv => ?_
    obtain ⟨e, -, rfl⟩ := List.mem_map.mp hv
    exact errorJson_printable e
  exact hresult.mono (by decide)

theorem uint64_printable {depth : Nat} (n : UInt64) : Printable depth (.int n.toNat) :=
  .int (by omega) (by exact_mod_cast n.toNat_lt)

theorem stage_printable (stage : Stage) (elapsedMs : UInt64) :
    Printable 127 (stage.toJson elapsedMs) := by
  have hstage : Printable 1 (stage.toJson elapsedMs) := by
    unfold Stage.toJson
    cases stage.files with
    | none =>
      refine .obj (by simp) ?_
      simp only [List.append_nil, List.forall_mem_cons, List.not_mem_nil, false_implies,
        forall_const, and_true]
      exact ⟨.str _, .str _, uint64_printable _⟩
    | some files =>
      refine .obj (by simp) ?_
      simp only [List.cons_append, List.nil_append, List.forall_mem_cons, List.not_mem_nil,
        false_implies, forall_const, and_true]
      exact ⟨.str _, .str _, uint64_printable _, uint64_printable _⟩
  exact hstage.mono (by decide)

theorem resultLine_single (r : ScanResult) : Single r.toJsonLine :=
  .of_obj (result_printable r).oneLine

theorem stageLine_single (stage : Stage) (elapsedMs : UInt64) :
    Single (Json.print (stage.toJson elapsedMs)) :=
  .of_obj (stage_printable stage elapsedMs).oneLine

end Printed

section Lines

variable {o : Outside} {code : Option Int} {stderr : Captured} {line : String} {value : Value}

theorem evaluateLines_progress (rest : List String) (hparse : Json.parse line = some value)
    (htype : (value.get "type").bind Value.asStr = some "progress") :
    evaluateLines o code stderr none (line :: rest) =
      if validProgressLine value then evaluateLines o code stderr none rest
      else .ok (bareRefusal code "worker emitted an unknown progress stage") := by
  rw [evaluateLines, hparse]
  simp only [htype, Option.isNone_none, and_self, if_true]

theorem evaluateLines_result (hparse : Json.parse line = some value)
    (htype : (value.get "type").bind Value.asStr = some "scan_result")
    (hkeys : hasExactKeys value resultKeys = true) :
    evaluateLines o code stderr none [line] = .ok (judgeResult o code stderr value) := by
  have hne : ¬ "scan_result" = "progress" := by decide
  rw [evaluateLines, hparse]
  simp only [htype, hkeys, Option.isNone_none, and_self, if_true, Option.some.injEq, hne, false_and,
    if_false]
  rfl

theorem parse_stage (stage : Stage) (elapsedMs : UInt64) :
    Json.parse (Json.print (stage.toJson elapsedMs)) = some (stage.toJson elapsedMs) :=
  Json.readText_print (stage_printable stage elapsedMs)

theorem parse_result (r : ScanResult) : Json.parse r.toJsonLine = some r.toJson :=
  Json.readText_print (result_printable r)

theorem stage_type (stage : Stage) (elapsedMs : UInt64) :
    ((stage.toJson elapsedMs).get "type").bind Value.asStr = some "progress" := rfl

theorem stage_valid (stage : Stage) (elapsedMs : UInt64) :
    validProgressLine (stage.toJson elapsedMs) = progressStages.contains stage.name := by
  have hstage : ((stage.toJson elapsedMs).get "stage").bind Value.asStr = some stage.name := rfl
  have hkeys : ∀ fields, (stage.toJson elapsedMs).asObject = some fields →
      (fields.all fun f => progressKeys.contains f.1) = true := by
    intro fields hfields
    cases hfields
    cases stage.files <;> rfl
  unfold validProgressLine
  rw [hstage]
  exact (congrArg (· && _) (hkeys _ rfl)).trans (Bool.true_and _)

/-- The progress lines of a scan are passed over up to the first stage that is not known. -/
theorem evaluateLines_stages (elapsedMs : Nat → UInt64) (stages : List Stage) (rest : List String) :
    evaluateLines o code stderr none
        ((stages.mapIdx fun i stage => Json.print (stage.toJson (elapsedMs i))) ++ rest) =
      if ∀ stage ∈ stages, stage.name ∈ progressStages then evaluateLines o code stderr none rest
      else .ok (bareRefusal code "worker emitted an unknown progress stage") := by
  induction stages generalizing elapsedMs with
  | nil => simp
  | cons stage stages ih =>
    rw [List.mapIdx_cons, List.cons_append, evaluateLines_progress _ (parse_stage _ _)
      (stage_type _ _), stage_valid, ih fun i => elapsedMs (i + 1)]
    by_cases hknown : stage.name ∈ progressStages
    · rw [if_pos (List.contains_iff_mem.mpr hknown)]
      simp only [List.forall_mem_cons, hknown, true_and]
    · rw [if_neg fun h => hknown (List.contains_iff_mem.mp h),
        if_neg fun h => hknown (h stage List.mem_cons_self)]

end Lines

section Judge

variable (r : ScanResult)

theorem result_type : (r.toJson.get "type").bind Value.asStr = some "scan_result" := rfl

theorem result_keys : hasExactKeys r.toJson resultKeys = true := rfl

theorem result_outcome : (r.toJson.get "outcome").bind Value.asStr = some r.status.value := rfl

theorem result_errors :
    (r.toJson.get "errors").bind Value.asArray = some (r.errors.map errorJson) := rfl

theorem pathsJson_valid (paths : List String) : validStringArray (pathsJson paths) = true := by
  have hitems : (pathsJson paths).asArray = some (paths.map .str) := rfl
  rw [validStringArray, hitems, Option.any_some, List.all_map, List.all_eq_true]
  exact fun path _ => rfl

theorem errorJson_valid (e : StageError) : validError (errorJson e) = true := by
  obtain ⟨stage, path, message⟩ := e
  cases path <;> rfl

theorem result_valid : validScanResult r.toJson = true := by
  have hpaths : ∀ key paths, at_ r.toJson key = pathsJson paths →
      validStringArray (at_ r.toJson key) = true := by
    intro key paths hkey
    rw [hkey]
    exact pathsJson_valid paths
  have herrors : validErrorArray (at_ r.toJson "errors") = true := by
    change ((r.errors.map errorJson).all validError) = true
    rw [List.all_map, List.all_eq_true]
    exact fun e _ => errorJson_valid e
  unfold validScanResult
  rw [result_outcome, hpaths "successful_paths" r.successfulPaths rfl,
    hpaths "failed_paths" r.failedPaths rfl, hpaths "deleted_paths" r.deletedPaths rfl, herrors]
  cases r.status <;> rfl

theorem exit_matches (status : RunStatus) :
    ((some status.exitCode = some 0 ∧ some status.value = some "success") ∨
      (some status.exitCode = some 2 ∧ some status.value = some "partial")) ↔
        ¬ status = .failed := by
  cases status <;> decide

/-- With the exit code that goes with it, a printed result is taken unless the scan failed. -/
theorem judgeResult_printed (o : Outside) (stderr : Captured) :
    judgeResult o (some r.status.exitCode) stderr r.toJson =
      if r.status = .failed then
        .failed (errorValue "worker_failed" "scanner worker failed" (some r.status.exitCode) "scanning"
          (sanitize o (o.lossy stderr.bytes)) stderr.truncated (r.errors.map errorJson))
      else .succeeded r.toJson := by
  unfold judgeResult
  rw [if_pos (result_valid r)]
  simp only [result_outcome, result_errors, Option.getD_some, exit_matches, ite_not]

end Judge

section Events

theorem printedText_bytes (lines : List String) : bytesOf (String.ofList (printedText lines)) =
    lines.flatMap fun line => bytesOf line ++ [lineFeed] := by
  have hfeed : String.utf8EncodeChar '\n' = [lineFeed] := by decide +kernel
  induction lines with
  | nil => rfl
  | cons line lines ih =>
    rw [bytesOf_ofList] at ih ⊢
    rw [printedText, List.flatMap_cons, ← printedText, List.flatMap_append, ih, List.flatMap_cons,
      List.flatMap_append, List.flatMap_singleton, hfeed, ← bytesOf_ofList, String.ofList_toList]

theorem feed_not_mem_bytesOf {line : String} (h : '\n' ∉ line.toList) : lineFeed ∉ bytesOf line := by
  intro hmem
  rw [← String.ofList_toList (s := line), bytesOf_ofList] at hmem
  obtain ⟨c, hc, hfeed⟩ := List.mem_flatMap.mp hmem
  exact h (feed_mem_utf8EncodeChar hfeed ▸ hc)

theorem chunks_printed {lines : List String} (h : ∀ line ∈ lines, Single line) :
    chunks (bytesOf (String.ofList (printedText lines))) =
      lines.map fun line => bytesOf (String.ofList (line.toList ++ ['\n'])) := by
  have hline : ∀ line : String, bytesOf (String.ofList (line.toList ++ ['\n'])) =
      bytesOf line ++ [lineFeed] := by
    intro line
    have hone := printedText_bytes [line]
    simpa [printedText] using hone
  have hsplit : splitLines (lines.flatMap fun line => bytesOf line ++ [lineFeed]) =
      (lines.map bytesOf, []) := by
    induction lines with
    | nil => rfl
    | cons line lines ih =>
      obtain ⟨hfirst, hrest⟩ := List.forall_mem_cons.mp h
      rw [List.flatMap_cons, List.append_assoc, List.singleton_append,
        splitLines_append _ _ (feed_not_mem_bytesOf hfirst.feed), ih hrest, List.map_cons]
  rw [printedText_bytes, chunks, hsplit]
  simp only [List.map_map, if_true, List.append_nil]
  exact List.map_congr_left fun line _ => (hline line).symm

/-- The line feed behind a value is a blank to the reader. -/
theorem parse_fed {v : Value} (h : Printable 127 v) :
    Json.parse (String.ofList ((Json.print v).toList ++ ['\n'])) = some v := by
  have hends : Json.EndsNumber ['\n'] := Json.endsNumber_cons (by decide)
  have hread := Json.readValue_print Json.readable_compact h hends
  rw [Json.parse, Json.readText, String.toList_ofList, Json.print, String.toList_ofList,
    (h.starts.append ['\n']).skipBlanks_eq, hread]
  rfl

theorem lineEvents_of_value (jobId : Int) {v : Value} (h : Printable 127 v) :
    lineEvents jobId (bytesOf (String.ofList ((Json.print v).toList ++ ['\n']))) =
      if isLockAcquired v then [.progress jobId 2 "scanning"] else [] := by
  rw [lineEvents, text?_bytesOf, Option.bind_some, parse_fed h, Option.any_some]

theorem stage_isLockAcquired (stage : Stage) (elapsedMs : UInt64) :
    isLockAcquired (stage.toJson elapsedMs) = (stage.name == "lock_acquired") := by
  have hstage : ((stage.toJson elapsedMs).get "stage").bind Value.asStr = some stage.name := rfl
  rw [isLockAcquired, stage_type, hstage]
  exact Bool.true_and _

theorem result_not_lock (r : ScanResult) : isLockAcquired r.toJson = false := rfl

theorem stageEvents_quiet (jobId : Int) (elapsedMs : Nat → UInt64) {stages : List Stage}
    (h : ∀ stage ∈ stages, stage.name ≠ "lock_acquired") :
    (stages.mapIdx fun i stage => Json.print (stage.toJson (elapsedMs i))).flatMap
      (fun line => lineEvents jobId (bytesOf (String.ofList (line.toList ++ ['\n'])))) = [] := by
  rw [List.flatMap_eq_nil_iff]
  intro line hline
  obtain ⟨i, hi, rfl⟩ := List.mem_mapIdx.mp hline
  have hname := h stages[i] (List.getElem_mem hi)
  rw [lineEvents_of_value jobId (stage_printable _ _), stage_isLockAcquired,
    beq_eq_false_iff_ne.mpr hname]
  rfl

end Events

section Scan

/-- The bytes on the pipe. -/
def Printed.bytes (p : Printed) : List UInt8 := bytesOf (String.ofList (printedText p.lines))

/-- The result that a scan prints. -/
def printedResult (args : ScanArgs) (s : Steps) : ScanResult := resultOf args (scan args s).result

variable (o : Outside) (job : State.Job) (elapsedMs : Nat → UInt64) (s : Steps) (stderr : Captured)

/-- The scanner that a worker runs for its job. -/
def scanner : Printed := runScan (workerArgs job) elapsedMs s

theorem scanner_lines : (scanner job elapsedMs s).lines =
    (scan (workerArgs job) s).stages.mapIdx
      (fun i stage => Json.print (stage.toJson (elapsedMs i))) ++
        [(printedResult (workerArgs job) s).toJsonLine] := rfl

theorem scanner_single : ∀ line ∈ (scanner job elapsedMs s).lines, Single line := by
  rw [scanner_lines]
  refine List.forall_mem_append.mpr ⟨fun line hline => ?_, fun line hline => ?_⟩
  · obtain ⟨i, hi, rfl⟩ := List.mem_mapIdx.mp hline
    exact stageLine_single _ _
  · rw [List.mem_singleton.mp hline]
    exact resultLine_single _

theorem stages_known (args : ScanArgs) :
    (∀ stage ∈ (scan args s).stages, stage.name ∈ progressStages) ↔ ¬ Long args s := by
  rw [← scan_writes]
  constructor
  · rintro h ⟨stage, hstage, hname⟩
    have hknown := h stage hstage
    rw [hname] at hknown
    exact absurd hknown (by decide)
  · intro h stage hstage
    have hnot : stage.name ≠ "write" := fun hname => h ⟨stage, hstage, hname⟩
    rcases scan_stages args s with ⟨-, rest, hstages, hrest⟩ | ⟨-, hstages⟩
    · rw [hstages] at hstage
      rcases List.mem_cons.mp hstage with rfl | hstage
      · exact List.mem_cons_self
      · rcases hrest stage hstage with h | h | h
        · exact absurd h hnot
        · rw [h]
          exact List.mem_cons_of_mem _ List.mem_cons_self
        · rw [h]
          exact List.mem_cons_of_mem _ (List.mem_cons_of_mem _ List.mem_cons_self)
    · rw [hstages] at hstage
      cases hstage

/-- What the supervisor makes of the scanner's exit and output. -/
def supervised : Except IoError WorkerOutcome :=
  evaluate o (some (scanner job elapsedMs s).exitCode) stderr
    (readStdout job.id (scanner job elapsedMs s).bytes).1

/-- Within the limit the outcome is that of the stages and of the result. -/
theorem supervised_eq (hlimit : (scanner job elapsedMs s).bytes.length ≤ OUTPUT_LIMIT) :
    supervised o job elapsedMs s stderr =
      if ∀ stage ∈ (scan (workerArgs job) s).stages, stage.name ∈ progressStages then
        .ok (judgeResult o (some (printedResult (workerArgs job) s).status.exitCode) stderr
          (printedResult (workerArgs job) s).toJson)
      else .ok (bareRefusal (some (scanner job elapsedMs s).exitCode)
        "worker emitted an unknown progress stage") := by
  have hcaptured : captured (scanner job elapsedMs s).bytes =
      ⟨(scanner job elapsedMs s).bytes, false⟩ := by
    rw [captured, List.take_of_length_le hlimit, decide_eq_false (Nat.not_lt.mpr hlimit)]
  have htext : text? (scanner job elapsedMs s).bytes =
      some (String.ofList (printedText (scanner job elapsedMs s).lines)) := text?_bytesOf _
  unfold supervised evaluate
  rw [readStdout_captured, hcaptured]
  simp only [Bool.false_eq_true, if_false, htext]
  rw [textLines_printed _ (scanner_single job elapsedMs s), scanner_lines, evaluateLines_stages,
    evaluateLines_result (parse_result _) (result_type _) (result_keys _)]
  rfl

/-- What the supervisor of a job takes from the scan it has run. -/
structure Supervised : Prop where
  oversized : OUTPUT_LIMIT < (scanner job elapsedMs s).bytes.length →
    supervised o job elapsedMs s stderr = .ok (refusal o (some (scanner job elapsedMs s).exitCode)
      stderr "worker stdout exceeded 65536 bytes")
  long : (scanner job elapsedMs s).bytes.length ≤ OUTPUT_LIMIT → Long (workerArgs job) s →
    supervised o job elapsedMs s stderr = .ok (bareRefusal
      (some (scanner job elapsedMs s).exitCode) "worker emitted an unknown progress stage")
  failed : (scanner job elapsedMs s).bytes.length ≤ OUTPUT_LIMIT → ¬ Long (workerArgs job) s →
    (printedResult (workerArgs job) s).status = .failed →
    supervised o job elapsedMs s stderr = .ok (.failed (errorValue "worker_failed"
      "scanner worker failed" (some 1) "scanning" (sanitize o (o.lossy stderr.bytes))
      stderr.truncated ((printedResult (workerArgs job) s).errors.map errorJson)))
  succeeded : (scanner job elapsedMs s).bytes.length ≤ OUTPUT_LIMIT → ¬ Long (workerArgs job) s →
    (printedResult (workerArgs job) s).status ≠ .failed →
    supervised o job elapsedMs s stderr =
      .ok (.succeeded (printedResult (workerArgs job) s).toJson)
  locked : Locked (workerArgs job) s →
    (readStdout job.id (scanner job elapsedMs s).bytes).2 = [.progress job.id 2 "scanning"]
  unlocked : ¬ Locked (workerArgs job) s →
    (readStdout job.id (scanner job elapsedMs s).bytes).2 = []

theorem scanner_events : (readStdout job.id (scanner job elapsedMs s).bytes).2 =
    ((scan (workerArgs job) s).stages.mapIdx
      fun i stage => Json.print (stage.toJson (elapsedMs i))).flatMap
        fun line => lineEvents job.id (bytesOf (String.ofList (line.toList ++ ['\n']))) := by
  have hresult : lineEvents job.id (bytesOf (String.ofList
      ((printedResult (workerArgs job) s).toJsonLine.toList ++ ['\n']))) = [] := by
    rw [ScanResult.toJsonLine, lineEvents_of_value _ (result_printable _), result_not_lock]
    rfl
  have hchunks := chunks_printed (scanner_single job elapsedMs s)
  rw [readStdout, Printed.bytes, hchunks, List.flatMap_map, scanner_lines, List.flatMap_append,
    List.flatMap_singleton, hresult, List.append_nil]

theorem supervise_scan : Supervised o job elapsedMs s stderr where
  oversized := by
    intro hlimit
    unfold supervised evaluate
    rw [readStdout_captured]
    exact if_pos (decide_eq_true hlimit)
  long := by
    intro hlimit hlong
    rw [supervised_eq o job elapsedMs s stderr hlimit,
      if_neg fun h => (stages_known s (workerArgs job)).mp h hlong]
  failed := by
    intro hlimit hlong hfailed
    rw [supervised_eq o job elapsedMs s stderr hlimit,
      if_pos ((stages_known s (workerArgs job)).mpr hlong), judgeResult_printed, if_pos hfailed,
      hfailed]
    rfl
  succeeded := by
    intro hlimit hlong hstatus
    rw [supervised_eq o job elapsedMs s stderr hlimit,
      if_pos ((stages_known s (workerArgs job)).mpr hlong), judgeResult_printed, if_neg hstatus]
  locked := by
    intro hlocked
    rw [scanner_events]
    rcases scan_stages (workerArgs job) s with ⟨-, rest, hstages, hrest⟩ | ⟨hnot, -⟩
    · have hquiet : ∀ stage ∈ rest, stage.name ≠ "lock_acquired" := by
        intro stage hstage hname
        rcases hrest stage hstage with h | h | h <;> exact absurd (h.symm.trans hname) (by decide)
      rw [hstages, List.mapIdx_cons, List.flatMap_cons,
        stageEvents_quiet job.id (fun i => elapsedMs (i + 1)) hquiet,
        lineEvents_of_value _ (stage_printable _ _), stage_isLockAcquired]
      rfl
    · exact absurd hlocked hnot
  unlocked := by
    intro hnot
    rw [scanner_events]
    rcases scan_stages (workerArgs job) s with ⟨hlocked, -⟩ | ⟨-, hstages⟩
    · exact absurd hlocked hnot
    · rw [hstages]
      rfl

end Scan

end RemyCC.Worker
