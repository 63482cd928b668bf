import RemyCC.Index.Changes
import RemyCC.Index.Anchored

/-!
# Incremental resolution

An edge outside the reset set reads the same before and after the changes, so
it stands as resolving it anew would leave it. Both ways of postprocessing
therefore end with the same edges, candidates and symbols.
-/

namespace RemyCC.Index

open Relational Text

section Coverage

variable {d₀ d : Database} {delta : ScanDelta} {e : EdgeRow}

theorem jsonArray_brackets : jsonArray "[]" = [] := by decide +kernel

/-- A file whose bindings no changed path fits is no host. -/
theorem bindings_unaffected {path : String} {r : FileRow} (hr : d.file? path = some r)
    (hhost : path ∉ importBindingHosts delta.changedPy d) :
    ∀ b ∈ jsonArray r.importBindings, bindingAffected delta.changedPy b = false := by
  intro b hb
  rw [Bool.eq_false_iff]
  intro haffected
  refine hhost ?_
  have hpath : r.path = path := by simpa using List.find?_some hr
  have hchanged : delta.changedPy ≠ [] := by
    intro hnil
    rw [hnil] at haffected
    simp [bindingAffected] at haffected
  have hbrackets : r.importBindings ≠ "[]" := by
    intro heq
    rw [heq, jsonArray_brackets] at hb
    exact List.not_mem_nil hb
  unfold importBindingHosts
  rw [if_neg hchanged]
  refine List.mem_map.mpr ⟨r, List.mem_filter.mpr ⟨?_, ?_⟩, hpath⟩
  · exact mem_orderBy.mpr (List.mem_of_find?_eq_some hr)
  · rw [Bool.and_eq_true, bne_iff_ne, List.any_eq_true]
    exact ⟨hbrackets, b, hb, haffected⟩

theorem Tracks.sameHits (h : Tracks d₀ d delta) {b : Json.Value}
    (hb : bindingAffected delta.changedPy b = false) (hmodule : moduleName b ≠ "")
    (hstd : isStdlib (moduleName b) = false) : SameHits (moduleName b) d₀ d := by
  refine sameHits_of_files fun path hfits hpython => h.python path (fun hmem => ?_) hpython
  have hany : delta.changedPy.any (fitsModule (moduleName b)) = true :=
    List.any_eq_true.mpr ⟨path, hmem, hfits⟩
  simp [bindingAffected, hmodule, hstd, hany] at hb

theorem Tracks.supplement_eq (h : Tracks d₀ d delta) {b : Json.Value}
    (hb : bindingAffected delta.changedPy b = false) :
    bindingSupplement d b = bindingSupplement d₀ b := by
  by_cases hskip : moduleName b = "" ∨ isStdlib (moduleName b)
  · unfold bindingSupplement
    simp only [if_pos hskip]
  · rw [not_or, Bool.not_eq_true] at hskip
    exact (h.sameHits hb hskip.1 hskip.2).supplement

theorem Tracks.externals_eq (h : Tracks d₀ d delta) {b : Json.Value}
    (hb : bindingAffected delta.changedPy b = false) :
    bindingExternals d b = bindingExternals d₀ b := by
  by_cases hmodule : moduleName b = ""
  · unfold bindingExternals
    simp only [if_pos hmodule]
  · cases hstd : isStdlib (moduleName b) with
    | true =>
      unfold bindingExternals
      simp only [if_neg hmodule, hstd, if_true]
    | false => exact (h.sameHits hb hmodule hstd).externals

/-- An edge that a change set does not reach reads the same as before it. -/
theorem Tracks.readsAlike (h : Tracks d₀ d delta) (hdirect : e.direct = true)
    (hout : inResetSet delta d e = false) : ReadsAlike e d₀ d := by
  unfold inResetSet at hout
  rw [hdirect, Bool.true_and, Bool.or_eq_false_iff, Bool.or_eq_false_iff] at hout
  obtain ⟨⟨htouched, hhost⟩, hcallee⟩ := hout
  have htouched : e.sourceFile ∉ delta.touchedFiles := fun hmem =>
    Bool.eq_false_iff.mp htouched (List.contains_iff_mem.mpr hmem)
  have hhost : e.sourceFile ∉ importBindingHosts delta.changedPy d := fun hmem =>
    Bool.eq_false_iff.mp hhost (List.contains_iff_mem.mpr hmem)
  have hcallee : e.callee ∉ delta.names := fun hmem =>
    Bool.eq_false_iff.mp hcallee (List.contains_iff_mem.mpr hmem)
  have hfile := h.files e.sourceFile htouched
  have hrows := h.symbols e.callee hcallee
  have hbindings : ∀ r ∈ (d.file? e.sourceFile).toList, ∀ b ∈ jsonArray r.importBindings,
      bindingAffected delta.changedPy b = false := fun r hr =>
    bindings_unaffected (Option.mem_toList.mp hr) hhost
  refine ⟨by rw [hfile], by rw [hfile], ?_, ?_, List.Perm.of_eq (by rw [hrows]), ?_⟩
  · rw [supplementsOf_derive, supplementsOf_derive, ← hfile]
    refine List.flatMap_congr fun r hr => List.filterMap_congr fun b hb => ?_
    exact h.supplement_eq (hbindings r hr b hb)
  · rw [externalsOf_derive, externalsOf_derive, ← hfile]
    refine List.flatMap_congr fun r hr => List.flatMap_congr fun b hb => ?_
    exact h.externals_eq (hbindings r hr b hb)
  · intro s hs hbears
    have hmem : s ∈ d.symbols.rows := by
      have hfilter := List.mem_filter.mpr ⟨hs, hbears⟩
      rw [← hrows] at hfilter
      exact (List.mem_filter.mp hfilter).1
    have hplace : s.filePath ∉ delta.touchedFiles := by
      intro htouch
      have hnames := h.named s hmem htouch
      rcases bears_iff.mp hbears with heq | heq
      · exact hcallee (heq ▸ hnames.1)
      · exact hcallee (heq ▸ hnames.2)
    rw [h.files s.filePath hplace]

end Coverage

section Fixed

variable {c : PostprocessConfig} {d₀ d₁ d d' : Database} {delta : ScanDelta}

/-- Every direct edge stands as resolving it anew in another database leaves it. -/
def ResolvedIn (c : PostprocessConfig) (d₀ d : Database) : Prop :=
  ∀ e ∈ d.edges.rows, e.direct = true →
    settled c d₀ e = e ∧ candidatesOf e.id d = settledCandidates c d₀ e

/-- The fixed points of resolution. -/
def Resolved (c : PostprocessConfig) (d : Database) : Prop := ResolvedIn c d d

theorem ReadsAlike.settled_eq {e : EdgeRow} (h : ReadsAlike e d d') :
    settled c d' e = settled c d e := by
  unfold settled
  rw [h.resolveEdge_eq]

theorem ReadsAlike.settledCandidates_eq {e : EdgeRow} (h : ReadsAlike e d d') :
    settledCandidates c d' e = settledCandidates c d e := by
  unfold settledCandidates
  rw [h.resolveEdge_eq]

theorem ResolvedIn.inputs (h : ResolvedIn c d₀ d) (hs : SameInputs d₀ d₁) : ResolvedIn c d₁ d := by
  intro e he hdirect
  rw [(hs.readsAlike e).settled_eq, (hs.readsAlike e).settledCandidates_eq]
  exact h e he hdirect

theorem ResolvedIn.inferred (h : ResolvedIn c d₀ d) (hs : SameButInferred d d') :
    ResolvedIn c d₀ d' := by
  intro e he hdirect
  have hmem : e ∈ d'.edges.rows.filter EdgeRow.direct := List.mem_filter.mpr ⟨he, hdirect⟩
  rw [hs.direct] at hmem
  unfold candidatesOf
  rw [hs.candidates]
  exact h e (List.mem_filter.mp hmem).1 hdirect

theorem ResolvedIn.views (h : ResolvedIn c d₀ d) (hs : SameButViews d d') : ResolvedIn c d₀ d' := by
  unfold ResolvedIn candidatesOf
  rw [hs.edges, hs.candidates]
  exact h

theorem SameButEdges.inputs (h : SameButEdges d d') : SameInputs d d' :=
  ⟨.of_eq (by rw [h.files]), .of_eq (by rw [h.symbols])⟩

theorem SameButInferred.inputs (h : SameButInferred d d') : SameInputs d d' :=
  ⟨.of_eq (by rw [h.files]), .of_eq h.names⟩

theorem SameButViews.inputs (h : SameButViews d d') : SameInputs d d' :=
  ⟨.of_eq h.files, .of_eq (by rw [h.symbols])⟩

theorem resolvedIn_full (d : Database) :
    ResolvedIn c d (resolveCallEdges c (resetDirectEdgeResolution d)) := by
  intro e he hdirect
  rw [resolveFull_rows] at he
  obtain ⟨x, hx, rfl⟩ := List.mem_map.mp he
  split at hdirect
  · rename_i hx'
    rw [if_pos hx', settled_settled, settledCandidates_settled, settled_id]
    exact ⟨rfl, resolveFull_candidates hx hx'⟩
  · contradiction

theorem resolved_run (c : PostprocessConfig) (d : Database) : Resolved c (run c d) := by
  have hresynth := resynthesize_same c (resolveCallEdges c (resetDirectEdgeResolution d))
  have hviews := run_views c d
  have hinputs : SameInputs d (run c d) :=
    ((resolveFull_same d).inputs.trans hresynth.inputs).trans hviews.inputs
  exact (((resolvedIn_full d).inferred hresynth).views hviews).inputs hinputs

/-- An edge that a change set does not reach stands in the changed database. -/
theorem Tracks.stands (h : Tracks d₀ d delta) (hd : Resolved c d₀) {e : EdgeRow}
    (he : e ∈ d.edges.rows) (hdirect : e.direct = true) (hout : inResetSet delta d e = false) :
    settled c d e = e ∧ candidatesOf e.id d = settledCandidates c d e := by
  have hreads := h.readsAlike hdirect hout
  have hsource : e.sourceFile ∉ delta.touchedFiles := by
    intro hmem
    rw [inResetSet, hdirect, List.contains_iff_mem.mpr hmem] at hout
    exact Bool.noConfusion hout
  have hold : e ∈ d₀.edges.rows := by
    have hmem : e ∈ d.edges.rows.filter fun e => e.sourceFile ∉ delta.touchedFiles :=
      List.mem_filter.mpr ⟨he, decide_eq_true hsource⟩
    rw [h.edges] at hmem
    exact (List.mem_filter.mp hmem).1
  obtain ⟨hsettled, hcandidates⟩ := hd e hold hdirect
  rw [hreads.settled_eq, hreads.settledCandidates_eq, h.candidates e he hsource]
  exact ⟨hsettled, hcandidates⟩

theorem Tracks.resolved_rows (h : Tracks d₀ d delta) (hd : Resolved c d₀) :
    (resolveTargets c delta d).edges.rows =
      (resolveCallEdges c (resetDirectEdgeResolution d)).edges.rows := by
  rw [resolveTargets_rows, resolveFull_rows]
  refine List.map_congr_left fun e he => ?_
  cases hin : inResetSet delta d e with
  | true => rw [if_pos rfl, if_pos (inResetSet_direct hin)]
  | false =>
    cases hdirect : e.direct with
    | true => simp only [Bool.false_eq_true, if_false, if_true, (h.stands hd he hdirect hin).1]
    | false => rfl

theorem Tracks.resolved_edges (h : Tracks d₀ d delta) (hd : Resolved c d₀) :
    (resolveTargets c delta d).edges =
      (resolveCallEdges c (resetDirectEdgeResolution d)).edges :=
  Numbered.ext (h.resolved_rows hd)
    ((resolveTargets_same delta d).last.trans (resolveFull_same d).last.symm)

theorem Tracks.resolved_candidates (h : Tracks d₀ d delta) (hd : Resolved c d₀)
    (hanchored : Anchored d) (n : Nat) :
    candidatesOf n (resolveTargets c delta d) =
      candidatesOf n (resolveCallEdges c (resetDirectEdgeResolution d)) := by
  by_cases hn : ∃ e ∈ d.edges.rows, e.direct = true ∧ e.id = n
  · obtain ⟨e, he, hdirect, rfl⟩ := hn
    rw [resolveTargets_candidates he, resolveFull_candidates he hdirect]
    cases hin : inResetSet delta d e with
    | true => rfl
    | false => exact (h.stands hd he hdirect hin).2
  · have hnone : ∀ e ∈ (resolveCallEdges c (resetDirectEdgeResolution d)).edges.rows,
        e.direct = true → e.id ≠ n :=
      (resolveFull_ids d n).mpr fun e he hdirect hid => hn ⟨e, he, hdirect, hid⟩
    have hfull := anchored_iff.mp (anchored_resolveFull (c := c) d) n hnone
    have htargets := anchored_iff.mp (hanchored.resolveTargets (c := c) delta) n
    rw [hfull]
    refine htargets ?_
    rw [h.resolved_rows hd]
    exact hnone

/-- Resolution from scratch and targeted resolution differ in no table that the
later passes read. -/
theorem Tracks.sameFacts (h : Tracks d₀ d delta) (hd : Resolved c d₀) :
    SameFacts (resolveCallEdges c (resetDirectEdgeResolution d)) (resolveTargets c delta d) := by
  have hfull := resolveFull_same (c := c) d
  have htargets := resolveTargets_same (c := c) delta d
  exact ⟨htargets.files.trans hfull.files.symm, htargets.symbols.trans hfull.symbols.symm,
    htargets.patterns.trans hfull.patterns.symm, h.resolved_edges hd⟩

/-- What both ways of postprocessing leave in the fact tables. -/
structure SameOutcome (d d' : Database) : Prop where
  edges : d'.edges = d.edges
  candidates : ∀ n, candidatesOf n d' = candidatesOf n d
  symbols : d'.symbols = d.symbols
  files : d'.files.rows.map fileKey = d.files.rows.map fileKey

theorem Tracks.sameOutcome (h : Tracks d₀ d delta) (hd : Resolved c d₀) (hanchored : Anchored d) :
    SameOutcome (run c d) (runIncremental c delta d) := by
  have hfacts := (h.sameFacts hd).resynthesize c
  have hfull := run_views c d
  have hincremental := runIncremental_views c delta d
  refine ⟨?_, fun n => ?_, ?_, ?_⟩
  · rw [hincremental.edges, hfacts.edges, hfull.edges]
  · unfold candidatesOf
    rw [hincremental.candidates, hfull.candidates, (resynthesize_same c _).candidates,
      (resynthesize_same c _).candidates]
    exact h.resolved_candidates hd hanchored n
  · rw [hincremental.symbols, hfacts.symbols, hfull.symbols]
  · rw [hincremental.files, hfacts.files, hfull.files]

theorem SameOutcome.resolved (h : SameOutcome d d') (hd : Resolved c d) : Resolved c d' := by
  have hinputs : SameInputs d d' := ⟨.of_eq h.files, .of_eq (by rw [h.symbols])⟩
  refine ResolvedIn.inputs (fun e he hdirect => ?_) hinputs
  rw [h.edges] at he
  rw [h.candidates]
  exact hd e he hdirect

end Fixed

section Runs

variable {h : Hashes} {c : PostprocessConfig} {d : Database}

theorem IndexedUnder.indexed (hd : IndexedUnder h c d) : Indexed h d := by
  induction hd with
  | full ops hd => exact .full c ops hd
  | incremental ops _ ih => exact .incremental c ops ih

theorem sameOutcome_scan (hd : Indexed h d) (hresolved : Resolved c d) (ops : List FileOp) :
    SameOutcome (scanFully h c ops d) (scanIncrementally h c ops d) :=
  (tracks_applyOps hd.housed h ops).sameOutcome hresolved (hd.anchored.applyOps h ops)

/-- Resolution has nothing left to do in a database last resolved under its configuration. -/
theorem IndexedUnder.resolved (hd : IndexedUnder h c d) : Resolved c d := by
  induction hd with
  | full ops _ => exact resolved_run c _
  | incremental ops hd ih =>
    exact (sameOutcome_scan hd.indexed ih ops).resolved (resolved_run c _)

theorem scanIncrementally_resolves (hd : IndexedUnder h c d) (ops : List FileOp) :
    (scanIncrementally h c ops d).edges.rows = (scanFully h c ops d).edges.rows ∧
      (∀ e ∈ (scanFully h c ops d).edges.rows, candidatesOf e.id (scanIncrementally h c ops d) =
        candidatesOf e.id (scanFully h c ops d)) ∧
      (scanIncrementally h c ops d).symbols.rows = (scanFully h c ops d).symbols.rows := by
  have hsame := sameOutcome_scan hd.indexed hd.resolved ops
  exact ⟨by rw [hsame.edges], fun e _ => hsame.candidates e.id, by rw [hsame.symbols]⟩

end Runs

section Example

/-- A Python file of some functions and some calls by name. -/
def pythonFacts (path structHash : String) (functions : List String)
    (calls : List (String × String)) (hpath : path ≠ "") (h : functions.Nodup) : FileFacts where
  relPath := path
  structHash := structHash
  languageId := "PythonParser"
  layer := "Core"
  importsJson := "[]"
  importBindingsJson := "[]"
  identity := ⟨"1", "ast", "\x7b\x7d"⟩
  canonicalSymbols := functions.map fun name => ⟨name, "()", "function", 1, name, none, none, none, none⟩
  occurrences := []
  edges := calls.map fun call => ⟨call.1, call.2, 1, .name⟩
  patterns := []
  named := hpath
  canonical := by simpa [List.map_map, Function.comp_def] using h
  indexed := List.nodup_nil

def plainHashes : Hashes := ⟨fun _ segment => segment, id⟩

theorem main_named : "app/main.py" ≠ "" := by decide

theorem work_named : "lib/work.py" ≠ "" := by decide

def callerFacts : FileFacts :=
  pythonFacts "app/main.py" "1" ["main"] [("main", "run")] main_named (List.nodup_singleton _)

def calleeFacts : FileFacts :=
  pythonFacts "lib/work.py" "1" ["run"] [] work_named (List.nodup_singleton _)

/-- A call across two files. -/
def twoFiles : Database :=
  scanFully plainHashes .default [.write callerFacts, .write calleeFacts] .empty

theorem twoFiles_indexed : IndexedUnder plainHashes .default twoFiles :=
  .full [.write callerFacts, .write calleeFacts] .empty

/-- The callee's file is deleted. -/
theorem scanIncrementally_resolves_deleted :
    (scanIncrementally plainHashes .default [.delete "lib/work.py"] twoFiles).edges.rows =
        (scanFully plainHashes .default [.delete "lib/work.py"] twoFiles).edges.rows ∧
      (∀ e ∈ (scanFully plainHashes .default [.delete "lib/work.py"] twoFiles).edges.rows,
        candidatesOf e.id (scanIncrementally plainHashes .default [.delete "lib/work.py"] twoFiles) =
          candidatesOf e.id (scanFully plainHashes .default [.delete "lib/work.py"] twoFiles)) ∧
      (scanIncrementally plainHashes .default [.delete "lib/work.py"] twoFiles).symbols.rows =
        (scanFully plainHashes .default [.delete "lib/work.py"] twoFiles).symbols.rows :=
  scanIncrementally_resolves twoFiles_indexed [.delete "lib/work.py"]

end Example

end RemyCC.Index
