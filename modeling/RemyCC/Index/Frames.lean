import RemyCC.Index.Settle

/-!
# What the later passes leave alone

Synthesis reads symbols and patterns and adds inferred edges; kinds change a
column of the files; clusters have tables of their own. None of them changes a
direct edge, a candidate or a column that resolution reads.
-/

namespace RemyCC.Index

open Relational

section Facts

/-- The tables that the passes before file kinds read or change. -/
structure SameFacts (d d' : Database) : Prop where
  files : d'.files = d.files
  symbols : d'.symbols = d.symbols
  patterns : d'.patterns = d.patterns
  edges : d'.edges = d.edges

variable {d d' : Database}

theorem SameFacts.refl (d : Database) : SameFacts d d := ⟨rfl, rfl, rfl, rfl⟩

theorem SameFacts.insertInferred (h : SameFacts d d') (e : InferredEdge) :
    SameFacts (insertInferred d e) (insertInferred d' e) := by
  unfold Index.insertInferred
  rw [h.edges]
  split
  · exact h
  · exact ⟨h.files, h.symbols, h.patterns, rfl⟩

theorem SameFacts.insertAll (h : SameFacts d d') (edges : List InferredEdge) :
    SameFacts (insertAll edges d) (insertAll edges d') := by
  induction edges generalizing d d' with
  | nil => exact h
  | cons e edges ih => exact ih (h.insertInferred e)

/-- A synthesizer that reads no more than the facts adds the same edges. -/
theorem SameFacts.synthesize (h : SameFacts d d') (synth : Database → List InferredEdge)
    (hsynth : ∀ d d' : Database, d'.symbols = d.symbols → d'.patterns = d.patterns →
      synth d' = synth d) :
    SameFacts (Index.insertAll (synth d) d) (Index.insertAll (synth d') d') := by
  rw [hsynth d d' h.symbols h.patterns]
  exact h.insertAll _

theorem of_same_inputs {α : Type} (f : Keyed SymbolRow.key → List PatternRow → α)
    {g : Database → α} (hg : ∀ d, g d = f d.symbols d.patterns) {d d' : Database}
    (hsymbols : d'.symbols = d.symbols) (hpatterns : d'.patterns = d.patterns) : g d' = g d := by
  rw [hg, hg, hsymbols, hpatterns]

/-- A database with given symbols and patterns and nothing else. -/
def factsOnly (symbols : Keyed SymbolRow.key) (patterns : List PatternRow) : Database :=
  { Database.empty with symbols := symbols, patterns := patterns }

theorem SameFacts.runAllSynthesizers (h : SameFacts d d') (c : PostprocessConfig) :
    SameFacts (runAllSynthesizers c d) (runAllSynthesizers c d') := by
  have hsignal : ∀ (emit connect via : String) (cap : Nat) (d d' : Database),
      d'.symbols = d.symbols → d'.patterns = d.patterns →
        synthesizeSignalPattern emit connect via cap d' =
          synthesizeSignalPattern emit connect via cap d := fun emit connect via cap _ _ =>
    of_same_inputs (fun s p => synthesizeSignalPattern emit connect via cap (factsOnly s p))
      fun _ => rfl
  have hoverride : ∀ (cap : Nat) (d d' : Database), d'.symbols = d.symbols →
      d'.patterns = d.patterns →
        synthesizeInterfaceOverrideEdges cap d' = synthesizeInterfaceOverrideEdges cap d :=
    fun cap _ _ => of_same_inputs
      (fun s p => synthesizeInterfaceOverrideEdges cap (factsOnly s p)) fun _ => rfl
  have htrait : ∀ (cap : Nat) (d d' : Database), d'.symbols = d.symbols →
      d'.patterns = d.patterns →
        synthesizeRustTraitImplEdges cap d' = synthesizeRustTraitImplEdges cap d :=
    fun cap _ _ => of_same_inputs
      (fun s p => synthesizeRustTraitImplEdges cap (factsOnly s p)) fun _ => rfl
  have hdispatch : ∀ d d' : Database, d'.symbols = d.symbols → d'.patterns = d.patterns →
      synthesizeCFnptrDispatchEdges d' = synthesizeCFnptrDispatchEdges d :=
    fun _ _ => of_same_inputs (g := synthesizeCFnptrDispatchEdges)
      (fun s p => synthesizeCFnptrDispatchEdges (factsOnly s p)) fun _ => rfl
  unfold Index.runAllSynthesizers
  have h₁ := h.synthesize _ (hsignal "django_signal_send" "django_signal_connect"
    "django-signal" c.synthEventFanoutCap)
  have h₂ := h₁.synthesize _ (hsignal "pyqt_signal_emit" "pyqt_signal_connect" "pyqt-signal"
    c.synthEventFanoutCap)
  have h₃ := h₂.synthesize _ (hsignal "observer_emit" "observer_register" "observer"
    c.synthEventFanoutCap)
  have h₄ := h₃.synthesize _ (hoverride c.synthInterfaceFanoutCap)
  have h₅ := h₄.synthesize _ hdispatch
  exact h₅.synthesize _ (htrait c.synthInterfaceFanoutCap)

theorem SameFacts.overwriteRustTraitBases (h : SameFacts d d') :
    SameFacts (overwriteRustTraitBases d) (overwriteRustTraitBases d') where
  files := h.files
  symbols := by
    obtain ⟨_, symbols, _, _, _, patterns, _, _⟩ := d
    obtain ⟨_, symbols', _, _, _, patterns', _, _⟩ := d'
    cases h.symbols
    cases h.patterns
    rfl
  patterns := h.patterns
  edges := h.edges

theorem SameFacts.resynthesize (h : SameFacts d d') (c : PostprocessConfig) :
    SameFacts (resynthesize c d) (resynthesize c d') := by
  have hpurge : SameFacts (purgeHeuristicEdges d) (purgeHeuristicEdges d') :=
    ⟨h.files, h.symbols, h.patterns, by simp only [purgeHeuristicEdges, h.edges]⟩
  exact hpurge.overwriteRustTraitBases.runAllSynthesizers c

end Facts

section Resynthesis

/-- Resynthesis adds and removes inferred edges and changes bases. -/
structure SameButInferred (d d' : Database) : Prop where
  files : d'.files = d.files
  occurrences : d'.occurrences = d.occurrences
  candidates : d'.candidates = d.candidates
  patterns : d'.patterns = d.patterns
  clusters : d'.clusters = d.clusters
  members : d'.members = d.members
  names : d'.symbols.rows.map nameKey = d.symbols.rows.map nameKey
  direct : d'.edges.rows.filter EdgeRow.direct = d.edges.rows.filter EdgeRow.direct

theorem SameButInferred.refl (d : Database) : SameButInferred d d :=
  ⟨rfl, rfl, rfl, rfl, rfl, rfl, rfl, rfl⟩

theorem SameButInferred.trans {d d' d'' : Database} (h : SameButInferred d d')
    (h' : SameButInferred d' d'') : SameButInferred d d'' where
  files := h'.files.trans h.files
  occurrences := h'.occurrences.trans h.occurrences
  candidates := h'.candidates.trans h.candidates
  patterns := h'.patterns.trans h.patterns
  clusters := h'.clusters.trans h.clusters
  members := h'.members.trans h.members
  names := h'.names.trans h.names
  direct := h'.direct.trans h.direct

theorem insertInferred_same (d : Database) (e : InferredEdge) :
    SameButInferred d (insertInferred d e) := by
  unfold insertInferred
  split
  · exact .refl d
  · refine ⟨rfl, rfl, rfl, rfl, rfl, rfl, rfl, ?_⟩
    rw [Numbered.insert_rows, List.filter_append]
    exact List.append_nil _

theorem insertAll_same (edges : List InferredEdge) (d : Database) :
    SameButInferred d (insertAll edges d) := by
  induction edges generalizing d with
  | nil => exact .refl d
  | cons e edges ih => exact (insertInferred_same d e).trans (ih _)

theorem runAllSynthesizers_same (c : PostprocessConfig) (d : Database) :
    SameButInferred d (runAllSynthesizers c d) := by
  unfold runAllSynthesizers
  exact (((((insertAll_same _ d).trans (insertAll_same _ _)).trans (insertAll_same _ _)).trans
    (insertAll_same _ _)).trans (insertAll_same _ _)).trans (insertAll_same _ _)

theorem overwriteRustTraitBases_same (d : Database) :
    SameButInferred d (overwriteRustTraitBases d) := by
  refine ⟨rfl, rfl, rfl, rfl, rfl, rfl, ?_, rfl⟩
  unfold overwriteRustTraitBases
  rw [Keyed.update_rows, List.map_map]
  refine List.map_congr_left fun s _ => ?_
  rw [Function.comp_apply]
  split <;> rfl

theorem purgeHeuristicEdges_same (d : Database) : SameButInferred d (purgeHeuristicEdges d) := by
  refine ⟨rfl, rfl, rfl, rfl, rfl, rfl, rfl, ?_⟩
  unfold purgeHeuristicEdges
  rw [Numbered.deleteWhere_rows, List.filter_filter]
  refine List.filter_congr fun e _ => ?_
  cases e.direct <;> rfl

theorem resynthesize_same (c : PostprocessConfig) (d : Database) :
    SameButInferred d (resynthesize c d) :=
  ((purgeHeuristicEdges_same d).trans (overwriteRustTraitBases_same _)).trans
    (runAllSynthesizers_same c _)

end Resynthesis

section Views

/-- File kinds and clusters leave every fact as it is but the kind of a file. -/
structure SameButViews (d d' : Database) : Prop where
  files : d'.files.rows.map fileKey = d.files.rows.map fileKey
  symbols : d'.symbols = d.symbols
  occurrences : d'.occurrences = d.occurrences
  edges : d'.edges = d.edges
  candidates : d'.candidates = d.candidates
  patterns : d'.patterns = d.patterns

theorem SameButViews.refl (d : Database) : SameButViews d d := ⟨rfl, rfl, rfl, rfl, rfl, rfl⟩

theorem SameButViews.trans {d d' d'' : Database} (h : SameButViews d d')
    (h' : SameButViews d' d'') : SameButViews d d'' where
  files := h'.files.trans h.files
  symbols := h'.symbols.trans h.symbols
  occurrences := h'.occurrences.trans h.occurrences
  edges := h'.edges.trans h.edges
  candidates := h'.candidates.trans h.candidates
  patterns := h'.patterns.trans h.patterns

theorem computeFileKindsFor_same (c : PostprocessConfig) (paths : List String) (d : Database) :
    SameButViews d (computeFileKindsFor c paths d) := by
  refine ⟨?_, rfl, rfl, rfl, rfl, rfl⟩
  unfold computeFileKindsFor
  rw [Keyed.update_rows, List.map_map]
  refine List.map_congr_left fun r _ => ?_
  rw [Function.comp_apply]
  split <;> rfl

theorem insertClusters_same (clusters : List NewCluster) (d : Database) :
    SameButViews d (clusters.foldl insertCluster d) ∧
      (clusters.foldl insertCluster d).files = d.files := by
  induction clusters generalizing d with
  | nil => exact ⟨.refl d, rfl⟩
  | cons k clusters ih =>
    have hstep : SameButViews d (insertCluster d k) := ⟨rfl, rfl, rfl, rfl, rfl, rfl⟩
    exact ⟨hstep.trans (ih _).1, (ih _).2⟩

theorem detectClustersFor_same (c : PostprocessConfig) (scope : List String) (d : Database) :
    SameButViews d (detectClustersFor c scope d) := by
  have hdrop : SameButViews d (dropClusters scope d) := ⟨rfl, rfl, rfl, rfl, rfl, rfl⟩
  exact hdrop.trans (insertClusters_same _ _).1

theorem detectClustersFor_files (c : PostprocessConfig) (scope : List String) (d : Database) :
    (detectClustersFor c scope d).files = d.files := (insertClusters_same _ (dropClusters scope d)).2

end Views

theorem run_views (c : PostprocessConfig) (d : Database) :
    SameButViews (resynthesize c (resolveCallEdges c (resetDirectEdgeResolution d))) (run c d) := by
  unfold run detectClusters computeFileKinds
  exact (computeFileKindsFor_same c _ _).trans (detectClustersFor_same c _ _)

theorem runIncremental_views (c : PostprocessConfig) (delta : ScanDelta) (d : Database) :
    SameButViews (resynthesize c (resolveTargets c delta d)) (runIncremental c delta d) := by
  unfold runIncremental
  exact (computeFileKindsFor_same c _ _).trans (detectClustersFor_same c _ _)

end RemyCC.Index
