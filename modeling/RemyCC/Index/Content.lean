import RemyCC.Relational.Grouping
import RemyCC.Index.Postprocess

/-!
# Synthesis reads contents only

Every query of synthesis orders its rows by columns, so what it yields depends
on which symbols and patterns there are and not on the order in which they
were written.
-/

namespace RemyCC.Index

open Relational Text

/-- The same symbols and the same patterns, in whatever order. -/
structure SameContent (d d' : Database) : Prop where
  symbols : List.Perm d'.symbols.rows d.symbols.rows
  patterns : List.Perm d'.patterns d.patterns

namespace SameContent

variable {d d' : Database}

theorem refl (d : Database) : SameContent d d := ⟨.refl _, .refl _⟩

theorem of_eq (hsymbols : d'.symbols = d.symbols) (hpatterns : d'.patterns = d.patterns) :
    SameContent d d' :=
  ⟨.of_eq (by rw [hsymbols]), .of_eq hpatterns⟩

section Symbols

instance : Std.TransCmp symbolOrder :=
  inferInstanceAs (Std.TransCmp (compareLex (compareOn SymbolRow.filePath)
    (compareOn SymbolRow.name)))

theorem eq_of_symbolOrder {s t : SymbolRow} (h : symbolOrder s t = .eq) : s.key = t.key := by
  obtain ⟨hfile, hname⟩ := compareLex_eq_eq.mp h
  exact Prod.ext (eq_of_compareOn hfile) (eq_of_compareOn hname)

theorem symbolKeysWhere_eq (h : SameContent d d') (p : SymbolRow → Bool) :
    symbolKeysWhere p d' = symbolKeysWhere p d :=
  map_orderBy_eq_of_perm (fun _ _ hst => eq_of_symbolOrder hst) (h.symbols.filter p)

/-- Symbols of one kind in the order of path and name, which no two of them share. -/
theorem symbolsWhere_eq (h : SameContent d d') (p : SymbolRow → Bool) :
    orderBy symbolOrder (d'.symbols.rows.filter p) =
      orderBy symbolOrder (d.symbols.rows.filter p) := by
  refine orderBy_eq_of_perm (h.symbols.filter p) fun s hs t ht hst => ?_
  exact d'.symbols.eq_of_key (List.mem_filter.mp hs).1 (List.mem_filter.mp ht).1
    (eq_of_symbolOrder hst)

theorem resolveRustImplTarget_eq (h : SameContent d d') (implFile fullType : String) :
    resolveRustImplTarget implFile fullType d' = resolveRustImplTarget implFile fullType d := by
  unfold resolveRustImplTarget
  simp only [h.symbolKeysWhere_eq]

theorem methodShorts_perm (h : SameContent d d') (file lead : String) :
    List.Perm (methodShorts file lead d') (methodShorts file lead d) :=
  (h.symbols.filter _).map _

theorem methodsByLine_eq (h : SameContent d d') (file lead : String) :
    methodsByLine file lead d' = methodsByLine file lead d := by
  refine orderBy_eq_of_perm (h.symbols.filter _) fun s hs t ht hst => ?_
  obtain ⟨hs, hmethod⟩ := List.mem_filter.mp hs
  obtain ⟨ht, hmethod'⟩ := List.mem_filter.mp ht
  simp only [isMethodOf, Bool.and_eq_true, beq_iff_eq] at hmethod hmethod'
  refine d'.symbols.eq_of_key hs ht (Prod.ext (hmethod.1.1.trans hmethod'.1.1.symm) ?_)
  exact eq_of_compareOn (compareLex_eq_eq.mp hst).2

theorem walkMethods_congr {cap : Nat} {edge : SymbolRow → InferredEdge}
    {implemented implemented' : List String} (h : List.Perm implemented' implemented)
    (methods : List SymbolRow) (added : Nat) (out : List InferredEdge) :
    walkMethods cap edge implemented' added methods out =
      walkMethods cap edge implemented added methods out := by
  have hcontains : ∀ x : String, implemented'.contains x = implemented.contains x := fun x => by
    rw [Bool.eq_iff_iff, List.contains_iff_mem, List.contains_iff_mem, h.mem_iff]
  induction methods generalizing added out with
  | nil => rfl
  | cons m methods ih =>
    unfold walkMethods
    rw [hcontains]
    split
    · rfl
    · split
      · split
        · exact ih _ _
        · exact ih _ _
      · exact ih _ _

theorem overrideEdges_eq (h : SameContent d d') (via : String) (cap : Nat)
    (implPath implType : String) (bases : List (String × String)) (out : List InferredEdge) :
    overrideEdges via cap d' implPath implType bases out =
      overrideEdges via cap d implPath implType bases out := by
  have hperm := h.methodShorts_perm implPath implType
  have hnil : methodShorts implPath implType d' = [] ↔ methodShorts implPath implType d = [] :=
    ⟨fun heq => (heq ▸ hperm).symm.eq_nil, fun heq => (heq ▸ hperm).eq_nil⟩
  unfold overrideEdges
  simp only [hnil, h.methodsByLine_eq, walkMethods_congr hperm]

theorem interfaceOverride_eq (h : SameContent d d') (cap : Nat) :
    synthesizeInterfaceOverrideEdges cap d' = synthesizeInterfaceOverrideEdges cap d := by
  unfold synthesizeInterfaceOverrideEdges
  simp only [h.symbolsWhere_eq, h.overrideEdges_eq, h.symbolKeysWhere_eq]

theorem resolveSymbol_eq (h : SameContent d d') (name : String) (prefer : Option String) :
    resolveSymbol name prefer d' = resolveSymbol name prefer d := by
  unfold resolveSymbol
  simp only [h.symbolKeysWhere_eq]

end Symbols

section Patterns

theorem patternsOf_perm (h : SameContent d d') (patternType : String) :
    List.Perm (patternsOf patternType d') (patternsOf patternType d) :=
  h.patterns.filter _

theorem filterMap_orderBy_eq {β : Type} {cmp : PatternRow → PatternRow → Ordering}
    [Std.TransCmp cmp] {f : PatternRow → Option β} (hf : ∀ p q, cmp p q = .eq → f p = f q)
    {rows rows' : List PatternRow} (h : List.Perm rows rows') :
    (orderBy cmp rows).filterMap f = (orderBy cmp rows').filterMap f := by
  have hmap := map_orderBy_eq_of_perm hf h
  have hid : ∀ rows : List PatternRow, rows.filterMap f = (rows.map f).filterMap id := fun rows => by
    rw [List.filterMap_map]
    rfl
  rw [hid, hmap, ← hid]

/-- A fold that reads no more of the rows than a view of them. -/
theorem foldl_eq_of_view {β : Type} (view : PatternRow → PatternRow) {step : β → PatternRow → β}
    (hstep : ∀ out p, step out (view p) = step out p) {rows rows' : List PatternRow} {out : β}
    (hrows : rows'.map view = rows.map view) : rows'.foldl step out = rows.foldl step out := by
  have hfold (l : List PatternRow) : (l.map view).foldl step out = l.foldl step out := by
    rw [List.foldl_map]
    simp only [hstep]
  rw [← hfold, hrows, hfold]

theorem traitImpls_eq (h : SameContent d d') : traitImpls d' = traitImpls d := by
  refine filterMap_orderBy_eq (fun p q hpq => ?_) (h.patternsOf_perm _)
  simp only [compareLex_eq_eq] at hpq
  obtain ⟨hfile, -, hsignal, hhandler⟩ := hpq
  unfold traitImplOf
  rw [eq_of_compareOn hfile, eq_of_compareOn hsignal, eq_of_compareOn hhandler]

theorem derivedBases_eq (h : SameContent d d') (s : SymbolRow) :
    derivedBases d' s = derivedBases d s := by
  unfold derivedBases traitsOf
  simp only [h.traitImpls_eq, h.resolveRustImplTarget_eq]

theorem rustTraitImpl_eq (h : SameContent d d') (cap : Nat) :
    synthesizeRustTraitImplEdges cap d' = synthesizeRustTraitImplEdges cap d := by
  unfold synthesizeRustTraitImplEdges
  simp only [h.traitImpls_eq, h.overrideEdges_eq, h.symbolKeysWhere_eq]

theorem overwriteRustTraitBases (h : SameContent d d') :
    SameContent (overwriteRustTraitBases d) (overwriteRustTraitBases d') := by
  refine ⟨?_, h.patterns⟩
  unfold Index.overwriteRustTraitBases
  rw [Keyed.update_rows, Keyed.update_rows]
  simp only [h.derivedBases_eq]
  exact h.symbols.map _

end Patterns

section Signals

/-- What an emission reads of the emitter. -/
def emitterView (p : PatternRow) : PatternRow :=
  ⟨p.filePath, "", p.signalName, p.handler, some (lineOf p), none⟩

theorem handlersOf_eq (h : SameContent d d') (connectType signal : String) :
    handlersOf connectType signal d' = handlersOf connectType signal d := by
  refine map_orderBy_eq_of_perm (fun p q hpq => ?_) ((h.patternsOf_perm _).filter _)
  simp only [compareLex_eq_eq] at hpq
  rw [eq_of_compareOn hpq.2.1, eq_of_compareOn hpq.2.2]

theorem emittersOf_view (h : SameContent d d') (emitType : String) :
    (emittersOf emitType d').map emitterView = (emittersOf emitType d).map emitterView := by
  refine map_orderBy_eq_of_perm (fun p q hpq => ?_) (h.patternsOf_perm _)
  simp only [compareLex_eq_eq] at hpq
  obtain ⟨hline, hfile, hsignal, hhandler⟩ := hpq
  have hline := eq_of_compareOn hline
  unfold emitterView
  rw [hline, eq_of_compareOn hfile, eq_of_compareOn hsignal, eq_of_compareOn hhandler]

theorem signalPattern_eq (h : SameContent d d') (emitType connectType via : String) (cap : Nat) :
    synthesizeSignalPattern emitType connectType via cap d' =
      synthesizeSignalPattern emitType connectType via cap d := by
  unfold synthesizeSignalPattern
  simp only [h.handlersOf_eq]
  exact foldl_eq_of_view emitterView (fun _ _ => rfl) (h.emittersOf_view emitType)

end Signals

section FunctionPointers

theorem fnptrTypedefs_contains (h : SameContent d d') (type : String) :
    (fnptrTypedefs d').contains type = (fnptrTypedefs d).contains type := by
  have hperm : List.Perm (fnptrTypedefs d') (fnptrTypedefs d) := (h.patternsOf_perm _).filterMap _
  rw [Bool.eq_iff_iff, List.contains_iff_mem, List.contains_iff_mem, hperm.mem_iff]

theorem structLayouts_eq (h : SameContent d d') : structLayouts d' = structLayouts d := by
  unfold structLayouts
  congr 1
  refine filterMap_orderBy_eq (fun p q hpq => ?_) (h.patternsOf_perm _)
  obtain ⟨hsignal, hmetadata⟩ := compareLex_eq_eq.mp hpq
  unfold layoutFields
  rw [eq_of_compareOn hsignal, eq_of_compareOn hmetadata]

theorem fieldFnptr_eq (h : SameContent d d') (field : Json.Value) :
    fieldFnptr d' field = fieldFnptr d field := by
  unfold fieldFnptr
  simp only [h.fnptrTypedefs_contains]

theorem fieldOwners_eq (h : SameContent d d') (field : String) :
    fieldOwners field d' = fieldOwners field d := by
  unfold fieldOwners
  simp only [h.structLayouts_eq, h.fieldFnptr_eq]

theorem registrationOf_eq (h : SameContent d d') (p : PatternRow) :
    registrationOf d' p = registrationOf d p := by
  unfold registrationOf resolveRegField layoutsOf
  simp only [h.structLayouts_eq, h.fieldFnptr_eq]

theorem registeredHandlers_eq (h : SameContent d d') (structName field : String) :
    registeredHandlers structName field d' = registeredHandlers structName field d := by
  refine sortedSet_eq_of_perm (List.Perm.map _ (List.Perm.filter _ ?_))
  unfold registrations
  rw [show registrationOf d' = registrationOf d from funext h.registrationOf_eq]
  exact (h.patternsOf_perm _).filterMap _

/-- What a dispatch through a function pointer reads of its pattern. -/
def dispatchView (p : PatternRow) : PatternRow :=
  ⟨p.filePath, "", p.signalName, p.handler, some (lineOf p), p.metadata⟩

theorem dispatches_view (h : SameContent d d') :
    (dispatches d').map dispatchView = (dispatches d).map dispatchView := by
  refine map_orderBy_eq_of_perm (fun p q hpq => ?_) (h.patternsOf_perm _)
  simp only [compareLex_eq_eq] at hpq
  obtain ⟨hline, hfile, hsignal, hhandler, hmetadata⟩ := hpq
  have hline := eq_of_compareOn hline
  unfold dispatchView
  rw [hline, eq_of_compareOn hfile, eq_of_compareOn hsignal, eq_of_compareOn hhandler,
    eq_of_compareOn hmetadata]

theorem dispatchEdges_eq (h : SameContent d d') (dispatch : PatternRow)
    (out : List InferredEdge) : dispatchEdges d' dispatch out = dispatchEdges d dispatch out := by
  unfold dispatchEdges
  simp only [h.fieldOwners_eq, h.resolveSymbol_eq, h.registeredHandlers_eq]

theorem walkHandlers_view (resolve : String → Option (String × String)) (p : PatternRow)
    (caller : String × String) (handlers : List String) (added : Nat) (out : List InferredEdge) :
    walkHandlers resolve (dispatchView p) caller added handlers out =
      walkHandlers resolve p caller added handlers out := by
  induction handlers generalizing added out with
  | nil => rfl
  | cons handler handlers ih =>
    unfold walkHandlers
    simp only [ih]
    rfl

theorem dispatchEdges_dispatchView (d : Database) (p : PatternRow) (out : List InferredEdge) :
    dispatchEdges d (dispatchView p) out = dispatchEdges d p out := by
  unfold dispatchEdges
  simp only [walkHandlers_view]
  rfl

theorem dispatch_eq (h : SameContent d d') :
    synthesizeCFnptrDispatchEdges d' = synthesizeCFnptrDispatchEdges d := by
  unfold synthesizeCFnptrDispatchEdges
  simp only [h.dispatchEdges_eq]
  exact foldl_eq_of_view dispatchView (fun out p => dispatchEdges_dispatchView d p out)
    h.dispatches_view

end FunctionPointers

end SameContent

section Insertion

/-- An edge without the number it is stored under. -/
def EdgeRow.unnumbered (e : EdgeRow) : EdgeRow := { e with id := 0 }

/-- The inferred edges in the order they were inserted in, without their numbers. -/
def inferredEdges (d : Database) : List EdgeRow :=
  (d.edges.rows.filter fun e => !e.direct).map EdgeRow.unnumbered

/-- The same contents, and the same inferred edges so far. -/
structure SameSynthesis (d d' : Database) : Prop where
  content : SameContent d d'
  inferred : inferredEdges d' = inferredEdges d

variable {d d' : Database}

theorem any_clashes (e : InferredEdge) (d : Database) :
    d.edges.rows.any e.clashes = (inferredEdges d).any e.clashes := by
  unfold inferredEdges
  rw [List.any_map, List.any_filter]
  refine congrArg (List.any d.edges.rows) (funext fun x => ?_)
  unfold InferredEdge.clashes
  cases hx : x.direct with
  | true => rfl
  | false =>
    have hdirect : x.unnumbered.direct = false := hx
    rw [Function.comp_apply, hdirect]
    rfl

theorem SameSynthesis.insertInferred (h : SameSynthesis d d') (e : InferredEdge) :
    SameSynthesis (insertInferred d e) (insertInferred d' e) := by
  have hclash : d'.edges.rows.any e.clashes = d.edges.rows.any e.clashes := by
    rw [any_clashes, any_clashes, h.inferred]
  have hinsert : ∀ d : Database, inferredEdges { d with edges := d.edges.insert e.row e.row_id } =
      inferredEdges d ++ [(e.row 0)] := fun d => by
    unfold inferredEdges
    rw [Numbered.insert_rows, List.filter_append, List.map_append]
    rfl
  unfold Index.insertInferred
  rw [hclash]
  split
  · exact h
  · exact ⟨⟨h.content.symbols, h.content.patterns⟩, by rw [hinsert, hinsert, h.inferred]⟩

theorem SameSynthesis.insertAll (h : SameSynthesis d d') (edges : List InferredEdge) :
    SameSynthesis (insertAll edges d) (insertAll edges d') := by
  induction edges generalizing d d' with
  | nil => exact h
  | cons e edges ih => exact ih (h.insertInferred e)

theorem SameSynthesis.synthesize (h : SameSynthesis d d') {synth : Database → List InferredEdge}
    (hsynth : ∀ {d d' : Database}, SameContent d d' → synth d' = synth d) :
    SameSynthesis (Index.insertAll (synth d) d) (Index.insertAll (synth d') d') := by
  rw [hsynth h.content]
  exact h.insertAll _

theorem SameSynthesis.runAllSynthesizers (h : SameSynthesis d d') (c : PostprocessConfig) :
    SameSynthesis (runAllSynthesizers c d) (runAllSynthesizers c d') := by
  unfold Index.runAllSynthesizers
  have h₁ := h.synthesize (fun h => h.signalPattern_eq "django_signal_send"
    "django_signal_connect" "django-signal" c.synthEventFanoutCap)
  have h₂ := h₁.synthesize (fun h => h.signalPattern_eq "pyqt_signal_emit" "pyqt_signal_connect"
    "pyqt-signal" c.synthEventFanoutCap)
  have h₃ := h₂.synthesize (fun h => h.signalPattern_eq "observer_emit" "observer_register"
    "observer" c.synthEventFanoutCap)
  have h₄ := h₃.synthesize fun h => h.interfaceOverride_eq c.synthInterfaceFanoutCap
  have h₅ := h₄.synthesize fun h => h.dispatch_eq
  exact h₅.synthesize fun h => h.rustTraitImpl_eq c.synthInterfaceFanoutCap

theorem inferredEdges_purge (d : Database) : inferredEdges (purgeHeuristicEdges d) = [] := by
  unfold inferredEdges purgeHeuristicEdges
  rw [Numbered.deleteWhere_rows, List.filter_filter]
  have hnone : d.edges.rows.filter (fun e => !e.direct && !!e.direct) = [] :=
    List.filter_eq_nil_iff.mpr fun e _ h => by simp at h
  rw [hnone]
  rfl

/-- Synthesis infers the same edges from the same contents. -/
theorem SameContent.resynthesize (h : SameContent d d') (c : PostprocessConfig) :
    SameSynthesis (resynthesize c d) (resynthesize c d') := by
  have hpurge : SameContent (purgeHeuristicEdges d) (purgeHeuristicEdges d') :=
    ⟨h.symbols, h.patterns⟩
  have hstart : SameSynthesis (Index.overwriteRustTraitBases (purgeHeuristicEdges d))
      (Index.overwriteRustTraitBases (purgeHeuristicEdges d')) :=
    ⟨hpurge.overwriteRustTraitBases,
      (inferredEdges_purge d').trans (inferredEdges_purge d).symm⟩
  exact hstart.runAllSynthesizers c

theorem inferredSnapshot_eq (d : Database) :
    inferredSnapshot d = (inferredEdges d).map snapshotKey := by
  unfold inferredSnapshot inferredEdges
  rw [List.map_map]
  rfl

end Insertion

end RemyCC.Index
