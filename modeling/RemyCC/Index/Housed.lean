import RemyCC.Index.Frames
import RemyCC.Index.Scan

/-!
# Facts belong to files

Every symbol, every edge and every pattern of a scanned index is of a file that
the index has, so deleting a file that it does not have changes nothing.
Synthesis keeps this because each synthesized edge starts in the file of a
symbol or of a pattern.
-/

namespace RemyCC.Index

open Relational

structure Housed (d : Database) : Prop where
  symbols : ∀ s ∈ d.symbols.rows, d.hasFile s.filePath = true
  edges : ∀ e ∈ d.edges.rows, d.hasFile e.sourceFile = true
  patterns : ∀ p ∈ d.patterns, d.hasFile p.filePath = true

theorem hasFile_iff {d : Database} {path : String} :
    d.hasFile path = true ↔ ∃ r ∈ d.files.rows, r.path = path := by
  simp [Database.hasFile, Database.file?, List.find?_isSome]

section Sources

/-- A synthesized edge starts in the file of a symbol or of a pattern. -/
def StartsInFacts (d : Database) (e : InferredEdge) : Prop :=
  (∃ s ∈ d.symbols.rows, s.filePath = e.sourceFile) ∨ ∃ p ∈ d.patterns, p.filePath = e.sourceFile

def AllStart (d : Database) (out : List InferredEdge) : Prop := ∀ e ∈ out, StartsInFacts d e

variable {d : Database}

theorem allStart_nil : AllStart d [] := fun _ he => absurd he List.not_mem_nil

theorem AllStart.emit {e : InferredEdge} {out out' : List InferredEdge} (hout : AllStart d out)
    (he : StartsInFacts d e) (h : emitUnseen e out = some out') : AllStart d out' := by
  unfold emitUnseen at h
  split at h
  · cases h
  · cases h
    intro f hf
    rcases List.mem_append.mp hf with hf | hf
    · exact hout f hf
    · rw [List.mem_singleton.mp hf]
      exact he

theorem AllStart.foldl {α : Type} {step : List InferredEdge → α → List InferredEdge}
    {items : List α} (hstep : ∀ out, AllStart d out → ∀ a ∈ items, AllStart d (step out a))
    {out : List InferredEdge} (hout : AllStart d out) : AllStart d (items.foldl step out) := by
  induction items generalizing out with
  | nil => exact hout
  | cons a items ih =>
    exact ih (fun out hout b hb => hstep out hout b (List.mem_cons_of_mem _ hb))
      (hstep out hout a List.mem_cons_self)

theorem AllStart.walkMethods {cap : Nat} {edge : SymbolRow → InferredEdge}
    {implemented : List String} {methods : List SymbolRow}
    (hedge : ∀ m ∈ methods, StartsInFacts d (edge m)) {added : Nat} {out : List InferredEdge}
    (hout : AllStart d out) : AllStart d (walkMethods cap edge implemented added methods out) := by
  induction methods generalizing added out with
  | nil => exact hout
  | cons m methods ih =>
    have htail := fun n hn => hedge n (List.mem_cons_of_mem _ hn)
    unfold Index.walkMethods
    split
    · exact hout
    · split
      · split
        · rename_i heq
          exact ih htail (hout.emit (hedge m List.mem_cons_self) heq)
        · exact ih htail hout
      · exact ih htail hout

theorem mem_methodsByLine {file lead : String} {m : SymbolRow}
    (h : m ∈ methodsByLine file lead d) : m ∈ d.symbols.rows ∧ m.filePath = file := by
  obtain ⟨hmem, hmethod⟩ := List.mem_filter.mp (mem_orderBy.mp h)
  simp only [isMethodOf, Bool.and_eq_true, beq_iff_eq] at hmethod
  exact ⟨hmem, hmethod.1.1⟩

theorem AllStart.overrideEdges {via implPath implType : String} {cap : Nat}
    {bases : List (String × String)} {out : List InferredEdge} (hout : AllStart d out) :
    AllStart d (overrideEdges via cap d implPath implType bases out) := by
  unfold Index.overrideEdges
  dsimp only
  split
  · exact hout
  · refine hout.foldl fun out hout base _ => hout.walkMethods fun m hm => ?_
    obtain ⟨hmem, hfile⟩ := mem_methodsByLine hm
    exact Or.inl ⟨m, hmem, hfile⟩

theorem interfaceOverride_starts (cap : Nat) :
    AllStart d (synthesizeInterfaceOverrideEdges cap d) :=
  allStart_nil.foldl fun _ hout _ _ => hout.foldl fun _ hout _ _ => hout.overrideEdges

theorem rustTraitImpl_starts (cap : Nat) : AllStart d (synthesizeRustTraitImplEdges cap d) :=
  allStart_nil.foldl fun _ hout _ _ => hout.overrideEdges

theorem AllStart.emitterEdges {via func : String} {cap : Nat}
    {targets : List (String × Option String)} {emitter : PatternRow} {out : List InferredEdge}
    (hemitter : emitter ∈ d.patterns) (hout : AllStart d out) :
    AllStart d (emitterEdges via cap targets emitter func out) := by
  unfold Index.emitterEdges
  split
  · exact hout
  · refine hout.foldl fun out hout target _ => ?_
    split
    · split
      · exact hout
      · cases hemit : emitUnseen (signalEdge via emitter func target.1 _) out with
        | none => exact hout
        | some out' => exact hout.emit (Or.inr ⟨emitter, hemitter, rfl⟩) hemit
    · exact hout

theorem signalPattern_starts (emitType connectType via : String) (cap : Nat) :
    AllStart d (synthesizeSignalPattern emitType connectType via cap d) := by
  refine allStart_nil.foldl fun out hout emitter hemitter => ?_
  have hmem : emitter ∈ d.patterns :=
    (List.mem_filter.mp (mem_orderBy.mp hemitter)).1
  split
  · exact hout.emitterEdges hmem
  · exact hout

theorem resolveSymbol_mem {name : String} {prefer : Option String} {s : String × String}
    (h : resolveSymbol name prefer d = some s) : ∃ t ∈ d.symbols.rows, t.filePath = s.1 := by
  have hfound : s ∈ symbolKeysWhere
      (fun s => s.bears name && (s.type == "function" || s.type == "macro")) d := by
    unfold resolveSymbol at h
    dsimp only at h
    split at h
    · rename_i t heq
      cases h
      obtain ⟨file, -, hfile⟩ := Option.bind_eq_some_iff.mp heq
      exact List.mem_of_find?_eq_some hfile
    · exact List.mem_of_mem_head? h
  obtain ⟨t, ht, rfl⟩ := List.mem_map.mp hfound
  exact ⟨t, (List.mem_filter.mp (mem_orderBy.mp ht)).1, rfl⟩

theorem AllStart.walkHandlers {resolve : String → Option (String × String)}
    {dispatch : PatternRow} {caller : String × String}
    (hcaller : ∃ s ∈ d.symbols.rows, s.filePath = caller.1) {handlers : List String} {added : Nat}
    {out : List InferredEdge} (hout : AllStart d out) :
    AllStart d (walkHandlers resolve dispatch caller added handlers out) := by
  induction handlers generalizing added out with
  | nil => exact hout
  | cons handler handlers ih =>
    unfold Index.walkHandlers
    split
    · exact hout
    · split
      · exact ih hout
      · split
        · exact ih hout
        · split
          · rename_i heq
            exact ih (hout.emit (Or.inl hcaller) heq)
          · exact ih hout

theorem dispatch_starts : AllStart d (synthesizeCFnptrDispatchEdges d) := by
  refine allStart_nil.foldl fun out hout dispatch _ => ?_
  unfold dispatchEdges
  split
  · split
    · split
      · rename_i heq
        exact hout.walkHandlers (resolveSymbol_mem heq)
      · exact hout
    · exact hout
  · exact hout

end Sources

section Passes

variable {d : Database}

theorem StartsInFacts.housed {e : InferredEdge} (hd : Housed d) (h : StartsInFacts d e) :
    d.hasFile e.sourceFile = true := by
  rcases h with ⟨s, hs, hfile⟩ | ⟨p, hp, hfile⟩
  · rw [← hfile]
    exact hd.symbols s hs
  · rw [← hfile]
    exact hd.patterns p hp

theorem Housed.insertInferred {e : InferredEdge} (hd : Housed d)
    (he : d.hasFile e.sourceFile = true) : Housed (insertInferred d e) := by
  unfold Index.insertInferred
  split
  · exact hd
  · refine ⟨hd.symbols, fun x hx => ?_, hd.patterns⟩
    rcases List.mem_append.mp hx with hx | hx
    · exact hd.edges x hx
    · rw [List.mem_singleton.mp hx]
      exact he

theorem insertInferred_hasFile (e : InferredEdge) (path : String) :
    (insertInferred d e).hasFile path = d.hasFile path := by
  unfold Database.hasFile Database.file?
  rw [(insertInferred_same d e).files]

theorem Housed.insertAll {edges : List InferredEdge} (hd : Housed d)
    (hedges : ∀ e ∈ edges, d.hasFile e.sourceFile = true) : Housed (insertAll edges d) := by
  induction edges generalizing d with
  | nil => exact hd
  | cons e edges ih =>
    refine ih (hd.insertInferred (hedges e List.mem_cons_self)) fun x hx => ?_
    rw [insertInferred_hasFile]
    exact hedges x (List.mem_cons_of_mem _ hx)

theorem Housed.synthesize {edges : List InferredEdge} (hd : Housed d) (h : AllStart d edges) :
    Housed (Index.insertAll edges d) :=
  hd.insertAll fun e he => (h e he).housed hd

theorem Housed.runAllSynthesizers (hd : Housed d) (c : PostprocessConfig) :
    Housed (runAllSynthesizers c d) := by
  unfold Index.runAllSynthesizers
  have h₁ := hd.synthesize (signalPattern_starts "django_signal_send" "django_signal_connect"
    "django-signal" c.synthEventFanoutCap)
  have h₂ := h₁.synthesize (signalPattern_starts "pyqt_signal_emit" "pyqt_signal_connect"
    "pyqt-signal" c.synthEventFanoutCap)
  have h₃ := h₂.synthesize (signalPattern_starts "observer_emit" "observer_register" "observer"
    c.synthEventFanoutCap)
  have h₄ := h₃.synthesize (interfaceOverride_starts c.synthInterfaceFanoutCap)
  have h₅ := h₄.synthesize dispatch_starts
  exact h₅.synthesize (rustTraitImpl_starts c.synthInterfaceFanoutCap)

theorem Housed.purge (hd : Housed d) : Housed (purgeHeuristicEdges d) :=
  ⟨hd.symbols, fun e he => hd.edges e (List.mem_filter.mp he).1, hd.patterns⟩

theorem Housed.overwrite (hd : Housed d) : Housed (overwriteRustTraitBases d) := by
  refine ⟨fun s hs => ?_, hd.edges, hd.patterns⟩
  obtain ⟨t, ht, rfl⟩ := List.mem_map.mp hs
  have hfile := hd.symbols t ht
  split <;> exact hfile

theorem Housed.resynthesize (hd : Housed d) (c : PostprocessConfig) :
    Housed (resynthesize c d) := hd.purge.overwrite.runAllSynthesizers c

theorem hasFile_of_fileKey {d' : Database}
    (h : d'.files.rows.map fileKey = d.files.rows.map fileKey) (path : String) :
    d'.hasFile path = d.hasFile path := by
  have hfile : (d'.file? path).map fileKey = (d.file? path).map fileKey := by
    rw [map_file?, map_file?, h]
  simpa [Database.hasFile] using congrArg Option.isSome hfile

theorem Housed.views {d' : Database} (hd : Housed d) (h : SameButViews d d') : Housed d' where
  symbols := by
    rw [h.symbols]
    intro s hs
    rw [hasFile_of_fileKey h.files]
    exact hd.symbols s hs
  edges := by
    rw [h.edges]
    intro e he
    rw [hasFile_of_fileKey h.files]
    exact hd.edges e he
  patterns := by
    rw [h.patterns]
    intro p hp
    rw [hasFile_of_fileKey h.files]
    exact hd.patterns p hp

/-- Resolution moves no edge to another file. -/
theorem Housed.resolved {d' : Database} {f : EdgeRow → EdgeRow} (hd : Housed d)
    (h : SameButEdges d d') (hrows : d'.edges.rows = d.edges.rows.map f)
    (hf : ∀ e, (f e).sourceFile = e.sourceFile) : Housed d' := by
  have hfile : ∀ path, d'.hasFile path = d.hasFile path := by
    intro path
    unfold Database.hasFile Database.file?
    rw [h.files]
  refine ⟨?_, ?_, ?_⟩
  · rw [h.symbols]
    exact fun s hs => (hfile _).trans (hd.symbols s hs)
  · rw [hrows]
    intro e he
    obtain ⟨x, hx, rfl⟩ := List.mem_map.mp he
    rw [hfile, hf]
    exact hd.edges x hx
  · rw [h.patterns]
    exact fun p hp => (hfile _).trans (hd.patterns p hp)

@[simp]
theorem settled_sourceFile (c : PostprocessConfig) (d : Database) (e : EdgeRow) :
    (settled c d e).sourceFile = e.sourceFile := by
  unfold settled
  cases resolveEdge c (deriveImportBindings d) d e <;> rfl

theorem Housed.run (hd : Housed d) (c : PostprocessConfig) : Housed (run c d) := by
  refine Housed.views (Housed.resynthesize ?_ c) (run_views c d)
  refine hd.resolved (resolveFull_same d) (resolveFull_rows d) fun e => ?_
  split
  · exact settled_sourceFile c d e
  · rfl

theorem Housed.runIncremental (hd : Housed d) (c : PostprocessConfig) (delta : ScanDelta) :
    Housed (runIncremental c delta d) := by
  refine Housed.views (Housed.resynthesize ?_ c) (runIncremental_views c delta d)
  refine hd.resolved (resolveTargets_same delta d) (resolveTargets_rows delta d) fun e => ?_
  split
  · exact settled_sourceFile c d e
  · rfl

end Passes

end RemyCC.Index
