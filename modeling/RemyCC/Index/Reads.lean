import RemyCC.Relational.Grouping
import RemyCC.Index.Resolve

/-!
# What the resolution of an edge reads

The resolution of an edge depends on the row of its own file, on what that
file's import bindings lead to, on the symbols that bear the callee's name, and
on the languages of their files. Two databases that agree on these resolve the
edge alike.
-/

namespace RemyCC.Index

open Relational Text

section Symbols

/-- The columns of a symbol that resolution reads. -/
def nameKey (s : SymbolRow) : String × String × String := (s.filePath, s.name, s.shortName)

theorem map_orderBy_symbols (rows : List SymbolRow) :
    (orderBy symbolOrder rows).map qualifiedName =
      (orderBy (compareLex (compareOn fun k : String × String × String => k.1)
        (compareOn fun k => k.2.1)) (rows.map nameKey)).map fun k => k.1 ++ "::" ++ k.2.1 := by
  have hsort := List.map_insertionSort
    (r := fun s t : SymbolRow => (symbolOrder s t).isLE)
    (s := fun j k => (compareLex (compareOn fun k : String × String × String => k.1)
      (compareOn fun k => k.2.1) j k).isLE)
    nameKey rows (fun s _ t _ => Iff.rfl)
  unfold orderBy
  rw [← hsort, List.map_map]
  rfl

theorem filter_bears (p : String → Bool) (name : String) (rows : List SymbolRow) :
    (rows.filter fun s => p s.filePath && s.bears name).map nameKey =
      ((rows.filter (SymbolRow.bears name)).map nameKey).filter fun k => p k.1 := by
  rw [List.filter_map, List.filter_filter]
  rfl

theorem symbolsWhere_congr {p p' : String → Bool} {name : String} {d d' : Database}
    (h : List.Perm ((d'.symbols.rows.filter (SymbolRow.bears name)).map nameKey)
      ((d.symbols.rows.filter (SymbolRow.bears name)).map nameKey))
    (hp : ∀ s ∈ d.symbols.rows, s.bears name → p' s.filePath = p s.filePath) :
    symbolsWhere p' name d' = symbolsWhere p name d := by
  have htest : ((d.symbols.rows.filter (SymbolRow.bears name)).map nameKey).filter
      (fun k => p' k.1) = ((d.symbols.rows.filter (SymbolRow.bears name)).map nameKey).filter
        fun k => p k.1 := by
    refine List.filter_congr fun k hk => ?_
    obtain ⟨s, hs, rfl⟩ := List.mem_map.mp hk
    exact hp s (List.mem_filter.mp hs).1 (List.mem_filter.mp hs).2
  unfold symbolsWhere
  rw [map_orderBy_symbols, map_orderBy_symbols, filter_bears, filter_bears, ← htest]
  refine map_orderBy_eq_of_perm (fun j k hjk => ?_) (h.filter _)
  obtain ⟨hfile, hname⟩ := compareLex_eq_eq.mp hjk
  rw [eq_of_compareOn hfile, eq_of_compareOn hname]

end Symbols

section Files

theorem filter_path (d : Database) (path : String) :
    d.files.rows.filter (fun r => r.path == path) = (d.file? path).toList := by
  simpa [Database.file?, beq_eq_decide] using d.files.filter_key path

theorem filesByPath_filter (d : Database) (path : String) :
    d.filesByPath.filter (fun r => r.path == path) = (d.file? path).toList := by
  have hperm := d.files.filter_key_of_perm (orderBy_perm (compareOn FileRow.path) d.files.rows) path
  rw [← filter_path]
  simpa [Database.filesByPath, beq_eq_decide] using hperm

theorem mem_pyPaths {d : Database} {path : String} :
    path ∈ pyPaths d ↔ d.hasFile path = true ∧ endsWith path ".py" = true := by
  simp [pyPaths, Database.filesByPath, Database.hasFile, Database.file?, List.find?_isSome]

theorem pyPaths_nodup (d : Database) : (pyPaths d).Nodup := by
  have hperm := (orderBy_perm (compareOn FileRow.path) d.files.rows).map FileRow.path
  exact (hperm.nodup_iff.mpr d.files.distinct).filter _

end Files

section Bindings

theorem filter_tagged {α : Type} (g : FileRow → List α) (path : String) (rows : List FileRow) :
    ((rows.flatMap fun r => (g r).map fun a => (r.path, a)).filter fun t => t.1 == path).map
      Prod.snd = (rows.filter fun r => r.path == path).flatMap g := by
  induction rows with
  | nil => rfl
  | cons r rows ih =>
    rw [List.flatMap_cons, List.filter_append, List.map_append, ih]
    by_cases hr : r.path = path
    · have hall : ((g r).map fun a => (r.path, a)).filter (fun t => t.1 == path) =
          (g r).map fun a => (r.path, a) := by
        refine List.filter_eq_self.mpr fun t ht => ?_
        obtain ⟨a, -, rfl⟩ := List.mem_map.mp ht
        exact beq_iff_eq.mpr hr
      rw [hall, List.map_map, List.filter_cons, if_pos (beq_iff_eq.mpr hr), List.flatMap_cons]
      simp
    · have hnone : ((g r).map fun a => (r.path, a)).filter (fun t => t.1 == path) = [] := by
        refine List.filter_eq_nil_iff.mpr fun t ht => ?_
        obtain ⟨a, -, rfl⟩ := List.mem_map.mp ht
        simpa using hr
      rw [hnone, List.filter_cons_of_neg (by simpa using hr)]
      rfl

theorem supplementsOf_derive (d : Database) (path : String) :
    (deriveImportBindings d).supplementsOf path = (d.file? path).toList.flatMap fun r =>
      (jsonArray r.importBindings).filterMap (bindingSupplement d) := by
  rw [← filesByPath_filter, ← filter_tagged]
  rfl

theorem externalsOf_derive (d : Database) (path : String) :
    (deriveImportBindings d).externalsOf path = (d.file? path).toList.flatMap fun r =>
      (jsonArray r.importBindings).flatMap (bindingExternals d) := by
  rw [← filesByPath_filter, ← filter_tagged]
  rfl

/-- The paths that fit a module are the same paths, in whatever order. -/
def SameHits (module : String) (d d' : Database) : Prop :=
  List.Perm (suffixHits module d') (suffixHits module d)

theorem sameHits_of_files {module : String} {d d' : Database}
    (h : ∀ path, fitsModule module path = true → endsWith path ".py" = true →
      d'.hasFile path = d.hasFile path) : SameHits module d d' := by
  refine (List.perm_ext_iff_of_nodup ((pyPaths_nodup d').filter _)
    ((pyPaths_nodup d).filter _)).mpr fun path => ?_
  rw [List.mem_filter, List.mem_filter, mem_pyPaths, mem_pyPaths]
  constructor
  · rintro ⟨⟨hfile, hpy⟩, hfits⟩
    exact ⟨⟨(h path hfits hpy).symm.trans hfile, hpy⟩, hfits⟩
  · rintro ⟨⟨hfile, hpy⟩, hfits⟩
    exact ⟨⟨(h path hfits hpy).trans hfile, hpy⟩, hfits⟩

theorem SameHits.supplement {d d' : Database} {binding : Json.Value}
    (h : SameHits (moduleName binding) d d') :
    bindingSupplement d' binding = bindingSupplement d binding := by
  unfold SameHits at h
  unfold bindingSupplement
  dsimp only
  split
  · rfl
  · cases hhits : suffixHits (moduleName binding) d with
    | nil =>
      rw [hhits] at h
      rw [h.eq_nil]
    | cons hit hits =>
      rw [hhits] at h
      cases hits with
      | nil => rw [List.perm_singleton.mp h]
      | cons hit' hits =>
        have hlength := h.length_eq
        split
        · rename_i heq
          rw [heq] at hlength
          simp at hlength
        · rfl

theorem SameHits.externals {d d' : Database} {binding : Json.Value}
    (h : SameHits (moduleName binding) d d') :
    bindingExternals d' binding = bindingExternals d binding := by
  have hnil : suffixHits (moduleName binding) d' = [] ↔ suffixHits (moduleName binding) d = [] := by
    rw [← List.length_eq_zero_iff, ← List.length_eq_zero_iff, h.length_eq]
  unfold bindingExternals
  simp only [hnil]

end Bindings

/-- What the resolution of an edge reads is the same in two databases. -/
structure ReadsAlike (e : EdgeRow) (d d' : Database) : Prop where
  imports : (d'.file? e.sourceFile).bind FileRow.imports =
    (d.file? e.sourceFile).bind FileRow.imports
  language : (d'.file? e.sourceFile).bind FileRow.language =
    (d.file? e.sourceFile).bind FileRow.language
  supplements : (deriveImportBindings d').supplementsOf e.sourceFile =
    (deriveImportBindings d).supplementsOf e.sourceFile
  externals : (deriveImportBindings d').externalsOf e.sourceFile =
    (deriveImportBindings d).externalsOf e.sourceFile
  symbols : List.Perm ((d'.symbols.rows.filter (SymbolRow.bears e.callee)).map nameKey)
    ((d.symbols.rows.filter (SymbolRow.bears e.callee)).map nameKey)
  languages : ∀ s ∈ d.symbols.rows, s.bears e.callee →
    (d'.file? s.filePath).bind FileRow.language = (d.file? s.filePath).bind FileRow.language

theorem ReadsAlike.resolveEdge_eq {e : EdgeRow} {d d' : Database} (h : ReadsAlike e d d')
    (c : PostprocessConfig) :
    resolveEdge c (deriveImportBindings d') d' e = resolveEdge c (deriveImportBindings d) d e := by
  have himports : importList (deriveImportBindings d') e.sourceFile d' =
      importList (deriveImportBindings d) e.sourceFile d := by
    unfold importList
    rw [h.imports, h.supplements]
  have hnear : nearCandidates c (deriveImportBindings d') e d' =
      nearCandidates c (deriveImportBindings d) e d := by
    have hwhere : ∀ p : String → Bool, symbolsWhere p e.callee d' = symbolsWhere p e.callee d :=
      fun p => symbolsWhere_congr h.symbols fun _ _ _ => rfl
    unfold nearCandidates
    rw [himports]
    dsimp only
    rw [hwhere, hwhere]
  have hglobal : globalSymbols c e d' = globalSymbols c e d := by
    have hwhere : ∀ l : Option String,
        symbolsWhere (fun path => path != e.sourceFile && inLanguage l d' path) e.callee d' =
          symbolsWhere (fun path => path != e.sourceFile && inLanguage l d path) e.callee d := by
      intro l
      refine symbolsWhere_congr h.symbols fun s hs hbears => ?_
      unfold inLanguage
      rw [h.languages s hs hbears]
    unfold globalSymbols
    rw [h.language]
    dsimp only
    rw [hwhere]
  have hcandidates : resolveCandidates c (deriveImportBindings d') e d' =
      resolveCandidates c (deriveImportBindings d) e d := by
    unfold resolveCandidates
    rw [hnear, hglobal, h.externals]
  unfold resolveEdge
  rw [hcandidates]

section SameInputs

/-- The columns of a file that resolution reads. -/
def fileKey (r : FileRow) : String × Option String × Option String × String :=
  (r.path, r.language, r.imports, r.importBindings)

/-- Two databases that differ in no column that resolution reads, whatever the
order of their rows. -/
structure SameInputs (d d' : Database) : Prop where
  files : List.Perm (d'.files.rows.map fileKey) (d.files.rows.map fileKey)
  symbols : List.Perm (d'.symbols.rows.map nameKey) (d.symbols.rows.map nameKey)

variable {d d' d'' : Database}

theorem SameInputs.refl (d : Database) : SameInputs d d := ⟨.refl _, .refl _⟩

theorem SameInputs.trans (h : SameInputs d d') (h' : SameInputs d' d'') : SameInputs d d'' :=
  ⟨h'.files.trans h.files, h'.symbols.trans h.symbols⟩

theorem SameInputs.symm (h : SameInputs d d') : SameInputs d' d := ⟨h.files.symm, h.symbols.symm⟩

theorem map_file? (d : Database) (path : String) :
    (d.file? path).map fileKey = (d.files.rows.map fileKey).find? fun k => k.1 == path := by
  rw [List.find?_map]
  rfl

theorem SameInputs.file_eq (h : SameInputs d d') (path : String) :
    (d'.file? path).map fileKey = (d.file? path).map fileKey := by
  have hfilter : ∀ d : Database, ((d.file? path).map fileKey).toList =
      (d.files.rows.map fileKey).filter fun k => k.1 == path := fun d => by
    rw [Option.toList_map, ← filter_path, List.filter_map]
    rfl
  have hperm := h.files.filter fun k => k.1 == path
  rw [← hfilter, ← hfilter] at hperm
  cases hd : (d.file? path).map fileKey with
  | none =>
    rw [hd] at hperm
    exact Option.toList_eq_nil_iff.mp hperm.eq_nil
  | some k =>
    rw [hd] at hperm
    exact Option.toList_eq_singleton_iff.mp (List.perm_singleton.mp hperm)

theorem SameInputs.column_eq (h : SameInputs d d') (path : String) {α : Type}
    (column : FileRow → Option α) (read : String × Option String × Option String × String → Option α)
    (hread : column = read ∘ fileKey) :
    (d'.file? path).bind column = (d.file? path).bind column := by
  have hbind : ∀ o : Option FileRow, o.bind column = (o.map fileKey).bind read := by
    intro o
    cases o with
    | none => rfl
    | some r => rw [hread]; rfl
  rw [hbind, hbind, h.file_eq]

theorem SameInputs.hasFile_eq (h : SameInputs d d') (path : String) :
    d'.hasFile path = d.hasFile path := by
  have hfile := congrArg Option.isSome (h.file_eq path)
  simpa [Database.hasFile] using hfile

theorem SameInputs.sameHits (h : SameInputs d d') (module : String) : SameHits module d d' :=
  sameHits_of_files fun path _ _ => h.hasFile_eq path

theorem SameInputs.bindings_eq (h : SameInputs d d') (path : String) {α : Type}
    (g g' : Json.Value → List α) (hg : ∀ b, g' b = g b) :
    (d'.file? path).toList.flatMap (fun r => (jsonArray r.importBindings).flatMap g') =
      (d.file? path).toList.flatMap fun r => (jsonArray r.importBindings).flatMap g := by
  have hfile := h.file_eq path
  rw [show g' = g from funext hg]
  cases hd : d.file? path with
  | none =>
    rw [hd] at hfile
    rw [Option.map_eq_none_iff.mp hfile]
  | some r =>
    rw [hd] at hfile
    obtain ⟨r', hr', hkey⟩ := Option.map_eq_some_iff.mp hfile
    have hbindings : r'.importBindings = r.importBindings :=
      congrArg (fun k : String × Option String × Option String × String => k.2.2.2) hkey
    rw [hr']
    simp [hbindings]

theorem SameInputs.readsAlike (h : SameInputs d d') (e : EdgeRow) : ReadsAlike e d d' where
  imports := h.column_eq _ _ (fun k => k.2.2.1) rfl
  language := h.column_eq _ _ (fun k => k.2.1) rfl
  supplements := by
    have hlist : ∀ d : Database, (deriveImportBindings d).supplementsOf e.sourceFile =
        (d.file? e.sourceFile).toList.flatMap fun r =>
          (jsonArray r.importBindings).flatMap fun b => (bindingSupplement d b).toList := by
      intro d
      rw [supplementsOf_derive]
      simp only [List.filterMap_eq_flatMap_toList]
    rw [hlist, hlist]
    exact h.bindings_eq _ _ _ fun b => by rw [(h.sameHits _).supplement]
  externals := by
    rw [externalsOf_derive, externalsOf_derive]
    exact h.bindings_eq _ _ _ fun b => (h.sameHits _).externals
  symbols := by
    have hkeys : ∀ d : Database, (d.symbols.rows.filter (SymbolRow.bears e.callee)).map nameKey =
        (d.symbols.rows.map nameKey).filter fun k => k.2.1 == e.callee || k.2.2 == e.callee := by
      intro d
      rw [List.filter_map]
      rfl
    rw [hkeys, hkeys]
    exact h.symbols.filter _
  languages := fun s _ _ => h.column_eq _ _ (fun k => k.2.1) rfl

end SameInputs

end RemyCC.Index
