import RemyCC.Index.Tracking

/-!
# What a change set tells of a database

After any writes and deletions the change set bounds how the database differs
from the one before: outside the touched files, outside the reported names and
outside the Python files that came or went, it is the same.
-/

namespace RemyCC.Index

open Relational Text

structure Tracks (d₀ d : Database) (delta : ScanDelta) : Prop where
  housed : Housed d
  files : ∀ path ∉ delta.touchedFiles, d.file? path = d₀.file? path
  symbols : ∀ name ∉ delta.names, d.symbols.rows.filter (SymbolRow.bears name) =
    d₀.symbols.rows.filter (SymbolRow.bears name)
  sources : d.symbols.rows.filter (fun s => s.filePath ∉ delta.touchedFiles) =
    d₀.symbols.rows.filter fun s => s.filePath ∉ delta.touchedFiles
  named : ∀ s ∈ d.symbols.rows, s.filePath ∈ delta.touchedFiles →
    s.name ∈ delta.names ∧ s.shortName ∈ delta.names
  python : ∀ path ∉ delta.changedPy, endsWith path ".py" = true →
    d.hasFile path = d₀.hasFile path
  edges : d.edges.rows.filter (fun e => e.sourceFile ∉ delta.touchedFiles) =
    d₀.edges.rows.filter fun e => e.sourceFile ∉ delta.touchedFiles
  inferred : ∀ e ∈ d.edges.rows, e.direct = false → e.sourceFile ∉ delta.touchedFiles
  candidates : ∀ e ∈ d.edges.rows, e.sourceFile ∉ delta.touchedFiles →
    candidatesOf e.id d = candidatesOf e.id d₀
  clusters : d.clusters = d₀.clusters
  members : d.members = d₀.members

variable {d₀ d d' : Database} {delta : ScanDelta} {path : String} {new : List SymbolRow}

theorem Tracks.start (hd : Housed d) : Tracks d d .empty where
  housed := hd
  files _ _ := rfl
  symbols _ _ := rfl
  sources := rfl
  named _ _ h := absurd h List.not_mem_nil
  python _ _ _ := rfl
  edges := rfl
  inferred _ _ _ := List.not_mem_nil
  candidates _ _ _ := rfl
  clusters := rfl
  members := rfl

theorem bears_iff {name : String} {s : SymbolRow} :
    s.bears name = true ↔ s.name = name ∨ s.shortName = name := by
  simp [SymbolRow.bears]

/-- A replacement is tracked once the change set records the file, all names
that it had and has, and whether a Python file came or went. -/
theorem Tracks.replace (names py : List String) (h : Tracks d₀ d delta)
    (hr : Replaces path d d' new) (hd : Housed d') {delta' : ScanDelta}
    (htouched : delta'.touchedFiles = delta.touchedFiles ++ [path])
    (hnames : delta'.names = delta.names ++ names)
    (hpy : ∀ q, q ∈ delta'.changedPy ↔ q ∈ delta.changedPy ∨ q ∈ py)
    (hold : ∀ s ∈ d.symbols.rows, s.filePath = path → s.name ∈ names ∧ s.shortName ∈ names)
    (hnew : ∀ s ∈ new, s.name ∈ names ∧ s.shortName ∈ names)
    (hfile : path ∉ py → endsWith path ".py" = true → d'.hasFile path = d.hasFile path) :
    Tracks d₀ d' delta' where
  housed := hd
  files q hq := by
    rw [htouched, List.mem_append, List.mem_singleton, not_or] at hq
    rw [hr.files q hq.2, h.files q hq.1]
  symbols name hname := by
    rw [hnames, List.mem_append, not_or] at hname
    have hmiss : ∀ s : SymbolRow, s.name ∈ names ∧ s.shortName ∈ names → s.bears name = false := by
      intro s hs
      rw [Bool.eq_false_iff]
      intro hbears
      rcases bears_iff.mp hbears with heq | heq
      · exact hname.2 (heq ▸ hs.1)
      · exact hname.2 (heq ▸ hs.2)
    have hgone : new.filter (SymbolRow.bears name) = [] := by
      refine List.filter_eq_nil_iff.mpr fun s hs => ?_
      rw [hmiss s (hnew s hs)]
      exact Bool.false_ne_true
    rw [hr.symbols, List.filter_append, hgone, List.append_nil, List.filter_filter,
      ← h.symbols name hname.1]
    refine List.filter_congr fun s hs => ?_
    by_cases hpath : s.filePath = path
    · rw [hmiss s (hold s hs hpath), Bool.false_and]
    · rw [beq_eq_false_iff_ne.mpr hpath, Bool.not_false, Bool.and_true]
  sources := by
    have hgone : new.filter (fun s => s.filePath ∉ delta'.touchedFiles) = [] := by
      refine List.filter_eq_nil_iff.mpr fun s hs h => ?_
      rw [htouched, hr.news s hs] at h
      simp at h
    have hsplit : ∀ rows : List SymbolRow,
        rows.filter (fun s => s.filePath ∉ delta'.touchedFiles) =
          (rows.filter fun s => s.filePath ∉ delta.touchedFiles).filter
            fun s => !(s.filePath == path) := by
      intro rows
      rw [List.filter_filter]
      refine List.filter_congr fun s _ => ?_
      simp [htouched, beq_eq_decide, Bool.and_comm]
    have hidle : ∀ rows : List SymbolRow,
        (rows.filter fun s => !(s.filePath == path)).filter (fun s => !(s.filePath == path)) =
          rows.filter fun s => !(s.filePath == path) := by
      intro rows
      rw [List.filter_filter]
      simp only [Bool.and_self]
    rw [hr.symbols, List.filter_append, hgone, List.append_nil, hsplit, List.filter_comm, hidle,
      List.filter_comm, h.sources, ← hsplit]
  named s hs htouch := by
    rw [hnames]
    rw [htouched, List.mem_append, List.mem_singleton] at htouch
    rcases hr.symbol_cases hs with ⟨hmem, hpath⟩ | hmem
    · have hold := h.named s hmem (htouch.resolve_right hpath)
      exact ⟨List.mem_append_left _ hold.1, List.mem_append_left _ hold.2⟩
    · have hnames := hnew s hmem
      exact ⟨List.mem_append_right _ hnames.1, List.mem_append_right _ hnames.2⟩
  python q hq hpython := by
    rw [hpy, not_or] at hq
    rw [← h.python q hq.1 hpython]
    by_cases hpath : q = path
    · rw [hpath] at hq hpython ⊢
      exact hfile hq.2 hpython
    · exact hr.hasFile_eq hpath
  edges := by
    have hsplit : ∀ rows : List EdgeRow,
        rows.filter (fun e => e.sourceFile ∉ delta'.touchedFiles) =
          (rows.filter fun e => e.sourceFile != path).filter
            fun e => e.sourceFile ∉ delta.touchedFiles := by
      intro rows
      rw [List.filter_filter]
      refine List.filter_congr fun e _ => ?_
      simp [htouched, bne, beq_eq_decide]
    rw [hsplit, hr.edges, hsplit, List.filter_comm, h.edges, List.filter_comm]
  inferred e he hdirect := by
    have hpath : e.sourceFile ≠ path := by
      intro heq
      rw [hr.fresh e he heq] at hdirect
      exact Bool.noConfusion hdirect
    rw [htouched, List.mem_append, List.mem_singleton, not_or]
    exact ⟨h.inferred e (hr.edge_mem he hpath) hdirect, hpath⟩
  candidates e he hsource := by
    rw [htouched, List.mem_append, List.mem_singleton, not_or] at hsource
    rw [hr.candidates e he hsource.2]
    exact h.candidates e (hr.edge_mem he hsource.2) hsource.1
  clusters := hr.clusters.trans h.clusters
  members := hr.members.trans h.members

/-- A housed index holds nothing of a file that it does not have. -/
theorem Tracks.absent (h : Tracks d₀ d delta) (hfile : d.hasFile path = false) :
    Tracks d₀ (deleteFile path d).1 delta := by
  have hr := deleteFile_replaces path d
  have hsymbols : (deleteFile path d).1.symbols.rows = d.symbols.rows := by
    rw [hr.symbols, List.append_nil]
    refine List.filter_eq_self.mpr fun s hs => ?_
    cases hpath : s.filePath == path with
    | false => rfl
    | true =>
      have hhas := h.housed.symbols s hs
      rw [beq_iff_eq.mp hpath, hfile] at hhas
      exact Bool.noConfusion hhas
  have hpath : ∀ e ∈ d.edges.rows, e.sourceFile ≠ path := by
    intro e he heq
    have hhas := h.housed.edges e he
    rw [heq, hfile] at hhas
    exact Bool.noConfusion hhas
  have hedges : (deleteFile path d).1.edges.rows = d.edges.rows := by
    rw [deleteFile_fst]
    refine List.filter_eq_self.mpr fun e he => ?_
    simpa using hpath e he
  have hfiles : ∀ q, (deleteFile path d).1.file? q = d.file? q := by
    intro q
    by_cases hq : q = path
    · have hgone : (deleteFile path d).1.file? path = none := by
        rw [deleteFile_fst]
        refine List.find?_eq_none.mpr fun r hr heq => ?_
        have hne : r.path ≠ path := by simpa using (List.mem_filter.mp hr).2
        exact hne (beq_iff_eq.mp heq)
      have hnone : d.file? path = none :=
        Option.isNone_iff_eq_none.mp (Option.isSome_eq_false_iff.mp hfile)
      rw [hq, hgone, hnone]
    · exact hr.files q hq
  refine ⟨h.housed.deleteFile path, ?_, ?_, ?_, ?_, ?_, ?_, ?_, ?_, hr.clusters.trans h.clusters,
    hr.members.trans h.members⟩
  · intro q hq
    rw [hfiles, h.files q hq]
  · intro name hname
    rw [hsymbols, h.symbols name hname]
  · rw [hsymbols, h.sources]
  · intro s hs
    rw [hsymbols] at hs
    exact h.named s hs
  · intro q hq hpython
    rw [← h.python q hq hpython]
    exact congrArg Option.isSome (hfiles q)
  · rw [hedges, h.edges]
  · rw [hedges]
    exact h.inferred
  · intro e he hsource
    have hold : e ∈ d.edges.rows := hedges ▸ he
    rw [hr.candidates e he (hpath e hold)]
    exact h.candidates e hold hsource

theorem mem_symbolNames {s : SymbolRow} (hs : s ∈ d.symbols.rows) (hpath : s.filePath = path) :
    s.name ∈ symbolNames path d ∧ s.shortName ∈ symbolNames path d := by
  have hmem : s ∈ d.symbols.rows.filter fun s => s.filePath == path :=
    List.mem_filter.mpr ⟨hs, beq_iff_eq.mpr hpath⟩
  exact ⟨List.mem_flatMap.mpr ⟨s, hmem, List.mem_cons_self⟩,
    List.mem_flatMap.mpr ⟨s, hmem, List.mem_cons_of_mem _ List.mem_cons_self⟩⟩

theorem Tracks.written (h : Tracks d₀ d delta) (hh : Hashes) (f : FileFacts) :
    Tracks d₀ (applyOp hh (d, delta) (.write f)).1 (applyOp hh (d, delta) (.write f)).2 := by
  change Tracks d₀ (writeFileFacts hh f d).1
    (if (writeFileFacts hh f d).2.changed then
      delta.recordWritten f.relPath (writeFileFacts hh f d).2 else delta)
  unfold writeFileFacts
  split
  · exact h
  · let fd : FileDelta :=
      { changed := true
        created := !d.hasFile f.relPath
        names := sortedSet (symbolNames f.relPath d ++
          (f.canonicalSymbols.map (f.symbolRow hh)).flatMap fun s => [s.name, s.shortName]) }
    change Tracks d₀ (d.replaceFacts hh f) (delta.recordWritten f.relPath fd)
    have hpy : ∀ q, q ∈ (delta.recordWritten f.relPath fd).changedPy ↔
        q ∈ delta.changedPy ∨
          q ∈ if fd.created && endsWith f.relPath ".py" then [f.relPath] else [] := by
      intro q
      unfold ScanDelta.changedPy ScanDelta.recordWritten
      dsimp only
      split
      · simp only [List.mem_append]
        tauto
      · simp only [List.mem_append, List.not_mem_nil, or_false]
    refine h.replace fd.names _ (replaceFacts_replaces hh f d)
      (h.housed.replaceFacts hh f) rfl rfl hpy ?_ ?_ ?_
    · intro s hs hpath
      have hnames := mem_symbolNames hs hpath
      exact ⟨mem_sortedSet.mpr (List.mem_append_left _ hnames.1),
        mem_sortedSet.mpr (List.mem_append_left _ hnames.2)⟩
    · intro s hs
      exact ⟨mem_sortedSet.mpr (List.mem_append_right _
          (List.mem_flatMap.mpr ⟨s, hs, List.mem_cons_self⟩)),
        mem_sortedSet.mpr (List.mem_append_right _
          (List.mem_flatMap.mpr ⟨s, hs, List.mem_cons_of_mem _ List.mem_cons_self⟩))⟩
    · -- A Python file that is not reported as created was there already.
      intro hmiss hpython
      have hfile : d.hasFile f.relPath = true := by
        by_contra hnone
        rw [Bool.not_eq_true] at hnone
        exact hmiss (by simp [fd, hnone, hpython])
      rw [hfile]
      exact hasFile_upsert f d

theorem Tracks.deleted (h : Tracks d₀ d delta) (hh : Hashes) (path : String) :
    Tracks d₀ (applyOp hh (d, delta) (.delete path)).1 (applyOp hh (d, delta) (.delete path)).2 := by
  cases hfile : d.hasFile path with
  | false =>
    have hnone : deleteFile path d = ((deleteFile path d).1, none) := by
      unfold deleteFile
      simp [hfile]
    have happly : applyOp hh (d, delta) (.delete path) = ((deleteFile path d).1, delta) := by
      unfold applyOp
      dsimp only
      rw [hnone]
    rw [happly]
    exact h.absent hfile
  | true =>
    let fd : FileDelta :=
      { changed := true, created := false, names := sortedSet (symbolNames path d) }
    have hsome : deleteFile path d = ((deleteFile path d).1, some fd) := by
      unfold deleteFile
      simp [hfile, fd]
    have happly : applyOp hh (d, delta) (.delete path) =
        ((deleteFile path d).1, delta.recordRemoved path fd) := by
      unfold applyOp
      dsimp only
      rw [hsome]
    rw [happly]
    have hpy : ∀ q, q ∈ (delta.recordRemoved path fd).changedPy ↔
        q ∈ delta.changedPy ∨ q ∈ if endsWith path ".py" then [path] else [] := by
      intro q
      unfold ScanDelta.changedPy ScanDelta.recordRemoved
      dsimp only
      split
      · simp only [List.mem_append]
        tauto
      · simp only [List.mem_append, List.not_mem_nil, or_false]
    refine h.replace fd.names _ (deleteFile_replaces path d) (h.housed.deleteFile path)
      rfl rfl hpy ?_ ?_ ?_
    · intro s hs hpath
      have hnames := mem_symbolNames hs hpath
      exact ⟨mem_sortedSet.mpr hnames.1, mem_sortedSet.mpr hnames.2⟩
    · exact fun s hs => absurd hs List.not_mem_nil
    · intro hmiss hpython
      exact absurd (by simp [hpython]) hmiss

theorem Tracks.applyOp (h : Tracks d₀ d delta) (hh : Hashes) (op : FileOp) :
    Tracks d₀ (applyOp hh (d, delta) op).1 (applyOp hh (d, delta) op).2 := by
  cases op with
  | write f => exact h.written hh f
  | delete path => exact h.deleted hh path

/-- Every run of writes and deletions is tracked by its change set. -/
theorem tracks_applyOps (hd : Housed d) (hh : Hashes) (ops : List FileOp) :
    Tracks d (applyOps hh ops d).1 (applyOps hh ops d).2 := by
  unfold Index.applyOps
  suffices hfold : ∀ s : Database × ScanDelta, Tracks d s.1 s.2 →
      Tracks d (ops.foldl (Index.applyOp hh) s).1 (ops.foldl (Index.applyOp hh) s).2 from
    hfold (d, .empty) (.start hd)
  induction ops with
  | nil => exact fun _ hs => hs
  | cons op ops ih => exact fun s hs => ih _ (hs.applyOp hh op)

end RemyCC.Index
