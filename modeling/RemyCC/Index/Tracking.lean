import RemyCC.Index.Housed

/-!
# What a change set keeps track of

Writes and deletions change only what their change set reports: outside the
touched files every row is the old one, and outside the reported names so is
every symbol. An edge outside the reset set therefore reads the same after the
changes as before.
-/

namespace RemyCC.Index

open Relational Text

section Effects

/-- The facts of one file are replaced and everything else stays. -/
structure Replaces (path : String) (d d' : Database) (new : List SymbolRow) : Prop where
  files : ∀ q, q ≠ path → d'.file? q = d.file? q
  symbols : d'.symbols.rows = (d.symbols.rows.filter fun s => !(s.filePath == path)) ++ new
  news : ∀ s ∈ new, s.filePath = path
  edges : d'.edges.rows.filter (fun e => e.sourceFile != path) =
    d.edges.rows.filter fun e => e.sourceFile != path
  candidates : ∀ e ∈ d'.edges.rows, e.sourceFile ≠ path →
    candidatesOf e.id d' = candidatesOf e.id d
  fresh : ∀ e ∈ d'.edges.rows, e.sourceFile = path → e.direct = true
  kept : ∀ k ∈ d'.candidates.rows, k ∈ d.candidates.rows ∧
    ∀ e ∈ d.edges.rows, e.sourceFile = path → e.id ≠ k.edgeId
  patterns : ∀ p ∈ d'.patterns, p.filePath ≠ path → p ∈ d.patterns
  clusters : d'.clusters = d.clusters
  members : d'.members = d.members

theorem file?_upsert_ne {f : FileFacts} {d : Database} {q : String} (h : q ≠ f.relPath) :
    (d.upsertFile f).file? q = d.file? q := by
  unfold Database.upsertFile Database.file? Keyed.upsert
  dsimp only
  split
  · have hpath : ∀ r : FileRow, (if r.path = f.relPath then f.editRow r else r).path = r.path := by
      intro r
      split
      · exact f.editRow_path r
      · rfl
    rw [Keyed.update_rows, List.find?_map]
    have hfun : ((fun r : FileRow => r.path == q) ∘
        fun r => if r.path = f.relPath then f.editRow r else r) = fun r => r.path == q := by
      funext r
      simp [hpath]
    rw [hfun]
    cases hfind : d.files.rows.find? fun r => r.path == q with
    | none => rfl
    | some r =>
      have hr : r.path = q := by simpa using List.find?_some hfind
      simp [hr, h]
  · have hnew : (f.newRow.path == q) = false := by simpa [f.newRow_path] using Ne.symm h
    rw [Keyed.append_rows, List.find?_append]
    simp [hnew]

theorem hasFile_upsert (f : FileFacts) (d : Database) :
    (d.upsertFile f).hasFile f.relPath = true := by
  rw [hasFile_iff]
  unfold Database.upsertFile Keyed.upsert
  dsimp only
  split
  · rename_i h
    obtain ⟨r, hr, hpath⟩ := h
    refine ⟨f.editRow r, List.mem_map.mpr ⟨r, hr, if_pos hpath⟩, ?_⟩
    rw [f.editRow_path, hpath]
  · exact ⟨f.newRow, List.mem_append_right _ (List.mem_singleton_self _), rfl⟩

/-- The edges of a file are added behind all others, each under a new id. -/
theorem addEdges_rows (f : FileFacts) (d : Database) :
    ∃ new : List EdgeRow, (d.addEdges f).edges.rows = d.edges.rows ++ new ∧
      ∀ e ∈ new, e.sourceFile = f.relPath ∧ e.direct = true := by
  unfold Database.addEdges
  dsimp only
  generalize d.edges = t
  induction f.edges generalizing t with
  | nil => exact ⟨[], by simp, by simp⟩
  | cons e edges ih =>
    obtain ⟨new, hrows, hnew⟩ := ih (t.insert (f.edgeRow e) (f.edgeRow_id e))
    refine ⟨f.edgeRow e (t.last + 1) :: new, ?_, ?_⟩
    · rw [List.foldl_cons, hrows, Numbered.insert_rows, List.append_assoc, List.singleton_append]
    · intro x hx
      rcases List.mem_cons.mp hx with rfl | hx
      · exact ⟨rfl, rfl⟩
      · exact hnew x hx

/-- Candidates of an edge from another file are not deleted with a file. -/
theorem dropFacts_candidates {path : String} {d : Database} {e : EdgeRow}
    (he : e ∈ d.edges.rows) (hpath : e.sourceFile ≠ path) :
    candidatesOf e.id (d.dropFacts path) = candidatesOf e.id d := by
  unfold candidatesOf Database.dropFacts
  rw [Keyed.deleteWhere_rows, List.filter_filter]
  refine List.filter_congr fun k _ => ?_
  cases hk : k.edgeId == e.id with
  | false => rfl
  | true =>
    have hnone : (d.edges.rows.any fun x => x.sourceFile == path && x.id == k.edgeId) = false := by
      rw [List.any_eq_false]
      intro x hx hxk
      rw [Bool.and_eq_true_iff, beq_iff_eq, beq_iff_eq] at hxk
      have heq := d.edges.eq_of_number hx he (hxk.2.trans (beq_iff_eq.mp hk))
      exact hpath (heq ▸ hxk.1)
    simp [hnone]

theorem dropFacts_kept {path : String} {d : Database} {k : CandidateRow}
    (hk : k ∈ (d.dropFacts path).candidates.rows) :
    k ∈ d.candidates.rows ∧ ∀ e ∈ d.edges.rows, e.sourceFile = path → e.id ≠ k.edgeId := by
  obtain ⟨hmem, hkept⟩ := List.mem_filter.mp hk
  refine ⟨hmem, fun e he hpath hid => ?_⟩
  have hany : (d.edges.rows.any fun x => x.sourceFile == path && x.id == k.edgeId) = true :=
    List.any_eq_true.mpr ⟨e, he, by simp [hpath, hid]⟩
  simp [hany] at hkept

theorem filter_replaced {path : String} {rows new : List EdgeRow}
    (hnew : ∀ e ∈ new, e.sourceFile = path) :
    ((rows.filter fun e => !(e.sourceFile == path)) ++ new).filter
        (fun e => e.sourceFile != path) =
      rows.filter fun e => e.sourceFile != path := by
  have hnone : new.filter (fun e => e.sourceFile != path) = [] := by
    refine List.filter_eq_nil_iff.mpr fun e he h => ?_
    exact bne_iff_ne.mp h (hnew e he)
  rw [List.filter_append, hnone, List.append_nil, List.filter_filter]
  refine List.filter_congr fun e _ => ?_
  rw [bne, Bool.and_self]

theorem replaceFacts_replaces (h : Hashes) (f : FileFacts) (d : Database) :
    Replaces f.relPath d (d.replaceFacts h f) (f.canonicalSymbols.map (f.symbolRow h)) := by
  obtain ⟨new, hrows, hnew⟩ := addEdges_rows f ((((d.upsertFile f).dropFacts
    f.relPath).addOccurrences f fun _ => Database.dropFacts_occurrences_ne).addSymbols h f
      fun _ => Database.dropFacts_symbols_ne (d := d.upsertFile f))
  have hedges : (d.replaceFacts h f).edges.rows =
      (d.edges.rows.filter fun e => !(e.sourceFile == f.relPath)) ++ new := hrows
  refine ⟨fun q hq => file?_upsert_ne hq, rfl, ?_, ?_, ?_, ?_,
    fun k hk => dropFacts_kept (d := d.upsertFile f) hk, ?_, rfl, rfl⟩
  · intro s hs
    obtain ⟨x, -, rfl⟩ := List.mem_map.mp hs
    rfl
  · rw [hedges]
    exact filter_replaced fun e he => (hnew e he).1
  · intro e he hpath
    rw [hedges] at he
    have hold : e ∈ d.edges.rows := by
      rcases List.mem_append.mp he with he | he
      · exact (List.mem_filter.mp he).1
      · exact absurd (hnew e he).1 hpath
    exact dropFacts_candidates (d := d.upsertFile f) hold hpath
  · intro e he hpath
    rw [hedges] at he
    rcases List.mem_append.mp he with he | he
    · exact absurd hpath (by simpa using (List.mem_filter.mp he).2)
    · exact (hnew e he).2
  · intro p hp hpath
    rcases List.mem_append.mp hp with hp | hp
    · exact (List.mem_filter.mp hp).1
    · obtain ⟨x, -, rfl⟩ := List.mem_map.mp hp
      exact absurd rfl hpath

theorem deleteFile_fst (path : String) (d : Database) :
    (deleteFile path d).1 =
      { d.dropFacts path with files := d.files.deleteWhere fun r => r.path == path } := by
  unfold deleteFile
  dsimp only
  split <;> rfl

theorem deleteFile_replaces (path : String) (d : Database) :
    Replaces path d (deleteFile path d).1 [] := by
  rw [deleteFile_fst]
  refine ⟨?_, (List.append_nil _).symm, fun _ hs => absurd hs List.not_mem_nil, ?_, ?_, ?_,
    fun _ hk => dropFacts_kept hk, fun _ hp _ => (List.mem_filter.mp hp).1, rfl, rfl⟩
  · intro q hq
    unfold Database.file?
    rw [Keyed.deleteWhere_rows, List.find?_filter]
    congr 1
    funext r
    cases hr : r.path == q with
    | false => simp
    | true =>
      rw [beq_iff_eq.mp hr]
      simpa using hq
  · exact (congrArg _ (List.append_nil _).symm).trans
      (filter_replaced fun _ he => absurd he List.not_mem_nil)
  · intro e he hpath
    exact dropFacts_candidates (List.mem_filter.mp he).1 hpath
  · intro e he hpath
    exact absurd hpath (by simpa using (List.mem_filter.mp he).2)

end Effects

section Housing

variable {path : String} {d d' : Database} {new : List SymbolRow}

theorem Replaces.hasFile_eq (h : Replaces path d d' new) {q : String} (hq : q ≠ path) :
    d'.hasFile q = d.hasFile q := congrArg Option.isSome (h.files q hq)

theorem Replaces.edge_mem (h : Replaces path d d' new) {e : EdgeRow} (he : e ∈ d'.edges.rows)
    (hpath : e.sourceFile ≠ path) : e ∈ d.edges.rows := by
  have hmem : e ∈ d'.edges.rows.filter fun e => e.sourceFile != path :=
    List.mem_filter.mpr ⟨he, bne_iff_ne.mpr hpath⟩
  rw [h.edges] at hmem
  exact (List.mem_filter.mp hmem).1

theorem Replaces.symbol_cases (h : Replaces path d d' new) {s : SymbolRow}
    (hs : s ∈ d'.symbols.rows) : s ∈ d.symbols.rows ∧ s.filePath ≠ path ∨ s ∈ new := by
  rw [h.symbols] at hs
  rcases List.mem_append.mp hs with hs | hs
  · obtain ⟨hmem, hpath⟩ := List.mem_filter.mp hs
    exact Or.inl ⟨hmem, by simpa using hpath⟩
  · exact Or.inr hs

/-- Replaced facts stay housed if the replaced file is there or nothing is left of it. -/
theorem Replaces.housed (h : Replaces path d d' new) (hd : Housed d)
    (hsymbols : ∀ s ∈ d'.symbols.rows, s.filePath = path → d'.hasFile path = true)
    (hedges : ∀ e ∈ d'.edges.rows, e.sourceFile = path → d'.hasFile path = true)
    (hpatterns : ∀ p ∈ d'.patterns, p.filePath = path → d'.hasFile path = true) : Housed d' where
  symbols s hs := by
    by_cases hpath : s.filePath = path
    · rw [hpath]
      exact hsymbols s hs hpath
    · rw [h.hasFile_eq hpath]
      rcases h.symbol_cases hs with ⟨hmem, -⟩ | hmem
      · exact hd.symbols s hmem
      · exact absurd (h.news s hmem) hpath
  edges e he := by
    by_cases hpath : e.sourceFile = path
    · rw [hpath]
      exact hedges e he hpath
    · rw [h.hasFile_eq hpath]
      exact hd.edges e (h.edge_mem he hpath)
  patterns p hp := by
    by_cases hpath : p.filePath = path
    · rw [hpath]
      exact hpatterns p hp hpath
    · rw [h.hasFile_eq hpath]
      exact hd.patterns p (h.patterns p hp hpath)

theorem Housed.replaceFacts (hd : Housed d) (h : Hashes) (f : FileFacts) :
    Housed (d.replaceFacts h f) := by
  have hfile : (d.replaceFacts h f).hasFile f.relPath = true := hasFile_upsert f d
  exact (replaceFacts_replaces h f d).housed hd (fun _ _ _ => hfile) (fun _ _ _ => hfile)
    fun _ _ _ => hfile

theorem Housed.writeFileFacts (hd : Housed d) (h : Hashes) (f : FileFacts) :
    Housed (writeFileFacts h f d).1 := by
  unfold Index.writeFileFacts
  split
  · exact hd
  · exact hd.replaceFacts h f

theorem Housed.deleteFile (hd : Housed d) (path : String) : Housed (deleteFile path d).1 := by
  refine (deleteFile_replaces path d).housed hd ?_ ?_ ?_ <;> rw [deleteFile_fst]
  · intro s hs hpath
    exact absurd hpath (by simpa using (List.mem_filter.mp hs).2)
  · intro e he hpath
    exact absurd hpath (by simpa using (List.mem_filter.mp he).2)
  · intro p hp hpath
    exact absurd hpath (by simpa using (List.mem_filter.mp hp).2)

theorem applyOp_fst (h : Hashes) (s : Database × ScanDelta) (op : FileOp) :
    (applyOp h s op).1 = match op with
      | .write f => (writeFileFacts h f s.1).1
      | .delete path => (deleteFile path s.1).1 := by
  unfold applyOp
  cases op with
  | write f => rfl
  | delete path =>
    dsimp only
    split
    · rename_i heq
      rw [heq]
    · rename_i heq
      rw [heq]

theorem Housed.applyOp {s : Database × ScanDelta} (hd : Housed s.1) (h : Hashes) (op : FileOp) :
    Housed (applyOp h s op).1 := by
  rw [applyOp_fst]
  cases op with
  | write f => exact hd.writeFileFacts h f
  | delete path => exact hd.deleteFile path

theorem Housed.applyOps (hd : Housed d) (h : Hashes) (ops : List FileOp) :
    Housed (applyOps h ops d).1 := by
  unfold Index.applyOps
  suffices hfold : ∀ s : Database × ScanDelta, Housed s.1 →
      Housed (ops.foldl (Index.applyOp h) s).1 from hfold (d, .empty) hd
  induction ops with
  | nil => exact fun _ hs => hs
  | cons op ops ih => exact fun s hs => ih _ (hs.applyOp h op)

theorem Housed.empty : Housed .empty :=
  ⟨fun _ hs => absurd hs List.not_mem_nil, fun _ he => absurd he List.not_mem_nil,
    fun _ hp => absurd hp List.not_mem_nil⟩

theorem Indexed.housed {h : Hashes} (hd : Indexed h d) : Housed d := by
  induction hd with
  | empty => exact .empty
  | full c ops _ ih => exact (ih.applyOps h ops).run c
  | incremental c ops _ ih => exact (ih.applyOps h ops).runIncremental c _

end Housing

end RemyCC.Index
