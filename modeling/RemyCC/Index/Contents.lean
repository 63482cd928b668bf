import RemyCC.Index.Listing

/-!
# The contents of files

A scan decodes the bytes of a file, takes every line end for a line feed and
stores the digest of the text. What the last write of a stored row read is kept
beside the index.
-/

namespace RemyCC.Index

open Relational Text Discovery

section Hashing

def translate : List Char → List Char
  | [] => []
  | '\r' :: '\n' :: rest => '\n' :: translate rest
  | '\r' :: rest => '\n' :: translate rest
  | c :: rest => c :: translate rest

def translateNewlines (text : String) : String := String.ofList (translate text.toList)

def decodeSource (bytes : ByteArray) : Option String :=
  (String.fromUTF8? bytes).map translateNewlines

def structHash (md5Hex : ByteArray → String) (source : String) : String :=
  md5Hex source.toByteArray

theorem translate_plain {cs : List Char} (h : '\r' ∉ cs) : translate cs = cs := by
  induction cs with
  | nil => rfl
  | cons c cs ih =>
    rw [List.mem_cons, not_or] at h
    rw [translate, ih h.2]
    · exact fun rest hc => absurd hc.symm h.1
    · exact fun hc => absurd hc.symm h.1

theorem return_not_mem_translate (cs : List Char) : '\r' ∉ translate cs := by
  fun_induction translate cs with
  | case1 => simp
  | case2 rest ih => simpa using ih
  | case3 rest h ih => simpa using ih
  | case4 c rest h h' ih =>
    have hc : '\r' ≠ c := fun hc => h' hc.symm
    simpa using ⟨hc, ih⟩

theorem translateNewlines_eq_iff (text : String) :
    translateNewlines text = text ↔ '\r' ∉ text.toList := by
  refine ⟨fun h => ?_, fun h => ?_⟩
  · rw [← h, translateNewlines, String.toList_ofList]
    exact return_not_mem_translate _
  · rw [translateNewlines, translate_plain h, String.ofList_toList]

theorem translateNewlines_idem (text : String) :
    translateNewlines (translateNewlines text) = translateNewlines text := by
  rw [translateNewlines_eq_iff, translateNewlines, String.toList_ofList]
  exact return_not_mem_translate _

end Hashing

section Trees

inductive FileState where
  | absent
  | unreadable
  | bytes (bytes : ByteArray)

/-- What stands below the root while a scan runs, and its parsers. -/
structure Tree where
  normcase : String → String
  config : ScanConfig
  root : List (Name × Entry)
  disk : String → FileState
  parseFile : Language → String → (rel : String) → rel ≠ "" → FileFacts
  parseFile_relPath : ∀ language source rel hrel,
    (parseFile language source rel hrel).relPath = rel
  identityCandidates : Language → String → List CacheIdentity

variable (md5Hex : ByteArray → String) (t : Tree)

def Tree.factsOf (language : Language) (source rel : String) (hrel : rel ≠ "") : FileFacts :=
  { t.parseFile language source rel hrel with structHash := structHash md5Hex source }

def unableToRead (rel : String) : FileOutcome :=
  .failed rel ("Unable to read source file: " ++ rel)

def Tree.parseOne (rel : String) : FileOutcome :=
  match t.disk rel with
  | .absent => unableToRead rel
  | .unreadable => unableToRead rel
  | .bytes bytes =>
    match decodeSource bytes with
    | none => unableToRead rel
    | some source =>
      if hrel : rel = "" then unableToRead rel
      else
        match Language.resolve (lastPart '/' rel) with
        | none => .failed rel ("No parser handles source file: " ++ rel)
        | some language => .facts (t.factsOf md5Hex language source rel hrel)

def Tree.existsAt (rel : String) : Bool :=
  match t.disk rel with
  | .absent => false
  | _ => true

theorem Tree.parseOne_cases (rel : String) :
    (∃ message, t.parseOne md5Hex rel = .failed rel message) ∨
      ∃ bytes source language, ∃ hrel : rel ≠ "", t.disk rel = .bytes bytes ∧
        decodeSource bytes = some source ∧
        t.parseOne md5Hex rel = .facts (t.factsOf md5Hex language source rel hrel) := by
  unfold Tree.parseOne
  split
  · exact .inl ⟨_, rfl⟩
  · exact .inl ⟨_, rfl⟩
  · next bytes hdisk =>
    split
    · exact .inl ⟨_, rfl⟩
    · next source hsource =>
      split
      · exact .inl ⟨_, rfl⟩
      · next hrel =>
        split
        · exact .inl ⟨_, rfl⟩
        · next language hlanguage =>
          exact .inr ⟨bytes, source, language, hrel, hdisk, hsource, rfl⟩

theorem Tree.parseOne_relPath (rel : String) : (t.parseOne md5Hex rel).relPath = rel := by
  obtain ⟨message, h⟩ | ⟨bytes, source, language, hrel, -, -, h⟩ := t.parseOne_cases md5Hex rel
  · rw [h, FileOutcome.relPath]
  · rw [h, FileOutcome.relPath]
    exact t.parseFile_relPath language source rel hrel

theorem Tree.existsAt_of_facts (rel : String) (f : FileFacts)
    (h : t.parseOne md5Hex rel = .facts f) : t.existsAt rel = true := by
  obtain ⟨message, h'⟩ | ⟨bytes, source, language, hrel, hdisk, -, -⟩ := t.parseOne_cases md5Hex rel
  · rw [h'] at h
    cases h
  · rw [Tree.existsAt, hdisk]

def Tree.sources : Sources where
  normcase := t.normcase
  config := t.config
  root := t.root
  existsAt := t.existsAt
  parseOne := t.parseOne md5Hex
  identityCandidates := t.identityCandidates
  parseOne_relPath := t.parseOne_relPath md5Hex
  existsAt_of_facts := t.existsAt_of_facts md5Hex

end Trees

section Histories

/-- The bytes that the last write of each stored file has read. -/
abbrev Held := String → Option ByteArray

def Tree.bytesAt (t : Tree) (rel : String) : Option ByteArray :=
  match t.disk rel with
  | .bytes bytes => some bytes
  | _ => none

def Tree.note (t : Tree) (held : Held) : FileOp → Held
  | .write f => fun path => if path = f.relPath then t.bytesAt path else held path
  | .delete q => fun path => if path = q then none else held path

/-- The indexes that the committed scans of a sequence of trees lead to. A rebuild
starts anew. -/
inductive Scanned (md5Hex : ByteArray → String) (h : Hashes) : Database → Held → Prop
  | empty : Scanned md5Hex h .empty fun _ => none
  | full {d : Database} {held : Held} (t : Tree) (c : PostprocessConfig)
      (delivered : List FileOutcome) (hs : Scanned md5Hex h d held)
      (hdelivers : Delivers (t.sources md5Hex) (t.sources md5Hex).discover delivered) :
      Scanned md5Hex h (scanFull h (t.sources md5Hex) c delivered d)
        ((scanFullOps h (t.sources md5Hex) delivered d).foldl t.note held)
  | files {d : Database} {held : Held} (t : Tree) (c : PostprocessConfig)
      (requested : List String) (delivered : List FileOutcome) (hs : Scanned md5Hex h d held)
      (hdelivers : Delivers (t.sources md5Hex) (toParse h (t.sources md5Hex) requested d)
        delivered) :
      Scanned md5Hex h (scanFiles h (t.sources md5Hex) c requested delivered d)
        ((scanFilesOps h (t.sources md5Hex) requested delivered d).foldl t.note held)

end Histories

section Stored

variable {md5Hex : ByteArray → String} {h : Hashes} {d : Database} {held : Held} {path : String}

def storedHash (d : Database) (path : String) : Option String :=
  (d.file? path).map FileRow.structHash

/-- Each stored digest is that of the text that the bytes of its last write are decoded to. -/
def Stored (md5Hex : ByteArray → String) (d : Database) (held : Held) : Prop :=
  ∀ path hash, storedHash d path = some hash →
    ∃ bytes source, held path = some bytes ∧ decodeSource bytes = some source ∧
      hash = structHash md5Hex source

def storedKey (r : FileRow) : String × String := (r.path, r.structHash)

theorem storedHash_eq_find? (d : Database) (path : String) :
    storedHash d path =
      ((d.files.rows.map storedKey).find? fun k => k.1 == path).map Prod.snd := by
  rw [storedHash, Database.file?, List.find?_map, Option.map_map]
  rfl

theorem storedHash_of_keys {d d' : Database}
    (hkeys : d'.files.rows.map storedKey = d.files.rows.map storedKey) (path : String) :
    storedHash d' path = storedHash d path := by
  rw [storedHash_eq_find?, storedHash_eq_find?, hkeys]

theorem computeFileKindsFor_keys (c : PostprocessConfig) (paths : List String) (d : Database) :
    (computeFileKindsFor c paths d).files.rows.map storedKey = d.files.rows.map storedKey := by
  unfold computeFileKindsFor
  rw [Keyed.update_rows, List.map_map]
  refine List.map_congr_left fun r _ => ?_
  rw [Function.comp_apply]
  split <;> rfl

theorem run_storedHash (c : PostprocessConfig) (d : Database) (path : String) :
    storedHash (run c d) path = storedHash d path := by
  refine storedHash_of_keys ?_ path
  unfold run detectClusters computeFileKinds
  rw [detectClustersFor_files, computeFileKindsFor_keys, (resynthesize_same c _).files,
    (resolveFull_same d).files]

theorem runIncremental_storedHash (c : PostprocessConfig) (delta : ScanDelta) (d : Database)
    (path : String) : storedHash (runIncremental c delta d) path = storedHash d path := by
  refine storedHash_of_keys ?_ path
  unfold runIncremental
  rw [detectClustersFor_files, computeFileKindsFor_keys, (resynthesize_same c _).files,
    (resolveTargets_same delta d).files]

theorem storedHash_unchanged {f : FileFacts} (hf : fileUnchanged f d = true) :
    storedHash d f.relPath = some f.structHash := by
  unfold fileUnchanged at hf
  rw [storedHash]
  split at hf
  · next r hr =>
    rw [Bool.and_eq_true, beq_iff_eq] at hf
    rw [hr, Option.map_some, hf.1]
  · cases hf

theorem storedHash_upsert (f : FileFacts) (d : Database) :
    storedHash (d.upsertFile f) f.relPath = some f.structHash := by
  have hfind := Keyed.find?_upsert f.editRow_path f.newRow_path d.files f.relPath
  rw [if_pos rfl] at hfind
  have hfile : (d.upsertFile f).file? f.relPath =
      some (((d.files.rows.find? fun r => FileRow.path r = f.relPath).map f.editRow).getD
        f.newRow) := by
    rw [← hfind]
    simp only [Database.file?, Database.upsertFile, beq_eq_decide]
  rw [storedHash, hfile, Option.map_some]
  cases d.files.rows.find? fun r => FileRow.path r = f.relPath <;> rfl

/-- A write leaves the digest of its facts for its path and no other. -/
theorem writeFileFacts_storedHash (h : Hashes) (f : FileFacts) (d : Database) (path : String) :
    storedHash (writeFileFacts h f d).1 path =
      if path = f.relPath then some f.structHash else storedHash d path := by
  unfold writeFileFacts
  split
  · next hunchanged =>
    split
    · next hpath =>
      rw [hpath]
      exact storedHash_unchanged hunchanged
    · rfl
  · split
    · next hpath =>
      rw [hpath]
      exact storedHash_upsert f d
    · next hpath =>
      rw [storedHash, (replaceFacts_replaces h f d).files path hpath]
      rfl

theorem deleteFile_storedHash (q : String) (d : Database) (path : String) :
    storedHash (deleteFile q d).1 path = if path = q then none else storedHash d path := by
  split
  · next hpath =>
    have hnone : (deleteFile q d).1.file? q = none := by
      rw [deleteFile_fst, Database.file?]
      refine List.find?_eq_none.mpr fun r hr => ?_
      have hne := (List.mem_filter.mp hr).2
      simpa using hne
    rw [hpath, storedHash, hnone, Option.map_none]
  · next hpath =>
    rw [storedHash, (deleteFile_replaces q d).files path hpath]
    rfl

/-- The facts that a scan writes are those of the files that it has read. -/
def Tree.Written (md5Hex : ByteArray → String) (t : Tree) (op : FileOp) : Prop :=
  ∀ f, op = .write f → ∃ rel, t.parseOne md5Hex rel = .facts f

theorem Stored.applyOp {t : Tree} (hstored : Stored md5Hex d held) (delta : ScanDelta)
    {op : FileOp} (hop : t.Written md5Hex op) :
    Stored md5Hex (Index.applyOp h (d, delta) op).1 (t.note held op) := by
  intro path hash hhash
  cases op with
  | write f =>
    change storedHash (writeFileFacts h f d).1 path = some hash at hhash
    rw [writeFileFacts_storedHash] at hhash
    simp only [Tree.note]
    split at hhash
    · next hpath =>
      obtain ⟨rel, hrel⟩ := hop f rfl
      obtain ⟨message, h'⟩ | ⟨bytes, source, language, hne, hdisk, hsource, h'⟩ :=
        t.parseOne_cases md5Hex rel
      · rw [h'] at hrel
        cases hrel
      · rw [h', FileOutcome.facts.injEq] at hrel
        have hpathOf : f.relPath = rel := by
          rw [← hrel]
          exact t.parseFile_relPath language source rel hne
        have hhashOf : f.structHash = structHash md5Hex source := by rw [← hrel]; rfl
        refine ⟨bytes, source, ?_, hsource, ?_⟩
        · rw [if_pos hpath, hpath, hpathOf, Tree.bytesAt, hdisk]
        · rw [← hhashOf]
          exact (Option.some.inj hhash).symm
    · next hpath =>
      rw [if_neg hpath]
      exact hstored path hash hhash
  | delete q =>
    have hfst : (Index.applyOp h (d, delta) (.delete q)).1 = (deleteFile q d).1 := by
      unfold Index.applyOp
      dsimp only
      split <;> simp [*]
    rw [hfst, deleteFile_storedHash] at hhash
    simp only [Tree.note]
    split at hhash
    · cases hhash
    · next hpath =>
      rw [if_neg hpath]
      exact hstored path hash hhash

theorem Stored.applyOps {t : Tree} {ops : List FileOp} (hops : ∀ op ∈ ops, t.Written md5Hex op)
    (s : Database × ScanDelta) (hstored : Stored md5Hex s.1 held) :
    Stored md5Hex (ops.foldl (Index.applyOp h) s).1 (ops.foldl t.note held) := by
  induction ops generalizing s held with
  | nil => exact hstored
  | cons op ops ih =>
    obtain ⟨hop, hrest⟩ := List.forall_mem_cons.mp hops
    exact ih hrest _ (hstored.applyOp s.2 hop)

theorem Tree.written_delivered {t : Tree} {paths : List String} {delivered : List FileOutcome}
    (hdelivers : Delivers (t.sources md5Hex) paths delivered) :
    ∀ op ∈ delivered.filterMap FileOutcome.op?, t.Written md5Hex op := by
  intro op hop f hf
  rw [hf] at hop
  obtain ⟨outcome, houtcome, hwrite⟩ := List.mem_filterMap.mp hop
  obtain ⟨rel, -, hrel⟩ := List.mem_map.mp (hdelivers.mem_iff.mp houtcome)
  refine ⟨rel, ?_⟩
  cases outcome with
  | failed rel message => cases hwrite
  | facts g =>
    cases hwrite
    exact hrel

theorem Tree.written_deletes (t : Tree) (paths : List String) :
    ∀ op ∈ paths.map FileOp.delete, t.Written md5Hex op := by
  intro op hop f hf
  obtain ⟨q, -, hq⟩ := List.mem_map.mp hop
  rw [hf] at hq
  cases hq

/-- Through all scans, the stored digests are those of the texts last read. -/
theorem Scanned.stored (hs : Scanned md5Hex h d held) : Stored md5Hex d held := by
  induction hs with
  | empty =>
    intro path hash hhash
    cases hhash
  | full t c delivered hs hdelivers ih =>
    intro path hash hhash
    unfold scanFull scanFully at hhash
    rw [run_storedHash] at hhash
    refine Stored.applyOps (fun op hop => ?_) (_, .empty) ih path hash hhash
    rcases List.mem_append.mp hop with hop | hop
    · exact Tree.written_delivered hdelivers op hop
    · exact t.written_deletes _ op hop
  | files t c requested delivered hs hdelivers ih =>
    intro path hash hhash
    unfold scanFiles scanIncrementally at hhash
    rw [runIncremental_storedHash] at hhash
    refine Stored.applyOps (fun op hop => ?_) (_, .empty) ih path hash hhash
    rw [scanFilesOps, List.mem_append, List.mem_append] at hop
    rcases hop with (hop | hop) | hop
    · exact t.written_deletes _ op hop
    · exact t.written_deletes _ op hop
    · exact Tree.written_delivered hdelivers op hop

end Stored

end RemyCC.Index
