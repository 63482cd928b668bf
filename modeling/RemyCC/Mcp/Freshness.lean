import RemyCC.Rounding
import RemyCC.Text.Digest
import RemyCC.Index.Contents
import RemyCC.Index.Upkeep
import RemyCC.Index.Convergence

/-!
# The staleness probe

Where no commit can be compared, the server compares the digests of a few stored
files with those of the bytes on disk. The bytes are taken as they are, while the
scanner takes every line end for a line feed first.
-/

namespace RemyCC.Mcp

open Relational Text Index

section Sampling

variable {Row : Type} {r : Row}

def swap (pool : List Row) (i j : Nat) : List Row :=
  match pool[i]?, pool[j]? with
  | some a, some b => (pool.set i b).set j a
  | _, _ => pool

def nextState (state : Nat) : Nat := (state * 6364136223846793005 + 1442695040888963407) % 2 ^ 64

/-- Some of the rows from an index on, each swapped into its place. -/
def drawFrom : Nat → Nat → Nat → List Row → List Row
  | 0, _, _, _ => []
  | left + 1, i, state, pool =>
    let state := nextState state
    let pool := swap pool i (i + state / 2 ^ 33 % (pool.length - i))
    pool[i]?.toList ++ drawFrom left (i + 1) state pool

/-- Where a sample begins: the number in the environment, zero where it is none,
or the state that the clock gives. -/
inductive Draw where
  | seeded (seed : Int)
  | clock (state : Nat)

def comparePairs : String × String → String × String → Ordering :=
  compareLex (compareOn Prod.fst) (compareOn Prod.snd)

def sampleFiles (draw : Draw) (allFiles : List (String × String)) (sampleSize : Nat) :
    List (String × String) :=
  match draw with
  | .seeded seed =>
    let ordered := orderBy comparePairs allFiles
    let start := (seed % allFiles.length).toNat
    (List.range sampleSize).filterMap fun i => ordered[(start + i) % ordered.length]?
  | .clock state => drawFrom (min sampleSize allFiles.length) 0 state allFiles

/-- A tenth of the files, at least one and at most ten. Up to a hundred files the
product with the double nearest to a tenth has the ceiling of the exact one. -/
def sampleSize (count : Nat) : Nat := max 1 (min 10 ((count + 9) / 10))

theorem mem_of_mem_swap {pool : List Row} {i j : Nat} (h : r ∈ swap pool i j) : r ∈ pool := by
  unfold swap at h
  split at h
  · next a b ha hb =>
    rcases List.mem_or_eq_of_mem_set h with h | rfl
    · rcases List.mem_or_eq_of_mem_set h with h | rfl
      · exact h
      · exact List.mem_of_getElem? hb
    · exact List.mem_of_getElem? ha
  · exact h

theorem mem_of_mem_drawFrom {left i state : Nat} {pool : List Row}
    (h : r ∈ drawFrom left i state pool) : r ∈ pool := by
  induction left generalizing i state pool with
  | zero => cases h
  | succ left ih =>
    rw [drawFrom, List.mem_append] at h
    rcases h with h | h
    · exact mem_of_mem_swap (List.mem_of_getElem? (Option.mem_toList.mp h))
    · exact mem_of_mem_swap (ih h)

/-- A sample is of the rows that it is drawn from. -/
theorem mem_of_mem_sampleFiles {draw : Draw} {allFiles : List (String × String)} {size : Nat}
    {row : String × String} (h : row ∈ sampleFiles draw allFiles size) : row ∈ allFiles := by
  cases draw with
  | seeded seed =>
    obtain ⟨i, -, hi⟩ := List.mem_filterMap.mp h
    exact mem_orderBy.mp (List.mem_of_getElem? hi)
  | clock state => exact mem_of_mem_drawFrom h

end Sampling

section Probe

variable (md5Hex : ByteArray → String) (disk : String → FileState)

def mismatched (row : String × String) : Bool :=
  match disk row.1 with
  | .absent => true
  | .unreadable => true
  | .bytes bytes =>
    match String.fromUTF8? bytes with
    | some content => md5Hex content.toByteArray != row.2
    | none => true

def mismatches (sample : List (String × String)) : Nat := sample.countP (mismatched md5Hex disk)

def allFiles (d : Database) : List (String × String) := d.files.rows.map storedKey

/-- The files that the probe looks at. -/
def sampled (draw : Draw) (d : Database) : List (String × String) :=
  sampleFiles draw (allFiles d) (sampleSize (allFiles d).length)

/-- The last branch of `init_freshness`. -/
def samplingWarning (draw : Draw) (d : Database) : String :=
  if allFiles d = [] then ""
  else
    let sampleSize := sampleSize (allFiles d).length
    let mismatches := mismatches md5Hex disk (sampled draw d)
    let rate := Rounding.quotient mismatches sampleSize
    let counts := toString mismatches ++ "/" ++ toString sampleSize
    if 1 / 2 < rate then
      "[Warning: index may be stale — " ++ counts ++
        " sampled files differ. Run /remy-index to rebuild.]"
    else if Rounding.quotient 1 5 < rate then
      "[Warning: index may be stale — " ++ counts ++
        " sampled files differ. Consider running /remy-index.]"
    else ""

end Probe

section Agreement

variable {md5Hex : ByteArray → String} {h : Hashes} {d : Database} {held : Held}
  {disk : String → FileState} {draw : Draw}

theorem storedHash_of_sampled {row : String × String} (hrow : row ∈ sampled draw d) :
    storedHash d row.1 = some row.2 := by
  obtain ⟨r, hr, rfl⟩ := List.mem_map.mp (mem_of_mem_sampleFiles hrow)
  rw [storedHash, storedKey, file?_of_mem hr, Option.map_some]

/-- A readable file is counted where its text, as it is, is not the one stored. -/
theorem mismatched_iff (hmd5 : Function.Injective md5Hex) {path source text : String}
    {bytes : ByteArray} (hdisk : disk path = .bytes bytes)
    (htext : String.fromUTF8? bytes = some text) :
    mismatched md5Hex disk (path, structHash md5Hex source) = true ↔ text ≠ source := by
  simp only [mismatched, hdisk, htext, bne_iff_ne, ne_eq, structHash]
  refine not_congr ⟨fun heq => ?_, fun heq => by rw [heq]⟩
  exact String.toByteArray_inj.mp (hmd5 heq)

theorem decodeSource_idem {bytes : ByteArray} {source : String}
    (h : decodeSource bytes = some source) : translateNewlines source = source := by
  obtain ⟨text, -, rfl⟩ := Option.map_eq_some_iff.mp h
  exact translateNewlines_idem text

/-- Where all that is held is on disk, it is so after more operations of the same tree. -/
theorem note_disk {t : Tree} {held : Held} (ops : List FileOp)
    (hheld : ∀ path bytes, held path = some bytes → t.disk path = .bytes bytes) {path : String}
    {bytes : ByteArray} (hnote : ops.foldl t.note held path = some bytes) :
    t.disk path = .bytes bytes := by
  induction ops generalizing held with
  | nil => exact hheld path bytes hnote
  | cons op ops ih =>
    refine ih (fun path bytes hop => ?_) hnote
    cases op with
    | write f =>
      simp only [Tree.note] at hop
      split at hop
      · rw [Tree.bytesAt] at hop
        split at hop
        · next bytes' hdisk =>
          cases hop
          exact hdisk
        · cases hop
      · exact hheld path bytes hop
    | delete q =>
      simp only [Tree.note] at hop
      split at hop
      · cases hop
      · exact hheld path bytes hop

/-- A sampled file, its stored text and what is stored of it. -/
theorem sampled_stored (hs : Scanned md5Hex h d held) {row : String × String}
    (hrow : row ∈ sampled draw d) :
    ∃ bytes source, held row.1 = some bytes ∧ decodeSource bytes = some source ∧
      row = (row.1, structHash md5Hex source) := by
  obtain ⟨bytes, source, hheld, hsource, hhash⟩ :=
    hs.stored row.1 row.2 (storedHash_of_sampled hrow)
  exact ⟨bytes, source, hheld, hsource, by rw [← hhash]⟩

theorem hasFile_of_sampled {row : String × String} (hrow : row ∈ sampled draw d) :
    d.hasFile row.1 = true := by
  have hhash := storedHash_of_sampled hrow
  rw [storedHash] at hhash
  rw [Database.hasFile]
  cases hfile : d.file? row.1 with
  | none =>
    rw [hfile] at hhash
    cases hhash
  | some r => rfl

/-- The text of a sampled file is the stored one, or the file is rightly counted or not. -/
theorem counted_iff (hmd5 : Function.Injective md5Hex) (hs : Scanned md5Hex h d held)
    {row : String × String} (hrow : row ∈ sampled draw d) {bytes : ByteArray} {text : String}
    (hdisk : disk row.1 = .bytes bytes) (htext : String.fromUTF8? bytes = some text) :
    (mismatched md5Hex disk row = true ↔
        (held row.1).bind decodeSource ≠ some (translateNewlines text)) ↔
      '\r' ∉ text.toList ∨ (held row.1).bind decodeSource ≠ some (translateNewlines text) := by
  obtain ⟨stored, source, hheld, hsource, hrowEq⟩ := sampled_stored hs hrow
  have hcounted : mismatched md5Hex disk row = true ↔ text ≠ source := by
    rw [hrowEq]
    exact mismatched_iff hmd5 hdisk htext
  have hsome : some source ≠ some (translateNewlines text) ↔ source ≠ translateNewlines text :=
    not_congr Option.some_inj
  rw [hcounted, hheld, Option.bind_some, hsource, hsome, ← translateNewlines_eq_iff]
  have hidem := decodeSource_idem hsource
  constructor
  · intro hiff
    by_cases hplain : translateNewlines text = text
    · exact .inl hplain
    · refine .inr fun hsame => hiff.mp ?_ hsame
      intro htext
      exact hplain (by rw [← hsame, htext])
  · rintro (hplain | hdiffers)
    · rw [hplain]
      exact ne_comm
    · refine ⟨fun _ => hdiffers, fun _ htext => hdiffers ?_⟩
      rw [htext, hidem]

theorem mismatches_eq_zero_iff {sample : List (String × String)} :
    mismatches md5Hex disk sample = 0 ↔ ∀ row ∈ sample, mismatched md5Hex disk row = false := by
  rw [mismatches, List.countP_eq_zero]
  simp

theorem quotient_zero (size : Nat) : Rounding.quotient 0 size = 0 := by
  unfold Rounding.quotient
  split
  · rfl
  · simp [Rounding.roundHalfEven]

/-- Without mismatches the probe says nothing. -/
theorem samplingWarning_silent (h : mismatches md5Hex disk (sampled draw d) = 0) :
    samplingWarning md5Hex disk draw d = "" := by
  have hhalf : ¬ (1 / 2 : Rat) < 0 := by decide +kernel
  have hfifth : ¬ Rounding.quotient 1 5 < 0 := by decide +kernel
  unfold samplingWarning
  split
  · rfl
  · simp only [h, quotient_zero, if_neg hhalf, if_neg hfifth]

end Agreement

section Samples

open Discovery

def dump (bytes : ByteArray) : String :=
  String.ofList ('-' :: bytes.data.toList.map fun b => Char.ofNat b.toNat)

theorem dump_injective : Function.Injective dump := by
  have htoNat (b : UInt8) : (Char.ofNat b.toNat).toNat = b.toNat := by
    have hb := b.toNat_lt
    have hvalid : b.toNat.isValidChar := .inl (by omega)
    rw [Char.ofNat, dif_pos hvalid]
    rfl
  have hchar : Function.Injective fun b : UInt8 => Char.ofNat b.toNat := by
    intro b b' h
    rw [← UInt8.toNat_inj, ← htoNat b, ← htoNat b']
    exact congrArg Char.toNat h
  intro a b h
  have hlists := List.cons.inj (String.ofList_injective h)
  have hdata := List.map_injective_iff.mpr hchar hlists.2
  exact ByteArray.ext (Array.toList_inj.mp hdata)

theorem dump_ne {digest : String} (h : digest.toList.head? ≠ some '-') (bytes : ByteArray) :
    dump bytes ≠ digest := by
  intro heq
  rw [← heq, dump, String.toList_ofList] at h
  exact h rfl

/-- The digests of two files. -/
def sampleMd5 : ByteArray → String :=
  @known ByteArray ByteArray.instDecidableEq "int x;\n".toByteArray
    "06c25fe0c80b8959051a62f8f034710a"
    (@known ByteArray ByteArray.instDecidableEq "int x;\r\n".toByteArray
      "8a331dae059345e8091e179c94212d51" dump)

theorem sampleMd5_injective : Function.Injective sampleMd5 :=
  known_injective (known_injective dump_injective (dump_ne (by decide)))
    (known_ne (by decide) (dump_ne (by decide)))

theorem sampleC_slashless : '/' ∉ "a.c".toList := by decide

theorem sampleC_notDot : "a.c" ≠ "." := by decide

def parseNothing (_ : Language) (_ rel : String) (hrel : rel ≠ "") : FileFacts where
  relPath := rel
  structHash := ""
  languageId := "c_cpp"
  layer := ""
  importsJson := "[]"
  importBindingsJson := "[]"
  identity := ⟨"1", "tree-sitter", "\x7b\x7d"⟩
  canonicalSymbols := []
  occurrences := []
  edges := []
  patterns := []
  named := hrel
  canonical := .nil
  indexed := .nil

theorem parseNothing_relPath (language : Language) (source rel : String) (hrel : rel ≠ "") :
    (parseNothing language source rel hrel).relPath = rel := rfl

/-- One file that is as it is given, with nothing excluded. -/
def oneSource (text : String) : Tree where
  normcase := id
  config := ⟨[]⟩
  root := [(⟨"a.c", sampleC_slashless, sampleC_notDot⟩, .file)]
  disk := fun rel => if rel = "a.c" then .bytes text.toByteArray else .absent
  parseFile := parseNothing
  parseFile_relPath := parseNothing_relPath
  identityCandidates := fun _ _ => [⟨"1", "tree-sitter", "\x7b\x7d"⟩]

def oneDelivered (text : String) : List FileOutcome :=
  ((oneSource text).sources sampleMd5).discover.map ((oneSource text).sources sampleMd5).parseOne

def oneIndex (text : String) : Database :=
  scanFull plainHashes ((oneSource text).sources sampleMd5) .default (oneDelivered text) .empty

def oneHeld (text : String) : Held :=
  (scanFullOps plainHashes ((oneSource text).sources sampleMd5) (oneDelivered text) .empty).foldl
    (oneSource text).note fun _ => none

theorem oneIndex_scanned (text : String) :
    Scanned sampleMd5 plainHashes (oneIndex text) (oneHeld text) :=
  .full _ _ _ .empty (.refl _)

theorem oneIndex_sampled (text : String) (htext : text = "int x;\n" ∨ text = "int x;\r\n") :
    sampled (.seeded 0) (oneIndex text) = [("a.c", "06c25fe0c80b8959051a62f8f034710a")] := by
  rcases htext with rfl | rfl <;> decide +kernel

theorem oneHeld_disk {text path : String} {bytes : ByteArray}
    (hheld : oneHeld text path = some bytes) : (oneSource text).disk path = .bytes bytes :=
  note_disk _ (fun _ _ hnone => by cases hnone) hheld

end Samples

end RemyCC.Mcp
