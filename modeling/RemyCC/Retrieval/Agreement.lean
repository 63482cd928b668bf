import RemyCC.Retrieval.Readers

/-!
# Where the readers of summaries agree

The answer is that of the newest row that is stale or holds texts. The two Rust
readers always give it, the Python one as long as it takes the rows it comes to
for what they take them for.
-/

namespace RemyCC.Retrieval

open Relational Python

variable {fromStr : String → Option Json.Value} {limits : Limits} {rows added : List VersionRow}
  {r : VersionRow}

section Newest

/-- A stale row, or one with texts. -/
def VersionRow.stops (fromStr : String → Option Json.Value) (r : VersionRow) : Bool :=
  r.stale || (r.read fromStr).isSome

def textsOf : Option (String × Option String) → Option String × Option String
  | some (short, full) => (some short, full)
  | none => (none, none)

/-- No texts where the newest row that is stale or holds some is stale or absent, and
otherwise those of that row. -/
def Answers (fromStr : String → Option Json.Value) (rows : List VersionRow)
    (answer : Option String × Option String) : Prop :=
  ((∀ r ∈ rows, r.stops fromStr = false) ∧ answer = (none, none)) ∨
    ∃ r ∈ rows, r.stops fromStr = true ∧
      (∀ r' ∈ rows, r'.stops fromStr = true → r'.version ≤ r.version) ∧
      answer = if r.stale then (none, none) else textsOf (r.read fromStr)

def newest (fromStr : String → Option Json.Value) (rows : List VersionRow) : Option VersionRow :=
  (newestFirst rows).find? (VersionRow.stops fromStr)

theorem newestFirst_pairwise (rows : List VersionRow) :
    (newestFirst rows).Pairwise fun a b => b.version ≤ a.version := by
  have htotal : Std.Total fun a b : VersionRow => (compare b.version a.version).isLE = true :=
    ⟨fun a b => by
      simp only [Nat.isLE_compare]
      exact Nat.le_total b.version a.version⟩
  have htrans : IsTrans VersionRow fun a b => (compare b.version a.version).isLE = true :=
    ⟨fun a b c hab hbc => by
      simp only [Nat.isLE_compare] at hab hbc ⊢
      exact hbc.trans hab⟩
  refine (List.pairwise_insertionSort (fun a b : VersionRow =>
    (compare b.version a.version).isLE = true) rows).imp fun {a b} hab => ?_
  exact Nat.isLE_compare.mp hab

theorem mem_newestFirst : r ∈ newestFirst rows ↔ r ∈ rows := mem_orderBy

theorem newest_some (h : newest fromStr rows = some r) :
    r ∈ rows ∧ r.stops fromStr = true ∧
      ∀ r' ∈ rows, r'.stops fromStr = true → r'.version ≤ r.version := by
  refine ⟨mem_newestFirst.mp (List.mem_of_find?_eq_some h), List.find?_some h, fun r' hr' hstops => ?_⟩
  obtain ⟨-, before, after, hsplit, hbefore⟩ := List.find?_eq_some_iff_append.mp h
  have hpairwise := newestFirst_pairwise rows
  rw [← mem_newestFirst, hsplit] at hr'
  rw [hsplit, List.pairwise_append, List.pairwise_cons] at hpairwise
  rcases List.mem_append.mp hr' with hold | hrest
  · have hpassed := hbefore r' hold
    rw [hstops] at hpassed
    exact Bool.noConfusion hpassed
  · rcases List.mem_cons.mp hrest with rfl | hlater
    · exact le_rfl
    · exact hpairwise.2.1.1 r' hlater

theorem newest_none (h : newest fromStr rows = none) : ∀ r ∈ rows, r.stops fromStr = false :=
  fun r hr => Bool.eq_false_iff.mpr (List.find?_eq_none.mp h r (mem_newestFirst.mpr hr))

def VersionRow.current (fromStr : String → Option Json.Value) (r : VersionRow) : CurrentSummary :=
  if r.stale then .default
  else match r.read fromStr with
    | some (short, full) => ⟨some r.id, some r.version, some short, full⟩
    | none => .default

theorem current_of_stale (h : r.stale = true) : r.current fromStr = .default := if_pos h

theorem current_of_read {texts : String × Option String} (h : r.stale = false)
    (hread : r.read fromStr = some texts) :
    r.current fromStr = ⟨some r.id, some r.version, some texts.1, texts.2⟩ := by
  rw [VersionRow.current, h, if_neg Bool.false_ne_true, hread]

theorem stops_cases (h : r.stops fromStr = true) :
    r.stale = true ∨ r.stale = false ∧ ∃ texts, r.read fromStr = some texts := by
  cases hstale : r.stale with
  | true => exact .inl rfl
  | false =>
    rw [VersionRow.stops, hstale, Bool.false_or, Option.isSome_iff_exists] at h
    exact .inr ⟨rfl, h⟩

theorem selectScanned_find (rows : List VersionRow) : selectScanned fromStr rows =
    ((rows.find? (VersionRow.stops fromStr)).map (VersionRow.current fromStr)).getD .default := by
  induction rows with
  | nil => rfl
  | cons r rows ih =>
    rw [selectScanned]
    cases hstale : r.stale with
    | true =>
      rw [List.find?_cons_of_pos (by rw [VersionRow.stops, hstale, Bool.true_or]), if_pos rfl]
      exact (current_of_stale hstale).symm
    | false =>
      rw [if_neg Bool.false_ne_true]
      cases hread : r.read fromStr with
      | none =>
        rw [List.find?_cons_of_neg (by rw [VersionRow.stops, hstale, hread]; decide)]
        exact ih
      | some texts =>
        rw [List.find?_cons_of_pos (by rw [VersionRow.stops, hstale, hread]; rfl)]
        exact (current_of_read hstale hread).symm

end Newest

section Answers

def currentTexts (fromStr : String → Option Json.Value) (rows : List VersionRow) :
    Option String × Option String :=
  ((selectCurrent fromStr rows).short, (selectCurrent fromStr rows).full)

def Summary.texts (s : Summary) : Option String × Option String := (s.short, s.full)

def latestTexts (fromStr : String → Option Json.Value) (rows : List VersionRow) :
    Option String × Option String :=
  ((getLatestSummary fromStr rows).map Summary.texts).getD (none, none)

theorem selectLatest_texts (status : Option String) (rows : List VersionRow) :
    ((selectLatest fromStr status rows).map Summary.texts).getD (none, none) =
      ((selectScanned fromStr rows).short, (selectScanned fromStr rows).full) := by
  induction rows with
  | nil => cases status <;> rfl
  | cons r rows ih =>
    rw [selectLatest, selectScanned]
    split
    · rfl
    · cases hread : r.read fromStr with
      | none => exact ih
      | some texts => rfl

/-- The two Rust readers are one. -/
theorem latestTexts_eq (rows : List VersionRow) :
    latestTexts fromStr rows = currentTexts fromStr rows := selectLatest_texts _ (newestFirst rows)

theorem selectCurrent_eq (rows : List VersionRow) : selectCurrent fromStr rows =
    ((newest fromStr rows).map (VersionRow.current fromStr)).getD .default :=
  selectScanned_find (newestFirst rows)

theorem selectCurrent_cases (fromStr : String → Option Json.Value)
    (rows : List VersionRow) :
    (newest fromStr rows = none ∧ selectCurrent fromStr rows = .default) ∨
      ∃ r, newest fromStr rows = some r ∧ selectCurrent fromStr rows = r.current fromStr := by
  rw [selectCurrent_eq]
  cases newest fromStr rows with
  | none => exact .inl ⟨rfl, rfl⟩
  | some r => exact .inr ⟨r, rfl, rfl⟩

theorem currentTexts_answers (fromStr : String → Option Json.Value)
    (rows : List VersionRow) :
    Answers fromStr rows (currentTexts fromStr rows) := by
  unfold currentTexts
  rcases selectCurrent_cases fromStr rows with ⟨hnone, h⟩ | ⟨r, hnewest, h⟩
  · rw [h]
    exact .inl ⟨newest_none hnone, rfl⟩
  · obtain ⟨hr, hstops, hmost⟩ := newest_some hnewest
    refine .inr ⟨r, hr, hstops, hmost, ?_⟩
    rw [h]
    rcases stops_cases hstops with hstale | ⟨hstale, texts, hread⟩
    · rw [current_of_stale hstale, hstale, if_pos rfl]
      rfl
    · rw [current_of_read hstale hread, hstale, if_neg Bool.false_ne_true, hread]
      rfl

/-- The row that is current, where there is one. -/
theorem selectCurrent_id {summaryId : Nat} (h : (selectCurrent fromStr rows).id = some summaryId) :
    ∃ r, newest fromStr rows = some r ∧ r.id = summaryId ∧
      (selectCurrent fromStr rows).version = some r.version := by
  rcases selectCurrent_cases fromStr rows with ⟨-, hcurrent⟩ | ⟨r, hnewest, hcurrent⟩
  · rw [hcurrent] at h
    cases h
  · rw [hcurrent] at h ⊢
    rcases stops_cases (newest_some hnewest).2.1 with hstale | ⟨hstale, texts, hread⟩
    · rw [current_of_stale hstale] at h
      cases h
    · rw [current_of_read hstale hread] at h ⊢
      exact ⟨r, hnewest, Option.some.inj h, rfl⟩

/-- Where no row is current the newest one that stops is stale. -/
theorem selectCurrent_noId (h : (selectCurrent fromStr rows).id = none) :
    (selectCurrent fromStr rows).version = none ∧
      ∀ r, newest fromStr rows = some r → r.stale = true := by
  rcases selectCurrent_cases fromStr rows with ⟨hnone, hcurrent⟩ | ⟨r, hnewest, hcurrent⟩
  · rw [hcurrent, hnone]
    exact ⟨rfl, fun r hr => by cases hr⟩
  · rw [hcurrent] at h ⊢
    rcases stops_cases (newest_some hnewest).2.1 with hstale | ⟨hstale, texts, hread⟩
    · rw [current_of_stale hstale]
      exact ⟨rfl, fun r' hr' => Option.some.inj (hnewest.symm.trans hr') ▸ hstale⟩
    · rw [current_of_read hstale hread] at h
      cases h

end Answers

section Marked

/-- A row above the one that was current, or any row where none was. -/
def Higher (fromStr : String → Option Json.Value) (rows : List VersionRow) (r : VersionRow) : Prop :=
  ∀ version, (selectCurrent fromStr rows).version = some version → version < r.version

theorem markCurrentStale_versions (rows : List VersionRow) :
    (markCurrentStale fromStr rows).map VersionRow.version = rows.map VersionRow.version := by
  unfold markCurrentStale
  split
  · rfl
  · rw [List.map_map]
    refine List.map_congr_left fun r _ => ?_
    rw [Function.comp_apply]
    split <;> rfl

/-- Marking leaves a stale row at the top, or no row that stops at all. -/
theorem markCurrentStale_top (fromStr : String → Option Json.Value)
    (hids : (rows.map VersionRow.id).Nodup) :
    ((∀ r ∈ markCurrentStale fromStr rows, r.stops fromStr = false) ∧
        (selectCurrent fromStr rows).version = none) ∨
      ∃ m ∈ markCurrentStale fromStr rows, m.stale = true ∧
        (∀ r ∈ markCurrentStale fromStr rows, r.stops fromStr = true → r.version ≤ m.version) ∧
        ∀ version, (selectCurrent fromStr rows).version = some version → version = m.version := by
  unfold markCurrentStale
  cases hid : (selectCurrent fromStr rows).id with
  | none =>
    obtain ⟨hversion, hstale⟩ := selectCurrent_noId hid
    dsimp only
    cases hnewest : newest fromStr rows with
    | none => exact .inl ⟨newest_none hnewest, hversion⟩
    | some m =>
      obtain ⟨hm, -, hmost⟩ := newest_some hnewest
      refine .inr ⟨m, hm, hstale m hnewest, hmost, fun version h => ?_⟩
      rw [hversion] at h
      cases h
  | some summaryId =>
    obtain ⟨m, hnewest, rfl, hversion⟩ := selectCurrent_id hid
    obtain ⟨hm, hstops, hmost⟩ := newest_some hnewest
    dsimp only
    refine .inr ⟨{ m with status := barrierStatus }, List.mem_map.mpr ⟨m, hm, if_pos rfl⟩, rfl, ?_,
      fun version h => Option.some.inj (h.symm.trans hversion)⟩
    intro r hr hrstops
    obtain ⟨r', hr', rfl⟩ := List.mem_map.mp hr
    by_cases hsame : r'.id = m.id
    · rw [List.inj_on_of_nodup_map hids hr' hm hsame, if_pos rfl]
    · rw [if_neg hsame] at hrstops ⊢
      exact hmost r' hr' hrstops

/-- Once the current summary is marked none is current, until a row above it comes
whose texts can be read. -/
theorem marked_none (hids : (rows.map VersionRow.id).Nodup)
    (hversions : ((rows ++ added).map VersionRow.version).Nodup)
    (hadded : ∀ r ∈ added, (r.read fromStr).isSome = true → ¬Higher fromStr rows r) :
    currentTexts fromStr (markCurrentStale fromStr rows ++ added) = (none, none) := by
  have hunique : ((markCurrentStale fromStr rows ++ added).map VersionRow.version).Nodup := by
    rw [List.map_append, markCurrentStale_versions, ← List.map_append]
    exact hversions
  rcases currentTexts_answers fromStr (markCurrentStale fromStr rows ++ added) with
    ⟨-, h⟩ | ⟨r, hr, hstops, hmost, h⟩
  · exact h
  · rw [h]
    cases hstale : r.stale with
    | true => rfl
    | false =>
      have hread : (r.read fromStr).isSome = true := by
        rwa [VersionRow.stops, hstale, Bool.false_or] at hstops
      exfalso
      rcases markCurrentStale_top fromStr hids with
        ⟨hnone, hversion⟩ | ⟨m, hm, hmstale, htop, hversion⟩
      · rcases List.mem_append.mp hr with hold | hnew
        · rw [hnone r hold] at hstops
          cases hstops
        · refine hadded r hnew hread fun version h => ?_
          rw [hversion] at h
          cases h
      · have hmstops : m.stops fromStr = true := by rw [VersionRow.stops, hmstale, Bool.true_or]
        have hle := hmost m (List.mem_append_left _ hm) hmstops
        have hne : r.version ≠ m.version := fun heq => by
          have hsame := List.inj_on_of_nodup_map hunique hr (List.mem_append_left _ hm) heq
          rw [hsame, hmstale] at hstale
          cases hstale
        rcases List.mem_append.mp hr with hold | hnew
        · have hge := htop r hold hstops
          omega
        · refine hadded r hnew hread fun version h => ?_
          have heq := hversion version h
          omega

end Marked

section Tools

/-- The code points of a text. -/
def points (text : String) : List Nat := text.toList.map Char.toNat

def pointsOf (texts : String × Option String) : List Nat × Option (List Nat) :=
  (points texts.1, texts.2.map points)

def ToolSummary.texts (s : ToolSummary) : Option (List Nat) × Option (List Nat) := (s.short, s.full)

def toolTexts (limits : Limits) (rows : List VersionRow) :
    Except LoadError (Option (List Nat) × Option (List Nat)) :=
  (selectTool limits rows).map ToolSummary.texts

/-- A stale row, or one that the Python reader does not pass over. -/
def VersionRow.halts (limits : Limits) (r : VersionRow) : Bool :=
  r.stale || match r.load limits with
    | .ok none => false
    | _ => true

/-- The next row that stops the Rust readers gives them these texts. -/
def ReadNext (fromStr : String → Option Json.Value) (rows : List VersionRow)
    (texts : String × Option String) : Prop :=
  ∃ r, rows.find? (VersionRow.stops fromStr) = some r ∧ r.stale = false ∧ r.read fromStr = some texts

/-- The next row that stops the Python reader gives it these texts. -/
def LoadNext (limits : Limits) (rows : List VersionRow) (texts : List Nat × Option (List Nat)) :
    Prop :=
  ∃ r, rows.find? (VersionRow.halts limits) = some r ∧ r.stale = false ∧
    r.load limits = .ok (some texts)

/-- At the newest row that stops a reader, it is stale, or both read the same texts
there, or the one that passes it over comes to the same texts next. -/
def ReadAlike (fromStr : String → Option Json.Value) (limits : Limits) : List VersionRow → Prop
  | [] => True
  | r :: rows =>
    r.stale = true ∨ match r.read fromStr, r.load limits with
      | none, .ok none => ReadAlike fromStr limits rows
      | some texts, .ok (some loaded) => pointsOf texts = loaded
      | some texts, .ok none => LoadNext limits rows (pointsOf texts)
      | none, .ok (some loaded) => ∃ texts, pointsOf texts = loaded ∧ ReadNext fromStr rows texts
      | _, .error _ => False

theorem selectScanned_some_iff {rows : List VersionRow} {short : String} {full : Option String} :
    (selectScanned fromStr rows).short = some short ∧ (selectScanned fromStr rows).full = full ↔
      ReadNext fromStr rows (short, full) := by
  rw [selectScanned_find]
  unfold ReadNext
  cases hfind : rows.find? (VersionRow.stops fromStr) with
  | none =>
    refine iff_of_false (fun h => ?_) fun ⟨r, hr, _⟩ => ?_
    · cases h.1
    · cases hr
  | some r =>
    rw [Option.map_some, Option.getD_some]
    rcases stops_cases (List.find?_some hfind) with hstale | ⟨hstale, texts, hread⟩
    · rw [current_of_stale hstale]
      refine iff_of_false (fun h => ?_) fun ⟨r', hr', hstale', _⟩ => ?_
      · cases h.1
      · cases hr'
        rw [hstale] at hstale'
        cases hstale'
    · rw [current_of_read hstale hread]
      constructor
      · rintro ⟨hshort, rfl⟩
        cases hshort
        exact ⟨r, rfl, hstale, hread⟩
      · rintro ⟨r', hr', -, hread'⟩
        cases hr'
        cases hread.symm.trans hread'
        exact ⟨rfl, rfl⟩

theorem selectLoaded_some_iff {rows : List VersionRow} {status : Option String}
    {loaded : List Nat × Option (List Nat)} :
    (selectLoaded limits status rows).map ToolSummary.texts = .ok (some loaded.1, loaded.2) ↔
      LoadNext limits rows loaded := by
  induction rows with
  | nil =>
    refine iff_of_false (fun h => ?_) fun ⟨r, hr, _⟩ => ?_
    · cases h
    · cases hr
  | cons r rows ih =>
    unfold LoadNext
    rw [selectLoaded]
    cases hstale : r.stale with
    | true =>
      rw [List.find?_cons_of_pos (by rw [VersionRow.halts, hstale, Bool.true_or]), if_pos rfl]
      refine iff_of_false (fun h => ?_) fun ⟨r', hr', hstale', _⟩ => ?_
      · cases h
      · cases hr'
        rw [hstale] at hstale'
        cases hstale'
    | false =>
      rw [if_neg Bool.false_ne_true]
      cases hload : r.load limits with
      | error e =>
        rw [List.find?_cons_of_pos (by rw [VersionRow.halts, hstale, hload]; rfl)]
        refine iff_of_false (fun h => ?_) fun ⟨r', hr', _, hload'⟩ => ?_
        · cases h
        · cases hr'
          cases hload.symm.trans hload'
      | ok payload =>
        cases payload with
        | none =>
          rw [List.find?_cons_of_neg (by rw [VersionRow.halts, hstale, hload]; decide)]
          exact ih
        | some texts =>
          rw [List.find?_cons_of_pos (by rw [VersionRow.halts, hstale, hload]; rfl)]
          constructor
          · intro h
            have htexts : (some texts.1, texts.2) = (some loaded.1, loaded.2) := Except.ok.inj h
            obtain ⟨hshort, hfull⟩ := Prod.mk.inj htexts
            refine ⟨r, rfl, hstale, ?_⟩
            rw [hload, Prod.ext (Option.some.inj hshort) hfull]
          · rintro ⟨r', hr', -, hload'⟩
            cases hr'
            cases hload.symm.trans hload'
            rfl

/-- The two walks come to the same texts exactly where the rows are read alike. -/
theorem walks_agree_iff {rows : List VersionRow} {status : Option String} :
    (selectLoaded limits status rows).map ToolSummary.texts =
        .ok ((selectScanned fromStr rows).short.map points,
          (selectScanned fromStr rows).full.map points) ↔
      ReadAlike fromStr limits rows := by
  induction rows with
  | nil => exact iff_of_true rfl trivial
  | cons r rows ih =>
    rw [selectLoaded, selectScanned, ReadAlike]
    cases hstale : r.stale with
    | true =>
      rw [if_pos rfl, if_pos rfl]
      exact iff_of_true rfl (.inl rfl)
    | false =>
      rw [if_neg Bool.false_ne_true, if_neg Bool.false_ne_true, or_iff_right Bool.false_ne_true]
      cases hload : r.load limits with
      | error e =>
        cases r.read fromStr <;> exact iff_of_false (fun h => by cases h) id
      | ok payload =>
        cases hread : r.read fromStr with
        | none =>
          cases payload with
          | none => exact ih
          | some loaded =>
            constructor
            · intro h
              obtain ⟨hshort, hfull⟩ := Prod.mk.inj (Except.ok.inj h)
              cases hscanned : (selectScanned fromStr rows).short with
              | none =>
                rw [hscanned] at hshort
                cases hshort
              | some short =>
                rw [hscanned] at hshort
                exact ⟨(short, _), Prod.ext (Option.some.inj hshort).symm hfull.symm,
                  selectScanned_some_iff.mp ⟨hscanned, rfl⟩⟩
            · rintro ⟨⟨short, full⟩, rfl, hnext⟩
              obtain ⟨hshort, hfull⟩ := selectScanned_some_iff.mpr hnext
              rw [hshort, hfull]
              rfl
        | some texts =>
          cases payload with
          | none => exact @selectLoaded_some_iff limits rows status (pointsOf texts)
          | some loaded =>
            constructor
            · intro h
              obtain ⟨hshort, hfull⟩ := Prod.mk.inj (Except.ok.inj h)
              exact Prod.ext (Option.some.inj hshort).symm hfull.symm
            · rintro rfl
              rfl

/-- The three readers give one answer, the one that is called for. -/
structure Agree (fromStr : String → Option Json.Value) (limits : Limits) (rows : List VersionRow) :
    Prop where
  latest : latestTexts fromStr rows = currentTexts fromStr rows
  tool : toolTexts limits rows = .ok ((currentTexts fromStr rows).1.map points,
    (currentTexts fromStr rows).2.map points)
  answers : Answers fromStr rows (currentTexts fromStr rows)

theorem agree_iff : Agree fromStr limits rows ↔ ReadAlike fromStr limits (newestFirst rows) :=
  ⟨fun h => walks_agree_iff.mp h.tool,
    fun h => ⟨latestTexts_eq rows, walks_agree_iff.mpr h, currentTexts_answers fromStr rows⟩⟩

/-- All three readers have no texts. -/
structure Silent (fromStr : String → Option Json.Value) (limits : Limits) (rows : List VersionRow) :
    Prop where
  current : currentTexts fromStr rows = (none, none)
  latest : latestTexts fromStr rows = (none, none)
  tool : toolTexts limits rows = .ok (none, none)

theorem silent_iff (h : currentTexts fromStr rows = (none, none)) :
    Silent fromStr limits rows ↔ ReadAlike fromStr limits (newestFirst rows) := by
  rw [← agree_iff]
  constructor
  · intro hsilent
    refine ⟨latestTexts_eq rows, ?_, currentTexts_answers fromStr rows⟩
    rw [hsilent.tool, h]
    rfl
  · intro hagree
    refine ⟨h, hagree.latest.trans h, hagree.tool.trans ?_⟩
    rw [h]
    rfl

end Tools

section Readers

/-- The readers agree on the versions of a node, and once the current one is marked
they have no texts as long as no row above it can be read, exactly where the rows
are read alike before and after. -/
theorem readers_agree_iff (fromStr : String → Option Json.Value) (limits : Limits)
    (rows added : List VersionRow) (hids : (rows.map VersionRow.id).Nodup)
    (hversions : ((rows ++ added).map VersionRow.version).Nodup) :
    (Agree fromStr limits rows ∧
        ((∀ r ∈ added, (r.read fromStr).isSome = true → ¬Higher fromStr rows r) →
          Silent fromStr limits (markCurrentStale fromStr rows ++ added))) ↔
      ReadAlike fromStr limits (newestFirst rows) ∧
        ((∀ r ∈ added, (r.read fromStr).isSome = true → ¬Higher fromStr rows r) →
          ReadAlike fromStr limits (newestFirst (markCurrentStale fromStr rows ++ added))) := by
  rw [agree_iff]
  refine and_congr_right fun _ => imp_congr_right fun hadded => ?_
  exact silent_iff (marked_none hids hversions hadded)

end Readers

section Example

def interpreter : Limits := ⟨900, 4300⟩

def plainVersion : VersionRow :=
  ⟨1, 1, some "\x7b\"short\": \"Saves a file.\", \"full\": null\x7d", "ok"⟩

/-- A text that only Python takes for blank. -/
def separatorVersion : VersionRow :=
  ⟨1, 1, some "\x7b\"short\": \"\\u001c\", \"full\": null\x7d", "ok"⟩

theorem readers_agree_iff_plain : Agree Json.parse interpreter [plainVersion] ∧
    Silent Json.parse interpreter (markCurrentStale Json.parse [plainVersion] ++ []) := by
  have hids : ([plainVersion].map VersionRow.id).Nodup := by decide
  have hversions : (([plainVersion] ++ []).map VersionRow.version).Nodup := by decide
  have hbefore : ReadAlike Json.parse interpreter (newestFirst [plainVersion]) := .inr rfl
  have hafter : ReadAlike Json.parse interpreter
      (newestFirst (markCurrentStale Json.parse [plainVersion] ++ [])) := .inl rfl
  obtain ⟨hagree, hsilent⟩ := (readers_agree_iff Json.parse interpreter [plainVersion] [] hids
    hversions).mpr ⟨hbefore, fun _ => hafter⟩
  exact ⟨hagree, hsilent fun r hr => absurd hr List.not_mem_nil⟩

/-- The scanner shows a text where the Python tools show none. -/
theorem separator_shown : ¬Agree Json.parse interpreter [separatorVersion] := by
  intro h
  have htool : toolTexts interpreter [separatorVersion] = .ok (none, none) := rfl
  have hshown : (currentTexts Json.parse [separatorVersion]).1.isSome = true := by decide +kernel
  have hnone := congrArg Prod.fst (Except.ok.inj (htool.symm.trans h.tool))
  rw [Option.isSome_iff_exists] at hshown
  obtain ⟨short, hshort⟩ := hshown
  rw [hshort] at hnone
  cases hnone

end Example

end RemyCC.Retrieval
