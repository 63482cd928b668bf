import RemyCC.Relational.Run
import RemyCC.Retrieval.Charges
import RemyCC.Retrieval.Docstrings
import RemyCC.Retrieval.Propagation

/-!
# Changes that a parent hears of

A counter at nought is to mean that the children still say what they said when
the current summary of their parent was written. A pass tells this from the
version before the current one of each child, and a write from the version
before it, whatever became of these.
-/

namespace RemyCC.Retrieval

open Relational Text Index Python

section Selection

variable {limits : Limits}

/-- What a reader finds in a new version: nothing from there on, or texts, or no answer. -/
def said (limits : Limits) (c : WriteCall) : Option (Option Texts) :=
  if c.status = .stale then some none
  else match VersionRow.load limits ⟨0, 0, c.payload, c.status.name⟩ with
    | .error _ => some none
    | .ok (some texts) => some (some texts)
    | .ok none => none

/-- What a selection comes to: the number and version of a row, and its texts. -/
def outcome (selected : Except LoadError ToolSummary) : Option (Nat × Nat × Texts) := do
  let current ← selected.toOption
  let id ← current.id
  let version ← current.version
  let short ← current.short
  return (id, version, short, current.full)

theorem outcome_latest (rows : List VersionRow) (status other : Option String) :
    outcome (selectLoaded limits status rows) = outcome (selectLoaded limits other rows) := by
  induction rows with
  | nil => rfl
  | cons r rows ih =>
    rw [selectLoaded, selectLoaded]
    split
    · rfl
    · cases r.load limits with
      | error e => rfl
      | ok texts =>
        cases texts with
        | none => exact ih
        | some texts => rfl

/-- A selection names all parts of a row or none. -/
theorem selectLoaded_parts {rows : List VersionRow} {status : Option String} {current : ToolSummary}
    (h : selectLoaded limits status rows = .ok current) :
    (current.id = none ∧ current.version = none ∧ current.short = none) ∨
      ∃ r ∈ rows, ∃ texts, r.load limits = .ok (some texts) ∧ current.id = some r.id ∧
        current.version = some r.version ∧ current.short = some texts.1 ∧
        current.full = texts.2 := by
  induction rows with
  | nil =>
    cases h
    exact .inl ⟨rfl, rfl, rfl⟩
  | cons r rows ih =>
    rw [selectLoaded] at h
    split at h
    · cases h
      exact .inl ⟨rfl, rfl, rfl⟩
    · cases hload : r.load limits with
      | error e =>
        rw [hload] at h
        cases h
      | ok found =>
        rw [hload] at h
        cases found with
        | none =>
          rcases ih h with hnone | ⟨s, hs, hrest⟩
          · exact .inl hnone
          · exact .inr ⟨s, List.mem_cons_of_mem r hs, hrest⟩
        | some texts =>
          cases h
          exact .inr ⟨r, List.mem_cons_self, texts, hload, rfl, rfl, rfl, rfl⟩

end Selection

namespace Ledger

section Found

variable {limits : Limits} {l l' : Ledger} {c : WriteCall} {node : Node}

/-- The current version of a node with its texts. -/
def found (limits : Limits) (l : Ledger) (node : Node) : Option (Nat × Nat × Texts) :=
  outcome (selectTool limits ((l.rowsOf node).map SummaryVersion.row))

theorem selectCurrent_parts (l : Ledger) (node : Node) :
    l.textsOf limits node = (l.found limits node).map (·.2.2) ∧
      l.hasCurrent limits node = (l.found limits node).isSome ∧
      (l.selectCurrent limits node).bind ToolSummary.version =
        (l.found limits node).map (·.2.1) := by
  unfold textsOf hasCurrent selectCurrent found outcome
  cases h : selectTool limits ((l.rowsOf node).map SummaryVersion.row) with
  | error e => exact ⟨rfl, rfl, rfl⟩
  | ok current =>
    rcases selectLoaded_parts h with
      ⟨hid, hversion, hshort⟩ | ⟨r, -, texts, -, hid, hversion, hshort, hfull⟩
    · simp [Except.toOption, hid, hversion]
    · simp [Except.toOption, hid, hversion, hshort]

theorem textsOf_eq (l : Ledger) (node : Node) :
    l.textsOf limits node = (l.found limits node).map (·.2.2) :=
  (selectCurrent_parts l node).1

theorem hasCurrent_eq (l : Ledger) (node : Node) :
    l.hasCurrent limits node = (l.found limits node).isSome :=
  (selectCurrent_parts l node).2.1

theorem currentVersion_eq (l : Ledger) (node : Node) :
    (l.selectCurrent limits node).bind ToolSummary.version = (l.found limits node).map (·.2.1) :=
  (selectCurrent_parts l node).2.2

theorem newestFirst_rowsOf (l : Ledger) (node : Node) :
    newestFirst ((l.rowsOf node).map SummaryVersion.row) =
      (versionsOf node l.summaries.rows).map SummaryVersion.row :=
  (map_orderBy_comp SummaryVersion.row (fun a b => compare b.version a.version) _).symm

theorem found_eq (l : Ledger) (node : Node) (status : Option String) :
    l.found limits node =
      outcome (selectLoaded limits status
        ((versionsOf node l.summaries.rows).map SummaryVersion.row)) := by
  rw [found, selectTool, newestFirst_rowsOf]
  exact outcome_latest _ _ _

theorem found_congr (hsummaries : l'.summaries = (l.insertVersion c).summaries)
    (h : node ≠ c.node) : l'.found limits node = l.found limits node := by
  rw [found, rowsOf_eq hsummaries h, found]

theorem found_version_le {id version : Nat} {texts : Texts}
    (h : l.found limits node = some (id, version, texts)) : version ≤ l.topVersion node := by
  unfold found at h
  cases hselect : selectTool limits ((l.rowsOf node).map SummaryVersion.row) with
  | error e =>
    rw [hselect] at h
    cases h
  | ok current =>
    rw [hselect] at h
    rcases selectLoaded_parts hselect with ⟨hid, -, -⟩ | ⟨r, hr, found, -, hid, hversion, hshort, -⟩
    · simp [outcome, Except.toOption, hid] at h
    · obtain ⟨s, hs, rfl⟩ := List.mem_map.mp (mem_newestFirst.mp hr)
      simp only [outcome, Except.toOption, hid, hversion, hshort, Option.bind_eq_bind,
        Option.bind_some, Option.pure_def, Option.some.injEq, Prod.mk.injEq] at h
      rw [← h.2.1]
      exact (topVersion_spec l node).1 s.version (List.mem_map_of_mem hs)

theorem versionsOf_insert (hsummaries : l'.summaries = (l.insertVersion c).summaries) :
    ∃ id, versionsOf c.node l'.summaries.rows =
      ⟨id, c.node, l.topVersion c.node + 1, c.payload, c.status⟩ ::
        versionsOf c.node l.summaries.rows := by
  rw [hsummaries, insertVersion, Numbered.insert_rows]
  refine ⟨_, versionsOf_concat rfl fun s hs hnode => ?_⟩
  have hmem : s.version ∈ l.versions c.node :=
    List.mem_map_of_mem (List.mem_filter.mpr ⟨hs, beq_iff_eq.mpr hnode⟩)
  exact Nat.lt_succ_of_le ((topVersion_spec l c.node).1 _ hmem)

/-- What a node says after a version of it has been written. -/
theorem found_insert (hsummaries : l'.summaries = (l.insertVersion c).summaries) :
    ∃ id, l'.found limits c.node = match said limits c with
      | some none => none
      | some (some texts) => some (id, l.topVersion c.node + 1, texts)
      | none => l.found limits c.node := by
  obtain ⟨id, hversions⟩ := versionsOf_insert hsummaries
  refine ⟨id, ?_⟩
  rw [found_eq l' c.node none, found_eq l c.node none, hversions, List.map_cons, selectLoaded]
  have hstale :
      (SummaryVersion.row ⟨id, c.node, l.topVersion c.node + 1, c.payload, c.status⟩).stale =
        decide (c.status = .stale) := Status.name_stale c.status
  rw [hstale]
  unfold said
  by_cases hstatus : c.status = .stale
  · simp only [hstatus, decide_true, if_true]
    rfl
  · have hload : VersionRow.load limits
        (SummaryVersion.row ⟨id, c.node, l.topVersion c.node + 1, c.payload, c.status⟩) =
        VersionRow.load limits ⟨0, 0, c.payload, c.status.name⟩ := rfl
    rw [hload]
    simp only [hstatus, decide_false, if_false, Bool.false_eq_true]
    cases VersionRow.load limits ⟨0, 0, c.payload, c.status.name⟩ with
    | error e => rfl
    | ok texts =>
      cases texts with
      | none => rfl
      | some texts => rfl

end Found

end Ledger

section Written

variable {g : Digests} {limits : Limits} {codec : PayloadCodec} {s s' : Course} {c : WriteCall}

/-- What a write does to the tables and to what is kept beside them. -/
structure Wrote (limits : Limits) (reader : PayloadReader) (s s' : Course) (c : WriteCall) :
    Prop where
  phase : s'.phase = s.phase
  index : s'.ledger.index = s.ledger.index
  others : ∀ node, node ≠ c.node → s'.ledger.found limits node = s.ledger.found limits node
  new : ∃ id, s'.ledger.found limits c.node = match said limits c with
    | some none => none
    | some (some texts) => some (id, s.ledger.topVersion c.node + 1, texts)
    | none => s.ledger.found limits c.node
  counted : ∀ parent, Ledger.Counts limits reader s.ledger c parent →
    s'.ledger.childChangeCount parent = s.ledger.childChangeCount parent + 1
  uncounted : ∀ parent, ¬Ledger.Counts limits reader s.ledger c parent →
    s'.ledger.childChangeCount parent = s.ledger.childChangeCount parent
  noted : ∀ texts, said limits c = some (some texts) →
    s'.written = Function.update s.written c.node (s'.ledger.textsOf limits)
  unnoted : (∀ texts, said limits c ≠ some (some texts)) → s'.written = s.written

theorem childChangeCount_congr {l l' : Ledger} (h : l'.counters = l.counters) (node : Node) :
    l'.childChangeCount node = l.childChangeCount node := by
  rw [Ledger.childChangeCount, Ledger.counter?, h, Ledger.childChangeCount, Ledger.counter?]

theorem counts_unique {reader : PayloadReader} {l : Ledger} {parent other : Node}
    (h : Ledger.Counts limits reader l c parent) (hother : Ledger.Counts limits reader l c other) :
    parent = other := Option.some.inj (h.2.1.symm.trans hother.2.1)

theorem wrote (h : s.write g limits codec c = some s') :
    Wrote limits codec.toPayloadReader s s' c := by
  obtain ⟨⟨l', version⟩, hwrite, heq⟩ := Option.map_eq_some_iff.mp h
  obtain ⟨-, hindex, hsummaries, hcounters⟩ := Ledger.writeSummaryVersion_cases hwrite
  obtain ⟨id, hnew⟩ : ∃ id, l'.found limits c.node = _ := Ledger.found_insert hsummaries
  cases heq
  have hversion : (l'.selectCurrent limits c.node).bind ToolSummary.version = _ :=
    Ledger.currentVersion_eq l' c.node
  rw [hnew] at hversion
  refine ⟨rfl, hindex, fun node hnode => Ledger.found_congr hsummaries hnode, ⟨id, hnew⟩, ?_, ?_,
    ?_, ?_⟩
  · intro parent hcounts
    rcases hcounters with ⟨-, hnone⟩ | ⟨other, hbump, hother⟩
    · exact absurd hcounts (hnone parent)
    · cases counts_unique hcounts hother
      exact (childChangeCount_congr hbump parent).trans (Ledger.charged_bump parent).counted
  · intro parent hcounts
    rcases hcounters with ⟨hsame, -⟩ | ⟨other, hbump, hother⟩
    · exact childChangeCount_congr hsame parent
    · have hne : parent ≠ other := fun heq => hcounts (heq ▸ hother)
      rw [childChangeCount_congr hbump parent, Ledger.childChangeCount,
        (Ledger.charged_bump other).others parent hne, Ledger.childChangeCount]
  · intro texts hsaid
    rw [hsaid] at hversion
    exact if_pos hversion
  · intro hsaid
    refine if_neg fun hcurrent => ?_
    rw [hversion] at hcurrent
    cases hmatch : said limits c with
    | none =>
      rw [hmatch] at hcurrent
      obtain ⟨⟨i, v, texts⟩, hfound, hv⟩ := Option.map_eq_some_iff.mp hcurrent
      have hle := Ledger.found_version_le hfound
      simp only at hv
      omega
    | some found =>
      cases found with
      | none =>
        rw [hmatch] at hcurrent
        cases hcurrent
      | some texts => exact hsaid texts hmatch

theorem Wrote.textsOf_other {reader : PayloadReader} (h : Wrote limits reader s s' c) {node : Node}
    (hnode : node ≠ c.node) : s'.ledger.textsOf limits node = s.ledger.textsOf limits node := by
  rw [Ledger.textsOf_eq, h.others node hnode, Ledger.textsOf_eq]

theorem Wrote.hasCurrent_other {reader : PayloadReader} (h : Wrote limits reader s s' c)
    {node : Node} (hnode : node ≠ c.node) :
    s'.ledger.hasCurrent limits node = s.ledger.hasCurrent limits node := by
  rw [Ledger.hasCurrent_eq, h.others node hnode, Ledger.hasCurrent_eq]

theorem Wrote.le_count {reader : PayloadReader} (h : Wrote limits reader s s' c) (node : Node) :
    s.ledger.childChangeCount node ≤ s'.ledger.childChangeCount node := by
  by_cases hcounts : Ledger.Counts limits reader s.ledger c node
  · have hcounted := h.counted node hcounts
    omega
  · exact (h.uncounted node hcounts).ge

end Written

section Condition

variable (g : Digests) (limits : Limits) (codec : PayloadCodec)

/-- The version leaves the current texts of its node as they are. -/
def Unmoved (l : Ledger) (c : WriteCall) : Prop :=
  ∀ texts, said limits c = some texts → l.textsOf limits c.node = texts

/-- The parent whose children have been read and whose counter is to go back. -/
def Phase.pending : Phase → Option Node
  | .storing _ parent _ _ _ | .resetting _ parent => some parent
  | _ => none

/-- A write that changes what a child says is counted at each parent of it, or finds a count
there, and comes at no time between the reading of the children and the reset. -/
def Told (s : Course) (c : WriteCall) : Prop :=
  (s.write g limits codec c).isSome = true → ∀ parent, c.node ∈ childrenOf s.ledger.index parent →
    Unmoved limits s.ledger c ∨ s.phase.pending ≠ some parent ∧
      (s.ledger.hasCurrent limits parent = true → 0 < s.ledger.childChangeCount parent ∨
        Ledger.Due codec.toPayloadReader s.ledger c ∧
          resolveParent s.ledger.index c.node = some parent)

/-- The texts of the version before the current one. -/
def Ledger.precedingTexts (l : Ledger) (node : Node) : Option Texts := do
  let current ← l.selectCurrent limits node
  let version ← current.version
  match l.loadPrevious limits node version with
  | .ok (some (.dict members)) => takeTexts members
  | _ => none

/-- Where a comparison finds no change, it has compared with what the children said when the
current version of the parent was written. -/
def Comparable (s : Course) (parent : Node) : Prop :=
  (s.ledger.childChanges limits parent).any List.isEmpty = true →
    ∀ child ∈ childrenOf s.ledger.index parent,
      s.ledger.precedingTexts limits child = s.written parent child

def Sound (s : Course) (e : CourseEvent) : Prop :=
  match e with
  | .write c => Told g limits codec s c
  | .advance _ => match s.phase with
    | .comparing _ parent => Comparable limits s parent
    | .storing _ parent payload status _ => Told g limits codec s ⟨parent, some payload, status⟩
    | _ => True
  | _ => True

/-- What `json` keeps of a payload with a short text: one that says something still does. -/
def Rereads : Prop :=
  ∀ payload short, codec.short payload = some short → strip short ≠ [] →
    ∃ members texts, loads limits (codec.dumps payload) = .ok (.dict members) ∧
      takeTexts members = some texts ∧ codec.dumps payload ≠ ""

end Condition

section Goal

variable (g : Digests) (limits : Limits) (codec : PayloadCodec)

/-- A parent some child of which no longer says what it said stays a candidate. -/
def Remembered (s : Course) : Prop :=
  ∀ parent child, s.ledger.hasCurrent limits parent = true →
    child ∈ childrenOf s.ledger.index parent →
    s.ledger.textsOf limits child ≠ s.written parent child →
    0 < s.ledger.childChangeCount parent

/-- What each step of a pass and each write is to be like. -/
structure Heeds (s : Course) (e : CourseEvent) : Prop where
  reset : ∀ w agenda parent, e = .advance w → s.phase = .resetting agenda parent →
    ∀ child ∈ childrenOf s.ledger.index parent,
      s.ledger.textsOf limits child = s.written parent child
  stored : ∀ w agenda parent payload status sources, e = .advance w →
    s.phase = .storing agenda parent payload status sources →
    ∀ child ∈ childrenOf s.ledger.index parent, s.ledger.textsOf limits child = sources child
  kept : ∀ w parent, e = .advance w → (∀ agenda, s.phase ≠ .resetting agenda parent) →
    s.ledger.childChangeCount parent ≤ (s.step g limits codec e).ledger.childChangeCount parent ∧
      ((∀ agenda child payload status sources,
          s.phase = .storing agenda child payload status sources →
          resolveParent s.ledger.index child ≠ some parent) →
        (s.step g limits codec e).ledger.childChangeCount parent =
          s.ledger.childChangeCount parent)
  remembered : Remembered limits (s.step g limits codec e)

end Goal

section Generated

variable {limits : Limits} {codec : PayloadCodec} {softLimit : Nat} {first retry second : Reply}
  {payload : codec.Payload} {status : Status}

theorem generateAgain_unavailable {long : codec.Payload}
    (h : generateAgain codec softLimit long second = some (some payload, status)) :
    hasValidShort codec payload = true ∨ status.available = false := by
  unfold generateAgain at h
  obtain ⟨parsed, -, h⟩ := Option.bind_eq_some_iff.mp h
  cases parsed with
  | none =>
    cases h
    exact .inr rfl
  | some shorter =>
    dsimp only at h
    split at h
    · next hvalid =>
      obtain ⟨measured, -, h⟩ := Option.bind_eq_some_iff.mp h
      split at h
      · cases h
        exact .inl hvalid
      · cases h
        exact .inl hvalid
    · cases h

theorem hasValidShort_iff :
    hasValidShort codec payload = true ↔
      ∃ short, codec.short payload = some short ∧ strip short ≠ [] := by
  unfold hasValidShort
  cases codec.short payload <;> simp

theorem hasValidShort_chosen {chosen : codec.Payload}
    (h : validPayload codec payload retry = some (some chosen)) :
    hasValidShort codec chosen = true := by
  unfold validPayload at h
  split at h
  · next hfound =>
    cases h
    exact hfound
  · obtain ⟨again, -, heq⟩ := Option.map_eq_some_iff.mp h
    exact (Option.filter_eq_some_iff.mp heq).2

/-- An available summary has a short text that says something. -/
theorem generateWithLimit_valid
    (h : generateWithLimit codec softLimit first retry second = some (some payload, status))
    (havailable : status.available = true) : hasValidShort codec payload = true := by
  unfold generateWithLimit at h
  obtain ⟨parsed, -, h⟩ := Option.bind_eq_some_iff.mp h
  cases parsed with
  | none => cases h
  | some found =>
    obtain ⟨valid, hvalid, h⟩ := Option.bind_eq_some_iff.mp h
    cases valid with
    | none => cases h
    | some chosen =>
      have hchosen := hasValidShort_chosen hvalid
      obtain ⟨measured, -, h⟩ := Option.bind_eq_some_iff.mp h
      split at h
      · cases h
        exact hchosen
      · cases h
        exact hchosen
      · rcases generateAgain_unavailable h with hshort | hunavailable
        · exact hshort
        · cases havailable.symm.trans hunavailable

theorem said_generated (hjson : Rereads limits codec) (hvalid : hasValidShort codec payload = true)
    (havailable : status.available = true) (parent : Node) :
    ∃ texts, said limits ⟨parent, some (codec.dumps payload), status⟩ = some (some texts) := by
  obtain ⟨short, hshort, hvoiced⟩ := hasValidShort_iff.mp hvalid
  obtain ⟨members, texts, hloads, htexts, hne⟩ := hjson payload short hshort hvoiced
  refine ⟨texts, ?_⟩
  have hstale : status ≠ .stale := by
    rintro rfl
    cases havailable
  have hstatus : VersionRow.available ⟨0, 0, some (codec.dumps payload), status.name⟩ = true :=
    (Status.name_available status).trans havailable
  unfold said
  rw [if_neg hstale, VersionRow.load, if_pos hstatus]
  simp [parseSummary, hne, hloads, Except.map, htexts]

end Generated

section Compared

variable {limits : Limits} {l : Ledger}

theorem takeTexts_of_isTexts {payload : Loaded} {texts : Texts} (h : isTexts payload texts = true)
    (hvoiced : strip texts.1 ≠ []) :
    ∃ members, payload = .dict members ∧ takeTexts members = some texts := by
  unfold isTexts at h
  cases payload with
  | dict members =>
    refine ⟨members, rfl, ?_⟩
    simp only [Bool.and_eq_true, beq_iff_eq] at h
    obtain ⟨⟨-, hshort⟩, hfull⟩ := h
    unfold takeTexts
    rw [hshort, Option.filter_some_pos (by simpa using hvoiced)]
    dsimp only
    split at hfull
    · next full hmember =>
      rw [hmember]
      have heq : texts.2 = some full := by simpa using hfull
      simp [Loaded.asStr, ← heq]
    · next hmember =>
      rw [hmember]
      have heq : texts.2 = none := by simpa using hfull
      simp [Loaded.asStr, ← heq]
    · cases hfull
  | _ => cases h

theorem mapM_filterMap_nil {α β : Type} {f : α → Option (Option β)} {items : List α}
    (h : ((items.mapM f).map fun found => found.filterMap id).any List.isEmpty = true) :
    ∀ a ∈ items, f a = some none := by
  induction items with
  | nil => exact fun a ha => by cases ha
  | cons a items ih =>
    rw [List.mapM_cons] at h
    cases ha : f a with
    | none => simp [ha] at h
    | some b =>
      cases hrest : items.mapM f with
      | none => simp [ha, hrest] at h
      | some found =>
        cases b with
        | some b => simp [ha, hrest] at h
        | none =>
          refine List.forall_mem_cons.mpr ⟨ha, ih ?_⟩
          simpa [ha, hrest] using h

theorem takeTexts_says {members : List (List Nat × Loaded)} {texts : Texts}
    (h : takeTexts members = some texts) : strip texts.1 ≠ [] := by
  unfold takeTexts at h
  split at h
  · next short hshort =>
    cases h
    simpa using (Option.filter_eq_some_iff.mp hshort).2
  · cases h

theorem load_voiced {r : VersionRow} {texts : Texts} (h : r.load limits = .ok (some texts)) :
    strip texts.1 ≠ [] := by
  unfold VersionRow.load at h
  split at h
  · cases hparse : parseSummary limits r.summary with
    | error e =>
      rw [hparse] at h
      cases h
    | ok payload =>
      rw [hparse] at h
      cases payload with
      | none => cases h
      | some members => exact takeTexts_says (Except.ok.inj h)
  · cases h

/-- A child without a change says what the version before its current one says. -/
theorem textsOf_of_unchanged {child : Node} (h : l.changeOf limits child = some none) :
    l.textsOf limits child = l.precedingTexts limits child := by
  unfold Ledger.changeOf at h
  unfold Ledger.textsOf Ledger.precedingTexts
  cases hcurrent : l.selectCurrent limits child with
  | none => rfl
  | some current =>
    have hselect : selectTool limits ((l.rowsOf child).map SummaryVersion.row) = .ok current := by
      unfold Ledger.selectCurrent at hcurrent
      cases hresult : selectTool limits ((l.rowsOf child).map SummaryVersion.row) with
      | error e =>
        rw [hresult] at hcurrent
        cases hcurrent
      | ok other =>
        rw [hresult] at hcurrent
        exact congrArg Except.ok (Option.some.inj hcurrent)
    rcases selectLoaded_parts hselect with
      ⟨hid, hversion, -⟩ | ⟨r, -, texts, hload, hid, hversion, hshort, hfull⟩
    · simp [hid, hversion]
    · simp only [hcurrent, hid, hversion, hshort, hfull, Option.bind_eq_bind,
        Option.bind_some] at h ⊢
      cases hold : l.loadPrevious limits child r.version with
      | error e => simp [hold, Except.toOption] at h
      | ok old =>
        cases old with
        | none => simp [hold, Except.toOption] at h
        | some payload =>
          simp only [hold, Except.toOption, Option.bind_some, Option.any_some] at h
          split at h
          · next hsame =>
            obtain ⟨members, rfl, htexts⟩ := takeTexts_of_isTexts hsame (load_voiced hload)
            exact htexts.symm
          · cases h

end Compared

section Invariant

variable {g : Digests} {limits : Limits} {codec : PayloadCodec} {s s' : Course} {c : WriteCall}

/-- What is true of the tables at each point of a course. -/
structure Attentive (limits : Limits) (s : Course) : Prop where
  counts : ∀ node, 0 ≤ s.ledger.childChangeCount node
  remembered : Remembered limits s
  storing : ∀ agenda parent payload status sources,
    s.phase = .storing agenda parent payload status sources →
    (∃ texts, said limits ⟨parent, some payload, status⟩ = some (some texts)) ∧
      ∀ child ∈ childrenOf s.ledger.index parent, s.ledger.textsOf limits child = sources child
  resetting : ∀ agenda parent, s.phase = .resetting agenda parent →
    ∀ child ∈ childrenOf s.ledger.index parent,
      s.ledger.textsOf limits child = s.written parent child

theorem childrenOf_ne {d : Database} {parent child : Node} (h : child ∈ childrenOf d parent) :
    child ≠ parent := by
  obtain ⟨kind, ref⟩ := parent
  cases kind with
  | symbol => cases h
  | file =>
    obtain ⟨row, -, rfl⟩ := List.mem_map.mp h
    exact fun heq => NodeKind.noConfusion (congrArg Node.kind heq)
  | cluster =>
    obtain ⟨k, -, h⟩ := List.mem_flatMap.mp h
    obtain ⟨m, -, rfl⟩ := List.mem_map.mp h
    exact fun heq => NodeKind.noConfusion (congrArg Node.kind heq)

theorem Wrote.textsOf_unmoved {reader : PayloadReader} (h : Wrote limits reader s s' c)
    (hunmoved : Unmoved limits s.ledger c) :
    s'.ledger.textsOf limits c.node = s.ledger.textsOf limits c.node := by
  obtain ⟨id, hnew⟩ := h.new
  rw [Ledger.textsOf_eq, hnew]
  cases hsaid : said limits c with
  | none => exact (Ledger.textsOf_eq _ _).symm
  | some texts =>
    rw [hunmoved texts hsaid]
    cases texts <;> rfl

theorem Wrote.textsOf_child {reader : PayloadReader} (h : Wrote limits reader s s' c) {child : Node}
    (hunmoved : child = c.node → Unmoved limits s.ledger c) :
    s'.ledger.textsOf limits child = s.ledger.textsOf limits child := by
  by_cases hchild : child = c.node
  · rw [hchild]
    exact h.textsOf_unmoved (hunmoved hchild)
  · exact h.textsOf_other hchild

/-- After a version has been written that says something, its node has heard of its children. -/
theorem Wrote.written_self {reader : PayloadReader} (h : Wrote limits reader s s' c) {texts : Texts}
    (hsaid : said limits c = some (some texts)) (child : Node) :
    s'.written c.node child = s'.ledger.textsOf limits child := by
  rw [h.noted texts hsaid, Function.update_self]

theorem Wrote.written_other {reader : PayloadReader} (h : Wrote limits reader s s' c)
    {parent : Node} (hparent : parent ≠ c.node) : s'.written parent = s.written parent := by
  by_cases hsaid : ∃ texts, said limits c = some (some texts)
  · obtain ⟨texts, hsaid⟩ := hsaid
    rw [h.noted texts hsaid, Function.update_of_ne hparent]
  · rw [h.unnoted fun texts htexts => hsaid ⟨texts, htexts⟩]

/-- A current version that says nothing new was there before. -/
theorem Wrote.hasCurrent_self {reader : PayloadReader} (h : Wrote limits reader s s' c)
    (hsaid : ∀ texts, said limits c ≠ some (some texts))
    (hcurrent : s'.ledger.hasCurrent limits c.node = true) :
    s.ledger.hasCurrent limits c.node = true := by
  obtain ⟨id, hnew⟩ := h.new
  rw [Ledger.hasCurrent_eq, hnew] at hcurrent
  cases hmatch : said limits c with
  | none =>
    rw [hmatch] at hcurrent
    rw [Ledger.hasCurrent_eq]
    exact hcurrent
  | some found =>
    cases found with
    | none =>
      rw [hmatch] at hcurrent
      cases hcurrent
    | some texts => exact absurd hmatch (hsaid texts)

theorem remembered_wrote (hs : Attentive limits s) (hwrite : s.write g limits codec c = some s')
    (htold : Told g limits codec s c) : Remembered limits s' := by
  have h := wrote hwrite
  have htold := htold (by rw [hwrite]; rfl)
  intro parent child hcurrent hchild hne
  rw [h.index] at hchild
  have hle := h.le_count parent
  by_cases hparent : parent = c.node
  · subst hparent
    by_cases hsaid : ∃ texts, said limits c = some (some texts)
    · obtain ⟨texts, hsaid⟩ := hsaid
      exact absurd (h.written_self hsaid child).symm hne
    · have hsilent : ∀ texts, said limits c ≠ some (some texts) :=
        fun texts htexts => hsaid ⟨texts, htexts⟩
      rw [h.unnoted hsilent, h.textsOf_other (childrenOf_ne hchild)] at hne
      have hcount := hs.remembered _ child (h.hasCurrent_self hsilent hcurrent) hchild hne
      omega
  · rw [h.written_other hparent] at hne
    rw [h.hasCurrent_other hparent] at hcurrent
    by_cases hunmoved : child = c.node → Unmoved limits s.ledger c
    · rw [h.textsOf_child hunmoved] at hne
      have hcount := hs.remembered parent child hcurrent hchild hne
      omega
    · obtain ⟨rfl, hmoved⟩ := Classical.not_imp.mp hunmoved
      rcases htold parent hchild with hunmoved | ⟨-, hheard⟩
      · exact absurd hunmoved hmoved
      · rcases hheard hcurrent with hcount | ⟨hdue, hresolve⟩
        · omega
        · have hcounted := h.counted parent ⟨hdue, hresolve, hcurrent⟩
          have hnonneg := hs.counts parent
          omega

/-- A write by somebody else, whatever the pass is doing. -/
theorem attentive_wrote (hs : Attentive limits s) (hwrite : s.write g limits codec c = some s')
    (htold : Told g limits codec s c) : Attentive limits s' := by
  have h := wrote hwrite
  have hpending {parent child : Node} (hphase : s.phase.pending = some parent)
      (hchild : child ∈ childrenOf s.ledger.index parent) (heq : child = c.node) :
      Unmoved limits s.ledger c := by
    rcases htold (by rw [hwrite]; rfl) parent (heq ▸ hchild) with hunmoved | ⟨hidle, -⟩
    · exact hunmoved
    · exact absurd hphase hidle
  constructor
  · exact fun node => (hs.counts node).trans (h.le_count node)
  · exact remembered_wrote hs hwrite htold
  · intro agenda parent payload status sources hphase
    rw [h.phase] at hphase
    obtain ⟨hvoiced, hsources⟩ := hs.storing agenda parent payload status sources hphase
    refine ⟨hvoiced, fun child hchild => ?_⟩
    rw [h.index] at hchild
    rw [h.textsOf_child (hpending (by rw [hphase]; rfl) hchild), hsources child hchild]
  · intro agenda parent hphase child hchild
    rw [h.phase] at hphase
    rw [h.index] at hchild
    have hwritten := hs.resetting agenda parent hphase child hchild
    rw [h.textsOf_child (hpending (by rw [hphase]; rfl) hchild), hwritten]
    by_cases hparent : parent = c.node
    · subst hparent
      by_cases hsaid : ∃ texts, said limits c = some (some texts)
      · obtain ⟨texts, hsaid⟩ := hsaid
        rw [h.written_self hsaid, h.textsOf_other (childrenOf_ne hchild), hwritten]
      · rw [h.unnoted fun texts htexts => hsaid ⟨texts, htexts⟩]
    · rw [h.written_other hparent]

/-- A step that changes the phase alone, and to none that waits for a reset. -/
theorem attentive_phase (hs : Attentive limits s) {phase : Phase} (h : phase.pending = none) :
    Attentive limits { s with phase } where
  counts := hs.counts
  remembered := hs.remembered
  storing agenda parent payload status sources hphase := by
    have hphase : phase = .storing agenda parent payload status sources := hphase
    rw [hphase] at h
    cases h
  resetting agenda parent hphase := by
    have hphase : phase = .resetting agenda parent := hphase
    rw [hphase] at h
    cases h

theorem attentive_resetting (hs : Attentive limits s) {agenda : Agenda} {parent : Node}
    (h : ∀ child ∈ childrenOf s.ledger.index parent,
      s.ledger.textsOf limits child = s.written parent child) :
    Attentive limits { s with phase := .resetting agenda parent } where
  counts := hs.counts
  remembered := hs.remembered
  storing agenda parent payload status sources hphase := by cases hphase
  resetting agenda parent hphase := by
    cases hphase
    exact h

theorem attentive_compare (hs : Attentive limits s) {agenda : Agenda} {parent : Node}
    (hcomparable : Comparable limits s parent) :
    Attentive limits { s with phase := s.compare limits agenda parent } := by
  unfold Course.compare
  split
  · next hnone =>
    refine attentive_resetting hs fun child hchild => ?_
    have hempty : (s.ledger.childChanges limits parent).any List.isEmpty = true := by
      rw [hnone]
      rfl
    have hchanges := mapM_filterMap_nil hempty
    rw [textsOf_of_unchanged (hchanges child hchild), hcomparable hempty child hchild]
  · exact attentive_phase hs rfl
  · exact attentive_phase hs rfl

theorem attentive_ask (hjson : Rereads limits codec) (hs : Attentive limits s) {agenda : Agenda}
    {parent : Node} {w : World} :
    Attentive limits { s with phase := s.ask limits codec agenda parent w } := by
  unfold Course.ask
  split
  · exact attentive_phase hs rfl
  · next payload status hgenerate =>
    split
    · next havailable =>
      obtain ⟨children, -, hgenerate⟩ := Option.bind_eq_some_iff.mp hgenerate
      have hvalid := generateWithLimit_valid hgenerate havailable
      constructor
      · exact hs.counts
      · exact hs.remembered
      · intro agenda parent payload status sources hphase
        cases hphase
        exact ⟨said_generated hjson hvalid havailable _, fun child hchild => rfl⟩
      · intro agenda parent hphase
        cases hphase
    · exact attentive_phase hs rfl
  · exact attentive_phase hs rfl

theorem counter?_zeroCounter (l : Ledger) (parent node : Node) :
    (l.zeroCounter parent).childChangeCount node =
      if node = parent then 0 else l.childChangeCount node := by
  unfold Ledger.childChangeCount Ledger.counter? Ledger.zeroCounter
  dsimp only
  rw [Keyed.find?_update]
  cases hfind : l.counters.rows.find? (fun r => decide (r.node = node)) with
  | none => simp
  | some r =>
    have hr : r.node = node := by simpa using List.find?_some hfind
    by_cases hnode : node = parent
    · simp [hr, hnode]
    · simp [hr, hnode]

theorem attentive_zeroCounter (hs : Attentive limits s) {agenda : Agenda} {parent : Node}
    (hphase : s.phase = .resetting agenda parent) :
    Attentive limits
      { s with ledger := s.ledger.zeroCounter parent, phase := .visiting agenda } := by
  constructor
  · intro node
    change 0 ≤ (s.ledger.zeroCounter parent).childChangeCount node
    rw [counter?_zeroCounter]
    split
    · exact le_refl 0
    · exact hs.counts node
  · intro node child hcurrent hchild hne
    change 0 < (s.ledger.zeroCounter parent).childChangeCount node
    rw [counter?_zeroCounter]
    split
    · next hnode =>
      subst hnode
      exact absurd (hs.resetting agenda node hphase child hchild) hne
    · exact hs.remembered node child hcurrent hchild hne
  · intro _ _ _ _ _ hvisiting
    cases hvisiting
  · intro _ _ hvisiting
    cases hvisiting

theorem attentive_advance (hjson : Rereads limits codec) (hs : Attentive limits s) {w : World}
    (hsound : Sound g limits codec s (.advance w)) :
    Attentive limits (s.advance g limits codec w) := by
  unfold Course.advance
  unfold Sound at hsound
  split <;> rename_i hphase <;> rw [hphase] at hsound
  · exact hs
  · split
    · exact attentive_phase hs rfl
    · exact attentive_phase hs rfl
  · exact attentive_phase hs (by cases ‹NodeKind› <;> rfl)
  · split
    · exact attentive_phase hs (by cases ‹NodeKind› <;> rfl)
    · split
      · exact attentive_phase hs rfl
      · exact attentive_phase hs rfl
  · exact attentive_compare hs hsound
  · refine attentive_phase hs ?_
    unfold Course.judge
    split <;> rfl
  · exact attentive_ask hjson hs
  · split
    · next hwrite =>
      have h := wrote hwrite
      obtain ⟨⟨texts, hsaid⟩, -⟩ := hs.storing _ _ _ _ _ hphase
      exact attentive_resetting (attentive_wrote hs hwrite hsound) fun child hchild =>
        (h.written_self hsaid child).symm
    · exact attentive_phase hs rfl
  · exact attentive_zeroCounter hs hphase

theorem attentive_step (hjson : Rereads limits codec) (hs : Attentive limits s) {e : CourseEvent}
    (hsound : Sound g limits codec s e) : Attentive limits (s.step g limits codec e) := by
  cases e with
  | write c =>
    change Attentive limits ((s.write g limits codec c).getD s)
    cases hwrite : s.write g limits codec c with
    | none => exact hs
    | some s' => exact attentive_wrote hs hwrite hsound
  | start usable =>
    simp only [Course.step]
    split
    · split
      · exact attentive_phase hs rfl
      · exact hs
    · exact hs
  | advance w => exact attentive_advance hjson hs hsound
  | crash => exact attentive_phase hs rfl

end Invariant

section Counters

variable {g : Digests} {limits : Limits} {codec : PayloadCodec} {s : Course}

/-- The count of a node as a step of a pass leaves it. -/
theorem advance_count (w : World) {parent : Node}
    (hreset : ∀ agenda, s.phase ≠ .resetting agenda parent) :
    s.ledger.childChangeCount parent ≤
        (s.advance g limits codec w).ledger.childChangeCount parent ∧
      ((∀ agenda child payload status sources,
          s.phase = .storing agenda child payload status sources →
          resolveParent s.ledger.index child ≠ some parent) →
        (s.advance g limits codec w).ledger.childChangeCount parent =
          s.ledger.childChangeCount parent) := by
  have hsame (l : Ledger) (hl : l = s.ledger) :
      s.ledger.childChangeCount parent ≤ l.childChangeCount parent ∧
        l.childChangeCount parent = s.ledger.childChangeCount parent := by
    rw [hl]
    exact ⟨le_refl _, rfl⟩
  unfold Course.advance
  split
  case h_8 agenda child payload status sources hphase =>
    split
    · next s' hwrite =>
      have h := wrote hwrite
      refine ⟨h.le_count parent, fun hother => h.uncounted parent fun hcounts => ?_⟩
      exact hother agenda child payload status sources hphase hcounts.2.1
    · exact ⟨le_refl _, fun _ => rfl⟩
  case h_9 agenda child hphase =>
    have hne : parent ≠ child := by
      rintro rfl
      exact hreset agenda hphase
    have hcount : (s.ledger.zeroCounter child).childChangeCount parent =
        s.ledger.childChangeCount parent := by
      rw [counter?_zeroCounter, if_neg hne]
    exact ⟨hcount.ge, fun _ => hcount⟩
  all_goals
    refine ⟨(hsame _ ?_).1, fun _ => (hsame _ ?_).2⟩ <;>
    · first
        | rfl
        | (split <;> first | rfl | (split <;> rfl))

end Counters

section Runs

variable (g : Digests) (limits : Limits) (codec : PayloadCodec)

/-- The tables before any summary has been written. -/
def startOf (index : Database) (documents : Keyed Document.node) : Course :=
  ⟨⟨index, .empty, documents, .empty⟩, .idle, fun _ _ => none⟩

theorem attentive_start (index : Database) (documents : Keyed Document.node) :
    Attentive limits (startOf index documents) where
  counts node := le_refl 0
  remembered parent child hcurrent := by cases hcurrent
  storing _ _ _ _ _ hphase := by cases hphase
  resetting _ _ hphase := by cases hphase

end Runs

section Example

/-- Payloads by their own text. -/
def textPayload (text : String) : Option (List (List Nat × Loaded)) :=
  match loads interpreter text with
  | .ok (.dict members) => some members
  | _ => none

def textMeasure (text : String) : Option Nat :=
  match textPayload text with
  | none => some 0
  | some members =>
    let short := ((Loaded.get members "short").bind Loaded.asStr).getD []
    match Loaded.get members "full" with
    | none | some .null => some short.length
    | some (.str full) => some (max short.length full.length)
    | some _ => none

def textCodec : PayloadCodec where
  Payload := String
  loads text := (loads interpreter text).map fun _ => text
  equal payload previous := payload == previous
  dumps := id
  short text := (textPayload text).bind fun members =>
    (Loaded.get members "short").bind Loaded.asStr
  measure := textMeasure

theorem rereads_textCodec : Rereads interpreter textCodec := by
  intro text short hshort hvoiced
  obtain ⟨members, hmembers, hget⟩ := Option.bind_eq_some_iff.mp hshort
  have hloads : loads interpreter text = .ok (.dict members) := by
    unfold textPayload at hmembers
    split at hmembers
    · next members' hloads =>
      cases hmembers
      exact hloads
    · cases hmembers
  refine ⟨members, (short, (Loaded.get members "full").bind Loaded.asStr), hloads, ?_, ?_⟩
  · unfold takeTexts
    rw [hget, Option.filter_some_pos (by simpa using hvoiced)]
  · rintro heq
    have hempty : (loads interpreter "").toOption.isSome = false := by decide +kernel
    have htext : text = "" := heq
    rw [htext] at hloads
    rw [hloads] at hempty
    cases hempty

def shortPayload (short : String) : String :=
  "\x7b\"short\": \"" ++ short ++ "\", \"full\": null\x7d"

/-- A file with one function. -/
def pyIndex : Database :=
  { Database.empty with
    files := ⟨[plainFile "a.py"], List.nodup_singleton _⟩
    symbols := ⟨[plainSymbol "a.py" "f"], List.nodup_singleton _⟩ }

def writeFunction (short : String) : CourseEvent :=
  .write ⟨symbolNode "a.py" "f", some (shortPayload short), .ok⟩

def writeFile (short : String) : CourseEvent :=
  .write ⟨fileNode "a.py", some (shortPayload short), .ok⟩

/-- No threshold is reached and the LLM is not reached. -/
def quietWorld : World :=
  ⟨true, false, 50, -1, 250, none, .nothing, .nothing, .nothing⟩

/-- A node that is nobody's child can be written at any time. -/
theorem told_of_childless {g : Digests} {limits : Limits} {codec : PayloadCodec} {s : Course}
    {c : WriteCall} (h : ∀ parent, c.node ∉ childrenOf s.ledger.index parent) :
    Told g limits codec s c :=
  fun _ parent hchild => absurd hchild (h parent)

/-- As long as no summary has been written, nobody has to hear of a change. -/
theorem told_of_start {g : Digests} {limits : Limits} {codec : PayloadCodec} (index : Database)
    (documents : Keyed Document.node) (c : WriteCall) :
    Told g limits codec (startOf index documents) c := by
  refine fun _ parent _ => .inr ⟨fun hpending => ?_, fun hcurrent => ?_⟩
  · cases hpending
  · cases hcurrent

theorem step_write {g : Digests} {limits : Limits} {codec : PayloadCodec} (s : Course)
    (c : WriteCall) : (s.step g limits codec (.write c)).phase = s.phase ∧
      (s.step g limits codec (.write c)).ledger.index = s.ledger.index := by
  simp only [Course.step]
  cases hwrite : s.write g limits codec c with
  | none => exact ⟨rfl, rfl⟩
  | some s' => exact ⟨(wrote hwrite).phase, (wrote hwrite).index⟩

theorem fileNode_childless {path : String} (parent : Node) :
    fileNode path ∉ childrenOf pyIndex parent := by
  obtain ⟨kind, ref⟩ := parent
  intro h
  cases kind with
  | symbol => cases h
  | file =>
    obtain ⟨row, -, heq⟩ := List.mem_map.mp h
    cases heq
  | cluster => cases h

/-- Both summaries are written once, and a pass begins. -/
def summarized : List CourseEvent := [writeFunction "Runs.", writeFile "A runner.", .start true]

def Phase.resets : Phase → Option Node
  | .resetting _ parent => some parent
  | _ => none

theorem resetting_of_resets {phase : Phase} {parent : Node} (h : phase.resets = some parent) :
    ∃ agenda, phase = .resetting agenda parent := by
  cases phase with
  | resetting agenda other =>
    cases h
    exact ⟨agenda, rfl⟩
  | _ => cases h

/-- The new summary of the function is written twice, and the pass compares the two. -/
def rewritten : List CourseEvent :=
  [writeFunction "Runs.", writeFile "A runner.", writeFunction "Stops.", writeFunction "Stops.",
    .start true, .advance quietWorld, .advance quietWorld, .advance quietWorld]

def forgetting : Course :=
  run (Course.step bareDigests interpreter textCodec) (startOf pyIndex .empty) rewritten

end Example

end RemyCC.Retrieval
