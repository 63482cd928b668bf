import RemyCC.Json.RoundTrip
import RemyCC.Text.Words
import RemyCC.Retrieval.Hashed
import RemyCC.Retrieval.Agreement
import RemyCC.Opening.Escalation
import RemyCC.Text.Digest

/-!
# Navigation by intent

The rows that an intent is ranked over come from documents, from the clusters of
their files and from the summaries of all clusters. A ranking is cached under a
digest of the rows' references and of the digests of their documents. What the
searches find is an input of a call.
-/

namespace RemyCC.Mcp

open Relational Text Index Retrieval

structure Candidate where
  kind : NodeKind
  nodeRef : String
  cluster : String
  file : Option String
  symbol : Option String
  short : String
  contentHash : String
  sources : List (String × Int)
  deriving DecidableEq, Repr

/-- What a call's searches find: references of documents, and symbols by file and name. -/
structure Hits where
  clusters : List String
  files : List String
  symbols : List (String × String × List (String × Int))

structure NavigateCall where
  intent : String
  topK : Int
  hits : Hits
  llmEnabled : Bool

section Candidates

variable (s : Store)

/-- The files of the clusters. The last cluster of a file counts. -/
def fileClusterMap (d : Database) : List (String × String) :=
  d.members.flatMap fun m =>
    (d.clusters.rows.filter fun k => k.id == m.clusterId).map fun k => (m.filePath, k.name)

def clusterOf (d : Database) (path : String) : String :=
  (((fileClusterMap d).reverse.find? fun entry => entry.1 == path).map Prod.snd).getD
    "(unclustered)"

def navigateDocRows (kind : NodeKind) (refs : List String) :
    List (String × Option String × String) :=
  refs.filterMap fun ref =>
    (s.document? ⟨kind, ref⟩).map fun doc => (ref, doc.summaryShort, doc.contentHash)

def docCandidate (kind : NodeKind) (position : Nat) (row : String × Option String × String) :
    Candidate where
  kind := kind
  nodeRef := row.1
  cluster := if kind = .cluster then row.1 else clusterOf s.index row.1
  file := if kind = .cluster then none else some row.1
  symbol := none
  short := row.2.1.getD ""
  contentHash := row.2.2
  sources := [("bm25", position + 1)]

/-- The digest and the short text of a symbol's document, if it has one. -/
def navigateSymbolDoc (ref : String) : String × Option String :=
  match s.document? ⟨.symbol, ref⟩ with
  | some doc => (doc.contentHash, doc.summaryShort)
  | none => ("", none)

def symbolCandidate (hit : String × String × List (String × Int)) : Candidate :=
  let nodeRef := symbolRef hit.1 hit.2.1
  let doc := navigateSymbolDoc s nodeRef
  { kind := .symbol
    nodeRef := nodeRef
    cluster := clusterOf s.index hit.1
    file := some hit.1
    symbol := some hit.2.1
    short := doc.2.getD ""
    contentHash := doc.1
    sources := hit.2.2 }

def navigateCandidates (hits : Hits) : List Candidate :=
  (navigateDocRows s .cluster hits.clusters).mapIdx (docCandidate s .cluster) ++
    (navigateDocRows s .file hits.files).mapIdx (docCandidate s .file) ++
    hits.symbols.map (symbolCandidate s)

structure ClusterCorpusEntry where
  name : String
  label : Option String
  short : Option String

/-- No cluster has a label. -/
def collectClusterCorpus : List ClusterCorpusEntry :=
  (orderBy (fun a b => compare b.fileCount a.fileCount) s.index.clusters.rows).map fun k =>
    { name := k.name
      label := none
      short := (getLatestSummary Json.parse
        ((s.summaries.rows.filter fun r => r.node == clusterNode k.name).map
          SummaryVersion.row)).bind Summary.short }

def fallbackCandidate (entry : ClusterCorpusEntry) : Candidate where
  kind := .cluster
  nodeRef := entry.name
  cluster := entry.name
  file := none
  symbol := none
  short := ((entry.short.filter (· ≠ "")).or (entry.label.filter (· ≠ ""))).getD ""
  contentHash := ((s.document? (clusterNode entry.name)).map Document.contentHash).getD ""
  sources := []

def clusterFallbackCandidates : List Candidate :=
  (collectClusterCorpus s).map (fallbackCandidate s)

/-- The rows that a call looks up or ranks, unless it has answered before. -/
def queryCandidates (q : NavigateCall) : Option (List Candidate) :=
  if trim q.intent = "" then none
  else if navigateCandidates s q.hits ≠ [] then some (navigateCandidates s q.hits)
  else if !q.llmEnabled || (collectClusterCorpus s).isEmpty then none
  else some (clusterFallbackCandidates s)

end Candidates

section Keys

def navigatePromptVersion : String := "p1_4.1"

def NavigateCall.limit (q : NavigateCall) : Int := max 1 (min 20 q.topK)

variable (g : Digests) (toLowercase : String → String)

def normalizeIntent (intent : String) : String :=
  joinWith " " ((words isWhitespace (toLowercase intent).toList).map String.ofList)

def keyRow (entry : Candidate) : Json.Value :=
  .arr [.str entry.kind.text, .str entry.nodeRef, .str entry.contentHash]

def keyPayload (intent : String) (topK : Int) (candidates : List Candidate) : Json.Value :=
  .obj [("candidates", .arr (candidates.map keyRow)),
    ("intent", .str (normalizeIntent toLowercase intent)),
    ("template", .str navigatePromptVersion), ("top_k", .int topK)]

def navigateCacheKey (intent : String) (topK : Int) (candidates : List Candidate) : String :=
  "navigate:" ++ g.sha256 (Json.print (keyPayload toLowercase intent topK candidates))

def promptRow (entry : Candidate) : Json.Value :=
  .obj [("kind", .str entry.kind.text), ("cluster", .str entry.cluster),
    ("file", Retrieval.optional entry.file), ("symbol", Retrieval.optional entry.symbol),
    ("short", .str entry.short)]

/-- The payload of the prompt. -/
def promptPayload (intent : String) (candidates : List Candidate) (topK : Int) : Json.Value :=
  .obj [("intent", .str intent), ("top_k", .int topK),
    ("candidates", .arr (candidates.map promptRow))]

end Keys

section Shown

variable {g : Digests} {s : Store}

/-- What a row shows of its file, and where its text and its digest come from. -/
structure Candidate.Of (s : Store) (a : Candidate) : Prop where
  cluster : a.kind = .cluster → a.file = none ∧ a.symbol = none ∧ a.cluster = a.nodeRef
  file : a.kind = .file → a.file = some a.nodeRef ∧ a.symbol = none ∧
    a.cluster = clusterOf s.index a.nodeRef
  symbol : a.kind = .symbol → ∃ path name, a.nodeRef = symbolRef path name ∧
    a.file = some path ∧ a.symbol = some name ∧ a.cluster = clusterOf s.index path
  text : (a.contentHash = "" ∧ a.short = "") ∨ ∃ doc, s.document? ⟨a.kind, a.nodeRef⟩ = some doc ∧
    a.contentHash = doc.contentHash ∧ a.short = doc.summaryShort.getD ""

theorem docCandidate_of {kind : NodeKind} (hkind : kind ≠ .symbol) (position : Nat)
    {row : String × Option String × String} {refs : List String}
    (hrow : row ∈ navigateDocRows s kind refs) : (docCandidate s kind position row).Of s := by
  obtain ⟨ref, -, hdoc⟩ := List.mem_filterMap.mp hrow
  obtain ⟨doc, hfound, rfl⟩ := Option.map_eq_some_iff.mp hdoc
  refine ⟨fun h => ?_, fun h => ?_, fun h => absurd h hkind,
    .inr ⟨doc, hfound, rfl, rfl⟩⟩
  · have hcluster : kind = .cluster := h
    simp [docCandidate, hcluster]
  · have hfile : kind = .file := h
    simp [docCandidate, hfile]

theorem symbolCandidate_of (hit : String × String × List (String × Int)) :
    (symbolCandidate s hit).Of s := by
  refine ⟨fun h => ?_, fun h => ?_, fun _ => ⟨_, _, rfl, rfl, rfl, rfl⟩, ?_⟩
  · cases h
  · cases h
  unfold symbolCandidate navigateSymbolDoc
  dsimp only
  cases hdoc : s.document? ⟨.symbol, symbolRef hit.1 hit.2.1⟩ with
  | some doc => exact .inr ⟨doc, rfl, rfl, rfl⟩
  | none => exact .inl ⟨rfl, rfl⟩

theorem navigateCandidates_of {hits : Hits} {a : Candidate} (h : a ∈ navigateCandidates s hits) :
    a.Of s := by
  rw [navigateCandidates, List.mem_append, List.mem_append] at h
  rcases h with (h | h) | h
  · obtain ⟨i, hi, rfl⟩ := List.mem_mapIdx.mp h
    exact docCandidate_of (by decide) i (List.getElem_mem hi)
  · obtain ⟨i, hi, rfl⟩ := List.mem_mapIdx.mp h
    exact docCandidate_of (by decide) i (List.getElem_mem hi)
  · obtain ⟨hit, -, rfl⟩ := List.mem_map.mp h
    exact symbolCandidate_of hit

theorem readPayload_short {text short : String} {full : Option String}
    (h : readPayload text = some (short, full)) : short ≠ "" := by
  rintro rfl
  unfold readPayload at h
  split at h
  · split at h
    · next short' hshort =>
      split at h
      · cases h
      · next hblank =>
        cases h
        exact hblank (by decide)
    · cases h
  · cases h

theorem selectFrom_short {rows : List SummaryVersion} {short : String}
    (h : (selectFrom rows).short = some short) : short ≠ "" := by
  induction rows with
  | nil => cases h
  | cons r rows ih =>
    rw [selectFrom] at h
    split at h
    · cases h
    · split at h
      · cases hread : r.summary.bind readPayload with
        | none =>
          rw [hread] at h
          exact ih h
        | some payload =>
          rw [hread] at h
          cases h
          obtain ⟨text, -, htext⟩ := Option.bind_eq_some_iff.mp hread
          exact readPayload_short htext
      · exact ih h

theorem latest_short (rows : List SummaryVersion) (node : Node) :
    (getLatestSummary Json.parse ((rows.filter fun r => r.node == node).map
      SummaryVersion.row)).bind Summary.short = (selectCurrentSummary rows node).short := by
  have htexts : (latestTexts Json.parse ((rows.filter fun r => r.node == node).map
      SummaryVersion.row)).1 = _ := congrArg Prod.fst (latestTexts_eq _)
  rw [selectCurrentSummary_eq]
  refine Eq.trans ?_ htexts
  unfold latestTexts
  cases getLatestSummary Json.parse _ <;> rfl

theorem filled_short (rows : List SummaryVersion) (node : Node) :
    (((selectCurrentSummary rows node).short.filter (· ≠ "")).or
      ((none : Option String).filter (· ≠ ""))).getD "" =
      (selectCurrentSummary rows node).short.getD "" := by
  cases hshort : (selectCurrentSummary rows node).short with
  | none => rfl
  | some short =>
    have hne : short ≠ "" := selectFrom_short hshort
    simp [Option.filter, hne]

/-- The short text of a cluster in the corpus is that of its document. -/
theorem fallbackCandidate_of (hs : Reached g s) {a : Candidate}
    (h : a ∈ clusterFallbackCandidates s) : a.Of s := by
  obtain ⟨entry, hentry, rfl⟩ := List.mem_map.mp h
  obtain ⟨k, hk, rfl⟩ := List.mem_map.mp hentry
  rw [mem_orderBy] at hk
  refine ⟨fun _ => ⟨rfl, rfl, rfl⟩, fun h => ?_, fun h => ?_, ?_⟩
  · cases h
  · cases h
  · obtain ⟨k', hk'⟩ : ∃ k', s.index.clusters.rows.find? (·.name == k.name) = some k' :=
      Option.isSome_iff_exists.mp (List.find?_isSome.mpr ⟨k, hk, beq_self_eq_true _⟩)
    have hdoc : s.document? (clusterNode k.name) =
        some (documentOf g (clusterNode k.name) (clusterFacts k')
          (selectCurrentSummary s.summaries.rows (clusterNode k.name))) := by
      rw [hs.follows k.name, Store.expected, clusterNode, loadFactDocument, hk']
      rfl
    refine .inr ⟨_, hdoc, ?_, ?_⟩
    · simp only [fallbackCandidate, hdoc, Option.map_some, Option.getD_some]
    · simp only [fallbackCandidate, latest_short]
      exact filled_short _ _

theorem queryCandidates_of (hs : Reached g s) {q : NavigateCall} {candidates : List Candidate}
    (h : queryCandidates s q = some candidates) : ∀ a ∈ candidates, a.Of s := by
  intro a ha
  unfold queryCandidates at h
  split at h
  · cases h
  · split at h
    · cases h
      exact navigateCandidates_of ha
    · split at h
      · cases h
      · cases h
        exact fallbackCandidate_of hs ha

end Shown

section Keyed

variable {g : Digests} {toLowercase : String → String} {s₁ s₂ : Store} {a b : Candidate}

theorem print_injective {depth : Nat} {v w : Json.Value} (hv : Json.Printable depth v)
    (hw : Json.Printable depth w) (h : Json.print v = Json.print w) : v = w := by
  have hread := Json.readText_print hv
  rw [h, Json.readText_print hw] at hread
  exact (Option.some.inj hread).symm

theorem kindText_injective {k k' : NodeKind} (h : k.text = k'.text) : k = k' := by
  cases k <;> cases k' <;> first | rfl | exact absurd h (by decide)

theorem optional_injective {o o' : Option String}
    (h : Retrieval.optional o = Retrieval.optional o') : o = o' := by
  cases o <;> cases o' <;> cases h <;> rfl

theorem optional_printable (o : Option String) : Json.Printable 0 (Retrieval.optional o) := by
  cases o
  · exact .null
  · exact .str _

theorem keyPayload_printable (intent : String) {topK : Int} (hlow : 1 ≤ topK) (hhigh : topK ≤ 20)
    (candidates : List Candidate) :
    Json.Printable 3 (keyPayload toLowercase intent topK candidates) := by
  refine .obj (by simp) fun f hf => ?_
  simp only [List.mem_cons, List.not_mem_nil, or_false] at hf
  rcases hf with rfl | rfl | rfl | rfl
  · refine .arr fun v hv => ?_
    obtain ⟨entry, -, rfl⟩ := List.mem_map.mp hv
    refine .arr fun w hw => ?_
    simp only [List.mem_cons, List.not_mem_nil, or_false] at hw
    rcases hw with rfl | rfl | rfl <;> exact .str _
  · exact .str _
  · exact .str _
  · exact .int (by omega) (by omega)

theorem hashPayload_printable (node : Node) (facts : FactDocument) (summary : CurrentSummary) :
    Json.Printable 1 (hashPayload node facts summary) := by
  refine .obj (by simp) fun f hf => ?_
  simp only [List.mem_cons, List.not_mem_nil, or_false] at hf
  rcases hf with rfl | rfl | rfl | rfl | rfl | rfl | rfl | rfl | rfl | rfl <;>
    first | exact .str _ | exact optional_printable _

/-- The digest of a document determines its short text. -/
theorem documentHash_short (hsha : Function.Injective g.sha256) {node node' : Node}
    {facts facts' : FactDocument} {summary summary' : CurrentSummary}
    (h : documentHash g node facts summary = documentHash g node' facts' summary') :
    summary.short = summary'.short := by
  have hpayload := print_injective (hashPayload_printable node facts summary)
    (hashPayload_printable node' facts' summary') (hsha h)
  simp only [hashPayload, Json.Value.obj.injEq, List.cons.injEq, Prod.mk.injEq, true_and] at hpayload
  exact optional_injective hpayload.2.2.2.2.2.2.2.2.1

theorem limit_bounds (q : NavigateCall) : 1 ≤ q.limit ∧ q.limit ≤ 20 := by
  unfold NavigateCall.limit
  omega

theorem forall₂_of_map_eq {α β : Type} {f : α → β} {xs ys : List α} (h : xs.map f = ys.map f) :
    List.Forall₂ (fun x y => f x = f y) xs ys := by
  induction xs generalizing ys with
  | nil =>
    rw [List.map_nil, eq_comm, List.map_eq_nil_iff] at h
    rw [h]
    exact .nil
  | cons x xs ih =>
    cases ys with
    | nil => cases h
    | cons y ys =>
      rw [List.map_cons, List.map_cons, List.cons.injEq] at h
      exact .cons h.1 (ih h.2)

/-- What a key determines of the calls it is made for. -/
theorem key_determines (hsha : Function.Injective g.sha256) {q₁ q₂ : NavigateCall}
    {c₁ c₂ : List Candidate}
    (hkey : navigateCacheKey g toLowercase q₁.intent q₁.limit c₁ =
      navigateCacheKey g toLowercase q₂.intent q₂.limit c₂) :
    List.Forall₂ (fun a b => keyRow a = keyRow b) c₁ c₂ ∧ q₁.limit = q₂.limit ∧
      normalizeIntent toLowercase q₁.intent = normalizeIntent toLowercase q₂.intent := by
  obtain ⟨hlow₁, hhigh₁⟩ := limit_bounds q₁
  obtain ⟨hlow₂, hhigh₂⟩ := limit_bounds q₂
  have hdigest := hsha ((String.append_right_inj "navigate:").mp hkey)
  have hpayload := print_injective (keyPayload_printable q₁.intent hlow₁ hhigh₁ c₁)
    (keyPayload_printable q₂.intent hlow₂ hhigh₂ c₂) hdigest
  simp only [keyPayload, Json.Value.obj.injEq, List.cons.injEq, Prod.mk.injEq, true_and,
    Json.Value.arr.injEq, Json.Value.str.injEq, Json.Value.int.injEq, and_true] at hpayload
  exact ⟨forall₂_of_map_eq hpayload.1, hpayload.2.2, hpayload.2.1⟩

theorem keyRow_eq (h : keyRow a = keyRow b) :
    a.kind = b.kind ∧ a.nodeRef = b.nodeRef ∧ a.contentHash = b.contentHash := by
  simp only [keyRow, Json.Value.arr.injEq, List.cons.injEq, Json.Value.str.injEq, and_true] at h
  exact ⟨kindText_injective h.1, h.2⟩

/-- Rows with one key show the same text. -/
theorem short_eq (hsha : Function.Injective g.sha256) (hnonempty : ∀ text, g.sha256 text ≠ "")
    (h₁ : Hashed g s₁) (h₂ : Hashed g s₂) (ha : a.Of s₁) (hb : b.Of s₂)
    (hhash : a.contentHash = b.contentHash) : a.short = b.short := by
  have hdocument {s : Store} {node : Node} {doc : Document} (hs : Hashed g s)
      (hdoc : s.document? node = some doc) :
      ∃ facts summary, doc = documentOf g doc.node facts summary :=
    hs doc (List.mem_of_find?_eq_some hdoc)
  rcases ha.text with ⟨hempty, hshort⟩ | ⟨doc, hdoc, hcontent, hshort⟩
  · rcases hb.text with ⟨-, hshort'⟩ | ⟨doc', hdoc', hcontent', -⟩
    · rw [hshort, hshort']
    · obtain ⟨facts, summary, heq⟩ := hdocument h₂ hdoc'
      rw [hempty, hcontent', heq] at hhash
      exact absurd hhash.symm (hnonempty _)
  · obtain ⟨facts, summary, heq⟩ := hdocument h₁ hdoc
    rcases hb.text with ⟨hempty, -⟩ | ⟨doc', hdoc', hcontent', hshort'⟩
    · rw [hempty, hcontent, heq] at hhash
      exact absurd hhash (hnonempty _)
    · obtain ⟨facts', summary', heq'⟩ := hdocument h₂ hdoc'
      rw [hcontent, hcontent', heq, heq'] at hhash
      have hsummary : summary.short = summary'.short := documentHash_short hsha hhash
      rw [hshort, hshort', heq, heq']
      exact congrArg (Option.getD · "") hsummary

theorem promptRow_eq_iff (ha : a.Of s₁) (hb : b.Of s₂) (hkind : a.kind = b.kind)
    (href : a.nodeRef = b.nodeRef) (hshort : a.short = b.short) :
    promptRow a = promptRow b ↔ a.file = b.file ∧
      ∀ path ∈ a.file, clusterOf s₁.index path = clusterOf s₂.index path := by
  have hrow : promptRow a = promptRow b ↔
      a.cluster = b.cluster ∧ a.file = b.file ∧ a.symbol = b.symbol := by
    simp only [promptRow, hkind, hshort, Json.Value.obj.injEq, List.cons.injEq, Prod.mk.injEq,
      true_and, Json.Value.str.injEq, and_true]
    refine and_congr_right fun _ => and_congr ⟨optional_injective, fun h => by rw [h]⟩
      ⟨optional_injective, fun h => by rw [h]⟩
  rw [hrow]
  cases hk : a.kind with
  | cluster =>
    obtain ⟨hfile, hsymbol, hcluster⟩ := ha.cluster hk
    obtain ⟨hfile', hsymbol', hcluster'⟩ := hb.cluster (hkind ▸ hk)
    simp [hfile, hsymbol, hcluster, hfile', hsymbol', hcluster', href]
  | file =>
    obtain ⟨hfile, hsymbol, hcluster⟩ := ha.file hk
    obtain ⟨hfile', hsymbol', hcluster'⟩ := hb.file (hkind ▸ hk)
    simp [hfile, hsymbol, hcluster, hfile', hsymbol', hcluster', href]
  | symbol =>
    obtain ⟨path, name, href₁, hfile, hsymbol, hcluster⟩ := ha.symbol hk
    obtain ⟨path', name', href₂, hfile', hsymbol', hcluster'⟩ := hb.symbol (hkind ▸ hk)
    rw [hfile, hsymbol, hcluster, hfile', hsymbol', hcluster']
    have hname : path = path' → name = name' := by
      rintro rfl
      have hrefs := href₁.symm.trans (href.trans href₂)
      exact (String.append_right_inj _).mp hrefs
    constructor
    · rintro ⟨hclusters, hpath, -⟩
      refine ⟨hpath, fun q hq => ?_⟩
      cases hq
      rw [hclusters, Option.some.inj hpath]
    · rintro ⟨hpath, hclusters⟩
      refine ⟨?_, hpath, by rw [hname (Option.some.inj hpath)]⟩
      rw [hclusters path rfl, Option.some.inj hpath]

/-- Two calls with one cache key have the same rows and the same limit in their prompts, and
intents that differ in case and blanks at most, if and only if their rows are of the same
files and these of clusters of the same names in both indexes. -/
theorem navigate_key_iff (hsha : Function.Injective g.sha256)
    (hnonempty : ∀ text, g.sha256 text ≠ "") (toLowercase : String → String)
    (h₁ : Reached g s₁) (h₂ : Reached g s₂) (q₁ q₂ : NavigateCall) {c₁ c₂ : List Candidate}
    (hc₁ : queryCandidates s₁ q₁ = some c₁) (hc₂ : queryCandidates s₂ q₂ = some c₂)
    (hkey : navigateCacheKey g toLowercase q₁.intent q₁.limit c₁ =
      navigateCacheKey g toLowercase q₂.intent q₂.limit c₂) :
    (c₁.map promptRow = c₂.map promptRow ∧ q₁.limit = q₂.limit ∧
        normalizeIntent toLowercase q₁.intent = normalizeIntent toLowercase q₂.intent) ↔
      List.Forall₂ (fun a b => a.file = b.file ∧
        ∀ path ∈ a.file, clusterOf s₁.index path = clusterOf s₂.index path) c₁ c₂ := by
  obtain ⟨hrows, hlimit, hintent⟩ := key_determines hsha hkey
  have hof₁ := queryCandidates_of h₁ hc₁
  have hof₂ := queryCandidates_of h₂ hc₂
  have hprompt : c₁.map promptRow = c₂.map promptRow ↔
      List.Forall₂ (fun a b => a.file = b.file ∧
        ∀ path ∈ a.file, clusterOf s₁.index path = clusterOf s₂.index path) c₁ c₂ := by
    clear hc₁ hc₂ hkey
    induction hrows with
    | nil => simp
    | @cons a b c₁ c₂ hrow hrows ih =>
      obtain ⟨hkind, href, hhash⟩ := keyRow_eq hrow
      have ha := hof₁ a List.mem_cons_self
      have hb := hof₂ b List.mem_cons_self
      rw [List.map_cons, List.map_cons, List.cons.injEq, List.forall₂_cons,
        promptRow_eq_iff ha hb hkind href (short_eq hsha hnonempty h₁.hashed h₂.hashed ha hb hhash),
        ih (fun a ha => hof₁ a (List.mem_cons_of_mem _ ha))
          fun b hb => hof₂ b (List.mem_cons_of_mem _ hb)]
  exact ⟨fun h => hprompt.mp h.1, fun h => ⟨hprompt.mpr h, hlimit, hintent⟩⟩

end Keyed

section Samples

open Discovery

theorem mainPy_slashless : '/' ∉ "main.py".toList := by decide

theorem mainPy_notDot : "main.py" ≠ "." := by decide

theorem mainPy_named : "lib/main.py" ≠ "" := by decide

def mainFacts : FileFacts := pythonFacts "lib/main.py" "1" [] [] mainPy_named List.nodup_nil

/-- A directory of two files. -/
def twoSources : Sources :=
  { Opening.oneFile with
    root := [(⟨"lib", Opening.lib_slashless, Opening.lib_notDot⟩,
      .dir [(⟨"main.py", mainPy_slashless, mainPy_notDot⟩, .file),
        (⟨"work.py", Opening.workPy_slashless, Opening.workPy_notDot⟩, .file)])] }

/-- A configuration under which any two files of a directory are a cluster. -/
def anyDensity : PostprocessConfig :=
  { PostprocessConfig.default with
    clusterDensityThreshold := 0
    clusterDensityThreshold_range := le_refl 0 }

def workDigest : String := "dcfe2e4586024997f7ad997e23f654a52e7a51f01be47bc50a247cc2389878cd"

def keyDigest : String := "1f095e18135fceb9e44c50d6a6b7c9ce4bb9177f7e0035a94c35d9ffabee4012"

/-- The digests of one document and of one key. -/
def sampleSha256 : String → String :=
  known ("\x7b\"file_path\":\"lib/work.py\",\"language\":\"PythonParser\",\"name\":\"work.py\"," ++
      "\"name_tokens\":\"lib work.py\",\"node_kind\":\"file\",\"node_ref\":\"lib/work.py\"," ++
      "\"signature\":null,\"summary_full\":null,\"summary_short\":null,\"symbol_type\":null\x7d")
    workDigest
    (known ("\x7b\"candidates\":[[\"file\",\"lib/work.py\",\"" ++ workDigest ++ "\"]]," ++
        "\"intent\":\"where is the work done\",\"template\":\"p1_4.1\",\"top_k\":5\x7d")
      keyDigest dashed)

def sampleDigests : Digests := ⟨plainHashes, sampleSha256⟩

theorem dashed_ne_work : ∀ text, dashed text ≠ workDigest := dashed_ne (by decide)

theorem dashed_ne_key : ∀ text, dashed text ≠ keyDigest := dashed_ne (by decide)

theorem sampleSha256_injective : Function.Injective sampleDigests.sha256 := by
  have hdigests : keyDigest ≠ workDigest := by decide
  exact known_injective (known_injective dashed_injective dashed_ne_key)
    (known_ne hdigests dashed_ne_work)

theorem sampleSha256_ne (text : String) : sampleDigests.sha256 text ≠ "" := by
  have hwork : workDigest ≠ "" := by decide
  have hkey : keyDigest ≠ "" := by decide
  exact known_ne hwork (known_ne hkey (dashed_ne (by decide))) text

def apart : Store :=
  Store.empty.scanFull sampleDigests false .default twoSources [.facts mainFacts, .facts calleeFacts]

/-- The same files scanned again under another configuration. -/
def together : Store :=
  apart.scanFull sampleDigests false anyDensity twoSources [.facts mainFacts, .facts calleeFacts]

theorem apart_reached : Reached sampleDigests apart := .full false .default twoSources _ .empty

theorem together_reached : Reached sampleDigests together :=
  .full false anyDensity twoSources _ apart_reached

def workCall (intent : String) : NavigateCall := ⟨intent, 5, ⟨[], ["lib/work.py"], []⟩, true⟩

def workRow (cluster : String) : Candidate where
  kind := .file
  nodeRef := "lib/work.py"
  cluster := cluster
  file := some "lib/work.py"
  symbol := none
  short := ""
  contentHash := workDigest
  sources := [("bm25", 1)]

theorem workCall_rows {s : Store} {intent : String} {row : Candidate} (hintent : trim intent ≠ "")
    (hrows : navigateCandidates s ⟨[], ["lib/work.py"], []⟩ = [row]) :
    queryCandidates s (workCall intent) = some [row] := by
  have hsome : navigateCandidates s (workCall intent).hits = [row] := hrows
  have htrim : trim (workCall intent).intent ≠ "" := hintent
  rw [queryCandidates, if_neg htrim, hsome, if_pos (List.cons_ne_nil row [])]

theorem apart_rows : navigateCandidates apart ⟨[], ["lib/work.py"], []⟩ =
    [workRow "(unclustered)"] := by decide +kernel

theorem together_rows : navigateCandidates together ⟨[], ["lib/work.py"], []⟩ =
    [workRow "lib"] := by decide +kernel

theorem workCall_apart : queryCandidates apart (workCall "Where is the work done") =
    some [workRow "(unclustered)"] :=
  workCall_rows (by decide +kernel) apart_rows

theorem workCall_again : queryCandidates apart (workCall " where is  the WORK done") =
    some [workRow "(unclustered)"] :=
  workCall_rows (by decide +kernel) apart_rows

theorem workCall_together : queryCandidates together (workCall "Where is the work done") =
    some [workRow "lib"] :=
  workCall_rows (by decide +kernel) together_rows

/-- The key of the sample's calls. -/
theorem workCall_key (intent cluster : String)
    (hintent : intent = "Where is the work done" ∨ intent = " where is  the WORK done") :
    navigateCacheKey sampleDigests asciiLower intent (workCall intent).limit [workRow cluster] =
      "navigate:" ++ keyDigest := by
  have hrow : [workRow cluster].map keyRow = [workRow ""].map keyRow := rfl
  have hnormal : normalizeIntent asciiLower intent = "where is the work done" := by
    rcases hintent with rfl | rfl <;> decide +kernel
  have hlimit : (workCall intent).limit = 5 := rfl
  rw [navigateCacheKey, keyPayload, hrow, hnormal, hlimit]
  decide +kernel

/-- One intent written in two ways. -/
theorem intents_alike :
    [workRow "(unclustered)"].map promptRow = [workRow "(unclustered)"].map promptRow ∧
      (workCall "Where is the work done").limit = (workCall " where is  the WORK done").limit ∧
      normalizeIntent asciiLower "Where is the work done" =
        normalizeIntent asciiLower " where is  the WORK done" :=
  (navigate_key_iff sampleSha256_injective sampleSha256_ne asciiLower apart_reached apart_reached
    (workCall "Where is the work done") (workCall " where is  the WORK done")
    workCall_apart workCall_again
    ((workCall_key _ _ (.inl rfl)).trans (workCall_key _ _ (.inr rfl)).symm)).mpr
    (.cons ⟨rfl, fun _ _ => rfl⟩ .nil)

/-- A file that has come into a cluster is ranked as it was without it. -/
theorem cluster_unkeyed : ¬ ∀ (g : Digests) (toLowercase : String → String) (s₁ s₂ : Store)
    (q₁ q₂ : NavigateCall) (c₁ c₂ : List Candidate), Function.Injective g.sha256 →
    (∀ text, g.sha256 text ≠ "") → Reached g s₁ → Reached g s₂ →
    queryCandidates s₁ q₁ = some c₁ → queryCandidates s₂ q₂ = some c₂ →
    navigateCacheKey g toLowercase q₁.intent q₁.limit c₁ =
      navigateCacheKey g toLowercase q₂.intent q₂.limit c₂ →
    c₁.map promptRow = c₂.map promptRow ∧ q₁.limit = q₂.limit ∧
      normalizeIntent toLowercase q₁.intent = normalizeIntent toLowercase q₂.intent := by
  intro h
  have hrows := (h sampleDigests asciiLower apart together (workCall "Where is the work done")
    (workCall "Where is the work done") _ _ sampleSha256_injective sampleSha256_ne apart_reached
    together_reached workCall_apart workCall_together
    ((workCall_key _ _ (.inl rfl)).trans (workCall_key _ _ (.inl rfl)).symm)).1
  simp [promptRow, workRow] at hrows

end Samples

end RemyCC.Mcp
