import RemyCC.Index.PythonPatterns
import RemyCC.Index.Emission
import RemyCC.Index.Tracking
import RemyCC.Index.Settle

/-!
# Edges from senders to receivers

A sender is named by the function around it, which the parser has as a symbol.
So is an observer; but what is connected to a signal is named by a word of the
call, which may be imported, a lambda, a method without its class or `self`.
-/

namespace RemyCC.Index

open Relational Text

/-- The fact of a sender, that of a receiver and the mark of the edges. -/
structure EventKind where
  emitType : String
  connectType : String
  via : String
  deriving DecidableEq, Repr

def djangoSignals : EventKind := ⟨"django_signal_send", "django_signal_connect", "django-signal"⟩

def pyqtSignals : EventKind := ⟨"pyqt_signal_emit", "pyqt_signal_connect", "pyqt-signal"⟩

def observers : EventKind := ⟨"observer_emit", "observer_register", "observer"⟩

def eventKinds : List EventKind := [djangoSignals, pyqtSignals, observers]

def EventKind.edges (k : EventKind) (cap : Nat) (d : Database) : List InferredEdge :=
  synthesizeSignalPattern k.emitType k.connectType k.via cap d

def synthesizeEventEmitterEdges (cap : Nat) (d : Database) : Database :=
  eventKinds.foldl (fun d k => insertAll (k.edges cap d) d) d

/-- The event edges come first of all synthesized edges. -/
theorem runAllSynthesizers_events (c : PostprocessConfig) (d : Database) :
    runAllSynthesizers c d =
      let d := synthesizeEventEmitterEdges c.synthEventFanoutCap d
      let d := insertAll (synthesizeInterfaceOverrideEdges c.synthInterfaceFanoutCap d) d
      let d := insertAll (synthesizeCFnptrDispatchEdges d) d
      insertAll (synthesizeRustTraitImplEdges c.synthInterfaceFanoutCap d) d := rfl

section Emission

variable {k : EventKind} {cap : Nat} {d : Database} {e f : InferredEdge}
  {edges out : List InferredEdge}

def emitAll (edges out : List InferredEdge) : List InferredEdge :=
  edges.foldl (fun out e => (emitUnseen e out).getD out) out

theorem emitUnseen_getD (e : InferredEdge) (out : List InferredEdge) :
    (emitUnseen e out).getD out = if out.any e.sameKey then out else out ++ [e] := by
  unfold emitUnseen
  split <;> rfl

theorem mem_emitUnseen (h : e ∈ (emitUnseen f out).getD out) : e ∈ out ∨ e = f := by
  rw [emitUnseen_getD] at h
  split at h
  · exact .inl h
  · rcases List.mem_append.mp h with h | h
    · exact .inl h
    · exact .inr (List.mem_singleton.mp h)

theorem mem_emitAll (h : e ∈ emitAll edges out) : e ∈ out ∨ e ∈ edges := by
  induction edges generalizing out with
  | nil => exact .inl h
  | cons f edges ih =>
    rcases ih h with h | h
    · rcases mem_emitUnseen h with h | rfl
      · exact .inl h
      · exact .inr List.mem_cons_self
    · exact .inr (List.mem_cons_of_mem _ h)

theorem subset_emitAll : out ⊆ emitAll edges out := by
  induction edges generalizing out with
  | nil => exact fun _ h => h
  | cons f edges ih =>
    have hstep : out ⊆ (emitUnseen f out).getD out := by
      rw [emitUnseen_getD]
      split
      · exact fun _ h => h
      · exact List.subset_append_left _ _
    exact List.Subset.trans hstep ih

/-- Every candidate is emitted, by itself or by one with its key. -/
theorem key_mem_emitAll (h : e ∈ edges) : ∃ g ∈ emitAll edges out, g.key = e.key := by
  induction edges generalizing out with
  | nil => cases h
  | cons f edges ih =>
    rcases List.mem_cons.mp h with rfl | h
    · have hnow : ∃ g ∈ (emitUnseen e out).getD out, g.key = e.key := by
        rw [emitUnseen_getD]
        split
        · next hseen =>
          obtain ⟨g, hg, hsame⟩ := List.any_eq_true.mp hseen
          obtain ⟨hfile, hcaller, hcallee, hvia⟩ := sameKey_iff.mp hsame
          exact ⟨g, hg, by rw [InferredEdge.key, InferredEdge.key, hfile, hcaller, hcallee, hvia]⟩
        · exact ⟨e, by simp, rfl⟩
      obtain ⟨g, hg, hkey⟩ := hnow
      exact ⟨g, @subset_emitAll edges _ g hg, hkey⟩
    · exact ih h

/-- The edge from a sender to a receiver that has a name and is not the sender. -/
def targetEdge (via : String) (emitter : PatternRow) (func : String)
    (target : String × Option String) : Option InferredEdge :=
  match target.2 with
  | some handler =>
    if emitter.filePath = target.1 ∧ func = handler then none
    else some (signalEdge via emitter func target.1 handler)
  | none => none

def senderEdges (k : EventKind) (cap : Nat) (d : Database) (emitter : PatternRow) :
    List InferredEdge :=
  match emitter.signalName, emitter.handler with
  | some signal, some func =>
    if cap < (handlersOf k.connectType signal d).length then []
    else (handlersOf k.connectType signal d).filterMap (targetEdge k.via emitter func)
  | _, _ => []

theorem emitterEdges_eq (via : String) (targets : List (String × Option String))
    (emitter : PatternRow) (func : String) :
    emitterEdges via cap targets emitter func out =
      if cap < targets.length then out
      else emitAll (targets.filterMap (targetEdge via emitter func)) out := by
  unfold emitterEdges
  split
  · rfl
  · unfold emitAll
    rw [List.foldl_filterMap]
    congr 1
    funext out target
    unfold targetEdge
    cases target.2 with
    | none => rfl
    | some handler =>
      dsimp only
      split <;> rfl

theorem EventKind.edges_eq (k : EventKind) (cap : Nat) (d : Database) :
    k.edges cap d = emitAll ((emittersOf k.emitType d).flatMap (senderEdges k cap d)) [] := by
  unfold EventKind.edges synthesizeSignalPattern emitAll
  rw [List.foldl_flatMap]
  congr 1
  funext out emitter
  unfold senderEdges
  cases emitter.signalName with
  | none => rfl
  | some signal =>
    cases emitter.handler with
    | none => rfl
    | some func =>
      dsimp only
      rw [emitterEdges_eq]
      split <;> rfl

/-- A function sends a signal that a named receiver is connected to, and no more
receivers than the cap allows. -/
structure Reaches (k : EventKind) (cap : Nat) (d : Database) (emitter : PatternRow)
    (signal func path handler : String) : Prop where
  stored : emitter ∈ d.patterns
  kind : emitter.patternType = k.emitType
  sends : emitter.signalName = some signal
  sender : emitter.handler = some func
  capped : (handlersOf k.connectType signal d).length ≤ cap
  connected : (path, some handler) ∈ handlersOf k.connectType signal d
  other : ¬ (emitter.filePath = path ∧ func = handler)

theorem mem_emittersOf {emitType : String} {p : PatternRow} :
    p ∈ emittersOf emitType d ↔ p ∈ d.patterns ∧ p.patternType = emitType := by
  rw [emittersOf, mem_orderBy, patternsOf, List.mem_filter, beq_iff_eq]

theorem mem_senderEdges {emitter : PatternRow} (h : e ∈ senderEdges k cap d emitter)
    (hmem : emitter ∈ emittersOf k.emitType d) :
    ∃ signal func path handler, Reaches k cap d emitter signal func path handler ∧
      e = signalEdge k.via emitter func path handler := by
  obtain ⟨hstored, hkind⟩ := mem_emittersOf.mp hmem
  unfold senderEdges at h
  split at h
  · next signal func hsignal hsender =>
    split at h
    · cases h
    · next hcap =>
      obtain ⟨⟨path, handler?⟩, htarget, hedge⟩ := List.mem_filterMap.mp h
      unfold targetEdge at hedge
      cases handler? with
      | none => cases hedge
      | some handler =>
        dsimp only at hedge
        split at hedge
        · cases hedge
        · next hother =>
          exact ⟨signal, func, path, handler, ⟨hstored, hkind, hsignal, hsender,
            Nat.le_of_not_lt hcap, htarget, hother⟩, (Option.some.inj hedge).symm⟩
  · cases h

theorem Reaches.mem_senderEdges {emitter : PatternRow} {signal func path handler : String}
    (h : Reaches k cap d emitter signal func path handler) :
    signalEdge k.via emitter func path handler ∈ senderEdges k cap d emitter := by
  unfold senderEdges
  rw [h.sends, h.sender]
  dsimp only
  rw [if_neg (Nat.not_lt_of_le h.capped)]
  refine List.mem_filterMap.mpr ⟨_, h.connected, ?_⟩
  exact if_neg h.other

theorem EventKind.mem_edges (h : e ∈ k.edges cap d) :
    ∃ emitter signal func path handler, Reaches k cap d emitter signal func path handler ∧
      e = signalEdge k.via emitter func path handler := by
  rw [EventKind.edges_eq] at h
  rcases mem_emitAll h with h | h
  · cases h
  · obtain ⟨emitter, hmem, he⟩ := List.mem_flatMap.mp h
    exact ⟨emitter, mem_senderEdges he hmem⟩

theorem Reaches.key_mem_edges {emitter : PatternRow} {signal func path handler : String}
    (h : Reaches k cap d emitter signal func path handler) :
    ∃ g ∈ k.edges cap d, g.key = (signalEdge k.via emitter func path handler).key := by
  rw [EventKind.edges_eq]
  refine key_mem_emitAll (List.mem_flatMap.mpr ⟨emitter, ?_, h.mem_senderEdges⟩)
  exact mem_emittersOf.mpr ⟨h.stored, h.kind⟩

end Emission

section Insertion

variable {k : EventKind} {cap : Nat} {d d' : Database}

/-- A row that the synthesis of event edges adds. -/
def Synthesized (cap : Nat) (d : Database) (r : EdgeRow) : Prop :=
  r ∈ (synthesizeEventEmitterEdges cap d).edges.rows ∧ r ∉ d.edges.rows

theorem EventKind.edges_of_patterns (h : d'.patterns = d.patterns) (k : EventKind) (cap : Nat) :
    k.edges cap d' = k.edges cap d := by
  obtain ⟨_, _, _, _, _, patterns, _, _⟩ := d
  obtain ⟨_, _, _, _, _, patterns', _, _⟩ := d'
  cases h
  rfl

/-- The kinds do not read the edges that the kinds before them inserted. -/
theorem foldl_insertAll_eq (kinds : List EventKind) (h : d'.patterns = d.patterns) :
    kinds.foldl (fun d k => insertAll (k.edges cap d) d) d' =
      insertAll (kinds.flatMap fun k => k.edges cap d) d' := by
  induction kinds generalizing d' with
  | nil => rfl
  | cons k kinds ih =>
    rw [List.foldl_cons, ih ((insertAll_same _ d').patterns.trans h), k.edges_of_patterns h,
      List.flatMap_cons, insertAll, insertAll, insertAll, List.foldl_append]

theorem synthesizeEventEmitterEdges_eq (cap : Nat) (d : Database) :
    synthesizeEventEmitterEdges cap d =
      insertAll (eventKinds.flatMap fun k => k.edges cap d) d :=
  foldl_insertAll_eq eventKinds rfl

theorem Synthesized.edge {r : EdgeRow} (h : Synthesized cap d r) :
    ∃ k ∈ eventKinds, ∃ emitter signal func path handler,
      Reaches k cap d emitter signal func path handler ∧
        r = (signalEdge k.via emitter func path handler).row r.id := by
  obtain ⟨hmem, hnew⟩ := h
  rw [synthesizeEventEmitterEdges_eq] at hmem
  rcases mem_insertAll hmem with hold | ⟨e, he, hr⟩
  · exact absurd hold hnew
  · obtain ⟨k, hk, hedge⟩ := List.mem_flatMap.mp he
    obtain ⟨emitter, signal, func, path, handler, hreaches, rfl⟩ := EventKind.mem_edges hedge
    exact ⟨k, hk, emitter, signal, func, path, handler, hreaches, hr⟩

/-- Where no edge was inferred before, every receiver that is reached has a row. -/
theorem Reaches.inserted {emitter : PatternRow} {signal func path handler : String}
    (h : Reaches k cap d emitter signal func path handler) (hk : k ∈ eventKinds)
    (hdirect : inferredKeys d = []) :
    ∃ r, Synthesized cap d r ∧
      r.inferredKey = (signalEdge k.via emitter func path handler).key := by
  obtain ⟨e, he, hkey⟩ := h.key_mem_edges
  have hstored : e.key ∈ inferredKeys (synthesizeEventEmitterEdges cap d) := by
    rw [synthesizeEventEmitterEdges_eq]
    exact key_mem_insertAll (List.mem_flatMap.mpr ⟨k, hk, he⟩)
  obtain ⟨r, hr, hrkey⟩ := List.mem_map.mp hstored
  obtain ⟨hmem, hinferred⟩ := List.mem_filter.mp hr
  refine ⟨r, ⟨hmem, fun hold => ?_⟩, hrkey.trans hkey⟩
  have hin : r.inferredKey ∈ inferredKeys d :=
    List.mem_map_of_mem (List.mem_filter.mpr ⟨hold, hinferred⟩)
  rw [hdirect] at hin
  cases hin

theorem Synthesized.inferred {r : EdgeRow} (h : Synthesized cap d r) : (!r.direct) = true := by
  obtain ⟨k, -, emitter, signal, func, path, handler, -, hr⟩ := h.edge
  rw [hr]
  rfl

theorem Synthesized.eq_of_key {r r' : EdgeRow} (hdirect : inferredKeys d = [])
    (h : Synthesized cap d r) (h' : Synthesized cap d r') (hkey : r.inferredKey = r'.inferredKey) :
    r = r' := by
  have hnodup : (inferredKeys (synthesizeEventEmitterEdges cap d)).Nodup := by
    rw [synthesizeEventEmitterEdges_eq]
    exact nodup_insertAll (by rw [hdirect]; exact List.nodup_nil)
  exact List.inj_on_of_nodup_map hnodup (List.mem_filter.mpr ⟨h.1, h.inferred⟩)
    (List.mem_filter.mpr ⟨h'.1, h'.inferred⟩) hkey

end Insertion

/-- Event edges lead from symbols to symbols, no two of them are the same, and none
is of a signal that more receivers are connected to than the cap. -/
structure EventEdgesSound (cap : Nat) (d : Database) : Prop where
  caller : ∀ r, Synthesized cap d r →
    ∃ s ∈ d.symbols.rows, s.filePath = r.sourceFile ∧ s.name = r.caller
  callee : ∀ r, Synthesized cap d r →
    ∃ s ∈ d.symbols.rows, r.calleeQualified = some (s.filePath ++ "::" ++ s.name)
  single : ∀ r r', Synthesized cap d r → Synthesized cap d r' →
    r.inferredKey = r'.inferredKey → r = r'
  capped : ∀ r, Synthesized cap d r → ∃ k ∈ eventKinds, ∃ emitter ∈ d.patterns, ∃ signal,
    emitter.patternType = k.emitType ∧ emitter.signalName = some signal ∧
      emitter.filePath = r.sourceFile ∧ emitter.handler = some r.caller ∧ r.via = some k.via ∧
      (r.calleeFile.getD "", some r.callee) ∈ handlersOf k.connectType signal d ∧
      (handlersOf k.connectType signal d).length ≤ cap

section Files

variable (classes : CharClasses)

def PythonFile.patternRow (f : PythonFile) (p : PatternFact) : PatternRow where
  filePath := f.relPath
  patternType := p.patternType
  signalName := p.signalName
  handler := p.handler
  line := p.line
  metadata := p.metadataJson

def PythonFile.patternRows (f : PythonFile) : List PatternRow :=
  (f.patterns classes).map f.patternRow

/-- An index of Python files: the names of its symbols and its patterns are theirs. -/
structure Holds (files : List PythonFile) (d : Database) : Prop where
  symbols : ∀ path name, (∃ s ∈ d.symbols.rows, s.filePath = path ∧ s.name = name) ↔
    ∃ f ∈ files, f.relPath = path ∧ ∃ s ∈ f.symbols, s.name = name
  patterns : List.Perm d.patterns (files.flatMap (PythonFile.patternRows classes))

/-- The receivers that the files connect to a signal, with their files. -/
def receivers (k : EventKind) (signal : String) (files : List PythonFile) :
    List (String × Option String) :=
  files.flatMap fun f => ((f.patterns classes).filter fun p =>
    p.patternType == k.connectType && p.signalName == some signal).map fun p =>
      (f.relPath, p.handler)

/-- Where a function sends a signal of Django or of PyQt that no more receivers are
connected to than the cap allows, every word that stands for another receiver is, in
its file, the name of a symbol. -/
def ReceiversNamed (cap : Nat) (files : List PythonFile) : Prop :=
  ∀ k ∈ [djangoSignals, pyqtSignals], ∀ f ∈ files, ∀ p ∈ f.patterns classes,
    p.patternType = k.emitType → ∀ signal, p.signalName = some signal →
    ∀ func, p.handler = some func → (receivers classes k signal files).length ≤ cap →
    ∀ path handler, (path, some handler) ∈ receivers classes k signal files →
    ¬ (f.relPath = path ∧ func = handler) →
    ∃ g ∈ files, ∃ s ∈ g.symbols, path ++ "::" ++ handler = g.relPath ++ "::" ++ s.name

end Files

section Enclosing

variable {classes : CharClasses} {symbols : List SymbolInfo}

theorem enclosingSymbol_mem {line : Int} {s : SymbolInfo}
    (h : enclosingSymbol symbols line = some s) : s ∈ symbols := by
  have hkept : ∀ s ∈ enclosingSymbol symbols line, s ∈ symbols := by
    refine List.foldlRecOn (motive := fun best => ∀ s ∈ best, s ∈ symbols) symbols _
      (fun _ hnone => by cases hnone) ?_
    intro best hbest t ht
    have hnew : ∀ s ∈ some t, s ∈ symbols := fun s hs => Option.mem_some.mp hs ▸ ht
    split
    · split
      · split
        · exact hbest
        · exact hnew
      · exact hnew
    · exact hbest
  exact hkept s h

theorem enclosedFact_handler {patternType : String} {group : Nat} {m : Regex.Found} {func : String}
    (h : (enclosedFact patternType symbols group m).handler = some func) :
    ∃ s ∈ symbols, s.name = func := by
  obtain ⟨s, hs, hname⟩ := Option.map_eq_some_iff.mp
    (show (enclosingSymbol symbols (lineAt m.before)).map SymbolInfo.name = some func from h)
  exact ⟨s, enclosingSymbol_mem hs, hname⟩

/-- All facts but those of `connect` calls are of functions that the parser has as symbols. -/
theorem handler_of_extractPatterns {source : String} {p : PatternFact}
    (hp : p ∈ extractPatterns classes source symbols)
    (hdjango : p.patternType ≠ djangoSignals.connectType)
    (hpyqt : p.patternType ≠ pyqtSignals.connectType) {func : String} (h : p.handler = some func) :
    ∃ s ∈ symbols, s.name = func := by
  unfold extractPatterns at hp
  dsimp only at hp
  rcases List.mem_append.mp hp with hp | hp
  · rcases List.mem_append.mp hp with hp | hp
    · rcases List.mem_append.mp hp with hp | hp
      · split at hp
        · rcases List.mem_append.mp hp with hp | hp
          · obtain ⟨m, -, rfl⟩ := List.mem_map.mp hp
            exact enclosedFact_handler h
          · obtain ⟨m, -, rfl⟩ := List.mem_map.mp hp
            exact absurd rfl hdjango
        · cases hp
      · split at hp
        · rcases List.mem_append.mp hp with hp | hp
          · obtain ⟨m, -, rfl⟩ := List.mem_map.mp hp
            exact enclosedFact_handler h
          · obtain ⟨m, -, rfl⟩ := List.mem_map.mp hp
            exact absurd rfl hpyqt
        · cases hp
    · obtain ⟨m, -, rfl⟩ := List.mem_map.mp hp
      exact enclosedFact_handler h
  · obtain ⟨m, -, rfl⟩ := List.mem_map.mp hp
    exact enclosedFact_handler h

end Enclosing

section Scans

variable {classes : CharClasses} {h : Hashes} {files : List PythonFile} {d d' : Database}

theorem exists_nameKey {rows : List SymbolRow} {path name : String} :
    (∃ s ∈ rows, s.filePath = path ∧ s.name = name) ↔
      ∃ key ∈ rows.map nameKey, key.1 = path ∧ key.2.1 = name := by
  constructor
  · rintro ⟨s, hs, hkey⟩
    exact ⟨nameKey s, List.mem_map_of_mem hs, hkey⟩
  · rintro ⟨key, hkey, heq⟩
    obtain ⟨s, hs, rfl⟩ := List.mem_map.mp hkey
    exact ⟨s, hs, heq⟩

theorem canonical_names (symbols : List SymbolInfo) (name : String) :
    (∃ s ∈ (selectSymbols symbols).canonicalSymbols, s.name = name) ↔
      ∃ s ∈ symbols, s.name = name := by
  have hname : ∀ l : List SymbolInfo, (∃ s ∈ l, s.name = name) ↔
      (l.filter fun s => s.name = name) ≠ [] := by
    intro l
    rw [ne_eq, List.filter_eq_nil_iff]
    push Not
    simp only [decide_eq_true_eq]
  have hselected := selected_of_name name symbols
  rw [hname, hname]
  match hown : symbols.filter fun s => s.name = name with
  | [] => rw [(hselected.none hown).1, hown]
  | [only] => rw [(hselected.alone only hown).1, hown]
  | first :: second :: rest =>
    obtain ⟨s, -, hone, -⟩ := hselected.several (by rw [hown]; simp)
    rw [hone, hown]
    exact iff_of_true (List.cons_ne_nil _ _) (List.cons_ne_nil _ _)

theorem Holds.empty : Holds classes [] .empty where
  symbols path name := by
    constructor
    · rintro ⟨s, hs, -⟩
      cases hs
    · rintro ⟨f, hf, -⟩
      cases hf
  patterns := .refl _

theorem Holds.of_same (hd : Holds classes files d)
    (hnames : d'.symbols.rows.map nameKey = d.symbols.rows.map nameKey)
    (hpatterns : d'.patterns = d.patterns) : Holds classes files d' where
  symbols path name := by
    rw [exists_nameKey, hnames, ← exists_nameKey]
    exact hd.symbols path name
  patterns := hpatterns ▸ hd.patterns

theorem flatMap_patternRows_filter (path : String) (files : List PythonFile) :
    (files.flatMap (PythonFile.patternRows classes)).filter (fun p => !(p.filePath == path)) =
      (files.filter fun f => !(f.relPath == path)).flatMap (PythonFile.patternRows classes) := by
  induction files with
  | nil => rfl
  | cons f files ih =>
    rw [List.flatMap_cons, List.filter_append, ih, List.filter_cons]
    have hall : ∀ p ∈ f.patternRows classes, p.filePath = f.relPath := by
      intro p hp
      obtain ⟨fact, -, rfl⟩ := List.mem_map.mp hp
      rfl
    cases hpath : f.relPath == path with
    | true =>
      rw [List.filter_eq_nil_iff.mpr fun p hp => by simp [hall p hp, hpath]]
      rfl
    | false =>
      rw [List.filter_eq_self.mpr fun p hp => by simp [hall p hp, hpath]]
      rfl

/-- The symbols of a path are those that come in their place. -/
theorem Holds.replaces (hd : Holds classes files d) {path : String} {new : List SymbolRow}
    (hr : Replaces path d d' new) (news : List PythonFile) (hpaths : ∀ f ∈ news, f.relPath = path)
    (hnew : ∀ name, (∃ s ∈ new, s.name = name) ↔ ∃ f ∈ news, ∃ s ∈ f.symbols, s.name = name)
    (hpatterns : d'.patterns = d.patterns.filter (fun p => !(p.filePath == path)) ++
      news.flatMap (PythonFile.patternRows classes)) :
    Holds classes ((files.filter fun f => !(f.relPath == path)) ++ news) d' where
  symbols q name := by
    rw [hr.symbols]
    by_cases hq : q = path
    · subst hq
      constructor
      · rintro ⟨s, hs, hpath, hname⟩
        rcases List.mem_append.mp hs with hs | hs
        · simp [hpath] at hs
        · obtain ⟨f, hf, t, ht⟩ := (hnew name).mp ⟨s, hs, hname⟩
          exact ⟨f, List.mem_append_right _ hf, hpaths f hf, t, ht⟩
      · rintro ⟨f, hf, hpath, t, ht⟩
        rcases List.mem_append.mp hf with hf | hf
        · simp [hpath] at hf
        · obtain ⟨s, hs, hname⟩ := (hnew name).mpr ⟨f, hf, t, ht⟩
          exact ⟨s, List.mem_append_right _ hs, hr.news s hs, hname⟩
    · constructor
      · rintro ⟨s, hs, hpath, hname⟩
        rcases List.mem_append.mp hs with hs | hs
        · obtain ⟨f, hf, hfpath, t, ht⟩ :=
            (hd.symbols q name).mp ⟨s, (List.mem_filter.mp hs).1, hpath, hname⟩
          exact ⟨f, List.mem_append_left _ (List.mem_filter.mpr ⟨hf, by simp [hfpath, hq]⟩),
            hfpath, t, ht⟩
        · exact absurd (hpath.symm.trans (hr.news s hs)) hq
      · rintro ⟨f, hf, hpath, t, ht⟩
        rcases List.mem_append.mp hf with hf | hf
        · obtain ⟨s, hs, hspath, hname⟩ :=
            (hd.symbols q name).mpr ⟨f, (List.mem_filter.mp hf).1, hpath, t, ht⟩
          exact ⟨s, List.mem_append_left _ (List.mem_filter.mpr ⟨hs, by simp [hspath, hq]⟩),
            hspath, hname⟩
        · exact absurd (hpath.symm.trans (hpaths f hf)) hq
  patterns := by
    rw [hpatterns, List.flatMap_append, ← flatMap_patternRows_filter]
    exact (hd.patterns.filter _).append_right _

theorem Holds.write (hd : Holds classes files d) (h : Hashes) (f : PythonFile) :
    Holds classes
      (if fileUnchanged (f.facts classes h) d then files
        else (files.filter fun g => !(g.relPath == f.relPath)) ++ [f])
      (writeFileFacts h (f.facts classes h) d).1 := by
  unfold writeFileFacts
  split
  · exact hd
  · refine hd.replaces (replaceFacts_replaces h (f.facts classes h) d) [f]
      (fun g hg => congrArg PythonFile.relPath (List.mem_singleton.mp hg)) (fun name => ?_) ?_
    · have hrows : (∃ s ∈ (f.facts classes h).canonicalSymbols.map
          ((f.facts classes h).symbolRow h), s.name = name) ↔
          ∃ s ∈ (selectSymbols f.symbols).canonicalSymbols, s.name = name := by
        constructor
        · rintro ⟨r, hr, hname⟩
          obtain ⟨s, hs, rfl⟩ := List.mem_map.mp hr
          exact ⟨s, hs, hname⟩
        · rintro ⟨s, hs, hname⟩
          exact ⟨_, List.mem_map_of_mem hs, hname⟩
      rw [hrows, canonical_names]
      simp only [List.mem_singleton, exists_eq_left]
    · rw [List.flatMap_singleton]
      rfl

theorem Holds.delete (hd : Holds classes files d) (path : String) :
    Holds classes (files.filter fun f => !(f.relPath == path)) (deleteFile path d).1 := by
  have hempty := hd.replaces (deleteFile_replaces path d) [] (fun f hf => by cases hf)
    (fun name => by simp) (by rw [deleteFile_fst]; exact (List.append_nil _).symm)
  rwa [List.append_nil] at hempty

theorem Holds.purged (hd : Holds classes files d) :
    Holds classes files (overwriteRustTraitBases (purgeHeuristicEdges d)) := by
  have hsame := (purgeHeuristicEdges_same d).trans
    (overwriteRustTraitBases_same (purgeHeuristicEdges d))
  exact hd.of_same hsame.names hsame.patterns

theorem Holds.resynthesize (hd : Holds classes files d) (c : PostprocessConfig) :
    Holds classes files (resynthesize c d) :=
  hd.of_same (resynthesize_same c d).names (resynthesize_same c d).patterns

theorem Holds.run (hd : Holds classes files d) (c : PostprocessConfig) :
    Holds classes files (run c d) := by
  have hresolved : Holds classes files (resolveCallEdges c (resetDirectEdgeResolution d)) :=
    hd.of_same (by rw [(resolveFull_same d).symbols]) (resolveFull_same d).patterns
  exact (hresolved.resynthesize c).of_same (by rw [(run_views c d).symbols])
    (run_views c d).patterns

theorem Holds.runIncremental (hd : Holds classes files d) (c : PostprocessConfig)
    (delta : ScanDelta) : Holds classes files (runIncremental c delta d) := by
  have hresolved : Holds classes files (resolveTargets c delta d) :=
    hd.of_same (by rw [(resolveTargets_same delta d).symbols])
      (resolveTargets_same delta d).patterns
  exact (hresolved.resynthesize c).of_same (by rw [(runIncremental_views c delta d).symbols])
    (runIncremental_views c delta d).patterns

/-- An index of Python files. -/
structure PythonIndex (classes : CharClasses) where
  files : List PythonFile
  database : Database
  held : Holds classes files database

namespace PythonIndex

variable (x : PythonIndex classes)

def empty : PythonIndex classes := ⟨[], .empty, .empty⟩

/-- A file whose hash and parser are those of the last scan is not scanned again. -/
def write (h : Hashes) (f : PythonFile) : PythonIndex classes :=
  ⟨_, (writeFileFacts h (f.facts classes h) x.database).1, x.held.write h f⟩

def delete (path : String) : PythonIndex classes :=
  ⟨_, (deleteFile path x.database).1, x.held.delete path⟩

def run (c : PostprocessConfig) : PythonIndex classes :=
  ⟨x.files, Index.run c x.database, x.held.run c⟩

def runIncremental (c : PostprocessConfig) (delta : ScanDelta) : PythonIndex classes :=
  ⟨x.files, Index.runIncremental c delta x.database, x.held.runIncremental c delta⟩

/-- The index as the synthesis of event edges finds it. -/
def purged : PythonIndex classes :=
  ⟨x.files, overwriteRustTraitBases (purgeHeuristicEdges x.database), x.held.purged⟩

end PythonIndex

end Scans

namespace PythonIndex

variable {classes : CharClasses} (x : PythonIndex classes) {cap : Nat}

theorem mem_patterns {p : PatternRow} : p ∈ x.database.patterns ↔
    ∃ f ∈ x.files, ∃ fact ∈ f.patterns classes, f.patternRow fact = p := by
  rw [x.held.patterns.mem_iff, List.mem_flatMap]
  simp only [PythonFile.patternRows, List.mem_map]

theorem handlersOf_perm (k : EventKind) (signal : String) :
    List.Perm (handlersOf k.connectType signal x.database)
      (receivers classes k signal x.files) := by
  have hrows : List.Perm (handlersOf k.connectType signal x.database)
      (((x.files.flatMap (PythonFile.patternRows classes)).filter fun p =>
        p.signalName == some signal && p.patternType == k.connectType).map
          fun p => (p.filePath, p.handler)) := by
    unfold handlersOf patternsOf
    rw [List.filter_filter]
    exact ((orderBy_perm _ _).trans (x.held.patterns.filter _)).map _
  have hfiles : ((x.files.flatMap (PythonFile.patternRows classes)).filter fun p =>
      p.signalName == some signal && p.patternType == k.connectType).map
        (fun p => (p.filePath, p.handler)) = receivers classes k signal x.files := by
    unfold receivers PythonFile.patternRows
    rw [List.filter_flatMap, List.map_flatMap]
    refine List.flatMap_congr fun f _ => ?_
    rw [List.filter_map, List.map_map]
    simp only [Function.comp_def, PythonFile.patternRow, Bool.and_comm]
  rwa [hfiles] at hrows

theorem symbol_of_fact {f : PythonFile} (hf : f ∈ x.files) {s : SymbolInfo} (hs : s ∈ f.symbols) :
    ∃ r ∈ x.database.symbols.rows, r.filePath = f.relPath ∧ r.name = s.name :=
  (x.held.symbols f.relPath s.name).mpr ⟨f, hf, rfl, s, hs, rfl⟩

theorem sender_symbol {k : EventKind} (hk : k ∈ eventKinds) {emitter : PatternRow}
    {signal func path handler : String}
    (h : Reaches k cap x.database emitter signal func path handler) :
    ∃ r ∈ x.database.symbols.rows, r.filePath = emitter.filePath ∧ r.name = func := by
  obtain ⟨f, hf, fact, hfact, rfl⟩ := x.mem_patterns.mp h.stored
  have hkinds : ∀ k ∈ eventKinds, k.emitType ≠ djangoSignals.connectType ∧
      k.emitType ≠ pyqtSignals.connectType := by decide
  have htype : fact.patternType = k.emitType := h.kind
  have hsender : fact.handler = some func := h.sender
  obtain ⟨s, hs, rfl⟩ := handler_of_extractPatterns hfact (htype ▸ (hkinds k hk).1)
    (htype ▸ (hkinds k hk).2) hsender
  exact x.symbol_of_fact hf hs

theorem reaches {k : EventKind} {f : PythonFile} (hf : f ∈ x.files) {p : PatternFact}
    (hp : p ∈ f.patterns classes) (hkind : p.patternType = k.emitType) {signal func : String}
    (hsignal : p.signalName = some signal) (hfunc : p.handler = some func)
    (hcap : (receivers classes k signal x.files).length ≤ cap) {path handler : String}
    (hreceiver : (path, some handler) ∈ receivers classes k signal x.files)
    (hother : ¬ (f.relPath = path ∧ func = handler)) :
    Reaches k cap x.database (f.patternRow p) signal func path handler where
  stored := x.mem_patterns.mpr ⟨f, hf, p, hp, rfl⟩
  kind := hkind
  sends := hsignal
  sender := hfunc
  capped := (x.handlersOf_perm k signal).length_eq.trans_le hcap
  connected := (x.handlersOf_perm k signal).mem_iff.mpr hreceiver
  other := hother

/-- An observer is named by the function that registers it. -/
theorem observer_symbol {signal path handler : String}
    (h : (path, some handler) ∈ receivers classes observers signal x.files) :
    ∃ g ∈ x.files, ∃ s ∈ g.symbols, path ++ "::" ++ handler = g.relPath ++ "::" ++ s.name := by
  obtain ⟨g, hg, hfacts⟩ := List.mem_flatMap.mp h
  obtain ⟨p, hp, heq⟩ := List.mem_map.mp hfacts
  obtain ⟨hmem, hselect⟩ := List.mem_filter.mp hp
  obtain ⟨rfl, hhandler⟩ := Prod.mk.inj heq
  have htype : p.patternType = observers.connectType :=
    beq_iff_eq.mp (Bool.and_eq_true_iff.mp hselect).1
  obtain ⟨s, hs, hname⟩ := handler_of_extractPatterns hmem (by rw [htype]; decide)
    (by rw [htype]; decide) hhandler
  exact ⟨g, hg, s, hs, by rw [hname]⟩

theorem receiver_symbol (h : ReceiversNamed classes cap x.files) {k : EventKind}
    (hk : k ∈ eventKinds) {emitter : PatternRow} {signal func path handler : String}
    (hreaches : Reaches k cap x.database emitter signal func path handler) :
    ∃ g ∈ x.files, ∃ s ∈ g.symbols, path ++ "::" ++ handler = g.relPath ++ "::" ++ s.name := by
  have hreceiver := (x.handlersOf_perm k signal).mem_iff.mp hreaches.connected
  have hcap := (x.handlersOf_perm k signal).length_eq.symm.trans_le hreaches.capped
  obtain ⟨f, hf, p, hp, rfl⟩ := x.mem_patterns.mp hreaches.stored
  have hcases : k ∈ [djangoSignals, pyqtSignals] ∨ k = observers := by
    simpa [eventKinds, or_assoc] using hk
  rcases hcases with hcalls | rfl
  · exact h k hcalls f hf p hp hreaches.kind signal hreaches.sends func hreaches.sender hcap path
      handler hreceiver hreaches.other
  · exact x.observer_symbol hreceiver

theorem sound_of_named (hdirect : inferredKeys x.database = [])
    (h : ReceiversNamed classes cap x.files) : EventEdgesSound cap x.database where
  caller r hr := by
    obtain ⟨k, hk, emitter, signal, func, path, handler, hreaches, hrow⟩ := hr.edge
    obtain ⟨s, hs, hpath, hname⟩ := x.sender_symbol hk hreaches
    have hsource : r.sourceFile = emitter.filePath := congrArg EdgeRow.sourceFile hrow
    have hcaller : r.caller = func := congrArg EdgeRow.caller hrow
    exact ⟨s, hs, hpath.trans hsource.symm, hname.trans hcaller.symm⟩
  callee r hr := by
    obtain ⟨k, hk, emitter, signal, func, path, handler, hreaches, hrow⟩ := hr.edge
    obtain ⟨g, hg, t, ht, hqualified⟩ := x.receiver_symbol h hk hreaches
    obtain ⟨s, hs, hpath, hname⟩ := x.symbol_of_fact hg ht
    have hcallee : r.calleeQualified = some (path ++ "::" ++ handler) :=
      congrArg EdgeRow.calleeQualified hrow
    exact ⟨s, hs, by rw [hcallee, hqualified, hpath, hname]⟩
  single r r' hr hr' hkey := hr.eq_of_key hdirect hr' hkey
  capped r hr := by
    obtain ⟨k, hk, emitter, signal, func, path, handler, hreaches, hrow⟩ := hr.edge
    have hsource : r.sourceFile = emitter.filePath := congrArg EdgeRow.sourceFile hrow
    have hcaller : r.caller = func := congrArg EdgeRow.caller hrow
    have hvia : r.via = some k.via := congrArg EdgeRow.via hrow
    have hfile : r.calleeFile = some path := congrArg EdgeRow.calleeFile hrow
    have hcallee : r.callee = handler := congrArg EdgeRow.callee hrow
    refine ⟨k, hk, emitter, hreaches.stored, signal, hreaches.kind, hreaches.sends, hsource.symm,
      ?_, hvia, ?_, hreaches.capped⟩
    · rw [hcaller]
      exact hreaches.sender
    · rw [hfile, hcallee]
      exact hreaches.connected

theorem named_of_sound (hdirect : inferredKeys x.database = [])
    (h : EventEdgesSound cap x.database) : ReceiversNamed classes cap x.files := by
  intro k hk f hf p hp hkind signal hsignal func hfunc hcap path handler hreceiver hother
  have hkinds : k ∈ eventKinds := List.mem_append_left [observers] hk
  have hreaches := x.reaches hf hp hkind hsignal hfunc hcap hreceiver hother
  obtain ⟨r, hr, hkey⟩ := hreaches.inserted hkinds hdirect
  obtain ⟨s, hs, hqualified⟩ := h.callee r hr
  have hcallee : r.calleeQualified = some (path ++ "::" ++ handler) :=
    congrArg (fun key => key.2.2.1) hkey
  obtain ⟨g, hg, hpath, t, ht, hname⟩ := (x.held.symbols s.filePath s.name).mp ⟨s, hs, rfl, rfl⟩
  refine ⟨g, hg, t, ht, ?_⟩
  rw [hpath, hname]
  exact Option.some.inj (hcallee.symm.trans hqualified)

theorem purged_direct : inferredKeys x.purged.database = [] := by
  have hrows : ∀ r ∈ x.purged.database.edges.rows, (!r.direct) = false := by
    intro r hr
    simpa using (List.mem_filter.mp hr).2
  unfold inferredKeys
  rw [List.filter_eq_nil_iff.mpr fun r hr h => Bool.noConfusion ((hrows r hr).symm.trans h)]
  rfl

/-- Whatever files are indexed, the event edges are sound just where the words in the
`connect` calls of the signals that are sent name symbols. -/
theorem event_edges_sound_iff (cap : Nat) :
    EventEdgesSound cap x.purged.database ↔ ReceiversNamed classes cap x.files :=
  ⟨x.purged.named_of_sound x.purged_direct, x.purged.sound_of_named x.purged_direct⟩

end PythonIndex

section Imported

/-- A handler that another module defines is connected. -/
def importingFile : PythonFile where
  relPath := "app.py"
  source := "from other import on_save\ndef save():\n    saved.send(1)\nsaved.connect(on_save)\n"
  tree := [.other, .functionDefinition
    ⟨some "save", "()", 1, some ("def save():\n    saved.send(1)", 2), none, none, none⟩, .other]
  hasError := false
  structHash := "0"
  layer := ""
  importsJson := "[]"
  importBindingsJson := "[]"
  identity := ⟨"4", "python-tree-sitter", ""⟩
  edges := []
  named := by decide

theorem importingFile_patterns : importingFile.patterns .ascii =
    [⟨"django_signal_send", some "saved", some "save", some 3, none⟩,
      ⟨"django_signal_connect", some "saved", some "on_save", some 4, none⟩] := by
  decide +kernel

theorem importingFile_names : importingFile.symbols.map SymbolInfo.name = ["save"] := by
  decide +kernel

def importingIndex : PythonIndex .ascii := PythonIndex.empty.write ⟨fun _ _ => "", id⟩ importingFile

theorem importingIndex_files : importingIndex.files = [importingFile] := rfl

/-- The edge leads to `app.py::on_save`, which no file defines. -/
theorem imported_handler_dangles :
    ¬ ∀ (classes : CharClasses) (x : PythonIndex classes) (cap : Nat),
      EventEdgesSound cap x.purged.database := by
  intro h
  have hnamed := importingIndex.purged.named_of_sound importingIndex.purged_direct
    (h .ascii importingIndex 20)
  have hfiles : importingIndex.purged.files = [importingFile] := importingIndex_files
  rw [hfiles] at hnamed
  have hsend : (⟨"django_signal_send", some "saved", some "save", some 3, none⟩ : PatternFact) ∈
      importingFile.patterns .ascii := by
    rw [importingFile_patterns]
    exact List.mem_cons_self
  have hreceivers : receivers .ascii djangoSignals "saved" [importingFile] =
      [("app.py", some "on_save")] := by
    unfold receivers
    rw [List.flatMap_singleton, importingFile_patterns]
    decide +kernel
  obtain ⟨g, hg, s, hs, hqualified⟩ := hnamed djangoSignals List.mem_cons_self importingFile
    List.mem_cons_self _ hsend rfl "saved" rfl "save" rfl (by rw [hreceivers]; decide) "app.py"
    "on_save" (by rw [hreceivers]; exact List.mem_cons_self) (by decide)
  have hname : s.name ∈ importingFile.symbols.map SymbolInfo.name := by
    rw [List.mem_singleton.mp hg] at hs
    exact List.mem_map_of_mem hs
  rw [importingFile_names, List.mem_singleton] at hname
  rw [List.mem_singleton.mp hg, hname] at hqualified
  exact absurd hqualified (by decide)

end Imported

end RemyCC.Index
