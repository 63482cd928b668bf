import RemyCC.Index.Content
import RemyCC.Index.Emission

/-!
# What a dispatch through a function pointer is led to

An edge leads from the function around a dispatch to a handler that is
registered for the same field of the same structure. The hash maps of the
source are read by key, except for the owners of a field, of which either one
that the dispatch names or the only one is taken.
-/

namespace RemyCC.Index

open Relational Text

/-- A function or macro that a name stands for. -/
structure Stands (d : Database) (name : String) (s : SymbolRow) : Prop where
  mem : s ∈ d.symbols.rows
  bears : s.name = name ∨ s.shortName = name
  callable : s.type = "function" ∨ s.type = "macro"

/-- A pattern that registers a handler for a function pointer of a structure, which it
names or numbers. -/
structure Registers (d : Database) (p : PatternRow) (r : Registration) : Prop where
  pattern : p ∈ patternsOf "c_fnptr_register" d
  structName : p.signalName = some r.structName
  handler : p.handler = some r.handler
  field : ∃ metadata f, p.metadata.bind Json.parse = some metadata ∧
    f ∈ layoutsOf r.structName d ∧ fieldFnptr d f = true ∧ fieldName f = some r.field ∧
    ((metadata.get "field").bind Json.Value.asStr = some r.field ∨
      ∃ slot, (metadata.get "slot").bind Json.Value.asI64 = some slot ∧
        (f.get "index").bind Json.Value.asI64 = some slot)

/-- What makes an edge of a dispatch right. -/
structure Dispatched (d : Database) (e : InferredEdge) (dispatch p : PatternRow)
    (r : Registration) (enclosing : String) (caller callee : SymbolRow) : Prop where
  pattern : dispatch ∈ patternsOf "c_fnptr_dispatch" d
  field : dispatch.signalName = some r.field
  encloses : dispatch.handler = some enclosing
  owner : dispatchedStruct (structHint dispatch) (fieldOwners r.field d) = some r.structName
  registers : Registers d p r
  calls : Stands d enclosing caller
  near : ∀ s, Stands d enclosing s → s.filePath = dispatch.filePath →
    caller.filePath = dispatch.filePath
  called : Stands d r.handler callee
  other : caller.key ≠ callee.key
  edge : e = dispatchEdge dispatch caller.key callee.key

section Symbols

variable {d : Database} {name : String}

theorem mem_symbolKeysWhere {p : SymbolRow → Bool} {key : String × String} :
    key ∈ symbolKeysWhere p d ↔ ∃ s ∈ d.symbols.rows, p s = true ∧ s.key = key := by
  simp [symbolKeysWhere, and_assoc]

theorem stands_iff {s : SymbolRow} : Stands d name s ↔
    s ∈ d.symbols.rows ∧ (s.bears name && (s.type == "function" || s.type == "macro")) = true := by
  constructor
  · rintro ⟨hmem, hbears, hcallable⟩
    refine ⟨hmem, ?_⟩
    simpa [SymbolRow.bears] using ⟨hbears, hcallable⟩
  · rintro ⟨hmem, h⟩
    have h : (s.name = name ∨ s.shortName = name) ∧ (s.type = "function" ∨ s.type = "macro") := by
      simpa [SymbolRow.bears] using h
    exact ⟨hmem, h.1, h.2⟩

theorem stands_of_mem {key : String × String} (h : key ∈ symbolKeysWhere
    (fun s => s.bears name && (s.type == "function" || s.type == "macro")) d) :
    ∃ s, Stands d name s ∧ s.key = key := by
  obtain ⟨s, hs, hp, hkey⟩ := mem_symbolKeysWhere.mp h
  exact ⟨s, stands_iff.mpr ⟨hs, hp⟩, hkey⟩

theorem stands_of_resolveSymbol {prefer : Option String} {key : String × String}
    (h : resolveSymbol name prefer d = some key) : ∃ s, Stands d name s ∧ s.key = key := by
  unfold resolveSymbol at h
  simp only at h
  split at h
  · next found hfound =>
    cases h
    obtain ⟨file, -, hfind⟩ := Option.bind_eq_some_iff.mp hfound
    exact stands_of_mem (List.mem_of_find?_eq_some hfind)
  · exact stands_of_mem (List.mem_of_head? h)

theorem near_of_resolveSymbol {file : String} {key : String × String}
    (h : resolveSymbol name (some file) d = some key) {s : SymbolRow} (hs : Stands d name s)
    (hfile : s.filePath = file) : key.1 = file := by
  unfold resolveSymbol at h
  simp only [Option.bind_some] at h
  split at h
  · next found hfound =>
    cases h
    have hat := List.find?_some hfound
    exact beq_iff_eq.mp hat
  · next hnone =>
    have hmem : s.key ∈ symbolKeysWhere
        (fun s => s.bears name && (s.type == "function" || s.type == "macro")) d :=
      mem_symbolKeysWhere.mpr ⟨s, hs.mem, (stands_iff.mp hs).2, rfl⟩
    exact absurd (beq_iff_eq.mpr hfile) (List.find?_eq_none.mp hnone s.key hmem)

end Symbols

section Registering

variable {d : Database}

theorem registers_of_mem {r : Registration} (h : r ∈ registrations d) :
    ∃ p, Registers d p r := by
  obtain ⟨p, hp, hr⟩ := List.mem_filterMap.mp h
  simp only [registrationOf, Option.bind_eq_bind, Option.bind_eq_some_iff, Option.pure_def,
    Option.some.injEq] at hr
  obtain ⟨signal, hsignal, handler, hhandler, text, htext, metadata, hmetadata, field, hfield,
    rfl⟩ := hr
  obtain ⟨f, hfind, hname⟩ := Option.bind_eq_some_iff.mp hfield
  have hmem := List.mem_of_find?_eq_some hfind
  have hmatch := List.find?_some hfind
  simp only [Bool.and_eq_true, Bool.or_eq_true, beq_iff_eq] at hmatch
  refine ⟨p, hp, hsignal, hhandler, metadata, f, ?_, hmem, hmatch.1, hname, ?_⟩
  · rw [htext, Option.bind_some, hmetadata]
  rcases hmatch.2 with ⟨-, heq⟩ | ⟨hsome, heq⟩
  · exact .inl (heq ▸ hname)
  · obtain ⟨slot, hslot⟩ := Option.isSome_iff_exists.mp hsome
    exact .inr ⟨slot, hslot, heq.trans hslot⟩

theorem mem_registeredHandlers {structName field handler : String} :
    handler ∈ registeredHandlers structName field d ↔ ⟨structName, field, handler⟩ ∈ registrations d := by
  simp only [registeredHandlers, mem_sortedSet, List.mem_map, List.mem_filter, Bool.and_eq_true,
    beq_iff_eq]
  constructor
  · rintro ⟨⟨s, f, h⟩, ⟨hmem, rfl, rfl⟩, rfl⟩
    exact hmem
  · exact fun h => ⟨_, ⟨h, rfl, rfl⟩, rfl⟩

end Registering

section Rounds

variable {d : Database}

def handlerRound (resolve : String → Option (String × String)) (dispatch : PatternRow)
    (caller : String × String) (handlers : List String) : List InferredEdge :=
  handlers.filterMap fun handler => (resolve handler).bind fun callee =>
    if caller = callee then none else some (dispatchEdge dispatch caller callee)

theorem walkHandlers_eq (resolve : String → Option (String × String)) (dispatch : PatternRow)
    (caller : String × String) (added : Nat) (handlers : List String) (out : List InferredEdge) :
    walkHandlers resolve dispatch caller added handlers out =
      emitUpTo cFnptrFanoutCap added (handlerRound resolve dispatch caller handlers) out := by
  induction handlers generalizing added out with
  | nil => rfl
  | cons handler handlers ih =>
    have hdone : ∀ round, cFnptrFanoutCap ≤ added →
        emitUpTo cFnptrFanoutCap added round out = out := by
      intro round hcap
      cases round with
      | nil => rfl
      | cons e round => exact if_pos hcap
    unfold walkHandlers handlerRound
    split
    · next hcap => exact (hdone _ hcap).symm
    · next hcap =>
      rw [List.filterMap_cons]
      cases resolve handler with
      | none => exact ih added out
      | some callee =>
        by_cases hself : caller = callee
        · simp only [hself, if_true, Option.bind_some]
          exact hself ▸ ih added out
        · simp only [hself, if_false, Option.bind_some, emitUpTo, hcap]
          cases emitUnseen (dispatchEdge dispatch caller callee) out with
          | none => exact ih added out
          | some out => exact ih (added + 1) out

def dispatchRound (d : Database) (dispatch : PatternRow) : List InferredEdge :=
  ((do
    let field ← dispatch.signalName
    let enclosing ← dispatch.handler
    let structName ← dispatchedStruct (structHint dispatch) (fieldOwners field d)
    let caller ← resolveSymbol enclosing (some dispatch.filePath) d
    return handlerRound (fun handler => resolveSymbol handler none d) dispatch caller
      (registeredHandlers structName field d)) : Option (List InferredEdge)).getD []

theorem dispatchEdges_round (dispatch : PatternRow) (out : List InferredEdge) :
    dispatchEdges d dispatch out =
      emitUpTo cFnptrFanoutCap 0 (dispatchRound d dispatch) out := by
  unfold dispatchEdges dispatchRound
  cases dispatch.signalName with
  | none => rfl
  | some field =>
    cases dispatch.handler with
    | none => rfl
    | some enclosing =>
      cases howner : dispatchedStruct (structHint dispatch) (fieldOwners field d) with
      | none => simp [howner, emitUpTo]
      | some structName =>
        cases hcaller : resolveSymbol enclosing (some dispatch.filePath) d with
        | none => simp [howner, hcaller, emitUpTo]
        | some caller =>
          simp only [howner, hcaller, walkHandlers_eq, Option.bind_eq_bind, Option.bind_some,
            Option.pure_def, Option.getD_some]

theorem synthesize_rounds (d : Database) : synthesizeCFnptrDispatchEdges d =
    emitRounds cFnptrFanoutCap ((dispatches d).map (dispatchRound d)) [] := by
  unfold synthesizeCFnptrDispatchEdges emitRounds
  rw [List.foldl_map]
  simp only [dispatchEdges_round]

theorem dispatched_of_mem {dispatch : PatternRow} {e : InferredEdge}
    (hdispatch : dispatch ∈ patternsOf "c_fnptr_dispatch" d) (h : e ∈ dispatchRound d dispatch) :
    ∃ p r enclosing caller callee, Dispatched d e dispatch p r enclosing caller callee := by
  unfold dispatchRound at h
  cases hfield : dispatch.signalName with
  | none => simp [hfield] at h
  | some field =>
    cases henclosing : dispatch.handler with
    | none => simp [hfield, henclosing] at h
    | some enclosing =>
      cases howner : dispatchedStruct (structHint dispatch) (fieldOwners field d) with
      | none => simp [hfield, henclosing, howner] at h
      | some structName =>
        cases hcaller : resolveSymbol enclosing (some dispatch.filePath) d with
        | none => simp [hfield, henclosing, howner, hcaller] at h
        | some caller =>
          simp only [hfield, henclosing, howner, hcaller, Option.bind_eq_bind, Option.bind_some,
            Option.pure_def, Option.getD_some] at h
          obtain ⟨handler, hhandler, hedge⟩ := List.mem_filterMap.mp h
          obtain ⟨callee, hcallee, hedge⟩ := Option.bind_eq_some_iff.mp hedge
          obtain ⟨hother, hedge⟩ := Option.ite_none_left_eq_some.mp hedge
          obtain ⟨p, hp⟩ := registers_of_mem (mem_registeredHandlers.mp hhandler)
          obtain ⟨s, hs, rfl⟩ := stands_of_resolveSymbol hcaller
          obtain ⟨t, ht, rfl⟩ := stands_of_resolveSymbol hcallee
          have hnear : ∀ s', Stands d enclosing s' → s'.filePath = dispatch.filePath →
              s.key.1 = dispatch.filePath :=
            fun _ hs' hfile => near_of_resolveSymbol hcaller hs' hfile
          exact ⟨p, ⟨structName, field, handler⟩, enclosing, s, t, hdispatch, hfield, henclosing,
            howner, hp, hs, hnear, ht, hother, (Option.some.inj hedge).symm⟩

/-- A registered handler that a dispatch ought to lead to. -/
structure Owed (d : Database) (dispatch : PatternRow) (r : Registration) (enclosing : String)
    (caller callee : String × String) : Prop where
  pattern : dispatch ∈ patternsOf "c_fnptr_dispatch" d
  field : dispatch.signalName = some r.field
  encloses : dispatch.handler = some enclosing
  owner : dispatchedStruct (structHint dispatch) (fieldOwners r.field d) = some r.structName
  registered : r ∈ registrations d
  calls : resolveSymbol enclosing (some dispatch.filePath) d = some caller
  called : resolveSymbol r.handler none d = some callee
  other : caller ≠ callee

theorem Owed.round {dispatch : PatternRow} {r : Registration} {enclosing : String}
    {caller callee : String × String} (h : Owed d dispatch r enclosing caller callee) :
    dispatchRound d dispatch = handlerRound (fun handler => resolveSymbol handler none d) dispatch
      caller (registeredHandlers r.structName r.field d) := by
  unfold dispatchRound
  simp only [h.field, h.encloses, h.owner, h.calls, Option.bind_eq_bind, Option.bind_some,
    Option.pure_def, Option.getD_some]

/-- Every registered handler is led to, or the caller has as many as the cap allows. -/
theorem Owed.stored {dispatch : PatternRow} {r : Registration} {enclosing : String}
    {caller callee : String × String} (h : Owed d dispatch r enclosing caller callee) :
    (dispatchEdge dispatch caller callee).key ∈
        inferredKeys (insertAll (synthesizeCFnptrDispatchEdges d) d) ∨
      ∃ emitted, List.Sublist emitted (synthesizeCFnptrDispatchEdges d) ∧
        emitted.length = cFnptrFanoutCap ∧
        ∀ e ∈ emitted, e.sourceFile = caller.1 ∧ e.caller = caller.2 ∧
          e.synthesizedFrom = dispatch.filePath := by
  have hround : dispatchRound d dispatch ∈ (dispatches d).map (dispatchRound d) :=
    List.mem_map_of_mem (mem_orderBy.mpr h.pattern)
  obtain ⟨emitted, hsub, hemitted⟩ := @emitRounds_complete cFnptrFanoutCap _ _ hround
  rw [← synthesize_rounds] at hsub hemitted
  rcases Nat.lt_or_eq_of_le hemitted.capped with hlt | hfull
  · left
    have hmem : dispatchEdge dispatch caller callee ∈ dispatchRound d dispatch := by
      rw [h.round]
      refine List.mem_filterMap.mpr ⟨r.handler, mem_registeredHandlers.mpr h.registered, ?_⟩
      simp only [h.called, Option.bind_some, if_neg h.other]
    obtain ⟨e, he, hkey⟩ := List.any_eq_true.mp (hemitted.complete hlt _ hmem)
    obtain ⟨hfile, hcaller, hcallee, hvia⟩ := sameKey_iff.mp hkey
    have hkeys : (dispatchEdge dispatch caller callee).key = e.key := by
      unfold InferredEdge.key
      rw [hfile, hcaller, hcallee, hvia]
    rw [hkeys]
    exact key_mem_insertAll he
  · refine .inr ⟨emitted, hsub, hfull, fun e he => ?_⟩
    have hfrom := hemitted.sublist.subset he
    rw [h.round] at hfrom
    obtain ⟨handler, -, hedge⟩ := List.mem_filterMap.mp hfrom
    obtain ⟨callee', -, hedge⟩ := Option.bind_eq_some_iff.mp hedge
    obtain ⟨-, hedge⟩ := Option.ite_none_left_eq_some.mp hedge
    rw [← Option.some.inj hedge]
    exact ⟨rfl, rfl, rfl⟩

end Rounds

section Iteration

variable {d : Database} {owners : String → List String}

/-- The edges of one dispatch where the sets of owners are iterated in some order. -/
def dispatchEdgesFrom (owners : String → List String) (d : Database) (dispatch : PatternRow)
    (out : List InferredEdge) : List InferredEdge :=
  match dispatch.signalName, dispatch.handler with
  | some field, some enclosing =>
    match dispatchedStruct (structHint dispatch) (owners field) with
    | some structName =>
      match resolveSymbol enclosing (some dispatch.filePath) d with
      | some caller =>
        walkHandlers (fun handler => resolveSymbol handler none d) dispatch caller 0
          (registeredHandlers structName field d) out
      | none => out
    | none => out
  | _, _ => out

def synthesizeCFnptrDispatchEdgesFrom (owners : String → List String) (d : Database) :
    List InferredEdge :=
  (dispatches d).foldl (fun out dispatch => dispatchEdgesFrom owners d dispatch out) []

theorem onlyOne_eq_of_perm {names names' : List String} (h : List.Perm names names') :
    onlyOne names = onlyOne names' := by
  match names with
  | [] => rw [h.nil_eq]
  | [name] => rw [List.singleton_perm.mp h]
  | first :: second :: rest =>
    have hlength := h.length_eq
    match names' with
    | [] => cases hlength
    | [name] => simp at hlength
    | _ :: _ :: _ => rfl

theorem dispatchedStruct_eq_of_perm {names names' : List String} (h : List.Perm names names')
    (hint : Option String) : dispatchedStruct hint names = dispatchedStruct hint names' := by
  unfold dispatchedStruct
  rw [onlyOne_eq_of_perm h]
  cases hint with
  | none => rfl
  | some hint =>
    have hcontains : names.contains hint = names'.contains hint := by
      rw [Bool.eq_iff_iff, List.contains_iff_mem, List.contains_iff_mem, h.mem_iff]
    simp only [hcontains]

theorem synthesizeCFnptrDispatchEdgesFrom_eq
    (h : ∀ field, List.Perm (owners field) (fieldOwners field d)) :
    synthesizeCFnptrDispatchEdgesFrom owners d = synthesizeCFnptrDispatchEdges d := by
  have howners : synthesizeCFnptrDispatchEdgesFrom owners d =
      synthesizeCFnptrDispatchEdgesFrom (fun field => fieldOwners field d) d := by
    unfold synthesizeCFnptrDispatchEdgesFrom dispatchEdgesFrom
    simp only [dispatchedStruct_eq_of_perm (h _)]
  exact howners

end Iteration

/-- The edges of the dispatches are right, distinct and complete up to the cap, and they
depend on the rows alone. -/
theorem dispatch_edges (d : Database) :
    (∀ row ∈ (insertAll (synthesizeCFnptrDispatchEdges d) d).edges.rows, row ∈ d.edges.rows ∨
      ∃ e dispatch p r enclosing caller callee, row = e.row row.id ∧
        Dispatched d e dispatch p r enclosing caller callee) ∧
    (Distinct (synthesizeCFnptrDispatchEdges d) ∧
      ((inferredKeys d).Nodup →
        (inferredKeys (insertAll (synthesizeCFnptrDispatchEdges d) d)).Nodup)) ∧
    (∀ dispatch r enclosing caller callee, Owed d dispatch r enclosing caller callee →
      (dispatchEdge dispatch caller callee).key ∈
          inferredKeys (insertAll (synthesizeCFnptrDispatchEdges d) d) ∨
        ∃ emitted, List.Sublist emitted (synthesizeCFnptrDispatchEdges d) ∧
          emitted.length = cFnptrFanoutCap ∧
          ∀ e ∈ emitted, e.sourceFile = caller.1 ∧ e.caller = caller.2 ∧
            e.synthesizedFrom = dispatch.filePath) ∧
    (∀ d', SameContent d d' →
      synthesizeCFnptrDispatchEdges d' = synthesizeCFnptrDispatchEdges d) ∧
    ∀ owners : String → List String,
      (∀ field, List.Perm (owners field) (fieldOwners field d)) →
        synthesizeCFnptrDispatchEdgesFrom owners d = synthesizeCFnptrDispatchEdges d := by
  refine ⟨fun row hrow => ?_, ⟨?_, nodup_insertAll⟩, fun _ _ _ _ _ h => h.stored,
    fun _ h => h.dispatch_eq, fun _ h => synthesizeCFnptrDispatchEdgesFrom_eq h⟩
  · refine (mem_insertAll hrow).imp_right ?_
    rintro ⟨e, he, hr⟩
    rw [synthesize_rounds] at he
    obtain ⟨round, hround, he⟩ := mem_emitRounds he
    obtain ⟨dispatch, hdispatch, rfl⟩ := List.mem_map.mp hround
    obtain ⟨p, r, enclosing, caller, callee, h⟩ := dispatched_of_mem (mem_orderBy.mp hdispatch) he
    exact ⟨e, dispatch, p, r, enclosing, caller, callee, hr, h⟩
  · rw [synthesize_rounds]
    exact emitRounds_distinct _

end RemyCC.Index
