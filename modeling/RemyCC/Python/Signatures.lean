import RemyCC.Python.ParameterItems

/-!
# What is printed of a parameter list

The parts of a legal list are printed as its items with commas between them. A
star whose name does not follow at once is printed with what stands between
them in the place of the name.
-/

namespace RemyCC.Python.Parameters

variable {E : Type}

section Printing

variable {ps : Parameters E}

/-- What is taken of a node: the name of a splat is its first child. -/
def Node.seen : Node E → Option (Item E)
  | .listSplatPattern splat => some (.starred splat.firstText none)
  | .dictionarySplatPattern splat => some (.doubleStarred splat.firstText none)
  | .typedParameter (.listSplatPattern splat) type => some (.starred splat.firstText (some type))
  | .typedParameter (.dictionarySplatPattern splat) type =>
    some (.doubleStarred splat.firstText (some type))
  | node => node.item

def collectItem : Arguments E × Bool → Item E → Arguments E × Bool
  | (a, inKwonly), .slash => ({ a with posonly := a.args, args := [] }, inKwonly)
  | (a, _), .star => ({ a with bareStar := true }, true)
  | (a, _), .starred n hint => ({ a with vararg := some ⟨n, hint, none⟩ }, true)
  | (a, inKwonly), .doubleStarred n hint =>
    ({ a with kwarg := some ⟨n, hint, none⟩ }, inKwonly)
  | (a, inKwonly), .param p => (pushParam inKwonly p a, inKwonly)

theorem collectStep_seen (s : Arguments E × Bool) (node : Node E) :
    collectStep s node = (node.seen.map (collectItem s)).getD s := by
  cases node with
  | typedParameter inner type => cases inner <;> rfl
  | _ => rfl

theorem collectArguments_seen (nodes : List (Node E)) :
    collectArguments nodes = ((nodes.filterMap Node.seen).foldl collectItem (.empty, false)).1 := by
  have hfold (s : Arguments E × Bool) :
      nodes.foldl collectStep s = (nodes.filterMap Node.seen).foldl collectItem s := by
    induction nodes generalizing s with
    | nil => rfl
    | cons node nodes ih =>
      rw [List.foldl_cons, collectStep_seen, List.filterMap_cons, ih]
      cases node.seen with
      | none => rfl
      | some i => rfl
  rw [collectArguments, hfold]

def Parameters.bare (ps : Parameters E) : Bool := ps.vararg.isNone && !ps.kwonly.isEmpty

theorem collect_params (a : Arguments E) (inKwonly : Bool) (list : List (Param E)) :
    (list.map Item.param).foldl collectItem (a, inKwonly) =
      (if inKwonly then { a with kwonly := a.kwonly ++ list } else { a with args := a.args ++ list },
        inKwonly) := by
  induction list generalizing a with
  | nil => cases inKwonly <;> simp
  | cons p list ih =>
    rw [List.map_cons, List.foldl_cons, collectItem, ih]
    cases inKwonly <;> simp [pushParam]

theorem collect_head (ps : Parameters E) : ps.head.foldl collectItem (.empty, false) =
    (⟨ps.posonly, ps.args, none, false, [], none⟩, false) := by
  rw [Parameters.head, List.foldl_append, List.foldl_append, collect_params]
  by_cases hposonly : ps.posonly = []
  · rw [if_pos hposonly, hposonly, List.foldl_nil, collect_params]
    rfl
  · rw [if_neg hposonly, List.foldl_cons, List.foldl_nil, collectItem, collect_params]
    rfl

/-- The parts of a legal list of parameters are the ones that are collected. -/
theorem collect_items (h : Legal ps) : (ps.items.foldl collectItem (.empty, false)).1 =
    ⟨ps.posonly, ps.args, ps.vararg, ps.bare, ps.kwonly, ps.kwarg⟩ := by
  have hkwarg (a : Arguments E) (inKwonly : Bool) (hnone : a.kwarg = none) :
      ((ps.kwarg.toList.map fun p => Item.doubleStarred p.name p.annotation).foldl collectItem
        (a, inKwonly)).1 = { a with kwarg := ps.kwarg } := by
    cases hkwarg : ps.kwarg with
    | none =>
      obtain ⟨posonly, args, vararg, bareStar, kwonly, kwarg⟩ := a
      cases hnone
      rfl
    | some p =>
      have hvalue := h.kwarg p hkwarg
      obtain ⟨n, hint, value⟩ := p
      cases hvalue
      rfl
  rw [items_eq, List.foldl_append, List.foldl_append, collect_head, Parameters.tail,
    List.foldl_append, Parameters.stars, Parameters.bare]
  cases hvararg : ps.vararg with
  | some p =>
    have hvalue := h.vararg p hvararg
    obtain ⟨n, hint, value⟩ := p
    cases hvalue
    simp only [List.foldl_cons, List.foldl_nil, collectItem, collect_params]
    rw [hkwarg _ _ rfl]
    rfl
  | none =>
    cases hkwonly : ps.kwonly with
    | nil => exact hkwarg _ _ rfl
    | cons p kwonly =>
      rw [if_neg (List.cons_ne_nil _ _), List.foldl_cons, List.foldl_nil, collectItem,
        collect_params, hkwarg _ _ rfl]
      rfl

theorem positional_behind {posonly index : Nat} (h : posonly ≤ index) (list : List (Param E)) :
    unparsePositional posonly index list = joinItems (index == 0) (list.map .param) := by
  induction list generalizing index with
  | nil => rfl
  | cons p list ih =>
    rw [unparsePositional, if_neg (by omega), List.append_nil, ih (by omega), List.map_cons,
      joinItems]
    rfl

theorem positional_slash {posonly index : Nat} {front : List (Param E)} (hfront : front ≠ [])
    (h : index + front.length = posonly) (list : List (Param E)) :
    unparsePositional posonly index (front ++ list) =
      joinItems (index == 0) (front.map .param ++ [.slash] ++ list.map .param) := by
  induction front generalizing index with
  | nil => exact absurd rfl hfront
  | cons p front ih =>
    rw [List.length_cons] at h
    rw [List.cons_append, unparsePositional, List.map_cons, List.cons_append, List.cons_append,
      joinItems]
    cases front with
    | nil =>
      rw [List.length_nil] at h
      rw [List.nil_append, if_pos (by omega), positional_behind (by omega), List.map_nil,
        List.nil_append, List.singleton_append, joinItems, List.append_assoc]
      rfl
    | cons q front =>
      rw [if_neg (by rw [List.length_cons] at h; omega), List.append_nil,
        ih (List.cons_ne_nil _ _) (by omega)]
      rfl

theorem positional_head (ps : Parameters E) :
    unparsePositional ps.posonly.length 0 (ps.posonly ++ ps.args) = joinItems true ps.head := by
  rw [Parameters.head]
  by_cases hposonly : ps.posonly = []
  · rw [if_pos hposonly, hposonly, List.length_nil, positional_behind (Nat.zero_le _)]
    rfl
  · rw [if_neg hposonly, positional_slash hposonly (Nat.zero_add _)]
    rfl

theorem isEmpty_head (ps : Parameters E) : ps.head.isEmpty = (ps.posonly ++ ps.args).isEmpty := by
  cases hposonly : ps.posonly <;> cases hargs : ps.args <;> simp [Parameters.head, hposonly, hargs]

theorem flatMap_params (list : List (Param E)) :
    list.flatMap (fun p => chars ", " ++ p.render) = joinItems false (list.map .param) := by
  induction list with
  | nil => rfl
  | cons p list ih =>
    rw [List.flatMap_cons, ih]
    rfl

/-- A legal list of parameters is printed as its items with commas between them. -/
theorem unparse_items (h : Legal ps) :
    (⟨ps.posonly, ps.args, ps.vararg, ps.bare, ps.kwonly, ps.kwarg⟩ : Arguments E).unparse =
      joinItems true ps.items := by
  have hkwarg (first : Bool) :
      (ps.kwarg.map fun p => separator first ++ chars "**" ++ p.render).getD [] =
        joinItems first (ps.kwarg.toList.map fun p => Item.doubleStarred p.name p.annotation) := by
    cases hkwarg : ps.kwarg with
    | none => rfl
    | some p =>
      have hvalue := h.kwarg p hkwarg
      obtain ⟨n, hint, value⟩ := p
      cases hvalue
      simp [joinItems, Item.pieces]
  rw [items_eq, joinItems_append, joinItems_append, Parameters.tail, joinItems_append,
    ← hkwarg, ← positional_head, isEmpty_head, Arguments.unparse]
  simp only [flatMap_params, Bool.true_and, List.isEmpty_map]
  cases hvararg : ps.vararg with
  | some p =>
    have hvalue := h.vararg p hvararg
    obtain ⟨n, hint, value⟩ := p
    cases hvalue
    simp [Parameters.stars, Arguments.hasStar, hvararg, joinItems, Item.pieces]
  | none =>
    cases hkwonly : ps.kwonly with
    | nil =>
      simp [Parameters.stars, Parameters.bare, Arguments.hasStar, hvararg, hkwonly, joinItems]
    | cons p kwonly =>
      simp [Parameters.stars, Parameters.bare, Arguments.hasStar, hvararg, hkwonly, joinItems,
        Item.pieces]

end Printing

section Erasing

def Param.erase (p : Param E) : Param E := { p with name := "" }

/-- A list of parameters without the names of the starred ones. -/
def Parameters.erase (ps : Parameters E) : Parameters E :=
  { ps with vararg := ps.vararg.map Param.erase, kwarg := ps.kwarg.map Param.erase }

def Item.erase : Item E → Item E
  | .starred _ hint => .starred "" hint
  | .doubleStarred _ hint => .doubleStarred "" hint
  | i => i

def Reading.erase (r : Reading E) : Reading E := ⟨r.parameters.erase, r.stage⟩

theorem step_erase (r : Reading E) (i : Item E) :
    r.erase.step i.erase = (r.step i).map Reading.erase := by
  obtain ⟨ps, stage⟩ := r
  cases stage with
  | positional =>
    cases i with
    | param p =>
      change (if misplaced p ps.erase then none else _) = _
      rw [Reading.step, show misplaced p ps.erase = misplaced p ps from rfl]
      split <;> rfl
    | slash =>
      change (if ps.posonly = [] ∧ ps.args ≠ [] then _ else none) = _
      rw [Reading.step]
      split <;> rfl
    | _ => rfl
  | keyword needed => cases i <;> cases needed <;> rfl
  | done => cases i <;> rfl

theorem foldlM_erase (r : Reading E) (items : List (Item E)) :
    (items.map Item.erase).foldlM Reading.step r.erase =
      (items.foldlM Reading.step r).map Reading.erase := by
  induction items generalizing r with
  | nil => rfl
  | cons i items ih =>
    rw [List.map_cons, List.foldlM_cons, List.foldlM_cons, step_erase]
    cases hstep : r.step i with
    | none => rfl
    | some r' => exact ih r'

/-- The names of the starred parameters do not matter for the order. -/
theorem assemble_erase (items : List (Item E)) :
    assemble (items.map Item.erase) = (assemble items).map Parameters.erase := by
  have hrun := foldlM_erase .start items
  rw [show (Reading.start : Reading E).erase = .start from rfl] at hrun
  rw [assemble, assemble, hrun]
  cases items.foldlM Reading.step Reading.start with
  | none => rfl
  | some r =>
    change Reading.finish r.erase = (Reading.finish r).map Parameters.erase
    rw [Reading.finish, Reading.finish]
    change (if r.stage = _ then _ else _) = _
    split <;> rfl

theorem seen_erase (node : Node E) : node.seen.map Item.erase = node.item.map Item.erase := by
  cases node with
  | typedParameter inner type => cases inner <;> rfl
  | _ => rfl

theorem assemble_seen {nodes : List (Node E)} {ps : Parameters E} (h : source nodes = some ps) :
    ∃ ps', assemble (nodes.filterMap Node.seen) = some ps' ∧ ps'.erase = ps.erase := by
  have hitems : (nodes.filterMap Node.seen).map Item.erase =
      (nodes.filterMap Node.item).map Item.erase := by
    rw [List.map_filterMap, List.map_filterMap]
    congr 1
    funext node
    exact seen_erase node
  have hseen := assemble_erase (nodes.filterMap Node.seen)
  rw [hitems, assemble_erase, show assemble (nodes.filterMap Node.item) = some ps from h] at hseen
  obtain ⟨ps', hps', herase⟩ := Option.map_eq_some_iff.mp hseen.symm
  exact ⟨ps', hps', herase⟩

/-- What is printed of a legal list, with the first children of its splats as their names. -/
theorem unparse_seen {nodes : List (Node E)} {ps : Parameters E}
    (h : assemble (nodes.filterMap Node.seen) = some ps) :
    unparseParameters nodes = joinItems true ps.items := by
  obtain ⟨hitems, hlegal⟩ := items_of_assemble h
  rw [unparseParameters, collectArguments_seen, ← hitems, collect_items hlegal,
    unparse_items hlegal]

end Erasing

section Reading

/-- The splat of a node, if it is or has one. -/
def Node.splat : Node E → Option Splat
  | .listSplatPattern splat => some splat
  | .dictionarySplatPattern splat => some splat
  | .typedParameter (.listSplatPattern splat) _ => some splat
  | .typedParameter (.dictionarySplatPattern splat) _ => some splat
  | _ => none

theorem firstText_direct {splat : Splat} (h : splat.extras = []) :
    splat.firstText = splat.name.val := by
  rw [Splat.firstText, h]
  rfl

theorem seen_direct {node : Node E} (h : ∀ splat ∈ node.splat, splat.extras = []) :
    node.seen = node.item := by
  cases node with
  | listSplatPattern splat => rw [Node.seen, firstText_direct (h splat rfl)]; rfl
  | dictionarySplatPattern splat => rw [Node.seen, firstText_direct (h splat rfl)]; rfl
  | typedParameter inner type =>
    cases inner with
    | listSplatPattern splat => rw [Node.seen, firstText_direct (h splat rfl)]; rfl
    | dictionarySplatPattern splat => rw [Node.seen, firstText_direct (h splat rfl)]; rfl
    | identifier name => rfl
  | _ => rfl

theorem item_named (node : Node E) : ∀ i ∈ node.item, i.Named := by
  intro i hi
  cases node with
  | typedParameter inner type =>
    cases inner with
    | identifier name => cases hi; exact name.property
    | listSplatPattern splat => cases hi; exact splat.name.property
    | dictionarySplatPattern splat => cases hi; exact splat.name.property
  | listSplatPattern splat => cases hi; exact splat.name.property
  | dictionarySplatPattern splat => cases hi; exact splat.name.property
  | defaultParameter name value => cases hi; exact name.property
  | typedDefaultParameter name type value => cases hi; exact name.property
  | identifier name => cases hi; exact name.property
  | positionalSeparator => cases hi; trivial
  | keywordSeparator => cases hi; trivial
  | extra extra => cases hi

/-- Splats whose names follow at once are read back. -/
theorem parse_direct {nodes : List (Node E)} {ps : Parameters E} (h : source nodes = some ps)
    (hdirect : ∀ node ∈ nodes, ∀ splat ∈ node.splat, splat.extras = []) :
    parse (unparseParameters nodes) = some ps := by
  have hseen : nodes.filterMap Node.seen = nodes.filterMap Node.item :=
    List.filterMap_congr fun node hnode => seen_direct (hdirect node hnode)
  have hps : assemble (nodes.filterMap Node.seen) = some ps := by rw [hseen]; exact h
  obtain ⟨hitems, -⟩ := items_of_assemble hps
  rw [unparse_seen hps, parse_joinItems, hitems]
  · exact hps
  · intro i hi
    rw [hitems, hseen] at hi
    obtain ⟨node, -, hnode⟩ := List.mem_filterMap.mp hi
    exact item_named node i hnode

/-- A token that is not a name, or none. -/
def Nameless (tokens : List (Token E)) : Prop := ∀ n rest, tokens ≠ .name n :: rest

/-- What behind a comment is not read as a name. -/
def Quiet (rest : List (Piece E)) : Prop :=
  ∃ line more, rest = line ++ more ∧ .char '\n' ∉ line ∧
    (more = [] ∨ ∃ next, more = .char '\n' :: next ∧ Ends next)

theorem Quiet.append {line rest : List (Piece E)} (hline : .char '\n' ∉ line) (h : Quiet rest) :
    Quiet (line ++ rest) := by
  obtain ⟨first, more, rfl, hfirst, hmore⟩ := h
  refine ⟨line ++ first, more, (List.append_assoc _ _ _).symm, ?_, hmore⟩
  rw [List.mem_append, not_or]
  exact ⟨hline, hfirst⟩

theorem nameless_ends {rest : List (Piece E)} {tokens : List (Token E)} (h : Ends rest)
    (hlex : lexFrom [] false rest = some tokens) : Nameless tokens := by
  intro n others hname
  rcases h with rfl | ⟨c, more, rfl, hc⟩
  · rw [lexFrom] at hlex
    simp [word, hname] at hlex
  · obtain ⟨token, hnot, htoken⟩ := @lexFrom_separates E more c hc
    rw [htoken] at hlex
    obtain ⟨later, -, hlater⟩ := Option.map_eq_some_iff.mp hlex
    simp only [word, if_true, List.nil_append] at hlater
    rw [← hlater, List.cons.injEq] at hname
    exact hnot n hname.1

theorem lexFrom_comment {line : List (Piece E)} (h : .char '\n' ∉ line) (rest : List (Piece E)) :
    lexFrom [] true (line ++ rest) = lexFrom [] true rest := by
  induction line with
  | nil => rfl
  | cons p line ih =>
    rw [List.mem_cons, not_or] at h
    rw [List.cons_append, ← ih h.2]
    cases p with
    | atom e => rw [lexFrom]; simp
    | char c =>
      rw [lexFrom]
      intro hc
      exact h.1 (by rw [hc])

theorem nameless_quiet {rest : List (Piece E)} {tokens : List (Token E)} (h : Quiet rest)
    (hlex : lexFrom [] true rest = some tokens) : Nameless tokens := by
  obtain ⟨line, more, rfl, hline, hmore⟩ := h
  rw [lexFrom_comment hline] at hlex
  rcases hmore with rfl | ⟨next, rfl, hends⟩
  · rw [lexFrom] at hlex
    cases hlex
    intro n rest hname
    cases hname
  · rw [lexFrom] at hlex
    exact nameless_ends hends hlex

/-- No name is read at what stands before the name of a splat. -/
theorem nameless_extra (e : Extra) {rest : List (Piece E)} {tokens : List (Token E)}
    (hquiet : Quiet rest) (hends : Ends rest)
    (hlex : lexFrom [] false (chars e.text ++ rest) = some tokens) : Nameless tokens := by
  cases e with
  | comment text =>
    have hchars : (chars (Extra.comment text).text : List (Piece E)) =
        .char '#' :: chars text.val := by
      simp [chars, Extra.text]
    have hline : (.char '\n' : Piece E) ∉ chars text.val := by
      simpa [chars] using text.property
    have hhash : lexFrom [] false (chars (Extra.comment text).text ++ rest) =
        lexFrom [] true (chars text.val ++ rest) := by
      have hname : isNameChar '#' = false := by decide
      have hblank : isBlank '#' = false := by decide
      rw [hchars, List.cons_append]
      conv_lhs => unfold lexFrom
      simp [hname, hblank, word]
    exact nameless_quiet (hquiet.append hline) (hhash ▸ hlex)
  | continuation carriage =>
    have hskip : lexFrom [] false (chars (Extra.continuation carriage).text ++ rest) =
        lexFrom [] false rest := by
      have hname : isNameChar '\\' = false := by decide
      have hblank : isBlank '\\' = false := by decide
      cases carriage with
      | true =>
        change lexFrom [] false (.char '\\' :: .char '\r' :: .char '\n' :: rest) = _
        conv_lhs => unfold lexFrom
        simp [hname, hblank, word]
      | false =>
        change lexFrom [] false (.char '\\' :: .char '\n' :: rest) = _
        conv_lhs => unfold lexFrom
        simp [hname, hblank, word]
    exact nameless_ends hends (hskip ▸ hlex)

theorem lexFrom_front {items : List (Item E)} (h : ∀ i ∈ items, i.Named) (rest : List (Piece E)) :
    lexFrom [] false (joinItems true items ++ (separator items.isEmpty ++ rest)) =
      (lexFrom [] false rest).map fun tokens =>
        joinTokens true items ++ ((if items = [] then [] else [.comma]) ++ tokens) := by
  cases items with
  | nil =>
    simp only [joinItems, joinTokens, separator, List.isEmpty_nil, if_true, List.nil_append]
    exact Option.map_id.symm ▸ rfl
  | cons i items =>
    have hstops : Stops (separator (i :: items).isEmpty ++ rest) := .inr ⟨_, rfl⟩
    rw [lexFrom_joinItems h hstops, lexFrom_separator, Option.map_map]
    rfl

/-- A text that begins with some named items is read as them and what follows. -/
theorem parse_front {items : List (Item E)} {rest : List (Piece E)} {ps : Parameters E}
    (h : ∀ i ∈ items, i.Named)
    (hparse : parse (joinItems true items ++ (separator items.isEmpty ++ rest)) = some ps) :
    ∃ tokens fuel others, lexFrom [] false rest = some tokens ∧
      readItems fuel tokens = some others ∧ assemble (items ++ others) = some ps := by
  rw [parse, lexFrom_front h] at hparse
  obtain ⟨all, hlex, hitems⟩ := Option.bind_eq_some_iff.mp hparse
  obtain ⟨tokens, htokens, rfl⟩ := Option.map_eq_some_iff.mp hlex
  obtain ⟨read, hread, hassemble⟩ := Option.bind_eq_some_iff.mp hitems
  have hlength := length_joinTokens true items
  obtain ⟨fuel, hfuel⟩ := Nat.exists_eq_add_of_le (Nat.le_trans hlength
    (List.length_append ▸ Nat.le_add_right _ _ : _ ≤ (joinTokens true items ++
      ((if items = [] then [] else [Token.comma]) ++ tokens)).length))
  rw [hfuel, readItems_tail] at hread
  obtain ⟨others, hothers, rfl⟩ := Option.map_eq_some_iff.mp hread
  exact ⟨tokens, fuel, others, htokens, hothers, hassemble⟩

theorem readItem_star {tokens : List (Token E)} (h : Nameless tokens) :
    readItem (.star :: tokens) = some (.star, tokens) := by
  cases tokens with
  | nil => rfl
  | cons token tokens =>
    cases token with
    | name n => exact absurd rfl (h n tokens)
    | _ => rfl

theorem readItem_doubleStar {tokens : List (Token E)} (h : Nameless tokens) :
    readItem (.doubleStar :: tokens) = none := by
  cases tokens with
  | nil => rfl
  | cons token tokens =>
    cases token with
    | name n => exact absurd rfl (h n tokens)
    | _ => rfl

theorem readItems_star {tokens : List (Token E)} (h : Nameless tokens) {fuel : Nat}
    {items : List (Item E)} (hread : readItems fuel (.star :: tokens) = some items) :
    .star ∈ items := by
  cases fuel with
  | zero => cases hread
  | succ fuel =>
    rw [readItems_step (List.cons_ne_nil _ _), readItem_star h] at hread
    cases tokens with
    | nil =>
      cases hread
      exact List.mem_cons_self
    | cons token tokens =>
      cases token with
      | comma =>
        obtain ⟨others, -, rfl⟩ := Option.map_eq_some_iff.mp hread
        exact List.mem_cons_self
      | _ => cases hread

theorem readItems_doubleStar {tokens : List (Token E)} (h : Nameless tokens) (fuel : Nat) :
    readItems fuel (.doubleStar :: tokens) = none := by
  cases fuel with
  | zero => rfl
  | succ fuel => rw [readItems_step (List.cons_ne_nil _ _), readItem_doubleStar h]

theorem vararg_of_star {ps : Parameters E} (h : .star ∈ ps.items) : ps.vararg = none := by
  cases hvararg : ps.vararg with
  | none => rfl
  | some p =>
    by_cases hposonly : ps.posonly = []
    · simp [Parameters.items, hvararg, hposonly] at h
    · simp [Parameters.items, hvararg, hposonly] at h

/-- What is printed for the name of a splat. -/
def Shown (n : String) : Prop := Named n ∨ ∃ e : Extra, n = e.text

def Item.Shown : Item E → Prop
  | .starred n _ => Parameters.Shown n
  | .doubleStarred n _ => Parameters.Shown n
  | .param p => Parameters.Named p.name
  | _ => True

theorem firstText_shown (splat : Splat) : Shown splat.firstText := by
  obtain ⟨extras, name⟩ := splat
  cases extras with
  | nil => exact .inl name.property
  | cons e extras => exact .inr ⟨e, rfl⟩

theorem seen_shown (node : Node E) : ∀ i ∈ node.seen, i.Shown := by
  intro i hi
  cases node with
  | typedParameter inner type =>
    cases inner with
    | identifier name => cases hi; exact name.property
    | listSplatPattern splat => cases hi; exact firstText_shown splat
    | dictionarySplatPattern splat => cases hi; exact firstText_shown splat
  | listSplatPattern splat => cases hi; exact firstText_shown splat
  | dictionarySplatPattern splat => cases hi; exact firstText_shown splat
  | defaultParameter name value => cases hi; exact name.property
  | typedDefaultParameter name type value => cases hi; exact name.property
  | identifier name => cases hi; exact name.property
  | positionalSeparator => cases hi; trivial
  | keywordSeparator => cases hi; trivial
  | extra extra => cases hi

theorem newline_name {n : String} (h : Named n) : (.char '\n' : Piece E) ∉ chars n := by
  rw [chars, List.mem_map]
  rintro ⟨c, hc, hnewline⟩
  cases hnewline
  exact absurd (List.all_eq_true.mp h.2 _ hc) (by decide)

theorem newline_hint (hint : Option E) : (.char '\n' : Piece E) ∉
    (hint.map fun e => chars ": " ++ [.atom e]).getD [] := by
  cases hint <;> simp [chars]

theorem newline_param {p : Param E} (h : Named p.name) :
    (.char '\n' : Piece E) ∉ (Item.param p).pieces := by
  have hvalue : (.char '\n' : Piece E) ∉
      (p.default.map fun e => chars "=" ++ [.atom e]).getD [] := by
    cases p.default <;> simp [chars]
  rw [Item.pieces, Param.render, List.mem_append, List.mem_append, not_or, not_or]
  exact ⟨newline_name h, newline_hint _, hvalue⟩

theorem newline_params {list : List (Param E)} (h : ∀ p ∈ list, Named p.name) :
    (.char '\n' : Piece E) ∉ joinItems false (list.map .param) := by
  induction list with
  | nil => simp [joinItems]
  | cons p list ih =>
    obtain ⟨hp, hlist⟩ := List.forall_mem_cons.mp h
    rw [List.map_cons, joinItems, List.mem_append, List.mem_append, not_or, not_or]
    exact ⟨⟨by simp [separator, chars], newline_param hp⟩, ih hlist⟩

theorem ends_hint (hint : Option E) :
    Ends ((hint.map fun e => chars ": " ++ [.atom e]).getD []) := by
  have hends := ends_render hint none (.inl rfl : Stops ([] : List (Piece E)))
  rwa [Option.map_none, Option.getD_none, List.nil_append, List.append_nil] at hends

theorem quiet_hint (hint : Option E) :
    Quiet ((hint.map fun e => chars ": " ++ [.atom e]).getD []) :=
  ⟨_, [], (List.append_nil _).symm, newline_hint hint, .inl rfl⟩

theorem quiet_shown {n : String} (h : Shown n) (hint : Option E) :
    Quiet (chars n ++ (hint.map fun e => chars ": " ++ [.atom e]).getD []) := by
  rcases h with hn | ⟨e, rfl⟩
  · exact (quiet_hint hint).append (newline_name hn)
  · have hends := ends_hint hint
    cases e with
    | comment text =>
      refine (quiet_hint hint).append ?_
      have hline := text.property
      simp only [chars, Extra.text, String.toList_append, List.map_append, List.mem_append,
        List.mem_map, not_or]
      refine ⟨by simp, ?_⟩
      rintro ⟨c, hc, hnewline⟩
      cases hnewline
      exact hline hc
    | continuation carriage =>
      cases carriage with
      | true => exact ⟨[.char '\\', .char '\r'], _, rfl, by simp, .inr ⟨_, rfl, hends⟩⟩
      | false => exact ⟨[.char '\\'], _, rfl, by simp, .inr ⟨_, rfl, hends⟩⟩

theorem quiet_tail {ps : Parameters E} (hkwonly : ∀ p ∈ ps.kwonly, Named p.name)
    (hkwarg : ∀ p ∈ ps.kwarg, Shown p.name) : Quiet (joinItems false ps.tail) := by
  rw [Parameters.tail, joinItems_append]
  refine Quiet.append (newline_params hkwonly) ?_
  rw [Bool.false_and]
  cases hp : ps.kwarg with
  | none => exact ⟨[], [], rfl, by simp, .inl rfl⟩
  | some p =>
    have hquiet := quiet_shown (hkwarg p hp) p.annotation
    have hpieces : joinItems false (Option.toList (some p) |>.map fun p =>
        Item.doubleStarred p.name p.annotation) = chars ", **" ++ (chars p.name ++
          ( p.annotation.map fun e => chars ": " ++ [.atom e]).getD []) := by
      simp [joinItems, Item.pieces, Param.render, separator, chars]
    rw [hpieces]
    exact hquiet.append (by simp [chars])

/-- A star whose name is not read leaves the text without its parameter. -/
theorem vararg_unread {ps qs : Parameters E} {e : Extra} {hint : Option E}
    (hnamed : ∀ i ∈ qs.head, i.Named) (hkwonly : ∀ p ∈ qs.kwonly, Named p.name)
    (hkwarg : ∀ p ∈ qs.kwarg, Shown p.name)
    (hvararg : qs.vararg = some ⟨e.text, hint, none⟩)
    (hparse : parse (joinItems true qs.items) = some ps) : ps.vararg = none := by
  let rest := (hint.map fun e => chars ": " ++ [Piece.atom e]).getD [] ++
    joinItems false qs.tail
  have hsplit : joinItems true qs.items = joinItems true qs.head ++
      (separator qs.head.isEmpty ++ .char '*' :: (chars e.text ++ rest)) := by
    rw [items_eq, joinItems_append, Parameters.stars, hvararg]
    simp [joinItems, Item.pieces, Param.render, chars, rest]
  rw [hsplit] at hparse
  obtain ⟨tokens, fuel, others, hlex, hread, hassemble⟩ := parse_front hnamed hparse
  have hstar : ∀ more, chars e.text ++ rest ≠ .char '*' :: more := by
    intro more
    cases e with
    | comment text => simp [chars, Extra.text]
    | continuation carriage => cases carriage <;> simp [chars, Extra.text]
  rw [lexFrom_star hstar] at hlex
  obtain ⟨later, hlater, rfl⟩ := Option.map_eq_some_iff.mp hlex
  have hquiet : Quiet rest := (quiet_tail hkwonly hkwarg).append (newline_hint hint)
  have hends : Ends rest := by
    cases hint with
    | some e => exact .inr ⟨':', _, rfl, .inr (.inl rfl)⟩
    | none => exact (stops_joinItems qs.tail).ends
  have hmem : .star ∈ others := readItems_star (nameless_extra e hquiet hends hlater) hread
  apply vararg_of_star
  rw [(items_of_assemble hassemble).1]
  exact List.mem_append_right _ hmem

/-- A double star whose name is not read is no parameter at all. -/
theorem kwarg_unread {qs : Parameters E} {e : Extra} {hint : Option E}
    (hnamed : ∀ i ∈ qs.head ++ qs.stars ++ qs.kwonly.map .param, i.Named)
    (hkwarg : qs.kwarg = some ⟨e.text, hint, none⟩) :
    parse (joinItems true qs.items) = none := by
  let front := qs.head ++ qs.stars ++ qs.kwonly.map .param
  let rest := (hint.map fun e => chars ": " ++ [Piece.atom e]).getD []
  have hsplit : joinItems true qs.items = joinItems true front ++
      (separator front.isEmpty ++ .char '*' :: .char '*' :: (chars e.text ++ rest)) := by
    have hitems : qs.items = front ++ [.doubleStarred e.text hint] := by
      rw [items_eq, Parameters.tail, hkwarg]
      simp [front]
    rw [hitems, joinItems_append]
    simp [joinItems, Item.pieces, Param.render, chars, rest]
  cases hparse : parse (joinItems true qs.items) with
  | none => rfl
  | some ps =>
    rw [hsplit] at hparse
    obtain ⟨tokens, fuel, others, hlex, hread, -⟩ := parse_front hnamed hparse
    rw [lexFrom_doubleStar] at hlex
    obtain ⟨later, hlater, rfl⟩ := Option.map_eq_some_iff.mp hlex
    have hnameless := nameless_extra e (quiet_hint hint) (ends_hint hint)
      hlater
    change readItems fuel (.doubleStar :: later) = some others at hread
    rw [readItems_doubleStar hnameless] at hread
    cases hread

theorem seen_splat {node : Node E} {splat : Splat} (h : splat ∈ node.splat) :
    ∃ hint, node.seen = some (.starred splat.firstText hint) ∨
      node.seen = some (.doubleStarred splat.firstText hint) := by
  cases node with
  | typedParameter inner type =>
    cases inner with
    | identifier name => cases h
    | listSplatPattern splat => cases h; exact ⟨some type, .inl rfl⟩
    | dictionarySplatPattern splat => cases h; exact ⟨some type, .inr rfl⟩
  | listSplatPattern splat => cases h; exact ⟨none, .inl rfl⟩
  | dictionarySplatPattern splat => cases h; exact ⟨none, .inr rfl⟩
  | _ => cases h

theorem vararg_of_starred {ps : Parameters E} (h : Legal ps) {n : String} {hint : Option E}
    (hmem : .starred n hint ∈ ps.items) : ps.vararg = some ⟨n, hint, none⟩ := by
  rw [items_eq, List.mem_append, List.mem_append] at hmem
  have hhead : .starred n hint ∉ ps.head := by
    by_cases hposonly : ps.posonly = [] <;> simp [Parameters.head, hposonly]
  have htail : .starred n hint ∉ ps.tail := by simp [Parameters.tail]
  have hstars := (hmem.resolve_left hhead).resolve_right htail
  rw [Parameters.stars] at hstars
  cases hvararg : ps.vararg with
  | some p =>
    have hvalue := h.vararg p hvararg
    obtain ⟨m, other, value⟩ := p
    cases hvalue
    simp only [hvararg, List.mem_singleton, Item.starred.injEq] at hstars
    rw [hstars.1, hstars.2]
  | none => by_cases hkwonly : ps.kwonly = [] <;> simp [hvararg, hkwonly] at hstars

theorem kwarg_of_doubleStarred {ps : Parameters E} (h : Legal ps) {n : String}
    {hint : Option E} (hmem : .doubleStarred n hint ∈ ps.items) :
    ps.kwarg = some ⟨n, hint, none⟩ := by
  rw [items_eq, List.mem_append, List.mem_append] at hmem
  have hhead : .doubleStarred n hint ∉ ps.head := by
    by_cases hposonly : ps.posonly = [] <;> simp [Parameters.head, hposonly]
  have hstars : .doubleStarred n hint ∉ ps.stars := by
    cases hvararg : ps.vararg <;> by_cases hkwonly : ps.kwonly = [] <;>
      simp [Parameters.stars, hvararg, hkwonly]
  have htail := (hmem.resolve_left hhead).resolve_left hstars
  cases hkwarg : ps.kwarg with
  | some p =>
    have hvalue := h.kwarg p hkwarg
    obtain ⟨m, other, value⟩ := p
    cases hvalue
    simp only [Parameters.tail, hkwarg, List.mem_append, List.mem_map, Option.mem_toList,
      Item.doubleStarred.injEq, reduceCtorEq, and_false, exists_false, false_or] at htail
    obtain ⟨q, hq, rfl, rfl⟩ := htail
    cases hq
    rfl
  | none => simp [Parameters.tail, hkwarg] at htail

theorem named_params {qs : Parameters E} (h : ∀ i ∈ qs.items, i.Shown) {p : Param E}
    (hp : p ∈ qs.posonly ∨ p ∈ qs.args ∨ p ∈ qs.kwonly) : Named p.name := by
  refine h (.param p) ?_
  rcases hp with hp | hp | hp <;> simp [items_eq, Parameters.head, Parameters.tail, hp]

theorem named_head {qs : Parameters E} (h : ∀ i ∈ qs.items, i.Shown) : ∀ i ∈ qs.head, i.Named := by
  intro i hi
  simp only [Parameters.head, List.mem_append, List.mem_map] at hi
  rcases hi with (⟨p, hp, rfl⟩ | hi) | ⟨p, hp, rfl⟩
  · exact named_params h (.inl hp)
  · by_cases hposonly : qs.posonly = []
    · rw [if_pos hposonly] at hi
      cases hi
    · rw [if_neg hposonly, List.mem_singleton] at hi
      rw [hi]
      trivial
  · exact named_params h (.inr (.inl hp))

theorem named_kwonly {qs : Parameters E} (h : ∀ i ∈ qs.items, i.Shown) :
    ∀ p ∈ qs.kwonly, Named p.name :=
  fun _ hp => named_params h (.inr (.inr hp))

theorem shown_kwarg {qs : Parameters E} (h : ∀ i ∈ qs.items, i.Shown) :
    ∀ p ∈ qs.kwarg, Shown p.name := by
  intro p hp
  refine h (.doubleStarred p.name p.annotation) ?_
  rw [items_eq, Parameters.tail, show qs.kwarg = some p from hp]
  simp

/-- All that stands before the double star has a name, if the starred parameter does. -/
theorem named_front {qs : Parameters E} (h : ∀ i ∈ qs.items, i.Shown)
    (hstarred : ∀ n hint, .starred n hint ∈ qs.items → Named n) :
    ∀ i ∈ qs.head ++ qs.stars ++ qs.kwonly.map .param, i.Named := by
  intro i hi
  rw [List.mem_append, List.mem_append] at hi
  rcases hi with (hi | hi) | hi
  · exact named_head h i hi
  · have hmem : i ∈ qs.items := by simp [items_eq, hi]
    cases i with
    | starred n hint => exact hstarred n hint hmem
    | star => trivial
    | slash => trivial
    | param p => exact h _ hmem
    | doubleStarred n hint =>
      exfalso
      cases hvararg : qs.vararg <;> by_cases hkwonly : qs.kwonly = [] <;>
        simp [Parameters.stars, hvararg, hkwonly] at hi
  · obtain ⟨p, hp, rfl⟩ := List.mem_map.mp hi
    exact named_kwonly h p hp

/-- The text that is printed for a legal parameter list is read as the same list if and only
if no comment and no continued line stands between a star and its name. -/
theorem unparse_parameters_iff {nodes : List (Node E)} {ps : Parameters E}
    (h : source nodes = some ps) :
    parse (unparseParameters nodes) = some ps ↔
      ∀ node ∈ nodes, ∀ splat ∈ node.splat, splat.extras = [] := by
  refine ⟨?_, parse_direct h⟩
  intro hparse node hnode splat hsplat
  by_contra hextras
  obtain ⟨e, extras, he⟩ := List.exists_cons_of_ne_nil hextras
  have hfirst : splat.firstText = e.text := by
    rw [Splat.firstText, he]
    rfl
  obtain ⟨qs, hqs, herase⟩ := assemble_seen h
  obtain ⟨hitems, hlegal⟩ := items_of_assemble hqs
  rw [unparse_seen hqs] at hparse
  have hshown : ∀ i ∈ qs.items, i.Shown := by
    intro i hi
    rw [hitems] at hi
    obtain ⟨other, -, hother⟩ := List.mem_filterMap.mp hi
    exact seen_shown other i hother
  have hhead := named_head hshown
  have hkwonly := named_kwonly hshown
  have hkwarg := shown_kwarg hshown
  have hmem (i : Item E) (hi : node.seen = some i) : i ∈ qs.items := by
    rw [hitems]
    exact List.mem_filterMap.mpr ⟨node, hnode, hi⟩
  have hvararg (e : Extra) (hint : Option E) :
      qs.vararg ≠ some ⟨e.text, hint, none⟩ := by
    intro hbad
    have hnone := vararg_unread hhead hkwonly hkwarg hbad hparse
    have hnames := congrArg Parameters.vararg herase
    simp [Parameters.erase, hbad, hnone] at hnames
  obtain ⟨hint, hseen | hseen⟩ := seen_splat hsplat
  · have hbad := vararg_of_starred hlegal (hmem _ hseen)
    rw [hfirst] at hbad
    exact hvararg e hint hbad
  · have hbad := kwarg_of_doubleStarred hlegal (hmem _ hseen)
    rw [hfirst] at hbad
    have hnamed := named_front hshown fun n other hstarred => by
      refine (hshown _ hstarred).resolve_right ?_
      rintro ⟨e, rfl⟩
      exact hvararg e other (vararg_of_starred hlegal hstarred)
    rw [kwarg_unread hnamed hbad] at hparse
    cases hparse

/-- `(a, /, b=0, *c, d: 1, **e)`, the expressions being numbers. -/
theorem every_part :
    parse (unparseParameters [.identifier ⟨"a", by decide⟩, .positionalSeparator,
      .defaultParameter ⟨"b", by decide⟩ 0, .listSplatPattern ⟨[], ⟨"c", by decide⟩⟩,
      .typedParameter (.identifier ⟨"d", by decide⟩) 1,
      .dictionarySplatPattern ⟨[], ⟨"e", by decide⟩⟩]) =
    some (⟨[⟨"a", none, none⟩], [⟨"b", none, some 0⟩], some ⟨"c", none, none⟩,
      [⟨"d", some 1, none⟩], some ⟨"e", none, none⟩⟩ : Parameters Nat) :=
  (unparse_parameters_iff (by decide +kernel)).mpr (by decide +kernel)

/-- `(*  # all` and `args)` on the next line. -/
theorem comment_named : ¬ ∀ (nodes : List (Node Nat)) (ps : Parameters Nat),
    source nodes = some ps → parse (unparseParameters nodes) = some ps := by
  intro h
  have hargs := h [.listSplatPattern ⟨[.comment ⟨" all", by decide⟩], ⟨"args", by decide⟩⟩]
    ⟨[], [], some ⟨"args", none, none⟩, [], none⟩ (by decide +kernel)
  exact absurd hargs (by decide +kernel)

end Reading

end RemyCC.Python.Parameters
