import RemyCC.Python.Parameters

/-!
# The items of a parameter list

A legal list of parameters and the items it is written with determine each
other, and named items with commas between them are read back as they are.
-/

namespace RemyCC.Python.Parameters

variable {E : Type}

section Items

/-- The items that a text has for some parameters. -/
def Parameters.items (ps : Parameters E) : List (Item E) :=
  ps.posonly.map .param ++ (if ps.posonly = [] then [] else [.slash]) ++ ps.args.map .param ++
    (match ps.vararg with
    | some p => [.starred p.name p.annotation]
    | none => if ps.kwonly = [] then [] else [.star]) ++
    ps.kwonly.map .param ++ ps.kwarg.toList.map fun p => .doubleStarred p.name p.annotation

def Item.pieces : Item E → List (Piece E)
  | .slash => chars "/"
  | .star => chars "*"
  | .starred n hint => chars "*" ++ Param.render ⟨n, hint, none⟩
  | .doubleStarred n hint => chars "**" ++ Param.render ⟨n, hint, none⟩
  | .param p => p.render

def joinItems : Bool → List (Item E) → List (Piece E)
  | _, [] => []
  | first, i :: rest => separator first ++ i.pieces ++ joinItems false rest

def Item.tokens : Item E → List (Token E)
  | .slash => [.slash]
  | .star => [.star]
  | .starred n hint => .star :: .name n :: (hint.map fun e => [.colon, .atom e]).getD []
  | .doubleStarred n hint =>
    .doubleStar :: .name n :: (hint.map fun e => [.colon, .atom e]).getD []
  | .param p => .name p.name :: (( p.annotation.map fun e => [.colon, .atom e]).getD [] ++
      (p.default.map fun e => [.equals, .atom e]).getD [])

def joinTokens : Bool → List (Item E) → List (Token E)
  | _, [] => []
  | first, i :: rest => (if first then [] else [.comma]) ++ i.tokens ++ joinTokens false rest

/-- A name that is written as the characters of one. -/
def Named (n : String) : Prop := n ≠ "" ∧ n.toList.all isNameChar = true

def Item.Named : Item E → Prop
  | .starred n _ => Parameters.Named n
  | .doubleStarred n _ => Parameters.Named n
  | .param p => Parameters.Named p.name
  | _ => True

theorem joinItems_append (first : Bool) (xs ys : List (Item E)) :
    joinItems first (xs ++ ys) = joinItems first xs ++ joinItems (first && xs.isEmpty) ys := by
  cases xs with
  | nil => simp [joinItems]
  | cons x xs =>
    rw [List.cons_append, joinItems, joinItems, List.isEmpty_cons, Bool.and_false,
      List.append_assoc _ (joinItems false xs)]
    congr 1
    induction xs with
    | nil => rfl
    | cons y xs ih =>
      rw [List.cons_append, joinItems, joinItems, ih]
      simp only [List.append_assoc]

end Items

section Lexing

variable {back : List Char} {rest : List (Piece E)}

/-- An item ends where the text does or at a comma. -/
def Stops (rest : List (Piece E)) : Prop := rest = [] ∨ ∃ more, rest = .char ',' :: more

/-- A name that ends where its characters do. -/
def Ends (rest : List (Piece E)) : Prop :=
  rest = [] ∨ ∃ c more, rest = .char c :: more ∧ (c = ',' ∨ c = ':' ∨ c = '=')

theorem lexFrom_nameChar {c : Char} (h : isNameChar c = true) (back : List Char)
    (rest : List (Piece E)) :
    lexFrom back false (.char c :: rest) = lexFrom (c :: back) false rest := by
  conv_lhs => unfold lexFrom
  simp only [h, if_true]

theorem lexFrom_nameChars {cs : List Char} (h : cs.all isNameChar = true) (back : List Char)
    (rest : List (Piece E)) :
    lexFrom back false (cs.map .char ++ rest) = lexFrom (cs.reverse ++ back) false rest := by
  induction cs generalizing back with
  | nil => rfl
  | cons c cs ih =>
    rw [List.all_cons, Bool.and_eq_true] at h
    rw [List.map_cons, List.cons_append, lexFrom_nameChar h.1, ih h.2, List.reverse_cons,
      List.append_assoc, List.singleton_append]

theorem lexFrom_delimiter {c : Char} {token : Token E} (hname : isNameChar c = false)
    (hblank : isBlank c = false) (hother : c ≠ '#' ∧ c ≠ '*' ∧ c ≠ '\\')
    (h : delimiter c = some token) (back : List Char) (rest : List (Piece E)) :
    lexFrom back false (.char c :: rest) =
      (lexFrom [] false rest).map (word back ++ token :: ·) := by
  conv_lhs => unfold lexFrom
  simp only [hname, hblank, hother, h, if_false, Bool.false_eq_true]

theorem lexFrom_blank (back : List Char) (rest : List (Piece E)) :
    lexFrom back false (.char ' ' :: rest) = (lexFrom [] false rest).map (word back ++ ·) := by
  have hname : isNameChar ' ' = false := by decide
  have hblank : isBlank ' ' = true := by decide
  conv_lhs => unfold lexFrom
  simp only [hname, hblank, if_false, if_true, Bool.false_eq_true]

theorem lexFrom_atom (back : List Char) (e : E) (rest : List (Piece E)) :
    lexFrom back false (.atom e :: rest) =
      (lexFrom [] false rest).map (word back ++ .atom e :: ·) := by
  conv_lhs => unfold lexFrom

theorem lexFrom_separates {c : Char} (hc : c = ',' ∨ c = ':' ∨ c = '=') :
    ∃ token : Token E, (∀ n, token ≠ .name n) ∧ ∀ back : List Char,
      lexFrom back false (.char c :: rest) =
        (lexFrom [] false rest).map (word back ++ token :: ·) := by
  rcases hc with rfl | rfl | rfl
  · exact ⟨.comma, fun n => by simp, fun back =>
      lexFrom_delimiter (by decide) (by decide) (by decide) rfl back rest⟩
  · exact ⟨.colon, fun n => by simp, fun back =>
      lexFrom_delimiter (by decide) (by decide) (by decide) rfl back rest⟩
  · exact ⟨.equals, fun n => by simp, fun back =>
      lexFrom_delimiter (by decide) (by decide) (by decide) rfl back rest⟩

/-- A name is a token of its own before the end, a comma, a colon or an equals sign. -/
theorem lexFrom_word (h : Ends rest) (back : List Char) :
    lexFrom back false rest = (lexFrom [] false rest).map (word back ++ ·) := by
  rcases h with rfl | ⟨c, more, rfl, hc⟩
  · rw [lexFrom, lexFrom]
    simp [word]
  · obtain ⟨token, -, htoken⟩ := @lexFrom_separates E more c hc
    rw [htoken, htoken, Option.map_map]
    rfl

theorem Stops.ends (h : Stops rest) : Ends rest :=
  h.imp_right fun ⟨more, hmore⟩ => ⟨',', more, hmore, .inl rfl⟩

theorem lexFrom_name {n : String} (hn : Named n) (h : Ends rest) :
    lexFrom [] false (chars n ++ rest) = (lexFrom [] false rest).map (.name n :: ·) := by
  have hback : n.toList.reverse ≠ [] := by
    intro hnil
    exact hn.1 (String.toList_inj.mp (by rw [List.reverse_eq_nil_iff.mp hnil]; rfl))
  have hword : word (E := E) n.toList.reverse = [.name n] := by
    rw [word, if_neg hback, List.reverse_reverse, String.ofList_toList]
  rw [chars, lexFrom_nameChars hn.2, List.append_nil, lexFrom_word h, hword]
  rfl

theorem lexFrom_hint (hint : Option E) (rest : List (Piece E)) :
    lexFrom [] false ((hint.map fun e => chars ": " ++ [.atom e]).getD [] ++ rest) =
      (lexFrom [] false rest).map
        ((hint.map fun e => [Token.colon, .atom e]).getD [] ++ ·) := by
  cases hint with
  | none => simp
  | some e =>
    have hchars : (chars ": " : List (Piece E)) = [.char ':', .char ' '] := rfl
    simp only [Option.map_some, Option.getD_some, hchars, List.cons_append, List.nil_append]
    rw [lexFrom_delimiter (by decide) (by decide) (by decide) rfl, lexFrom_blank, lexFrom_atom,
      Option.map_map, Option.map_map]
    rfl

theorem lexFrom_default (value : Option E) (rest : List (Piece E)) :
    lexFrom [] false ((value.map fun e => chars "=" ++ [.atom e]).getD [] ++ rest) =
      (lexFrom [] false rest).map
        ((value.map fun e => [Token.equals, .atom e]).getD [] ++ ·) := by
  cases value with
  | none => simp
  | some e =>
    have hchars : (chars "=" : List (Piece E)) = [.char '='] := rfl
    simp only [Option.map_some, Option.getD_some, hchars, List.cons_append, List.nil_append]
    rw [lexFrom_delimiter (by decide) (by decide) (by decide) rfl, lexFrom_atom, Option.map_map]
    rfl

/-- What stands behind the name of a parameter. -/
theorem ends_render (hint value : Option E) (h : Stops rest) :
    Ends ((hint.map fun e => chars ": " ++ [.atom e]).getD [] ++
      ((value.map fun e => chars "=" ++ [.atom e]).getD [] ++ rest)) := by
  cases hint with
  | some e => exact .inr ⟨':', _, rfl, .inr (.inl rfl)⟩
  | none =>
    cases value with
    | some e => exact .inr ⟨'=', _, rfl, .inr (.inr rfl)⟩
    | none => exact h.ends

theorem lexFrom_render {p : Param E} (hp : Named p.name) (h : Stops rest) :
    lexFrom [] false (p.render ++ rest) =
      (lexFrom [] false rest).map ((Item.param p).tokens ++ ·) := by
  rw [Param.render, List.append_assoc, List.append_assoc,
    lexFrom_name hp (ends_render p.annotation p.default h), lexFrom_hint, lexFrom_default,
    Option.map_map, Option.map_map, Item.tokens]
  congr 1
  funext tokens
  simp

theorem lexFrom_star (h : ∀ more, rest ≠ .char '*' :: more) (back : List Char) :
    lexFrom back false (.char '*' :: rest) =
      (lexFrom [] false rest).map (word back ++ .star :: ·) := by
  have hname : isNameChar '*' = false := by decide
  have hblank : isBlank '*' = false := by decide
  have hhash : '*' ≠ '#' := by decide
  conv_lhs => unfold lexFrom
  simp only [hname, hblank, hhash, if_false, if_true, Bool.false_eq_true]

theorem lexFrom_doubleStar (back : List Char) (rest : List (Piece E)) :
    lexFrom back false (.char '*' :: .char '*' :: rest) =
      (lexFrom [] false rest).map (word back ++ .doubleStar :: ·) := by
  have hname : isNameChar '*' = false := by decide
  have hblank : isBlank '*' = false := by decide
  have hhash : '*' ≠ '#' := by decide
  conv_lhs => unfold lexFrom
  simp only [hname, hblank, hhash, if_false, if_true, Bool.false_eq_true]

theorem Stops.not_star (h : Stops rest) : ∀ more, rest ≠ .char '*' :: more := by
  rcases h with rfl | ⟨others, rfl⟩
  · simp
  · simp

theorem render_not_star {p : Param E} (hp : Named p.name) (rest : List (Piece E)) :
    ∀ more, p.render ++ rest ≠ .char '*' :: more := by
  intro more hmore
  obtain ⟨c, cs, hc⟩ := List.exists_cons_of_ne_nil fun h => hp.1 (String.toList_inj.mp h)
  rw [Param.render, chars, hc, List.map_cons, List.cons_append, List.cons_append,
    List.cons.injEq, Piece.char.injEq] at hmore
  have hstar := hp.2
  rw [hc, List.all_cons, Bool.and_eq_true, hmore.1] at hstar
  exact absurd hstar.1 (by decide)

/-- The tokens of one item, in front of the rest of the text. -/
theorem lexFrom_item {i : Item E} (hi : i.Named) (h : Stops rest) :
    lexFrom [] false (i.pieces ++ rest) = (lexFrom [] false rest).map (i.tokens ++ ·) := by
  cases i with
  | slash => exact lexFrom_delimiter (by decide) (by decide) (by decide) rfl [] rest
  | star => exact lexFrom_star h.not_star []
  | starred n hint =>
    have hrender := @lexFrom_render E rest ⟨n, hint, none⟩ hi h
    change lexFrom [] false (.char '*' :: (Param.render ⟨n, hint, none⟩ ++ rest)) = _
    rw [lexFrom_star (@render_not_star E ⟨n, hint, none⟩ hi rest), hrender, Option.map_map]
    congr 1
    funext tokens
    simp [Item.tokens, word]
  | doubleStarred n hint =>
    have hrender := @lexFrom_render E rest ⟨n, hint, none⟩ hi h
    change lexFrom [] false (.char '*' :: .char '*' ::
      (Param.render ⟨n, hint, none⟩ ++ rest)) = _
    rw [lexFrom_doubleStar, hrender, Option.map_map]
    congr 1
    funext tokens
    simp [Item.tokens, word]
  | param p => exact lexFrom_render hi h

theorem stops_joinItems (items : List (Item E)) : Stops (joinItems false items) := by
  cases items with
  | nil => exact .inl rfl
  | cons i items => exact .inr ⟨_, rfl⟩

theorem lexFrom_separator (first : Bool) (rest : List (Piece E)) :
    lexFrom [] false (separator first ++ rest) =
      (lexFrom [] false rest).map ((if first then [] else [.comma]) ++ ·) := by
  cases first with
  | true => simp [separator]
  | false =>
    change lexFrom [] false (.char ',' :: .char ' ' :: rest) = _
    rw [lexFrom_delimiter (by decide) (by decide) (by decide) rfl, lexFrom_blank, Option.map_map]
    rfl

/-- The tokens of items, in front of the rest of the text. -/
theorem lexFrom_joinItems {items : List (Item E)} (h : ∀ i ∈ items, i.Named) (hrest : Stops rest)
    (first : Bool) : lexFrom [] false (joinItems first items ++ rest) =
      (lexFrom [] false rest).map (joinTokens first items ++ ·) := by
  induction items generalizing first with
  | nil => simp [joinItems, joinTokens]
  | cons i items ih =>
    obtain ⟨hi, htail⟩ := List.forall_mem_cons.mp h
    have hstops : Stops (joinItems false items ++ rest) := by
      rcases stops_joinItems items with hnil | ⟨more, hmore⟩
      · rwa [hnil, List.nil_append]
      · exact .inr ⟨more ++ rest, by rw [hmore]; rfl⟩
    rw [joinItems, List.append_assoc, List.append_assoc, lexFrom_separator, lexFrom_item hi hstops,
      ih htail, Option.map_map, Option.map_map, joinTokens]
    congr 1
    funext tokens
    simp

end Lexing

section Items

/-- What is read behind an item does not go on with it. -/
def Closes (rest : List (Token E)) : Prop := rest = [] ∨ ∃ more, rest = .comma :: more

theorem readItem_tokens (i : Item E) {rest : List (Token E)} (h : Closes rest) :
    readItem (i.tokens ++ rest) = some (i, rest) := by
  cases i with
  | slash => rfl
  | star => rcases h with rfl | ⟨more, rfl⟩ <;> rfl
  | starred n hint => cases hint <;> rcases h with rfl | ⟨more, rfl⟩ <;> rfl
  | doubleStarred n hint => cases hint <;> rcases h with rfl | ⟨more, rfl⟩ <;> rfl
  | param p =>
    obtain ⟨n, hint, value⟩ := p
    cases hint <;> cases value <;> rcases h with rfl | ⟨more, rfl⟩ <;> rfl

theorem tokens_ne_nil (i : Item E) : i.tokens ≠ [] := by
  cases i <;> simp [Item.tokens]

theorem joinTokens_false (i : Item E) (items : List (Item E)) :
    joinTokens false (i :: items) = .comma :: joinTokens true (i :: items) := rfl

theorem joinTokens_true (i : Item E) (items : List (Item E)) :
    joinTokens true (i :: items) = i.tokens ++ joinTokens false items := rfl

theorem closes_joinTokens (items : List (Item E)) : Closes (joinTokens false items) := by
  cases items with
  | nil => exact .inl rfl
  | cons i items => exact .inr ⟨_, rfl⟩

theorem readItems_step {fuel : Nat} {tokens : List (Token E)} (h : tokens ≠ []) :
    readItems (fuel + 1) tokens =
      match readItem tokens with
      | some (item, []) => some [item]
      | some (item, .comma :: rest) => (readItems fuel rest).map (item :: ·)
      | _ => none := by
  cases tokens with
  | nil => exact absurd rfl h
  | cons token tokens => rfl

/-- Items are read one by one, with whatever follows behind a comma. -/
theorem readItems_tail {tail : List (Token E)} (fuel : Nat) (items : List (Item E)) :
    readItems (items.length + fuel)
        (joinTokens true items ++ ((if items = [] then [] else [.comma]) ++ tail)) =
      (readItems fuel tail).map (items ++ ·) := by
  induction items with
  | nil => simp [joinTokens]
  | cons i items ih =>
    have hfuel : (i :: items).length + fuel = (items.length + fuel) + 1 := by
      rw [List.length_cons]
      omega
    rw [hfuel, joinTokens_true, List.append_assoc, if_neg (List.cons_ne_nil _ _),
      readItems_step (by simp [tokens_ne_nil])]
    cases items with
    | nil =>
      rw [joinTokens, List.nil_append, List.singleton_append,
        readItem_tokens i (.inr ⟨tail, rfl⟩), List.length_nil, Nat.zero_add]
      rfl
    | cons j items =>
      rw [if_neg (List.cons_ne_nil _ _)] at ih
      rw [joinTokens_false, List.cons_append, readItem_tokens i (.inr ⟨_, rfl⟩)]
      simp only
      rw [ih, Option.map_map]
      rfl

theorem readItems_joinTokens (fuel : Nat) (items : List (Item E)) :
    readItems (items.length + fuel) (joinTokens true items) = some items := by
  induction items with
  | nil => cases fuel <;> rfl
  | cons i items ih =>
    have hfuel : (i :: items).length + fuel = (items.length + fuel) + 1 := by
      rw [List.length_cons]
      omega
    rw [hfuel, joinTokens_true, readItems_step (by simp [tokens_ne_nil]),
      readItem_tokens i (closes_joinTokens items)]
    cases items with
    | nil => rfl
    | cons j items =>
      rw [joinTokens_false]
      simp only
      rw [ih]
      rfl

theorem length_joinTokens (first : Bool) (items : List (Item E)) :
    items.length ≤ (joinTokens first items).length := by
  induction items generalizing first with
  | nil => simp
  | cons i items ih =>
    have hi := List.length_pos_iff.mpr (tokens_ne_nil i)
    have htail := ih false
    rw [joinTokens, List.length_append, List.length_append, List.length_cons]
    omega

/-- What is printed of named items is read as them. -/
theorem parse_joinItems {items : List (Item E)} (h : ∀ i ∈ items, i.Named) :
    parse (joinItems true items) = assemble items := by
  have hlex := lexFrom_joinItems h (.inl rfl : Stops ([] : List (Piece E))) true
  obtain ⟨fuel, hfuel⟩ := Nat.exists_eq_add_of_le (length_joinTokens true items)
  rw [List.append_nil, lexFrom] at hlex
  simp only [word, if_true, Option.map_some, List.append_nil] at hlex
  rw [parse, hlex]
  simp only [Option.bind_eq_bind, Option.bind_some, hfuel, readItems_joinTokens]

end Items

section Assembly

/-- What a legal list of parameters keeps to. -/
structure Legal (ps : Parameters E) : Prop where
  ordered : (ps.posonly ++ ps.args).Pairwise fun p q => p.default.isSome → q.default.isSome
  vararg : ∀ p ∈ ps.vararg, p.default = none
  kwarg : ∀ p ∈ ps.kwarg, p.default = none

variable {ps : Parameters E} {p : Param E}

theorem misplaced_iff : misplaced p ps = false ↔
    ∀ q ∈ ps.posonly ++ ps.args, q.default.isSome → p.default.isSome := by
  unfold misplaced
  cases hp : p.default with
  | none => simp [or_imp, forall_and]
  | some e => simp

theorem foldlM_positional (list : List (Param E))
    (h : (ps.posonly ++ (ps.args ++ list)).Pairwise fun p q =>
      p.default.isSome → q.default.isSome) :
    (list.map Item.param).foldlM Reading.step ⟨ps, .positional⟩ =
      some ⟨{ ps with args := ps.args ++ list }, .positional⟩ := by
  induction list generalizing ps with
  | nil => simp
  | cons p list ih =>
    have hp : misplaced p ps = false := by
      rw [misplaced_iff]
      intro q hq
      rw [← List.append_assoc, List.pairwise_append] at h
      exact h.2.2 q hq p List.mem_cons_self
    have hstep : Reading.step ⟨ps, .positional⟩ (.param p) =
        some ⟨{ ps with args := ps.args ++ [p] }, .positional⟩ := by
      rw [Reading.step, hp]
      rfl
    rw [List.map_cons, List.foldlM_cons, hstep]
    simp only [Option.bind_eq_bind, Option.bind_some]
    rw [ih (by simpa using h)]
    simp

theorem foldlM_keyword (needed : Bool) {list : List (Param E)} (h : list ≠ []) :
    (list.map Item.param).foldlM Reading.step ⟨ps, .keyword needed⟩ =
      some ⟨{ ps with kwonly := ps.kwonly ++ list }, .keyword false⟩ := by
  induction list generalizing ps needed with
  | nil => exact absurd rfl h
  | cons p list ih =>
    have hstep : Reading.step ⟨ps, .keyword needed⟩ (.param p) =
        some ⟨{ ps with kwonly := ps.kwonly ++ [p] }, .keyword false⟩ := by
      cases needed <;> rfl
    rw [List.map_cons, List.foldlM_cons, hstep]
    simp only [Option.bind_eq_bind, Option.bind_some]
    cases list with
    | nil => rfl
    | cons q list =>
      rw [ih false (List.cons_ne_nil _ _)]
      simp

theorem foldlM_head (h : Legal ps) :
    (ps.posonly.map Item.param ++ (if ps.posonly = [] then [] else [Item.slash]) ++
      ps.args.map Item.param).foldlM Reading.step .start =
      some ⟨⟨ps.posonly, ps.args, none, [], none⟩, .positional⟩ := by
  have hposonly := @foldlM_positional E ⟨[], [], none, [], none⟩ ps.posonly (by
    simpa using (List.pairwise_append.mp h.ordered).1)
  have hargs := @foldlM_positional E ⟨ps.posonly, [], none, [], none⟩ ps.args h.ordered
  rw [List.nil_append] at hposonly hargs
  rw [List.foldlM_append, List.foldlM_append, Reading.start, hposonly]
  simp only [Option.bind_eq_bind, Option.bind_some]
  by_cases hnil : ps.posonly = []
  · rw [if_pos hnil, hnil]
    rw [hnil] at hargs
    exact hargs
  · have hslash : Reading.step ⟨⟨[], ps.posonly, none, [], none⟩, .positional⟩ .slash =
        some ⟨⟨ps.posonly, [], none, [], none⟩, .positional⟩ := by
      rw [Reading.step, if_pos ⟨rfl, hnil⟩]
    rw [if_neg hnil, List.foldlM_cons, hslash]
    exact hargs

theorem finish_kwarg (hkwarg : ∀ p ∈ ps.kwarg, p.default = none) {stage : Stage}
    (hstage : stage = .positional ∨ stage = .keyword false) :
    ((ps.kwarg.toList.map fun p => Item.doubleStarred p.name p.annotation).foldlM Reading.step
      ⟨⟨ps.posonly, ps.args, ps.vararg, ps.kwonly, none⟩, stage⟩).bind Reading.finish =
      some ps := by
  obtain ⟨posonly, args, vararg, kwonly, kwarg⟩ := ps
  cases kwarg with
  | none => rcases hstage with rfl | rfl <;> rfl
  | some p =>
    obtain ⟨n, hint, value⟩ := p
    cases hkwarg _ rfl
    rcases hstage with rfl | rfl <;> rfl

theorem assemble_items (h : Legal ps) : assemble ps.items = some ps := by
  have hfinish := @finish_kwarg E ps h.kwarg
  rw [assemble, Parameters.items, List.foldlM_append, List.foldlM_append, List.foldlM_append,
    foldlM_head h]
  simp only [Option.bind_eq_bind, Option.bind_some]
  cases hvararg : ps.vararg with
  | some p =>
    have hvalue := h.vararg p hvararg
    have hstar : [Item.starred p.name p.annotation].foldlM Reading.step
        ⟨⟨ps.posonly, ps.args, none, [], none⟩, .positional⟩ =
          some ⟨⟨ps.posonly, ps.args, ps.vararg, [], none⟩, .keyword false⟩ := by
      rw [hvararg]
      obtain ⟨n, hint, value⟩ := p
      cases hvalue
      rfl
    simp only [hstar, Option.bind_some]
    by_cases hkwonly : ps.kwonly = []
    · rw [hkwonly] at hfinish ⊢
      exact hfinish (.inr rfl)
    · rw [foldlM_keyword false hkwonly]
      exact hfinish (.inr rfl)
  | none =>
    by_cases hkwonly : ps.kwonly = []
    · rw [if_pos hkwonly, hkwonly]
      rw [hkwonly, hvararg] at hfinish
      exact hfinish (.inl rfl)
    · have hstar : [Item.star].foldlM Reading.step
          ⟨⟨ps.posonly, ps.args, none, [], none⟩, .positional⟩ =
            some ⟨⟨ps.posonly, ps.args, none, [], none⟩, .keyword true⟩ := rfl
      rw [if_neg hkwonly]
      simp only [hstar, Option.bind_some, foldlM_keyword true hkwonly]
      rw [hvararg] at hfinish
      exact hfinish (.inr rfl)

end Assembly

section Order

variable {ps : Parameters E} {items : List (Item E)}

/-- The positional part of a list of items. -/
def Parameters.head (ps : Parameters E) : List (Item E) :=
  ps.posonly.map .param ++ (if ps.posonly = [] then [] else [.slash]) ++ ps.args.map .param

def Parameters.stars (ps : Parameters E) : List (Item E) :=
  match ps.vararg with
  | some p => [.starred p.name p.annotation]
  | none => if ps.kwonly = [] then [] else [.star]

/-- What stands behind the star. -/
def Parameters.tail (ps : Parameters E) : List (Item E) :=
  ps.kwonly.map .param ++ ps.kwarg.toList.map fun p => .doubleStarred p.name p.annotation

theorem items_eq (ps : Parameters E) : ps.items = ps.head ++ (ps.stars ++ ps.tail) := by
  obtain ⟨posonly, args, vararg, kwonly, kwarg⟩ := ps
  cases vararg <;> simp [Parameters.items, Parameters.head, Parameters.stars, Parameters.tail]

theorem step_cases {r r' : Reading E} {i : Item E} (h : r.step i = some r') :
    (∃ ps p, r = ⟨ps, .positional⟩ ∧ i = .param p ∧ misplaced p ps = false ∧
      r' = ⟨{ ps with args := ps.args ++ [p] }, .positional⟩) ∨
    (∃ ps, r = ⟨ps, .positional⟩ ∧ i = .slash ∧ ps.posonly = [] ∧ ps.args ≠ [] ∧
      r' = ⟨{ ps with posonly := ps.args, args := [] }, .positional⟩) ∨
    (∃ ps, r = ⟨ps, .positional⟩ ∧ i = .star ∧ r' = ⟨ps, .keyword true⟩) ∨
    (∃ ps n hint, r = ⟨ps, .positional⟩ ∧ i = .starred n hint ∧
      r' = ⟨{ ps with vararg := some ⟨n, hint, none⟩ }, .keyword false⟩) ∨
    (∃ ps needed p, r = ⟨ps, .keyword needed⟩ ∧ i = .param p ∧
      r' = ⟨{ ps with kwonly := ps.kwonly ++ [p] }, .keyword false⟩) ∨
    ∃ ps n hint, (r = ⟨ps, .positional⟩ ∨ r = ⟨ps, .keyword false⟩) ∧
      i = .doubleStarred n hint ∧
      r' = ⟨{ ps with kwarg := some ⟨n, hint, none⟩ }, .done⟩ := by
  obtain ⟨ps, stage⟩ := r
  cases stage with
  | positional =>
    cases i with
    | param p =>
      rw [Reading.step] at h
      split at h
      · cases h
      · next hp =>
        cases h
        exact .inl ⟨ps, p, rfl, rfl, by simpa using hp, rfl⟩
    | slash =>
      rw [Reading.step] at h
      split at h
      · next hslash =>
        cases h
        exact .inr (.inl ⟨ps, rfl, rfl, hslash.1, hslash.2, rfl⟩)
      · cases h
    | star =>
      cases h
      exact .inr (.inr (.inl ⟨ps, rfl, rfl, rfl⟩))
    | starred n hint =>
      cases h
      exact .inr (.inr (.inr (.inl ⟨ps, n, hint, rfl, rfl, rfl⟩)))
    | doubleStarred n hint =>
      cases h
      exact .inr (.inr (.inr (.inr (.inr ⟨ps, n, hint, .inl rfl, rfl, rfl⟩))))
  | keyword needed =>
    cases i with
    | param p =>
      cases needed <;> cases h <;>
        exact .inr (.inr (.inr (.inr (.inl ⟨ps, _, p, rfl, rfl, rfl⟩))))
    | doubleStarred n hint =>
      cases needed with
      | true => cases h
      | false =>
        cases h
        exact .inr (.inr (.inr (.inr (.inr ⟨ps, n, hint, .inr rfl, rfl, rfl⟩))))
    | slash => cases needed <;> cases h
    | star => cases needed <;> cases h
    | starred n hint => cases needed <;> cases h
  | done => cases i <;> cases h

/-- What a reading has come from. -/
def Reading.Read (r : Reading E) (items : List (Item E)) : Prop :=
  match r.stage with
  | .positional => r.parameters.vararg = none ∧ r.parameters.kwonly = [] ∧
    r.parameters.kwarg = none ∧ items = r.parameters.head
  | .keyword true => r.parameters.vararg = none ∧ r.parameters.kwonly = [] ∧
    r.parameters.kwarg = none ∧ items = r.parameters.head ++ [.star]
  | .keyword false => r.parameters.kwarg = none ∧ items = r.parameters.items ∧
    (r.parameters.vararg = none → r.parameters.kwonly ≠ [])
  | .done => items = r.parameters.items

theorem head_param (p : Param E) :
    ({ ps with args := ps.args ++ [p] } : Parameters E).head = ps.head ++ [.param p] := by
  simp [Parameters.head]

theorem stars_kwonly (p : Param E) (h : ps.vararg = none → ps.kwonly ≠ []) :
    ({ ps with kwonly := ps.kwonly ++ [p] } : Parameters E).stars = ps.stars := by
  cases hvararg : ps.vararg <;> simp_all [Parameters.stars]

theorem read_step {r r' : Reading E} {i : Item E} (h : r.Read items) (hstep : r.step i = some r') :
    r'.Read (items ++ [i]) := by
  obtain ⟨ps, p, rfl, rfl, -, rfl⟩ | ⟨ps, rfl, rfl, hposonly, hargs, rfl⟩ | ⟨ps, rfl, rfl, rfl⟩ |
    ⟨ps, n, hint, rfl, rfl, rfl⟩ | ⟨ps, needed, p, rfl, rfl, rfl⟩ |
    ⟨ps, n, hint, rfl | rfl, rfl, rfl⟩ := step_cases hstep
  · obtain ⟨hvararg, hkwonly, hkwarg, rfl⟩ := h
    exact ⟨hvararg, hkwonly, hkwarg, (head_param p).symm⟩
  · obtain ⟨hvararg, hkwonly, hkwarg, rfl⟩ := h
    refine ⟨hvararg, hkwonly, hkwarg, ?_⟩
    simp [Parameters.head, hposonly, hargs]
  · obtain ⟨hvararg, hkwonly, hkwarg, rfl⟩ := h
    exact ⟨hvararg, hkwonly, hkwarg, rfl⟩
  · obtain ⟨hvararg, hkwonly, hkwarg, rfl⟩ := h
    refine ⟨hkwarg, ?_, fun hnone => by cases hnone⟩
    dsimp only at hkwonly hkwarg
    simp [items_eq, Parameters.stars, Parameters.tail, Parameters.head, hkwonly, hkwarg]
  · cases needed with
    | true =>
      obtain ⟨hvararg, hkwonly, hkwarg, rfl⟩ := h
      refine ⟨hkwarg, ?_, fun _ => by simp⟩
      dsimp only at hvararg hkwonly hkwarg
      simp [items_eq, Parameters.stars, Parameters.tail, Parameters.head, hvararg, hkwonly, hkwarg]
    | false =>
      obtain ⟨hkwarg, rfl, hsome⟩ := h
      refine ⟨hkwarg, ?_, fun _ => by simp⟩
      rw [items_eq, items_eq, stars_kwonly p hsome]
      simp [Parameters.tail, Parameters.head, show ps.kwarg = none from hkwarg]
  · obtain ⟨hvararg, hkwonly, hkwarg, rfl⟩ := h
    change _ = Parameters.items _
    dsimp only at hvararg hkwonly
    simp [items_eq, Parameters.stars, Parameters.tail, Parameters.head, hvararg, hkwonly]
  · obtain ⟨hkwarg, rfl, -⟩ := h
    change _ = Parameters.items _
    rw [items_eq, items_eq]
    simp [Parameters.stars, Parameters.tail, Parameters.head, show ps.kwarg = none from hkwarg]

theorem legal_step {r r' : Reading E} {i : Item E} (h : Legal r.parameters)
    (hstep : r.step i = some r') : Legal r'.parameters := by
  obtain ⟨ps, p, rfl, rfl, hp, rfl⟩ | ⟨ps, rfl, rfl, hposonly, -, rfl⟩ | ⟨ps, rfl, rfl, rfl⟩ |
    ⟨ps, n, hint, rfl, rfl, rfl⟩ | ⟨ps, needed, p, rfl, rfl, rfl⟩ |
    ⟨ps, n, hint, rfl | rfl, rfl, rfl⟩ := step_cases hstep
  · refine ⟨?_, h.vararg, h.kwarg⟩
    rw [← List.append_assoc, List.pairwise_append]
    refine ⟨h.ordered, List.pairwise_singleton _ _, ?_⟩
    intro q hq q' hq'
    rw [List.mem_singleton.mp hq']
    exact misplaced_iff.mp hp q hq
  · have hordered := h.ordered
    rw [show ps.posonly = [] from hposonly, List.nil_append] at hordered
    exact ⟨by simpa using hordered, h.vararg, h.kwarg⟩
  · exact h
  · refine ⟨h.ordered, ?_, h.kwarg⟩
    intro p hp
    cases hp
    rfl
  · exact ⟨h.ordered, h.vararg, h.kwarg⟩
  · refine ⟨h.ordered, h.vararg, ?_⟩
    intro p hp
    cases hp
    rfl
  · refine ⟨h.ordered, h.vararg, ?_⟩
    intro p hp
    cases hp
    rfl

theorem read_run {r r' : Reading E} {seen : List (Item E)} (h : r.Read seen)
    (hlegal : Legal r.parameters) (hrun : items.foldlM Reading.step r = some r') :
    r'.Read (seen ++ items) ∧ Legal r'.parameters := by
  induction items generalizing r seen with
  | nil =>
    cases hrun
    rw [List.append_nil]
    exact ⟨h, hlegal⟩
  | cons i items ih =>
    rw [List.foldlM_cons] at hrun
    obtain ⟨r₁, hstep, hrest⟩ := Option.bind_eq_some_iff.mp hrun
    have hseen := ih (read_step h hstep) (legal_step hlegal hstep) hrest
    rwa [List.append_assoc] at hseen

/-- A legal list of items is the one that its parts have. -/
theorem items_of_assemble (h : assemble items = some ps) : ps.items = items ∧ Legal ps := by
  obtain ⟨r, hrun, hfinish⟩ := Option.bind_eq_some_iff.mp h
  have hstart : (Reading.start : Reading E).Read [] := ⟨rfl, rfl, rfl, rfl⟩
  obtain ⟨hread, hlegal⟩ := read_run hstart ⟨.nil, by simp [Reading.start],
    by simp [Reading.start]⟩ hrun
  obtain ⟨qs, stage⟩ := r
  rw [Reading.finish] at hfinish
  split at hfinish
  · cases hfinish
  · next hstage =>
    cases hfinish
    refine ⟨?_, hlegal⟩
    cases stage with
    | positional =>
      obtain ⟨hvararg, hkwonly, hkwarg, hitems⟩ := hread
      rw [List.nil_append] at hitems
      dsimp only at hvararg hkwonly hkwarg
      rw [hitems, items_eq]
      simp [Parameters.stars, Parameters.tail, hvararg, hkwonly, hkwarg]
    | keyword needed =>
      cases needed with
      | true => exact absurd rfl hstage
      | false => exact hread.2.1.symm
    | done => exact hread.symm

end Order

end RemyCC.Python.Parameters
