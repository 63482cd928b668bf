import RemyCC.Json.Parse

/-!
# Reading back what was printed

A value whose integers are machine integers, whose objects have distinct keys
and which nests no deeper than the reader allows is read back from its text in
every style the reader understands. The induction is on the derivation that the
value is printable, and a text is always read in front of what may follow it.
-/

namespace RemyCC.Json

inductive Printable : Nat → Value → Prop
  | null {depth : Nat} : Printable depth .null
  | bool {depth : Nat} (b : Bool) : Printable depth (.bool b)
  | int {depth : Nat} {n : Int} (hlow : -2 ^ 63 ≤ n) (hhigh : n < 2 ^ 64) :
      Printable depth (.int n)
  | str {depth : Nat} (s : String) : Printable depth (.str s)
  | arr {depth : Nat} {items : List Value} (hitems : ∀ v ∈ items, Printable depth v) :
      Printable (depth + 1) (.arr items)
  | obj {depth : Nat} {fields : List (String × Value)} (hkeys : (fields.map Prod.fst).Nodup)
      (hfields : ∀ f ∈ fields, Printable depth f.2) : Printable (depth + 1) (.obj fields)

theorem Printable.mono {depth depth' : Nat} {v : Value} (h : Printable depth v)
    (hle : depth ≤ depth') : Printable depth' v := by
  induction h generalizing depth' with
  | null => exact .null
  | bool b => exact .bool b
  | int hlow hhigh => exact .int hlow hhigh
  | str s => exact .str s
  | arr hitems ih =>
    obtain ⟨depth', rfl⟩ := Nat.exists_eq_add_of_le' (Nat.one_le_of_lt hle)
    exact .arr fun v hv => ih v hv (Nat.le_of_succ_le_succ hle)
  | obj hkeys hfields ih =>
    obtain ⟨depth', rfl⟩ := Nat.exists_eq_add_of_le' (Nat.one_le_of_lt hle)
    exact .obj hkeys fun f hf => ih f hf (Nat.le_of_succ_le_succ hle)

/-- What may follow a number without being taken for a part of it. -/
def EndsNumber (rest : List Char) : Prop :=
  ∀ c ∈ rest.head?, c.isDigit = false ∧ c ≠ '.' ∧ c ≠ 'e' ∧ c ≠ 'E'

@[simp]
theorem endsNumber_nil : EndsNumber [] := by simp [EndsNumber]

theorem endsNumber_cons {c : Char} {rest : List Char}
    (h : c.isDigit = false ∧ c ≠ '.' ∧ c ≠ 'e' ∧ c ≠ 'E') : EndsNumber (c :: rest) := by
  intro d hd
  cases Option.mem_some_iff.mp hd
  exact h

section Strings

theorem hexValue_hexDigit {d : Nat} (h : d < 16) : hexValue (hexDigit d) = some d := by
  have hall : ∀ d : Fin 16, hexValue (hexDigit d.val) = some d.val := by decide
  exact hall ⟨d, h⟩

theorem hexFour_of_lt {n : Nat} (h : n < 0x10000) :
    hexFour (hexDigit (n / 4096)) (hexDigit (n / 256 % 16)) (hexDigit (n / 16 % 16))
      (hexDigit (n % 16)) = some n := by
  have hvalue : ((n / 4096 * 16 + n / 256 % 16) * 16 + n / 16 % 16) * 16 + n % 16 = n := by omega
  rw [hexFour, hexValue_hexDigit (by omega), hexValue_hexDigit (Nat.mod_lt _ (by decide)),
    hexValue_hexDigit (Nat.mod_lt _ (by decide)), hexValue_hexDigit (Nat.mod_lt _ (by decide))]
  exact congrArg some hvalue

theorem readString_escapeUnit {unit : Nat} (h : unit < 0xd800 ∨ 0xdfff < unit)
    (hlt : unit < 0x10000) (rest : List Char) :
    readString (escapeUnit unit ++ rest) = prepend (Char.ofNat unit) (readString rest) := by
  simp only [escapeUnit, List.cons_append, List.nil_append, readString, hexFour_of_lt hlt, if_pos h]

theorem readString_surrogates {v : Nat} (h : v < 0x100000) (rest : List Char) :
    readString (escapeUnit (0xd800 + v / 0x400) ++ escapeUnit (0xdc00 + v % 0x400) ++ rest) =
      prepend (Char.ofNat (0x10000 + v)) (readString rest) := by
  have hhigh : 0xd800 + v / 0x400 < 0x10000 := by omega
  have hlow : 0xdc00 + v % 0x400 < 0x10000 := by omega
  have hpaired : ¬ (0xd800 + v / 0x400 < 0xd800 ∨ 0xdfff < 0xd800 + v / 0x400) := by omega
  have hpair : 0xd800 + v / 0x400 < 0xdc00 ∧ 0xdc00 ≤ 0xdc00 + v % 0x400 ∧
      0xdc00 + v % 0x400 ≤ 0xdfff := by omega
  have hcode : 0x10000 + (0xd800 + v / 0x400 - 0xd800) * 0x400 + (0xdc00 + v % 0x400 - 0xdc00) =
      0x10000 + v := by omega
  simp only [escapeUnit, List.cons_append, List.nil_append, readString, hexFour_of_lt hhigh,
    hexFour_of_lt hlow, if_neg hpaired, if_pos hpair, hcode]

theorem readString_escapeChar (c : Char) (rest : List Char) :
    readString (escapeChar c ++ rest) = prepend c (readString rest) := by
  unfold escapeChar
  split
  · subst c
    rfl
  split
  · subst c
    rfl
  split
  · rename_i h
    have hc : c = Char.ofNat 8 := by rw [← h, Char.ofNat_toNat]
    subst hc
    rfl
  split
  · rename_i h
    have hc : c = Char.ofNat 12 := by rw [← h, Char.ofNat_toNat]
    subst hc
    rfl
  split
  · subst c
    rfl
  split
  · subst c
    rfl
  split
  · subst c
    rfl
  split
  · rename_i h
    rw [readString_escapeUnit (Or.inl (by omega)) (by omega), Char.ofNat_toNat]
  · rename_i hquote hback _ _ _ _ _ hcontrol
    have hplain : ¬ (c.toNat < 32 ∨ c = '\\') := by simp [hcontrol, hback]
    rw [List.cons_append, List.nil_append, readString.eq_def]
    split
    · simp_all
    · simp_all
    · simp_all
    · rename_i heq
      cases heq
      rw [if_neg hplain]
    · simp_all

/-- Every character is read back from its escape, and a separator is a comma or a
colon with blanks behind it. -/
structure Readable (style : Style) : Prop where
  escape : ∀ c rest, readString (style.escape c ++ rest) = prepend c (readString rest)
  itemSep : ∃ blanks, style.itemSep = ',' :: blanks ∧ ∀ c ∈ blanks, isBlank c = true
  keySep : ∃ blanks, style.keySep = ':' :: blanks ∧ ∀ c ∈ blanks, isBlank c = true

theorem readable_compact : Readable compact where
  escape := readString_escapeChar
  itemSep := ⟨[], rfl, by simp⟩
  keySep := ⟨[], rfl, by simp⟩

theorem readString_escapeAscii (c : Char) (rest : List Char) :
    readString (escapeAscii c ++ rest) = prepend c (readString rest) := by
  have hvalid : c.toNat.isValidChar := c.valid
  unfold Nat.isValidChar at hvalid
  unfold escapeAscii
  split
  · exact readString_escapeChar c rest
  split
  · rw [readString_escapeUnit (by omega) (by omega), Char.ofNat_toNat]
  · have hcode : 0x10000 + (c.toNat - 0x10000) = c.toNat := by omega
    rw [readString_surrogates (by omega), hcode, Char.ofNat_toNat]

theorem readable_pythonDefault : Readable pythonDefault where
  escape := readString_escapeAscii
  itemSep := ⟨[' '], rfl, by simp [isBlank]⟩
  keySep := ⟨[' '], rfl, by simp [isBlank]⟩

theorem readString_quoted {style : Style} (hstyle : Readable style) (s rest : List Char) :
    readString (s.flatMap style.escape ++ '"' :: rest) = some (s, rest) := by
  induction s with
  | nil => rfl
  | cons c s ih =>
    rw [List.flatMap_cons, List.append_assoc, hstyle.escape, ih]
    rfl

end Strings

section Numbers

theorem takeDigits_append {digits rest : List Char} (hdigits : ∀ c ∈ digits, c.isDigit = true)
    (hrest : EndsNumber rest) : takeDigits (digits ++ rest) = (digits, rest) := by
  rw [takeDigits, List.takeWhile_append_of_pos hdigits, List.dropWhile_append_of_pos hdigits]
  cases rest with
  | nil => simp
  | cons c rest =>
    have hc := (hrest c rfl).1
    simp [hc]

theorem toDigits_head_ne_zero {n : Nat} (h : 0 < n) : (Nat.toDigits 10 n).head? ≠ some '0' := by
  induction n using Nat.strongRecOn with
  | _ n ih =>
    rcases Nat.lt_or_ge n 10 with hn | hn
    · rw [Nat.toDigits_of_lt_base hn]
      have hall : ∀ k : Fin 10, 0 < k.val → [Nat.digitChar k.val].head? ≠ some '0' := by decide
      exact hall ⟨n, hn⟩ h
    · rw [Nat.toDigits_of_base_le (by decide) hn]
      have htail := ih (n / 10) (by omega) (by omega)
      cases hdigits : Nat.toDigits 10 (n / 10) with
      | nil => exact absurd hdigits Nat.toDigits_ne_nil
      | cons d digits =>
        rw [hdigits] at htail
        simpa using htail

theorem leading_zero (n : Nat) :
    ¬ ((Nat.toDigits 10 n).head? = some '0' ∧ Nat.toDigits 10 n ≠ ['0']) := by
  rintro ⟨hhead, hne⟩
  rcases Nat.eq_zero_or_pos n with rfl | hn
  · exact hne (Nat.toDigits_zero 10)
  · exact toDigits_head_ne_zero hn hhead

theorem readFraction_of_ends {rest : List Char} (h : EndsNumber rest) :
    readFraction rest = some ([], rest) := by
  cases rest with
  | nil => rfl
  | cons c rest =>
    have hc := (h c rfl).2.1
    unfold readFraction
    split
    · simp_all
    · rfl

theorem readExponent_of_ends {rest : List Char} (h : EndsNumber rest) :
    readExponent rest = some ([], rest) := by
  cases rest with
  | nil => rfl
  | cons c rest =>
    have hc := (h c rfl).2.2
    have hmarker : ¬ (c = 'e' ∨ c = 'E') := by simp [hc.1, hc.2]
    simp only [readExponent, if_neg hmarker]

theorem readMagnitude_toDigits (negative : Bool) (n : Nat) {rest : List Char}
    (h : EndsNumber rest) :
    readMagnitude negative (Nat.toDigits 10 n ++ rest) =
      some (numberValue negative (Nat.toDigits 10 n) [], rest) := by
  have htake := takeDigits_append
    (fun c hc => Nat.isDigit_of_mem_toDigits (b := 10) (n := n) (by decide) (by decide) hc) h
  unfold readMagnitude
  rw [htake]
  cases hdigits : Nat.toDigits 10 n with
  | nil => exact absurd hdigits Nat.toDigits_ne_nil
  | cons d digits =>
    have hzero := leading_zero n
    rw [hdigits] at hzero
    simp only [if_neg hzero, readFraction_of_ends h, readExponent_of_ends h, List.append_nil]

theorem isDigit_of_toDigits {n : Nat} {c : Char} {digits : List Char}
    (h : Nat.toDigits 10 n = c :: digits) : c.isDigit = true := by
  refine Nat.isDigit_of_mem_toDigits (b := 10) (n := n) (by decide) (by decide) ?_
  rw [h]
  exact List.mem_cons_self

theorem readNumber_printInt {n : Int} (hlow : -2 ^ 63 ≤ n) (hhigh : n < 2 ^ 64)
    {rest : List Char} (h : EndsNumber rest) :
    readNumber (printInt n ++ rest) = some (.int n, rest) := by
  cases n with
  | ofNat n =>
    have hn : n < 2 ^ 64 := by
      simp only [Int.ofNat_eq_natCast] at hhigh
      omega
    have hread : readNumber (Nat.toDigits 10 n ++ rest) =
        readMagnitude false (Nat.toDigits 10 n ++ rest) := by
      cases hdigits : Nat.toDigits 10 n with
      | nil => exact absurd hdigits Nat.toDigits_ne_nil
      | cons d digits =>
        have hd := isDigit_of_toDigits hdigits
        rw [List.cons_append, readNumber.eq_def]
        split
        · simp_all
        · rfl
    have hvalue : numberValue false (Nat.toDigits 10 n) [] = .int n := by
      unfold numberValue
      rw [Nat.ofDigitChars_ten_toDigits]
      exact if_pos ⟨rfl, rfl, hn⟩
    rw [printInt, hread, readMagnitude_toDigits false n h, hvalue]
    rfl
  | negSucc n =>
    have hn : n + 1 ≤ 2 ^ 63 := by omega
    have hvalue : numberValue true (Nat.toDigits 10 (n + 1)) [] = .int (.negSucc n) := by
      have hpositive : ¬(([] : List Char) = [] ∧ true = false ∧ n + 1 < 2 ^ 64) := fun h =>
        Bool.noConfusion h.2.1
      unfold numberValue
      rw [Nat.ofDigitChars_ten_toDigits]
      exact (if_neg hpositive).trans (if_pos ⟨rfl, rfl, Nat.succ_pos n, hn⟩)
    rw [printInt, List.cons_append, readNumber, readMagnitude_toDigits true (n + 1) h, hvalue]

end Numbers

section Lists

variable {α : Type}

/-- A first character that opens neither a blank nor the end of a list. -/
def Starts (text : List Char) : Prop :=
  ∃ c rest, text = c :: rest ∧ isBlank c = false ∧ c ≠ ']' ∧ c ≠ '}'

theorem Starts.append {text : List Char} (h : Starts text) (rest : List Char) :
    Starts (text ++ rest) := by
  obtain ⟨c, tail, rfl, hc⟩ := h
  exact ⟨c, tail ++ rest, rfl, hc⟩

theorem skipBlanks_cons {c : Char} (h : isBlank c = false) (rest : List Char) :
    skipBlanks (c :: rest) = c :: rest := by
  simp [skipBlanks, h]

theorem skipBlanks_append {blanks : List Char} (h : ∀ c ∈ blanks, isBlank c = true)
    (rest : List Char) : skipBlanks (blanks ++ rest) = skipBlanks rest :=
  List.dropWhile_append_of_pos h

theorem Starts.skipBlanks_eq {text : List Char} (h : Starts text) : skipBlanks text = text := by
  obtain ⟨c, rest, rfl, hc, -⟩ := h
  exact skipBlanks_cons hc rest

/-- An item is read back from its text in front of anything that ends a number. -/
structure ReadsBack (item : Reader α) (text : α → List Char) (a : α) : Prop where
  starts : Starts (text a)
  reads : ∀ rest, EndsNumber rest → item (text a ++ rest) = some (a, rest)

variable {item : Reader α} {text : α → List Char} {close : Char} {blanks : List Char}

theorem endsNumber_more (text : α → List Char) (hclose : close = ']' ∨ close = '}')
    (items : List α) (rest : List Char) :
    EndsNumber (items.flatMap (fun a => ',' :: (blanks ++ text a)) ++ close :: rest) := by
  cases items with
  | nil =>
    refine endsNumber_cons ?_
    rcases hclose with rfl | rfl <;> decide
  | cons a items =>
    rw [List.flatMap_cons, List.cons_append, List.cons_append]
    exact endsNumber_cons (by decide)

theorem readMore_items (hblanks : ∀ c ∈ blanks, isBlank c = true)
    (hclose : close = ']' ∨ close = '}') {items : List α}
    (hitems : ∀ a ∈ items, ReadsBack item text a) (rest : List Char) {turns : Nat}
    (hturns : items.length < turns) :
    readMore close item turns (items.flatMap (fun a => ',' :: (blanks ++ text a)) ++
      close :: rest) = some (items, rest) := by
  have hblank : isBlank close = false := by rcases hclose with rfl | rfl <;> decide
  have hcomma : ',' ≠ close := by rcases hclose with rfl | rfl <;> decide
  induction items generalizing turns with
  | nil =>
    cases turns with
    | zero => exact absurd hturns (Nat.not_lt_zero _)
    | succ turns => simp [readMore, skipBlanks_cons hblank]
  | cons a items ih =>
    cases turns with
    | zero => exact absurd hturns (Nat.not_lt_zero _)
    | succ turns =>
      have ha := hitems a List.mem_cons_self
      have htail := ih (fun b hb => hitems b (List.mem_cons_of_mem _ hb))
        (Nat.lt_of_succ_lt_succ hturns)
      have hread := ha.reads _ (@endsNumber_more _ _ blanks text hclose items rest)
      have hskip := (ha.starts.append
        (items.flatMap (fun a => ',' :: (blanks ++ text a)) ++ close :: rest)).skipBlanks_eq
      rw [List.flatMap_cons, List.cons_append, List.cons_append, List.append_assoc,
        List.append_assoc, readMore, skipBlanks_cons (by decide)]
      simp only [if_neg hcomma, if_true, skipBlanks_append hblanks, hskip, hread, htail]

theorem length_le_flatMap (text : α → List Char) (items : List α) :
    items.length ≤ (items.flatMap (fun a => ',' :: text a)).length := by
  induction items with
  | nil => exact Nat.zero_le _
  | cons a items ih =>
    rw [List.flatMap_cons, List.cons_append, List.length_cons, List.length_cons,
      List.length_append]
    omega

theorem readItems_nil (hclose : close = ']' ∨ close = '}') (rest : List Char) :
    readItems close item (close :: rest) = some ([], rest) := by
  have hblank : isBlank close = false := by rcases hclose with rfl | rfl <;> decide
  simp [readItems, skipBlanks_cons hblank]

theorem readItems_cons (hblanks : ∀ c ∈ blanks, isBlank c = true)
    (hclose : close = ']' ∨ close = '}') {a : α} {items : List α}
    (hitems : ∀ b ∈ a :: items, ReadsBack item text b) (rest : List Char) :
    readItems close item (text a ++ (items.flatMap (fun a => ',' :: (blanks ++ text a)) ++
      close :: rest)) = some (a :: items, rest) := by
  have ha := hitems a List.mem_cons_self
  have hread := ha.reads _ (@endsNumber_more _ _ blanks text hclose items rest)
  have hlength : items.length < (items.flatMap (fun a => ',' :: (blanks ++ text a)) ++
      close :: rest).length + 1 := by
    have hflat := length_le_flatMap (fun a => blanks ++ text a) items
    rw [List.length_append]
    omega
  have hmore := readMore_items hblanks hclose
    (fun b hb => hitems b (List.mem_cons_of_mem _ hb)) rest hlength
  obtain ⟨c, tail, htext, hblank, hbracket, hbrace⟩ := ha.starts
  have hne : c ≠ close := by rcases hclose with rfl | rfl <;> assumption
  rw [htext, List.cons_append] at hread ⊢
  unfold readItems
  rw [skipBlanks_cons hblank]
  simp only [if_neg hne, hread, hmore]

end Lists

section Values

variable {style : Style}

theorem printMoreItems_eq (items : List Value) :
    printMoreItems style items = items.flatMap (fun v => style.itemSep ++ printChars style v) := by
  induction items with
  | nil => rfl
  | cons v items ih => simp [printMoreItems, ih]

theorem printMoreFields_eq (fields : List (String × Value)) :
    printMoreFields style fields =
      fields.flatMap (fun f => style.itemSep ++ printField style f) := by
  induction fields with
  | nil => rfl
  | cons f fields ih => simp [printMoreFields, ih]

theorem isDigit_starts {c : Char} (h : c.isDigit = true) :
    isBlank c = false ∧ c ≠ ']' ∧ c ≠ '}' := by
  refine ⟨?_, ?_, ?_⟩
  · simp only [isBlank, Bool.or_eq_false_iff, beq_eq_false_iff_ne]
    refine ⟨⟨⟨?_, ?_⟩, ?_⟩, ?_⟩ <;> (rintro rfl; revert h; decide)
  · rintro rfl
    revert h
    decide
  · rintro rfl
    revert h
    decide

theorem printInt_head (n : Int) :
    ∃ c rest, printInt n = c :: rest ∧ (c.isDigit = true ∨ c = '-') := by
  cases n with
  | ofNat n =>
    cases hdigits : Nat.toDigits 10 n with
    | nil => exact absurd hdigits Nat.toDigits_ne_nil
    | cons c digits => exact ⟨c, digits, hdigits, Or.inl (isDigit_of_toDigits hdigits)⟩
  | negSucc n => exact ⟨'-', _, rfl, Or.inr rfl⟩

theorem Printable.starts {depth : Nat} {v : Value} (h : Printable depth v) :
    Starts (printChars style v) := by
  cases h with
  | null => exact ⟨'n', _, rfl, by decide⟩
  | bool b => cases b <;> exact ⟨_, _, rfl, by decide⟩
  | @int _ n hlow hhigh =>
    obtain ⟨c, rest, hprint, hc⟩ := printInt_head n
    refine ⟨c, rest, hprint, ?_⟩
    rcases hc with hc | rfl
    · exact isDigit_starts hc
    · decide
  | str s => exact ⟨'"', _, rfl, by decide⟩
  | arr hitems => exact ⟨'[', _, rfl, by decide⟩
  | obj hkeys hfields => exact ⟨'{', _, rfl, by decide⟩

theorem readValue_number {c : Char} (hc : c.isDigit = true ∨ c = '-') (depth : Nat)
    (rest : List Char) : readValue depth (c :: rest) = readNumber (c :: rest) := by
  rw [readValue.eq_def]
  split
  all_goals rename_i heq
  all_goals first
    | rfl
    | (cases heq; exact absurd hc (by decide))

theorem objectOf_distinct {fields : List (String × Value)} (h : (fields.map Prod.fst).Nodup) :
    objectOf fields = .obj fields := by
  have hfold : ∀ done : List (String × Value), ((done ++ fields).map Prod.fst).Nodup →
      fields.foldl (fun fields m => Value.setField m.1 m.2 fields) done = done ++ fields := by
    clear h
    induction fields with
    | nil =>
      intro done _
      simp
    | cons f fields ih =>
      intro done h
      have hfresh : f.1 ∉ done.map Prod.fst := by
        rw [List.map_append, List.map_cons] at h
        exact fun hf => (List.nodup_append.mp h).2.2 _ hf _ List.mem_cons_self rfl
      rw [List.foldl_cons, Value.setField_of_fresh hfresh, ih _ (by simpa using h)]
      simp
  rw [objectOf, hfold [] (by simpa using h), List.nil_append]

theorem readValue_print (hstyle : Readable style) {depth : Nat} {v : Value}
    (h : Printable depth v) {rest : List Char} (hrest : EndsNumber rest) :
    readValue depth (printChars style v ++ rest) = some (v, rest) := by
  obtain ⟨blanks, hsep, hblanks⟩ := hstyle.itemSep
  induction h generalizing rest with
  | null => simp [printChars, readValue]
  | bool b => cases b <;> simp [printChars, readValue]
  | @int depth n hlow hhigh =>
    obtain ⟨c, tail, hprint, hc⟩ := printInt_head n
    rw [printChars, ← readNumber_printInt hlow hhigh hrest, hprint, List.cons_append,
      readValue_number hc]
  | str s =>
    rw [printChars, quote, List.cons_append, List.append_assoc, readValue]
    simp [readString_quoted hstyle]
  | @arr depth items hitems ih =>
    have hback : ∀ v ∈ items, ReadsBack (readValue depth) (printChars style) v :=
      fun v hv => ⟨(hitems v hv).starts, fun rest => ih v hv⟩
    rw [printChars, List.cons_append, readValue, List.append_assoc, List.singleton_append]
    cases items with
    | nil => simp [printItems, readItems_nil]
    | cons v items =>
      have hread := readItems_cons hblanks (Or.inl rfl) hback rest
      simp only [printItems, printMoreItems_eq, hsep, List.append_assoc, List.cons_append]
      rw [hread]
      rfl
  | @obj depth fields hkeys hfields ih =>
    obtain ⟨spaces, hkeySep, hspaces⟩ := hstyle.keySep
    have hback : ∀ f ∈ fields, ReadsBack (readMember (readValue depth)) (printField style) f := by
      rintro ⟨key, v⟩ hf
      have htext : printField style (key, v) =
          '"' :: (key.toList.flatMap style.escape ++ ['"'] ++
            (style.keySep ++ printChars style v)) := rfl
      refine ⟨⟨'"', _, htext, by decide⟩, fun rest hrest => ?_⟩
      have hskip : skipBlanks (printChars style v ++ rest) = printChars style v ++ rest :=
        ((hfields _ hf).starts.append rest).skipBlanks_eq
      rw [htext, hkeySep, List.cons_append, List.append_assoc, List.append_assoc, readMember]
      simp [readString_quoted hstyle, skipBlanks_cons, skipBlanks_append hspaces, isBlank, hskip,
        ih _ hf hrest]
    rw [printChars, List.cons_append, readValue, List.append_assoc, List.singleton_append]
    cases fields with
    | nil => simp [printFields, readItems_nil, objectOf]
    | cons f fields =>
      have hread := readItems_cons hblanks (Or.inr rfl) hback rest
      simp only [printFields, printMoreFields_eq, hsep, List.append_assoc, List.cons_append]
      rw [hread, Option.map_some, objectOf_distinct hkeys]

/-- A printable value is what its text means in any readable style. -/
theorem readText_printChars (hstyle : Readable style) {depth : Nat} {v : Value}
    (h : Printable depth v) : readText depth (String.ofList (printChars style v)) = some v := by
  have hread := readValue_print hstyle h endsNumber_nil
  rw [List.append_nil] at hread
  rw [readText, String.toList_ofList, h.starts.skipBlanks_eq, hread]
  rfl

theorem readText_print {depth : Nat} {v : Value} (h : Printable depth v) :
    readText depth (print v) = some v :=
  readText_printChars readable_compact h

end Values

end RemyCC.Json
