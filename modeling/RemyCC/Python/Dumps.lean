import RemyCC.Install.Deploy
import RemyCC.Json.RoundTrip
import RemyCC.Relational.Grouping
import RemyCC.Text

/-!
# The JSON columns

The writer of the JSON columns takes its separators, whether to escape what is
outside ASCII and whether to sort keys. The default format is compared with
Python's own writer, which leaves nothing but U+0020 to U+007E unescaped, and
the identity format with equality up to the order of keys.
-/

namespace RemyCC.Python

open Install (sortedKeys sortedItems sortedFields)
open Json Json.Value Relational

section Writer

variable (style : Style) (sortKeys : Bool)

def inKeyOrder (members : List (String × List Char)) : List (String × List Char) :=
  if sortKeys then orderBy (compareOn Prod.fst) members else members

def writeMember (f : String × List Char) : List Char :=
  quote style f.1 ++ (style.keySep ++ f.2)

mutual
def writeValue : Value → List Char
  | .arr items => '[' :: (style.itemSep.intercalate (writeItems items) ++ [']'])
  | .obj fields => '{' :: (style.itemSep.intercalate
      ((inKeyOrder sortKeys (writeFields fields)).map (writeMember style)) ++ ['}'])
  | value => printChars style value

def writeItems : List Value → List (List Char)
  | [] => []
  | v :: items => writeValue v :: writeItems items

def writeFields : List (String × Value) → List (String × List Char)
  | [] => []
  | f :: fields => writeField f :: writeFields fields

def writeField : String × Value → String × List Char
  | (key, v) => (key, writeValue v)
end

end Writer

def dumpsIdentity (v : Value) : String := String.ofList (writeValue compact true v)

example : dumpsIdentity (.obj [("b", .null), ("a", .arr [.int 1, .int 2])]) =
    "\x7b\"a\":[1,2],\"b\":null\x7d" := by decide +kernel

section Reference

/-- A character outside the ones Python's writer leaves alone. -/
def unicodeEscape (c : Char) : List Char :=
  if c.toNat < 0x10000 then escapeUnit c.toNat
  else
    let n := c.toNat - 0x10000
    escapeUnit (0xd800 + n / 0x400) ++ escapeUnit (0xdc00 + n % 0x400)

def asciiEscape (c : Char) : List Char :=
  if c = '"' then ['\\', '"']
  else if c = '\\' then ['\\', '\\']
  else if 0x20 ≤ c.toNat ∧ c.toNat ≤ 0x7e then [c]
  else if c = '\n' then ['\\', 'n']
  else if c = '\r' then ['\\', 'r']
  else if c = '\t' then ['\\', 't']
  else if c.toNat = 8 then ['\\', 'b']
  else if c.toNat = 12 then ['\\', 'f']
  else unicodeEscape c

/-- Python's `json.dumps(value)`. -/
def jsonDumps (v : Value) : String :=
  String.ofList (printChars { pythonDefault with escape := asciiEscape } v)

mutual
/-- The strings of a value, keys among them. -/
def texts : Value → List String
  | .str s => [s]
  | .arr items => itemTexts items
  | .obj fields => fieldTexts fields
  | _ => []

def itemTexts : List Value → List String
  | [] => []
  | v :: items => texts v ++ itemTexts items

def fieldTexts : List (String × Value) → List String
  | [] => []
  | f :: fields => fieldText f ++ fieldTexts fields

def fieldText : String × Value → List String
  | (key, v) => key :: texts v
end

def delete : Char := Char.ofNat 0x7f

def Plain (c : Char) : Prop := 0x20 ≤ c.toNat ∧ c.toNat ≤ 0x7e

instance : DecidablePred Plain := fun _ => inferInstanceAs (Decidable (_ ∧ _))

/-- A value whose numbers are integers, at whatever depth it nests. -/
def Integral (v : Value) : Prop := ∃ depth, Printable depth v

structure DefaultFaithful (v : Value) : Prop where
  plain : ∀ c ∈ (dumpsDefault v).toList, Plain c
  exact : dumpsDefault v = jsonDumps v
  decodes : ∀ depth, Printable depth v → readText depth (dumpsDefault v) = some v

end Reference

section Printed

variable {style : Style}

theorem intercalate_cons (sep x : List Char) (xs : List (List Char)) :
    sep.intercalate (x :: xs) = x ++ xs.flatMap fun y => sep ++ y := by
  induction xs generalizing x with
  | nil => simp [List.intercalate]
  | cons y xs ih =>
    have hnext := ih y
    simp only [List.intercalate, List.intersperse_cons_cons, List.flatten_cons,
      List.flatMap_cons] at hnext ⊢
    rw [hnext, List.append_assoc]

theorem printItems_eq (items : List Value) :
    printItems style items = style.itemSep.intercalate (items.map (printChars style)) := by
  cases items with
  | nil => rfl
  | cons v items =>
    rw [printItems, printMoreItems_eq, List.map_cons, intercalate_cons, List.flatMap_map]

theorem printFields_eq (fields : List (String × Value)) :
    printFields style fields = style.itemSep.intercalate (fields.map (printField style)) := by
  cases fields with
  | nil => rfl
  | cons f fields =>
    rw [printFields, printMoreFields_eq, List.map_cons, intercalate_cons, List.flatMap_map]

theorem writeMember_eq (f : String × Value) :
    writeMember style (f.1, printChars style f.2) = printField style f := by
  obtain ⟨key, v⟩ := f
  rw [printField]
  rfl

theorem writeItems_eq (sortKeys : Bool) (items : List Value) :
    writeItems style sortKeys items = items.map (writeValue style sortKeys) := by
  induction items with
  | nil => rfl
  | cons v items ih => rw [writeItems, ih, List.map_cons]

theorem writeFields_eq (sortKeys : Bool) (fields : List (String × Value)) :
    writeFields style sortKeys fields =
      fields.map fun f => (f.1, writeValue style sortKeys f.2) := by
  induction fields with
  | nil => rfl
  | cons f fields ih =>
    obtain ⟨key, v⟩ := f
    rw [writeFields, ih, List.map_cons, writeField]

theorem sortedItems_eq (items : List Value) : sortedItems items = items.map sortedKeys := by
  induction items with
  | nil => rfl
  | cons v items ih => rw [sortedItems, ih, List.map_cons]

theorem sortedFields_eq (fields : List (String × Value)) :
    sortedFields fields = fields.map fun f => (f.1, sortedKeys f.2) := by
  induction fields with
  | nil => rfl
  | cons f fields ih => rw [sortedFields, ih, List.map_cons]

/-- Without sorting the writer is the printer. -/
theorem writeValue_unsorted {depth : Nat} {v : Value} (h : Printable depth v) :
    writeValue style false v = printChars style v := by
  induction h with
  | null => rfl
  | bool b => rfl
  | int => rfl
  | str s => rfl
  | arr hitems ih =>
    rw [writeValue, writeItems_eq, printChars, printItems_eq, List.map_congr_left ih]
  | @obj depth fields hkeys hfields ih =>
    have htexts : (writeFields style false fields).map (writeMember style) =
        fields.map (printField style) := by
      rw [writeFields_eq, List.map_map]
      exact List.map_congr_left fun f hf => by rw [Function.comp, ih f hf, writeMember_eq]
    rw [writeValue, inKeyOrder, if_neg Bool.false_ne_true, htexts, printChars, printFields_eq]

/-- With sorting it is the printer of the value with its keys sorted. -/
theorem writeValue_sorted {depth : Nat} {v : Value} (h : Printable depth v) :
    writeValue style true v = printChars style (sortedKeys v) := by
  induction h with
  | null => rfl
  | bool b => rfl
  | int => rfl
  | str s => rfl
  | arr hitems ih =>
    rw [writeValue, writeItems_eq, sortedKeys, printChars, printItems_eq, sortedItems_eq,
      List.map_map, List.map_congr_left ih]
    rfl
  | @obj depth fields hkeys hfields ih =>
    have hpairs : writeFields style true fields =
        (sortedFields fields).map fun f => (f.1, printChars style f.2) := by
      rw [writeFields_eq, sortedFields_eq, List.map_map]
      exact List.map_congr_left fun f hf => by rw [ih f hf]; rfl
    have horder := map_orderBy_comp (fun f : String × Value => (f.1, printChars style f.2))
      (compareOn Prod.fst) (sortedFields fields)
    rw [writeValue, inKeyOrder, if_pos rfl, hpairs, ← horder, List.map_map, sortedKeys, printChars,
      printFields_eq]
    have hmembers : (writeMember style ∘ fun f : String × Value => (f.1, printChars style f.2)) =
        printField style := funext writeMember_eq
    rw [hmembers]
    rfl

end Printed

section Ascii

theorem plain_of_all {cs : List Char} (h : (cs.all fun c => decide (Plain c)) = true) :
    ∀ c ∈ cs, Plain c := fun c hc => of_decide_eq_true (List.all_eq_true.mp h c hc)

theorem hexDigit_plain {d : Nat} (h : d < 16) : Plain (hexDigit d) := by
  have hall : ∀ d : Fin 16, Plain (hexDigit d.val) := by decide
  exact hall ⟨d, h⟩

theorem escapeUnit_plain {unit : Nat} (h : unit < 0x10000) : ∀ c ∈ escapeUnit unit, Plain c := by
  have hback : Plain '\\' := by decide
  have hmarker : Plain 'u' := by decide
  simp only [escapeUnit, List.forall_mem_cons, hback, hmarker, true_and]
  exact ⟨hexDigit_plain (by omega), hexDigit_plain (Nat.mod_lt _ (by decide)),
    hexDigit_plain (Nat.mod_lt _ (by decide)), hexDigit_plain (Nat.mod_lt _ (by decide)), by simp⟩

theorem toNat_delete : delete.toNat = 0x7f := by decide

theorem toNat_ne_delete {c : Char} (h : c ≠ delete) : c.toNat ≠ 0x7f := by
  intro hc
  exact h (Char.toNat_inj.mp (hc.trans toNat_delete.symm))

theorem escapeAscii_plain {c : Char} (h : c ≠ delete) : ∀ d ∈ escapeAscii c, Plain d := by
  have hcode := toNat_ne_delete h
  have hvalid : c.toNat.isValidChar := c.valid
  unfold Nat.isValidChar at hvalid
  unfold escapeAscii escapeChar
  split
  · repeat' split
    all_goals first
      | exact plain_of_all (by decide)
      | exact escapeUnit_plain (by omega)
      | (simp only [List.mem_singleton, forall_eq, Plain]; omega)
  split
  · exact escapeUnit_plain (by omega)
  · simp only [List.mem_append]
    rintro d (hd | hd)
    · exact escapeUnit_plain (by omega) d hd
    · exact escapeUnit_plain (by omega) d hd

theorem escapeAscii_delete : escapeAscii delete = [delete] := by decide

/-- The two writers escape every other character alike. -/
theorem escapeAscii_eq {c : Char} (h : c ≠ delete) : escapeAscii c = asciiEscape c := by
  have hcode := toNat_ne_delete h
  by_cases hquote : c = '"'
  · rw [hquote]
    decide
  by_cases hback : c = '\\'
  · rw [hback]
    decide
  by_cases hfeed : c = '\n'
  · rw [hfeed]
    decide
  by_cases hreturn : c = '\r'
  · rw [hreturn]
    decide
  by_cases htab : c = '\t'
  · rw [htab]
    decide
  by_cases height : c.toNat = 8
  · have hc : c = Char.ofNat 8 := by rw [← height, Char.ofNat_toNat]
    rw [hc]
    decide
  by_cases htwelve : c.toNat = 12
  · have hc : c = Char.ofNat 12 := by rw [← htwelve, Char.ofNat_toNat]
    rw [hc]
    decide
  rw [escapeAscii, escapeChar, asciiEscape, unicodeEscape]
  simp only [if_neg hquote, if_neg hback, if_neg hfeed, if_neg hreturn, if_neg htab, if_neg height,
    if_neg htwelve]
  by_cases hascii : c.toNat ≤ 0x7f
  · by_cases hcontrol : c.toNat < 32
    · rw [if_pos hascii, if_pos hcontrol, if_neg (by omega), if_pos (by omega)]
    · rw [if_pos hascii, if_neg hcontrol, if_pos (by omega)]
  · have hplain : ¬ (0x20 ≤ c.toNat ∧ c.toNat ≤ 0x7e) := by omega
    rw [if_neg hascii, if_neg hplain]
    by_cases hbasic : c.toNat ≤ 0xffff
    · rw [if_pos hbasic, if_pos (by omega)]
    · rw [if_neg hbasic, if_neg (by omega)]

end Ascii

section Default

variable {style : Style}

theorem mem_itemTexts {s : String} {items : List Value} :
    s ∈ itemTexts items ↔ ∃ v ∈ items, s ∈ texts v := by
  induction items with
  | nil => simp [itemTexts]
  | cons v items ih => simp [itemTexts, ih]

theorem mem_fieldTexts {s : String} {fields : List (String × Value)} :
    s ∈ fieldTexts fields ↔ ∃ f ∈ fields, s = f.1 ∨ s ∈ texts f.2 := by
  induction fields with
  | nil => simp [fieldTexts]
  | cons f fields ih =>
    obtain ⟨key, v⟩ := f
    simp [fieldTexts, fieldText, ih, or_assoc]

theorem intercalate_plain {sep : List Char} (hsep : ∀ c ∈ sep, Plain c) (xs : List (List Char)) :
    (∀ c ∈ sep.intercalate xs, Plain c) ↔ ∀ x ∈ xs, ∀ c ∈ x, Plain c := by
  constructor
  · exact fun h x hx c hc => h c (Text.mem_intercalate_of_mem sep hx hc)
  · intro h c hc
    rcases Text.mem_intercalate hc with hc | ⟨x, hx, hc⟩
    · exact hsep c hc
    · exact h x hx c hc

theorem quote_plain (s : String) :
    (∀ d ∈ quote style s, Plain d) ↔ ∀ c ∈ s.toList, ∀ d ∈ style.escape c, Plain d := by
  have hquote : Plain '"' := by decide
  simp only [quote, List.forall_mem_cons, List.forall_mem_append, List.mem_flatMap, hquote,
    true_and, forall_exists_index, and_imp]
  exact ⟨fun h c hc d hd => h.1 d c hc hd, fun h => ⟨fun d c hc hd => h c hc d hd, by simp⟩⟩

theorem isDigit_plain {c : Char} (h : c.isDigit = true) : Plain c := by
  have hrange : 48 ≤ c.toNat ∧ c.toNat ≤ 57 := by
    simpa [Char.isDigit, UInt32.le_iff_toNat_le] using h
  exact ⟨by omega, by omega⟩

theorem printInt_plain (n : Int) : ∀ c ∈ printInt n, Plain c := by
  have hdigits : ∀ m, ∀ c ∈ Nat.toDigits 10 m, Plain c := fun m c hc =>
    isDigit_plain (Nat.isDigit_of_mem_toDigits (b := 10) (by decide) (by decide) hc)
  cases n with
  | ofNat m => exact hdigits m
  | negSucc m => exact List.forall_mem_cons.mpr ⟨by decide, hdigits _⟩

/-- What is printed apart from the strings stays within ASCII, and nothing of a
string is lost. -/
theorem printChars_plain (hitem : ∀ c ∈ style.itemSep, Plain c) (hkey : ∀ c ∈ style.keySep, Plain c)
    {depth : Nat} {v : Value} (h : Printable depth v) :
    (∀ d ∈ printChars style v, Plain d) ↔
      ∀ s ∈ texts v, ∀ c ∈ s.toList, ∀ d ∈ style.escape c, Plain d := by
  induction h with
  | null =>
    have hnull : ∀ d ∈ ['n', 'u', 'l', 'l'], Plain d := plain_of_all (by decide)
    exact iff_of_true hnull (by simp [texts])
  | bool b =>
    have htrue : ∀ d ∈ ['t', 'r', 'u', 'e'], Plain d := plain_of_all (by decide)
    have hfalse : ∀ d ∈ ['f', 'a', 'l', 's', 'e'], Plain d := plain_of_all (by decide)
    cases b
    · exact iff_of_true hfalse (by simp [texts])
    · exact iff_of_true htrue (by simp [texts])
  | @int _ n => exact iff_of_true (printInt_plain n) (by simp [texts])
  | str s => simp [printChars, texts, quote_plain]
  | @arr depth items hitems ih =>
    have hopen : Plain '[' := by decide
    have hclose : Plain ']' := by decide
    have hparts := intercalate_plain hitem (items.map (printChars style))
    simp only [List.forall_mem_map] at hparts
    rw [printChars, printItems_eq, List.forall_mem_cons, List.forall_mem_append, hparts,
      List.forall_mem_singleton]
    simp only [hopen, hclose, true_and, and_true, texts, mem_itemTexts, forall_exists_index,
      and_imp]
    exact ⟨fun h s v hv hs => (ih v hv).mp (h v hv) s hs,
      fun h v hv => (ih v hv).mpr fun s hs => h s v hv hs⟩
  | @obj depth fields hkeys hfields ih =>
    have hopen : Plain '{' := by decide
    have hclose : Plain '}' := by decide
    have hparts := intercalate_plain hitem (fields.map (printField style))
    have hfield : ∀ f ∈ fields, (∀ d ∈ printField style f, Plain d) ↔
        ∀ s, s = f.1 ∨ s ∈ texts f.2 → ∀ c ∈ s.toList, ∀ d ∈ style.escape c, Plain d := by
      intro f hf
      rw [← writeMember_eq, writeMember, List.forall_mem_append, List.forall_mem_append,
        quote_plain, ih f hf]
      simp only [or_imp, forall_and, forall_eq, and_congr_right_iff, and_iff_right_iff_imp]
      exact fun _ _ => hkey
    simp only [List.forall_mem_map] at hparts
    rw [printChars, printFields_eq, List.forall_mem_cons, List.forall_mem_append, hparts,
      List.forall_mem_singleton]
    simp only [hopen, hclose, true_and, and_true, texts, mem_fieldTexts, forall_exists_index,
      and_imp]
    exact ⟨fun h s f hf hs => (hfield f hf).mp (h f hf) s hs,
      fun h f hf => (hfield f hf).mpr fun s hs => h s f hf hs⟩

theorem printChars_congr {escape escape' : Char → List Char} {itemSep keySep : List Char}
    {depth : Nat} {v : Value} (h : Printable depth v)
    (hescape : ∀ s ∈ texts v, ∀ c ∈ s.toList, escape c = escape' c) :
    printChars ⟨itemSep, keySep, escape⟩ v = printChars ⟨itemSep, keySep, escape'⟩ v := by
  have hquote : ∀ s : String, (∀ c ∈ s.toList, escape c = escape' c) →
      quote ⟨itemSep, keySep, escape⟩ s = quote ⟨itemSep, keySep, escape'⟩ s := by
    intro s hs
    simp only [quote, List.flatMap, List.map_congr_left hs]
  induction h with
  | null => rfl
  | bool b => cases b <;> rfl
  | int => rfl
  | str s => rw [printChars, printChars, hquote s (hescape s (by simp [texts]))]
  | @arr depth items hitems ih =>
    have hmap := List.map_congr_left fun v hv => ih v hv fun s hs =>
      hescape s (by rw [texts, mem_itemTexts]; exact ⟨v, hv, hs⟩)
    rw [printChars, printChars, printItems_eq, printItems_eq, hmap]
  | @obj depth fields hkeys hfields ih =>
    have hmap : fields.map (printField ⟨itemSep, keySep, escape⟩) =
        fields.map (printField ⟨itemSep, keySep, escape'⟩) := by
      refine List.map_congr_left fun f hf => ?_
      have htext : ∀ s, s = f.1 ∨ s ∈ texts f.2 → ∀ c ∈ s.toList, escape c = escape' c :=
        fun s hs => hescape s (by rw [texts, mem_fieldTexts]; exact ⟨f, hf, hs⟩)
      rw [← writeMember_eq, ← writeMember_eq, writeMember, writeMember,
        hquote f.1 (htext f.1 (Or.inl rfl)), ih f hf fun s hs => htext s (Or.inr hs)]
    rw [printChars, printChars, printFields_eq, printFields_eq, hmap]

/-- The default format is Python's as long as no string holds U+007F, which is
written as it is. -/
theorem defaultFaithful_iff {v : Value} (h : Integral v) :
    DefaultFaithful v ↔ ∀ s ∈ texts v, delete ∉ s.toList := by
  obtain ⟨depth, hdepth⟩ := h
  have hitem : ∀ c ∈ pythonDefault.itemSep, Plain c := plain_of_all (by decide)
  have hkey : ∀ c ∈ pythonDefault.keySep, Plain c := plain_of_all (by decide)
  have hplain := printChars_plain hitem hkey hdepth
  constructor
  · intro hfaithful s hs hdelete
    have hall := hfaithful.plain
    rw [dumpsDefault, String.toList_ofList, hplain] at hall
    have hraw : delete ∈ escapeAscii delete := by
      rw [escapeAscii_delete]
      exact List.mem_singleton_self _
    exact absurd (hall s hs delete hdelete delete hraw) (by decide)
  · intro hnone
    have hne : ∀ s ∈ texts v, ∀ c ∈ s.toList, c ≠ delete := fun s hs c hc hcd =>
      hnone s hs (hcd ▸ hc)
    refine ⟨?_, ?_, fun depth hv => readText_printChars readable_pythonDefault hv⟩
    · rw [dumpsDefault, String.toList_ofList, hplain]
      exact fun s hs c hc => escapeAscii_plain (hne s hs c hc)
    · exact congrArg String.ofList
        (printChars_congr hdepth fun s hs c hc => escapeAscii_eq (hne s hs c hc))

end Default

end RemyCC.Python
