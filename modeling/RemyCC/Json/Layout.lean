import RemyCC.Json.RoundTrip
import Mathlib.Algebra.GroupWithZero.Nat
import Mathlib.Algebra.Order.BigOperators.Group.List
import Mathlib.Data.String.Basic

/-!
# How long a printed value is, and that it is one line

An object takes the bytes of its values and a frame that depends on its keys
alone. No printed value holds a line feed: strings escape it, and a number
literal has none.
-/

namespace RemyCC.Json

open String

/-- The bytes of the compact text of a value. -/
def size (v : Value) : Nat := utf8Len (printChars compact v)

def valuesSize (fields : List (String × Value)) : Nat := (fields.map fun f => size f.2).sum

/-- What the key of a field, its colon and a comma take. -/
def keySize (key : String) : Nat := utf8Len (quote compact key) + 2

def frameSize (fields : List (String × Value)) : Nat := (fields.map fun f => keySize f.1).sum

theorem utf8Len_printField (f : String × Value) :
    utf8Len (printField compact f) + 1 = keySize f.1 + size f.2 := by
  have hcolon : Char.utf8Size ':' = 1 := by decide
  obtain ⟨key, v⟩ := f
  simp only [printField, utf8Len_append, compact_keySep, utf8Len_cons, utf8Len_nil, hcolon,
    keySize, size]
  omega

theorem utf8Len_printMoreFields (fields : List (String × Value)) :
    utf8Len (printMoreFields compact fields) = frameSize fields + valuesSize fields := by
  have hcomma : Char.utf8Size ',' = 1 := by decide
  induction fields with
  | nil => rfl
  | cons f fields ih =>
    have hf := utf8Len_printField f
    simp only [printMoreFields, compact_itemSep, utf8Len_append, utf8Len_cons, utf8Len_nil, hcomma,
      ih, frameSize, valuesSize, List.map_cons, List.sum_cons] at hf ⊢
    omega

theorem size_obj_cons (f : String × Value) (fields : List (String × Value)) :
    size (.obj (f :: fields)) = frameSize (f :: fields) + valuesSize (f :: fields) + 1 := by
  have hopen : Char.utf8Size '\x7b' = 1 := by decide
  have hclose : Char.utf8Size '\x7d' = 1 := by decide
  have hf := utf8Len_printField f
  have hmore := utf8Len_printMoreFields fields
  unfold size
  simp only [printChars, printFields, utf8Len_cons, utf8Len_append, utf8Len_nil, hopen, hclose,
    hmore, frameSize, valuesSize, List.map_cons, List.sum_cons] at hf ⊢
  omega

theorem size_arr_singleton (v : Value) : size (.arr [v]) = size v + 2 := by
  have hopen : Char.utf8Size '[' = 1 := by decide
  have hclose : Char.utf8Size ']' = 1 := by decide
  unfold size
  simp only [printChars, printItems, printMoreItems, utf8Len_cons, utf8Len_append, utf8Len_nil,
    hopen, hclose, List.append_nil, Nat.zero_add]

theorem size_le_of_mem (key : String) {v : Value} {fields : List (String × Value)}
    (h : (key, v) ∈ fields) : size v ≤ size (.obj fields) := by
  cases fields with
  | nil => cases h
  | cons f fields =>
    have hle : size v ≤ valuesSize (f :: fields) :=
      List.single_le_sum (fun _ _ => Nat.zero_le _) _ (List.mem_map.mpr ⟨(key, v), h, rfl⟩)
    rw [size_obj_cons]
    omega

/-- A value as the deserialiser makes it: no number literal holds a line feed. -/
inductive OneLine : Value → Prop
  | null : OneLine .null
  | bool (b : Bool) : OneLine (.bool b)
  | int (n : Int) : OneLine (.int n)
  | float {literal : String} (h : '\n' ∉ literal.toList) : OneLine (.float literal)
  | str (s : String) : OneLine (.str s)
  | arr {items : List Value} (h : ∀ v ∈ items, OneLine v) : OneLine (.arr items)
  | obj {fields : List (String × Value)} (h : ∀ f ∈ fields, OneLine f.2) : OneLine (.obj fields)

section Feeds

theorem feed_not_mem_escapeUnit (n : Nat) (h : n < 32) : '\n' ∉ escapeUnit n := by
  have hall : ∀ n < 32, '\n' ∉ escapeUnit n := by decide
  exact hall n h

theorem feed_not_mem_escapeChar (c : Char) : '\n' ∉ escapeChar c := by
  unfold escapeChar
  split
  · decide
  · split
    · decide
    · split
      · decide
      · split
        · decide
        · split
          · decide
          · split
            · decide
            · split
              · decide
              · split
                · exact feed_not_mem_escapeUnit _ ‹_›
                · rename_i hfeed _ _ _
                  simpa using Ne.symm hfeed

theorem feed_not_mem_quote (s : String) : '\n' ∉ quote compact s := by
  have hquote : '\n' ≠ '"' := by decide
  simp only [quote, List.mem_cons, List.mem_append, List.mem_flatMap, compact_escape,
    List.not_mem_nil, or_false, not_or, not_exists, not_and]
  exact ⟨hquote, fun c _ => feed_not_mem_escapeChar c, hquote⟩

theorem feed_not_mem_toDigits (n : Nat) : '\n' ∉ Nat.toDigits 10 n := by
  intro h
  have hdigit := Nat.isDigit_of_mem_toDigits (by decide) (by decide) h
  exact absurd hdigit (by decide)

theorem feed_not_mem_printInt (n : Int) : '\n' ∉ printInt n := by
  cases n with
  | ofNat n => exact feed_not_mem_toDigits n
  | negSucc n =>
    simp only [printInt, List.mem_cons, not_or]
    exact ⟨by decide, feed_not_mem_toDigits _⟩

theorem feed_not_mem_print {v : Value} (h : OneLine v) : '\n' ∉ printChars compact v := by
  have hcomma : '\n' ≠ ',' := by decide
  induction h with
  | null => decide
  | bool b => cases b <;> decide
  | int n => exact feed_not_mem_printInt n
  | float h => exact h
  | str s => exact feed_not_mem_quote s
  | @arr items _ ih =>
    have hmore : ∀ items : List Value, (∀ v ∈ items, '\n' ∉ printChars compact v) →
        '\n' ∉ printMoreItems compact items := by
      intro items hitems
      rw [printMoreItems_eq]
      simp only [compact_itemSep, List.cons_append, List.nil_append, List.mem_flatMap,
        List.mem_cons, not_exists, not_and, not_or]
      exact fun v hv => ⟨hcomma, hitems v hv⟩
    rw [printChars]
    cases items with
    | nil => decide
    | cons v items =>
      have hv := ih v List.mem_cons_self
      have hrest := hmore items fun w hw => ih w (List.mem_cons_of_mem _ hw)
      simp [printItems, hv, hrest]
  | @obj fields _ ih =>
    have hfield : ∀ f ∈ fields, '\n' ∉ printField compact f := by
      intro f hf
      have hcolon : '\n' ≠ ':' := by decide
      obtain ⟨key, v⟩ := f
      simp only [printField, compact_keySep, List.mem_append, List.mem_singleton, not_or]
      exact ⟨feed_not_mem_quote key, hcolon, ih (key, v) hf⟩
    have hmore : ∀ fields : List (String × Value), (∀ f ∈ fields, '\n' ∉ printField compact f) →
        '\n' ∉ printMoreFields compact fields := by
      intro fields hfields
      rw [printMoreFields_eq]
      simp only [compact_itemSep, List.cons_append, List.nil_append, List.mem_flatMap,
        List.mem_cons, not_exists, not_and, not_or]
      exact fun f hf => ⟨hcomma, hfields f hf⟩
    rw [printChars]
    cases fields with
    | nil => decide
    | cons f fields =>
      have hf := hfield f List.mem_cons_self
      have hrest := hmore fields fun g hg => hfield g (List.mem_cons_of_mem _ hg)
      simp [printFields, hf, hrest]

end Feeds

end RemyCC.Json
