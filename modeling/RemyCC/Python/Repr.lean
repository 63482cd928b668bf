import RemyCC.Json.RoundTrip
import RemyCC.Python.Literals

/-!
# Decoding what `repr` writes

An escaped character is decoded to itself whatever follows it. The quote is
escaped inside a body, so that a body neither starts nor ends the literal.
-/

namespace RemyCC.Python

open Json (hexValue hexDigit hexValue_hexDigit)

section Digits

theorem hexNumber_append (value : Nat) (xs ys : List Char) :
    hexNumber value (xs ++ ys) = (hexNumber value xs).bind fun value => hexNumber value ys := by
  induction xs generalizing value with
  | nil => rfl
  | cons x xs ih =>
    rw [List.cons_append, hexNumber, hexNumber]
    cases hexValue x with
    | none => rfl
    | some digit => exact ih _

@[simp]
theorem hexDigits_length (width n : Nat) : (hexDigits width n).length = width := by
  induction width generalizing n with
  | zero => rfl
  | succ width ih => simp [hexDigits, ih]

theorem hexNumber_hexDigits (width n : Nat) (h : n < 16 ^ width) :
    hexNumber 0 (hexDigits width n) = some n := by
  induction width generalizing n with
  | zero =>
    have hn : n = 0 := by omega
    rw [hn]
    rfl
  | succ width ih =>
    have hdiv : n / 16 < 16 ^ width := by
      rw [Nat.div_lt_iff_lt_mul (by decide)]
      exact h
    rw [hexDigits, hexNumber_append, ih _ hdiv, Option.bind_some, hexNumber,
      hexValue_hexDigit (Nat.mod_lt _ (by decide)), Option.bind_some, hexNumber]
    congr 1
    omega

theorem charOf_toNat (c : Char) : charOf c.toNat = some c := by
  have hvalid : c.toNat.isValidChar := c.valid
  rw [charOf, if_pos hvalid, Char.ofNat_toNat]

end Digits

section Escapes

variable {asBytes : Bool}

theorem decodeChars_simple {e c : Char} (he : e ≠ '\n') (hsimple : simpleEscape e = some c)
    (rest : List Char) (out : Decoded) :
    decodeChars asBytes ('\\' :: e :: rest) out = decodeChars asBytes rest (out.push asBytes c) := by
  rw [decodeChars.eq_def]
  simp only [ne_eq, not_true_eq_false, if_false, if_neg he, hsimple]

theorem decodeChars_plain {c : Char} (hc : c ≠ '\\') (rest : List Char) (out : Decoded) :
    decodeChars asBytes (c :: rest) out = decodeChars asBytes rest (out.push asBytes c) := by
  rw [decodeChars.eq_def]
  simp only [ne_eq, hc, not_false_eq_true, if_true]

theorem decodeChars_hex {n : Nat} (h : n < 0x100) (rest : List Char) (out : Decoded) :
    decodeChars asBytes ('\\' :: 'x' :: hexDigits 2 n ++ rest) out =
      (out.pushCode asBytes n).bind (decodeChars asBytes rest) := by
  have hnumber := hexNumber_hexDigits 2 n h
  rw [decodeChars.eq_def]
  simp only [hexDigits, List.nil_append, List.cons_append] at hnumber ⊢
  simp [simpleEscape, octalValue, apostrophe, hnumber]

theorem decodeChars_four {c : Char} (h : c.toNat < 0x10000) (rest : List Char) (out : Decoded) :
    decodeChars false ('\\' :: 'u' :: hexDigits 4 c.toNat ++ rest) out =
      decodeChars false rest (out.push false c) := by
  have hnumber := hexNumber_hexDigits 4 c.toNat h
  rw [decodeChars.eq_def]
  simp only [hexDigits, List.nil_append, List.cons_append] at hnumber ⊢
  simp [simpleEscape, octalValue, apostrophe, hnumber, charOf_toNat]

theorem decodeChars_eight (c : Char) (rest : List Char) (out : Decoded) :
    decodeChars false ('\\' :: 'U' :: hexDigits 8 c.toNat ++ rest) out =
      decodeChars false rest (out.push false c) := by
  have hvalid : c.toNat.isValidChar := c.valid
  have hnumber := hexNumber_hexDigits 8 c.toNat (by
    unfold Nat.isValidChar at hvalid
    omega)
  rw [decodeChars.eq_def]
  simp only [hexDigits, List.nil_append, List.cons_append] at hnumber ⊢
  simp [simpleEscape, octalValue, apostrophe, hnumber, charOf_toNat]

end Escapes

/-- The quotes `repr` chooses between. -/
def IsQuote (quote : Char) : Prop := quote = apostrophe ∨ quote = '"'

theorem isQuote_quoteFor (a b : Bool) : IsQuote (quoteFor a b) := by
  unfold quoteFor
  split
  · exact Or.inr rfl
  · exact Or.inl rfl

theorem IsQuote.ne_backslash {quote : Char} (h : IsQuote quote) : quote ≠ '\\' := by
  rcases h with rfl | rfl <;> decide

theorem IsQuote.ne_newline {quote : Char} (h : IsQuote quote) : quote ≠ '\n' := by
  rcases h with rfl | rfl <;> decide

theorem IsQuote.simpleEscape {quote : Char} (h : IsQuote quote) :
    simpleEscape quote = some quote := by
  rcases h with rfl | rfl <;> decide

section Characters

theorem decodeChars_escapeCode (c : Char) (rest : List Char) (out : Decoded) :
    decodeChars false (escapeCode c.toNat ++ rest) out =
      decodeChars false rest (out.push false c) := by
  unfold escapeCode
  split
  · rename_i hsmall
    rw [decodeChars_hex hsmall, Decoded.pushCode]
    simp [charOf_toNat]
  split
  · rename_i hsmall
    exact decodeChars_four hsmall rest out
  · exact decodeChars_eight c rest out

theorem decodeChars_escapedChar {quote : Char} (hquote : IsQuote quote) (c : Char)
    (rest : List Char) (out : Decoded) :
    decodeChars false (escapedChar quote c ++ rest) out =
      decodeChars false rest (out.push false c) := by
  unfold escapedChar
  split
  · subst c
    exact decodeChars_simple (by decide) (by decide) rest out
  split
  · subst c
    exact decodeChars_simple (by decide) (by decide) rest out
  split
  · subst c
    exact decodeChars_simple (by decide) (by decide) rest out
  split
  · subst c
    exact decodeChars_simple (by decide) (by decide) rest out
  split
  · subst c
    exact decodeChars_simple hquote.ne_newline hquote.simpleEscape rest out
  split
  · rename_i hback _ _ _ _ _
    exact decodeChars_plain hback rest out
  · exact decodeChars_escapeCode c rest out

theorem decodeChars_text {quote : Char} (hquote : IsQuote quote) (s : List Char) (out : Decoded) :
    decodeChars false (s.flatMap (escapedChar quote)) out =
      some { out with text := out.text ++ s } := by
  induction s generalizing out with
  | nil => simp [decodeChars]
  | cons c s ih =>
    rw [List.flatMap_cons, decodeChars_escapedChar hquote, ih]
    simp [Decoded.push]

theorem escapedChar_head {quote : Char} (hquote : IsQuote quote) (c : Char) (rest : List Char) :
    (escapedChar quote c ++ rest).head? ≠ some quote := by
  have hback : some '\\' ≠ some quote := fun h => hquote.ne_backslash (Option.some.inj h).symm
  unfold escapedChar escapeCode
  repeat' split
  all_goals simp_all

end Characters

section Bytes

@[simp]
theorem byteChar_toNat (byte : UInt8) : (byteChar byte).toNat = byte.toNat := by
  have hvalid : byte.toNat.isValidChar := Or.inl (by have := byte.toNat_lt; omega)
  rw [byteChar, Char.ofNat, dif_pos hvalid]
  rfl

theorem utf8EncodeChar_byteChar {byte : UInt8} (h : byte.toNat ≤ 0x7f) :
    String.utf8EncodeChar (byteChar byte) = [byte] := by
  have hval : (byteChar byte).val.toNat = byte.toNat := byteChar_toNat byte
  rw [String.utf8EncodeChar, hval]
  simp only [if_pos h]
  rw [UInt8.ofNat_toNat]

theorem push_byteChar {byte : UInt8} {c : Char} (hc : byteChar byte = c) (h : c.toNat ≤ 0x7f)
    (out : Decoded) : out.push true c = { out with bytes := out.bytes ++ [byte] } := by
  subst hc
  rw [byteChar_toNat] at h
  rw [Decoded.push, if_pos rfl, utf8EncodeChar_byteChar h]

theorem decodeChars_escapedByte {quote : Char} (hquote : IsQuote quote) (byte : UInt8)
    (rest : List Char) (out : Decoded) :
    decodeChars true (escapedByte quote byte ++ rest) out =
      decodeChars true rest { out with bytes := out.bytes ++ [byte] } := by
  have hquoteCode : quote.toNat ≤ 0x7f := by rcases hquote with rfl | rfl <;> decide
  unfold escapedByte
  dsimp only
  split
  · rename_i hc
    rw [← push_byteChar hc (by decide)]
    exact decodeChars_simple (by decide) (by decide) rest out
  split
  · rename_i hc
    rw [← push_byteChar hc (by decide)]
    exact decodeChars_simple (by decide) (by decide) rest out
  split
  · rename_i hc
    rw [← push_byteChar hc (by decide)]
    exact decodeChars_simple (by decide) (by decide) rest out
  split
  · rename_i hc
    rw [← push_byteChar hc (by decide)]
    exact decodeChars_simple (by decide) (by decide) rest out
  split
  · rename_i hc
    rw [← push_byteChar hc hquoteCode, hc]
    exact decodeChars_simple hquote.ne_newline hquote.simpleEscape rest out
  split
  · rename_i hback _ _ _ _ hrange
    rw [← push_byteChar rfl (by rw [byteChar_toNat]; omega)]
    exact decodeChars_plain hback rest out
  · rw [decodeChars_hex byte.toNat_lt, Decoded.pushCode, if_pos rfl,
      if_pos (Nat.le_of_lt_succ byte.toNat_lt), UInt8.ofNat_toNat, Option.bind_some]

theorem decodeChars_bytes {quote : Char} (hquote : IsQuote quote) (b : List UInt8)
    (out : Decoded) : decodeChars true (b.flatMap (escapedByte quote)) out =
      some { out with bytes := out.bytes ++ b } := by
  induction b generalizing out with
  | nil => simp [decodeChars]
  | cons byte b ih =>
    rw [List.flatMap_cons, decodeChars_escapedByte hquote, ih]
    simp

theorem escapedByte_head {quote : Char} (hquote : IsQuote quote) (byte : UInt8)
    (rest : List Char) : (escapedByte quote byte ++ rest).head? ≠ some quote := by
  have hback : some '\\' ≠ some quote := fun h => hquote.ne_backslash (Option.some.inj h).symm
  unfold escapedByte
  dsimp only
  repeat' split
  all_goals simp_all

end Bytes

section Splitting

theorem quotes_find {quote : Char} (hquote : IsQuote quote) {body : List Char}
    (hhead : body.head? ≠ some quote) :
    quotes.find? (fun q => q.isPrefixOf (quote :: (body ++ [quote]))) = some [quote] := by
  have hnext : ∀ q, [q, q, q].isPrefixOf (quote :: (body ++ [quote])) = false := by
    intro q
    cases body with
    | nil => simp [List.isPrefixOf]
    | cons c body =>
      have hc : c ≠ quote := fun h => hhead (by rw [h]; rfl)
      by_cases hq : q = quote
      · simp [List.isPrefixOf, hq, hc.symm]
      · simp [List.isPrefixOf, hq]
  rw [quotes, List.find?_cons_of_neg (by simp [hnext]), List.find?_cons_of_neg (by simp [hnext])]
  rcases hquote with rfl | rfl <;> simp [List.isPrefixOf, List.find?, apostrophe]

theorem splitLiteral_of_readFlags {text : String} {flags : LiteralPrefix} {quote : Char}
    (hquote : IsQuote quote) {body : List Char} (hhead : body.head? ≠ some quote)
    (hread : readFlags .default text.toList = some (flags, quote :: (body ++ [quote]))) :
    splitLiteral text = some (flags, String.ofList [quote], String.ofList body) := by
  have hsuffix : [quote].isSuffixOf (body ++ [quote]) = true := by simp
  simp only [splitLiteral, hread, Option.bind_eq_bind, Option.bind_some, quotes_find hquote hhead]
  simp

theorem flatMap_head {α : Type} {quote : Char} {f : α → List Char}
    (hf : ∀ a rest, (f a ++ rest).head? ≠ some quote) (s : List α) :
    (s.flatMap f).head? ≠ some quote := by
  cases s with
  | nil => simp
  | cons a s => exact hf a _

end Splitting

theorem reprStr_decodes (s : String) : ∃ quote body, quote.length = 1 ∧
    reprStr s = quote ++ body ++ quote ∧ splitLiteral (reprStr s) = some (.default, quote, body) ∧
    decodeLiteralBody .default body = some (.str s) := by
  let quote := quoteFor (s.toList.contains apostrophe) (s.toList.contains '"')
  have hquote : IsQuote quote := isQuote_quoteFor _ _
  have htext : (reprStr s).toList = quote :: (s.toList.flatMap (escapedChar quote) ++ [quote]) := by
    simp only [reprStr, String.toList_ofList, List.cons_append]
    rfl
  refine ⟨String.ofList [quote], String.ofList (s.toList.flatMap (escapedChar quote)), by simp,
    ?_, ?_, ?_⟩
  · apply String.toList_inj.mp
    rw [htext]
    simp
  · refine splitLiteral_of_readFlags hquote (flatMap_head (escapedChar_head hquote) _) ?_
    rw [htext]
    rcases hquote with h | h <;> rw [h] <;> rfl
  · simp [decodeLiteralBody, LiteralPrefix.default, decodeChars_text hquote]

theorem reprBytes_decodes (b : List UInt8) : ∃ quote body, quote.length = 1 ∧
    reprBytes b = "b" ++ quote ++ body ++ quote ∧
    splitLiteral (reprBytes b) = some ({ LiteralPrefix.default with bytes := true }, quote, body) ∧
    decodeLiteralBody { LiteralPrefix.default with bytes := true } body = some (.bytes b) := by
  let chars := b.map byteChar
  let quote := quoteFor (chars.contains apostrophe) (chars.contains '"')
  have hquote : IsQuote quote := isQuote_quoteFor _ _
  have htext : (reprBytes b).toList =
      'b' :: quote :: (b.flatMap (escapedByte quote) ++ [quote]) := by
    simp only [reprBytes, String.toList_ofList, List.cons_append]
    rfl
  refine ⟨String.ofList [quote], String.ofList (b.flatMap (escapedByte quote)), by simp,
    ?_, ?_, ?_⟩
  · apply String.toList_inj.mp
    rw [htext]
    simp
  · refine splitLiteral_of_readFlags hquote (flatMap_head (escapedByte_head hquote) _) ?_
    rw [htext]
    rcases hquote with h | h <;> rw [h] <;> rfl
  · simp [decodeLiteralBody, LiteralPrefix.default, decodeChars_bytes hquote]

/-- The delimiter is a single quote mark, and what stands between two of them is
decoded to the value that was written. -/
theorem repr_decodes :
    (∀ s : String, ∃ quote body, quote.length = 1 ∧ reprStr s = quote ++ body ++ quote ∧
      splitLiteral (reprStr s) = some (.default, quote, body) ∧
      decodeLiteralBody .default body = some (.str s)) ∧
    ∀ b : List UInt8, ∃ quote body, quote.length = 1 ∧
      reprBytes b = "b" ++ quote ++ body ++ quote ∧
      splitLiteral (reprBytes b) =
        some ({ LiteralPrefix.default with bytes := true }, quote, body) ∧
      decodeLiteralBody { LiteralPrefix.default with bytes := true } body = some (.bytes b) :=
  ⟨reprStr_decodes, reprBytes_decodes⟩

end RemyCC.Python
