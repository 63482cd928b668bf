import RemyCC.Server.Connection

/-!
# Lines on the wire

A text written as one line is read back as that line, as long as the bytes of
all the lines together stay within what the reader takes from a connection.
-/

namespace RemyCC.Server

/-- A line as a client writes it: its text, and how it ends. -/
structure Written where
  text : String
  crlf : Bool

def bytesOf (text : String) : List UInt8 := text.toByteArray.data.toList

def Written.body (line : Written) : List UInt8 :=
  bytesOf line.text ++ if line.crlf then [carriageReturn] else []

def Written.bytes (line : Written) : List UInt8 := line.body ++ [lineFeed]

/-- The text holds no line feed and does not end in a carriage return. -/
structure Written.Framed (line : Written) : Prop where
  feed : lineFeed ∉ bytesOf line.text
  last : (bytesOf line.text).getLast? ≠ some carriageReturn

theorem text?_bytesOf (text : String) : text? (bytesOf text) = some text := by
  have hbytes : (⟨(bytesOf text).toArray⟩ : ByteArray) = text.toByteArray := by
    simp [bytesOf]
  unfold text?
  rw [hbytes]
  simp [String.fromUTF8?, String.fromUTF8, text.isValidUTF8]

theorem splitLines_append (line rest : List UInt8) (h : lineFeed ∉ line) :
    splitLines (line ++ lineFeed :: rest) =
      (line :: (splitLines rest).1, (splitLines rest).2) := by
  induction line with
  | nil => simp [splitLines]
  | cons b line ih =>
    simp only [List.mem_cons, not_or] at h
    rw [List.cons_append, splitLines, if_neg (Ne.symm h.1), ih h.2]

theorem splitLines_bytes (lines : List Written) (h : ∀ line ∈ lines, line.Framed) :
    splitLines (lines.flatMap Written.bytes) = (lines.map Written.body, []) := by
  induction lines with
  | nil => rfl
  | cons line lines ih =>
    have hbody : lineFeed ∉ line.body := by
      unfold Written.body
      have hfeed := (h line List.mem_cons_self).feed
      have hne : lineFeed ≠ carriageReturn := by decide
      cases line.crlf <;> simp [hfeed, hne]
    rw [List.flatMap_cons, Written.bytes, List.append_assoc, List.singleton_append,
      splitLines_append _ _ hbody, ih fun l hl => h l (List.mem_cons_of_mem _ hl)]
    rfl

theorem stripReturn_body {line : Written} (h : line.Framed) :
    stripReturn line.body = bytesOf line.text := by
  unfold stripReturn Written.body
  cases line.crlf with
  | false =>
    simp only [Bool.false_eq_true, if_false, List.append_nil]
    rw [if_neg h.last]
  | true => simp

/-- Within the limit every written line is read, and nothing else. -/
theorem lines_written (lines : List Written) (h : ∀ line ∈ lines, line.Framed)
    (hlimit : (lines.flatMap Written.bytes).length ≤ MAX_LINE_BYTES) :
    (Stream.limited { bytes := lines.flatMap Written.bytes, cut := false }).lines =
      lines.map fun line => some line.text := by
  unfold Stream.lines Stream.limited
  simp only [List.take_of_length_le hlimit, splitLines_bytes lines h, Bool.false_and,
    Bool.false_eq_true, if_false, if_true, List.append_nil, List.map_map]
  refine List.map_congr_left fun line hline => ?_
  rw [Function.comp_apply, stripReturn_body (h line hline), text?_bytesOf]

end RemyCC.Server
