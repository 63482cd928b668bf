import RemyCC.Json.Layout
import RemyCC.Server.Framing
import RemyCC.Worker.Evaluate
import RemyCC.Worker.Report

/-!
# From the printed lines to the lines that are read

However the output is cut into pieces, a reader keeps its first bytes and knows
whether there were more. Lines of JSON in it are read back line by line.
-/

namespace RemyCC.Worker

open Json (Value)
open Text Scheduler Server

section Capture

/-- What a reader has kept of the bytes read so far. -/
def captured (bytes : List UInt8) : Captured where
  bytes := bytes.take OUTPUT_LIMIT
  truncated := decide (OUTPUT_LIMIT < bytes.length)

theorem captured_take (bytes chunk : List UInt8) :
    (captured bytes).take chunk = captured (bytes ++ chunk) := by
  have hlength : (bytes.take OUTPUT_LIMIT).length = min OUTPUT_LIMIT bytes.length :=
    List.length_take
  have hbytes : chunk.take (min chunk.length (OUTPUT_LIMIT - min OUTPUT_LIMIT bytes.length)) =
      chunk.take (OUTPUT_LIMIT - bytes.length) := List.take_eq_take_iff.mpr (by omega)
  have htruncated : (decide (OUTPUT_LIMIT < bytes.length) ||
      decide (OUTPUT_LIMIT - min OUTPUT_LIMIT bytes.length < chunk.length)) =
        decide (OUTPUT_LIMIT < bytes.length + chunk.length) := by
    rw [← Bool.decide_or]
    exact decide_eq_decide.mpr (by omega)
  unfold Captured.take captured
  simp only [hlength, hbytes, htruncated, List.take_append, List.length_append]

theorem capture_fold (bytes : List UInt8) (pieces : List (List UInt8)) :
    pieces.foldl Captured.take (captured bytes) = captured (bytes ++ pieces.flatten) := by
  induction pieces generalizing bytes with
  | nil => rw [List.flatten_nil, List.append_nil, List.foldl_nil]
  | cons piece pieces ih =>
    rw [List.foldl_cons, captured_take, ih, List.flatten_cons, List.append_assoc]

theorem readPipe_eq (pieces : List (List UInt8)) : readPipe pieces = captured pieces.flatten :=
  capture_fold [] pieces

theorem splitLines_flatten (bytes : List UInt8) :
    ((splitLines bytes).1.map (· ++ [lineFeed])).flatten ++ (splitLines bytes).2 = bytes := by
  induction bytes with
  | nil => rfl
  | cons b rest ih =>
    rw [splitLines]
    split
    · next hfeed =>
      rw [List.map_cons, List.flatten_cons, List.append_assoc, ih, hfeed]
      rfl
    · split
      · next tail hsplit =>
        rw [hsplit] at ih
        exact congrArg (b :: ·) ih
      · next line lines tail hsplit =>
        rw [hsplit] at ih
        exact congrArg (b :: ·) ih

theorem chunks_flatten (bytes : List UInt8) : (chunks bytes).flatten = bytes := by
  have hbytes := splitLines_flatten bytes
  unfold chunks
  simp only [List.flatten_append]
  split
  · next htail => rwa [htail] at hbytes
  · rwa [List.flatten_singleton]

/-- Line by line, the reader of stdout keeps the same bytes as one that takes them at once. -/
theorem readStdout_captured (jobId : Int) (bytes : List UInt8) :
    (readStdout jobId bytes).1 = captured bytes := by
  have hfold := capture_fold [] (chunks bytes)
  rw [List.nil_append, chunks_flatten] at hfold
  exact hfold

end Capture

section Lines

/-- `println!` for each of the lines. -/
def printedText (lines : List String) : List Char := lines.flatMap fun line => line.toList ++ ['\n']

/-- The line stands in a text of its own: no line feed, no carriage return at its end. -/
structure Single (line : String) : Prop where
  feed : '\n' ∉ line.toList
  last : line.toList.getLast? ≠ some '\r'

theorem splitChar_printed (lines : List String) (h : ∀ line ∈ lines, Single line) :
    splitChar '\n' (printedText lines) = lines.map String.toList ++ [[]] := by
  induction lines with
  | nil => rfl
  | cons line lines ih =>
    obtain ⟨hline, hlines⟩ := List.forall_mem_cons.mp h
    rw [printedText, List.flatMap_cons, List.append_assoc, List.singleton_append,
      splitChar_append hline.feed, ← printedText, ih hlines, List.map_cons, List.cons_append]

theorem stripFeed_single {line : String} (h : Single line) :
    stripFeed line.toList = line.toList := if_neg h.last

theorem textLines_printed (lines : List String) (h : ∀ line ∈ lines, Single line) :
    textLines (String.ofList (printedText lines)) = lines := by
  unfold textLines
  rw [String.toList_ofList, splitChar_printed lines h]
  simp only [List.dropLast_concat, List.getLast?_concat, Option.toList_some, List.map_map]
  rw [List.filter_cons_of_neg (by simp), List.filter_nil, List.append_nil, List.map_map]
  refine (List.map_congr_left fun line hline => ?_).trans (List.map_id lines)
  simp only [Function.comp_apply, stripFeed_single (h line hline), String.ofList_toList, id_eq]

theorem Single.of_obj {fields : List (String × Value)} (h : Json.OneLine (.obj fields)) :
    Single (Json.print (.obj fields)) where
  feed := by
    rw [Json.print, String.toList_ofList]
    exact Json.feed_not_mem_print h
  last := by
    rw [Json.print, String.toList_ofList, Json.printChars, ← List.cons_append,
      List.getLast?_concat]
    exact fun heq => absurd (Option.some.inj heq) (by decide)

end Lines

end RemyCC.Worker
