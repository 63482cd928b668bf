import RemyCC.Text.MarkedBlocks
import RemyCC.Text.Pattern

/-!
# References in CLAUDE.md

For each registered tag a block with a reference is kept in the file or taken
out of it, as the tag's policy is. What is looked for are the tags and the lines
of the references: the marks of the text.
-/

namespace RemyCC.Injection

open Text

section Source

/-- The keys of `REGISTRY` and of `TAG_POLICY_MAP`. -/
inductive Tag where
  | projectStructure
  | historyTimeline
  | logicTree
  deriving DecidableEq

/-- The order in which both dictionaries hold them. -/
def registry : List Tag := [.projectStructure, .historyTimeline, .logicTree]

def Tag.name : Tag → String
  | .projectStructure => "project_structure"
  | .historyTimeline => "history_timeline"
  | .logicTree => "logic_tree"

def Tag.relPath : Tag → String
  | .projectStructure => ".claude/project_tree.md"
  | .historyTimeline => ".claude/history/timeline_view.md"
  | .logicTree => ".claude/logic_tree_view.md"

def openTag (tag : Tag) : List Char := ("<" ++ tag.name ++ ">").toList

def closeTag (tag : Tag) : List Char := ("</" ++ tag.name ++ ">").toList

def refLine (tag : Tag) : List Char := ("@" ++ tag.relPath).toList

def contains (word text : List Char) : Bool := decide (word <:+: text)

/-- The pattern is `\n*<tag>.*?</tag>\n*`, where the dot is any character. -/
def removeBlock (content : List Char) (tag : Tag) : List Char :=
  removeBlocks (openTag tag) (closeTag tag) content

/-- The pattern `\n{3,}` at the start of a text. -/
def newlineRun (text : List Char) : Option (Nat × List Char) :=
  let run := (text.takeWhile newline).length
  if 3 ≤ run then some (run, ['\n', '\n']) else none

def collapse (content : List Char) : List Char := replaceMatches newlineRun 0 content

structure Draft where
  content : List Char
  changesMade : Bool

def removeReference (draft : Draft) (tag : Tag) : Draft :=
  if contains (openTag tag) draft.content then ⟨removeBlock draft.content tag, true⟩ else draft

def gap (content : List Char) : List Char :=
  if ['\n', '\n'].isSuffixOf content then [] else ['\n', '\n']

def block (tag : Tag) : List Char :=
  openTag tag ++ ['\n', '\n'] ++ refLine tag ++ ['\n', '\n'] ++ closeTag tag ++ ['\n']

def ensureReference (draft : Draft) (tag : Tag) : Draft :=
  if contains (refLine tag) draft.content then draft
  else
    let cleared :=
      if contains (openTag tag) draft.content then removeBlock draft.content tag
      else draft.content
    ⟨cleared ++ (gap cleared ++ block tag), true⟩

/-- A policy is a text; `ALWAYS` is the one that keeps the block. -/
def isAlways (policy : Tag → String) (tag : Tag) : Bool := policy tag == "ALWAYS"

def injectInto (policy : Tag → String) (content : List Char) : List Char :=
  let removed := (registry.filter (!isAlways policy ·)).foldl removeReference ⟨content, false⟩
  let ensured := (registry.filter (isAlways policy ·)).foldl ensureReference removed
  if ensured.changesMade then collapse ensured.content else content

/-- The file is created if there is none. -/
def injectAll (policy : Tag → String) (file : Option String) : String :=
  String.ofList (injectInto policy (file.getD "# System Context\n\n").toList)

example : injectAll (fun _ => "NEVER")
    (some "A\n\n<logic_tree>\n\n@.claude/logic_tree_view.md\n\n</logic_tree>\n\nB\n") = "AB\n" := by
  decide +kernel

end Source

section Vocabulary

inductive Mark where
  | opening (tag : Tag)
  | closing (tag : Tag)
  | reference (tag : Tag)
  deriving DecidableEq

def Mark.text : Mark → List Char
  | .opening tag => openTag tag
  | .closing tag => closeTag tag
  | .reference tag => refLine tag

def isLead (c : Char) : Bool := c == '<' || c == '@'

def allMarks : List Mark :=
  registry.map .opening ++ (registry.map .closing ++ registry.map .reference)

theorem mem_registry (tag : Tag) : tag ∈ registry := by
  cases tag <;> decide

theorem mem_allMarks (m : Mark) : m ∈ allMarks := by
  cases m with
  | opening tag => exact List.mem_append_left _ (List.mem_map_of_mem (mem_registry tag))
  | closing tag =>
    exact List.mem_append_right _ (List.mem_append_left _ (List.mem_map_of_mem (mem_registry tag)))
  | reference tag =>
    exact List.mem_append_right _ (List.mem_append_right _ (List.mem_map_of_mem (mem_registry tag)))

theorem marks_led (m : Mark) : ∃ c tail, m.text = c :: tail ∧ isLead c = true ∧
    ∀ d ∈ tail, isLead d = false := by
  have hall : (allMarks.all fun m => m.text.head?.any isLead && m.text.tail.all (!isLead ·)) =
      true := by decide +kernel
  have hm := List.all_eq_true.mp hall m (mem_allMarks m)
  cases htext : m.text with
  | nil => rw [htext] at hm; cases hm
  | cons c tail =>
    rw [htext, Bool.and_eq_true] at hm
    exact ⟨c, tail, rfl, hm.1, fun d hd => by simpa using List.all_eq_true.mp hm.2 d hd⟩

theorem marks_alone (m n : Mark) (h : m.text <+: n.text) : m = n := by
  have hall : (allMarks.all fun m => allMarks.all fun n =>
      !m.text.isPrefixOf n.text || decide (m = n)) = true := by decide +kernel
  have hmn := List.all_eq_true.mp (List.all_eq_true.mp hall m (mem_allMarks m)) n (mem_allMarks n)
  rw [List.isPrefixOf_iff_prefix.mpr h] at hmn
  simpa using hmn

theorem marks_inLine (m : Mark) : '\n' ∉ m.text := by
  have hall : (allMarks.all fun m => !m.text.contains '\n') = true := by decide +kernel
  have hm := List.all_eq_true.mp hall m (mem_allMarks m)
  simpa using hm

def marks : Marks Mark where
  all := allMarks
  text := Mark.text
  lead := isLead
  complete := mem_allMarks
  led := marks_led
  alone := marks_alone
  inLine := marks_inLine

end Vocabulary

end RemyCC.Injection
