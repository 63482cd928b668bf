import RemyCC.Files.Lexical

/-!
# The key of a file

Paths are normalised and made relative by their text alone, under the Unix
rules of `std::path`; a path is UTF-8, so that no text is lost on the way.
-/

namespace RemyCC.Discovery

open Files

section Source

structure Stack where
  front : List Char
  parts : List (List Char)

/-- The loop body of `normpath`. -/
def stack (s : Stack) : Component → Stack
  | .rootDir => { s with front := push s.front ['/'] }
  | .curDir => s
  | .parentDir =>
    if s.parts.getLast?.any (· ≠ ['.', '.']) then
      { s with parts := s.parts.dropLast }
    else if s.front = [] then { s with parts := s.parts ++ [['.', '.']] }
    else s
  | .normal name => { s with parts := s.parts ++ [name] }

def normpath (path : List Char) : List Char :=
  let s := (components path).foldl stack ⟨[], []⟩
  let out := s.parts.foldl push s.front
  if out = [] then push out ['.'] else out

def commonLength (a b : List (List Char)) : Nat :=
  ((a.zip b).takeWhile fun pair => pair.1 = pair.2).length

def relpathSlash (path base : List Char) : List Char :=
  let pathParts := (components (normpath path)).map Component.text
  let baseParts := (components (normpath base)).map Component.text
  let common := commonLength pathParts baseParts
  let segments := List.replicate (baseParts.length - common) ['.', '.'] ++ pathParts.drop common
  if segments = [] then ['.'] else List.intercalate ['/'] segments

def relPathSlash (fullPath rootDir : List Char) : List Char := relpathSlash fullPath rootDir

example : relPathSlash "/src//lib/../a.c".toList "/src/./lib".toList = "../a.c".toList := by decide

end Source

section Normal

/-- A path without superfluous parts: parents first and only below a place that is not the
root, then names. -/
structure Normal where
  absolute : Bool
  ups : Nat
  names : List (List Char)
  proper : ∀ name ∈ names, Proper name
  rooted : absolute = true → ups = 0

namespace Normal

def parts (n : Normal) : List (List Char) := steps n.ups n.names

def text (n : Normal) : List Char :=
  if spellParts n.absolute n.parts = [] then ['.'] else spellParts n.absolute n.parts

/-- Where it leads. -/
def leads (n : Normal) (place : List (List Char)) : List (List Char) :=
  (if n.absolute then [] else place.take (place.length - n.ups)) ++ n.names

/-- The stack of a normal path. -/
def Holds (n : Normal) (s : Stack) : Prop := s.front = rootText n.absolute ∧ s.parts = n.parts

variable {n : Normal} {s : Stack}

theorem Holds.down (h : n.Holds s) {name : List Char} (hname : Proper name) :
    ∃ n' : Normal, n'.absolute = n.absolute ∧ n'.Holds (stack s (.normal name)) ∧
      ∀ place, n'.leads place = follow (n.leads place) (.normal name) := by
  have hproper : ∀ part ∈ n.names ++ [name], Proper part := by
    intro part hpart
    rcases List.mem_append.mp hpart with hold | hnew
    · exact n.proper part hold
    · exact List.eq_of_mem_singleton hnew ▸ hname
  refine ⟨⟨n.absolute, n.ups, n.names ++ [name], hproper, n.rooted⟩, rfl, ⟨h.1, ?_⟩, fun place => ?_⟩
  · change s.parts ++ [name] = List.replicate n.ups ['.', '.'] ++ (n.names ++ [name])
    rw [h.2, ← List.append_assoc]
    rfl
  · exact (List.append_assoc _ _ _).symm

theorem Holds.up_name (h : n.Holds s) (hne : n.names ≠ []) :
    ∃ n' : Normal, n'.absolute = n.absolute ∧ n'.Holds (stack s .parentDir) ∧
      ∀ place, n'.leads place = follow (n.leads place) .parentDir := by
  have hlast : s.parts.getLast?.any (· ≠ ['.', '.']) = true := by
    have hproper := n.proper _ (List.getLast_mem hne)
    rw [h.2, parts, steps, List.getLast?_append, List.getLast?_eq_some_getLast hne]
    simpa using hproper.ne_dots
  have hproper : ∀ part ∈ n.names.dropLast, Proper part :=
    fun part hpart => n.proper part (List.dropLast_subset n.names hpart)
  refine ⟨⟨n.absolute, n.ups, n.names.dropLast, hproper, n.rooted⟩, rfl, ?_, fun place => ?_⟩
  · rw [stack, if_pos hlast]
    refine ⟨h.1, ?_⟩
    change s.parts.dropLast = List.replicate n.ups ['.', '.'] ++ n.names.dropLast
    rw [h.2, parts, steps, List.dropLast_append_of_ne_nil hne]
  · exact (List.dropLast_append_of_ne_nil hne).symm

theorem no_names (h : n.Holds s) (hnil : n.names = []) :
    s.parts.getLast?.any (· ≠ ['.', '.']) = false := by
  rw [h.2, parts, steps, hnil, List.append_nil]
  cases hlast : (List.replicate n.ups ['.', '.']).getLast? with
  | none => rfl
  | some last =>
    rw [List.eq_of_mem_replicate (List.mem_of_getLast? hlast)]
    rfl

theorem Holds.up_root (h : n.Holds s) (hnil : n.names = []) (habs : n.absolute = true) :
    n.Holds (stack s .parentDir) ∧
      ∀ place, n.leads place = follow (n.leads place) .parentDir := by
  have hfront : s.front ≠ [] := by
    rw [h.1, habs]
    exact List.cons_ne_nil _ _
  constructor
  · rw [stack, no_names h hnil, if_neg Bool.false_ne_true, if_neg hfront]
    exact h
  · intro place
    unfold leads
    rw [if_pos habs, hnil]
    rfl

theorem Holds.up_parent (h : n.Holds s) (hnil : n.names = []) (hrel : n.absolute = false) :
    ∃ n' : Normal, n'.absolute = n.absolute ∧ n'.Holds (stack s .parentDir) ∧
      ∀ place, n'.leads place = follow (n.leads place) .parentDir := by
  have hfront : s.front = [] := by
    rw [h.1, hrel]
    rfl
  have hnames : ∀ part ∈ ([] : List (List Char)), Proper part := List.forall_mem_nil _
  have hrooted : n.absolute = true → n.ups + 1 = 0 := by
    intro habs
    rw [hrel] at habs
    cases habs
  refine ⟨⟨n.absolute, n.ups + 1, [], hnames, hrooted⟩, rfl, ?_, fun place => ?_⟩
  · rw [stack, no_names h hnil, if_neg Bool.false_ne_true, if_pos hfront]
    refine ⟨h.1, ?_⟩
    change s.parts ++ [['.', '.']] = List.replicate (n.ups + 1) ['.', '.'] ++ []
    rw [h.2, parts, steps, hnil, List.append_nil, List.append_nil, List.replicate_succ']
  · change (if n.absolute then [] else place.take (place.length - (n.ups + 1))) ++ [] =
      ((if n.absolute then [] else place.take (place.length - n.ups)) ++ n.names).dropLast
    rw [hrel, hnil, if_neg Bool.false_ne_true, if_neg Bool.false_ne_true, List.append_nil,
      List.append_nil, List.dropLast_eq_take, List.take_take, List.length_take]
    congr 1
    omega

/-- One component more leaves a normal path, and leads where the component does. -/
theorem Holds.step (h : n.Holds s) {c : Component} (hroot : c ≠ .rootDir)
    (hname : ∀ name, c = .normal name → Proper name) :
    ∃ n' : Normal, n'.absolute = n.absolute ∧ n'.Holds (stack s c) ∧
      ∀ place, n'.leads place = follow (n.leads place) c := by
  cases c with
  | rootDir => exact absurd rfl hroot
  | curDir => exact ⟨n, rfl, h, fun _ => rfl⟩
  | normal name => exact h.down (hname name rfl)
  | parentDir =>
    by_cases hnil : n.names = []
    · cases habs : n.absolute with
      | true => exact ⟨n, habs, h.up_root hnil habs⟩
      | false => exact habs ▸ h.up_parent hnil habs
    · exact h.up_name hnil

theorem Holds.run {cs : List Component} (h : n.Holds s) (hroot : ∀ c ∈ cs, c ≠ .rootDir)
    (hname : ∀ name, .normal name ∈ cs → Proper name) :
    ∃ n' : Normal, n'.absolute = n.absolute ∧ n'.Holds (cs.foldl stack s) ∧
      ∀ place, n'.leads place = cs.foldl follow (n.leads place) := by
  induction cs generalizing n s with
  | nil => exact ⟨n, rfl, h, fun _ => rfl⟩
  | cons c cs ih =>
    obtain ⟨m, habs, hm, hleads⟩ := h.step (hroot c List.mem_cons_self)
      fun name hc => hname name (hc ▸ List.mem_cons_self)
    obtain ⟨n', habs', hn', hleads'⟩ := ih hm
      (fun d hd => hroot d (List.mem_cons_of_mem _ hd))
      fun name hd => hname name (List.mem_cons_of_mem _ hd)
    refine ⟨n', habs'.trans habs, hn', fun place => ?_⟩
    rw [hleads', hleads]
    rfl

end Normal

end Normal

section Normpath

theorem mem_components {path : List Char} {c : Component} (h : c ∈ components path) :
    c = .rootDir ∧ isAbsolute path = true ∨ c = .curDir ∨
      ∃ part ∈ partsOf path, Component.ofPart? part = some c := by
  unfold components at h
  split at h
  · next habs =>
    rcases List.mem_cons.mp h with rfl | h
    · exact Or.inl ⟨rfl, habs⟩
    · exact Or.inr (Or.inr (List.mem_filterMap.mp h))
  · split at h
    · rcases List.mem_cons.mp h with rfl | h
      · exact Or.inr (Or.inl rfl)
      · exact Or.inr (Or.inr (List.mem_filterMap.mp h))
    · exact Or.inr (Or.inr (List.mem_filterMap.mp h))

theorem ofPart?_normal {part : List Char} {c : Component} (h : Component.ofPart? part = some c) :
    c ≠ .rootDir ∧ ∀ name, c = .normal name → name = part ∧ part ≠ [] ∧ part ≠ ['.'] ∧
      part ≠ ['.', '.'] := by
  unfold Component.ofPart? at h
  split at h
  · cases h
  · next hhere =>
    rw [not_or] at hhere
    split at h
    · cases h
      exact ⟨by decide, fun name hname => by cases hname⟩
    · next hup =>
      cases h
      exact ⟨Component.noConfusion, fun name hname =>
        ⟨(Component.normal.inj hname).symm, hhere.1, hhere.2, hup⟩⟩

theorem proper_of_mem {path name : List Char} (h : .normal name ∈ components path) :
    Proper name := by
  rcases mem_components h with ⟨hroot, -⟩ | hcur | ⟨part, hpart, hof⟩
  · cases hroot
  · cases hcur
  · obtain ⟨rfl, hne, hdot, hdots⟩ := (ofPart?_normal hof).2 name rfl
    exact ⟨hne, hdot, hdots, slashless_of_mem hpart⟩

/-- The components behind the root, and the place they start from. -/
theorem components_tail (path : List Char) : ∃ cs, (∀ c ∈ cs, c ≠ .rootDir) ∧
    (∀ name, .normal name ∈ cs → Proper name) ∧
    components path = (if isAbsolute path then [.rootDir] else []) ++ cs := by
  have htail : ∀ c ∈ (partsOf path).filterMap Component.ofPart?, c ≠ .rootDir := by
    intro c hc
    obtain ⟨part, -, hpart⟩ := List.mem_filterMap.mp hc
    exact (ofPart?_normal hpart).1
  have hcur : ∀ c ∈ .curDir :: (partsOf path).filterMap Component.ofPart?, c ≠ .rootDir := by
    intro c hc
    rcases List.mem_cons.mp hc with rfl | hc
    · decide
    · exact htail c hc
  have hproper : ∀ name, .normal name ∈ components path → Proper name := fun _ => proper_of_mem
  unfold components at hproper ⊢
  split
  · next habs =>
    rw [if_pos habs] at hproper
    exact ⟨_, htail, fun name hname => hproper name (List.mem_cons_of_mem _ hname), rfl⟩
  · next habs =>
    rw [if_neg habs] at hproper
    split
    · next hdot =>
      rw [if_pos hdot] at hproper
      exact ⟨_, hcur, hproper, rfl⟩
    · next hdot =>
      rw [if_neg hdot] at hproper
      exact ⟨_, htail, hproper, rfl⟩

def start (absolute : Bool) : Normal :=
  ⟨absolute, 0, [], List.forall_mem_nil _, fun _ => rfl⟩

theorem start_holds (absolute : Bool) : (start absolute).Holds ⟨rootText absolute, []⟩ := ⟨rfl, rfl⟩

theorem start_leads (absolute : Bool) (place : List (List Char)) :
    (start absolute).leads place = if absolute then [] else place := by
  cases absolute with
  | true => rfl
  | false =>
    change place.take (place.length - 0) ++ [] = place
    rw [Nat.sub_zero, List.take_length, List.append_nil]

theorem Normal.spelled {n : Normal} {s : Stack} (h : n.Holds s) :
    (if s.parts.foldl push s.front = [] then push (s.parts.foldl push s.front) ['.']
      else s.parts.foldl push s.front) = n.text := by
  have hspell : s.parts.foldl push s.front = spellParts n.absolute n.parts := by
    rw [h.1, h.2]
    exact foldl_push n.absolute (slashless_steps n.proper)
  rw [hspell, Normal.text]
  split
  · next hnil =>
    rw [hnil]
    rfl
  · rfl

/-- What is normalised is a normal path that leads where the path does. -/
theorem normpath_normal (path : List Char) : ∃ n : Normal, n.absolute = isAbsolute path ∧
    normpath path = n.text ∧ ∀ place, n.leads place = reach place path := by
  obtain ⟨cs, hroot, hproper, hcomponents⟩ := components_tail path
  obtain ⟨n, habs, hn, hleads⟩ := (start_holds (isAbsolute path)).run hroot hproper
  have hstack : (components path).foldl stack ⟨[], []⟩ =
      cs.foldl stack ⟨rootText (isAbsolute path), []⟩ := by
    rw [hcomponents]
    cases isAbsolute path with
    | true => rfl
    | false => rfl
  refine ⟨n, habs, ?_, fun place => ?_⟩
  · unfold normpath
    rw [hstack]
    exact Normal.spelled hn
  · rw [hleads, start_leads, reach_eq, hcomponents]
    cases isAbsolute path with
    | true => rfl
    | false => rfl

theorem foldl_stack_up (count ups : Nat) :
    (List.replicate count Component.parentDir).foldl stack ⟨[], List.replicate ups ['.', '.']⟩ =
      ⟨[], List.replicate (ups + count) ['.', '.']⟩ := by
  induction count generalizing ups with
  | zero => rfl
  | succ count ih =>
    have hlast : (List.replicate ups ['.', '.']).getLast?.any (· ≠ ['.', '.']) = false := by
      cases hlast : (List.replicate ups ['.', '.']).getLast? with
      | none => rfl
      | some last =>
        rw [List.eq_of_mem_replicate (List.mem_of_getLast? hlast)]
        rfl
    have hstep : stack ⟨[], List.replicate ups ['.', '.']⟩ .parentDir =
        ⟨[], List.replicate (ups + 1) ['.', '.']⟩ := by
      rw [stack, hlast, if_neg Bool.false_ne_true, if_pos rfl, List.replicate_succ']
    rw [List.replicate_succ, List.foldl_cons, hstep, ih, Nat.add_right_comm, Nat.add_assoc]

theorem foldl_stack_names (names : List (List Char)) (s : Stack) :
    (names.map Component.normal).foldl stack s = ⟨s.front, s.parts ++ names⟩ := by
  induction names generalizing s with
  | nil =>
    rw [List.append_nil]
    rfl
  | cons name names ih =>
    rw [List.map_cons, List.foldl_cons, ih]
    change Stack.mk s.front (s.parts ++ [name] ++ names) = _
    rw [List.append_assoc, List.singleton_append]

theorem Normal.stacked (n : Normal) :
    (components (spellParts n.absolute n.parts)).foldl stack ⟨[], []⟩ =
      ⟨rootText n.absolute, n.parts⟩ := by
  rw [Normal.parts, components_spell n.absolute n.ups n.proper, List.foldl_append,
    List.foldl_append, foldl_stack_names]
  cases habs : n.absolute with
  | true =>
    rw [n.rooted habs]
    rfl
  | false =>
    have hups := foldl_stack_up n.ups 0
    rw [Nat.zero_add] at hups
    change Stack.mk ((List.replicate n.ups Component.parentDir).foldl stack ⟨[], []⟩).front
      (((List.replicate n.ups Component.parentDir).foldl stack ⟨[], []⟩).parts ++ n.names) = _
    rw [show (⟨[], []⟩ : Stack) = ⟨[], List.replicate 0 ['.', '.']⟩ from rfl, hups]
    rfl

/-- A normal path is left as it is. -/
theorem normpath_text (n : Normal) : normpath n.text = n.text := by
  have hholds : n.Holds ⟨rootText n.absolute, n.parts⟩ := ⟨rfl, rfl⟩
  by_cases hnil : spellParts n.absolute n.parts = []
  · rw [Normal.text, if_pos hnil]
    decide
  · have htext : n.text = spellParts n.absolute n.parts := if_neg hnil
    unfold normpath
    rw [htext, n.stacked, ← htext]
    exact Normal.spelled hholds

theorem normpath_normpath (path : List Char) : normpath (normpath path) = normpath path := by
  obtain ⟨n, -, hn, -⟩ := normpath_normal path
  rw [hn, normpath_text]

theorem isAbsolute_text (n : Normal) : isAbsolute n.text = n.absolute := by
  cases habs : n.absolute with
  | true =>
    rw [Normal.text, habs]
    rfl
  | false =>
    rw [Normal.text, habs]
    split
    · rfl
    · exact isAbsolute_intercalate (slashless_steps n.proper)

/-- A normal path leads where it says. -/
theorem reach_text (n : Normal) (place : List (List Char)) : reach place n.text = n.leads place := by
  rw [Normal.text]
  split
  · next hnil =>
    have hcomponents := components_spell n.absolute n.ups n.proper
    change components (spellParts n.absolute n.parts) = _ at hcomponents
    rw [hnil] at hcomponents
    cases habs : n.absolute with
    | true =>
      rw [habs] at hnil
      exact absurd hnil (List.cons_ne_nil _ _)
    | false =>
      rw [habs, if_neg Bool.false_ne_true, List.nil_append] at hcomponents
      have hups := List.append_eq_nil_iff.mp hcomponents.symm
      have hzero : n.ups = 0 := (List.replicate_eq_nil_iff _).mp hups.1
      have hnames : n.names = [] := List.map_eq_nil_iff.mp hups.2
      rw [Normal.leads, habs, hzero, hnames, Nat.sub_zero, List.take_length]
      exact (List.append_nil _).symm
  · rw [reach_eq, Normal.parts, components_spell n.absolute n.ups n.proper, List.foldl_append,
      List.foldl_append, foldl_follow_up, foldl_follow_names, Normal.leads]
    cases habs : n.absolute with
    | true => rw [n.rooted habs]; rfl
    | false => rfl

end Normpath

section Relative

/-- A normal path that leads to a place from the root. -/
def rooted (names : List (List Char)) (h : ∀ name ∈ names, Proper name) : Normal :=
  ⟨true, 0, names, h, fun _ => rfl⟩

theorem proper_reach (path : List Char) (h : isAbsolute path = true) :
    ∀ name ∈ reach [] path, Proper name := by
  obtain ⟨n, habs, -, hleads⟩ := normpath_normal path
  have hnames : n.leads [] = n.names := by rw [Normal.leads, habs.trans h]; rfl
  rw [← hleads, hnames]
  exact n.proper

/-- An absolute path is normalised to the names on its way. -/
theorem normpath_absolute {path : List Char} (h : isAbsolute path = true) :
    normpath path = '/' :: List.intercalate ['/'] (reach [] path) := by
  obtain ⟨n, habs, htext, hleads⟩ := normpath_normal path
  have habsolute : n.absolute = true := habs.trans h
  have hnames : n.leads [] = n.names := by rw [Normal.leads, habsolute]; rfl
  rw [htext, ← hleads, hnames, Normal.text, Normal.parts, habsolute, n.rooted habsolute]
  rfl

theorem normpath_eq_iff {path other : List Char} (h : isAbsolute path = true)
    (hother : isAbsolute other = true) :
    normpath path = normpath other ↔ reach [] path = reach [] other := by
  constructor
  · intro heq
    obtain ⟨n, -, htext, hleads⟩ := normpath_normal path
    obtain ⟨m, -, htext', hleads'⟩ := normpath_normal other
    rw [← hleads, ← hleads', ← reach_text, ← reach_text, ← htext, ← htext', heq]
  · intro heq
    rw [normpath_absolute h, normpath_absolute hother, heq]

theorem components_normpath {path : List Char} (h : isAbsolute path = true) :
    (components (normpath path)).map Component.text = ['/'] :: reach [] path := by
  have hproper := proper_reach path h
  rw [normpath_absolute h]
  have hspell := components_spell true 0 hproper
  have htexts : ((reach [] path).map Component.normal).map Component.text = reach [] path := by
    rw [List.map_map]
    exact List.map_id'' (fun _ => rfl) _
  change components ('/' :: List.intercalate ['/'] (reach [] path)) = _ at hspell
  rw [hspell]
  change ['/'] :: ((reach [] path).map Component.normal).map Component.text = _
  rw [htexts]

theorem take_commonLength (a b : List (List Char)) :
    a.take (commonLength a b) = b.take (commonLength a b) := by
  unfold commonLength
  induction a generalizing b with
  | nil => rw [List.zip_nil_left]; rfl
  | cons x a ih =>
    cases b with
    | nil => rfl
    | cons y b =>
      rw [List.zip_cons_cons, List.takeWhile_cons]
      by_cases hxy : x = y
      · rw [if_pos (decide_eq_true hxy), List.length_cons, List.take_succ_cons,
          List.take_succ_cons, ih, hxy]
      · rw [if_neg (by simpa using hxy)]
        rfl

theorem commonLength_cons (x : List Char) (a b : List (List Char)) :
    commonLength (x :: a) (x :: b) = commonLength a b + 1 := by
  unfold commonLength
  rw [List.zip_cons_cons, List.takeWhile_cons, if_pos (decide_eq_true rfl), List.length_cons]

theorem relative_text (n : Normal) (h : n.absolute = false) :
    (if n.parts = [] then ['.'] else List.intercalate ['/'] n.parts) = n.text := by
  have hspell : spellParts n.absolute n.parts = List.intercalate ['/'] n.parts := by rw [h]; rfl
  rw [Normal.text, hspell]
  cases hparts : n.parts with
  | nil => rfl
  | cons part parts =>
    have hpart : part ≠ [] :=
      (slashless_steps n.proper part (hparts ▸ List.mem_cons_self)).1
    rw [if_neg (List.cons_ne_nil _ _), intercalate_eq,
      if_neg (List.append_ne_nil_of_left_ne_nil hpart _)]

/-- The steps from the root directory to the file. -/
theorem relpathSlash_eq {full root : List Char} (hfull : isAbsolute full = true)
    (hroot : isAbsolute root = true) :
    ∃ n : Normal, n.absolute = false ∧ relpathSlash full root = n.text ∧
      n.leads (reach [] root) = reach [] full := by
  have hcommon := take_commonLength (reach [] full) (reach [] root)
  have hdrop : ∀ name ∈ (reach [] full).drop (commonLength (reach [] full) (reach [] root)),
      Proper name := fun name hname => proper_reach full hfull name (List.mem_of_mem_drop hname)
  have hrelative : false = true →
      (reach [] root).length - commonLength (reach [] full) (reach [] root) = 0 := by
    intro h
    cases h
  refine ⟨⟨false, _, _, hdrop, hrelative⟩, rfl, ?_, ?_⟩
  · have hbase : (reach [] root).length + 1 - (commonLength (reach [] full) (reach [] root) + 1) =
        (reach [] root).length - commonLength (reach [] full) (reach [] root) := by omega
    simp only [relpathSlash, components_normpath hfull, components_normpath hroot,
      commonLength_cons, List.length_cons, List.drop_succ_cons, hbase]
    exact relative_text ⟨false, _, _, hdrop, hrelative⟩ rfl
  · change (reach [] root).take ((reach [] root).length - ((reach [] root).length -
      commonLength (reach [] full) (reach [] root))) ++ _ = _
    have hlength : commonLength (reach [] full) (reach [] root) ≤ (reach [] root).length := by
      unfold commonLength
      refine Nat.le_trans (List.takeWhile_sublist _).length_le ?_
      rw [List.length_zip]
      exact Nat.min_le_right _ _
    rw [Nat.sub_sub_self hlength, ← hcommon, List.take_append_drop]

/-- The file is found again from the root directory. -/
theorem normpath_join {full root : List Char} (hfull : isAbsolute full = true)
    (hroot : isAbsolute root = true) :
    normpath (push root (relpathSlash full root)) = normpath full := by
  obtain ⟨n, hrel, htext, hleads⟩ := relpathSlash_eq hfull hroot
  have hrelative : isAbsolute (relpathSlash full root) = false := by
    rw [htext, isAbsolute_text, hrel]
  have hjoined : isAbsolute (push root (relpathSlash full root)) = true := by
    have hne : root ≠ [] := by
      rintro rfl
      cases hroot
    rw [push, hrelative, if_neg Bool.false_ne_true]
    split
    · rw [isAbsolute_append hne, hroot]
    · rw [isAbsolute_append hne, hroot]
  rw [normpath_eq_iff hjoined hfull, reach_push [] root hrelative, htext, reach_text, hleads]

theorem relPathSlash_eq_iff {full other root : List Char} (hfull : isAbsolute full = true)
    (hother : isAbsolute other = true) (hroot : isAbsolute root = true) :
    relPathSlash full root = relPathSlash other root ↔ reach [] full = reach [] other := by
  rw [← normpath_eq_iff hfull hother]
  constructor
  · intro heq
    rw [← normpath_join hfull hroot, ← normpath_join hother hroot]
    exact congrArg (fun rel => normpath (push root rel)) heq
  · intro heq
    unfold relPathSlash relpathSlash
    rw [heq]

end Relative

structure AbsolutePath where
  text : List Char
  absolute : isAbsolute text = true

/-- Normalising is idempotent, keeps where a path leads and leaves a normal path; a key,
joined to the root directory, is the file again, and two files have one key only if they
are one place. -/
theorem paths_exact :
    (∀ path, normpath (normpath path) = normpath path) ∧
      (∀ place path, reach place (normpath path) = reach place path) ∧
      (∀ path, ∃ n : Normal, n.absolute = isAbsolute path ∧ normpath path = n.text) ∧
      (∀ full root : AbsolutePath,
        normpath (push root.text (relpathSlash full.text root.text)) = normpath full.text) ∧
      ∀ full other root : AbsolutePath,
        relPathSlash full.text root.text = relPathSlash other.text root.text ↔
          reach [] full.text = reach [] other.text := by
  refine ⟨normpath_normpath, fun place path => ?_, fun path => ?_, fun full root => ?_,
    fun full other root => ?_⟩
  · obtain ⟨n, -, htext, hleads⟩ := normpath_normal path
    rw [htext, reach_text, hleads]
  · obtain ⟨n, habs, htext, -⟩ := normpath_normal path
    exact ⟨n, habs, htext⟩
  · exact normpath_join full.absolute root.absolute
  · exact relPathSlash_eq_iff full.absolute other.absolute root.absolute

end RemyCC.Discovery
