import RemyCC.Install.Absorb
import RemyCC.Install.Restore

/-!
# Merging again under the own claim

The second merge takes the claimed hooks of the targets out and puts them back.
They come back to their places if the template names each target last at its
event and nothing else under a target runs a command that the template installs.
-/

namespace RemyCC.Install

open Json Json.Value Text

section Trimming

theorem dropWhile_append_stop {α : Type} {p : α → Bool} {l l' : List α} (h : l <+: l'.dropWhile p) :
    l.dropWhile p = l := by
  cases l with
  | nil => rfl
  | cons x l =>
    obtain ⟨rest, hrest⟩ := h
    have hnot := List.head?_dropWhile_not p l'
    rw [← hrest] at hnot
    exact List.dropWhile_cons_of_neg (by simpa using hnot)

theorem trim_trim (s : String) : trim (trim s) = trim s := by
  unfold trim
  rw [String.toList_ofList]
  generalize hback : (s.toList.dropWhile isWhitespace).reverse.dropWhile isWhitespace = back
  have hfront : back.reverse <+: s.toList.dropWhile isWhitespace := by
    rw [← List.reverse_suffix, List.reverse_reverse, ← hback]
    exact List.dropWhile_suffix _
  have hself : back.dropWhile isWhitespace = back := by
    rw [← hback]
    exact dropWhile_append_stop (List.prefix_refl _)
  rw [dropWhile_append_stop hfront, List.reverse_reverse, hself]

theorem trim_hookCommand {hook : Value} {command : String} (h : hookCommand hook = some command) :
    trim command = command := by
  obtain ⟨text, -, rfl⟩ := Option.map_eq_some_iff.mp h
  exact trim_trim text

end Trimming

section Clear

variable {join : String → String → String} {roots : Roots} {target : TargetHook}
  {claimed : List String} {list kept entries : List Value} {entry hook : Value}

def matcherOf (entry : Value) : String := stringView (entry.get "matcher")

/-- The claims that stand for some commands at a target. -/
def claimsAt (target : TargetHook) (commands : List String) : List ClaimedHook :=
  commands.map (ClaimedHook.mk target.event target.matcher)

theorem isClaimed_claimsAt (matcher : String) (hook : Value) :
    isClaimed (claimsAt target claimed) matcher hook =
      (matcher == target.matcher && (hookCommand hook).any claimed.contains) := by
  rw [Bool.eq_iff_iff]
  simp only [isClaimed, claimsAt, List.any_map, List.any_eq_true, Function.comp_apply,
    Bool.and_eq_true, beq_iff_eq, Option.any_eq_true, List.contains_iff_mem]
  constructor
  · rintro ⟨command, hmem, hmatcher, hcommand⟩
    exact ⟨hmatcher.symm, command, hcommand, hmem⟩
  · rintro ⟨hmatcher, command, hcommand, hmem⟩
    exact ⟨command, hmem, hmatcher.symm, hcommand⟩

/-- The hooks of a target that are not claimed are none of the installer's. -/
def Settled (join : String → String → String) (roots : Roots) (target : TargetHook)
    (claimed : List String) (entry : Value) : Prop :=
  matcherOf entry = target.matcher → ∀ hook ∈ hooksOf entry, ∀ command,
    hookCommand hook = some command → claimed.contains command = true ∨
      isLegacy join roots target command = false ∧ isModified target command = false

theorem clearHooks_spec (h : clearHooks join roots claimed target list = .ok kept) :
    ∀ hook ∈ kept, hook ∈ list ∧ ∀ command, hookCommand hook = some command →
      claimed.contains command = false ∧ isLegacy join roots target command = false ∧
        isModified target command = false := by
  induction list generalizing kept with
  | nil =>
    cases h
    exact fun _ hhook => absurd hhook List.not_mem_nil
  | cons first list ih =>
    rw [clearHooks] at h
    cases hcommand : hookCommand first with
    | none =>
      rw [hcommand] at h
      obtain ⟨rest, hrest, hkept⟩ := bind_eq_ok h
      cases hkept
      refine List.forall_mem_cons.mpr ⟨⟨List.mem_cons_self, fun command hc => ?_⟩, fun hook hhook => ?_⟩
      · rw [hcommand] at hc
        cases hc
      · exact ⟨List.mem_cons_of_mem _ (ih hrest hook hhook).1, (ih hrest hook hhook).2⟩
    | some command =>
      rw [hcommand] at h
      simp only at h
      split at h
      · intro hook hhook
        exact ⟨List.mem_cons_of_mem _ (ih h hook hhook).1, (ih h hook hhook).2⟩
      · next hkeep =>
        split at h
        · cases h
        · next hmodified =>
          obtain ⟨rest, hrest, hkept⟩ := bind_eq_ok h
          cases hkept
          rw [Bool.not_eq_true, Bool.or_eq_false_iff] at hkeep
          refine List.forall_mem_cons.mpr ⟨⟨List.mem_cons_self, fun other hc => ?_⟩,
            fun hook hhook => ?_⟩
          · rw [hcommand] at hc
            cases hc
            exact ⟨hkeep.1, hkeep.2, Bool.eq_false_iff.mpr hmodified⟩
          · exact ⟨List.mem_cons_of_mem _ (ih hrest hook hhook).1, (ih hrest hook hhook).2⟩

/-- Clearing succeeds on settled hooks and takes out what is claimed. -/
theorem clearHooks_of_settled (h : ∀ hook ∈ list, ∀ command, hookCommand hook = some command →
    claimed.contains command = true ∨
      isLegacy join roots target command = false ∧ isModified target command = false) :
    clearHooks join roots claimed target list =
      .ok (list.filter fun hook => !(hookCommand hook).any claimed.contains) := by
  induction list with
  | nil => rfl
  | cons hook list ih =>
    obtain ⟨hhook, hlist⟩ := List.forall_mem_cons.mp h
    rw [clearHooks]
    cases hcommand : hookCommand hook with
    | none =>
      rw [List.filter_cons_of_pos (by rw [hcommand]; rfl), ih hlist]
      rfl
    | some command =>
      simp only
      rcases hhook command hcommand with hclaimed | ⟨hlegacy, hmodified⟩
      · rw [hclaimed, Bool.true_or, if_pos rfl, ih hlist,
          List.filter_cons_of_neg (by rw [hcommand, Option.any_some, hclaimed]; decide)]
      · cases hclaimed : claimed.contains command with
        | true =>
          rw [Bool.true_or, if_pos rfl, ih hlist,
            List.filter_cons_of_neg (by rw [hcommand, Option.any_some, hclaimed]; decide)]
        | false =>
          rw [hlegacy, Bool.or_false, if_neg Bool.false_ne_true, hmodified,
            if_neg Bool.false_ne_true, ih hlist,
            List.filter_cons_of_pos (by rw [hcommand, Option.any_some, hclaimed]; rfl)]
          rfl

theorem clearEntry_of_settled (h : Settled join roots target claimed entry) :
    clearEntry join roots claimed target entry =
      .ok (withoutClaimed (claimsAt target claimed) entry) := by
  cases entry with
  | obj fields =>
    have hview : matcherOf (.obj fields) = matcherView fields := rfl
    simp only [clearEntry]
    cases hfield : field fields "hooks" with
    | none => simp only [withoutClaimed, hfield, ite_self]
    | some v =>
      cases v with
      | arr list =>
        have hhooks : hooksOf (.obj fields) = list := by rw [hooksOf, get_obj, hfield]; rfl
        rw [withoutClaimed_list hfield]
        simp only [isClaimed_claimsAt]
        split
        · next hmatcher =>
          have hall : list.filter (fun hook => !(matcherView fields == target.matcher &&
              (hookCommand hook).any claimed.contains)) = list :=
            List.filter_eq_self.mpr fun hook _ => by
              rw [beq_eq_false_iff_ne.mpr hmatcher, Bool.false_and]
              rfl
          rw [hall, setField_self hfield]
        · next hmatcher =>
          have heq : matcherView fields = target.matcher := not_not.mp hmatcher
          rw [clearHooks_of_settled (hhooks ▸ h (hview.trans heq)), heq]
          simp only [beq_self_eq_true, Bool.true_and]
          rfl
      | null | bool | int | float | str | obj => simp only [withoutClaimed, hfield, ite_self]
  | null | bool | int | float | str | arr => rfl

theorem retain_withoutClaimed (claims : List ClaimedHook) (entries : List Value) :
    retainNonempty (entries.map (withoutClaimed claims)) = entries.filterMap (restoreEntry claims) := by
  unfold retainNonempty
  induction entries with
  | nil => rfl
  | cons entry entries ih =>
    rw [List.map_cons, List.filter_cons, List.filterMap_cons, restoreEntry, ih]
    split <;> rfl

theorem clearEntries_of_settled (h : ∀ entry ∈ entries, Settled join roots target claimed entry) :
    clearEntries join roots claimed target entries =
      .ok (entries.map (withoutClaimed (claimsAt target claimed))) := by
  induction entries with
  | nil => rfl
  | cons entry entries ih =>
    obtain ⟨hentry, hentries⟩ := List.forall_mem_cons.mp h
    rw [clearEntries, clearEntry_of_settled hentry, ih hentries]
    rfl

/-- What a cleared entry holds under the target was there before and stays. -/
theorem clearEntry_spec_claimed {cleared : Value}
    (h : clearEntry join roots claimed target entry = .ok cleared)
    (hmatcher : matcherOf cleared = target.matcher) :
    matcherOf entry = target.matcher ∧ ∀ hook ∈ hooksOf cleared, hook ∈ hooksOf entry ∧
      ∀ command, hookCommand hook = some command → claimed.contains command = false ∧
        isLegacy join roots target command = false ∧ isModified target command = false := by
  cases entry with
  | obj fields =>
    simp only [clearEntry] at h
    split at h
    · next hother =>
      cases h
      exact absurd hmatcher hother
    · next hsame =>
      refine ⟨not_not.mp hsame, ?_⟩
      cases hfield : field fields "hooks" with
      | none =>
        rw [hfield] at h
        cases h
        rw [hooksOf, get_obj, hfield]
        exact fun _ hhook => absurd hhook List.not_mem_nil
      | some v =>
        rw [hfield] at h
        cases v with
        | arr list =>
          obtain ⟨kept, hkept, h⟩ := bind_eq_ok h
          cases h
          rw [hooksOf, hooksOf, get_obj, get_obj, field_setField_self, hfield]
          exact clearHooks_spec hkept
        | null | bool | int | float | str | obj =>
          cases h
          rw [hooksOf, get_obj, hfield]
          exact fun _ hhook => absurd hhook List.not_mem_nil
  | null | bool | int | float | str | arr =>
    cases h
    exact ⟨hmatcher, fun _ hhook => absurd hhook List.not_mem_nil⟩

theorem mem_clearEntries {cleared : List Value}
    (h : clearEntries join roots claimed target entries = .ok cleared) :
    ∀ c ∈ cleared, ∃ entry ∈ entries, clearEntry join roots claimed target entry = .ok c := by
  induction entries generalizing cleared with
  | nil =>
    cases h
    exact fun _ hc => absurd hc List.not_mem_nil
  | cons entry entries ih =>
    obtain ⟨first, hfirst, h⟩ := bind_eq_ok h
    obtain ⟨rest, hrest, h⟩ := bind_eq_ok h
    cases h
    refine List.forall_mem_cons.mpr ⟨⟨entry, List.mem_cons_self, hfirst⟩, fun c hc => ?_⟩
    obtain ⟨entry', hentry', hcleared⟩ := ih hrest c hc
    exact ⟨entry', List.mem_cons_of_mem _ hentry', hcleared⟩

/-- The hooks under a target at its event. -/
def hooksUnder (target : TargetHook) (entries : List Value) : List Value :=
  (entries.filter fun entry => matcherOf entry == target.matcher).flatMap hooksOf

/-- Entries that clearing with these commands claimed would leave as they are. -/
structure Calm (join : String → String → String) (roots : Roots) (target : TargetHook)
    (commands : List String) (entries : List Value) : Prop where
  settled : ∀ entry ∈ entries, Settled join roots target [] entry
  unclaimed : entries.filterMap (restoreEntry (claimsAt target commands)) = entries

theorem calm_iff_restored {commands : List String} :
    entries.filterMap (restoreEntry (claimsAt target commands)) = entries ↔
      ∀ entry ∈ entries, holdsHooks entry = true ∧ (matcherOf entry = target.matcher →
        ∀ hook ∈ hooksOf entry, ∀ command, hookCommand hook = some command →
          command ∉ commands) := by
  rw [filterMap_eq_self_iff]
  refine forall₂_congr fun entry _ => ?_
  rw [restoreEntry_eq_some_iff]
  refine and_congr_right fun _ => ?_
  simp only [isClaimed_claimsAt, Bool.and_eq_false_imp, beq_iff_eq, matcherOf]
  constructor
  · intro h hmatcher hook hhook command hcommand hmem
    have hnot := h hook hhook hmatcher
    rw [hcommand, Option.any_some, List.contains_iff_mem.mpr hmem] at hnot
    cases hnot
  · intro h hook hhook hmatcher
    cases hcommand : hookCommand hook with
    | none => rfl
    | some command =>
      rw [Option.any_some, Bool.eq_false_iff]
      exact fun hmem => h hmatcher hook hhook command hcommand (List.contains_iff_mem.mp hmem)

/-- After the first clearing nothing is left to clear, unless a hook that stays runs
a command of the template. -/
theorem clearEntries_calm {commands : List String} {cleared : List Value}
    (h : clearEntries join roots claimed target entries = .ok cleared)
    (hown : ∀ hook ∈ hooksUnder target entries, ∀ command, hookCommand hook = some command →
      command ∈ commands → claimed.contains command = true ∨ isLegacy join roots target command = true) :
    Calm join roots target commands (retainNonempty cleared) := by
  have hspec : ∀ c ∈ cleared, matcherOf c = target.matcher → ∀ hook ∈ hooksOf c, ∀ command,
      hookCommand hook = some command → command ∉ commands ∧
        isLegacy join roots target command = false ∧ isModified target command = false := by
    intro c hc hmatcher hook hhook command hcommand
    obtain ⟨entry, hentry, hcleared⟩ := mem_clearEntries h c hc
    obtain ⟨hentryMatcher, hhooks⟩ := clearEntry_spec_claimed hcleared hmatcher
    obtain ⟨hmem, hclean⟩ := hhooks hook hhook
    obtain ⟨hunclaimed, hlegacy, hmodified⟩ := hclean command hcommand
    refine ⟨fun hin => ?_, hlegacy, hmodified⟩
    have hunder : hook ∈ hooksUnder target entries := List.mem_flatMap.mpr
      ⟨entry, List.mem_filter.mpr ⟨hentry, beq_iff_eq.mpr hentryMatcher⟩, hmem⟩
    rcases hown hook hunder command hcommand hin with hclaimed | hold
    · rw [hunclaimed] at hclaimed
      cases hclaimed
    · rw [hlegacy] at hold
      cases hold
  refine ⟨fun c hc hmatcher hook hhook command hcommand => .inr ?_, calm_iff_restored.mpr fun c hc => ?_⟩
  · exact (hspec c (List.mem_filter.mp hc).1 hmatcher hook hhook command hcommand).2
  · obtain ⟨hc, hholds⟩ := List.mem_filter.mp hc
    exact ⟨hholds, fun hmatcher hook hhook command hcommand =>
      (hspec c hc hmatcher hook hhook command hcommand).1⟩

end Clear

section Entries

variable {join : String → String → String} {roots : Roots} {target : TargetHook} {event : String}
  {commands : List String} {entries merged template list : List Value} {entry : Value}
  {before claims : List ClaimedHook}

/-- An entry after the hooks of a template entry went to it. -/
def Extended (entry item e : Value) : Prop :=
  matcherOf e = matcherOf entry ∧ (hooksOf entry ≠ [] → holdsHooks e = true) ∧
    ∀ hook ∈ hooksOf e, hook ∈ hooksOf entry ∨ hook ∈ hooksOf item

theorem holdsHooks_of_runs {fields : List (String × Value)} {hooks : List Value}
    (hruns : ∀ hook ∈ list, Runs hooks hook) (hlist : list ≠ []) :
    holdsHooks (.obj (setField "hooks" (.arr hooks) fields)) = true := by
  rw [holdsHooks_setField, Bool.not_eq_true', List.isEmpty_eq_false_iff]
  rintro rfl
  obtain ⟨hook, hhook⟩ := List.exists_mem_of_ne_nil list hlist
  obtain ⟨command, -, hany⟩ := hruns hook hhook
  cases hany

theorem hooksOf_getD {fields : List (String × Value)} {present : List Value}
    (h : (field fields "hooks").getD (.arr []) = .arr present) : hooksOf (.obj fields) = present := by
  rw [hooksOf, get_obj]
  cases hfield : field fields "hooks" with
  | none =>
    rw [hfield] at h
    cases h
    rfl
  | some v =>
    rw [hfield] at h
    cases h
    rfl

theorem mergeFirst_split (h : mergeFirst event (matcherOf entry) (hooksOf entry) entries =
    .ok (merged, claims)) (hany : entries.any (hasMatcher (matcherOf entry)) = true) :
    ∃ front item back e, entries = front ++ item :: back ∧ merged = front ++ e :: back ∧
      hasMatcher (matcherOf entry) item = true ∧ Extended entry item e := by
  induction entries generalizing merged with
  | nil => cases hany
  | cons item items ih =>
    cases hitem : hasMatcher (matcherOf entry) item with
    | false =>
      rw [List.any_cons, hitem, Bool.false_or] at hany
      simp only [mergeFirst, hitem] at h
      obtain ⟨⟨merged', claims'⟩, hmerged, h⟩ := bind_eq_ok h
      cases h
      obtain ⟨front, item', back, e, rfl, rfl, hrest⟩ := ih hmerged hany
      exact ⟨item :: front, item', back, e, rfl, rfl, hrest⟩
    | true =>
      cases item with
      | obj fields =>
        simp only [mergeFirst, hitem] at h
        cases hpresent : (field fields "hooks").getD (.arr []) with
        | arr present =>
          rw [hpresent] at h
          obtain ⟨⟨hooks, claims'⟩, hlist, h⟩ := bind_eq_ok h
          cases h
          obtain ⟨⟨pushed, rfl, hpushed⟩, -⟩ := mergeList_spec hlist
          refine ⟨[], .obj fields, items, _, rfl, rfl, hitem, ?_, ?_, fun hook hhook => ?_⟩
          · exact matcherView_setField.trans (beq_iff_eq.mp hitem)
          · exact holdsHooks_of_runs (mergeList_runs hlist)
          · rw [hooksOf, get_obj, field_setField_self] at hhook
            rw [hooksOf_getD hpresent]
            exact (List.mem_append.mp hhook).symm.imp_left (hpushed hook)
        | null | bool | int | float | str | obj =>
          rw [hpresent] at h
          cases h
      | null | bool | int | float | str | arr => cases hitem

theorem matcherOf_of_hasMatcher {matcher : String} {item : Value}
    (h : hasMatcher matcher item = true) : matcherOf item = matcher := by
  cases item with
  | obj fields => exact beq_iff_eq.mp h
  | null | bool | int | float | str | arr => cases h

/-- A template entry goes to the first entry with its matcher or to a new one. -/
theorem mergeEntry_split (h : mergeEntry event (entries, before) entry = .ok (merged, claims)) :
    (∃ front item back e, entries = front ++ item :: back ∧ merged = front ++ e :: back ∧
      matcherOf item = matcherOf entry ∧ Extended entry item e) ∨
    ∃ e, merged = entries ++ [e] ∧ Extended entry (blankEntry (matcherOf entry)) e := by
  cases entry with
  | obj fields =>
    obtain ⟨⟨merged', claims'⟩, hmerged, h⟩ := bind_eq_ok h
    cases h
    simp only at hmerged
    have hsplit := mergeFirst_split (show mergeFirst event (matcherOf (.obj fields))
      (hooksOf (.obj fields)) _ = .ok (_, _) from hmerged)
    split at hsplit
    · next hany =>
      obtain ⟨front, item, back, e, hentries, hmerged, hitem, he⟩ := hsplit hany
      exact .inl ⟨front, item, back, e, hentries, hmerged, matcherOf_of_hasMatcher hitem, he⟩
    · next hnone =>
      obtain ⟨front, item, back, e, hentries, hmerged, hitem, he⟩ := hsplit (by
        rw [List.any_append, List.any_cons]
        exact Bool.or_eq_true_iff.mpr (.inr (by rw [Bool.or_eq_true]; exact .inl hasMatcher_blank)))
      rcases List.eq_nil_or_concat back with rfl | ⟨init, last, rfl⟩
      · obtain ⟨rfl, hblank⟩ := List.append_inj' hentries rfl
        cases hblank
        exact .inr ⟨e, hmerged, he⟩
      · rw [List.concat_eq_append, ← List.cons_append, ← List.append_assoc] at hentries
        obtain ⟨rfl, -⟩ := List.append_inj' hentries rfl
        refine absurd (List.any_eq_true.mpr ⟨item, ?_, hitem⟩) hnone
        exact List.mem_append_right _ List.mem_cons_self
  | null | bool | int | float | str | arr => cases h

theorem extended_settled {item e : Value} (h : Extended entry item e)
    (hitem : Settled join roots target commands item) (hmatcher : matcherOf item = matcherOf entry)
    (hentry : ∀ hook ∈ hooksOf entry, ∀ command, hookCommand hook = some command →
      command ∈ commands) : Settled join roots target commands e := by
  obtain ⟨hsame, -, hhooks⟩ := h
  intro htarget hook hhook command hcommand
  rcases hhooks hook hhook with hnew | hold
  · exact .inl (List.contains_iff_mem.mpr (hentry hook hnew command hcommand))
  · exact hitem (hmatcher.trans (hsame.symm.trans htarget)) hook hold command hcommand

/-- Hooks that are merged in are claimed. -/
theorem settled_mergeEntry (h : mergeEntry event (entries, before) entry = .ok (merged, claims))
    (hentries : ∀ e ∈ entries, Settled join roots target commands e)
    (hentry : ∀ hook ∈ hooksOf entry, ∀ command, hookCommand hook = some command →
      command ∈ commands) : ∀ e ∈ merged, Settled join roots target commands e := by
  rcases mergeEntry_split h with ⟨front, item, back, e, rfl, rfl, hmatcher, he⟩ | ⟨e, rfl, he⟩
  · rw [List.forall_mem_append, List.forall_mem_cons] at hentries ⊢
    exact ⟨hentries.1, extended_settled he hentries.2.1 hmatcher hentry, hentries.2.2⟩
  · rw [List.forall_mem_append, List.forall_mem_singleton]
    refine ⟨hentries, extended_settled he ?_ rfl hentry⟩
    exact fun _ hook hhook => absurd hhook List.not_mem_nil

/-- A hook under another matcher leaves the target calm. -/
theorem calm_mergeEntry (h : mergeEntry event (entries, before) entry = .ok (merged, claims))
    (hentries : Calm join roots target commands entries) (hother : matcherOf entry ≠ target.matcher)
    (hhooks : hooksOf entry ≠ []) : Calm join roots target commands merged := by
  have hout {item e : Value} (he : Extended entry item e) : matcherOf e ≠ target.matcher :=
    fun heq => hother (he.1.symm.trans heq)
  have hkept := calm_iff_restored.mp hentries.unclaimed
  rcases mergeEntry_split h with ⟨front, item, back, e, rfl, rfl, -, he⟩ | ⟨e, rfl, he⟩
  · have hsettled := hentries.settled
    refine ⟨?_, calm_iff_restored.mpr ?_⟩
    · rw [List.forall_mem_append, List.forall_mem_cons] at hsettled ⊢
      exact ⟨hsettled.1, fun heq => absurd heq (hout he), hsettled.2.2⟩
    · rw [List.forall_mem_append, List.forall_mem_cons] at hkept ⊢
      exact ⟨hkept.1, ⟨he.2.1 hhooks, fun heq => absurd heq (hout he)⟩, hkept.2.2⟩
  · refine ⟨?_, calm_iff_restored.mpr ?_⟩
    · rw [List.forall_mem_append, List.forall_mem_singleton]
      exact ⟨hentries.settled, fun heq => absurd heq (hout he)⟩
    · rw [List.forall_mem_append, List.forall_mem_singleton]
      exact ⟨hkept, he.2.1 hhooks, fun heq => absurd heq (hout he)⟩

theorem settled_mergeEntries (h : template.foldlM (mergeEntry event) (entries, before) =
      .ok (merged, claims))
    (hentries : ∀ e ∈ entries, Settled join roots target commands e)
    (htemplate : ∀ entry ∈ template, ∀ hook ∈ hooksOf entry, ∀ command,
      hookCommand hook = some command → command ∈ commands) :
    ∀ e ∈ merged, Settled join roots target commands e := by
  induction template generalizing entries before with
  | nil =>
    cases h
    exact hentries
  | cons entry template ih =>
    obtain ⟨⟨first, middle⟩, hfirst, h⟩ := bind_eq_ok h
    obtain ⟨hentry, htemplate⟩ := List.forall_mem_cons.mp htemplate
    exact ih h (settled_mergeEntry hfirst hentries hentry) htemplate

theorem calm_mergeEntries (h : template.foldlM (mergeEntry event) (entries, before) =
      .ok (merged, claims)) (hentries : Calm join roots target commands entries)
    (htemplate : ∀ entry ∈ template, matcherOf entry ≠ target.matcher ∧ hooksOf entry ≠ []) :
    Calm join roots target commands merged := by
  induction template generalizing entries before with
  | nil =>
    cases h
    exact hentries
  | cons entry template ih =>
    obtain ⟨⟨first, middle⟩, hfirst, h⟩ := bind_eq_ok h
    obtain ⟨hentry, htemplate⟩ := List.forall_mem_cons.mp htemplate
    exact ih h (calm_mergeEntry hfirst hentries hentry.1 hentry.2) htemplate

theorem mergeEntry_before (h : mergeEntry event (entries, before) entry = .ok (merged, claims))
    (before' : List ClaimedHook) : mergeEntry event (entries, before') entry =
      .ok (merged, before' ++ entryClaims event entry) := by
  obtain ⟨hclaims, -⟩ := mergeEntry_spec h
  cases entry with
  | obj fields =>
    obtain ⟨⟨merged', claims'⟩, hmerged, h⟩ := bind_eq_ok h
    cases h
    rw [← List.append_cancel_left hclaims]
    simp only [mergeEntry]
    simp only at hmerged
    rw [hmerged]
    rfl
  | null | bool | int | float | str | arr => cases h

theorem mergeEntries_before (h : template.foldlM (mergeEntry event) (entries, before) =
      .ok (merged, claims)) (before' : List ClaimedHook) :
    template.foldlM (mergeEntry event) (entries, before') =
      .ok (merged, before' ++ templateClaims event template) := by
  induction template generalizing entries before before' with
  | nil =>
    cases h
    rw [templateClaims, List.flatMap_nil, List.append_nil]
    rfl
  | cons entry template ih =>
    obtain ⟨⟨first, middle⟩, hfirst, h⟩ := bind_eq_ok h
    rw [List.foldlM_cons, mergeEntry_before hfirst before']
    refine (ih h _).trans ?_
    rw [List.append_assoc]
    rfl

theorem Settled.mono (h : Settled join roots target [] entry) :
    Settled join roots target commands entry := fun hmatcher hook hhook command hcommand =>
  .inr ((h hmatcher hook hhook command hcommand).resolve_left (by simp))

/-- The template entries of a target's event: each has hooks, and after one for the
target comes no other. -/
structure TargetLast (target : TargetHook) (template : List Value) : Prop where
  hooked : ∀ entry ∈ template, hooksOf entry ≠ []
  last : template.Pairwise fun entry entry' =>
    matcherOf entry = target.matcher → matcherOf entry' = target.matcher

instance (target : TargetHook) (template : List Value) : Decidable (TargetLast target template) :=
  decidable_of_iff ((∀ entry ∈ template, hooksOf entry ≠ []) ∧ template.Pairwise fun entry entry' =>
    matcherOf entry = target.matcher → matcherOf entry' = target.matcher)
    ⟨fun h => ⟨h.1, h.2⟩, fun h => ⟨h.hooked, h.last⟩⟩

theorem TargetLast.split (h : TargetLast target template) : ∃ others own,
    template = others ++ own ∧ (∀ entry ∈ others, matcherOf entry ≠ target.matcher) ∧
      ∀ entry ∈ own, matcherOf entry = target.matcher := by
  have hlast := h.last
  clear h
  induction template with
  | nil => exact ⟨[], [], rfl, fun _ he => absurd he List.not_mem_nil,
      fun _ he => absurd he List.not_mem_nil⟩
  | cons entry template ih =>
    obtain ⟨hfirst, hlast⟩ := List.pairwise_cons.mp hlast
    by_cases hmatcher : matcherOf entry = target.matcher
    · exact ⟨[], entry :: template, rfl, fun _ he => absurd he List.not_mem_nil,
        List.forall_mem_cons.mpr ⟨hmatcher, fun entry' hentry' => hfirst entry' hentry' hmatcher⟩⟩
    · obtain ⟨others, own, rfl, hothers, hown⟩ := ih hlast
      exact ⟨entry :: others, own, rfl, List.forall_mem_cons.mpr ⟨hmatcher, hothers⟩, hown⟩

theorem templateClaims_claimsAt (hown : ∀ entry ∈ template, matcherOf entry = target.matcher)
    (hcommands : ∀ entry ∈ template, ∀ hook ∈ hooksOf entry, ∀ command,
      hookCommand hook = some command → command ∈ commands) :
    ∀ item ∈ templateClaims target.event template, item ∈ claimsAt target commands := by
  intro item hitem
  obtain ⟨entry, hentry, hitem⟩ := List.mem_flatMap.mp hitem
  obtain ⟨hook, hhook, hitem⟩ := List.mem_filterMap.mp hitem
  obtain ⟨command, hcommand, rfl⟩ := Option.map_eq_some_iff.mp hitem
  refine List.mem_map.mpr ⟨command, hcommands entry hentry hook hhook command hcommand, ?_⟩
  exact congrArg (fun matcher => ClaimedHook.mk target.event matcher command) (hown entry hentry).symm

/-- Taking out what a template put in and merging it again gives the same entries. -/
theorem rerun_entries (htemplate : TargetLast target template)
    (hcommands : ∀ entry ∈ template, ∀ hook ∈ hooksOf entry, ∀ command,
      hookCommand hook = some command → command ∈ commands)
    (hentries : Calm join roots target commands entries)
    (h : template.foldlM (mergeEntry target.event) (entries, before) = .ok (merged, claims)) :
    ∃ kept, clearEntries join roots commands target merged = .ok kept ∧
      ∀ before', template.foldlM (mergeEntry target.event) (retainNonempty kept, before') =
        .ok (merged, before' ++ templateClaims target.event template) := by
  have hsettled : ∀ e ∈ merged, Settled join roots target commands e :=
    settled_mergeEntries h (fun e he => (hentries.settled e he).mono) hcommands
  refine ⟨_, clearEntries_of_settled hsettled, fun before' => ?_⟩
  obtain ⟨others, own, rfl, hothers, hown⟩ := htemplate.split
  rw [List.foldlM_append] at h
  obtain ⟨⟨middle, claims'⟩, hmiddle, hlast⟩ := bind_eq_ok h
  have hcalm : Calm join roots target commands middle := calm_mergeEntries hmiddle hentries
    fun entry hentry => ⟨hothers entry hentry, htemplate.hooked entry (List.mem_append_left _ hentry)⟩
  have hgiven := templateClaims_claimsAt hown fun entry hentry =>
    hcommands entry (List.mem_append_right _ hentry)
  rw [retain_withoutClaimed, (mergeEntries_spec hlast).2.restored _ hgiven, hcalm.unclaimed,
    List.foldlM_append, mergeEntries_of_absorbed (mergeEntries_grows hmiddle).2]
  refine (mergeEntries_before hlast _).trans ?_
  rw [List.append_assoc, templateClaims, templateClaims, templateClaims, List.flatMap_append]

end Entries

section Events

variable {join : String → String → String} {roots : Roots} {target : TargetHook}
  {targets : List TargetHook} {claimed commands : List String} {event : String}
  {hooks merged final template : List (String × Value)} {before claims : List ClaimedHook}

theorem field_setEntries (hkeyed : Keyed hooks) (entries : List Value) (other : String) :
    field (setEntries event entries hooks) other =
      if other = event then (if entries.isEmpty then none else some (.arr entries))
      else field hooks other := by
  unfold setEntries
  split
  · rw [hkeyed.field_removeField]
  · split
    · next h => rw [h, field_setField_self]
    · next h => rw [field_setField_of_ne h]

/-- What clearing leaves under a target. -/
structure ClearedAt (join : String → String → String) (roots : Roots) (claimed : List String)
    (target : TargetHook) (hooks cleared : List (String × Value)) : Prop where
  listed : ∀ entries, field hooks target.event = some (.arr entries) → ∃ kept,
    clearEntries join roots claimed target entries = .ok kept ∧ field cleared target.event =
      if (retainNonempty kept).isEmpty then none else some (.arr (retainNonempty kept))
  unlisted : (∀ entries, field hooks target.event ≠ some (.arr entries)) →
    field cleared target.event = field hooks target.event

theorem clearTarget_cleared {cleared : List (String × Value)} (hkeyed : Keyed hooks)
    (h : clearTarget join roots claimed hooks target = .ok cleared) :
    Keyed cleared ∧ ClearedAt join roots claimed target hooks cleared ∧
      ∀ event ≠ target.event, field cleared event = field hooks event := by
  unfold clearTarget at h
  split at h
  · next entries hentries =>
    obtain ⟨kept, hkept, h⟩ := bind_eq_ok h
    cases h
    refine ⟨setEntries_keyed hkeyed _, ⟨fun entries' hentries' => ?_, fun hnot => ?_⟩,
      fun event hevent => ?_⟩
    · rw [hentries] at hentries'
      cases hentries'
      exact ⟨kept, hkept, by rw [field_setEntries hkeyed, if_pos rfl]⟩
    · exact absurd hentries (hnot entries)
    · rw [field_setEntries hkeyed, if_neg hevent]
  · next hnot =>
    cases h
    exact ⟨hkeyed, ⟨fun entries hentries => absurd hentries (hnot entries), fun _ => rfl⟩,
      fun _ _ => rfl⟩

theorem event_ne_of_fresh {target' : TargetHook} (hfresh : target.event ∉ targets.map (·.event))
    (h : target' ∈ targets) : target'.event ≠ target.event := fun heq =>
  hfresh (List.mem_map.mpr ⟨target', h, heq⟩)

theorem clearTargets_cleared {cleared : List (String × Value)}
    (hevents : (targets.map (·.event)).Nodup) (hkeyed : Keyed hooks)
    (h : targets.foldlM (clearTarget join roots claimed) hooks = .ok cleared) :
    Keyed cleared ∧ (∀ target ∈ targets, ClearedAt join roots claimed target hooks cleared) ∧
      ∀ event ∉ targets.map (·.event), field cleared event = field hooks event := by
  induction targets generalizing hooks with
  | nil =>
    cases h
    exact ⟨hkeyed, fun _ ht => absurd ht List.not_mem_nil, fun _ _ => rfl⟩
  | cons target targets ih =>
    obtain ⟨first, hfirst, h⟩ := bind_eq_ok h
    obtain ⟨hfresh, hevents⟩ := List.nodup_cons.mp hevents
    obtain ⟨hkeyed, hself, hother⟩ := clearTarget_cleared hkeyed hfirst
    obtain ⟨hkeyed, hrest, hothers⟩ := ih hevents hkeyed h
    refine ⟨hkeyed, List.forall_mem_cons.mpr ⟨?_, fun target' htarget' => ?_⟩, fun event hevent => ?_⟩
    · have hsame := hothers _ hfresh
      exact ⟨fun entries hentries => hsame ▸ hself.listed entries hentries,
        fun hnot => hsame ▸ hself.unlisted hnot⟩
    · have hne := event_ne_of_fresh hfresh htarget'
      have hsame := hother _ hne
      obtain ⟨hlisted, hunlisted⟩ := hrest target' htarget'
      rw [hsame] at hlisted hunlisted
      exact ⟨hlisted, hunlisted⟩
    · rw [List.map_cons, List.mem_cons, not_or] at hevent
      rw [hothers event hevent.2, hother event hevent.1]

/-- Clearing succeeds where it succeeds under each target. -/
theorem clearTargets_ok (hevents : (targets.map (·.event)).Nodup) (hkeyed : Keyed hooks)
    (h : ∀ target ∈ targets, ∀ entries, field hooks target.event = some (.arr entries) →
      ∃ kept, clearEntries join roots claimed target entries = .ok kept) :
    ∃ cleared, targets.foldlM (clearTarget join roots claimed) hooks = .ok cleared := by
  induction targets generalizing hooks with
  | nil => exact ⟨hooks, rfl⟩
  | cons target targets ih =>
    obtain ⟨hfresh, hevents⟩ := List.nodup_cons.mp hevents
    obtain ⟨htarget, htargets⟩ := List.forall_mem_cons.mp h
    have hstep : ∃ first, clearTarget join roots claimed hooks target = .ok first := by
      unfold clearTarget
      split
      · next entries hentries =>
        obtain ⟨kept, hkept⟩ := htarget entries hentries
        exact ⟨_, by rw [hkept]; rfl⟩
      · exact ⟨hooks, rfl⟩
    obtain ⟨first, hfirst⟩ := hstep
    obtain ⟨hkeyed, -, hother⟩ := clearTarget_cleared hkeyed hfirst
    obtain ⟨cleared, hcleared⟩ := ih hevents hkeyed fun target' htarget' entries hentries => by
      have hne := event_ne_of_fresh hfresh htarget'
      rw [hother _ hne] at hentries
      exact htargets target' htarget' entries hentries
    exact ⟨cleared, by rw [List.foldlM_cons, hfirst]; exact hcleared⟩

theorem mergeEvent_fields {f : String × Value}
    (h : mergeEvent (hooks, before) f = .ok (merged, claims)) :
    (∀ event ≠ f.1, field merged event = field hooks event) ∧
      ∃ list entries result, f.2 = .arr list ∧ entriesAt hooks f.1 = .arr entries ∧
        list.foldlM (mergeEntry f.1) (entries, before) = .ok (result, claims) ∧
        field merged f.1 = some (.arr result) := by
  obtain ⟨key, v⟩ := f
  cases v with
  | arr list =>
    simp only [mergeEvent] at h
    cases hat : (field hooks key).getD (.arr []) with
    | arr destination =>
      rw [hat] at h
      obtain ⟨⟨result, claims'⟩, hresult, h⟩ := bind_eq_ok h
      cases h
      exact ⟨fun event hevent => field_setField_of_ne hevent, list, destination, result, rfl, hat,
        hresult, field_setField_self⟩
    | null | bool | int | float | str | obj =>
      rw [hat] at h
      cases h
  | null | bool | int | float | str | obj => cases h

theorem field_eq_none_iff : field hooks event = none ↔ event ∉ hooks.map Prod.fst := by
  induction hooks with
  | nil => exact iff_of_true rfl List.not_mem_nil
  | cons f hooks ih =>
    rw [field_cons, List.map_cons, List.mem_cons, not_or, ← ih]
    split
    · next heq => exact iff_of_false nofun fun h => h.1 heq.symm
    · next hne => exact (and_iff_right fun h => hne h.symm).symm

theorem entriesAt_congr (h : field merged event = field hooks event) :
    entriesAt merged event = entriesAt hooks event := by rw [entriesAt, h, entriesAt]

theorem mergeEvents_fields (htemplate : Keyed template)
    (h : template.foldlM mergeEvent (hooks, before) = .ok (merged, claims)) :
    (∀ event, field template event = none → field merged event = field hooks event) ∧
      ∀ f ∈ template, ∃ list entries result given got, f.2 = .arr list ∧
        entriesAt hooks f.1 = .arr entries ∧
        list.foldlM (mergeEntry f.1) (entries, given) = .ok (result, got) ∧
        field merged f.1 = some (.arr result) := by
  induction template generalizing hooks before with
  | nil =>
    cases h
    exact ⟨fun _ _ => rfl, fun _ hf => absurd hf List.not_mem_nil⟩
  | cons f template ih =>
    obtain ⟨⟨first, middle⟩, hfirst, h⟩ := bind_eq_ok h
    obtain ⟨hfresh, htemplate⟩ := List.nodup_cons.mp htemplate
    obtain ⟨hother, list, entries, result, hlist, hentries, hresult, hself⟩ := mergeEvent_fields hfirst
    obtain ⟨hrest, hmerged⟩ := ih htemplate h
    refine ⟨fun event hevent => ?_, List.forall_mem_cons.mpr ⟨?_, fun f' hf' => ?_⟩⟩
    · rw [field_eq_none_iff, List.map_cons, List.mem_cons, not_or] at hevent
      rw [hrest event (field_eq_none_iff.mpr hevent.2), hother event hevent.1]
    · refine ⟨list, entries, result, before, middle, hlist, hentries, hresult, ?_⟩
      rw [hrest f.1 (field_eq_none_iff.mpr hfresh), hself]
    · have hne : f'.1 ≠ f.1 := fun heq => hfresh (heq ▸ List.mem_map_of_mem hf')
      obtain ⟨list', entries', result', given, got, hlist', hentries', hrest'⟩ := hmerged f' hf'
      exact ⟨list', entries', result', given, got, hlist',
        (entriesAt_congr (hother _ hne)).symm.trans hentries', hrest'⟩

/-- Events that merge to known entries each make up a known document. -/
theorem mergeEvents_rebuild (htemplate : Keyed template)
    (hat : ∀ f ∈ template, ∃ list entries result, f.2 = .arr list ∧
      entriesAt hooks f.1 = .arr entries ∧ field final f.1 = some (.arr result) ∧
      ∀ given, list.foldlM (mergeEntry f.1) (entries, given) =
        .ok (result, given ++ templateClaims f.1 list))
    (hrest : ∀ event, field template event = none → field hooks event = field final event)
    (before : List ClaimedHook) :
    ∃ rebuilt, template.foldlM mergeEvent (hooks, before) =
        .ok (rebuilt, before ++ documentClaims template) ∧
      ∀ event, field rebuilt event = field final event := by
  induction template generalizing hooks before with
  | nil => exact ⟨hooks, congrArg (fun c => Except.ok (hooks, c)) (List.append_nil _).symm,
      fun event => hrest event rfl⟩
  | cons f template ih =>
    obtain ⟨hfresh, htemplate⟩ := List.nodup_cons.mp htemplate
    obtain ⟨⟨list, entries, result, hlist, hentries, hfinal, hmerged⟩, hats⟩ :=
      List.forall_mem_cons.mp hat
    have hstep : mergeEvent (hooks, before) f =
        .ok (setField f.1 (.arr result) hooks, before ++ templateClaims f.1 list) := by
      rw [entriesAt] at hentries
      simp only [mergeEvent, hlist, hentries, hmerged]
      rfl
    obtain ⟨rebuilt, hrebuilt, hsame⟩ := @ih (setField f.1 (.arr result) hooks) htemplate
      (fun f' hf' => by
        have hne : f'.1 ≠ f.1 := fun heq => hfresh (heq ▸ List.mem_map_of_mem hf')
        obtain ⟨list', entries', result', hlist', hentries', hrest'⟩ := hats f' hf'
        exact ⟨list', entries', result', hlist',
          (entriesAt_congr (field_setField_of_ne hne)).trans hentries', hrest'⟩)
      (fun event hevent => by
        by_cases heq : event = f.1
        · rw [heq, field_setField_self, hfinal]
        · rw [field_setField_of_ne heq]
          refine hrest event (field_eq_none_iff.mpr ?_)
          rw [List.map_cons, List.mem_cons, not_or]
          exact ⟨heq, field_eq_none_iff.mp hevent⟩)
      (before ++ templateClaims f.1 list)
    refine ⟨rebuilt, ?_, hsame⟩
    rw [List.foldlM_cons, hstep]
    refine hrebuilt.trans ?_
    rw [List.append_assoc, documentClaims, documentClaims, List.flatMap_cons, hlist]
    rfl

end Events

section Stages

variable {join : String → String → String} {roots : Roots} {commands : HookCommands}
  {rendered template merged : Value} {prior : Option SettingsClaim} {claim : SettingsClaim}
  {settings cleared hooked permitted final : List (String × Value)}

def sectionFields (key : String) (v : Value) : List (String × Value) :=
  match v.get key with
  | some (.obj fields) => fields
  | _ => []

/-- The commands that a template installs. -/
def installedCommands (rendered : Value) : List String :=
  (documentClaims (sectionFields "hooks" rendered)).map ClaimedHook.command

def priorCommands (prior : Option SettingsClaim) : List String :=
  (prior.elim [] SettingsClaim.hooks).map (trim ·.command)

/-- No hook that stays under a target runs a command that the template installs. -/
def OwnApart (join : String → String → String) (roots : Roots) (rendered existing : Value)
    (prior : Option SettingsClaim) : Prop :=
  ∀ target ∈ targetHooks,
    ∀ hook ∈ hooksUnder target (entriesOf (hookEntries existing target.event)), ∀ command,
      hookCommand hook = some command → command ∈ installedCommands rendered →
        (priorCommands prior).contains command = true ∨ isLegacy join roots target command = true

/-- Each target comes last at its event of the template, and no permission twice. -/
structure Orderly (rendered : Value) : Prop where
  targets : ∀ target ∈ targetHooks,
    TargetLast target (entriesOf (hookEntries rendered target.event))
  permissions : ∀ list, templatePermissions rendered = .ok list → list.Nodup

/-- The stages of a merge in their order. -/
structure Staged (join : String → String → String) (roots : Roots) (rendered : Value)
    (prior : Option SettingsClaim) (settings : List (String × Value)) (claim : SettingsClaim)
    (cleared hooked permitted final : List (String × Value)) : Prop where
  clear : removePriorTargetHooks join roots prior settings = .ok cleared
  hooks : mergeHooks rendered cleared = .ok (hooked, claim.hooks)
  permissions : mergePermissions rendered prior hooked = .ok (permitted, claim.permissions)
  env : mergeEnv rendered permitted = .ok final

def finished (rendered : Value) (final : List (String × Value)) : List (String × Value) :=
  removeField "mcpServers" (["outputStyle", "spinnerTipsEnabled"].foldl (copyMissing rendered) final)

theorem staged_of_merge (hrendered : renderTemplate template roots.claudeRoot commands = rendered)
    (h : mergeSettingsDocument join roots (.obj settings) template commands prior =
      .ok (merged, claim)) :
    ∃ cleared hooked permitted final,
      Staged join roots rendered prior settings claim cleared hooked permitted final ∧
        merged = .obj (finished rendered final) := by
  simp only [mergeSettingsDocument, hrendered] at h
  have hstages : ∃ cleared hooked permitted final,
      Staged join roots rendered prior settings claim cleared hooked permitted final ∧
        merged = .obj (finished rendered final) := by
    cases prior with
    | none =>
      obtain ⟨cleared, hcleared, h⟩ := bind_eq_ok h
      obtain ⟨⟨hooked, hooks⟩, hhooked, h⟩ := bind_eq_ok h
      obtain ⟨⟨permitted, permissions⟩, hpermitted, h⟩ := bind_eq_ok h
      obtain ⟨final, hfinal, h⟩ := bind_eq_ok h
      cases h
      exact ⟨cleared, hooked, permitted, final, ⟨hcleared, hhooked, hpermitted, hfinal⟩, rfl⟩
    | some prior =>
      obtain ⟨_, -, h⟩ := bind_eq_ok h
      obtain ⟨cleared, hcleared, h⟩ := bind_eq_ok h
      obtain ⟨⟨hooked, hooks⟩, hhooked, h⟩ := bind_eq_ok h
      obtain ⟨⟨permitted, permissions⟩, hpermitted, h⟩ := bind_eq_ok h
      obtain ⟨final, hfinal, h⟩ := bind_eq_ok h
      cases h
      exact ⟨cleared, hooked, permitted, final, ⟨hcleared, hhooked, hpermitted, hfinal⟩, rfl⟩
  exact hstages

theorem ok_bind {α β : Type} (a : α) (f : α → Except InstallError β) : Except.ok a >>= f = f a := rfl

theorem merge_of_staged {prior : SettingsClaim}
    (hrendered : renderTemplate template roots.claudeRoot commands = rendered)
    (hverify : verifySettingsClaim (.obj settings) prior = .ok ())
    (h : Staged join roots rendered (some prior) settings claim cleared hooked permitted final) :
    mergeSettingsDocument join roots (.obj settings) template commands (some prior) =
      .ok (.obj (finished rendered final), claim) := by
  obtain ⟨hclear, hhooks, hpermissions, henv⟩ := h
  simp only [mergeSettingsDocument, hrendered, hverify, hclear, hhooks, hpermissions, henv, ok_bind]
  rfl

theorem sectionFields_obj (key : String) (settings : List (String × Value)) :
    sectionFields key (.obj settings) = sectionOf key settings := rfl

theorem hookEntries_eq (v : Value) (event : String) :
    hookEntries v event = entriesAt (sectionFields "hooks" v) event := by
  unfold hookEntries sectionFields entriesAt
  cases v.get "hooks" with
  | none => rfl
  | some w => cases w <;> rfl

/-- The hooks of the settings after the first clearing. -/
theorem removePriorTargetHooks_calm (hkeyed : Keyed settings)
    (hhooks : Keyed (sectionOf "hooks" settings))
    (hown : OwnApart join roots rendered (.obj settings) prior)
    (h : removePriorTargetHooks join roots prior settings = .ok cleared) :
    Keyed cleared ∧ Keyed (sectionOf "hooks" cleared) ∧
      (∀ key ≠ "hooks", field cleared key = field settings key) ∧
      ∀ target ∈ targetHooks, ∀ entries,
        field (sectionOf "hooks" cleared) target.event = some (.arr entries) →
          entries ≠ [] ∧ Calm join roots target (installedCommands rendered) entries := by
  unfold removePriorTargetHooks at h
  split at h
  · next hfield =>
    cases h
    have hempty : sectionOf "hooks" settings = [] := by rw [sectionOf, hfield]
    rw [hempty] at hhooks ⊢
    exact ⟨hkeyed, hhooks, fun _ _ => rfl, fun target _ entries hentries => (by cases hentries)⟩
  · next hooks hfield =>
    obtain ⟨hooks', hcleared, h⟩ := bind_eq_ok h
    cases h
    have hsection : sectionOf "hooks" settings = hooks := by rw [sectionOf, hfield]
    rw [hsection] at hhooks
    obtain ⟨hkeyed', htargets, -⟩ := clearTargets_cleared (by decide) hhooks hcleared
    rw [sectionOf_setField_self]
    refine ⟨hkeyed.setField, hkeyed', fun key hkey => field_setField_of_ne hkey,
      fun target htarget entries hentries => ?_⟩
    have hat := htargets target htarget
    by_cases hlisted : ∃ old, field hooks target.event = some (.arr old)
    · obtain ⟨old, hold⟩ := hlisted
      obtain ⟨kept, hkept, hfinal⟩ := hat.listed old hold
      rw [hfinal] at hentries
      split at hentries
      · cases hentries
      · next hnonempty =>
        cases hentries
        refine ⟨fun hnil => hnonempty (List.isEmpty_iff.mpr hnil), clearEntries_calm hkept ?_⟩
        intro hook hhook command hcommand hinstalled
        refine hown target htarget hook ?_ command hcommand hinstalled
        rwa [hookEntries_obj, hsection, entriesAt, hold]
    · rw [hat.unlisted fun old hold => hlisted ⟨old, hold⟩] at hentries
      exact absurd ⟨entries, hentries⟩ hlisted
  · cases h

end Stages

section Again

variable {join : String → String → String} {roots : Roots} {commands : HookCommands}
  {rendered template existing merged : Value} {prior : Option SettingsClaim} {claim : SettingsClaim}
  {settings cleared hooked permitted final : List (String × Value)}

theorem templateHooks_section {list : List (String × Value)}
    (h : templateHooks rendered = .ok list) : sectionFields "hooks" rendered = list := by
  unfold templateHooks section? at h
  unfold sectionFields
  split at h
  · next hget =>
    cases h
    rw [hget]
  · next fields hget =>
    cases h
    rw [hget]
  · cases h

theorem mergeHooks_section {hooks : List ClaimedHook}
    (h : mergeHooks rendered cleared = .ok (hooked, hooks)) :
    ∃ list result, templateHooks rendered = .ok list ∧
      hooked = setField "hooks" (.obj result) cleared ∧
      (sectionFields "hooks" rendered).foldlM mergeEvent (sectionOf "hooks" cleared, []) =
        .ok (result, hooks) := by
  obtain ⟨list, hlist, h⟩ := bind_eq_ok h
  have hsection := templateHooks_section hlist
  cases hfield : (field cleared "hooks").getD (.obj []) with
  | obj hooks' =>
    rw [hfield] at h
    obtain ⟨⟨result, claims⟩, hresult, h⟩ := bind_eq_ok h
    cases h
    exact ⟨list, result, hlist, rfl, by rw [hsection, sectionOf_of_getD hfield]; exact hresult⟩
  | null | bool | int | float | str | arr =>
    rw [hfield] at h
    cases h

theorem mergeHooks_of_section {hooks : List ClaimedHook} {present result : List (String × Value)}
    {list : List (String × Value)} (hlist : templateHooks rendered = .ok list)
    (hfield : field cleared "hooks" = some (.obj present))
    (h : (sectionFields "hooks" rendered).foldlM mergeEvent (present, []) = .ok (result, hooks)) :
    mergeHooks rendered cleared = .ok (setField "hooks" (.obj result) cleared, hooks) := by
  have hsection := templateHooks_section hlist
  rw [hsection] at h
  simp only [mergeHooks, hlist, hfield, Option.getD_some, h, ok_bind]
  rfl

theorem mergePermission_spec {prior : List String} (list : List String) (allow : List Value)
    (before : List String) : ∃ added claims,
      list.foldl (mergePermission prior) (allow, before) = (allow ++ added, before ++ claims) ∧
        claims.Sublist list ∧
        ∀ permission ∈ list, (allow ++ added).any (·.asStr == some permission) = true := by
  induction list generalizing allow before with
  | nil => exact ⟨[], [], by simp, .slnil, fun _ hp => absurd hp List.not_mem_nil⟩
  | cons permission list ih =>
    rw [List.foldl_cons, mergePermission]
    split
    · obtain ⟨added, claims, hfold, hsub, hall⟩ := ih (allow ++ [.str permission])
        (before ++ [permission])
      refine ⟨.str permission :: added, permission :: claims, by rw [hfold]; simp, hsub.cons_cons _,
        List.forall_mem_cons.mpr ⟨?_, fun p hp => ?_⟩⟩
      · simp [Value.asStr]
      · have hany := hall p hp
        rwa [List.append_assoc] at hany
    · next hpresent =>
      have hany : allow.any (·.asStr == some permission) = true := by simpa using hpresent
      split
      · obtain ⟨added, claims, hfold, hsub, hall⟩ := ih allow (before ++ [permission])
        exact ⟨added, permission :: claims, by rw [hfold]; simp, hsub.cons_cons _,
          List.forall_mem_cons.mpr ⟨by rw [List.any_append, hany, Bool.true_or], hall⟩⟩
      · obtain ⟨added, claims, hfold, hsub, hall⟩ := ih allow before
        exact ⟨added, claims, hfold, hsub.cons _,
          List.forall_mem_cons.mpr ⟨by rw [List.any_append, hany, Bool.true_or], hall⟩⟩

/-- Permissions that are all there are claimed as they were before. -/
theorem mergePermission_again {prior : List String} (list : List String) (allow : List Value)
    (hall : ∀ permission ∈ list, allow.any (·.asStr == some permission) = true)
    (before : List String) : list.foldl (mergePermission prior) (allow, before) =
      (allow, before ++ list.filter prior.contains) := by
  induction list generalizing before with
  | nil => rw [List.foldl_nil, List.filter_nil, List.append_nil]
  | cons permission list ih =>
    obtain ⟨hpermission, hlist⟩ := List.forall_mem_cons.mp hall
    rw [List.foldl_cons, mergePermission, hpermission, Bool.not_true, if_neg Bool.false_ne_true,
      List.filter_cons]
    split
    · rw [ih hlist, List.append_assoc]
      rfl
    · exact ih hlist _

theorem filter_contains_of_sublist {list claims : List String} (h : claims.Sublist list)
    (hlist : list.Nodup) : list.filter claims.contains = claims := by
  induction h with
  | slnil => rfl
  | @cons claims list permission hsub ih =>
    obtain ⟨hfresh, hlist⟩ := List.nodup_cons.mp hlist
    have hnot : ¬claims.contains permission = true := fun hmem =>
      hfresh (hsub.subset (List.contains_iff_mem.mp hmem))
    rw [List.filter_cons_of_neg hnot, ih hlist]
  | @cons_cons claims list permission hsub ih =>
    obtain ⟨hfresh, hlist⟩ := List.nodup_cons.mp hlist
    rw [List.filter_cons_of_pos (by simp)]
    congr 1
    refine (List.filter_congr fun other hother => ?_).trans (ih hlist)
    have hne : other ≠ permission := fun heq => hfresh (heq ▸ hother)
    simp [hne]

theorem mergePermissions_again (horderly : Orderly rendered) {claims : List String}
    (h : mergePermissions rendered prior hooked = .ok (permitted, claims)) :
    ∃ permissions allow, field permitted "permissions" = some (.obj permissions) ∧
      field permissions "allow" = some (.arr allow) ∧
      (∀ permission ∈ claims, allow.any (·.asStr == some permission) = true) ∧
      (∀ key ≠ "permissions", field permitted key = field hooked key) ∧
      (Keyed hooked → Keyed permitted) ∧ ∀ fields hooks, field fields "permissions" = some (.obj permissions) →
        mergePermissions rendered (some ⟨hooks, claims⟩) fields = .ok (fields, claims) := by
  obtain ⟨list, hlist, h⟩ := bind_eq_ok h
  cases hfield : (field hooked "permissions").getD (.obj []) with
  | obj permissions =>
    rw [hfield] at h
    simp only at h
    cases hallow : (field permissions "allow").getD (.arr []) with
    | arr allow =>
      rw [hallow] at h
      obtain ⟨added, claims', hfold, hsub, hall⟩ :=
        @mergePermission_spec (prior.elim [] SettingsClaim.permissions) list allow []
      simp only [hfold] at h
      cases h
      rw [List.nil_append]
      refine ⟨_, allow ++ added, field_setField_self, field_setField_self,
        fun p hp => hall p (hsub.subset hp), fun key hkey => field_setField_of_ne hkey,
        Keyed.setField, fun fields hooks hfields => ?_⟩
      have hagain := @mergePermission_again claims' list (allow ++ added) hall []
      rw [filter_contains_of_sublist hsub (horderly.permissions list hlist)] at hagain
      simp only [mergePermissions, hlist, hfields, Option.getD_some, field_setField_self, ok_bind,
        Option.elim_some, hagain]
      rw [setField_self field_setField_self, setField_self hfields]
      rfl
    | null | bool | int | float | str | obj =>
      rw [hallow] at h
      cases h
  | null | bool | int | float | str | arr =>
    rw [hfield] at h
    cases h

theorem setDefault_of_isSome {f : String × Value} (h : (field settings f.1).isSome) :
    setDefault settings f = settings := if_pos h

theorem setDefault_isSome (settings : List (String × Value)) (f : String × Value) (key : String)
    (h : f.1 = key ∨ (field settings key).isSome) : (field (setDefault settings f) key).isSome := by
  unfold setDefault
  split
  · next hsome => exact h.elim (fun heq => heq ▸ hsome) id
  · by_cases hkey : key = f.1
    · rw [hkey, field_setField_self]
      rfl
    · rw [field_setField_of_ne hkey]
      exact h.resolve_left (Ne.symm hkey)

theorem foldl_setDefault_isSome (list settings : List (String × Value)) (key : String)
    (h : key ∈ list.map Prod.fst ∨ (field settings key).isSome) :
    (field (list.foldl setDefault settings) key).isSome := by
  induction list generalizing settings with
  | nil => exact h.resolve_left List.not_mem_nil
  | cons f list ih =>
    refine ih _ ?_
    rw [List.map_cons, List.mem_cons, or_right_comm] at h
    rcases h with hself | hlist
    · exact .inr (setDefault_isSome settings f key (hself.imp_left Eq.symm))
    · exact .inl hlist

theorem foldl_setDefault_self (list settings : List (String × Value))
    (h : ∀ f ∈ list, (field settings f.1).isSome) : list.foldl setDefault settings = settings := by
  induction list with
  | nil => rfl
  | cons f list ih =>
    obtain ⟨hf, hlist⟩ := List.forall_mem_cons.mp h
    rw [List.foldl_cons, setDefault_of_isSome hf, ih hlist]

theorem mergeEnv_again (h : mergeEnv rendered permitted = .ok final) :
    ∃ env, field final "env" = some (.obj env) ∧
      (∀ key ≠ "env", field final key = field permitted key) ∧
      ∀ fields, field fields "env" = some (.obj env) → mergeEnv rendered fields = .ok fields := by
  obtain ⟨list, hlist, h⟩ := bind_eq_ok h
  cases hfield : (field permitted "env").getD (.obj []) with
  | obj env =>
    rw [hfield] at h
    cases h
    refine ⟨_, field_setField_self, fun key hkey => field_setField_of_ne hkey, fun fields hfields => ?_⟩
    have hself := foldl_setDefault_self list (list.foldl setDefault env) fun f hf =>
      foldl_setDefault_isSome list env f.1 (.inl (List.mem_map_of_mem hf))
    simp only [mergeEnv, hlist, hfields, Option.getD_some, ok_bind, hself, setField_self hfields]
    rfl
  | null | bool | int | float | str | arr =>
    rw [hfield] at h
    cases h

theorem copyMissing_field (settings : List (String × Value)) (key other : String)
    (hother : other ≠ key) :
    field (copyMissing rendered settings key) other = field settings other := by
  unfold copyMissing
  split
  · next v _ =>
    unfold setDefault
    split
    · rfl
    · exact field_setField_of_ne hother
  · rfl

theorem copyMissing_isSome (settings : List (String × Value)) (key : String) :
    rendered.get key = none ∨ (field (copyMissing rendered settings key) key).isSome := by
  unfold copyMissing
  cases rendered.get key with
  | none => exact .inl rfl
  | some v => exact .inr (setDefault_isSome settings (key, v) key (.inl rfl))

theorem copyMissing_self (settings : List (String × Value)) (key : String)
    (h : rendered.get key = none ∨ (field settings key).isSome) :
    copyMissing rendered settings key = settings := by
  unfold copyMissing
  cases hget : rendered.get key with
  | none => rfl
  | some v =>
    rw [hget] at h
    exact setDefault_of_isSome (h.resolve_left nofun)

theorem finished_field (hkeyed : Keyed final) (key : String)
    (hkey : key ∉ ["mcpServers", "outputStyle", "spinnerTipsEnabled"]) :
    field (finished rendered final) key = field final key := by
  simp only [List.mem_cons, List.not_mem_nil, or_false, not_or] at hkey
  have hcopied := ((copyMissing_sections rendered "spinnerTipsEnabled"
    (copyMissing_sections rendered "outputStyle" hkeyed).1).1)
  rw [finished, List.foldl_cons, List.foldl_cons, List.foldl_nil, hcopied.field_removeField,
    if_neg hkey.1, copyMissing_field _ _ _ hkey.2.2, copyMissing_field _ _ _ hkey.2.1]

/-- A finished document has the copied fields and no servers. -/
theorem finished_done (hkeyed : Keyed final) : Keyed (finished rendered final) ∧
    field (finished rendered final) "mcpServers" = none ∧
    ∀ key ∈ ["outputStyle", "spinnerTipsEnabled"],
      rendered.get key = none ∨ (field (finished rendered final) key).isSome := by
  have hfirst := (copyMissing_sections rendered "outputStyle" hkeyed).1
  have hcopied := (copyMissing_sections rendered "spinnerTipsEnabled" hfirst).1
  refine ⟨hcopied.removeField, ?_, ?_⟩
  · rw [finished, List.foldl_cons, List.foldl_cons, List.foldl_nil, hcopied.field_removeField,
      if_pos rfl]
  · intro key hkey
    have hne : key ≠ "mcpServers" := by
      simp only [List.mem_cons, List.not_mem_nil, or_false] at hkey
      rcases hkey with rfl | rfl <;> decide
    rw [finished, List.foldl_cons, List.foldl_cons, List.foldl_nil, hcopied.field_removeField,
      if_neg hne]
    simp only [List.mem_cons, List.not_mem_nil, or_false] at hkey
    rcases hkey with rfl | rfl
    · rw [copyMissing_field _ _ _ (by decide)]
      exact copyMissing_isSome final "outputStyle"
    · exact copyMissing_isSome _ "spinnerTipsEnabled"

theorem finished_self (hservers : field settings "mcpServers" = none)
    (hcopied : ∀ key ∈ ["outputStyle", "spinnerTipsEnabled"],
      rendered.get key = none ∨ (field settings key).isSome) : finished rendered settings = settings := by
  rw [finished, List.foldl_cons, List.foldl_cons, List.foldl_nil,
    copyMissing_self _ _ (hcopied _ List.mem_cons_self),
    copyMissing_self _ _ (hcopied _ (List.mem_cons_of_mem _ List.mem_cons_self)),
    removeField_of_absent hservers]

theorem mem_documentClaims {list : List (String × Value)} {f : String × Value} {entry hook : Value}
    {command : String} (hf : f ∈ list) (hentry : entry ∈ entriesOf f.2) (hhook : hook ∈ hooksOf entry)
    (hcommand : hookCommand hook = some command) :
    ⟨f.1, matcherOf entry, command⟩ ∈ documentClaims list :=
  List.mem_flatMap.mpr ⟨f, hf, List.mem_flatMap.mpr ⟨entry, hentry, mem_listClaims hhook hcommand⟩⟩

theorem of_mem_documentClaims {list : List (String × Value)} {item : ClaimedHook}
    (h : item ∈ documentClaims list) : ∃ f ∈ list, ∃ entry ∈ entriesOf f.2, ∃ hook ∈ hooksOf entry,
      hookCommand hook = some item.command ∧ item.event = f.1 ∧ item.matcher = matcherOf entry := by
  obtain ⟨f, hf, h⟩ := List.mem_flatMap.mp h
  obtain ⟨entry, hentry, h⟩ := List.mem_flatMap.mp h
  obtain ⟨hook, hhook, h⟩ := List.mem_filterMap.mp h
  obtain ⟨command, hcommand, rfl⟩ := Option.map_eq_some_iff.mp h
  exact ⟨f, hf, entry, hentry, hook, hhook, hcommand, rfl, rfl⟩

theorem priorCommands_documentClaims (permissions : List String) :
    priorCommands (some ⟨documentClaims (sectionFields "hooks" rendered), permissions⟩) =
      installedCommands rendered := by
  refine List.map_congr_left fun item hitem => ?_
  obtain ⟨f, -, entry, -, hook, -, hcommand, -, -⟩ := of_mem_documentClaims hitem
  exact trim_hookCommand hcommand

variable {hooks result : List (String × Value)}

theorem calm_nil {target : TargetHook} {names : List String} : Calm join roots target names [] :=
  ⟨fun _ he => absurd he List.not_mem_nil, rfl⟩

/-- A target of a merged document is cleared to what gives the same entries again. -/
theorem target_again {claims : List ClaimedHook} {target : TargetHook} {entries : List Value}
    (horderly : Orderly rendered) (htarget : target ∈ targetHooks)
    (htemplate : Keyed (sectionFields "hooks" rendered))
    (hcalm : ∀ entries, field hooks target.event = some (.arr entries) →
      entries ≠ [] ∧ Calm join roots target (installedCommands rendered) entries)
    (h : (sectionFields "hooks" rendered).foldlM mergeEvent (hooks, []) = .ok (result, claims))
    (hentries : field result target.event = some (.arr entries)) :
    ∃ kept, clearEntries join roots (installedCommands rendered) target entries = .ok kept ∧
      (field (sectionFields "hooks" rendered) target.event = none →
        retainNonempty kept = entries ∧ entries ≠ []) ∧
      ∀ list, field (sectionFields "hooks" rendered) target.event = some (.arr list) → ∀ given,
        list.foldlM (mergeEntry target.event) (retainNonempty kept, given) =
          .ok (entries, given ++ templateClaims target.event list) := by
  obtain ⟨hrest, hmerged⟩ := mergeEvents_fields htemplate h
  cases hfield : field (sectionFields "hooks" rendered) target.event with
  | none =>
    rw [hrest _ hfield] at hentries
    obtain ⟨hne, hsettled, hunclaimed⟩ := hcalm entries hentries
    refine ⟨_, clearEntries_of_settled fun e he => (hsettled e he).mono, fun _ => ⟨?_, hne⟩,
      fun list hlist => (by cases hlist)⟩
    rw [retain_withoutClaimed, hunclaimed]
  | some v =>
    have hmem := mem_of_field hfield
    obtain ⟨list, old, merged, given, got, hlist, hold, hfold, hresult⟩ := hmerged _ hmem
    rw [hentries] at hresult
    cases hresult
    have hv : v = .arr list := hlist
    subst hv
    have hlast := horderly.targets target htarget
    have hlisted : entriesOf (hookEntries rendered target.event) = list := by
      rw [hookEntries_eq, entriesAt, hfield, Option.getD_some]
      rfl
    rw [hlisted] at hlast
    have hold_calm : Calm join roots target (installedCommands rendered) old := by
      rw [entriesAt] at hold
      cases hfound : field hooks target.event with
      | none =>
        rw [hfound] at hold
        cases hold
        exact calm_nil
      | some w =>
        rw [hfound] at hold
        cases hold
        exact (hcalm old hfound).2
    have hcommands : ∀ entry ∈ list, ∀ hook ∈ hooksOf entry, ∀ command,
        hookCommand hook = some command → command ∈ installedCommands rendered := by
      intro entry hentry hook hhook command hcommand
      exact List.mem_map.mpr ⟨_, mem_documentClaims hmem hentry hhook hcommand, rfl⟩
    obtain ⟨kept, hkept, hagain⟩ := rerun_entries hlast hcommands hold_calm hfold
    refine ⟨kept, hkept, fun h => (by cases h), fun list' hlist' => ?_⟩
    cases hlist'
    exact hagain

/-- The hooks of a merged document come back when they are merged again. -/
theorem hooks_again {claims : List ClaimedHook} (horderly : Orderly rendered)
    (htemplate : Keyed (sectionFields "hooks" rendered)) (hhooks : Keyed hooks)
    (hcalm : ∀ target ∈ targetHooks, ∀ entries, field hooks target.event = some (.arr entries) →
      entries ≠ [] ∧ Calm join roots target (installedCommands rendered) entries)
    (h : (sectionFields "hooks" rendered).foldlM mergeEvent (hooks, []) = .ok (result, claims)) :
    ∃ kept again, targetHooks.foldlM (clearTarget join roots (installedCommands rendered)) result =
        .ok kept ∧
      (sectionFields "hooks" rendered).foldlM mergeEvent (kept, []) = .ok (again, claims) ∧
      ∀ event, field again event = field result event := by
  have hevents : (targetHooks.map (·.event)).Nodup := by decide
  obtain ⟨hresult, hclaims, -⟩ := mergeEvents_spec htemplate hhooks h
  obtain ⟨hrest, hmerged⟩ := mergeEvents_fields htemplate h
  have htarget (target : TargetHook) (ht : target ∈ targetHooks) (entries : List Value)
      (hentries : field result target.event = some (.arr entries)) :=
    target_again horderly ht htemplate (hcalm target ht) h hentries
  obtain ⟨kept, hkept⟩ := clearTargets_ok hevents hresult fun target ht entries hentries =>
    (htarget target ht entries hentries).imp fun _ hcleared => hcleared.1
  obtain ⟨-, hcleared, hothers⟩ := clearTargets_cleared hevents hresult hkept
  have hrebuilt := @mergeEvents_rebuild kept result (sectionFields "hooks" rendered) htemplate
    (fun f hf => ?_) (fun event hevent => ?_) []
  · obtain ⟨again, hagain, hsame⟩ := hrebuilt
    refine ⟨kept, again, hkept, ?_, hsame⟩
    rw [hagain, hclaims]
  · obtain ⟨list, old, merged, given, got, hlist, -, hfold, hfield⟩ := hmerged f hf
    have hlisted : field (sectionFields "hooks" rendered) f.1 = some (.arr list) := by
      rw [← hlist]
      exact (field_eq_some_iff htemplate).mpr hf
    by_cases htargeted : f.1 ∈ targetHooks.map (·.event)
    · obtain ⟨target, ht, hevent⟩ := List.mem_map.mp htargeted
      rw [← hevent] at hfield hlisted ⊢
      obtain ⟨kept', hkept', -, hmerge⟩ := htarget target ht merged hfield
      obtain ⟨kept'', hkept'', hfound⟩ := (hcleared target ht).listed merged hfield
      rw [hkept'] at hkept''
      cases hkept''
      refine ⟨list, retainNonempty kept', merged, hlist, ?_, hfield, hmerge list hlisted⟩
      rw [entriesAt, hfound]
      split
      · next hempty => rw [List.isEmpty_iff.mp hempty]; rfl
      · rfl
    · refine ⟨list, merged, merged, hlist, ?_, hfield, fun given' => ?_⟩
      · rw [entriesAt, hothers f.1 htargeted, hfield]
        rfl
      · exact mergeEntries_of_absorbed (mergeEntries_grows hfold).2 given'
  · by_cases htargeted : event ∈ targetHooks.map (·.event)
    · obtain ⟨target, ht, rfl⟩ := List.mem_map.mp htargeted
      by_cases hlisted : ∃ entries, field result target.event = some (.arr entries)
      · obtain ⟨entries, hentries⟩ := hlisted
        obtain ⟨kept', hkept', hnone, -⟩ := htarget target ht entries hentries
        obtain ⟨kept'', hkept'', hfound⟩ := (hcleared target ht).listed entries hentries
        rw [hkept'] at hkept''
        cases hkept''
        obtain ⟨hsame, hne⟩ := hnone hevent
        rw [hfound, hsame, if_neg (by simpa using hne), hentries]
      · exact (hcleared target ht).unlisted fun entries hentries => hlisted ⟨entries, hentries⟩
    · exact hothers event htargeted

end Again

end RemyCC.Install
