import RemyCC.Index.Synth
import Mathlib.Data.List.Forall2
import Mathlib.Data.List.Induction

/-!
# Emitting edges in rounds

A synthesizer goes through rounds of candidate edges. A round stops when it has
emitted as many edges as the cap allows, and an edge whose key any round has
emitted before is passed over and not counted.
-/

namespace RemyCC.Index

open Relational

/-- The candidates in turn, until the cap on emitted edges is reached. -/
def emitUpTo (cap : Nat) : Nat → List InferredEdge → List InferredEdge → List InferredEdge
  | _, [], out => out
  | added, e :: rest, out =>
    if cap ≤ added then out
    else match emitUnseen e out with
      | some out => emitUpTo cap (added + 1) rest out
      | none => emitUpTo cap added rest out

def emitRounds (cap : Nat) (rounds : List (List InferredEdge)) (out : List InferredEdge) :
    List InferredEdge := rounds.foldl (fun out round => emitUpTo cap 0 round out) out

/-- No two of the edges share their key. -/
def Distinct (edges : List InferredEdge) : Prop := edges.Pairwise fun e f => e.sameKey f = false

section Rounds

variable {cap added : Nat} {out round emitted : List InferredEdge} {e f : InferredEdge}

theorem sameKey_iff : e.sameKey f = true ↔ e.sourceFile = f.sourceFile ∧ e.caller = f.caller ∧
    e.calleeQualified = f.calleeQualified ∧ e.via = f.via := by
  simp [InferredEdge.sameKey, and_assoc]

theorem sameKey_comm (e f : InferredEdge) : e.sameKey f = f.sameKey e := by
  rw [Bool.eq_iff_iff, sameKey_iff, sameKey_iff]
  constructor <;> exact fun ⟨h₁, h₂, h₃, h₄⟩ => ⟨h₁.symm, h₂.symm, h₃.symm, h₄.symm⟩

theorem Distinct.concat (h : Distinct out) (hnew : out.any e.sameKey = false) :
    Distinct (out ++ [e]) := by
  refine List.pairwise_append.mpr ⟨h, List.pairwise_singleton _ _, fun f hf g hg => ?_⟩
  rw [List.mem_singleton.mp hg, sameKey_comm]
  simpa using List.any_eq_false.mp hnew f hf

/-- What one round adds to the edges emitted before it. -/
structure Emits (cap added : Nat) (round out emitted : List InferredEdge) : Prop where
  sublist : List.Sublist emitted round
  capped : added ≤ cap → added + emitted.length ≤ cap
  complete : added + emitted.length < cap → ∀ e ∈ round, (out ++ emitted).any e.sameKey = true
  distinct : Distinct out → Distinct (out ++ emitted)

theorem emitUpTo_emits (cap added : Nat) (round out : List InferredEdge) :
    ∃ emitted, emitUpTo cap added round out = out ++ emitted ∧
      Emits cap added round out emitted := by
  induction round generalizing added out with
  | nil =>
    refine ⟨[], (List.append_nil out).symm, .refl _, fun h => h, fun _ e he => ?_, fun h => ?_⟩
    · cases he
    · rwa [List.append_nil]
  | cons e round ih =>
    unfold emitUpTo
    by_cases hcap : cap ≤ added
    · rw [if_pos hcap]
      refine ⟨[], (List.append_nil out).symm, List.nil_sublist _, fun h => h, fun h => ?_, fun h => ?_⟩
      · rw [List.length_nil] at h
        omega
      · rwa [List.append_nil]
    rw [if_neg hcap]
    unfold emitUnseen
    by_cases hseen : out.any e.sameKey = true
    · rw [if_pos hseen]
      obtain ⟨emitted, heq, hemits⟩ := ih added out
      refine ⟨emitted, heq, hemits.sublist.cons e, hemits.capped, fun h f hf => ?_, hemits.distinct⟩
      rcases List.mem_cons.mp hf with rfl | hf
      · rw [List.any_append, hseen, Bool.true_or]
      · exact hemits.complete h f hf
    · rw [if_neg hseen]
      obtain ⟨emitted, heq, hemits⟩ := ih (added + 1) (out ++ [e])
      have happend : out ++ [e] ++ emitted = out ++ e :: emitted := by
        rw [List.append_assoc, List.singleton_append]
      refine ⟨e :: emitted, heq.trans happend, hemits.sublist.cons₂ e, fun h => ?_,
        fun h f hf => ?_, fun h => ?_⟩
      · have hcapped := hemits.capped (by omega)
        rw [List.length_cons]
        omega
      · rw [List.length_cons] at h
        rw [← happend]
        rcases List.mem_cons.mp hf with rfl | hf
        · simp [InferredEdge.sameKey]
        · exact hemits.complete (by omega) f hf
      · rw [← happend]
        exact hemits.distinct (h.concat (by simpa using hseen))

/-- What a round has emitted, seen from the end of all rounds. -/
structure Round (cap : Nat) (out round emitted : List InferredEdge) : Prop where
  sublist : List.Sublist emitted round
  capped : emitted.length ≤ cap
  complete : emitted.length < cap → ∀ e ∈ round, out.any e.sameKey = true

theorem Round.append (h : Round cap out round emitted) (more : List InferredEdge) :
    Round cap (out ++ more) round emitted :=
  ⟨h.sublist, h.capped, fun hlt e he => by rw [List.any_append, h.complete hlt e he, Bool.true_or]⟩

/-- The emitted edges are those of the rounds one after the other. -/
theorem emitRounds_rounds (cap : Nat) (rounds : List (List InferredEdge))
    (out : List InferredEdge) :
    ∃ emitted, emitRounds cap rounds out = out ++ emitted.flatten ∧
      List.Forall₂ (Round cap (emitRounds cap rounds out)) rounds emitted ∧
      (Distinct out → Distinct (emitRounds cap rounds out)) := by
  induction rounds using List.reverseRecOn with
  | nil => exact ⟨[], (List.append_nil out).symm, .nil, fun h => h⟩
  | append_singleton rounds round ih =>
    obtain ⟨emitted, heq, hrounds, hdistinct⟩ := ih
    have hlast : emitRounds cap (rounds ++ [round]) out =
        emitUpTo cap 0 round (emitRounds cap rounds out) := by
      unfold emitRounds
      rw [List.foldl_append]
      rfl
    obtain ⟨new, hnew, hemits⟩ := emitUpTo_emits cap 0 round (emitRounds cap rounds out)
    refine ⟨emitted ++ [new], ?_, ?_, fun h => ?_⟩
    · rw [hlast, hnew, heq, List.flatten_append, List.append_assoc]
      simp
    · rw [hlast, hnew]
      refine List.rel_append (hrounds.imp fun _ _ h => h.append new) (.cons ?_ .nil)
      exact ⟨hemits.sublist, by simpa using hemits.capped (Nat.zero_le _),
        fun hlt => hemits.complete (by simpa using hlt)⟩
    · rw [hlast, hnew]
      exact hemits.distinct (hdistinct h)

theorem flatten_sublist {rounds emitted : List (List InferredEdge)}
    (h : List.Forall₂ (Round cap out) rounds emitted) :
    List.Sublist emitted.flatten rounds.flatten := by
  induction h with
  | nil => exact .refl _
  | cons hround _ ih => exact hround.sublist.append ih

theorem mem_emitRounds {rounds : List (List InferredEdge)} (h : e ∈ emitRounds cap rounds []) :
    ∃ round ∈ rounds, e ∈ round := by
  obtain ⟨emitted, heq, hrounds, -⟩ := emitRounds_rounds cap rounds []
  rw [heq, List.nil_append] at h
  exact List.mem_flatten.mp ((flatten_sublist hrounds).subset h)

theorem exists_emitted {rounds news : List (List InferredEdge)}
    (h : List.Forall₂ (Round cap out) rounds news) :
    ∀ round ∈ rounds, ∃ new, List.Sublist new news.flatten ∧ Round cap out round new := by
  induction h with
  | nil => exact fun _ h => by cases h
  | cons hround _ ih =>
    intro round h
    rcases List.mem_cons.mp h with rfl | h
    · exact ⟨_, List.sublist_append_left _ _, hround⟩
    · obtain ⟨new, hsub, hnew⟩ := ih round h
      exact ⟨new, hsub.trans (List.sublist_append_right _ _), hnew⟩

/-- Each round has emitted all of its edges, or as many as the cap allows. -/
theorem emitRounds_complete {rounds : List (List InferredEdge)} (h : round ∈ rounds) :
    ∃ emitted, List.Sublist emitted (emitRounds cap rounds []) ∧
      Round cap (emitRounds cap rounds []) round emitted := by
  obtain ⟨news, heq, hrounds, -⟩ := emitRounds_rounds cap rounds []
  obtain ⟨emitted, hsub, hround⟩ := exists_emitted hrounds round h
  refine ⟨emitted, ?_, hround⟩
  rwa [heq, List.nil_append]

theorem emitRounds_distinct (rounds : List (List InferredEdge)) :
    Distinct (emitRounds cap rounds []) := by
  obtain ⟨-, -, -, hdistinct⟩ := emitRounds_rounds cap rounds []
  exact hdistinct .nil

end Rounds

section Insertion

variable {d : Database} {e : InferredEdge} {edges : List InferredEdge}

/-- The columns that the index of inferred edges is unique by. -/
def EdgeRow.inferredKey (r : EdgeRow) : String × String × Option String × Option String :=
  (r.sourceFile, r.caller, r.calleeQualified, r.via)

def InferredEdge.key (e : InferredEdge) : String × String × Option String × Option String :=
  (e.sourceFile, e.caller, some e.calleeQualified, some e.via)

def inferredKeys (d : Database) : List (String × String × Option String × Option String) :=
  (d.edges.rows.filter fun r => !r.direct).map EdgeRow.inferredKey

theorem any_clashes_iff : d.edges.rows.any e.clashes = true ↔ e.key ∈ inferredKeys d := by
  simp only [List.any_eq_true, InferredEdge.clashes, inferredKeys, List.mem_map, List.mem_filter,
    Bool.and_eq_true, beq_iff_eq, EdgeRow.inferredKey, InferredEdge.key, Prod.mk.injEq, and_assoc]

theorem inferredKeys_insertInferred (d : Database) (e : InferredEdge) :
    inferredKeys (insertInferred d e) =
      if e.key ∈ inferredKeys d then inferredKeys d else inferredKeys d ++ [e.key] := by
  unfold insertInferred
  simp only [any_clashes_iff]
  split
  · rfl
  · unfold inferredKeys
    rw [Numbered.insert_rows, List.filter_append, List.map_append]
    rfl

theorem insertAll_cons : insertAll (e :: edges) d = insertAll edges (insertInferred d e) := rfl

theorem mem_insertInferred {r : EdgeRow} (h : r ∈ (insertInferred d e).edges.rows) :
    r ∈ d.edges.rows ∨ r = e.row r.id := by
  unfold insertInferred at h
  split at h
  · exact .inl h
  · rw [Numbered.insert_rows] at h
    rcases List.mem_append.mp h with h | h
    · exact .inl h
    · rw [List.mem_singleton.mp h]
      exact .inr rfl

/-- What is stored was stored before or was emitted. -/
theorem mem_insertAll {r : EdgeRow} (h : r ∈ (insertAll edges d).edges.rows) :
    r ∈ d.edges.rows ∨ ∃ e ∈ edges, r = e.row r.id := by
  induction edges generalizing d with
  | nil => exact .inl h
  | cons e edges ih =>
    rcases ih h with h | ⟨f, hf, hr⟩
    · rcases mem_insertInferred h with h | h
      · exact .inl h
      · exact .inr ⟨e, List.mem_cons_self, h⟩
    · exact .inr ⟨f, List.mem_cons_of_mem _ hf, hr⟩

theorem inferredKeys_insertAll_subset (edges : List InferredEdge) (d : Database) :
    inferredKeys d ⊆ inferredKeys (insertAll edges d) := by
  induction edges generalizing d with
  | nil => exact fun _ h => h
  | cons e edges ih =>
    refine List.Subset.trans ?_ (ih (insertInferred d e))
    rw [inferredKeys_insertInferred]
    split
    · exact fun _ h => h
    · exact List.subset_append_left _ _

/-- What is emitted is stored, by itself or by an inferred edge with its key. -/
theorem key_mem_insertAll (h : e ∈ edges) : e.key ∈ inferredKeys (insertAll edges d) := by
  induction edges generalizing d with
  | nil => cases h
  | cons f edges ih =>
    rw [insertAll_cons]
    rcases List.mem_cons.mp h with rfl | h
    · refine inferredKeys_insertAll_subset edges _ ?_
      rw [inferredKeys_insertInferred]
      split
      · assumption
      · exact List.mem_append_right _ (List.mem_singleton_self _)
    · exact ih h

theorem nodup_insertAll (h : (inferredKeys d).Nodup) :
    (inferredKeys (insertAll edges d)).Nodup := by
  induction edges generalizing d with
  | nil => exact h
  | cons e edges ih =>
    refine ih ?_
    rw [inferredKeys_insertInferred]
    split
    · exact h
    · next hnew =>
      refine List.nodup_append.mpr ⟨h, List.nodup_singleton _, fun k hk k' hk' heq => hnew ?_⟩
      rw [← List.mem_singleton.mp hk', ← heq]
      exact hk

end Insertion

end RemyCC.Index
