import Mathlib.Data.String.Basic

/-!
# Digests known at some texts

A digest function may be given at the texts that it is wanted of, and stays
injective as long as no other text has one of these digests.
-/

namespace RemyCC.Text

variable {α : Type} [DecidableEq α]

def known (text : α) (digest : String) (hash : α → String) (other : α) : String :=
  if other = text then digest else hash other

theorem known_injective {text : α} {digest : String} {hash : α → String}
    (hhash : Function.Injective hash) (hother : ∀ other, hash other ≠ digest) :
    Function.Injective (known text digest hash) := by
  intro a b h
  unfold known at h
  split at h
  · next ha =>
    split at h
    · next hb => rw [ha, hb]
    · exact absurd h.symm (hother b)
  · split at h
    · exact absurd h (hother a)
    · exact hhash h

theorem known_ne {text : α} {digest : String} {hash : α → String} {digest' : String}
    (hdigest : digest ≠ digest') (hother : ∀ other, hash other ≠ digest') (other : α) :
    known text digest hash other ≠ digest' := by
  unfold known
  split
  · exact hdigest
  · exact hother other

/-- A text behind a dash, in the place of its digest. -/
def dashed (text : String) : String := "-" ++ text

theorem dashed_injective : Function.Injective dashed := fun _ _ h => (String.append_right_inj _).mp h

theorem dashed_ne {digest : String} (h : digest.toList.head? ≠ some '-') (text : String) :
    dashed text ≠ digest := by
  intro heq
  rw [← heq, dashed, String.toList_append] at h
  exact h rfl

end RemyCC.Text
