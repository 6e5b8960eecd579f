import Mathlib.Algebra.Order.Group.Int
import Mathlib.Data.List.TakeWhile
import Mathlib.Tactic.Common

/-!
# Windows in time

A window drops what has expired from its front, and stops at the first element that has not. Where
the times of its elements do not go back this drops all that has expired (`dropWhile_eq_filter`).

`Windowed` is what a window holds of a history that it has seen all of: of what is within the window
at any later time, it has dropped nothing. New elements are held as they come (`Windowed.append`),
and when the window has dropped what has expired by a time that is not before those it has been
asked about, it holds exactly what is within it of the whole history (`Windowed.expire`).
-/

set_option autoImplicit false
set_option relaxedAutoImplicit false

namespace Congestion

/-- Where a test holds of nothing after the first element it fails for, the elements it holds for
are at the front. -/
theorem takeWhile_eq_filter {α : Type} {p : α → Bool} {l : List α}
    (h : l.Pairwise fun a b ↦ p b → p a) : l.takeWhile p = l.filter p := by
  induction l with
  | nil => rfl
  | cons a rest ih =>
    obtain ⟨hhead, hrest⟩ := List.pairwise_cons.mp h
    by_cases ha : p a
    · rw [List.takeWhile_cons_of_pos ha, List.filter_cons_of_pos ha, ih hrest]
    · have hnone : ∀ b ∈ rest, ¬ p b := fun b hb hpb ↦ ha (hhead b hb hpb)
      rw [List.takeWhile_cons_of_neg ha, List.filter_cons_of_neg ha,
        List.filter_eq_nil_iff.mpr hnone]

theorem dropWhile_eq_filter {α : Type} {p : α → Bool} {l : List α}
    (h : l.Pairwise fun a b ↦ p b → p a) : l.dropWhile p = l.filter fun a ↦ !p a := by
  induction l with
  | nil => rfl
  | cons a rest ih =>
    obtain ⟨hhead, hrest⟩ := List.pairwise_cons.mp h
    by_cases ha : p a
    · rw [List.dropWhile_cons_of_pos ha, ih hrest, List.filter_cons_of_neg (by simpa using ha)]
    · have hall : ∀ b ∈ a :: rest, (!p b) = true := by
        refine List.forall_mem_cons.mpr ⟨by simpa using ha, fun b hb ↦ ?_⟩
        simpa using fun hpb ↦ ha (hhead b hb hpb)
      rw [List.dropWhile_cons_of_neg ha, List.filter_eq_self.mpr hall]

/-! ### Histories -/

section Histories

variable {α : Type} {time : α → Int} {length stop : Int} {stops : List Int} {history held : List α}

/-- The elements whose window has not ended before `stop`. -/
def within (time : α → Int) (length stop : Int) (l : List α) : List α :=
  l.filter fun a ↦ stop ≤ time a + length

theorem within_append (l later : List α) :
    within time length stop (l ++ later) = within time length stop l ++ within time length stop later :=
  List.filter_append ..

/-- Held of a history by a window that has been asked what is within it at some times. -/
structure Windowed (time : α → Int) (length : Int) (stops : List Int) (history held : List α) :
    Prop where
  sublist : held.Sublist history
  within_eq : ∀ stop, (∀ s ∈ stops, s ≤ stop) →
    within time length stop held = within time length stop history

theorem windowed_nil (time : α → Int) (length : Int) : Windowed time length [] [] [] :=
  ⟨.slnil, fun _ _ ↦ rfl⟩

theorem Windowed.append (h : Windowed time length stops history held) (new : List α) :
    Windowed time length stops (history ++ new) (held ++ new) where
  sublist := h.sublist.append_right new
  within_eq stop hstop := by
    rw [within_append, within_append, h.within_eq stop hstop]

theorem dropWhile_eq_within (hsorted : held.Pairwise fun a b ↦ time a ≤ time b) :
    (held.dropWhile fun a ↦ time a + length < stop) = within time length stop held := by
  rw [dropWhile_eq_filter (hsorted.imp fun hab hb ↦ ?_), within]
  · refine List.filter_congr fun a _ ↦ ?_
    rw [← decide_not, decide_eq_decide, Int.not_lt]
  · rw [decide_eq_true_eq] at hb ⊢
    omega

theorem Windowed.expire (h : Windowed time length stops history held)
    (hsorted : history.Pairwise fun a b ↦ time a ≤ time b) (hstop : ∀ s ∈ stops, s ≤ stop) :
    (held.dropWhile fun a ↦ time a + length < stop) = within time length stop history := by
  rw [dropWhile_eq_within (hsorted.sublist h.sublist), h.within_eq stop hstop]

/-- What has expired once has expired for good. -/
theorem windowed_within (stops : List Int) (history : List α) :
    Windowed time length (stops ++ [stop]) history (within time length stop history) where
  sublist := List.filter_sublist
  within_eq later hlater := by
    have hle : stop ≤ later := hlater stop (List.mem_append_right stops List.mem_cons_self)
    unfold within
    rw [List.filter_filter]
    refine List.filter_congr fun a _ ↦ ?_
    rw [← Bool.decide_and, decide_eq_decide]
    omega

end Histories

end Congestion
