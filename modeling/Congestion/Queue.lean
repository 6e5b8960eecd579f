/-!
# First in, first out

A queue in two lists, so that `push` is constant in cost and `popWhile` looks at each element once
over the life of the queue. Its meaning is `toList`: a push appends, and `popWhile` splits off the
longest run of elements from the front that satisfy a test.
-/

set_option autoImplicit false
set_option relaxedAutoImplicit false

namespace Congestion

structure Queue (α : Type) where
  front : List α := []
  back : List α := []
deriving DecidableEq

namespace Queue

variable {α : Type}

def toList (q : Queue α) : List α := q.front ++ q.back.reverse

def push (q : Queue α) (a : α) : Queue α := { q with back := a :: q.back }

def popWhile (q : Queue α) (p : α → Bool) : List α × Queue α :=
  match q.front.dropWhile p with
  | [] => (q.toList.takeWhile p, { front := q.toList.dropWhile p })
  | kept => (q.front.takeWhile p, { q with front := kept })

@[simp] theorem toList_push (q : Queue α) (a : α) : (q.push a).toList = q.toList ++ [a] := by
  simp [push, toList]

theorem popWhile_fst (q : Queue α) (p : α → Bool) :
    (q.popWhile p).1 = q.toList.takeWhile p := by
  unfold popWhile
  split
  · rfl
  next h =>
    have hlen : (q.front.takeWhile p).length ≠ q.front.length := by
      intro heq
      have hsum := congrArg List.length (List.takeWhile_append_dropWhile (p := p) (l := q.front))
      rw [List.length_append, heq] at hsum
      exact h (List.eq_nil_of_length_eq_zero (by omega))
    simp [toList, List.takeWhile_append, hlen]

@[simp] theorem toList_popWhile (q : Queue α) (p : α → Bool) :
    (q.popWhile p).2.toList = q.toList.dropWhile p := by
  unfold popWhile
  split
  · simp [toList]
  next h =>
    simp only [toList, List.dropWhile_append]
    rw [if_neg (by simpa using h)]

end Queue

end Congestion
