import Congestion.Units.SequenceNumber
import Mathlib.Algebra.Order.Group.Abs
import Mathlib.Algebra.Order.Group.Int
import Mathlib.Data.List.Chain

/-!
# Unwrapped sequence numbers

A sequence number is `wrapped t`, the low 16 bits of an integer `t` that a sender counts with. The
integers behind two numbers are not known, but the low 16 bits of their distance are
(`toNat_sub_wrapped`). What an unwrapper makes of a number is always an integer behind it
(`Unwrapper.wrapped_next`), and at most half the space from the one before
(`Unwrapper.abs_next_sub_le`): no other integer behind the number is as near, unless it is exactly as
far on the other side. An unwrapper takes the first number for itself, which is some whole turns of
the space from the integer that was meant (`turn`). From there on it stays as many turns from the
integers that it is fed, as long as these are less than half the space apart
(`Unwrapper.next_wrapped`).

Each of these steps is carried over a run by induction on the numbers still to come, from any
unwrapper (`Unwrapper.forall₂_follow`, `Unwrapper.isChain_follow`, `Unwrapper.follow_wrapped`). So a
new unwrapper recovers a sequence from its low 16 bits, up to the turns that its first number hides
(`Unwrapper.follow_recovers`).
-/

set_option autoImplicit false
set_option relaxedAutoImplicit false

namespace Congestion.SequenceNumber

/-- The low 16 bits of an integer. -/
def wrapped (t : Int) : UInt16 := UInt16.ofNat (t % 0x10000).toNat

/-- Neighbours are less than half the sequence space apart. -/
def CloseSteps (ts : List Int) : Prop := ts.IsChain fun t t' ↦ |t' - t| < 0x8000

/-- The whole turns of the space from integers to what an unwrapper makes of their low 16 bits: it
takes the first number for itself. -/
def turn : List Int → Int
  | [] => 0
  | t :: _ => t % 0x10000 - t

theorem toNat_wrapped (t : Int) : ((wrapped t).toNat : Int) = t % 0x10000 := by
  have hlow := Int.emod_nonneg t (by decide : (0x10000 : Int) ≠ 0)
  have hhigh := Int.emod_lt_of_pos t (by decide : (0 : Int) < 0x10000)
  rw [wrapped, UInt16.toNat_ofNat']
  omega

theorem turn_emod (ts : List Int) : turn ts % 0x10000 = 0 := by
  cases ts with
  | nil => rfl
  | cons t rest => simp only [turn]; omega

theorem turn_append {ts : List Int} (hts : ts ≠ []) (us : List Int) :
    turn (ts ++ us) = turn ts := by
  cases ts with
  | nil => exact absurd rfl hts
  | cons t rest => rfl

theorem wrapped_eq_iff {t u : Int} : wrapped t = wrapped u ↔ (t - u) % 0x10000 = 0 := by
  have ht := toNat_wrapped t
  have hu := toNat_wrapped u
  rw [← UInt16.toNat_inj]
  omega

@[simp] theorem wrapped_toNat (n : UInt16) : wrapped n.toNat = n := by
  have hlt := n.toNat_lt
  have hwrapped := toNat_wrapped n.toNat
  rw [← UInt16.toNat_inj]
  omega

/-- Whole turns of the space do not show in the low 16 bits. -/
theorem wrapped_add_turn (t : Int) (ts : List Int) : wrapped (t + turn ts) = wrapped t := by
  rw [wrapped, wrapped, Int.add_emod, turn_emod, Int.add_zero, Int.emod_emod]

theorem toNat_sub_wrapped (t u : Int) :
    ((wrapped t - wrapped u).toNat : Int) = (t - u) % 0x10000 := by
  have ht := toNat_wrapped t
  have hu := toNat_wrapped u
  have := (wrapped t).toNat_lt
  have := (wrapped u).toNat_lt
  rw [UInt16.toNat_sub]
  omega

/-- The distances of a number from the one last seen, ahead of it and behind it. -/
theorem toNat_sub_wrapped_toNat (n : UInt16) (t : Int) :
    ((n - wrapped t).toNat : Int) = (n.toNat - t) % 0x10000 ∧
      ((wrapped t - n).toNat : Int) = (t - n.toNat) % 0x10000 := by
  rw [← toNat_sub_wrapped, ← toNat_sub_wrapped, wrapped_toNat]
  exact ⟨rfl, rfl⟩

theorem isNewer_iff {a b : UInt16} : isNewer a b ↔
    (a - b).toNat = 0x8000 ∧ b.toNat < a.toNat ∨ 0 < (a - b).toNat ∧ (a - b).toNat < 0x8000 := by
  unfold isNewer
  split
  next hhalf => simp [hhalf, UInt16.lt_iff_toNat_lt]
  next hhalf =>
    have hne : (a - b).toNat ≠ 0x8000 := fun h ↦ hhalf (UInt16.toNat_inj.mp h)
    simp only [Bool.and_eq_true, decide_eq_true_eq, UInt16.lt_iff_toNat_lt, UInt16.toNat_ofNat]
    omega

namespace Unwrapper

variable {u : Unwrapper} {ts : List Int} {t : Int}

theorem next_of_last {last : Int} (hlast : u.last = some last) (n : UInt16) :
    u.next n = if isNewer n (wrapped last) then last + (n - wrapped last).toNat else
      last - (wrapped last - n).toNat := by
  unfold next
  rw [hlast]
  rfl

/-- Whatever came before, an unwrapper goes to an integer of the right residue. -/
theorem wrapped_next (u : Unwrapper) (n : UInt16) : wrapped (u.next n) = n := by
  cases hlast : u.last with
  | none =>
    rw [next, hlast]
    exact wrapped_toNat n
  | some last =>
    have ⟨hforward, hback⟩ := toNat_sub_wrapped_toNat n last
    rw [next_of_last hlast]
    conv_rhs => rw [← wrapped_toNat n]
    split <;> rw [wrapped_eq_iff] <;> omega

/-- Exactly half the space is reached where the number is as far ahead as behind. -/
theorem abs_next_sub_le {last : Int} (hlast : u.last = some last) (n : UInt16) :
    |u.next n - last| ≤ 0x8000 := by
  have ⟨hforward, hback⟩ := toNat_sub_wrapped_toNat n last
  have hnewer := @isNewer_iff n (wrapped last)
  rw [next_of_last hlast, abs_le]
  split
  next h =>
    have := hnewer.mp h
    omega
  next h =>
    have := hnewer.not.mp h
    omega

/-- What an unwrapper has produced last stays the same number of turns from the integer behind
it. -/
theorem next_wrapped (hlast : u.last = ts.getLast?.map (· + turn ts))
    (hts : CloseSteps (ts ++ [t])) : u.next (wrapped t) = t + turn (ts ++ [t]) := by
  cases hold : ts.getLast? with
  | none =>
    rw [hold] at hlast
    have hfirst := toNat_wrapped t
    rw [List.getLast?_eq_none_iff.mp hold, next, hlast]
    simp only [Option.map_none, turn, List.nil_append]
    omega
  | some t' =>
    have hne : ts ≠ [] := fun hnil ↦ by simp [hnil] at hold
    have hlast : u.last = some (t' + turn ts) := by rw [hlast, hold, Option.map_some]
    have hresidue : (u.next (wrapped t) - (t + turn ts)) % 0x10000 = 0 := by
      rw [← wrapped_eq_iff, wrapped_next, wrapped_add_turn]
    have hstep := abs_le.mp (abs_next_sub_le hlast (wrapped t))
    have hnear := abs_lt.mp ((List.isChain_append.mp hts).2.2 t' hold t rfl)
    -- no other integer of this residue is as near to the last one
    rw [turn_append hne]
    omega

/-! ### Runs -/

/-- Takes in numbers one after another, and gives what is made of each. -/
def follow (u : Unwrapper) : List UInt16 → List Int
  | [] => []
  | n :: rest =>
    let (t, u) := u.push n
    t :: u.follow rest

theorem follow_cons (u : Unwrapper) (n : UInt16) (rest : List UInt16) :
    u.follow (n :: rest) = u.next n :: follow ⟨some (u.next n)⟩ rest := rfl

theorem forall₂_follow (u : Unwrapper) (numbers : List UInt16) :
    List.Forall₂ (fun n t ↦ t % 0x10000 = (n.toNat : Int)) numbers (u.follow numbers) := by
  induction numbers generalizing u with
  | nil => exact .nil
  | cons n rest ih =>
    have hn : u.next n % 0x10000 = n.toNat := by
      rw [← toNat_wrapped, wrapped_next]
    exact .cons hn (ih _)

theorem isChain_follow (u : Unwrapper) (numbers : List UInt16) :
    (u.last.toList ++ u.follow numbers).IsChain fun t t' ↦ |t' - t| ≤ 0x8000 := by
  induction numbers generalizing u with
  | nil => cases u.last <;> simp [follow]
  | cons n rest ih =>
    have hrest := ih ⟨some (u.next n)⟩
    rw [follow_cons]
    cases hlast : u.last with
    | none => exact hrest
    | some last => exact List.isChain_cons_cons.mpr ⟨abs_next_sub_le hlast n, hrest⟩

/-- The bounds widen by half the space with each number. -/
theorem bounds_of_mem_follow {low high : Int} (hlow : low ≤ 0) (hhigh : 0xffff ≤ high)
    (hlast : ∀ last, u.last = some last → low ≤ last ∧ last ≤ high) {numbers : List UInt16} :
    ∀ t ∈ u.follow numbers,
      low - 0x8000 * numbers.length ≤ t ∧ t ≤ high + 0x8000 * numbers.length := by
  induction numbers generalizing u low high with
  | nil => exact fun t ht ↦ (by cases ht)
  | cons n rest ih =>
    have hnext : low - 0x8000 ≤ u.next n ∧ u.next n ≤ high + 0x8000 := by
      cases hold : u.last with
      | none =>
        have hn := n.toNat_lt
        have hfirst : u.next n = n.toNat := by rw [next, hold]
        omega
      | some last =>
        have := hlast last hold
        have := abs_le.mp (abs_next_sub_le hold n)
        omega
    have hrest := ih (u := ⟨some (u.next n)⟩) (by omega) (by omega)
      fun last h ↦ Option.some.inj h ▸ hnext
    rw [follow_cons, List.length_cons]
    intro t ht
    rcases List.mem_cons.mp ht with rfl | ht
    · omega
    · have := hrest t ht
      omega

/-- An unwrapper that is some turns from the integers so far stays as many turns from those still to
come. -/
theorem follow_wrapped {ts' : List Int} (hlast : u.last = ts.getLast?.map (· + turn ts))
    (hts : CloseSteps (ts ++ ts')) :
    u.follow (ts'.map wrapped) = ts'.map (· + turn (ts ++ ts')) := by
  induction ts' generalizing u ts with
  | nil => rfl
  | cons t rest ih =>
    have hsplit : ts ++ t :: rest = ts ++ [t] ++ rest := by simp
    rw [hsplit] at hts ⊢
    have hturn : turn (ts ++ [t] ++ rest) = turn (ts ++ [t]) := turn_append (by simp) rest
    have hnext := next_wrapped hlast (List.isChain_append.mp hts).1
    have hrest := ih (u := ⟨some (u.next (wrapped t))⟩)
      (by rw [hnext, List.getLast?_concat]; rfl) hts
    rw [List.map_cons, follow_cons, hrest, hnext, List.map_cons, hturn]

/-- What a new unwrapper makes of numbers has these numbers as its low 16 bits, begins with the first
number itself and goes on in steps of at most half the space. Of the low 16 bits of integers less than
half the space apart it makes these integers, all moved by the same whole turns of the space, however
often they go round it and to whichever side. Fewer than 2^48 - 1 numbers leave all that is made of
them within 64-bit words. -/
theorem follow_recovers (numbers : List UInt16) :
    List.Forall₂ (fun n t ↦ t % 0x10000 = (n.toNat : Int)) numbers
      (({} : Unwrapper).follow numbers) ∧
    (({} : Unwrapper).follow numbers).head? = numbers.head?.map (fun n ↦ (n.toNat : Int)) ∧
    (({} : Unwrapper).follow numbers).IsChain (fun t t' ↦ |t' - t| ≤ 0x8000) ∧
    (∀ ts, CloseSteps ts → ts.map wrapped = numbers →
      ∃ turns : Int, ({} : Unwrapper).follow numbers = ts.map (· + turns * 0x10000)) ∧
    (numbers.length < 0xffffffffffff → ∀ t ∈ ({} : Unwrapper).follow numbers,
      -0x8000000000000000 ≤ t ∧ t ≤ 0x7fffffffffffffff) := by
  refine ⟨forall₂_follow _ numbers, ?_, isChain_follow {} numbers, ?_, fun hlength t ht ↦ ?_⟩
  · cases numbers <;> rfl
  · rintro ts hts rfl
    obtain ⟨turns, hturns⟩ := Int.dvd_of_emod_eq_zero (turn_emod ts)
    have hrun : ({} : Unwrapper).follow (ts.map wrapped) = ts.map (· + turn ts) :=
      @follow_wrapped {} [] ts rfl hts
    rw [hturns, Int.mul_comm] at hrun
    exact ⟨turns, hrun⟩
  · have := bounds_of_mem_follow (u := {}) (Int.le_refl 0) (Int.le_refl 0xffff)
      (fun last h ↦ (by cases h)) t ht
    omega

/-- Twice round the space ahead, and back again below where it began. -/
def thereAndBack : List Int :=
  [-3, 20000, 50000, 70000, 100000, 131069, 100000, 70000, 40000, 10000, -20000, -50000, -70000]

/-- The first number hides one turn, and so what is made of the last is below zero by one turn less. -/
theorem follow_recovers_thereAndBack : CloseSteps thereAndBack ∧
    ({} : Unwrapper).follow (thereAndBack.map wrapped) = thereAndBack.map (· + 0x10000) ∧
    (({} : Unwrapper).follow (thereAndBack.map wrapped)).getLast? = some (-4464) := by
  have hclose : CloseSteps thereAndBack := by unfold CloseSteps; decide
  obtain ⟨-, hfirst, -, hrecovers, -⟩ := follow_recovers (thereAndBack.map wrapped)
  obtain ⟨turns, hturns⟩ := hrecovers thereAndBack hclose rfl
  obtain rfl : turns = 1 := by
    rw [hturns] at hfirst
    have hfirst : -3 + turns * 0x10000 = 0xfffd := Option.some.inj hfirst
    omega
  exact ⟨hclose, hturns, by rw [hturns]; rfl⟩

end Unwrapper

end Congestion.SequenceNumber
