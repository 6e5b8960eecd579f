import Congestion.Feedback.Arrival
import Mathlib.Data.List.Nodup
import Mathlib.Tactic.Common

/-!
# What the range of a stream covers

The range that a report gives for a stream covers every sequence number that has arrived, each of
its numbers once, whether the stream has wrapped or not. `Span.Bounds` is what the choice between
the two halves of the sequence space guarantees (`span?_bounds`): the span is at most the whole
space long, and every arrival lies in it. From it, `mem_range_of_mem` and `nodup_range` are all
that reading and writing need, and `mem_entries_iff` says that the entries are the arrivals.
-/

set_option autoImplicit false
set_option relaxedAutoImplicit false

namespace Congestion.StreamArrivals

/-- A span with all arrivals of a stream in it, no longer than the sequence space. -/
structure Span.Bounds (s : Span) (b : StreamArrivals) : Prop where
  ordered : s.first ≤ s.last
  short : s.last - s.first < 65536
  covers : ∀ seq ∈ b.arrivals, ∃ n, s.first ≤ n ∧ n ≤ s.last ∧ n % 65536 = seq.toNat

theorem mem_numbers_iff (b : StreamArrivals) (n : Nat) :
    n ∈ b.arrivals.keys.map UInt16.toNat ↔ ∃ seq ∈ b.arrivals, seq.toNat = n := by
  simp only [List.mem_map, Std.ExtTreeMap.mem_keys]

theorem exists_mem_of_ne_empty {b : StreamArrivals} (h : b.arrivals ≠ ∅) :
    ∃ seq, seq ∈ b.arrivals := by
  have hkeys : b.arrivals.keys ≠ [] := fun hnil ↦ h (Std.ExtTreeMap.keys_eq_nil_iff.mp hnil)
  obtain ⟨seq, hseq⟩ := List.exists_mem_of_ne_nil _ hkeys
  exact ⟨seq, Std.ExtTreeMap.mem_keys.mp hseq⟩

/-- The numbers that satisfy a test lie between the least and the greatest of them. -/
theorem between_of_filter {l : List Nat} {p : Nat → Bool} {lo hi n : Nat}
    (hlo : (l.filter p).min? = some lo) (hhi : (l.filter p).max? = some hi) (hn : n ∈ l)
    (hp : p n) : lo ≤ n ∧ n ≤ hi :=
  have hmem := List.mem_filter.mpr ⟨hn, hp⟩
  ⟨(List.min?_eq_some_iff.mp hlo).2 n hmem, (List.max?_eq_some_iff.mp hhi).2 n hmem⟩

theorem le_of_filter {l : List Nat} {p : Nat → Bool} {lo hi : Nat}
    (hlo : (l.filter p).min? = some lo) (hhi : (l.filter p).max? = some hi) :
    lo ≤ hi ∧ p lo ∧ p hi ∧ lo ∈ l ∧ hi ∈ l := by
  obtain ⟨hlo, hleast⟩ := List.min?_eq_some_iff.mp hlo
  obtain ⟨hhi, -⟩ := List.max?_eq_some_iff.mp hhi
  exact ⟨hleast hi hhi, (List.mem_filter.mp hlo).2, (List.mem_filter.mp hhi).2,
    (List.mem_filter.mp hlo).1, (List.mem_filter.mp hhi).1⟩

theorem not_of_filter_min?_eq_none {l : List Nat} {p : Nat → Bool}
    (h : (l.filter p).min? = none) {n : Nat} (hn : n ∈ l) : ¬ p n := by
  rw [List.min?_eq_none_iff, List.filter_eq_nil_iff] at h
  exact h n hn

theorem mem_numbers {b : StreamArrivals} {seq : UInt16} (h : seq ∈ b.arrivals) :
    seq.toNat ∈ b.arrivals.keys.map UInt16.toNat := (mem_numbers_iff b _).mpr ⟨seq, h, rfl⟩

theorem numbers_lt {b : StreamArrivals} {n : Nat} (h : n ∈ b.arrivals.keys.map UInt16.toNat) :
    n < 65536 := by
  obtain ⟨seq, -, rfl⟩ := (mem_numbers_iff b n).mp h
  exact seq.toNat_lt

/-- Where one half of the sequence space has all arrivals, it is not unwrapped. -/
theorem bounds_of_half {b : StreamArrivals} {p : Nat → Bool} {lo hi : Nat}
    (hlo : ((b.arrivals.keys.map UInt16.toNat).filter p).min? = some lo)
    (hhi : ((b.arrivals.keys.map UInt16.toNat).filter p).max? = some hi)
    (hall : ∀ seq ∈ b.arrivals, p seq.toNat) : Span.Bounds ⟨lo, hi⟩ b := by
  obtain ⟨hle, -, -, -, hhil⟩ := le_of_filter hlo hhi
  have hlast := numbers_lt hhil
  refine ⟨hle, by dsimp only; omega, fun seq hseq ↦ ⟨seq.toNat, ?_⟩⟩
  have hbetween := between_of_filter hlo hhi (mem_numbers hseq) (hall seq hseq)
  exact ⟨hbetween.1, hbetween.2, Nat.mod_eq_of_lt seq.toNat_lt⟩

theorem span?_bounds {b : StreamArrivals} {s : Span} (h : b.span? = some s) : s.Bounds b := by
  unfold span? at h
  dsimp only at h
  split at h
  next lo hi hlo hhi hnone =>
    cases h
    refine bounds_of_half hlo hhi fun seq hseq ↦ ?_
    have hfront := not_of_filter_min?_eq_none hnone (mem_numbers hseq)
    simp only [decide_eq_true_eq] at hfront ⊢
    omega
  next lo hi hnone hlo hhi =>
    cases h
    refine bounds_of_half hlo hhi fun seq hseq ↦ ?_
    have hrear := not_of_filter_min?_eq_none hnone (mem_numbers hseq)
    simp only [decide_eq_true_eq] at hrear ⊢
    omega
  next lo hi lo' hi' hlo hhi hlo' hhi' =>
    obtain ⟨hle, hloHalf, hhiHalf, hlol, hhil⟩ := le_of_filter hlo hhi
    obtain ⟨hle', hloHalf', hhiHalf', hlol', hhil'⟩ := le_of_filter hlo' hhi'
    simp only [decide_eq_true_eq] at hloHalf hhiHalf hloHalf' hhiHalf'
    have hlast := numbers_lt hhil'
    have hhalf : ∀ seq ∈ b.arrivals, lo ≤ seq.toNat ∧ seq.toNat ≤ hi ∨
        lo' ≤ seq.toNat ∧ seq.toNat ≤ hi' := by
      intro seq hseq
      by_cases hfront : seq.toNat ≤ 32768
      · exact Or.inl (between_of_filter hlo hhi (mem_numbers hseq) (by simpa using hfront))
      · exact Or.inr (between_of_filter hlo' hhi' (mem_numbers hseq) (by simp; omega))
    split at h <;> cases h
    · -- wrapped: the front half comes after the rear half
      refine ⟨by dsimp only; omega, by dsimp only; omega, fun seq hseq ↦ ?_⟩
      dsimp only
      rcases hhalf seq hseq with hfront | hrear
      · exact ⟨seq.toNat + 65536, by omega, by omega, by have := seq.toNat_lt; omega⟩
      · exact ⟨seq.toNat, by omega, by omega, Nat.mod_eq_of_lt seq.toNat_lt⟩
    · refine ⟨by dsimp only; omega, by dsimp only; omega, fun seq hseq ↦ ⟨seq.toNat, ?_⟩⟩
      have := hhalf seq hseq
      exact ⟨by dsimp only; omega, by dsimp only; omega, Nat.mod_eq_of_lt seq.toNat_lt⟩
  next => cases h

/-- Only a stream without arrivals has no span. -/
theorem arrivals_eq_empty_of_span? {b : StreamArrivals} (h : b.span? = none) : b.arrivals = ∅ := by
  have hnil : b.arrivals.keys.map UInt16.toNat = [] := by
    rw [List.eq_nil_iff_forall_not_mem]
    intro n hn
    unfold span? at h
    dsimp only at h
    cases hfront : (b.arrivals.keys.map UInt16.toNat).filter (· ≤ 32768) with
    | nil =>
      cases hrear : (b.arrivals.keys.map UInt16.toNat).filter (32768 < ·) with
      | nil =>
        have hnot := List.filter_eq_nil_iff.mp hfront n hn
        have hnot' := List.filter_eq_nil_iff.mp hrear n hn
        simp only [decide_eq_true_eq] at hnot hnot'
        omega
      | cons m ms => simp [hfront, hrear, List.min?, List.max?] at h
    | cons m ms =>
      cases hrear : (b.arrivals.keys.map UInt16.toNat).filter (32768 < ·) with
      | nil => simp [hfront, hrear, List.min?, List.max?] at h
      | cons m' ms' => simp [hfront, hrear, List.min?, List.max?] at h
  exact Std.ExtTreeMap.keys_eq_nil_iff.mp (List.map_eq_nil_iff.mp hnil)

/-! ### The range -/

theorem count_le (b : StreamArrivals) : b.count ≤ 65536 := by
  unfold count
  split
  next s hs => have := (span?_bounds hs).short; omega
  next => omega

theorem length_range (b : StreamArrivals) : b.range.length = b.count := by
  simp [range]

theorem firstSeq_add_inj {b : StreamArrivals} {i j : Nat} (hi : i < b.count) (hj : j < b.count)
    (h : b.firstSeq + UInt16.ofNat i = b.firstSeq + UInt16.ofNat j) : i = j := by
  have hcount := b.count_le
  have hsame : UInt16.ofNat i = UInt16.ofNat j := by grind
  have hnat := congrArg UInt16.toNat hsame
  rw [UInt16.toNat_ofNat', UInt16.toNat_ofNat'] at hnat
  omega

theorem nodup_range (b : StreamArrivals) : b.range.Nodup := by
  unfold range
  refine List.Nodup.map_on ?_ List.nodup_range
  intro i hi j hj h
  exact firstSeq_add_inj (List.mem_range.mp hi) (List.mem_range.mp hj) h

theorem mem_range_of_mem {b : StreamArrivals} {seq : UInt16} (h : seq ∈ b.arrivals) :
    seq ∈ b.range := by
  cases hs : b.span? with
  | none =>
    rw [arrivals_eq_empty_of_span? hs] at h
    exact absurd h Std.ExtTreeMap.not_mem_empty
  | some s =>
    obtain ⟨hordered, hshort, hcovers⟩ := span?_bounds hs
    obtain ⟨n, hfirst, hlast, hmod⟩ := hcovers seq h
    have hcount : b.count = s.last - s.first + 1 := by simp [count, hs]
    refine List.mem_map.mpr ⟨n - s.first, List.mem_range.mpr (by omega), ?_⟩
    apply UInt16.toNat_inj.mp
    have hlastSeq : b.lastSeq = UInt16.ofNat s.last := by simp [lastSeq, hs]
    simp only [firstSeq, hlastSeq, hcount, UInt16.toNat_add, UInt16.toNat_sub, UInt16.toNat_ofNat']
    omega

theorem mem_range_of_get? {b : StreamArrivals} {seq : UInt16} {a : Arrival}
    (h : b.get? seq = some a) : seq ∈ b.range :=
  mem_range_of_mem (Std.ExtTreeMap.mem_iff_isSome_getElem?.mpr (Option.isSome_of_mem h))

theorem get?_eq_none_iff (b : StreamArrivals) (seq : UInt16) :
    b.get? seq = none ↔ seq ∉ b.arrivals := by
  simp [get?]

theorem mem_entries_iff {b : StreamArrivals} {seq : UInt16} {a : Arrival} :
    (seq, a) ∈ b.entries ↔ b.get? seq = some a := by
  unfold entries
  rw [List.mem_filterMap]
  constructor
  · rintro ⟨seq', -, h⟩
    obtain ⟨a', ha', h⟩ := Option.map_eq_some_iff.mp h
    cases h
    exact ha'
  · intro h
    exact ⟨seq, mem_range_of_get? h, by rw [h]; rfl⟩

end Congestion.StreamArrivals
