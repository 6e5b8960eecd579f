import Congestion.Proofs.Checked
import Congestion.Proofs.Feedback.Recording
import Congestion.Proofs.Keys
import Mathlib.Algebra.Ring.Nat

/-!
# What a report covers

A report covers the sequence numbers in the ranges of its streams, each of them once
(`nodup_covered`), and its total count is how many there are (`length_covered`).
-/

set_option autoImplicit false
set_option relaxedAutoImplicit false

namespace Congestion.Report

variable {r : Report} {ssrc : UInt32} {seq : UInt16} {total : Nat}

/-- Every stream with each number in its range, received or not. -/
def covered (r : Report) : List (UInt32 × UInt16) :=
  r.toList.flatMap fun (ssrc, b) ↦ b.range.map (ssrc, ·)

theorem mem_covered_iff :
    (ssrc, seq) ∈ r.covered ↔ ∃ b, r.streams[ssrc]? = some b ∧ seq ∈ b.range := by
  simp only [covered, List.mem_flatMap, List.mem_map, Prod.exists, Prod.mk.injEq,
    mem_toList_iff, exists_eq_right_right]
  constructor
  · rintro ⟨_, b, hb, hseq, rfl⟩
    exact ⟨b, hb, hseq⟩
  · rintro ⟨b, hb, hseq⟩
    exact ⟨ssrc, b, hb, hseq, rfl⟩

/-- Whatever has arrived is covered. -/
theorem mem_covered_of_arrivals? {a : Arrival} (h : r.arrivals? ssrc seq = some a) :
    (ssrc, seq) ∈ r.covered := by
  obtain ⟨b, hb, hget⟩ := arrivals?_eq_some_iff.mp h
  exact mem_covered_iff.mpr ⟨b, hb, StreamArrivals.mem_range_of_get? hget⟩

theorem nodup_covered (r : Report) : r.covered.Nodup := by
  refine nodup_flatMap_of_keys Prod.fst r.nodup_toList (fun s _ ↦ ?_) fun s _ key hkey ↦ ?_
  · exact (StreamArrivals.nodup_range _).map fun _ _ heq ↦ congrArg Prod.snd heq
  · obtain ⟨_, -, rfl⟩ := List.mem_map.mp hkey
    rfl

theorem sum_of_foldlM_count {streams : List (UInt32 × StreamArrivals)} {start : Nat}
    (h : streams.foldlM (fun n (_, b) ↦ unsigned32 (n + b.count)) start = .ok total) :
    total = start + (streams.map fun s ↦ s.2.count).sum := by
  induction streams generalizing start with
  | nil =>
    cases h
    rfl
  | cons s rest ih =>
    rw [List.foldlM_cons] at h
    obtain ⟨next, hnext, hrest⟩ := bind_eq_ok_iff.mp h
    obtain ⟨rfl, -⟩ := unsigned32_eq_ok_iff.mp hnext
    rw [ih hrest, List.map_cons, List.sum_cons, Nat.add_assoc]

theorem length_covered_eq_sum (r : Report) :
    r.covered.length = (r.toList.map fun s ↦ s.2.count).sum := by
  rw [covered, List.length_flatMap]
  simp [StreamArrivals.length_range]

theorem length_covered (h : r.totalCount = .ok total) : r.covered.length = total := by
  rw [length_covered_eq_sum, sum_of_foldlM_count h, Nat.zero_add]

/-- A report that lists a stream covers a sequence number. -/
theorem totalCount_pos (hlisted : r.toList ≠ []) (h : r.totalCount = .ok total) : 0 < total := by
  obtain ⟨⟨ssrc, b⟩, hstream⟩ := List.exists_mem_of_ne_nil _ hlisted
  have hstream := mem_toList_iff.mp hstream
  obtain ⟨seq, hseq⟩ := StreamArrivals.exists_mem_of_ne_empty (r.nonempty ssrc b hstream)
  rw [← length_covered h]
  exact List.length_pos_of_mem
    (mem_covered_iff.mpr ⟨b, hstream, StreamArrivals.mem_range_of_mem hseq⟩)

end Congestion.Report
