import Congestion.Proofs.Feedback.Recording
import Congestion.Proofs.Keys
import Mathlib.Data.List.Range
import Mathlib.Data.List.Perm.Subperm

/-!
# The range of what has been inserted

`StreamArrivals.insertAll` inserts a list of arrivals in its order. What a number has afterwards is
the first arrival inserted for it (`get?_insertAll`). The ends of the span are numbers that have
arrived themselves (`Span.Bounds.first_mem`, `Span.Bounds.last_mem`), so the range goes from a
number received to a number received, one up at each step, and the entries list every arrival once
(`entries_perm`). `coversOnce_insertAll` puts this together for every list of insertions.
-/

set_option autoImplicit false
set_option relaxedAutoImplicit false

namespace Congestion.StreamArrivals

/-! ### Insertions in a row -/

def insertAll (b : StreamArrivals) (inserted : List (UInt16 × Arrival)) : StreamArrivals :=
  inserted.foldl (fun b x ↦ b.insertNew x.1 x.2) b

@[simp] theorem get?_empty (seq : UInt16) : ({} : StreamArrivals).get? seq = none := by
  simp [get?]

theorem get?_insertAll (b : StreamArrivals) (inserted : List (UInt16 × Arrival)) (seq : UInt16) :
    (b.insertAll inserted).get? seq =
      (b.get? seq).or ((inserted.find? (·.1 = seq)).map Prod.snd) := by
  unfold insertAll
  induction inserted generalizing b with
  | nil => simp
  | cons x rest ih =>
    rw [List.foldl_cons, ih, get?_insertNew, List.find?_cons]
    by_cases hseq : seq = x.1
    · subst hseq
      cases b.get? x.1 <;> simp
    · simp [hseq, Ne.symm hseq]

theorem mem_iff_get?_isSome {b : StreamArrivals} {seq : UInt16} :
    seq ∈ b.arrivals ↔ (b.get? seq).isSome := by
  simp [get?]

/-! ### The ends of the range -/

section Ends

variable {b : StreamArrivals} {s : Span}

theorem ofNat_mem_of_mem_numbers {n : Nat} (h : n ∈ b.arrivals.keys.map UInt16.toNat) :
    UInt16.ofNat n ∈ b.arrivals := by
  obtain ⟨seq, hseq, rfl⟩ := (mem_numbers_iff b n).mp h
  rwa [UInt16.ofNat_toNat]

/-- Both ends of a span have arrived, the last one also where it is counted beyond 65535. -/
theorem span?_ends (h : b.span? = some s) :
    UInt16.ofNat s.first ∈ b.arrivals ∧ UInt16.ofNat s.last ∈ b.arrivals := by
  unfold span? at h
  dsimp only at h
  split at h
  next lo hi hlo hhi hnone =>
    cases h
    obtain ⟨-, -, -, hlol, hhil⟩ := le_of_filter hlo hhi
    exact ⟨ofNat_mem_of_mem_numbers hlol, ofNat_mem_of_mem_numbers hhil⟩
  next lo hi hnone hlo hhi =>
    cases h
    obtain ⟨-, -, -, hlol, hhil⟩ := le_of_filter hlo hhi
    exact ⟨ofNat_mem_of_mem_numbers hlol, ofNat_mem_of_mem_numbers hhil⟩
  next lo hi lo' hi' hlo hhi hlo' hhi' =>
    obtain ⟨-, -, -, hlol, hhil⟩ := le_of_filter hlo hhi
    obtain ⟨-, -, -, hlol', hhil'⟩ := le_of_filter hlo' hhi'
    split at h <;> cases h
    · refine ⟨ofNat_mem_of_mem_numbers hlol', ?_⟩
      have hunwrapped : UInt16.ofNat (hi + 65536) = UInt16.ofNat hi := by
        apply UInt16.toNat_inj.mp
        simp only [UInt16.toNat_ofNat']
        omega
      dsimp only
      rw [hunwrapped]
      exact ofNat_mem_of_mem_numbers hhil
    · exact ⟨ofNat_mem_of_mem_numbers hlol, ofNat_mem_of_mem_numbers hhil'⟩
  next => cases h

theorem count_of_span? (h : b.span? = some s) : b.count = s.last - s.first + 1 := by
  simp [count, h]

theorem lastSeq_of_span? (h : b.span? = some s) : b.lastSeq = UInt16.ofNat s.last := by
  simp [lastSeq, h]

theorem firstSeq_of_span? (h : b.span? = some s) : b.firstSeq = UInt16.ofNat s.first := by
  obtain ⟨hordered, hshort, -⟩ := span?_bounds h
  apply UInt16.toNat_inj.mp
  simp only [firstSeq, lastSeq_of_span? h, count_of_span? h, UInt16.toNat_sub,
    UInt16.toNat_ofNat']
  omega

theorem exists_span?_of_mem {seq : UInt16} (h : seq ∈ b.arrivals) : ∃ s, b.span? = some s := by
  refine Option.ne_none_iff_exists'.mp fun hnone ↦ ?_
  rw [arrivals_eq_empty_of_span? hnone] at h
  exact Std.ExtTreeMap.not_mem_empty h

end Ends

/-! ### The range and the entries -/

theorem isChain_range (b : StreamArrivals) : b.range.IsChain fun s t ↦ t = s + 1 := by
  unfold range
  rw [List.isChain_map, List.isChain_range]
  intro i _
  rw [Nat.succ_eq_add_one, UInt16.ofNat_add, UInt16.add_assoc]
  rfl

theorem map_fst_entries (b : StreamArrivals) :
    b.entries.map Prod.fst = b.range.filter (· ∈ b.arrivals) := by
  rw [entries, map_key_filterMap fun seq entry hfound ↦ ?_]
  · refine List.filter_congr fun seq _ ↦ ?_
    simp [mem_iff_get?_isSome]
  · obtain ⟨_, -, rfl⟩ := Option.map_eq_some_iff.mp hfound
    rfl

theorem nodup_map_fst_entries (b : StreamArrivals) : (b.entries.map Prod.fst).Nodup := by
  rw [map_fst_entries]
  exact b.nodup_range.filter _

/-- The entries are the arrivals held, in another order. -/
theorem entries_perm (b : StreamArrivals) : b.entries.Perm b.arrivals.toList := by
  have hkeys : (b.arrivals.toList.map Prod.fst).Nodup := by
    rw [Std.ExtTreeMap.map_fst_toList_eq_keys]
    exact Std.ExtTreeMap.nodup_keys
  refine (List.perm_ext_iff_of_nodup b.nodup_map_fst_entries.of_map hkeys.of_map).mpr ?_
  rintro ⟨seq, a⟩
  rw [mem_entries_iff, Std.ExtTreeMap.mem_toList_iff_getElem?_eq_some, get?]

theorem length_entries (b : StreamArrivals) : b.entries.length = b.received := by
  rw [b.entries_perm.length_eq, received, Std.ExtTreeMap.length_toList]

theorem received_le_count (b : StreamArrivals) : b.received ≤ b.count := by
  rw [← length_entries, ← length_range, ← List.length_map Prod.fst, map_fst_entries]
  exact List.length_filter_le _ _

/-- The range goes from a number that has arrived to a number that has arrived, one up at each
step around the sequence space, and has all that have arrived in it. -/
structure CoversOnce (b : StreamArrivals) : Prop where
  first_arrived : b.firstSeq ∈ b.arrivals
  last_arrived : b.lastSeq ∈ b.arrivals
  received_pos : 1 ≤ b.received
  received_le_count : b.received ≤ b.count
  count_le : b.count ≤ 65536
  length_range : b.range.length = b.count
  nodup_range : b.range.Nodup
  head_range : b.range.head? = some b.firstSeq
  last_range : b.range.getLast? = some b.lastSeq
  consecutive : b.range.IsChain fun s t ↦ t = s + 1
  covered : ∀ seq ∈ b.arrivals, seq ∈ b.range

theorem coversOnce_of_mem {b : StreamArrivals} {seq : UInt16} (h : seq ∈ b.arrivals) :
    b.CoversOnce := by
  obtain ⟨s, hs⟩ := exists_span?_of_mem h
  have hcount := count_of_span? hs
  have hlast : b.firstSeq + UInt16.ofNat (b.count - 1) = b.lastSeq := by
    unfold firstSeq
    grind
  refine
    { first_arrived := firstSeq_of_span? hs ▸ (span?_ends hs).1
      last_arrived := lastSeq_of_span? hs ▸ (span?_ends hs).2
      received_pos := received_pos fun hempty ↦ Std.ExtTreeMap.not_mem_empty (hempty ▸ h)
      received_le_count := b.received_le_count
      count_le := b.count_le
      length_range := b.length_range
      nodup_range := b.nodup_range
      head_range := ?_
      last_range := ?_
      consecutive := b.isChain_range
      covered := fun _ ↦ mem_range_of_mem }
  · simp [range, List.head?_range, hcount]
  · simp [range, List.getLast?_range, hcount, ← hlast]

/-- Whatever numbers are inserted, in whatever order, the range covers each of them once and the
entries are the first arrivals inserted. Without an insertion the range is empty. -/
theorem coversOnce_insertAll (inserted : List (UInt16 × Arrival)) :
    let b := ({} : StreamArrivals).insertAll inserted
    (inserted ≠ [] → b.CoversOnce) ∧
    (inserted = [] → b.count = 0 ∧ b.range = []) ∧
    b.entries.Perm b.arrivals.toList ∧ (b.entries.map Prod.fst).Nodup ∧
    (∀ seq a, (seq, a) ∈ b.entries ↔ inserted.find? (·.1 = seq) = some (seq, a)) ∧
    ∀ seq, seq ∈ b.arrivals ↔ seq ∈ inserted.map Prod.fst := by
  have hget : ∀ seq, (({} : StreamArrivals).insertAll inserted).get? seq =
      (inserted.find? (·.1 = seq)).map Prod.snd := by
    intro seq
    rw [get?_insertAll, get?_empty, Option.none_or]
  have hmem : ∀ seq, seq ∈ (({} : StreamArrivals).insertAll inserted).arrivals ↔
      seq ∈ inserted.map Prod.fst := by
    intro seq
    rw [mem_iff_get?_isSome, hget, Option.isSome_map, List.find?_isSome, List.mem_map]
    simp
  refine ⟨fun hne ↦ ?_, ?_, entries_perm _, nodup_map_fst_entries _, fun seq a ↦ ?_, hmem⟩
  · obtain ⟨x, hx⟩ := List.exists_mem_of_ne_nil _ hne
    exact coversOnce_of_mem ((hmem x.1).mpr (List.mem_map_of_mem hx))
  · rintro rfl
    exact ⟨rfl, rfl⟩
  · rw [mem_entries_iff, hget, Option.map_eq_some_iff]
    constructor
    · rintro ⟨x, hfound, rfl⟩
      have hseq := List.find?_some hfound
      rw [decide_eq_true_eq] at hseq
      rw [hfound, ← hseq]
    · intro hfound
      exact ⟨_, hfound, rfl⟩

/-- A stream that wraps, with one number inserted twice. -/
theorem coversOnce_insertAll_wrapped :
    let inserted : List (UInt16 × Arrival) :=
      [(2, ⟨.ect0, 7⟩), (65534, ⟨.ect0, 5⟩), (65535, ⟨.ce, 6⟩), (2, ⟨.ect0, 8⟩)]
    let b := ({} : StreamArrivals).insertAll inserted
    b.CoversOnce ∧ b.range = [65534, 65535, 0, 1, 2] ∧
    b.entries = [(65534, ⟨.ect0, 5⟩), (65535, ⟨.ce, 6⟩), (2, ⟨.ect0, 7⟩)] := by
  intro inserted b
  obtain ⟨hcovers, -⟩ := coversOnce_insertAll inserted
  exact ⟨hcovers (by simp [inserted]), by decide +kernel, by decide +kernel⟩

end Congestion.StreamArrivals
