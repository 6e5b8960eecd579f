import Congestion.Proofs.Checked
import Congestion.Proofs.Feedback.Recording
import Congestion.Sender.Period
import Mathlib.Data.List.Induction

/-!
# The anchor of a report

The anchor is chosen among the arrivals of a report in the order of its streams and of their ranges.
`Report.anchors` is this list, and the choice is a fold over it (`Anchor.ofReport_eq`). What the
fold chooses is the first anchor that no other has arrived after (`Anchor.ofReport_eq_latest?`);
every report that lists a stream has one. Where the ledger has a record of it and the report monitors
some time, that time is how long the period lasts (`Period.stop_sub_start`).
-/

set_option autoImplicit false
set_option relaxedAutoImplicit false

namespace Congestion

/-- A fold that keeps its best so far or takes the next element ends with an element. -/
theorem mem_of_foldl_choice {α : Type} {choose : Option α → α → Option α}
    (hchoose : ∀ best a b, choose best a = some b → best = some b ∨ a = b) {l : List α} {b : α}
    (h : l.foldl choose none = some b) : b ∈ l := by
  have hfold : ∀ (l : List α) (best : Option α), l.foldl choose best = some b →
      best = some b ∨ b ∈ l := by
    intro l
    induction l with
    | nil => exact fun _ h ↦ Or.inl h
    | cons a rest ih =>
      intro best h
      rcases ih _ h with hbest | hmem
      · rcases hchoose best a b hbest with hkept | rfl
        · exact Or.inl hkept
        · exact Or.inr (List.mem_cons_self ..)
      · exact Or.inr (List.mem_cons_of_mem a hmem)
  rcases hfold l none h with hnone | hmem
  · cases hnone
  · exact hmem

/-- All arrivals of a report, in the order of its streams and of their ranges. -/
def Report.anchors (r : Report) : List Anchor :=
  r.toList.flatMap fun (ssrc, b) ↦ b.entries.map fun (seq, arrival) ↦ { ssrc, seq, arrival }

theorem Report.mem_anchors_iff {r : Report} {a : Anchor} :
    a ∈ r.anchors ↔ r.arrivals? a.ssrc a.seq = some a.arrival := by
  simp only [anchors, List.mem_flatMap, List.mem_map, Prod.exists, arrivals?_eq_some_iff]
  constructor
  · rintro ⟨ssrc, b, hb, seq, arrival, hentry, rfl⟩
    exact ⟨b, mem_toList_iff.mp hb, StreamArrivals.mem_entries_iff.mp hentry⟩
  · rintro ⟨b, hb, hentry⟩
    exact ⟨a.ssrc, b, mem_toList_iff.mpr hb, a.seq, a.arrival,
      StreamArrivals.mem_entries_iff.mpr hentry, rfl⟩

/-- The first anchor that no other has arrived after. -/
def Report.latest? (r : Report) : Option Anchor :=
  r.anchors.find? fun a ↦ r.anchors.all fun b ↦ b.arrival.time ≤ a.arrival.time

namespace Anchor

theorem ofReport_eq (r : Report) : ofReport r = r.anchors.foldl later none := by
  unfold ofReport Report.anchors
  rw [List.foldl_flatMap]
  simp only [List.foldl_map]

theorem later_eq_some {best : Option Anchor} {a b : Anchor} (h : later best a = some b) :
    best = some b ∨ a = b := by
  unfold later at h
  split at h
  · exact Or.inr (Option.some.inj h)
  · split at h
    · exact Or.inr (Option.some.inj h)
    · exact Or.inl h

/-- The anchor of a report is one of its arrivals. -/
theorem arrivals?_of_ofReport {r : Report} {a : Anchor} (h : ofReport r = some a) :
    r.arrivals? a.ssrc a.seq = some a.arrival := by
  rw [ofReport_eq] at h
  exact Report.mem_anchors_iff.mp (mem_of_foldl_choice (fun _ _ _ ↦ later_eq_some) h)

theorem foldl_later_eq_none_iff {l : List Anchor} : l.foldl later none = none ↔ l = [] := by
  constructor
  · intro h
    rcases List.eq_nil_or_concat l with rfl | ⟨l, a, rfl⟩
    · rfl
    · rw [List.concat_eq_append, List.foldl_append] at h
      simp only [List.foldl_cons, List.foldl_nil, later] at h
      split at h
      · cases h
      · split at h <;> cases h
  · rintro rfl
    rfl

/-- What is chosen from a list arrived after all before it, and no earlier than all after it. -/
theorem exists_split_of_foldl_later {l : List Anchor} {a : Anchor}
    (h : l.foldl later none = some a) : ∃ before after, l = before ++ a :: after ∧
      (∀ b ∈ before, b.arrival.time < a.arrival.time) ∧
      ∀ b ∈ after, b.arrival.time ≤ a.arrival.time := by
  induction l using List.reverseRecOn generalizing a with
  | nil => cases h
  | append_singleton l b ih =>
    rw [List.foldl_append, List.foldl_cons, List.foldl_nil] at h
    cases hbest : l.foldl later none with
    | none =>
      rw [hbest] at h
      cases h
      exact ⟨l, [], rfl, by simp [foldl_later_eq_none_iff.mp hbest], by simp⟩
    | some best =>
      obtain ⟨before, after, rfl, hbefore, hafter⟩ := ih hbest
      rw [hbest] at h
      unfold later at h
      dsimp only at h
      by_cases hlater : best.arrival.time < b.arrival.time
      · rw [if_pos hlater] at h
        cases h
        refine ⟨before ++ best :: after, [], rfl, fun c hc ↦ ?_, by simp⟩
        rcases List.mem_append.mp hc with hc | hc
        · exact UInt64.lt_trans (hbefore c hc) hlater
        · rcases List.mem_cons.mp hc with rfl | hc
          · exact hlater
          · exact UInt64.lt_of_le_of_lt (hafter c hc) hlater
      · rw [if_neg hlater] at h
        cases h
        refine ⟨before, after ++ [b], by simp, hbefore, fun c hc ↦ ?_⟩
        rcases List.mem_append.mp hc with hc | hc
        · exact hafter c hc
        · rw [List.mem_singleton.mp hc]
          exact UInt64.not_lt.mp hlater

theorem ofReport_eq_latest? (r : Report) : ofReport r = r.latest? := by
  rw [ofReport_eq, Report.latest?]
  cases h : r.anchors.foldl later none with
  | none => rw [foldl_later_eq_none_iff.mp h, List.find?_nil]
  | some a =>
    obtain ⟨before, after, hsplit, hbefore, hafter⟩ := exists_split_of_foldl_later h
    refine (List.find?_eq_some_iff_append.mpr ⟨?_, before, after, hsplit, fun b hb ↦ ?_⟩).symm
    · refine List.all_eq_true.mpr fun b hb ↦ decide_eq_true ?_
      rw [hsplit] at hb
      rcases List.mem_append.mp hb with hb | hb
      · exact UInt64.le_of_lt (hbefore b hb)
      · rcases List.mem_cons.mp hb with rfl | hb
        · exact UInt64.le_refl _
        · exact hafter b hb
    · have hmem : a ∈ r.anchors := by simp [hsplit]
      have hnot : ¬ a.arrival.time ≤ b.arrival.time := UInt64.not_le.mpr (hbefore b hb)
      rw [Bool.not_eq_true', List.all_eq_false]
      exact ⟨a, hmem, by simpa using hnot⟩

/-- Every report that lists a stream has an anchor. -/
theorem exists_latest?_of_toList {r : Report} (h : r.toList ≠ []) : ∃ a, r.latest? = some a := by
  obtain ⟨⟨ssrc, b⟩, hb⟩ := List.exists_mem_of_ne_nil _ h
  have hstream := Report.mem_toList_iff.mp hb
  obtain ⟨seq, arrival, harrival⟩ := StreamArrivals.exists_get? (r.nonempty ssrc b hstream)
  have hanchor : ({ ssrc, seq, arrival } : Anchor) ∈ r.anchors :=
    Report.mem_anchors_iff.mpr (Report.arrivals?_eq_some_iff.mpr ⟨b, hstream, harrival⟩)
  rw [← ofReport_eq_latest?, ofReport_eq, ← Option.ne_none_iff_exists']
  intro hnone
  rw [foldl_later_eq_none_iff.mp hnone] at hanchor
  cases hanchor

end Anchor

namespace Period

variable {r : Report} {ledger : Ledger} {period : Period}

/-- What a period is found from, and where it is. -/
theorem ofReport_eq_ok_iff : ofReport r ledger = .ok period ↔
    ∃ anchor record, Anchor.ofReport r = some anchor ∧
      ledger.lookup anchor.ssrc anchor.seq = some record ∧ r.monitored ≠ 0 ∧
      signed64 (record.sendTime.millisFloor + (anchor.arrival.waited r.time).toInt64.toInt) =
        .ok period.stop ∧
      signed64 (period.stop - r.monitored.toNat) = .ok period.start := by
  constructor
  · intro h
    unfold ofReport at h
    cases hanchor : Anchor.ofReport r with
    | none => simp [hanchor] at h
    | some anchor =>
      cases hrecord : ledger.lookup anchor.ssrc anchor.seq with
      | none => simp [hanchor, hrecord] at h
      | some record =>
        by_cases hmonitored : r.monitored = 0
        · simp [hanchor, hrecord, hmonitored] at h
        · simp only [hanchor, hrecord, hmonitored, if_false] at h
          obtain ⟨stop, hstop, h⟩ := bind_eq_ok_iff.mp h
          obtain ⟨start, hstart, h⟩ := bind_eq_ok_iff.mp h
          cases h
          exact ⟨anchor, record, rfl, hrecord, hmonitored, ofChecked_eq_ok_iff.mp hstop,
            ofChecked_eq_ok_iff.mp hstart⟩
  · rintro ⟨anchor, record, hanchor, hrecord, hmonitored, hstop, hstart⟩
    unfold ofReport
    simp only [hanchor, hrecord, hmonitored, if_false]
    exact bind_eq_ok_iff.mpr ⟨_, ofChecked_eq_ok_iff.mpr hstop,
      bind_eq_ok_iff.mpr ⟨_, ofChecked_eq_ok_iff.mpr hstart, rfl⟩⟩

theorem stop_sub_start (h : ofReport r ledger = .ok period) :
    period.stop - period.start = r.monitored.toNat := by
  obtain ⟨_, _, -, -, -, -, hstart⟩ := ofReport_eq_ok_iff.mp h
  have := (signed64_eq_ok_iff.mp hstart).1
  omega

end Period

end Congestion
