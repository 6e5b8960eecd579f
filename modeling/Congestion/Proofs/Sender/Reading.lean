import Congestion.Proofs.Feedback.MapArrivals
import Congestion.Proofs.Sender.Anchors
import Congestion.Sender.Accounting
import Congestion.Sender.Instruments

/-!
# What a sender reads off a report

A sender reads the times of a report: its own, the time it monitors and the times of its arrivals.
Reports that tell the same times (`Report.SameTimes`) differ at most in who sent them, in their
numbers and in the marks of the packets, and without all these they are equal
(`Report.SameTimes.unmarked_eq`). The ledger settles a report without them as it settles the report
itself, and the monitor is asked for the same packet; the period and the accounting are the same.
-/

set_option autoImplicit false
set_option relaxedAutoImplicit false

namespace Congestion

variable {f : Arrival → Arrival} {ledger : Ledger}

/-! ### Which packets have arrived -/

theorem Report.totalCount_mapArrivals (f : Arrival → Arrival) (r : Report) :
    (r.mapArrivals f).totalCount = r.totalCount := by
  simp only [totalCount, toList_mapArrivals, List.foldlM_map, StreamArrivals.count_mapArrivals]

theorem Ledger.settle_mapArrivals (f : Arrival → Arrival) (r : Report) :
    ledger.settle (r.mapArrivals f) = ledger.settle r := by
  have hacknowledged : ledger.acknowledged (r.mapArrivals f) = ledger.acknowledged r := by
    simp only [acknowledged, Report.toList_mapArrivals, List.foldlM_map,
      StreamArrivals.lastSeq_mapArrivals]
  simp only [settle, hacknowledged, Report.totalCount_mapArrivals]

theorem QueueMonitor.look_mapArrivals {M : Type} [QueueMonitor M] (monitor : M)
    (f : Arrival → Arrival) (r : Report) :
    look monitor (r.mapArrivals f) = look monitor r := by
  unfold look
  rw [Report.toList_mapArrivals]
  cases r.toList with
  | nil => rfl
  | cons stream rest => simp only [List.map_cons, StreamArrivals.lastSeq_mapArrivals]

/-! ### The period -/

namespace Anchor

def mapArrival (f : Arrival → Arrival) (a : Anchor) : Anchor := { a with arrival := f a.arrival }

theorem anchors_mapArrivals (f : Arrival → Arrival) (r : Report) :
    (r.mapArrivals f).anchors = r.anchors.map (mapArrival f) := by
  simp only [Report.anchors, Report.toList_mapArrivals, List.flatMap_map, List.map_flatMap,
    StreamArrivals.entries_mapArrivals, List.map_map]
  rfl

theorem later_mapArrival {best : Option Anchor} {a : Anchor} (hf : ∀ b ∈ best,
      ((f b.arrival).time < (f a.arrival).time ↔ b.arrival.time < a.arrival.time)) :
    later (best.map (mapArrival f)) (a.mapArrival f) = (later best a).map (mapArrival f) := by
  cases best with
  | none => rfl
  | some b =>
    unfold later
    simp only [Option.map_some, mapArrival, hf b rfl]
    split <;> rfl

/-- Which packet is the anchor depends on the order of the arrivals alone. -/
theorem ofReport_mapArrivals {r : Report} (hf : ∀ a ∈ r.anchors, ∀ b ∈ r.anchors,
      ((f a.arrival).time < (f b.arrival).time ↔ a.arrival.time < b.arrival.time)) :
    ofReport (r.mapArrivals f) = (ofReport r).map (mapArrival f) := by
  have hfold : ∀ (l : List Anchor) (best : Option Anchor), (∀ a ∈ l, a ∈ r.anchors) →
      (∀ a ∈ best, a ∈ r.anchors) → (l.map (mapArrival f)).foldl later (best.map (mapArrival f)) =
        (l.foldl later best).map (mapArrival f) := by
    intro l
    induction l with
    | nil => exact fun _ _ _ ↦ rfl
    | cons a rest ih =>
      intro best hl hbest
      obtain ⟨ha, hrest⟩ := List.forall_mem_cons.mp hl
      have hchosen : ∀ b ∈ later best a, b ∈ r.anchors := fun b hb ↦
        (later_eq_some hb).elim (fun h ↦ hbest b h) (fun h ↦ h ▸ ha)
      rw [List.map_cons, List.foldl_cons, later_mapArrival fun b hb ↦ hf b (hbest b hb) a ha,
        ih _ hrest hchosen, List.foldl_cons]
  rw [ofReport_eq, ofReport_eq, anchors_mapArrivals]
  exact hfold r.anchors none (fun _ ha ↦ ha) (fun _ ha ↦ by cases ha)

end Anchor

/-- The period depends on the anchor and on how long it has waited. -/
theorem Period.ofReport_of_anchor {r r' : Report}
    (hanchor : Anchor.ofReport r' = (Anchor.ofReport r).map (Anchor.mapArrival f))
    (hmonitored : r'.monitored = r.monitored) (hwaited : ∀ a ∈ Anchor.ofReport r,
      (f a.arrival).waited r'.time = a.arrival.waited r.time) :
    Period.ofReport r' ledger = Period.ofReport r ledger := by
  unfold Period.ofReport
  rw [hanchor, hmonitored]
  cases hchosen : Anchor.ofReport r with
  | none => rfl
  | some anchor =>
    simp only [Option.map_some, Anchor.mapArrival, hwaited anchor hchosen]

theorem Period.ofReport_mapArrivals (hf : ∀ a, (f a).time = a.time) (r : Report) :
    Period.ofReport (r.mapArrivals f) ledger = Period.ofReport r ledger := by
  refine ofReport_of_anchor (Anchor.ofReport_mapArrivals fun a _ b _ ↦ by rw [hf, hf]) rfl
    fun a _ ↦ ?_
  simp only [Arrival.waited, hf]
  rfl

/-! ### The accounting -/

section Retime

variable (clock : UInt64 → UInt64)

def DelaySample.retime (s : DelaySample) : DelaySample := { s with arrival := clock s.arrival }

theorem DelaySample.retime_id : DelaySample.retime id = id := rfl

theorem DelaySample.sorted_retime (l : List DelaySample) :
    sorted (l.map (retime clock)) = (sorted l).map (retime clock) := by
  have hsame : ∀ a ∈ l, ∀ b ∈ l, decide (a.sendTime ≤ b.sendTime) =
      decide ((a.retime clock).sendTime ≤ (b.retime clock).sendTime) := fun _ _ _ _ ↦ rfl
  rw [sorted_eq_mergeSort, sorted_eq_mergeSort]
  exact (List.map_mergeSort hsame).symm

/-- The accounting with the arrivals of its samples read on another clock. -/
def Accounting.retime (a : Accounting) : Accounting :=
  { a with samples := a.samples.map (DelaySample.retime clock) }

theorem Accounting.retime_id : Accounting.retime id = id :=
  funext fun a ↦ by rw [Accounting.retime, DelaySample.retime_id, List.map_id]; rfl

end Retime

variable {clock : UInt64 → UInt64}

namespace Covered

def mapArrival (f : Arrival → Arrival) (c : Covered) : Covered :=
  { c with arrival := c.arrival.map f }

theorem ofStream_mapArrivals (f : Arrival → Arrival) (ssrc : UInt32) (b : StreamArrivals) :
    ofStream ledger ssrc (b.mapArrivals f) = (ofStream ledger ssrc b).map (mapArrival f) := by
  simp only [ofStream, StreamArrivals.range_mapArrivals, StreamArrivals.get?_mapArrivals,
    List.map_map]
  rfl

theorem ofReport_mapArrivals (f : Arrival → Arrival) (r : Report) :
    ofReport ledger (r.mapArrivals f) = (ofReport ledger r).map (mapArrival f) := by
  simp only [ofReport, Report.toList_mapArrivals, List.flatMap_map, List.map_flatMap,
    ofStream_mapArrivals]

theorem sample?_mapArrival (hf : ∀ a, (f a).time = clock a.time) (c : Covered) :
    (c.mapArrival f).sample? = c.sample?.map (DelaySample.retime clock) := by
  unfold sample? mapArrival
  cases c.arrival <;> cases c.record <;> simp [hf, DelaySample.retime]

theorem isLoss_mapArrival (f : Arrival → Arrival) (c : Covered) :
    (c.mapArrival f).isLoss = c.isLoss := by
  simp [isLoss, mapArrival]

end Covered

namespace ByteTotals

variable {period : Period}

theorem addCovered_mapArrival (f : Arrival → Arrival) (t : ByteTotals) (c : Covered) :
    addCovered period t (c.mapArrival f) = addCovered period t c := by
  unfold addCovered Covered.mapArrival
  cases c.arrival <;> cases c.record <;> rfl

theorem addStream_mapArrivals (f : Arrival → Arrival) (t : ByteTotals) (ssrc : UInt32)
    (b : StreamArrivals) :
    addStream ledger period t (ssrc, b.mapArrivals f) = addStream ledger period t (ssrc, b) := by
  simp only [addStream, Covered.ofStream_mapArrivals, List.foldlM_map, addCovered_mapArrival,
    StreamArrivals.lastSeq_mapArrivals]

end ByteTotals

/-- Rewriting the arrivals moves the samples and changes nothing else. -/
theorem Accounting.ofReport_mapArrivals (hf : ∀ a, (f a).time = clock a.time) (r : Report)
    (period : Period) : Accounting.ofReport (r.mapArrivals f) ledger period =
      Accounting.retime clock <$> Accounting.ofReport r ledger period := by
  have hsamples : ((Covered.ofReport ledger r).map (Covered.mapArrival f)).filterMap
      Covered.sample? =
        ((Covered.ofReport ledger r).filterMap Covered.sample?).map (DelaySample.retime clock) := by
    rw [List.filterMap_map, List.map_filterMap]
    exact List.filterMap_congr fun c _ ↦ Covered.sample?_mapArrival hf c
  have hlosses : Covered.isLoss ∘ Covered.mapArrival f = Covered.isLoss :=
    funext (Covered.isLoss_mapArrival f)
  have hmisses : Covered.isMiss ∘ Covered.mapArrival f = Covered.isMiss := rfl
  simp only [Accounting.ofReport, Report.toList_mapArrivals, List.foldlM_map,
    ByteTotals.addStream_mapArrivals, Covered.ofReport_mapArrivals, List.countP_map,
    hsamples, hlosses, hmisses, DelaySample.sorted_retime, map_bind, map_pure]
  rfl

/-! ### Reports of the same times -/

def Arrival.unmarked (a : Arrival) : Arrival := { a with mark := .notEct }

namespace Report

/-- The report without its sender, its number and its marks. -/
def unmarked (r : Report) : Report :=
  { r.mapArrivals Arrival.unmarked with sender := 0, number := 0 }

/-- Of the same time and duration, and on the same packets with the same times of arrival. -/
structure SameTimes (r s : Report) : Prop where
  time : r.time = s.time
  monitored : r.monitored = s.monitored
  arrivals : ∀ ssrc seq, (r.arrivals? ssrc seq).map Arrival.time =
    (s.arrivals? ssrc seq).map Arrival.time

theorem SameTimes.unmarked_eq {r s : Report} (h : r.SameTimes s) : r.unmarked = s.unmarked := by
  refine ext_arrivals? rfl h.time rfl h.monitored fun ssrc seq ↦ ?_
  have harrivals : ∀ r : Report, r.unmarked.arrivals? ssrc seq =
      ((r.arrivals? ssrc seq).map Arrival.time).map (Arrival.mk .notEct) := by
    intro r
    rw [Option.map_map]
    exact arrivals?_mapArrivals Arrival.unmarked r ssrc seq
  rw [harrivals, harrivals, h.arrivals]

theorem isEmpty_toList_unmarked (r : Report) : r.unmarked.toList.isEmpty = r.toList.isEmpty :=
  isEmpty_toList_mapArrivals Arrival.unmarked r

end Report

theorem Ledger.settle_unmarked (r : Report) : ledger.settle r.unmarked = ledger.settle r :=
  settle_mapArrivals Arrival.unmarked r

theorem Report.totalCount_unmarked (r : Report) : r.unmarked.totalCount = r.totalCount :=
  totalCount_mapArrivals Arrival.unmarked r

theorem QueueMonitor.look_unmarked {M : Type} [QueueMonitor M] (monitor : M) (r : Report) :
    look monitor r.unmarked = look monitor r :=
  look_mapArrivals monitor Arrival.unmarked r

theorem Period.ofReport_unmarked (r : Report) :
    Period.ofReport r.unmarked ledger = Period.ofReport r ledger :=
  ofReport_mapArrivals (f := Arrival.unmarked) (fun _ ↦ rfl) r

theorem Accounting.ofReport_unmarked (r : Report) (period : Period) :
    Accounting.ofReport r.unmarked ledger period = Accounting.ofReport r ledger period := by
  have htimes : ∀ a : Arrival, a.unmarked.time = id a.time := fun _ ↦ rfl
  rw [← id_map (Accounting.ofReport r ledger period), ← Accounting.retime_id]
  exact ofReport_mapArrivals htimes r period

end Congestion
