import Congestion.Proofs.Feedback.MapArrivals

/-!
# Reports on another clock

`Report.retime` reads the report time and all arrivals of a report on another clock. Nothing else
changes: the same streams with the same ranges list the same packets with the same marks.
-/

set_option autoImplicit false
set_option relaxedAutoImplicit false

namespace Congestion

def Arrival.retime (clock : UInt64 → UInt64) (a : Arrival) : Arrival :=
  { a with time := clock a.time }

@[simp] theorem Arrival.retime_id (a : Arrival) : a.retime id = a := rfl

namespace StreamArrivals

variable (b : StreamArrivals) (clock : UInt64 → UInt64)

def retime : StreamArrivals := ⟨b.arrivals.map fun _ a ↦ a.retime clock⟩

@[simp] theorem get?_retime (seq : UInt16) :
    (b.retime clock).get? seq = (b.get? seq).map (Arrival.retime clock) :=
  get?_mapArrivals (Arrival.retime clock) b seq

@[simp] theorem span?_retime : (b.retime clock).span? = b.span? :=
  span?_mapArrivals (Arrival.retime clock) b

@[simp] theorem count_retime : (b.retime clock).count = b.count := by
  simp [count]

@[simp] theorem lastSeq_retime : (b.retime clock).lastSeq = b.lastSeq := by
  simp [lastSeq]

@[simp] theorem range_retime : (b.retime clock).range = b.range := by
  simp [range, firstSeq]

theorem entries_retime : (b.retime clock).entries =
    b.entries.map fun (seq, a) ↦ (seq, a.retime clock) :=
  entries_mapArrivals (Arrival.retime clock) b

end StreamArrivals

namespace Report

variable (r : Report) (clock : UInt64 → UInt64)

def retime : Report :=
  { r with
    time := clock r.time
    streams := r.streams.map fun _ b ↦ b.retime clock
    nonempty := by
      intro ssrc b h
      rw [Std.ExtTreeMap.getElem?_map, Option.map_eq_some_iff] at h
      obtain ⟨b', hb', rfl⟩ := h
      exact fun hempty ↦ r.nonempty ssrc b' hb' (Std.ExtTreeMap.map_eq_empty_iff.mp hempty) }

@[simp] theorem streams_retime (ssrc : UInt32) :
    (r.retime clock).streams[ssrc]? = r.streams[ssrc]?.map (StreamArrivals.retime · clock) :=
  streams_mapArrivals (Arrival.retime clock) r ssrc

@[simp] theorem arrivals?_retime (ssrc : UInt32) (seq : UInt16) :
    (r.retime clock).arrivals? ssrc seq = (r.arrivals? ssrc seq).map (Arrival.retime clock) :=
  arrivals?_mapArrivals (Arrival.retime clock) r ssrc seq

theorem retime_id : r.retime id = r :=
  ext_arrivals? rfl rfl rfl rfl fun ssrc seq ↦ by cases h : r.arrivals? ssrc seq <;> simp [h]

theorem toList_retime : (r.retime clock).toList =
    r.toList.map fun (ssrc, b) ↦ (ssrc, b.retime clock) :=
  toList_mapArrivals (Arrival.retime clock) r

theorem countLast_retime (ssrc : UInt32) :
    (r.retime clock).countLast ssrc = r.countLast ssrc := by
  unfold countLast stream?
  cases h : r.streams[ssrc]? <;> simp [h]

theorem entries_retime (ssrc : UInt32) : (r.retime clock).entries ssrc =
    (r.entries ssrc).map fun (seq, a) ↦ (seq, a.retime clock) := by
  unfold entries stream?
  cases h : r.streams[ssrc]? with
  | none => simp [h]
  | some b => simp [h, b.entries_retime]

end Report

end Congestion
