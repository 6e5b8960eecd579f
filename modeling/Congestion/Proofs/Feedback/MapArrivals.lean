import Congestion.Proofs.Feedback.Recording

/-!
# Reports with their arrivals rewritten

`Report.mapArrivals` rewrites every arrival of a report and leaves alone which packets have arrived.
The ranges of the streams depend on nothing else, so they stay, and what is listed in the order of
the ranges is listed in the same order (`StreamArrivals.entries_mapArrivals`,
`Report.toList_mapArrivals`).
-/

set_option autoImplicit false
set_option relaxedAutoImplicit false

namespace Congestion

namespace StreamArrivals

variable (f : Arrival → Arrival) (b : StreamArrivals)

def mapArrivals : StreamArrivals := ⟨b.arrivals.map fun _ a ↦ f a⟩

@[simp] theorem get?_mapArrivals (seq : UInt16) :
    (b.mapArrivals f).get? seq = (b.get? seq).map f := by
  simp [get?, mapArrivals]

@[simp] theorem span?_mapArrivals : (b.mapArrivals f).span? = b.span? := by
  simp [span?, mapArrivals]

@[simp] theorem count_mapArrivals : (b.mapArrivals f).count = b.count := by
  simp [count]

@[simp] theorem lastSeq_mapArrivals : (b.mapArrivals f).lastSeq = b.lastSeq := by
  simp [lastSeq]

@[simp] theorem range_mapArrivals : (b.mapArrivals f).range = b.range := by
  simp [range, firstSeq]

theorem entries_mapArrivals : (b.mapArrivals f).entries =
    b.entries.map fun (seq, a) ↦ (seq, f a) := by
  simp only [entries, range_mapArrivals, get?_mapArrivals, List.map_filterMap, Option.map_map]
  rfl

end StreamArrivals

namespace Report

variable (f : Arrival → Arrival) (r : Report)

def mapArrivals : Report :=
  { r with
    streams := r.streams.map fun _ b ↦ b.mapArrivals f
    nonempty := by
      intro ssrc b h
      rw [Std.ExtTreeMap.getElem?_map, Option.map_eq_some_iff] at h
      obtain ⟨b', hb', rfl⟩ := h
      exact fun hempty ↦ r.nonempty ssrc b' hb' (Std.ExtTreeMap.map_eq_empty_iff.mp hempty) }

@[simp] theorem streams_mapArrivals (ssrc : UInt32) : (r.mapArrivals f).streams[ssrc]? =
    r.streams[ssrc]?.map (StreamArrivals.mapArrivals f) := by
  simp [mapArrivals]

@[simp] theorem arrivals?_mapArrivals (ssrc : UInt32) (seq : UInt16) :
    (r.mapArrivals f).arrivals? ssrc seq = (r.arrivals? ssrc seq).map f := by
  cases h : r.streams[ssrc]? <;> simp [arrivals?, h]

theorem toList_mapArrivals : (r.mapArrivals f).toList =
    r.toList.map fun (ssrc, b) ↦ (ssrc, b.mapArrivals f) := by
  simp [toList, mapArrivals, Std.ExtTreeMap.toList_map]

theorem isEmpty_toList_mapArrivals : (r.mapArrivals f).toList.isEmpty = r.toList.isEmpty := by
  rw [toList_mapArrivals, List.isEmpty_map]

end Report

end Congestion
