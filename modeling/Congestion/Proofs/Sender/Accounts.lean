import Congestion.Proofs.Feedback.Covered
import Congestion.Proofs.Sender.LedgerRuns
import Congestion.Proofs.Units.Infinities
import Congestion.Sender.Accounting
import Mathlib.Algebra.BigOperators.Group.List.Basic

/-!
# What an account adds up

The four sums of an account are carried through one pass over the streams of a report, but none of
them looks at another. `ByteTotals.AddsUp` takes the pass apart into four sums over lists, of which
one stream adds its part (`addStream_eq_ok_iff`) and the pass the whole (`foldlM_addStream_eq_ok_iff`).
An account is given exactly when each of the four can be added up (`exists_ofReport_iff`).

The lists are told by what the report covers. Each number that it covers is looked up on both sides
(`Covered.ofReport_eq_map`), and is a sample, a loss or a miss (`length_samples_add`). The samples
are the packets that have arrived and have a record (`mem_arrived_iff`), each of them once, and
sorting them by their sends leaves those of one time in the order of the report
(`DelaySample.pairwise_sorted`).
-/

set_option autoImplicit false
set_option relaxedAutoImplicit false

namespace Congestion

/-! ### Orders -/

section Orders

variable {α : Type} {l : List α} {a b : α}

/-- Of two different elements of a list, one stands before the other. -/
theorem pair_sublist_or (ha : a ∈ l) (hb : b ∈ l) (hne : a ≠ b) :
    [a, b].Sublist l ∨ [b, a].Sublist l := by
  have hpairs := List.pairwise_iff_getElem.mp
    (List.pairwise_iff_forall_sublist.mpr fun {a b : α} (h : [a, b].Sublist l) ↦ h)
  obtain ⟨i, hi, rfl⟩ := List.getElem_of_mem ha
  obtain ⟨j, hj, rfl⟩ := List.getElem_of_mem hb
  rcases Nat.lt_trichotomy i j with hij | rfl | hij
  · exact Or.inl (hpairs i j hi hj hij)
  · exact absurd rfl hne
  · exact Or.inr (hpairs j i hj hi hij)

theorem not_pair_sublist_of_nodup (hnodup : l.Nodup)
    (h : [a, b].Sublist l) : ¬ [b, a].Sublist l := by
  induction l with
  | nil => simp at h
  | cons x rest ih =>
    obtain ⟨hx, hrest⟩ := List.nodup_cons.mp hnodup
    intro h'
    rcases List.sublist_cons_iff.mp h with hin | ⟨_, ⟨⟩, hb⟩
    · rcases List.sublist_cons_iff.mp h' with hin' | ⟨_, ⟨⟩, -⟩
      · exact ih hrest hin hin'
      · exact hx (hin.subset (by simp))
    · rcases List.sublist_cons_iff.mp h' with hin' | ⟨_, ⟨⟩, -⟩
      · exact hx (hin'.subset (by simp))
      · exact hx (hb.subset (by simp))

end Orders

/-! ### Sums -/

namespace Quantity

variable {d : Dimension} {a b : Quantity d} {l m : List (Quantity d)}

/-- Amounts added to a first one in turn, as long as each sum can be stored. -/
def addAll (a : Quantity d) (amounts : List (Quantity d)) : Checked (Quantity d) :=
  amounts.foldlM (fun total amount ↦ total + amount) a

theorem addAll_append_eq_ok_iff :
    a.addAll (l ++ m) = .ok b ↔ ∃ c, a.addAll l = .ok c ∧ c.addAll m = .ok b := by
  rw [addAll, List.foldlM_append, bind_eq_ok_iff]
  rfl

theorem addAll_cons_eq_ok_iff {amount : Quantity d} : a.addAll (amount :: l) = .ok b ↔
    ∃ c, (a + amount : Checked (Quantity d)) = .ok c ∧ c.addAll l = .ok b := by
  rw [addAll, List.foldlM_cons, bind_eq_ok_iff]
  rfl

theorem value_addAll (h : a.addAll l = .ok b) : b.value = a.value + (l.map value).sum :=
  value_foldlM_add h

end Quantity

/-! ### Samples -/

namespace DelaySample

variable {s s' : DelaySample} {l : List DelaySample}

/-- The packet that the sample is of. -/
def key (s : DelaySample) : UInt32 × UInt16 := (s.ssrc, s.seq)

/-- Whether the packet was sent in the period. -/
def sentIn (s : DelaySample) (period : Period) : Bool :=
  match s.sendTime.millisFloor with
  | .ok millis => period.start ≤ millis && millis < period.stop
  | .error _ => false

/-- The packet has arrived, when the sample says, and has a record, with the send time and the size
of the sample. -/
def Matches (s : DelaySample) (ledger : Ledger) (r : Report) : Prop :=
  ∃ a record, r.arrivals? s.ssrc s.seq = some a ∧ ledger.lookup s.ssrc s.seq = some record ∧
    s.sendTime = record.sendTime.toInstant ∧ s.size = record.size ∧ s.arrival = a.time

theorem sorted_perm (l : List DelaySample) : (sorted l).Perm l := by
  rw [sorted_eq_mergeSort]
  exact List.mergeSort_perm l _

theorem sendTime_eq_of_le_of_le (h : s.sendTime ≤ s'.sendTime) (h' : s'.sendTime ≤ s.sendTime) :
    s.sendTime = s'.sendTime :=
  congrArg Instant.mk (Quantity.word_inj.mp (Int.le_antisymm h h'))

theorem sendTime_le_trans (a b c : DelaySample) (hab : decide (a.sendTime ≤ b.sendTime))
    (hbc : decide (b.sendTime ≤ c.sendTime)) : decide (a.sendTime ≤ c.sendTime) :=
  decide_eq_true (Int.le_trans (of_decide_eq_true hab) (of_decide_eq_true hbc))

theorem sendTime_le_total (a b : DelaySample) :
    decide (a.sendTime ≤ b.sendTime) || decide (b.sendTime ≤ a.sendTime) := by
  rw [Bool.or_eq_true, decide_eq_true_eq, decide_eq_true_eq]
  exact Int.le_total _ _

theorem sorted_ordered (l : List DelaySample) :
    (sorted l).Pairwise fun s s' ↦ s.sendTime ≤ s'.sendTime := by
  rw [sorted_eq_mergeSort]
  exact (List.pairwise_mergeSort sendTime_le_trans sendTime_le_total l).imp of_decide_eq_true

theorem pair_sublist_sorted (hle : s.sendTime ≤ s'.sendTime) (h : [s, s'].Sublist l) :
    [s, s'].Sublist (sorted l) := by
  rw [sorted_eq_mergeSort]
  exact List.pair_sublist_mergeSort sendTime_le_trans sendTime_le_total (decide_eq_true hle) h

/-- Sorting keeps samples of one send time in the order that they had. -/
theorem pairwise_sorted (hnodup : l.Nodup) : (sorted l).Pairwise fun s s' ↦
    s.sendTime < s'.sendTime ∨ s.sendTime = s'.sendTime ∧ [s, s'].Sublist l := by
  have hsorted : (sorted l).Nodup := (sorted_perm l).nodup_iff.mpr hnodup
  refine List.pairwise_iff_forall_sublist.mpr fun {s s'} hpair ↦ ?_
  have hle := List.pairwise_iff_forall_sublist.mp (sorted_ordered l) hpair
  by_cases hge : s'.sendTime ≤ s.sendTime
  · refine Or.inr ⟨sendTime_eq_of_le_of_le hle hge, ?_⟩
    have hmem : ∀ a ∈ [s, s'], a ∈ l := fun a ha ↦ (sorted_perm l).mem_iff.mp (hpair.subset ha)
    have hne : s ≠ s' := fun heq ↦ by simpa [heq] using hsorted.sublist hpair
    rcases pair_sublist_or (hmem s (by simp)) (hmem s' (by simp)) hne with hbefore | hafter
    · exact hbefore
    · -- sorting would have left them in the other order too, and neither is listed twice
      exact absurd (pair_sublist_sorted hge hafter) (not_pair_sublist_of_nodup hsorted hpair)
  · exact Or.inl (Int.not_le.mp hge)

end DelaySample

/-! ### Sums of a pass -/

namespace ByteTotals

variable {ledger : Ledger} {period : Period} {t t' : ByteTotals}

/-- The samples of the packets that have arrived, in the order of the report. -/
def arrived (ledger : Ledger) (streams : List (UInt32 × StreamArrivals)) : List DelaySample :=
  (streams.flatMap fun (ssrc, b) ↦ Covered.ofStream ledger ssrc b).filterMap Covered.sample?

/-- What has been sent on a stream in the period. -/
def sentOf (ledger : Ledger) (period : Period) (ssrc : UInt32) : List SentRecord :=
  ((ledger.records ssrc).map Prod.snd).filter fun record ↦ period.contains record.sendTime

def addLast (ledger : Ledger) (period : Period) (lastAdded : DataSize)
    (stream : UInt32 × StreamArrivals) : Checked DataSize :=
  match latest (sentOf ledger period stream.1), ledger.lookup stream.1 stream.2.lastSeq with
  | some record, some last =>
    if last.total < record.total then do lastAdded + (← record.total - last.total)
    else .ok lastAdded
  | _, _ => .ok lastAdded

/-- A pass over some streams adds these sums. -/
structure AddsUp (ledger : Ledger) (period : Period) (streams : List (UInt32 × StreamArrivals))
    (t t' : ByteTotals) : Prop where
  received : t.received.addAll ((arrived ledger streams).map DelaySample.size) = .ok t'.received
  receivedInPeriod : t.receivedInPeriod.addAll
    (((arrived ledger streams).filter (·.sentIn period)).map DelaySample.size) =
      .ok t'.receivedInPeriod
  sentInPeriod : t.sentInPeriod.addAll
    ((streams.flatMap fun stream ↦ sentOf ledger period stream.1).map SentRecord.size) =
      .ok t'.sentInPeriod
  lastAdded : streams.foldlM (addLast ledger period) t.lastAdded = .ok t'.lastAdded

theorem addsUp_nil_iff : AddsUp ledger period [] t t' ↔ t = t' := by
  constructor
  · rintro ⟨hreceived, hreceivedInPeriod, hsent, hlast⟩
    cases t
    cases t'
    cases hreceived
    cases hreceivedInPeriod
    cases hsent
    cases hlast
    rfl
  · rintro rfl
    exact ⟨rfl, rfl, rfl, rfl⟩

/-- Sums over some streams and over others go one after another. -/
theorem addsUp_append_iff {streams rest : List (UInt32 × StreamArrivals)} :
    AddsUp ledger period (streams ++ rest) t t' ↔
      ∃ t₁, AddsUp ledger period streams t t₁ ∧ AddsUp ledger period rest t₁ t' := by
  have harrived : arrived ledger (streams ++ rest) =
      arrived ledger streams ++ arrived ledger rest := by
    rw [arrived, List.flatMap_append, List.filterMap_append]
    rfl
  constructor
  · rintro ⟨hreceived, hreceivedInPeriod, hsent, hlast⟩
    rw [harrived, List.map_append] at hreceived
    rw [harrived, List.filter_append, List.map_append] at hreceivedInPeriod
    rw [List.flatMap_append, List.map_append] at hsent
    rw [List.foldlM_append] at hlast
    obtain ⟨received, hreceived, hreceived'⟩ := Quantity.addAll_append_eq_ok_iff.mp hreceived
    obtain ⟨receivedInPeriod, hreceivedInPeriod, hreceivedInPeriod'⟩ :=
      Quantity.addAll_append_eq_ok_iff.mp hreceivedInPeriod
    obtain ⟨sentInPeriod, hsent, hsent'⟩ := Quantity.addAll_append_eq_ok_iff.mp hsent
    obtain ⟨lastAdded, hlast, hlast'⟩ := bind_eq_ok_iff.mp hlast
    -- each sum stops somewhere on its own, and the four together are where the first part ends
    exact ⟨⟨received, receivedInPeriod, sentInPeriod, lastAdded⟩,
      ⟨hreceived, hreceivedInPeriod, hsent, hlast⟩,
      ⟨hreceived', hreceivedInPeriod', hsent', hlast'⟩⟩
  · rintro ⟨t₁, h, h'⟩
    refine ⟨?_, ?_, ?_, ?_⟩
    · rw [harrived, List.map_append]
      exact Quantity.addAll_append_eq_ok_iff.mpr ⟨_, h.received, h'.received⟩
    · rw [harrived, List.filter_append, List.map_append]
      exact Quantity.addAll_append_eq_ok_iff.mpr ⟨_, h.receivedInPeriod, h'.receivedInPeriod⟩
    · rw [List.flatMap_append, List.map_append]
      exact Quantity.addAll_append_eq_ok_iff.mpr ⟨_, h.sentInPeriod, h'.sentInPeriod⟩
    · rw [List.foldlM_append]
      exact bind_eq_ok_iff.mpr ⟨_, h.lastAdded, h'.lastAdded⟩

/-- What a packet that has arrived adds. -/
def addSample (period : Period) (t : ByteTotals) (s : DelaySample) : Checked ByteTotals := do
  let received ← t.received + s.size
  let receivedInPeriod ←
    if s.sentIn period then t.receivedInPeriod + s.size else pure t.receivedInPeriod
  return { t with received, receivedInPeriod }

theorem foldlM_addCovered (covered : List Covered) (t : ByteTotals) :
    covered.foldlM (addCovered period) t =
      (covered.filterMap Covered.sample?).foldlM (addSample period) t := by
  rw [List.foldlM_filterMap]
  congr 1
  funext t c
  obtain ⟨ssrc, seq, _ | a, _ | record⟩ := c <;> rfl

theorem addSample_eq_ok_iff {s : DelaySample} : addSample period t s = .ok t' ↔
    ∃ received receivedInPeriod, (t.received + s.size : Checked DataSize) = .ok received ∧
      t.receivedInPeriod.addAll (([s].filter (·.sentIn period)).map DelaySample.size) =
        .ok receivedInPeriod ∧
      t' = { t with received, receivedInPeriod } := by
  simp only [addSample, bind_eq_ok_iff, exists_and_left]
  refine exists_congr fun received ↦ and_congr_right fun _ ↦ ?_
  by_cases hs : s.sentIn period
  · simp [hs, Quantity.addAll, @eq_comm _ t']
  · simp [hs, Quantity.addAll, @eq_comm _ t']

theorem foldlM_addSample_eq_ok_iff {samples : List DelaySample} :
    samples.foldlM (addSample period) t = .ok t' ↔ ∃ received receivedInPeriod,
      t.received.addAll (samples.map DelaySample.size) = .ok received ∧
      t.receivedInPeriod.addAll ((samples.filter (·.sentIn period)).map DelaySample.size) =
        .ok receivedInPeriod ∧
      t' = { t with received, receivedInPeriod } := by
  induction samples generalizing t with
  | nil =>
    constructor
    · rintro ⟨⟩
      exact ⟨_, _, rfl, rfl, rfl⟩
    · rintro ⟨_, _, ⟨⟩, ⟨⟩, rfl⟩
      rfl
  | cons s rest ih =>
    have hfilter : ((s :: rest).filter (·.sentIn period)).map DelaySample.size =
        ([s].filter (·.sentIn period)).map DelaySample.size ++
          (rest.filter (·.sentIn period)).map DelaySample.size := by
      rw [← List.map_append, ← List.filter_append, List.singleton_append]
    rw [List.foldlM_cons, bind_eq_ok_iff, hfilter, List.map_cons]
    simp only [ih, addSample_eq_ok_iff, Quantity.addAll_cons_eq_ok_iff,
      Quantity.addAll_append_eq_ok_iff]
    constructor
    · rintro ⟨_, ⟨_, _, h, h', rfl⟩, received, receivedInPeriod, hrest, hrest', rfl⟩
      exact ⟨received, receivedInPeriod, ⟨_, h, hrest⟩, ⟨_, h', hrest'⟩, rfl⟩
    · rintro ⟨received, receivedInPeriod, ⟨_, h, hrest⟩, ⟨_, h', hrest'⟩, rfl⟩
      exact ⟨_, ⟨_, _, h, h', rfl⟩, received, receivedInPeriod, hrest, hrest', rfl⟩

theorem foldlM_addSent_eq_ok_iff {records : List SentRecord} :
    records.foldlM addSent t = .ok t' ↔ ∃ sentInPeriod,
      t.sentInPeriod.addAll (records.map SentRecord.size) = .ok sentInPeriod ∧
      t' = { t with sentInPeriod } := by
  induction records generalizing t with
  | nil =>
    constructor
    · rintro ⟨⟩
      exact ⟨_, rfl, rfl⟩
    · rintro ⟨_, ⟨⟩, rfl⟩
      rfl
  | cons record rest ih =>
    rw [List.foldlM_cons, bind_eq_ok_iff, List.map_cons]
    simp only [ih, addSent, bind_eq_ok_iff, pure_eq_ok_iff, Quantity.addAll_cons_eq_ok_iff]
    constructor
    · rintro ⟨_, ⟨total, h, rfl⟩, sentInPeriod, hrest, rfl⟩
      exact ⟨sentInPeriod, ⟨total, h, hrest⟩, rfl⟩
    · rintro ⟨sentInPeriod, ⟨total, h, hrest⟩, rfl⟩
      exact ⟨_, ⟨total, h, rfl⟩, sentInPeriod, hrest, rfl⟩

/-- A stream is gone through for what has arrived, for what was sent, and for what was sent last. -/
theorem addStream_eq (t : ByteTotals) (stream : UInt32 × StreamArrivals) :
    addStream ledger period t stream = do
      let t ← (arrived ledger [stream]).foldlM (addSample period) t
      let t ← (sentOf ledger period stream.1).foldlM addSent t
      return { t with lastAdded := ← addLast ledger period t.lastAdded stream } := by
  obtain ⟨ssrc, b⟩ := stream
  have harrived : arrived ledger [(ssrc, b)] =
      (Covered.ofStream ledger ssrc b).filterMap Covered.sample? := by simp [arrived]
  rw [addStream, harrived, ← foldlM_addCovered]
  refine bind_congr fun t ↦ bind_congr fun t' ↦ ?_
  -- only the last step is written differently, as a change to the one sum
  unfold addLast sentOf
  dsimp only
  generalize latest (((ledger.records ssrc).map Prod.snd).filter
    fun record ↦ period.contains record.sendTime) = newest
  obtain _ | newest := newest
  · rfl
  obtain _ | last := ledger.lookup ssrc b.lastSeq
  · rfl
  dsimp only
  split
  · simp
  · rfl

/-- One stream adds its part to each of the sums. -/
theorem addStream_eq_ok_iff {stream : UInt32 × StreamArrivals} :
    addStream ledger period t stream = .ok t' ↔ AddsUp ledger period [stream] t t' := by
  rw [addStream_eq]
  simp only [bind_eq_ok_iff, foldlM_addSample_eq_ok_iff, foldlM_addSent_eq_ok_iff, pure_eq_ok_iff]
  constructor
  · rintro ⟨_, ⟨received, receivedInPeriod, hreceived, hreceivedInPeriod, rfl⟩, _,
      ⟨sentInPeriod, hsent, rfl⟩, lastAdded, hlast, rfl⟩
    exact ⟨hreceived, hreceivedInPeriod, by simpa using hsent, by simpa using hlast⟩
  · rintro ⟨hreceived, hreceivedInPeriod, hsent, hlast⟩
    exact ⟨_, ⟨_, _, hreceived, hreceivedInPeriod, rfl⟩, _, ⟨_, by simpa using hsent, rfl⟩, _,
      by simpa using hlast, rfl⟩

/-- A pass adds each of the sums over all streams. -/
theorem foldlM_addStream_eq_ok_iff {streams : List (UInt32 × StreamArrivals)} :
    streams.foldlM (addStream ledger period) t = .ok t' ↔ AddsUp ledger period streams t t' := by
  induction streams generalizing t with
  | nil => rw [addsUp_nil_iff, List.foldlM_nil, pure_eq_ok_iff]
  | cons stream rest ih =>
    rw [← List.singleton_append, addsUp_append_iff, List.singleton_append, List.foldlM_cons,
      bind_eq_ok_iff]
    simp only [addStream_eq_ok_iff, ih]

end ByteTotals

/-! ### What the report covers -/

namespace Covered

variable {r : Report} {ledger : Ledger}

/-- A number with what either side knows of it. -/
def find (ledger : Ledger) (r : Report) (key : UInt32 × UInt16) : Covered where
  ssrc := key.1
  seq := key.2
  arrival := r.arrivals? key.1 key.2
  record := ledger.lookup key.1 key.2

theorem ofReport_eq_map (ledger : Ledger) (r : Report) :
    ofReport ledger r = r.covered.map (find ledger r) := by
  rw [ofReport, Report.covered, List.map_flatMap]
  refine List.flatMap_congr fun stream hstream ↦ ?_
  obtain ⟨ssrc, b⟩ := stream
  have harrivals := Report.mem_toList_iff.mp hstream
  simp only [ofStream, List.map_map]
  refine List.map_congr_left fun seq _ ↦ ?_
  rw [Function.comp_apply, find, Report.arrivals?_of_stream harrivals]

theorem key_of_sample? {key : UInt32 × UInt16} {s : DelaySample}
    (h : (find ledger r key).sample? = some s) : s.key = key := by
  unfold sample? at h
  split at h
  · cases h
    rfl
  · cases h

/-- A number is a sample, a loss or a miss. -/
theorem length_samples_add (l : List Covered) :
    (l.filterMap sample?).length + l.countP isLoss + l.countP isMiss = l.length := by
  induction l with
  | nil => rfl
  | cons c rest ih =>
    rw [List.countP_cons, List.countP_cons, List.length_cons]
    obtain ⟨ssrc, seq, _ | a, _ | record⟩ := c
    case some.some =>
      have hsample : ∃ s, sample? ⟨ssrc, seq, some a, some record⟩ = some s := ⟨_, rfl⟩
      obtain ⟨s, hs⟩ := hsample
      rw [List.filterMap_cons_some hs, List.length_cons]
      simp [isLoss, isMiss]
      omega
    all_goals
      rw [List.filterMap_cons_none rfl]
      simp [isLoss, isMiss]
      omega

end Covered

namespace ByteTotals

variable {r : Report} {ledger : Ledger} {s : DelaySample}

theorem arrived_eq_filterMap (ledger : Ledger) (r : Report) :
    arrived ledger r.toList =
      r.covered.filterMap fun key ↦ (Covered.find ledger r key).sample? := by
  show (Covered.ofReport ledger r).filterMap Covered.sample? = _
  rw [Covered.ofReport_eq_map, List.filterMap_map]
  rfl

theorem keys_arrived_sublist (ledger : Ledger) (r : Report) :
    ((arrived ledger r.toList).map DelaySample.key).Sublist r.covered := by
  rw [arrived_eq_filterMap, map_key_filterMap fun _ _ ↦ Covered.key_of_sample?]
  exact List.filter_sublist

theorem length_arrived_le (ledger : Ledger) (r : Report) :
    (arrived ledger r.toList).length ≤ r.covered.length := by
  simpa using (keys_arrived_sublist ledger r).length_le

theorem nodup_keys_arrived (ledger : Ledger) (r : Report) :
    ((arrived ledger r.toList).map DelaySample.key).Nodup :=
  r.nodup_covered.sublist (keys_arrived_sublist ledger r)

theorem mem_arrived_iff : s ∈ arrived ledger r.toList ↔ s.Matches ledger r := by
  rw [arrived_eq_filterMap, List.mem_filterMap]
  constructor
  · rintro ⟨key, -, hsample⟩
    unfold Covered.sample? at hsample
    split at hsample
    next a record harrival hrecord =>
      cases hsample
      exact ⟨a, record, harrival, hrecord, rfl, rfl, rfl⟩
    next => cases hsample
  · rintro ⟨a, record, harrival, hrecord, htime, hsize, harrived⟩
    refine ⟨s.key, Report.mem_covered_of_arrivals? harrival, ?_⟩
    simp only [Covered.sample?, Covered.find, DelaySample.key, harrival, hrecord]
    rw [← htime, ← hsize, ← harrived]

end ByteTotals

/-! ### Accounts -/

namespace Accounting

open ByteTotals

variable {r : Report} {ledger : Ledger} {period : Period} {account : Accounting} {total : Nat}

/-- Each of the four sums can be added up. -/
structure Fits (r : Report) (ledger : Ledger) (period : Period) : Prop where
  received : ∃ sum : DataSize, Quantity.addAll 0 ((arrived ledger r.toList).map DelaySample.size) =
    .ok sum
  receivedInPeriod : ∃ sum : DataSize, Quantity.addAll 0
    (((arrived ledger r.toList).filter (·.sentIn period)).map DelaySample.size) = .ok sum
  sentInPeriod : ∃ sum : DataSize, Quantity.addAll 0
    ((r.toList.flatMap fun stream ↦ sentOf ledger period stream.1).map SentRecord.size) = .ok sum
  lastAdded : ∃ sum, r.toList.foldlM (addLast ledger period) 0 = .ok sum

theorem ofReport_eq_ok_iff : Accounting.ofReport r ledger period = .ok account ↔ ∃ bytes,
    AddsUp ledger period r.toList {} bytes ∧ account = {
      bytes
      losses := (Covered.ofReport ledger r).countP Covered.isLoss
      misses := (Covered.ofReport ledger r).countP Covered.isMiss
      samples := DelaySample.sorted (arrived ledger r.toList) } := by
  simp only [Accounting.ofReport, bind_eq_ok_iff, foldlM_addStream_eq_ok_iff, pure_eq_ok_iff]
  exact exists_congr fun bytes ↦ and_congr_right fun _ ↦ eq_comm

/-- No account is given up but for a sum that cannot be added up. -/
theorem exists_ofReport_iff :
    (∃ account, Accounting.ofReport r ledger period = .ok account) ↔ Fits r ledger period := by
  simp only [ofReport_eq_ok_iff]
  constructor
  · rintro ⟨_, bytes, h, -⟩
    exact ⟨⟨_, h.received⟩, ⟨_, h.receivedInPeriod⟩, ⟨_, h.sentInPeriod⟩, ⟨_, h.lastAdded⟩⟩
  · rintro ⟨⟨received, h₁⟩, ⟨receivedInPeriod, h₂⟩, ⟨sentInPeriod, h₃⟩, ⟨lastAdded, h₄⟩⟩
    exact ⟨_, ⟨received, receivedInPeriod, sentInPeriod, lastAdded⟩, ⟨h₁, h₂, h₃, h₄⟩, rfl⟩

/-- What an account tells of the report and the ledger. -/
structure Tells (account : Accounting) (r : Report) (ledger : Ledger) (period : Period) : Prop where
  nodup : (account.samples.map DelaySample.key).Nodup
  samples : ∀ s, s ∈ account.samples ↔ s.Matches ledger r
  order : account.samples.Pairwise fun s s' ↦
    s.sendTime < s'.sendTime ∨ s.sendTime = s'.sendTime ∧ [s.key, s'.key].Sublist r.covered
  received : account.bytes.received.value = (account.samples.map (·.size.value)).sum
  receivedInPeriod : account.bytes.receivedInPeriod.value =
    ((account.samples.filter (·.sentIn period)).map (·.size.value)).sum
  losses : account.losses = r.covered.countP fun key ↦
    (ledger.lookup key.1 key.2).isSome && (r.arrivals? key.1 key.2).isNone
  misses : account.misses = r.covered.countP fun key ↦ (ledger.lookup key.1 key.2).isNone

theorem tells_of_ofReport (h : Accounting.ofReport r ledger period = .ok account) :
    account.Tells r ledger period := by
  obtain ⟨bytes, hbytes, rfl⟩ := ofReport_eq_ok_iff.mp h
  have hperm := DelaySample.sorted_perm (arrived ledger r.toList)
  have hkeys := nodup_keys_arrived ledger r
  constructor
  · exact (hperm.map _).nodup_iff.mpr hkeys
  · exact fun s ↦ hperm.mem_iff.trans mem_arrived_iff
  · refine (DelaySample.pairwise_sorted hkeys.of_map).imp (Or.imp_right (And.imp_right ?_))
    exact fun hpair ↦ (hpair.map DelaySample.key).trans (keys_arrived_sublist ledger r)
  · rw [(hperm.map _).sum_eq, Quantity.value_addAll hbytes.received, List.map_map]
    exact zero_add _
  · rw [((hperm.filter _).map _).sum_eq, Quantity.value_addAll hbytes.receivedInPeriod,
      List.map_map]
    exact zero_add _
  · show (Covered.ofReport ledger r).countP Covered.isLoss = _
    rw [Covered.ofReport_eq_map, List.countP_map]
    rfl
  · show (Covered.ofReport ledger r).countP Covered.isMiss = _
    rw [Covered.ofReport_eq_map, List.countP_map]
    rfl

/-- An account is given for every report whose sums can be added up. Each number that the report
covers is in it once, as a sample, as a loss or as a miss; the samples are what has arrived and has
a record, in the order of their sends and those of one time in the order of the report.

Assumes: the numbers covered can be counted. -/
theorem accounts_for_covered (hcount : r.totalCount = .ok total) (ledger : Ledger)
    (period : Period) :
    ((∃ account, Accounting.ofReport r ledger period = .ok account) ↔ Fits r ledger period) ∧
    ∀ account, Accounting.ofReport r ledger period = .ok account →
      account.samples.length + account.losses + account.misses = total ∧
      account.Tells r ledger period := by
  refine ⟨exists_ofReport_iff, fun account h ↦ ⟨?_, tells_of_ofReport h⟩⟩
  obtain ⟨bytes, -, rfl⟩ := ofReport_eq_ok_iff.mp h
  rw [(DelaySample.sorted_perm _).length_eq]
  refine (Covered.length_samples_add (Covered.ofReport ledger r)).trans ?_
  rw [Covered.ofReport_eq_map, List.length_map, Report.length_covered hcount]

/-- Of stream 7 the packet 2 is lost and 4 is not of the ledger. -/
def twoStreams : Report :=
  [(7, 1, 120), (7, 3, 110), (7, 4, 130), (9, 5, 121)].foldl
    (fun r (ssrc, seq, time) ↦ (r.record ssrc seq time 0).2) { time := 140, monitored := 50 }

/-- Packet 3 at an earlier time than those before it, and two packets at one time. -/
def sentOutOfOrder : List LedgerCommand :=
  [.send ⟨7, 1, ⟨.exactly 20000⟩, .exactly 100⟩, .send ⟨7, 2, ⟨.exactly 20000⟩, .exactly 200⟩,
    .send ⟨7, 3, ⟨.exactly 10000⟩, .exactly 300⟩, .send ⟨9, 5, ⟨.exactly 20000⟩, .exactly 50⟩]

theorem accounts_for_covered_twoStreams : ∃ l account,
    Ledger.run { retention := .exactly 10000000 } sentOutOfOrder = .ok l ∧
    Accounting.ofReport twoStreams l ⟨15, 25⟩ = .ok account ∧
    account.losses = 1 ∧ account.misses = 1 ∧
    account.bytes.received = .exactly 450 ∧ account.bytes.receivedInPeriod = .exactly 150 ∧
    account.samples.length + account.losses + account.misses = 5 ∧
    account.Tells twoStreams l ⟨15, 25⟩ := by
  obtain ⟨l, hrun, htest⟩ := exists_ok_of_any
    (x := Ledger.run { retention := .exactly 10000000 } sentOutOfOrder)
    (fun l ↦ (Accounting.ofReport twoStreams l ⟨15, 25⟩).toOption.any
      fun (account : Accounting) ↦ decide (account.losses = 1 ∧ account.misses = 1 ∧
        account.bytes.received = .exactly 450 ∧ account.bytes.receivedInPeriod = .exactly 150))
    (by decide +kernel)
  obtain ⟨account, haccount, htest⟩ := exists_ok_of_any _ htest
  obtain ⟨hlosses, hmisses, hreceived, hreceivedInPeriod⟩ := of_decide_eq_true htest
  have hcount : twoStreams.totalCount = .ok 5 := by decide +kernel
  obtain ⟨hparts, htells⟩ := (accounts_for_covered hcount l ⟨15, 25⟩).2 account haccount
  exact ⟨l, account, hrun, haccount, hlosses, hmisses, hreceived, hreceivedInPeriod, hparts, htells⟩

end Accounting

end Congestion
