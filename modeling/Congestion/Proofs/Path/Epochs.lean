import Congestion.Proofs.Path.QueueDelays
import Congestion.Proofs.Sender.Clocks

/-!
# Queue delays across epochs of the clock

`QueueDelayEstimator.follow` feeds an estimator the reports of a session, with no bandwidth
estimate. A report that has been written and read is earlier by the epochs it has lost, and so are
its raw delays (`rawDelay_shift`). Where all reports lose the same epochs the base delay moves along
with them, and every queue delay is measured as without (`update_rebase`, `follow_of_sameEpochs`).

Where a session goes on into the next epoch of the receiver's clock it is not so. The raw delays
fall by an epoch, below the base delay, and the report tells no queue delay (`latest_of_moreEpochs`,
`follow_of_moreEpochs`): not even where the packets have queued, as in `follow_differs_acrossEpochs`.
-/

set_option autoImplicit false
set_option relaxedAutoImplicit false

namespace Congestion

/-! ### Following a session -/

namespace QueueDelayEstimator

def learn (ledger : Ledger) (e : QueueDelayEstimator) (r : Report) :
    Outcome (QueueDelay × QueueDelayEstimator) := do
  let period ← Period.ofReport r ledger
  let accounting ← Accounting.ofReport r ledger period
  e.update period accounting.samples none

/-- The queue delay at each report. -/
def follow (ledger : Ledger) (e : QueueDelayEstimator) : List Report → Outcome (List QueueDelay)
  | [] => .ok []
  | r :: rest => do
    let (delay, e) ← e.learn ledger r
    return delay :: (← e.follow ledger rest)

/-- The estimator with its base delay moved. -/
def rebase (e : QueueDelayEstimator) (k : Int) : QueueDelayEstimator :=
  { e with baseDelay := e.baseDelay.map (· + k) }

variable {e e' : QueueDelayEstimator} {ledger : Ledger} {period : Period}
  {samples : List DelaySample} {delay : QueueDelay} {k : Int}

theorem learn_eq_ok_iff {r : Report} : e.learn ledger r = .ok (delay, e') ↔
    ∃ period accounting, Period.ofReport r ledger = .ok period ∧
      Accounting.ofReport r ledger period = .ok accounting ∧
      e.update period accounting.samples none = .ok (delay, e') := by
  constructor
  · intro h
    obtain ⟨period, hperiod, h⟩ := bind_eq_ok_iff.mp h
    obtain ⟨accounting, haccounting, h⟩ := bind_eq_ok_iff.mp h
    exact ⟨period, accounting, hperiod, ofChecked_eq_ok_iff.mp haccounting,
      ofChecked_eq_ok_iff.mp h⟩
  · rintro ⟨period, accounting, hperiod, haccounting, hupdate⟩
    exact bind_eq_ok_iff.mpr ⟨period, hperiod, bind_eq_ok_iff.mpr
      ⟨accounting, ofChecked_eq_ok_iff.mpr haccounting, ofChecked_eq_ok_iff.mpr hupdate⟩⟩

theorem leastWith_add (raw k : Int) (base : Option Int) :
    leastWith (raw + k) (base.map (· + k)) = leastWith raw base + k := by
  cases base with
  | none => rfl
  | some base =>
    simp only [Option.map_some, leastWith]
    split <;> split <;> omega

def moved (k : Int) (measured : Option Int × List Int) : Option Int × List Int :=
  (measured.1.map (· + k), measured.2)

theorem measureNext_moved {s s' : DelaySample} {measured measured' : Option Int × List Int}
    (hraw : ∀ raw, s.rawDelay = .ok raw → s'.rawDelay = .ok (raw + k))
    (h : measureNext measured s = .ok measured') :
    measureNext (moved k measured) s' = .ok (moved k measured') := by
  obtain ⟨raw, hs, h⟩ := bind_eq_ok_iff.mp h
  obtain ⟨beyond, hbeyond, h⟩ := bind_eq_ok_iff.mp h
  cases h
  have hleast := leastWith_add raw k measured.1
  refine bind_eq_ok_iff.mpr ⟨raw + k, hraw raw hs, bind_eq_ok_iff.mpr ⟨beyond, ?_, ?_⟩⟩
  · rw [moved, hleast, Int.add_sub_add_right]
    exact hbeyond
  · rw [moved, hleast]
    rfl

/-- Delays are measured alike where all raw delays are moved with the base delay. -/
theorem measure_rebase {base base' : Option Int} {measured : List Int}
    {f : DelaySample → DelaySample}
    (hraw : ∀ s ∈ samples, ∀ raw, s.rawDelay = .ok raw → (f s).rawDelay = .ok (raw + k))
    (h : measure samples base = .ok (base', measured)) :
    measure (samples.map f) (base.map (· + k)) = .ok (base'.map (· + k), measured) := by
  rw [measure_eq] at h ⊢
  rw [List.foldlM_map]
  have hstep : ∀ s ∈ samples, ∀ b c b', c = moved k b → measureNext b s = .ok b' →
      ∃ c', measureNext c (f s) = .ok c' ∧ c' = moved k b' := by
    rintro s hs b _ b' rfl hnext
    exact ⟨_, measureNext_moved (hraw s hs) hnext, rfl⟩
  obtain ⟨_, hmeasured, rfl⟩ :=
    foldlM_simulates (fun b c ↦ c = moved k b) hstep rfl h
  exact hmeasured

/-- Once a zero is measured, it stays the least. -/
theorem least_zero_of_foldlM {measured measured' : Option Int × List Int} (hzero : 0 ∈ measured.2)
    (hnonneg : ∀ n ∈ measured.2, 0 ≤ n) (h : samples.foldlM measureNext measured = .ok measured') :
    0 ∈ measured'.2 ∧ ∀ n ∈ measured'.2, 0 ≤ n := by
  induction samples generalizing measured with
  | nil =>
    cases h
    exact ⟨hzero, hnonneg⟩
  | cons s rest ih =>
    rw [List.foldlM_cons] at h
    obtain ⟨_, hnext, hlater⟩ := bind_eq_ok_iff.mp h
    obtain ⟨_, -, hbeyond, rfl⟩ := measureNext_eq_ok hnext
    exact ih (List.mem_cons_of_mem _ hzero) (List.forall_mem_cons.mpr ⟨hbeyond, hnonneg⟩) hlater

/-- A raw delay below the base delay is the new base delay, and no delay is measured on it. -/
theorem measure_of_lower {s : DelaySample} {rest : List DelaySample} {raw base : Int}
    {base' : Option Int} {measured : List Int} (hraw : s.rawDelay = .ok raw) (hlower : raw < base)
    (h : measure (s :: rest) (some base) = .ok (base', measured)) :
    0 ∈ measured ∧ ∀ n ∈ measured, 0 ≤ n := by
  rw [measure_eq, List.foldlM_cons] at h
  obtain ⟨_, hnext, hlater⟩ := bind_eq_ok_iff.mp h
  obtain ⟨raw', hraw', -, rfl⟩ := measureNext_eq_ok hnext
  obtain rfl := Except.ok.inj (hraw.symm.trans hraw')
  have hzero : raw - leastWith raw (some base) = 0 := by
    rw [leastWith, if_pos hlower, Int.sub_self]
  exact least_zero_of_foldlM (by simp [hzero]) (by simp [hzero]) hlater

/-- With a raw delay below the base delay the queue delay is zero. -/
theorem latest_of_lower {bandwidth : Option DataRate} {s : DelaySample} {rest : List DelaySample}
    {raw base : Int} (hbase : e.baseDelay = some base) (hraw : s.rawDelay = .ok raw)
    (hlower : raw < base) (h : e.update period (s :: rest) bandwidth = .ok (delay, e')) :
    delay.latest = 0 := by
  obtain ⟨u, rfl, -⟩ := update_eq_ok_iff.mp h
  have hmeasured := u.measured_eq
  rw [hbase] at hmeasured
  obtain ⟨hzero, hnonneg⟩ := measure_of_lower hraw hlower hmeasured
  have hmin : u.reversed.reverse.min? = some 0 :=
    List.min?_eq_some_iff.mpr ⟨List.mem_reverse.mpr hzero, fun n hn ↦
      hnonneg n (List.mem_reverse.mp hn)⟩
  have hlatest := u.latest_eq
  rw [observe, hmin] at hlatest
  obtain ⟨latest, hmillis, htold⟩ := map_eq_ok_iff.mp hlatest
  cases hmillis
  exact (congrArg Prod.fst htold).symm

theorem update_rebase {f : DelaySample → DelaySample}
    (hraw : ∀ s ∈ samples, ∀ raw, s.rawDelay = .ok raw → (f s).rawDelay = .ok (raw + k))
    (h : e.update period samples none = .ok (delay, e')) :
    (e.rebase k).update period (samples.map f) none = .ok (delay, e'.rebase k) := by
  obtain ⟨u, rfl, rfl⟩ := update_eq_ok_iff.mp h
  have hmeasured := measure_rebase hraw u.measured_eq
  exact update_eq_ok_iff.mpr ⟨{ u with
    baseDelay := u.baseDelay.map (· + k), measured_eq := hmeasured }, rfl, rfl⟩

end QueueDelayEstimator

/-! ### Raw delays -/

/-- What a raw delay loses with the epochs of its report. Times beyond the signed words count as
negative, until they are read back. -/
def lostDelay (epochs : Int) : Int :=
  if epochs < 2 ^ 31 then epochs * 2 ^ 32 else epochs * 2 ^ 32 - 2 ^ 64

namespace Report

variable {r : Report} {ssrc : UInt32} {seq : UInt16} {a : Arrival}

/-- All times of a written report are on one side of the end of the signed words. -/
theorem epochs_lt_iff (h : r.Writable) (ha : r.arrivals? ssrc seq = some a) :
    r.epochs < 2 ^ 31 ↔ a.time.toNat < 2 ^ 63 := by
  have hside : ∀ {ssrc seq a}, r.arrivals? ssrc seq = some a →
      (a.time.toNat < 2 ^ 63 ↔ r.time.toNat < 2 ^ 63) ∧ a.time.toNat ≤ r.time.toNat := by
    intro ssrc seq a ha
    have hle := UInt64.le_iff_toNat_le.mp (h.dated ssrc seq a ha)
    obtain ⟨hlow, hhigh⟩ := h.near ssrc seq a ha
    rw [toInt_toInt64, toInt_toInt64] at hlow hhigh
    have := r.time.toNat_lt
    split at hlow <;> split at hhigh <;> omega
  have := hside ha
  unfold epochs
  by_cases hspans : r.SpansEpoch
  · obtain ⟨_, _, a', ha', hlate⟩ := spansEpoch_iff.mp hspans
    have := hside ha'
    rw [if_pos hspans]
    omega
  · rw [if_neg hspans]
    omega

/-- The times that are read back are small, also as signed words. -/
theorem toInt64_shiftTime (h : r.Writable) (ha : r.arrivals? ssrc seq = some a) :
    (shiftTime (-(r.epochs * 2 ^ 32)) a.time).toInt64.toInt =
        a.time.toInt64.toInt - lostDelay r.epochs ∧
      0 ≤ a.time.toInt64.toInt - lostDelay r.epochs ∧
      a.time.toInt64.toInt - lostDelay r.epochs < 2 ^ 33 := by
  have hshift := ((readBack_eq_shift h).1.arrivals ssrc seq a ha).toNat_shiftTime
  have hle := UInt64.le_iff_toNat_le.mp (h.dated ssrc seq a ha)
  have hepochs : (r.time.toNat : Int) - r.epochs * 2 ^ 32 < 2 ^ 33 := by
    unfold epochs
    split <;> omega
  have hside := epochs_lt_iff h ha
  rw [toInt_toInt64, toInt_toInt64, if_pos (by omega), lostDelay, hshift]
  split <;> split <;> omega

end Report

variable {r : Report} {ledger : Ledger} {period : Period} {accounting : Accounting}

theorem rawDelay_shift (h : r.Writable)
    (haccounting : Accounting.ofReport r ledger period = .ok accounting) {s : DelaySample}
    (hs : s ∈ accounting.samples) {raw : Int} (hraw : s.rawDelay = .ok raw) :
    (s.retime (shiftTime (-(r.epochs * 2 ^ 32)))).rawDelay = .ok (raw + -lostDelay r.epochs) := by
  obtain ⟨a, ha, htime⟩ := Accounting.exists_arrival_of_sample haccounting hs
  obtain ⟨sent, hsent, hdifference⟩ := bind_eq_ok_iff.mp hraw
  obtain ⟨rfl, -⟩ := signed64_eq_ok_iff.mp hdifference
  refine bind_eq_ok_iff.mpr ⟨sent, hsent, signed64_eq_ok_iff.mpr ?_⟩
  have harrival : (s.retime (shiftTime (-(r.epochs * 2 ^ 32)))).arrival =
      shiftTime (-(r.epochs * 2 ^ 32)) a.time := congrArg (shiftTime _) htime
  obtain ⟨hsigned, hnonneg, hlt⟩ := Report.toInt64_shiftTime h ha
  have hsent := Instant.millisFloor_bounds hsent
  rw [harrival, hsigned, htime]
  omega

/-! ### Sessions -/

/-- The report as it is read after it has been written. -/
def Report.reread (r : Report) : Outcome Report := do (decode (← r.encode)).1

theorem Report.reread_eq_ok_iff {r' : Report} :
    r.reread = .ok r' ↔ ∃ h : r.Writable, r' = r.readBack h := by
  constructor
  · intro h
    obtain ⟨bytes, hencode, hdecode⟩ := bind_eq_ok_iff.mp h
    obtain ⟨hwritable, hreadBack⟩ := decode_of_encode hencode
    rw [hreadBack] at hdecode
    exact ⟨hwritable, (Except.ok.inj hdecode).symm⟩
  · rintro ⟨h, rfl⟩
    have hencode := encode_of_writable h
    obtain ⟨_, hreadBack⟩ := decode_of_encode hencode
    exact bind_eq_ok_iff.mpr ⟨_, hencode, congrArg Prod.fst hreadBack⟩

namespace QueueDelayEstimator

variable {e e' : QueueDelayEstimator} {delay : QueueDelay}

/-- A report that is read back tells the same queue delay, measured against a base delay that has
lost as much. -/
theorem learn_shift (h : r.Writable) (hlearn : e.learn ledger r = .ok (delay, e')) :
    (e.rebase (-lostDelay r.epochs)).learn ledger (r.readBack h) =
      .ok (delay, e'.rebase (-lostDelay r.epochs)) := by
  obtain ⟨period, accounting, hperiod, haccounting, hupdate⟩ := learn_eq_ok_iff.mp hlearn
  obtain ⟨hshiftable, hshift⟩ := Report.readBack_eq_shift h
  rw [hshift]
  refine learn_eq_ok_iff.mpr ⟨period, accounting.retime (shiftTime (-(r.epochs * 2 ^ 32))),
    (Period.ofReport_shift hshiftable ledger).trans hperiod, ?_,
    update_rebase (fun s hs raw ↦ rawDelay_shift h haccounting hs) hupdate⟩
  rw [Report.shift, Accounting.ofReport_retime, haccounting]
  rfl

/-- The first packet of a report has taken less than `k` milliseconds longer than the base delay. -/
def FirstWithin (e : QueueDelayEstimator) (ledger : Ledger) (r : Report) (k : Int) : Prop :=
  ∃ period accounting s rest base raw, Period.ofReport r ledger = .ok period ∧
    Accounting.ofReport r ledger period = .ok accounting ∧ accounting.samples = s :: rest ∧
    e.baseDelay = some base ∧ s.rawDelay = .ok raw ∧ raw - base < k

/-- A report that loses more epochs than the base delay has lost tells no queue delay, however long
its packets have queued: only a delay beyond the base that makes up for the epochs would be seen. -/
theorem latest_of_moreEpochs (h : r.Writable) {epochs : Int}
    (hfirst : e.FirstWithin ledger r (lostDelay r.epochs - lostDelay epochs))
    (hlearn : (e.rebase (-lostDelay epochs)).learn ledger (r.readBack h) = .ok (delay, e')) :
    delay.latest = 0 := by
  obtain ⟨period, accounting, s, rest, base, raw, hperiod, haccounting, hsamples, hbase, hraw,
    hmore⟩ := hfirst
  obtain ⟨period', accounting', hperiod', haccounting', hupdate⟩ := learn_eq_ok_iff.mp hlearn
  obtain ⟨hshiftable, hshift⟩ := Report.readBack_eq_shift h
  rw [hshift, Period.ofReport_shift hshiftable, hperiod] at hperiod'
  cases hperiod'
  rw [hshift, Report.shift, Accounting.ofReport_retime, haccounting] at haccounting'
  cases haccounting'
  have hsamples' : (accounting.retime (shiftTime (-(r.epochs * 2 ^ 32)))).samples =
      s.retime (shiftTime (-(r.epochs * 2 ^ 32))) ::
        rest.map (DelaySample.retime (shiftTime (-(r.epochs * 2 ^ 32)))) := by
    rw [Accounting.retime, hsamples, List.map_cons]
  rw [hsamples'] at hupdate
  have hmoved : (e.rebase (-lostDelay epochs)).baseDelay = some (base + -lostDelay epochs) := by
    rw [rebase, hbase, Option.map_some]
  refine latest_of_lower hmoved (rawDelay_shift h haccounting (by simp [hsamples]) hraw) ?_ hupdate
  omega

/-- The estimator after some reports. -/
def after (ledger : Ledger) (e : QueueDelayEstimator) (reports : List Report) :
    Outcome QueueDelayEstimator :=
  reports.foldlM (fun e r ↦ Prod.snd <$> e.learn ledger r) e

theorem follow_append_eq_ok {reports later : List Report} {delays : List QueueDelay}
    (h : e.follow ledger (reports ++ later) = .ok delays) : ∃ first rest e',
      e.follow ledger reports = .ok first ∧ e.after ledger reports = .ok e' ∧
        e'.follow ledger later = .ok rest ∧ delays = first ++ rest := by
  induction reports generalizing e delays with
  | nil => exact ⟨[], delays, e, rfl, rfl, h, rfl⟩
  | cons r reports ih =>
    obtain ⟨⟨delay, e₁⟩, hlearn, h⟩ := bind_eq_ok_iff.mp h
    obtain ⟨others, hothers, h⟩ := bind_eq_ok_iff.mp h
    cases h
    obtain ⟨first, rest, e', hfirst, hafter, hrest, rfl⟩ := ih hothers
    refine ⟨delay :: first, rest, e', ?_, ?_, hrest, rfl⟩
    · exact bind_eq_ok_iff.mpr ⟨_, hlearn, bind_eq_ok_iff.mpr ⟨first, hfirst, rfl⟩⟩
    · exact bind_eq_ok_iff.mpr ⟨e₁, map_eq_ok_iff.mpr ⟨_, hlearn, rfl⟩, hafter⟩

theorem follow_reread {reports images : List Report} {delays : List QueueDelay} {epochs : Int}
    (himages : reports.mapM Report.reread = .ok images) (hepochs : ∀ r ∈ reports, r.epochs = epochs)
    (h : e.follow ledger reports = .ok delays) :
    (e.rebase (-lostDelay epochs)).follow ledger images = .ok delays ∧
      ∀ e', e.after ledger reports = .ok e' →
        (e.rebase (-lostDelay epochs)).after ledger images = .ok (e'.rebase (-lostDelay epochs)) := by
  induction reports generalizing e images delays with
  | nil =>
    cases himages
    exact ⟨h, fun e' hafter ↦ by cases hafter; rfl⟩
  | cons r rest ih =>
    rw [List.mapM_cons] at himages
    obtain ⟨image, himage, himages⟩ := bind_eq_ok_iff.mp himages
    obtain ⟨images, hrest, himages⟩ := bind_eq_ok_iff.mp himages
    cases himages
    obtain ⟨hwritable, rfl⟩ := Report.reread_eq_ok_iff.mp himage
    obtain ⟨⟨delay, e₁⟩, hlearn, h⟩ := bind_eq_ok_iff.mp h
    obtain ⟨later, hlater, h⟩ := bind_eq_ok_iff.mp h
    cases h
    obtain ⟨rfl, hepochs⟩ := List.forall_mem_cons.mp hepochs
    obtain ⟨hfollow, hafter⟩ := ih hrest hepochs hlater
    have hlearn' := learn_shift hwritable hlearn
    refine ⟨bind_eq_ok_iff.mpr ⟨_, hlearn', bind_eq_ok_iff.mpr ⟨later, hfollow, rfl⟩⟩,
      fun e' h ↦ ?_⟩
    obtain ⟨e₂, hsecond, h⟩ := bind_eq_ok_iff.mp h
    obtain ⟨_, hagain, rfl⟩ := map_eq_ok_iff.mp hsecond
    cases hlearn.symm.trans hagain
    exact bind_eq_ok_iff.mpr ⟨_, map_eq_ok_iff.mpr ⟨_, hlearn', rfl⟩, hafter e' h⟩

theorem rebase_of_none (hbase : e.baseDelay = none) (k : Int) : e.rebase k = e := by
  rw [rebase, hbase, Option.map_none, ← hbase]

/-- Reports that lose the same epochs when they are written and read tell the same queue delays as
before. Assumes: no delay has been measured yet. -/
theorem follow_of_sameEpochs {reports images : List Report} {delays : List QueueDelay}
    {epochs : Int} (hbase : e.baseDelay = none)
    (himages : reports.mapM Report.reread = .ok images) (hepochs : ∀ r ∈ reports, r.epochs = epochs)
    (h : e.follow ledger reports = .ok delays) : e.follow ledger images = .ok delays := by
  have hrebased := (follow_reread himages hepochs h).1
  rwa [rebase_of_none hbase] at hrebased

/-- Where reports that lose the same epochs are followed by one that loses more, the queue delay at
this one is gone once they have been written and read. Assumes: no delay has been measured yet, and
the first packet of the last report has not queued for as long as the epochs. -/
theorem follow_of_moreEpochs {reports images : List Report} {delays delays' : List QueueDelay}
    {epochs : Int} (hbase : e.baseDelay = none) (hepochs : ∀ r ∈ reports, r.epochs = epochs)
    (hfirst : ∀ e', e.after ledger reports = .ok e' →
      e'.FirstWithin ledger r (lostDelay r.epochs - lostDelay epochs))
    (himages : (reports ++ [r]).mapM Report.reread = .ok images)
    (h : e.follow ledger (reports ++ [r]) = .ok delays)
    (h' : e.follow ledger images = .ok delays') : ∃ earlier last last',
      delays = earlier ++ [last] ∧ delays' = earlier ++ [last'] ∧ last'.latest = 0 := by
  simp only [List.mapM_append, List.mapM_cons, List.mapM_nil, bind_eq_ok_iff, pure_eq_ok_iff]
    at himages
  obtain ⟨before, hbefore, _, ⟨image, himage, _, rfl, rfl⟩, rfl⟩ := himages
  obtain ⟨hwritable, rfl⟩ := Report.reread_eq_ok_iff.mp himage
  obtain ⟨earlier, rest, e₁, hearlier, hafter, hrest, rfl⟩ := follow_append_eq_ok h
  obtain ⟨earlier', rest', e₁', hearlier', hafter', hrest', rfl⟩ := follow_append_eq_ok h'
  -- up to the last report both have told the same and differ in the base delay alone
  obtain ⟨hfollowed, hleft⟩ := follow_reread hbefore hepochs hearlier
  rw [rebase_of_none hbase] at hfollowed hleft
  cases hfollowed.symm.trans hearlier'
  cases (hleft e₁ hafter).symm.trans hafter'
  obtain ⟨⟨last, e₂⟩, -, hrest⟩ := bind_eq_ok_iff.mp hrest
  obtain ⟨⟨last', e₂'⟩, hlearn', hrest'⟩ := bind_eq_ok_iff.mp hrest'
  cases hrest
  cases hrest'
  exact ⟨earlier, last, last', rfl, rfl, latest_of_moreEpochs hwritable (hfirst e₁ hafter) hlearn'⟩

/-- A session followed by its reports and by what is read of them after they have been written. -/
def followTwice (commands : List LedgerCommand) (reports : List Report) :
    Outcome (List QueueDelay × List QueueDelay) := do
  let ledger ← Ledger.run { retention := Quantity.exactly 10000000000000 } commands
  let images ← reports.mapM Report.reread
  let delays ← (create {} 0.0).follow ledger reports
  let delays' ← (create {} 0.0).follow ledger images
  return (delays, delays')

theorem followTwice_eq_ok {commands : List LedgerCommand} {reports : List Report}
    {delays delays' : List QueueDelay}
    (h : followTwice commands reports = .ok (delays, delays')) : ∃ ledger images,
      reports.mapM Report.reread = .ok images ∧
      (create {} 0.0).follow ledger reports = .ok delays ∧
      (create {} 0.0).follow ledger images = .ok delays' := by
  obtain ⟨ledger, -, h⟩ := bind_eq_ok_iff.mp h
  obtain ⟨images, himages, h⟩ := bind_eq_ok_iff.mp h
  obtain ⟨_, hdelays, h⟩ := bind_eq_ok_iff.mp h
  obtain ⟨_, hdelays', h⟩ := bind_eq_ok_iff.mp h
  cases h
  exact ⟨ledger, images, himages, hdelays, hdelays'⟩

/-- A report ten milliseconds after the one packet in it has arrived. -/
def reportOfPacket (number seq : UInt16) (arrival : UInt64) : Report :=
  let report : Report := { sender := 1, time := arrival + 10, number, monitored := 100 }
  (report.record 9 seq arrival 0).2

/-- Two packets, and a report of each. The second packet takes 30 milliseconds longer. -/
def twoPackets (first second : UInt64) : List Report :=
  [reportOfPacket 1 0 first, reportOfPacket 2 1 second]

def sentAt (first second : Duration) : List LedgerCommand :=
  [.send ⟨9, 0, ⟨first⟩, Quantity.exactly 1000⟩, .send ⟨9, 1, ⟨second⟩, Quantity.exactly 1000⟩]

theorem follow_of_sameEpochs_second : ∃ ledger images delays,
    (twoPackets 0x100000028 0x1000000c8).mapM Report.reread = .ok images ∧
    (create {} 0.0).follow ledger (twoPackets 0x100000028 0x1000000c8) = .ok delays ∧
    (create {} 0.0).follow ledger images = .ok delays ∧
    delays.map QueueDelay.latest = [0, Quantity.exactly 30000] := by
  obtain ⟨⟨delays, delays'⟩, hrun, htest⟩ := exists_ok_of_any
    (x := followTwice (sentAt (Quantity.exactly 0) (Quantity.exactly 130000))
      (twoPackets 0x100000028 0x1000000c8))
    (fun (delays, _) ↦ delays.map QueueDelay.latest = [0, Quantity.exactly 30000])
    (by decide +kernel)
  obtain ⟨ledger, images, himages, hdelays, -⟩ := followTwice_eq_ok hrun
  have hepochs : ∀ r ∈ twoPackets 0x100000028 0x1000000c8, r.epochs = 1 := by decide +kernel
  exact ⟨ledger, images, delays, himages, hdelays,
    follow_of_sameEpochs rfl himages hepochs hdelays, of_decide_eq_true htest⟩

/-- The first report is in the epoch in which the clock began, and the second one in the next. -/
theorem follow_differs_acrossEpochs : ∃ ledger images delays delays',
    ((twoPackets 40 0x1000000c8).map Report.time).Pairwise (· ≤ ·) ∧
    (twoPackets 40 0x1000000c8).mapM Report.reread = .ok images ∧
    (create {} 0.0).follow ledger (twoPackets 40 0x1000000c8) = .ok delays ∧
    (create {} 0.0).follow ledger images = .ok delays' ∧
    delays.map QueueDelay.latest = [0, Quantity.exactly 30000] ∧
    delays'.map QueueDelay.latest = [0, 0] := by
  obtain ⟨⟨ledger, images, delays, delays', e, accounting⟩, hrun, htest⟩ := exists_ok_of_any
    (x := (do
      let ledger ← Ledger.run { retention := Quantity.exactly 10000000000000 }
        (sentAt (Quantity.exactly 0) (Quantity.exactly 4294967426000))
      let images ← (twoPackets 40 0x1000000c8).mapM Report.reread
      let delays ← (create {} 0.0).follow ledger (twoPackets 40 0x1000000c8)
      let delays' ← (create {} 0.0).follow ledger images
      let e ← (create {} 0.0).after ledger [reportOfPacket 1 0 40]
      let period ← Period.ofReport (reportOfPacket 2 1 0x1000000c8) ledger
      let accounting ← Accounting.ofReport (reportOfPacket 2 1 0x1000000c8) ledger period
      return (ledger, images, delays, delays', e, accounting) : Outcome _))
    (fun (_, _, delays, _, e, accounting) ↦ decide
      (delays.map QueueDelay.latest = [0, Quantity.exactly 30000] ∧ e.baseDelay = some 40 ∧
        accounting.samples.map DelaySample.rawDelay = [.ok 70])) (by decide +kernel)
  obtain ⟨hdelays, hbase, hraws⟩ := of_decide_eq_true htest
  simp only [bind_eq_ok_iff, pure_eq_ok_iff] at hrun
  obtain ⟨_, hledger, _, himages, _, hfollow, _, hfollow', _, hafter, period, hperiod, _,
    haccounting, ⟨⟩⟩ := hrun
  obtain ⟨s, hsamples, hraw⟩ := List.map_eq_singleton_iff.mp hraws
  have hepochs : ∀ r ∈ [reportOfPacket 1 0 40], r.epochs = 0 := by decide +kernel
  have hfirst : ∀ e', (create {} 0.0).after ledger [reportOfPacket 1 0 40] = .ok e' →
      e'.FirstWithin ledger (reportOfPacket 2 1 0x1000000c8)
        (lostDelay (reportOfPacket 2 1 0x1000000c8).epochs - lostDelay 0) := by
    intro e' he'
    cases hafter.symm.trans he'
    exact ⟨period, accounting, s, [], 40, 70, hperiod, ofChecked_eq_ok_iff.mp haccounting, hsamples,
      hbase, hraw, by decide +kernel⟩
  obtain ⟨earlier, last, last', rfl, rfl, hzero⟩ :=
    follow_of_moreEpochs rfl hepochs hfirst himages hfollow hfollow'
  have htold : earlier.map QueueDelay.latest ++ [last.latest] = [0] ++ [Quantity.exactly 30000] :=
    List.map_append.symm.trans hdelays
  obtain ⟨htold, -⟩ := List.append_singleton_inj.mp htold
  refine ⟨ledger, images, _, _, by decide +kernel, himages, hfollow, hfollow', hdelays, ?_⟩
  rw [List.map_append, htold, List.map_singleton, hzero]
  rfl

end QueueDelayEstimator

end Congestion
