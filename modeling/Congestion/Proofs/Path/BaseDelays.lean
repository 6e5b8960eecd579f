import Congestion.Proofs.Path.Meters
import Congestion.Proofs.Path.QueueDelays
import Congestion.Proofs.Units.Amounts
import Mathlib.Data.List.Induction

/-!
# Delays beyond the least of the session

The base delay falls while the samples of a report are measured, so a delay is measured against the
least raw delay up to its own sample, and not against the least of all. `Measured` is what one more
sample keeps nevertheless: the least delay measured is what the least raw delay has beyond the base
delay in the end. A sample that lowers the base delay is measured as zero, and then it is the least
one on both sides.

Since an estimator was created or reset, its base delay is the least raw delay of all samples, and
no queue delay that it tells or hands on is negative (`measured_against_least`).
-/

set_option autoImplicit false
set_option relaxedAutoImplicit false

namespace Congestion

/-- A known time that is not negative. -/
def Quantity.Elapsed (t : Duration) : Prop := ∃ n : Nat, t.toInt = .ok (n : Int)

theorem Quantity.Elapsed.nonneg {t : Duration} (ht : t.Elapsed) : 0 ≤ t := by
  obtain ⟨n, hn⟩ := ht
  rw [le_iff, word_zero, word, Extended.word_of_toInt hn]
  exact Int.natCast_nonneg n

theorem Duration.elapsed_of_ofMillis {n : Int} {t : Duration} (hn : 0 ≤ n)
    (h : Duration.ofMillis n = .ok t) : t.Elapsed := by
  refine ⟨(n * 1000).toNat, ?_⟩
  rw [Int.toNat_of_nonneg (by omega)]
  exact Duration.ofMillis_eq_ok_iff.mp h

namespace QueueDelayEstimator

/-- What an update is given. -/
structure Input where
  period : Period
  samples : List DelaySample
  bandwidth : Option DataRate := none

def meter : Meter QueueDelayEstimator Input QueueDelay where
  update e input := e.update input.period input.samples input.bandwidth
  reset := reset

/-! ### Measuring -/

theorem min?_concat (raws : List Int) (raw : Int) :
    (raws ++ [raw]).min? = some (leastWith raw raws.min?) := by
  cases raws with
  | nil => rfl
  | cons first rest =>
    rw [List.cons_append, List.min?_cons', List.min?_cons', List.foldl_append]
    show some (min (rest.foldl min first) raw) = some (if raw < _ then raw else _)
    congr 1
    split <;> omega

theorem min?_reverse (raws : List Int) : raws.reverse.min? = raws.min? := by
  refine Option.ext fun least ↦ ?_
  simp only [List.min?_eq_some_iff, List.mem_reverse]

/-- The base delay and the delays measured, after samples of some raw delays. -/
structure Measured (before raws : List Int) (base : Option Int) (measured : List Int) : Prop where
  base_eq : base = (before ++ raws).min?
  length_eq : measured.length = raws.length
  least_eq : ∀ least, raws.min? = some least →
    ∃ b, base = some b ∧ measured.min? = some (least - b)

variable {before raws measured : List Int} {base base' : Option Int}

theorem Measured.concat (h : Measured before raws base measured) (raw : Int) :
    Measured before (raws ++ [raw]) (some (leastWith raw base))
      ((raw - leastWith raw base) :: measured) := by
  refine ⟨?_, by simp [h.length_eq], fun least hleast ↦ ⟨_, rfl, ?_⟩⟩
  · rw [h.base_eq, ← List.append_assoc, min?_concat]
  rw [min?_concat, Option.some.injEq] at hleast
  subst hleast
  rw [List.min?_cons]
  cases hraws : raws.min? with
  | none =>
    obtain rfl := List.min?_eq_none_iff.mp hraws
    obtain rfl := List.length_eq_zero_iff.mp h.length_eq
    rfl
  | some least =>
    obtain ⟨b, rfl, hmin⟩ := h.least_eq least hraws
    have hle : b ≤ least := (List.min?_eq_some_iff.mp h.base_eq.symm).2 least
      (List.mem_append_right before (List.min?_mem hraws))
    simp only [hmin, Option.elim_some, leastWith, Option.some.injEq]
    split <;> split <;> omega

theorem measure_eq_ok {samples : List DelaySample}
    (h : measure samples before.min? = .ok (base', measured)) :
    ∃ raws, samples.mapM DelaySample.rawDelay = .ok raws ∧ Measured before raws base' measured := by
  rw [measure_eq] at h
  induction samples using List.reverseRecOn generalizing base' measured with
  | nil =>
    cases h
    exact ⟨[], rfl, by rw [List.append_nil], rfl, fun least hleast ↦ (by cases hleast)⟩
  | append_singleton samples s ih =>
    rw [List.foldlM_append] at h
    obtain ⟨⟨base, measured⟩, hbefore, h⟩ := bind_eq_ok_iff.mp h
    obtain ⟨_, hnext, h⟩ := bind_eq_ok_iff.mp h
    cases h
    obtain ⟨raws, hraws, hmeasured⟩ := ih hbefore
    obtain ⟨raw, hraw, -, hlast⟩ := measureNext_eq_ok hnext
    cases hlast
    refine ⟨raws ++ [raw], ?_, hmeasured.concat raw⟩
    rw [List.mapM_append, hraws, List.mapM_cons, hraw]
    rfl

theorem nonneg_of_measure {samples : List DelaySample}
    (h : measure samples base = .ok (base', measured)) : ∀ n ∈ measured, 0 ≤ n := by
  refine foldlM_keeps (fun b ↦ ∀ n ∈ b.2, 0 ≤ n) (fun s _ b b' hb hnext ↦ ?_)
    (fun n hn ↦ by cases hn) h
  obtain ⟨_, -, hbeyond, rfl⟩ := measureNext_eq_ok hnext
  exact List.forall_mem_cons.mpr ⟨hbeyond, hb⟩

/-! ### Updates -/

variable {e e' : QueueDelayEstimator} {period : Period} {samples : List DelaySample}
  {bandwidth : Option DataRate} {delay : QueueDelay}

theorem suffix_of_expire {window : Duration} {stop : Int} {entries kept : List WindowEntry}
    (h : expire window stop entries = .ok kept) : kept <:+ entries := by
  induction entries with
  | nil =>
    cases h
    exact List.suffix_rfl
  | cons entry rest ih =>
    obtain ⟨millis, -, h⟩ := bind_eq_ok_iff.mp h
    obtain ⟨last, -, h⟩ := bind_eq_ok_iff.mp h
    split at h
    · cases h
      exact List.suffix_rfl
    · exact (ih h).trans (List.suffix_cons entry rest)

theorem observe_eq_ok {stop : Int} {kept entries : List WindowEntry} {latest : Duration}
    (h : e.observe stop kept measured = .ok (latest, entries)) :
    (∃ least, measured.min? = some least ∧ Duration.ofMillis least = .ok latest ∧
      entries = kept ++ [⟨latest, stop⟩]) ∨
    (measured = [] ∧ latest = (kept.map WindowEntry.delay).min?.getD e.lastDelay ∧
      entries = kept) := by
  unfold observe at h
  split at h
  next least hleast =>
    obtain ⟨_, hlatest, h⟩ := map_eq_ok_iff.mp h
    cases h
    exact Or.inl ⟨least, hleast, hlatest, rfl⟩
  next hnone =>
    cases h
    exact Or.inr ⟨List.min?_eq_none_iff.mp hnone, rfl, rfl⟩

/-- No delay that is held is negative. -/
structure Holds (e : QueueDelayEstimator) : Prop where
  entries : ∀ entry ∈ e.entries, entry.delay.Elapsed
  lastDelay : e.lastDelay.Elapsed

theorem holds_reset (e : QueueDelayEstimator) : e.reset.Holds where
  entries := fun entry hentry ↦ by cases hentry
  lastDelay := ⟨0, rfl⟩

theorem Holds.update (he : e.Holds) (h : e.update period samples bandwidth = .ok (delay, e')) :
    e'.Holds ∧ delay.latest.Elapsed := by
  obtain ⟨u, rfl, rfl⟩ := update_eq_ok_iff.mp h
  have hkept : ∀ entry ∈ u.kept, entry.delay.Elapsed := fun entry hentry ↦
    he.entries entry ((suffix_of_expire u.kept_eq).mem hentry)
  rcases observe_eq_ok u.latest_eq with ⟨least, hleast, hlatest, hentries⟩ | ⟨-, hlatest, hentries⟩
  · have hnonneg : 0 ≤ least :=
      nonneg_of_measure u.measured_eq least (List.mem_reverse.mp (List.min?_mem hleast))
    have hnew := Duration.elapsed_of_ofMillis hnonneg hlatest
    refine ⟨⟨fun entry hentry ↦ ?_, hnew⟩, hnew⟩
    replace hentry : entry ∈ u.kept ++ [⟨u.latest, period.stop⟩] := hentries ▸ hentry
    rcases List.mem_append.mp hentry with hentry | hentry
    · exact hkept entry hentry
    · rw [List.mem_singleton.mp hentry]
      exact hnew
  · have hold : u.latest.Elapsed := by
      rw [hlatest]
      cases hmin : (u.kept.map WindowEntry.delay).min? with
      | none => exact he.lastDelay
      | some least =>
        obtain ⟨entry, hentry, rfl⟩ := List.mem_map.mp (List.min?_mem hmin)
        exact hkept entry hentry
    exact ⟨⟨fun entry hentry ↦ hkept entry (hentries ▸ hentry), hold⟩, hold⟩

/-! ### Since the last reset -/

/-- The raw delays of all samples, in the order of the updates. -/
def rawDelays (past : List (Meter.Reading Input QueueDelay)) : Checked (List Int) :=
  (past.flatMap fun reading ↦ reading.input.samples).mapM DelaySample.rawDelay

/-- The base delay is the least raw delay of the past. -/
structure Follows (past : List (Meter.Reading Input QueueDelay)) (e : QueueDelayEstimator) :
    Prop where
  holds : e.Holds
  base : ∃ before, rawDelays past = .ok before ∧ e.baseDelay = before.min?

theorem follows_reset (e : QueueDelayEstimator) : Follows [] e.reset :=
  ⟨holds_reset e, [], rfl, rfl⟩

theorem Follows.update {past : List (Meter.Reading Input QueueDelay)} {input : Input}
    (he : Follows past e) (h : meter.update e input = .ok (delay, e')) :
    Follows (past ++ [⟨input, delay⟩]) e' := by
  refine ⟨(he.holds.update h).1, ?_⟩
  obtain ⟨before, hbefore, hbase⟩ := he.base
  obtain ⟨u, rfl, rfl⟩ := update_eq_ok_iff.mp h
  obtain ⟨raws, hraws, hmeasured⟩ := measure_eq_ok (hbase ▸ u.measured_eq)
  refine ⟨before ++ raws, ?_, hmeasured.base_eq⟩
  rw [rawDelays, List.flatMap_append, List.mapM_append]
  refine bind_eq_ok_iff.mpr ⟨before, hbefore, bind_eq_ok_iff.mpr ⟨raws, ?_, rfl⟩⟩
  rwa [List.flatMap_singleton]

theorem follows_of_run {settings : QueueDelaySettings} {headroom : Float}
    {commands : List (Meter.Command Input)} {past : List (Meter.Reading Input QueueDelay)}
    (hrun : meter.run (create settings headroom) commands = .ok (past, e)) : Follows past e :=
  Meter.run_keeps Follows (fun _ e _ ↦ follows_reset e) (fun _ _ _ _ _ he h ↦ he.update h)
    (follows_reset (create settings headroom)) hrun

/-- After any updates since the estimator was created or reset, the base delay is the least raw delay
of all samples. Whatever the order of its samples, an update tells the least raw delay of them beyond
the base delay that they leave, and no delay that it tells, holds or hands on to the virtual queue is
negative. -/
theorem measured_against_least {settings : QueueDelaySettings} {headroom : Float}
    {commands : List (Meter.Command Input)} {past : List (Meter.Reading Input QueueDelay)}
    (hrun : meter.run (create settings headroom) commands = .ok (past, e))
    (h : e.update period samples bandwidth = .ok (delay, e')) :
    ∃ before raws measured, rawDelays past = .ok before ∧ e.baseDelay = before.min? ∧
      samples.mapM DelaySample.rawDelay = .ok raws ∧ e'.baseDelay = (before ++ raws).min? ∧
      (∀ least, raws.min? = some least → ∃ base, e'.baseDelay = some base ∧
        Duration.ofMillis (least - base) = .ok delay.latest) ∧
      measure samples e.baseDelay = .ok (e'.baseDelay, measured.reverse) ∧
      e.virtualQueue.update samples measured delay.latest e.lastDelay bandwidth =
        .ok e'.virtualQueue ∧
      (∀ n ∈ measured, 0 ≤ n) ∧ 0 ≤ delay.latest ∧ e'.lastDelay = delay.latest := by
  have he := follows_of_run hrun
  have hlatest := (he.holds.update h).2.nonneg
  obtain ⟨before, hbefore, hbase⟩ := he.base
  obtain ⟨u, rfl, rfl⟩ := update_eq_ok_iff.mp h
  obtain ⟨raws, hraws, hmeasured⟩ := measure_eq_ok (hbase ▸ u.measured_eq)
  refine ⟨before, raws, u.reversed.reverse, hbefore, hbase, hraws, hmeasured.base_eq, ?_, ?_,
    u.virtualQueue_eq, fun n hn ↦ nonneg_of_measure u.measured_eq n (List.mem_reverse.mp hn),
    hlatest, rfl⟩
  · intro least hleast
    obtain ⟨b, hb, hmin⟩ := hmeasured.least_eq least hleast
    rw [← min?_reverse] at hmin
    refine ⟨b, hb, ?_⟩
    rcases observe_eq_ok u.latest_eq with ⟨least', hleast', hmillis, -⟩ | ⟨hnil, -⟩
    · cases hmin.symm.trans hleast'
      exact hmillis
    · rw [hnil] at hmin
      cases hmin
  · rw [List.reverse_reverse]
    exact u.measured_eq

def sample (seq : UInt16) (sent : Duration) (arrival : UInt64) : DelaySample :=
  ⟨9, seq, ⟨sent⟩, arrival, .exactly 1000⟩

/-- A short delay before a reset, and longer ones after it. -/
def resetInBetween : List (Meter.Command Input) :=
  [.update { period := ⟨0, 100⟩, samples := [sample 0 (.exactly 0) 300] }, .reset,
    .update { period := ⟨100, 200⟩
              samples := [sample 1 (.exactly 100000) 605, sample 2 (.exactly 110000) 620] }]

/-- The second of three samples lowers the base delay, to what it has been since the reset. -/
theorem measured_against_least_lowered : ∃ past e delay e',
    meter.run (create {} 0.1) resetInBetween = .ok (past, e) ∧
    e.update ⟨200, 300⟩ [sample 3 (.exactly 200000) 720, sample 4 (.exactly 210000) 700,
      sample 5 (.exactly 220000) 720] none = .ok (delay, e') ∧
    e.baseDelay = some 505 ∧ e'.baseDelay = some 490 ∧ delay.latest = 0 := by
  obtain ⟨⟨⟨past, e⟩, delay, e'⟩, hrun, htest⟩ := exists_ok_of_any
    (x := do
      let (past, e) ← meter.run (create {} 0.1) resetInBetween
      let answer ← e.update ⟨200, 300⟩ [sample 3 (.exactly 200000) 720,
        sample 4 (.exactly 210000) 700, sample 5 (.exactly 220000) 720] none
      return ((past, e), answer))
    (fun x ↦ decide (rawDelays x.1.1 = .ok [505, 510])) (by decide +kernel)
  obtain ⟨⟨_, _⟩, hpast, hrun⟩ := bind_eq_ok_iff.mp hrun
  obtain ⟨⟨_, _⟩, hupdate, hrun⟩ := bind_eq_ok_iff.mp hrun
  cases hrun
  obtain ⟨before, raws, measured, hbefore, hbase, hraws, hbase', hlatest, -⟩ :=
    measured_against_least hpast hupdate
  cases hbefore.symm.trans (of_decide_eq_true htest)
  cases hraws
  obtain ⟨base, hb, hmillis⟩ := hlatest 490 rfl
  cases hbase'.symm.trans hb
  exact ⟨past, e, delay, e', hpast, hupdate, hbase, hbase', (Except.ok.inj hmillis).symm⟩

end QueueDelayEstimator

end Congestion
