import Congestion.Proofs.Path.BaseDelays
import Congestion.Proofs.Windows

/-!
# The window of queue delays

An estimator drops the delays of old periods before it takes up the one of a new period. Where the
ends of the periods do not go back, its window is one in the sense of `Windowed`, with each period
that has had samples as a part of its history (`retains_of_run`). What is kept of it at an update is
then what is within the window (`Retains.kept_eq`), and the figures told are those of the delays held
(`Update.figures`). So the window holds the delay that has been measured just now, and of the earlier
ones exactly those whose period ends within it (`holds_within`).

The delay measured last is held however short the window is: with a window of a negative length it
is held although its period does not end within the window (`holds_beyond_negativeWindow`).
-/

set_option autoImplicit false
set_option relaxedAutoImplicit false

namespace Congestion.QueueDelayEstimator

variable {e e' : QueueDelayEstimator} {period : Period} {samples : List DelaySample}
  {bandwidth : Option DataRate} {delay : QueueDelay} {millis stop : Int}
  {past : List (Meter.Reading Input QueueDelay)}

/-! ### Updates -/

theorem expire_eq_ok {window : Duration} {entries kept : List WindowEntry}
    (hmillis : window.millis = .ok millis) (h : expire window stop entries = .ok kept) :
    kept = entries.dropWhile fun entry ↦ entry.periodEnd + millis < stop := by
  induction entries with
  | nil =>
    cases h
    rfl
  | cons entry rest ih =>
    obtain ⟨millis', hmillis', h⟩ := bind_eq_ok_iff.mp h
    cases hmillis.symm.trans hmillis'
    obtain ⟨last, hlast, h⟩ := bind_eq_ok_iff.mp h
    obtain ⟨rfl, -⟩ := signed64_eq_ok_iff.mp hlast
    split at h
    next hkept =>
      cases h
      rw [List.dropWhile_cons_of_neg (by simpa using hkept)]
    next hdropped =>
      rw [List.dropWhile_cons_of_pos (by simpa using hdropped), ih h]

theorem eq_nil_iff_of_measure {base base' : Option Int} {measured : List Int}
    (h : measure samples base = .ok (base', measured)) : measured = [] ↔ samples = [] := by
  cases samples with
  | nil =>
    cases h
    exact iff_of_true rfl rfl
  | cons s rest =>
    rw [measure_eq, List.foldlM_cons] at h
    obtain ⟨first, hfirst, hrest⟩ := bind_eq_ok_iff.mp h
    obtain ⟨_, -, -, rfl⟩ := measureNext_eq_ok hfirst
    refine iff_of_false ?_ (List.cons_ne_nil s rest)
    refine foldlM_keeps (fun b ↦ b.2 ≠ []) (fun s _ b b' _ hnext ↦ ?_) (List.cons_ne_nil _ _) hrest
    obtain ⟨_, -, -, rfl⟩ := measureNext_eq_ok hnext
    exact List.cons_ne_nil _ _

/-- The delays of the updates with samples, each with the end of its period. -/
def measuredEntries (past : List (Meter.Reading Input QueueDelay)) : List WindowEntry :=
  (past.filter fun reading ↦ reading.input.samples ≠ []).map fun reading ↦
    ⟨reading.answer.latest, reading.input.period.stop⟩

def stops (past : List (Meter.Reading Input QueueDelay)) : List Int :=
  past.map fun reading ↦ reading.input.period.stop

theorem measuredEntries_append (past later : List (Meter.Reading Input QueueDelay)) :
    measuredEntries (past ++ later) = measuredEntries past ++ measuredEntries later := by
  rw [measuredEntries, List.filter_append, List.map_append]
  rfl

theorem periodEnds_sublist (past : List (Meter.Reading Input QueueDelay)) :
    ((measuredEntries past).map WindowEntry.periodEnd).Sublist (stops past) := by
  rw [measuredEntries, List.map_map]
  exact List.filter_sublist.map _

/-- What ends just now is within every window that is not of negative length. -/
theorem within_measuredEntries (reading : Meter.Reading Input QueueDelay) (hmillis : 0 ≤ millis) :
    within WindowEntry.periodEnd millis reading.input.period.stop (measuredEntries [reading]) =
      measuredEntries [reading] := by
  refine List.filter_eq_self.mpr fun entry hentry ↦ decide_eq_true ?_
  obtain ⟨r, hr, rfl⟩ := List.mem_map.mp hentry
  obtain rfl := List.mem_singleton.mp (List.mem_filter.mp hr).1
  exact Int.le_add_of_nonneg_right hmillis

/-- The new delay is held, if there is one, with the kept ones. -/
theorem Update.entries_eq (u : e.Update period samples bandwidth) :
    u.entries = u.kept ++ measuredEntries [⟨⟨period, samples, bandwidth⟩, u.told⟩] := by
  have hsamples : u.reversed = [] ↔ samples = [] := eq_nil_iff_of_measure u.measured_eq
  rcases observe_eq_ok u.latest_eq with ⟨least, hleast, -, hentries⟩ | ⟨hnil, -, hentries⟩
  · have hsome : samples ≠ [] := fun hnone ↦ by
      rw [hsamples.mpr hnone] at hleast
      cases hleast
    rw [hentries, measuredEntries, List.filter_cons_of_pos (by simpa using hsome)]
    rfl
  · have hnone := hsamples.mp (List.reverse_eq_nil_iff.mp hnil)
    rw [hentries, measuredEntries, List.filter_cons_of_neg (by simpa using hnone)]
    exact (List.append_nil u.kept).symm

theorem Update.eq_nil_of_entries (u : e.Update period samples bandwidth) (h : u.entries = []) :
    samples = [] := by
  by_contra hsome
  rw [u.entries_eq, measuredEntries, List.filter_cons_of_pos (by simpa using hsome)] at h
  exact List.append_ne_nil_of_right_ne_nil _ (List.cons_ne_nil _ _) h

/-! ### Since the last reset -/

/-- The latest delay told, zero before there is one. -/
def previousLatest (past : List (Meter.Reading Input QueueDelay)) : Duration :=
  (past.getLast?.map fun reading ↦ reading.answer.latest).getD 0

/-- The estimator holds a window of its past. -/
structure Retains (window : Duration) (millis : Int) (past : List (Meter.Reading Input QueueDelay))
    (e : QueueDelayEstimator) : Prop where
  window_eq : e.window = window
  lastDelay_eq : e.lastDelay = previousLatest past
  entries : (stops past).Pairwise (· ≤ ·) →
    Windowed WindowEntry.periodEnd millis (stops past) (measuredEntries past) e.entries

variable {window : Duration}

theorem Retains.reset (he : Retains window millis past e) : Retains window millis [] e.reset :=
  ⟨he.window_eq, rfl, fun _ ↦ windowed_nil _ _⟩

/-- What is kept of the earlier delays is what is within the window. -/
theorem Retains.kept_eq (he : Retains window millis past e) (hmillis : window.millis = .ok millis)
    (hordered : (stops past ++ [period.stop]).Pairwise (· ≤ ·))
    (u : e.Update period samples bandwidth) :
    u.kept = within WindowEntry.periodEnd millis period.stop (measuredEntries past) := by
  obtain ⟨hpast, -, hlast⟩ := List.pairwise_append.mp hordered
  rw [expire_eq_ok (he.window_eq ▸ hmillis) u.kept_eq]
  refine (he.entries hpast).expire ?_ fun s hs ↦ hlast s hs _ List.mem_cons_self
  exact List.pairwise_map.mp (hpast.sublist (periodEnds_sublist past))

theorem Retains.update {input : Input} (he : Retains window millis past e)
    (hmillis : window.millis = .ok millis) (h : meter.update e input = .ok (delay, e')) :
    Retains window millis (past ++ [⟨input, delay⟩]) e' := by
  obtain ⟨u, rfl, rfl⟩ := update_eq_ok_iff.mp h
  refine ⟨he.window_eq, ?_, fun hordered ↦ ?_⟩
  · rw [previousLatest, List.getLast?_concat]
    rfl
  · rw [stops, List.map_append] at hordered ⊢
    rw [measuredEntries_append]
    show Windowed _ _ _ _ u.entries
    rw [u.entries_eq, he.kept_eq hmillis hordered u]
    exact (windowed_within (stops past) (measuredEntries past)).append _

theorem retains_of_run {settings : QueueDelaySettings} {headroom : Float}
    {commands : List (Meter.Command Input)} (hmillis : settings.window.millis = .ok millis)
    (hrun : meter.run (create settings headroom) commands = .ok (past, e)) :
    Retains settings.window millis past e :=
  Meter.run_keeps (Retains settings.window millis) (fun _ _ he ↦ he.reset)
    (fun _ _ _ _ _ he h ↦ he.update hmillis h) ⟨rfl, rfl, fun _ ↦ windowed_nil _ _⟩ hrun

/-! ### Figures -/

/-- What is told of the delays held. -/
structure Figures (delays : List Duration) (delay : QueueDelay) : Prop where
  mem : delay.windowMin ∈ delays
  le : ∀ t ∈ delays, delay.windowMin ≤ t
  range : ∃ most ∈ delays, (∀ t ∈ delays, t ≤ most) ∧
    (most - delay.windowMin : Checked Duration) = .ok delay.windowRange

theorem exists_least {entries : List WindowEntry} (hentries : entries ≠ []) :
    ∃ least, (entries.map WindowEntry.delay).min? = some least :=
  Option.ne_none_iff_exists'.mp fun hnone ↦
    hentries (List.map_eq_nil_iff.mp (List.min?_eq_none_iff.mp hnone))

theorem exists_most {entries : List WindowEntry} (hentries : entries ≠ []) :
    ∃ most, (entries.map WindowEntry.delay).max? = some most :=
  Option.ne_none_iff_exists'.mp fun hnone ↦
    hentries (List.map_eq_nil_iff.mp (List.max?_eq_none_iff.mp hnone))

theorem Update.figures (u : e.Update period samples bandwidth) (hentries : u.entries ≠ []) :
    Figures (u.entries.map WindowEntry.delay) u.told := by
  obtain ⟨least, hleast⟩ := exists_least hentries
  obtain ⟨most, hmost⟩ := exists_most hentries
  have htold : u.told.windowMin = least := by
    show leastOf u.entries u.latest = least
    rw [leastOf, hleast, Option.getD_some]
  have hrange := u.windowRange_eq
  rw [rangeOf, hmost] at hrange
  obtain ⟨hmem, hle⟩ := List.min?_eq_some_iff.mp hleast
  obtain ⟨hmemMost, hleMost⟩ := List.max?_eq_some_iff.mp hmost
  exact ⟨htold ▸ hmem, htold ▸ hle, most, hmemMost, hleMost, hrange⟩

/-- Without samples the least delay held is told, or else the last one again. -/
theorem Update.latest_eq_of_nil (u : e.Update period [] bandwidth) : u.entries = u.kept ∧
    u.latest = (u.entries.map WindowEntry.delay).min?.getD e.lastDelay := by
  have hnil : u.reversed = [] := (eq_nil_iff_of_measure u.measured_eq).mpr rfl
  rcases observe_eq_ok u.latest_eq with ⟨least, hleast, -⟩ | ⟨-, hlatest, hentries⟩
  · rw [hnil] at hleast
    cases hleast
  · exact ⟨hentries, by rw [hlatest, hentries]⟩

/-- With samples the delay told is held. -/
theorem Update.latest_mem (u : e.Update period samples bandwidth) (hentries : u.entries ≠ []) :
    u.latest ∈ u.entries.map WindowEntry.delay := by
  cases samples with
  | nil =>
    obtain ⟨least, hleast⟩ := exists_least hentries
    rw [u.latest_eq_of_nil.2, hleast]
    exact List.min?_mem hleast
  | cons s rest =>
    rw [u.entries_eq, List.map_append]
    exact List.mem_append_right _ List.mem_cons_self

theorem Figures.bounds {delays : List Duration} (hdelays : Figures delays delay)
    (helapsed : ∀ t ∈ delays, t.Elapsed) (hlatest : delay.latest ∈ delays) :
    0 ≤ delay.windowMin ∧ delay.windowMin ≤ delay.latest ∧ ∃ beyond,
      (delay.latest - delay.windowMin : Checked Duration) = .ok beyond ∧
        beyond ≤ delay.windowRange := by
  obtain ⟨most, hmost, hle, hrange⟩ := hdelays.range
  obtain ⟨least, hleast⟩ := helapsed _ hdelays.mem
  obtain ⟨latest, hlatest'⟩ := helapsed _ hlatest
  obtain ⟨greatest, hgreatest⟩ := helapsed _ hmost
  have hbelow := hdelays.le _ hlatest
  obtain ⟨beyond, hbeyond⟩ := Quantity.exists_sub_of_le (helapsed _ hdelays.mem).nonneg
    (Quantity.isFinite_of_toInt hleast) hbelow
  refine ⟨(helapsed _ hdelays.mem).nonneg, hbelow, beyond, hbeyond, ?_⟩
  have habove := hle _ hlatest
  rw [Quantity.le_iff, Quantity.word, Quantity.word, Extended.word_of_toInt hlatest',
    Extended.word_of_toInt hgreatest] at habove
  rw [Quantity.le_iff, Quantity.word, Quantity.word,
    Extended.word_of_toInt ((Quantity.sub_eq_ok_iff hlatest' hleast).mp hbeyond),
    Extended.word_of_toInt ((Quantity.sub_eq_ok_iff hgreatest hleast).mp hrange)]
  omega

theorem Update.latest_eq_windowMin (u : e.Update period [] bandwidth) (hentries : u.entries ≠ []) :
    u.told.latest = u.told.windowMin := by
  obtain ⟨least, hleast⟩ := exists_least hentries
  show u.latest = leastOf u.entries u.latest
  rw [leastOf, u.latest_eq_of_nil.2, hleast, Option.getD_some, Option.getD_some]

theorem Update.told_of_nil (u : e.Update period samples bandwidth) (hentries : u.entries = []) :
    u.told.latest = e.lastDelay ∧ u.told.windowMin = u.told.latest ∧ u.told.windowRange = 0 := by
  obtain rfl := u.eq_nil_of_entries hentries
  have hlatest := u.latest_eq_of_nil.2
  have hrange := u.windowRange_eq
  rw [hentries] at hlatest hrange
  refine ⟨hlatest, ?_, (Except.ok.inj hrange).symm⟩
  show leastOf u.entries u.latest = u.latest
  rw [hentries]
  rfl

theorem Update.bounds (u : e.Update period samples bandwidth) (hentries : u.result.Holds) :
    0 ≤ u.told.windowMin ∧ u.told.windowMin ≤ u.told.latest ∧ ∃ beyond,
      (u.told.latest - u.told.windowMin : Checked Duration) = .ok beyond ∧
        beyond ≤ u.told.windowRange := by
  by_cases hnil : u.entries = []
  · obtain ⟨-, hmin, hrange⟩ := u.told_of_nil hnil
    have hnonneg : 0 ≤ u.told.latest := hentries.lastDelay.nonneg
    obtain ⟨latest, hlatest⟩ : u.told.latest.Elapsed := hentries.lastDelay
    rw [hmin, hrange]
    refine ⟨hnonneg, Int.le_refl _, 0, ?_, Int.le_refl _⟩
    exact (Quantity.sub_eq_ok_iff hlatest hlatest).mpr (by rw [Int.sub_self]; rfl)
  · refine (u.figures hnil).bounds (fun t ht ↦ ?_) (u.latest_mem hnil)
    obtain ⟨entry, hentry, rfl⟩ := List.mem_map.mp ht
    exact hentries.entries entry hentry

/-- After any updates since the estimator was created or reset, an update leaves the delay that it
has measured, if it has, behind those of the earlier periods that end within the window. It tells the
least of them and what the greatest has beyond it. Without samples it tells the least as the latest
delay too, or the one before again where no delay is held.

Assumes: the ends of the periods do not go back. -/
theorem holds_within {settings : QueueDelaySettings} {headroom : Float}
    {commands : List (Meter.Command Input)} (hmillis : settings.window.millis = .ok millis)
    (hrun : meter.run (create settings headroom) commands = .ok (past, e))
    (hordered : (stops past ++ [period.stop]).Pairwise (· ≤ ·))
    (h : e.update period samples bandwidth = .ok (delay, e')) :
    e'.entries =
      within WindowEntry.periodEnd millis period.stop (measuredEntries past) ++
        measuredEntries [⟨⟨period, samples, bandwidth⟩, delay⟩] ∧
    (0 ≤ millis → e'.entries = within WindowEntry.periodEnd millis period.stop
      (measuredEntries (past ++ [⟨⟨period, samples, bandwidth⟩, delay⟩]))) ∧
    (e'.entries ≠ [] → Figures (e'.entries.map WindowEntry.delay) delay) ∧
    (samples = [] → e'.entries ≠ [] → delay.latest = delay.windowMin) ∧
    (e'.entries = [] → delay.latest = previousLatest past ∧ delay.windowMin = delay.latest ∧
      delay.windowRange = 0) ∧
    0 ≤ delay.windowMin ∧ delay.windowMin ≤ delay.latest ∧ ∃ beyond,
      (delay.latest - delay.windowMin : Checked Duration) = .ok beyond ∧
        beyond ≤ delay.windowRange := by
  have he := retains_of_run hmillis hrun
  have hholds := ((follows_of_run hrun).holds.update h).1
  obtain ⟨u, rfl, rfl⟩ := update_eq_ok_iff.mp h
  have hentries : u.entries =
      within WindowEntry.periodEnd millis period.stop (measuredEntries past) ++
        measuredEntries [⟨⟨period, samples, bandwidth⟩, u.told⟩] := by
    rw [u.entries_eq, he.kept_eq hmillis hordered u]
  refine ⟨hentries, fun hlong ↦ ?_, u.figures, ?_, fun hnil ↦ ?_, u.bounds hholds⟩
  · have hnew := within_measuredEntries ⟨⟨period, samples, bandwidth⟩, u.told⟩ hlong
    rw [measuredEntries_append, within_append]
    exact hentries.trans (congrArg _ hnew.symm)
  · rintro rfl hsome
    exact u.latest_eq_windowMin hsome
  · rw [← he.lastDelay_eq]
    exact u.told_of_nil hnil

/-- Two periods, the second one with a delay of 30 milliseconds. -/
def twoPeriods : List (Meter.Command Input) :=
  [.update { period := ⟨0, 100⟩, samples := [sample 0 (.exactly 0) 500] },
    .update { period := ⟨100, 200⟩, samples := [sample 1 (.exactly 100000) 630] }]

/-- A period without samples, at the end of a window that the first period does not reach any more. -/
theorem holds_within_afterExpiry : ∃ past e delay e',
    meter.run (create { window := .exactly 100000 } 0.1) twoPeriods = .ok (past, e) ∧
    stops past = [100, 200] ∧ e.update ⟨200, 300⟩ [] none = .ok (delay, e') ∧
    e'.entries = [⟨.exactly 30000, 200⟩] ∧ delay.latest = delay.windowMin ∧
    Figures [.exactly 30000] delay := by
  obtain ⟨⟨⟨past, e⟩, delay, e'⟩, hrun, htest⟩ := exists_ok_of_any
    (x := do
      let (past, e) ← meter.run (create { window := .exactly 100000 } 0.1) twoPeriods
      let answer ← e.update ⟨200, 300⟩ [] none
      return ((past, e), answer))
    (fun x ↦ decide (stops x.1.1 = [100, 200]) &&
      decide (measuredEntries x.1.1 = [⟨0, 100⟩, ⟨.exactly 30000, 200⟩])) (by decide +kernel)
  obtain ⟨⟨_, _⟩, hpast, hrun⟩ := bind_eq_ok_iff.mp hrun
  obtain ⟨⟨_, _⟩, hupdate, hrun⟩ := bind_eq_ok_iff.mp hrun
  cases hrun
  obtain ⟨hstops, hmeasured⟩ := Bool.and_eq_true_iff.mp htest
  replace hstops := of_decide_eq_true hstops
  have hordered : (stops past ++ [300]).Pairwise (· ≤ ·) := by
    rw [hstops]
    decide
  have hmillis : Quantity.millis (.exactly 100000) = .ok 100 := rfl
  obtain ⟨hentries, -, hfigures, hlatest, -⟩ := holds_within hmillis hpast hordered hupdate
  rw [of_decide_eq_true hmeasured] at hentries
  replace hentries : e'.entries = [⟨.exactly 30000, 200⟩] := hentries
  have hsome : e'.entries ≠ [] := by
    rw [hentries]
    exact List.cons_ne_nil _ _
  replace hfigures := hfigures hsome
  rw [hentries] at hfigures
  exact ⟨past, e, delay, e', hpast, hstops, hupdate, hentries, hlatest rfl hsome, hfigures⟩

/-- The window has ended a millisecond before the period does, and the delay is held. -/
theorem holds_beyond_negativeWindow : ∃ delay e',
    Quantity.millis (.exactly (-1000)) = .ok (-1) ∧
    (create { window := .exactly (-1000) } 0.1).update ⟨0, 100⟩ [sample 0 (.exactly 0) 500] none =
      .ok (delay, e') ∧
    e'.entries = [⟨delay.latest, 100⟩] ∧
    within WindowEntry.periodEnd (-1) 100 (measuredEntries
      [⟨⟨⟨0, 100⟩, [sample 0 (.exactly 0) 500], none⟩, delay⟩]) = [] := by
  obtain ⟨⟨delay, e'⟩, hupdate, htest⟩ := exists_ok_of_any
    (x := (create { window := .exactly (-1000) } 0.1).update ⟨0, 100⟩
      [sample 0 (.exactly 0) 500] none)
    (fun x ↦ decide (x.2.entries = [⟨x.1.latest, 100⟩])) (by decide +kernel)
  exact ⟨delay, e', rfl, hupdate, of_decide_eq_true htest, rfl⟩

end Congestion.QueueDelayEstimator
