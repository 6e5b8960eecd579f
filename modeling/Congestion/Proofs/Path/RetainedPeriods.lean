import Congestion.Proofs.Path.DeliveryWindows
import Congestion.Proofs.Path.Expiry
import Congestion.Proofs.Path.Meters
import Congestion.Proofs.Windows

/-!
# Periods within the delivery window

A period is added before the window drops what is older, so it may be dropped itself. Through any
updates and resets the totals are the sums over the periods held, since a sum that is answered and a
difference that is answered are exact, infinite sizes included. While the totals fit the words, only
a period too late for the window stops an update (`overflow_of_add`).

Where neither the starts nor the ends of the periods go back, the window is one in the sense of
`Windowed` (`retains_of_run`), and the periods held are those that start within it. The fraction is
told of their sums (`sums_of_retained`).
-/

set_option autoImplicit false
set_option relaxedAutoImplicit false

namespace Congestion.DeliveryWindow

/-- What an update is given. -/
structure Input where
  period : Period
  received : DataSize
  sent : DataSize

def Input.bytes (input : Input) : PeriodBytes := ⟨input.period.start, input.sent, input.received⟩

/-- An update answers the fraction. -/
def meter : Meter DeliveryWindow Input (Option Float) where
  update w input := (fun w ↦ (w.fraction?, w)) <$> w.add input.period input.received input.sent
  reset := reset

variable {w w' : DeliveryWindow} {window : Duration} {millis : Int} {input : Input}
  {answer : Option Float} {past : List (Meter.Reading Input (Option Float))}
  {commands : List (Meter.Command Input)}

def stops (past : List (Meter.Reading Input (Option Float))) : List Int :=
  past.map fun reading ↦ reading.input.period.stop

/-- The bytes of all periods. -/
def added (past : List (Meter.Reading Input (Option Float))) : List PeriodBytes :=
  past.map fun reading ↦ reading.input.bytes

/-- Neither the starts nor the ends of the periods go back. -/
structure InOrder (past : List (Meter.Reading Input (Option Float))) : Prop where
  starts : (added past).Pairwise fun p q ↦ p.start ≤ q.start
  ends : (stops past).Pairwise (· ≤ ·)

/-- All that an update does. -/
theorem update_eq_ok (hw : w.Totals w.periods) (h : meter.update w input = .ok (answer, w')) :
    answer = w'.fraction? ∧ w'.Totals w'.periods ∧ w'.window = w.window ∧
      ∃ millis, w.window.millis = .ok millis ∧
        w'.periods = recent millis input.period.stop (w.periods ++ [input.bytes]) := by
  obtain ⟨_, hadd, h⟩ := map_eq_ok_iff.mp h
  cases h
  obtain ⟨millis, hmillis, hwindow, hperiods, htotals⟩ := add_eq_ok hw hadd
  exact ⟨rfl, htotals, hwindow, millis, hmillis, hperiods⟩

/-! ### Since the last reset -/

/-- The periods held are a window of those added, with their sums as totals. -/
structure Retains (window : Duration) (past : List (Meter.Reading Input (Option Float)))
    (w : DeliveryWindow) : Prop where
  window_eq : w.window = window
  totals : w.Totals w.periods
  periods : InOrder past → ∀ millis, window.millis = .ok millis →
    Windowed PeriodBytes.start millis (stops past) (added past) w.periods

theorem retains_empty (window : Duration) : Retains window [] { window } :=
  ⟨rfl, totals_empty window, fun _ _ _ ↦ windowed_nil _ _⟩

theorem Retains.reset (hw : Retains window past w) : Retains window [] w.reset := by
  rw [DeliveryWindow.reset, hw.window_eq]
  exact retains_empty window

theorem InOrder.of_concat {reading : Meter.Reading Input (Option Float)}
    (h : InOrder (past ++ [reading])) :
    InOrder past ∧ ∀ s ∈ stops past, s ≤ reading.input.period.stop := by
  obtain ⟨hstarts, hends⟩ := h
  rw [added, List.map_append] at hstarts
  rw [stops, List.map_append] at hends
  obtain ⟨hpast, -, hlast⟩ := List.pairwise_append.mp hends
  exact ⟨⟨(List.pairwise_append.mp hstarts).1, hpast⟩, fun s hs ↦
    hlast s hs _ List.mem_cons_self⟩

theorem Retains.periods_eq (hw : Retains window past w) (hmillis : window.millis = .ok millis)
    (hordered : InOrder (past ++ [⟨input, answer⟩])) :
    recent millis input.period.stop (w.periods ++ [input.bytes]) =
      within PeriodBytes.start millis input.period.stop (added (past ++ [⟨input, answer⟩])) := by
  obtain ⟨hpast, hstops⟩ := hordered.of_concat
  have hsorted := hordered.starts
  rw [added, List.map_append] at hsorted ⊢
  exact ((hw.periods hpast millis hmillis).append _).expire hsorted hstops

theorem Retains.update (hw : Retains window past w)
    (h : meter.update w input = .ok (answer, w')) :
    Retains window (past ++ [⟨input, answer⟩]) w' := by
  obtain ⟨-, htotals, hwindow, millis, hmillis, hperiods⟩ := update_eq_ok hw.totals h
  refine ⟨hwindow.trans hw.window_eq, htotals, fun hordered millis' hmillis' ↦ ?_⟩
  rw [hw.window_eq] at hmillis
  cases hmillis.symm.trans hmillis'
  rw [hperiods, hw.periods_eq hmillis hordered, stops, List.map_append]
  exact windowed_within (stops past) _

theorem retains_of_run (hrun : meter.run { window } commands = .ok (past, w)) :
    Retains window past w :=
  Meter.run_keeps (Retains window) (fun _ _ hw ↦ hw.reset)
    (fun _ _ _ _ _ hw h ↦ hw.update h) (retains_empty window) hrun

/-! ### The fraction -/

theorem fraction?_eq_none_iff {periods : List PeriodBytes} (hw : w.Totals periods) :
    w.fraction? = none ↔ (periods.map fun p ↦ p.sent.value).sum ≤ 0 := by
  rw [← Option.not_isSome_iff_eq_none, isSome_fraction?_iff, ← Quantity.value_pos_iff, hw.sent,
    not_lt]

theorem fraction?_eq_ratio {periods : List PeriodBytes} (hw : w.Totals periods)
    (hsome : 0 < (periods.map fun p ↦ p.sent.value).sum) :
    w.fraction? = some (w.totalReceived.ratio w.totalSent) := by
  rw [← hw.sent, Quantity.value_pos_iff] at hsome
  rw [fraction?, if_neg (Quantity.not_le.mpr hsome)]

/-- Through any updates and resets the totals are the sums over the periods held. Of a finite window
an update answers as long as the totals fit the words, unless it comes to a period that is too late
for the window. With periods whose starts and ends have not gone back since the last reset it leaves
exactly those that start within the window, its own as well if it does. It answers the ratio of the
two sums, unless nothing has been sent in the periods held. -/
theorem sums_of_retained (hrun : meter.run { window } commands = .ok (past, w)) :
    w.Totals w.periods ∧
    (∀ input fault, window.isFinite →
      FitsWith w.totalSent (w.periods.map PeriodBytes.sent) input.sent →
      FitsWith w.totalReceived (w.periods.map PeriodBytes.received) input.received →
      meter.update w input = .error fault → fault = .overflow ∧
        EndsBeyond window (w.periods.map PeriodBytes.start ++ [input.period.start])) ∧
    ∀ input answer w', meter.update w input = .ok (answer, w') →
      ∃ millis, window.millis = .ok millis ∧ w'.Totals w'.periods ∧
      (InOrder (past ++ [⟨input, answer⟩]) → w'.periods =
        within PeriodBytes.start millis input.period.stop (added (past ++ [⟨input, answer⟩]))) ∧
      (answer = none ↔ (w'.periods.map fun p ↦ p.sent.value).sum ≤ 0) ∧
      (0 < (w'.periods.map fun p ↦ p.sent.value).sum →
        answer = some (w'.totalReceived.ratio w'.totalSent)) := by
  have hw := retains_of_run hrun
  refine ⟨hw.totals, fun input fault hfinite hsent hreceived h ↦ ?_, fun input answer w' h ↦ ?_⟩
  · have hadd := map_eq_error_iff.mp h
    rw [← hw.window_eq] at hfinite ⊢
    exact overflow_of_add hfinite hsent hreceived hadd
  · obtain ⟨rfl, htotals, -, millis, hmillis, hperiods⟩ := update_eq_ok hw.totals h
    rw [hw.window_eq] at hmillis
    refine ⟨millis, hmillis, htotals, fun hordered ↦ ?_, fraction?_eq_none_iff htotals,
      fraction?_eq_ratio htotals⟩
    rw [hperiods, hw.periods_eq hmillis hordered]

/-- One period before a reset, and two after it. -/
def twoAfterReset : List (Meter.Command Input) :=
  [.update ⟨⟨0, 100⟩, .exactly 90, .exactly 100⟩, .reset,
    .update ⟨⟨100, 200⟩, .exactly 80, .exactly 100⟩,
    .update ⟨⟨200, 300⟩, .exactly 100, .exactly 100⟩]

/-- What they leave. -/
def heldAfterReset : DeliveryWindow where
  window := .exactly 500000
  periods := [⟨100, .exactly 100, .exactly 80⟩, ⟨200, .exactly 100, .exactly 100⟩]
  totalSent := .exactly 200
  totalReceived := .exactly 180

/-- A period at the end of the clock. -/
def atEnd : Input := ⟨⟨0x7fffffffffffffff, 0x7fffffffffffffff⟩, .exactly 50, .exactly 200⟩

/-- The third period after the reset drops the first one. In its place one at the end of the clock
has no answer: the window after it ends beyond the words. -/
theorem sums_of_retained_afterReset : ∃ past w answer w',
    meter.run { window := .exactly 500000 } twoAfterReset = .ok (past, w) ∧
    meter.update w ⟨⟨600, 700⟩, .exactly 50, .exactly 200⟩ = .ok (answer, w') ∧
    InOrder (past ++ [⟨⟨⟨600, 700⟩, .exactly 50, .exactly 200⟩, answer⟩]) ∧
    w'.periods = [⟨200, .exactly 100, .exactly 100⟩, ⟨600, .exactly 200, .exactly 50⟩] ∧
    answer = some (Quantity.ratio (.exactly 150 : DataSize) (.exactly 300)) ∧
    meter.update w atEnd = .error .overflow ∧
    EndsBeyond (.exactly 500000) [100, 200, 0x7fffffffffffffff] := by
  obtain ⟨⟨⟨past, w⟩, answer, w'⟩, hrun, htest⟩ := exists_ok_of_any
    (x := do
      let (past, w) ← meter.run { window := .exactly 500000 } twoAfterReset
      let answer ← meter.update w ⟨⟨600, 700⟩, .exactly 50, .exactly 200⟩
      return ((past, w), answer))
    (fun ((past, w), _, w') ↦ decide (added past = heldAfterReset.periods ∧
      stops past = [200, 300] ∧ w = heldAfterReset ∧
      w'.totalSent = .exactly 300 ∧ w'.totalReceived = .exactly 150)) (by decide +kernel)
  obtain ⟨⟨_, _⟩, hpast, hrun⟩ := bind_eq_ok_iff.mp hrun
  obtain ⟨⟨_, _⟩, hupdate, hrun⟩ := bind_eq_ok_iff.mp hrun
  cases hrun
  obtain ⟨hadded, hstops, rfl, hsent, hreceived⟩ := of_decide_eq_true htest
  have hordered : InOrder (past ++ [⟨⟨⟨600, 700⟩, .exactly 50, .exactly 200⟩, answer⟩]) := by
    constructor
    · rw [added, List.map_append, ← added, hadded]
      show ([⟨100, .exactly 100, .exactly 80⟩, ⟨200, .exactly 100, .exactly 100⟩,
        ⟨600, .exactly 200, .exactly 50⟩] : List PeriodBytes).Pairwise fun p q ↦ p.start ≤ q.start
      decide
    · rw [stops, List.map_append, ← stops, hstops]
      show ([200, 300, 700] : List Int).Pairwise (· ≤ ·)
      decide
  obtain ⟨-, hstopped, hanswered⟩ := sums_of_retained hpast
  obtain ⟨millis, hmillis, hsums, hperiods, -, hanswer⟩ := hanswered _ _ _ hupdate
  obtain rfl : 500 = millis := Except.ok.inj hmillis
  replace hperiods := hperiods hordered
  rw [added, List.map_append, ← added, hadded] at hperiods
  rw [← hsums.sent, Quantity.value_pos_iff, hsent, hreceived] at hanswer
  have hlate : meter.update heldAfterReset atEnd = .error .overflow := rfl
  obtain ⟨-, hbeyond⟩ := hstopped _ _ (by decide) ⟨_, rfl, _, rfl⟩ ⟨_, rfl, _, rfl⟩ hlate
  exact ⟨past, heldAfterReset, answer, w', hpast, hupdate, hordered, hperiods,
    hanswer (by decide), hlate, hbeyond⟩

end Congestion.DeliveryWindow
