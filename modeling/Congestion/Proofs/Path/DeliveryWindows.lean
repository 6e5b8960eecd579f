import Congestion.Path.DeliveryWindow
import Congestion.Proofs.Checked
import Congestion.Proofs.Units.Infinities
import Mathlib.Algebra.Order.BigOperators.Group.List
import Mathlib.Algebra.Order.Group.Int
import Mathlib.Data.List.TakeWhile

/-!
# Totals of the delivery window

The totals of a window are the sums over the periods that it holds (`DeliveryWindow.Totals`), and
adding a period keeps them so: what is dropped from the front is taken off (`expire_eq_ok`). What
stays is the periods from the first that starts within the window (`add_eq_ok`). The period added is
the last to go, so it is dropped only with all the others, and then the fraction is unknown
whatever has been sent in it (`isSome_fraction?_of_add`).
-/

set_option autoImplicit false
set_option relaxedAutoImplicit false

namespace Congestion.DeliveryWindow

variable {w w' : DeliveryWindow} {periods : List PeriodBytes} {stop millis : Int}
  {period : Period} {received sent : DataSize}

/-- The totals are the sums over the periods. -/
structure Totals (w : DeliveryWindow) (periods : List PeriodBytes) : Prop where
  sent : w.totalSent.value = (periods.map fun p ↦ p.sent.value).sum
  received : w.totalReceived.value = (periods.map fun p ↦ p.received.value).sum

theorem totals_empty (window : Duration) : Totals { window } [] := ⟨rfl, rfl⟩

/-- The periods from the first on that starts within the window. -/
def recent (millis stop : Int) (periods : List PeriodBytes) : List PeriodBytes :=
  periods.dropWhile fun p ↦ p.start + millis < stop

theorem recent_eq_nil_iff : recent millis stop periods = [] ↔
    ∀ p ∈ periods, p.start + millis < stop := by
  rw [recent, List.dropWhile_eq_nil_iff]
  simp only [decide_eq_true_eq]

theorem mem_of_recent {p : PeriodBytes} (h : p ∈ recent millis stop periods) : p ∈ periods :=
  (List.dropWhile_sublist _).mem h

/-- The last period is the last to go. -/
theorem mem_recent_concat {p : PeriodBytes} (h : recent millis stop (periods ++ [p]) ≠ []) :
    p ∈ recent millis stop (periods ++ [p]) := by
  unfold recent at h ⊢
  rw [List.dropWhile_append] at h ⊢
  split at h
  next hnone =>
    by_cases hdropped : p.start + millis < stop
    · simp [hdropped] at h
    · simp [hnone, hdropped]
  next hsome =>
    simp [hsome]

theorem expire_eq_ok (hmillis : w.window.millis = .ok millis) (hw : w.Totals periods)
    (h : w.expire stop periods = .ok w') :
    w'.window = w.window ∧ w'.periods = recent millis stop periods ∧ w'.Totals w'.periods := by
  induction periods generalizing w with
  | nil =>
    cases h
    exact ⟨rfl, rfl, ⟨hw.sent, hw.received⟩⟩
  | cons p rest ih =>
    obtain ⟨millis', hmillis', h⟩ := bind_eq_ok_iff.mp h
    cases hmillis.symm.trans hmillis'
    obtain ⟨last, hlast, h⟩ := bind_eq_ok_iff.mp h
    obtain ⟨rfl, -⟩ := signed64_eq_ok_iff.mp hlast
    split at h
    next hkept =>
      cases h
      refine ⟨rfl, ?_, ⟨hw.sent, hw.received⟩⟩
      rw [recent, List.dropWhile_cons_of_neg (by simpa using hkept)]
    next hdropped =>
      obtain ⟨totalSent, hsent, h⟩ := bind_eq_ok_iff.mp h
      obtain ⟨totalReceived, hreceived, h⟩ := bind_eq_ok_iff.mp h
      have hrest : Totals { w with totalSent, totalReceived } rest :=
        ⟨Quantity.value_sub (by rw [hw.sent, List.map_cons, List.sum_cons, add_comm]) hsent,
          Quantity.value_sub (by rw [hw.received, List.map_cons, List.sum_cons, add_comm]) hreceived⟩
      obtain ⟨hwindow, hperiods, htotals⟩ := ih (w := { w with totalSent, totalReceived }) hmillis hrest h
      refine ⟨hwindow, ?_, htotals⟩
      rw [hperiods, recent, recent, List.dropWhile_cons_of_pos (by simpa using hdropped)]

theorem exists_millis_of_expire_concat {p : PeriodBytes}
    (h : w.expire stop (periods ++ [p]) = .ok w') : ∃ millis, w.window.millis = .ok millis := by
  cases periods with
  | nil =>
    obtain ⟨millis, hmillis, -⟩ := bind_eq_ok_iff.mp h
    exact ⟨millis, hmillis⟩
  | cons q rest =>
    obtain ⟨millis, hmillis, -⟩ := bind_eq_ok_iff.mp h
    exact ⟨millis, hmillis⟩

/-- All that adding a period does. -/
theorem add_eq_ok (hw : w.Totals w.periods) (h : w.add period received sent = .ok w') :
    ∃ millis, w.window.millis = .ok millis ∧ w'.window = w.window ∧
      w'.periods = recent millis period.stop (w.periods ++ [⟨period.start, sent, received⟩]) ∧
      w'.Totals w'.periods := by
  obtain ⟨totalSent, hsent, h⟩ := bind_eq_ok_iff.mp h
  obtain ⟨totalReceived, hreceived, h⟩ := bind_eq_ok_iff.mp h
  have htotals : Totals { w with totalSent, totalReceived }
      (w.periods ++ [⟨period.start, sent, received⟩]) := by
    constructor
    · simp [Quantity.value_add hsent, hw.sent]
    · simp [Quantity.value_add hreceived, hw.received]
  obtain ⟨millis, hmillis⟩ := exists_millis_of_expire_concat h
  obtain ⟨hwindow, hperiods, hkept⟩ := expire_eq_ok hmillis htotals h
  exact ⟨millis, hmillis, hwindow, hperiods, hkept⟩

theorem isSome_fraction?_iff : w.fraction?.isSome ↔ 0 < w.totalSent := by
  unfold fraction?
  rw [← Quantity.not_le]
  split
  next hnothing => simp [hnothing]
  next hsome => simp [hsome]

/-- Where something has been sent in the period added, the fraction is known exactly if some period
starts within the window, this one or an earlier one. -/
theorem isSome_fraction?_of_add (hw : w.Totals w.periods) (hnonneg : ∀ p ∈ w.periods, 0 ≤ p.sent)
    (hpos : 0 < sent) (hmillis : w.window.millis = .ok millis)
    (h : w.add period received sent = .ok w') : w'.fraction?.isSome ↔
      period.stop ≤ period.start + millis ∨ ∃ p ∈ w.periods, period.stop ≤ p.start + millis := by
  obtain ⟨millis', hmillis', -, hperiods, htotals⟩ := add_eq_ok hw h
  cases hmillis.symm.trans hmillis'
  have hkept : recent millis period.stop (w.periods ++ [⟨period.start, sent, received⟩]) ≠ [] ↔
      period.stop ≤ period.start + millis ∨ ∃ p ∈ w.periods, period.stop ≤ p.start + millis := by
    rw [Ne, recent_eq_nil_iff]
    simp only [List.mem_append, List.mem_singleton, or_imp, forall_and, forall_eq, not_and_or,
      not_forall, Int.not_lt, exists_prop]
    exact or_comm
  have hadded : 0 < sent.value := Quantity.value_pos_iff.mpr hpos
  rw [isSome_fraction?_iff, ← Quantity.value_pos_iff, htotals.sent, hperiods, ← hkept]
  constructor
  · rintro hsum hnil
    simp [hnil] at hsum
  · intro hne
    have hterms : ∀ size ∈ (recent millis period.stop
        (w.periods ++ [⟨period.start, sent, received⟩])).map fun p ↦ p.sent.value, 0 ≤ size := by
      intro size hsize
      obtain ⟨p, hp, rfl⟩ := List.mem_map.mp hsize
      rcases List.mem_append.mp (mem_of_recent hp) with hp | hp
      · exact Quantity.value_nonneg_iff.mpr (hnonneg p hp)
      · rw [List.mem_singleton.mp hp]
        exact hadded.le
    exact hadded.trans_le (List.single_le_sum hterms _ (List.mem_map_of_mem (mem_recent_concat hne)))

end Congestion.DeliveryWindow
