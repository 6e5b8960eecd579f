import Congestion.Path.DeliveryWindow
import Congestion.Path.QueueDelay
import Congestion.Proofs.Checked
import Congestion.Proofs.Units.Amounts

/-!
# What stops a window

A window that drops what is older adds its length to the times it holds, from the oldest on. Of a
finite length the only fault is a sum beyond the words (`EndsBeyond`), and of a length without an end
any time is one. The delivery window takes the sizes that it drops off its totals besides. Where
these cover all sizes held, as sums of them do unless they leave the words (`FitsWith`), adding a
period meets no other fault (`DeliveryWindow.overflow_of_add`).
-/

set_option autoImplicit false
set_option relaxedAutoImplicit false

namespace Congestion

/-- One of the times is so late that the window after it ends beyond the words. -/
def EndsBeyond (window : Duration) (times : List Int) : Prop :=
  ∃ millis, window.millis = .ok millis ∧ ∃ t ∈ times, signed64 (t + millis) = .error .overflow

theorem EndsBeyond.cons {window : Duration} {times : List Int} (h : EndsBeyond window times)
    (t : Int) : EndsBeyond window (t :: times) := by
  obtain ⟨millis, hmillis, late, hlate, hbeyond⟩ := h
  exact ⟨millis, hmillis, late, List.mem_cons_of_mem t hlate, hbeyond⟩

/-- A look at the oldest of some times meets no fault but that it is too late for the window. -/
theorem beyond_or_goesOn {α : Type} {window : Duration} {t : Int} {goOn : Int → Checked α}
    {fault : Fault} (hwindow : window.isFinite) (times : List Int)
    (h : (do goOn (← signed64 (t + (← window.millis)))) = .error fault) :
    (fault = .overflow ∧ EndsBeyond window (t :: times)) ∨ ∃ last, goOn last = .error fault := by
  obtain ⟨millis, hmillis⟩ := Quantity.exists_millis_of_isFinite hwindow
  rw [hmillis] at h
  rcases bind_eq_error_iff.mp h with h | ⟨_, hsame, h⟩
  · cases h
  cases hsame
  rcases bind_eq_error_iff.mp h with h | ⟨last, -, h⟩
  · obtain ⟨rfl, -⟩ := signed64_eq_error_iff.mp h
    exact Or.inl ⟨rfl, millis, hmillis, t, List.mem_cons_self, h⟩
  · exact Or.inr ⟨last, h⟩

/-- All sizes can be taken off a total in turn. -/
def CoversAll (total : DataSize) (sizes : List DataSize) : Prop :=
  ∃ rest, sizes.foldlM (fun total size ↦ (total - size : Checked DataSize)) total = .ok rest

theorem coversAll_cons {total size : DataSize} {sizes : List DataSize} :
    CoversAll total (size :: sizes) ↔
      ∃ less, (total - size : Checked DataSize) = .ok less ∧ CoversAll less sizes := by
  simp only [CoversAll, List.foldlM_cons, bind_eq_ok_iff]
  exact exists_comm.trans (exists_congr fun less ↦ exists_and_left)

/-- A total fits the words with a new size, and covers all sizes then. -/
def FitsWith (total : DataSize) (sizes : List DataSize) (new : DataSize) : Prop :=
  ∃ grown, (total + new : Checked DataSize) = .ok grown ∧ CoversAll grown (sizes ++ [new])

namespace DeliveryWindow

variable {w : DeliveryWindow} {fault : Fault}

/-- A finite window drops periods, unless one of them is too late for it. -/
theorem overflow_of_expire {stop : Int} {periods : List PeriodBytes} (hwindow : w.window.isFinite)
    (hsent : CoversAll w.totalSent (periods.map PeriodBytes.sent))
    (hreceived : CoversAll w.totalReceived (periods.map PeriodBytes.received))
    (h : w.expire stop periods = .error fault) :
    fault = .overflow ∧ EndsBeyond w.window (periods.map PeriodBytes.start) := by
  induction periods generalizing w with
  | nil => cases h
  | cons p rest ih =>
    obtain ⟨totalSent, hsent, hsentRest⟩ := coversAll_cons.mp hsent
    obtain ⟨totalReceived, hreceived, hreceivedRest⟩ := coversAll_cons.mp hreceived
    unfold expire at h
    rw [hsent, hreceived] at h
    rcases beyond_or_goesOn hwindow (rest.map PeriodBytes.start) h with hlate | ⟨last, h⟩
    · exact hlate
    split at h
    · cases h
    · obtain ⟨hfault, hbeyond⟩ :=
        ih (w := { w with totalSent, totalReceived }) hwindow hsentRest hreceivedRest h
      exact ⟨hfault, hbeyond.cons p.start⟩

/-- A window without an end faults on any period. -/
theorem undefined_of_expire (hwindow : ¬ w.window.isFinite) (stop : Int) (p : PeriodBytes)
    (periods : List PeriodBytes) : w.expire stop (p :: periods) = .error .undefined := by
  rw [expire, Quantity.millis_of_not_isFinite hwindow]
  rfl

theorem overflow_of_add {period : Period} {received sent : DataSize} (hwindow : w.window.isFinite)
    (hsent : FitsWith w.totalSent (w.periods.map PeriodBytes.sent) sent)
    (hreceived : FitsWith w.totalReceived (w.periods.map PeriodBytes.received) received)
    (h : w.add period received sent = .error fault) :
    fault = .overflow ∧ EndsBeyond w.window (w.periods.map PeriodBytes.start ++ [period.start]) := by
  obtain ⟨totalSent, hgrown, hsent⟩ := hsent
  obtain ⟨totalReceived, hgrown', hreceived⟩ := hreceived
  unfold add at h
  rw [hgrown, hgrown'] at h
  have hexpire : expire { w with totalSent, totalReceived } period.stop
      (w.periods ++ [⟨period.start, sent, received⟩]) = .error fault := h
  have hfault := overflow_of_expire (w := { w with totalSent, totalReceived }) hwindow
    (by rw [List.map_append]; exact hsent) (by rw [List.map_append]; exact hreceived) hexpire
  rwa [List.map_append] at hfault

end DeliveryWindow

namespace QueueDelayEstimator

variable {window : Duration}

theorem overflow_of_expire {stop : Int} {entries : List WindowEntry} {fault : Fault}
    (hwindow : window.isFinite) (h : expire window stop entries = .error fault) :
    fault = .overflow ∧ EndsBeyond window (entries.map WindowEntry.periodEnd) := by
  induction entries with
  | nil => cases h
  | cons entry rest ih =>
    unfold expire at h
    rcases beyond_or_goesOn hwindow (rest.map WindowEntry.periodEnd) h with hlate | ⟨last, h⟩
    · exact hlate
    split at h
    · cases h
    · obtain ⟨hfault, hbeyond⟩ := ih h
      exact ⟨hfault, hbeyond.cons entry.periodEnd⟩

theorem undefined_of_expire (hwindow : ¬ window.isFinite) (stop : Int) (entry : WindowEntry)
    (entries : List WindowEntry) : expire window stop (entry :: entries) = .error .undefined := by
  rw [expire, Quantity.millis_of_not_isFinite hwindow]
  rfl

end QueueDelayEstimator

end Congestion
