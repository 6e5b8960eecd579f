import Congestion.Proofs.Feedback.Placements

/-!
# The newest report

Two things are kept of the newest report: the greatest of the unwrapped numbers, which places are
told by, and its number, which is the newer of two numbers in a pairwise comparison and knows nothing
of the turns. The low 16 bits of the greatest number are those of the last report that was newer than
all before it, in every run (`highest_follow`).

The number kept as the newest is the same one exactly as long as each report keeps up with the
greatest before it (`AllKeepUp`): less than half the sequence space behind, or half of it behind a
number that is larger as a word. Neighbours less than half the space apart are not enough for this,
since a few of them lead further back than that (`newest_falls_behind`). One report decides
(`latest?_push_iff`), and as long as all have kept up, the next one is less than a whole turn behind
(`AllKeepUp.behind_le`), where the pairwise comparison goes wrong for all that do not keep up
(`latest_wrapped_iff`).
-/

set_option autoImplicit false
set_option relaxedAutoImplicit false

namespace Congestion

open SequenceNumber

/-- The report is newer than all before it, as the first one is. -/
def Placement.leads : Placement → Bool
  | .first => true
  | p => p.advances

namespace ReportOrder

variable {o : ReportOrder} {ts : List Int} {m t : Int}

/-! ### Runs -/

/-- What is kept of reports that have come, told by the integers that they are counted with. -/
def after (ts : List Int) : ReportOrder := (({} : ReportOrder).follow (ts.map wrapped)).2

theorem after_concat (ts : List Int) (t : Int) :
    after (ts ++ [t]) = ((after ts).push (wrapped t)).2 := by
  rw [after, List.map_append, follow_append]
  rfl

theorem follows_after (hts : CloseSteps ts) : (after ts).Follows ts := by
  have hall : CloseSteps ([] ++ ts) := hts
  exact (tells_empty.follow hall rfl).follows

/-! ### The greatest -/

/-- The number of the last report that was newer than all before it. -/
def lastLead? (numbers : List UInt16) (placements : List Placement) : Option UInt16 :=
  ((numbers.zip placements).filter fun (_, p) ↦ p.leads).getLast?.map Prod.fst

theorem lastLead?_concat {numbers : List UInt16} {placements : List Placement}
    (hlength : placements.length = numbers.length) (number : UInt16) (p : Placement) :
    lastLead? (numbers ++ [number]) (placements ++ [p]) =
      if p.leads then some number else lastLead? numbers placements := by
  unfold lastLead?
  rw [List.zip_append hlength.symm, List.filter_append]
  by_cases hp : p.leads <;> simp [hp]

theorem leads_place_iff {highest : Option Int} {n : Int} :
    (place highest n).leads ↔ ∀ m, highest = some m → m < n := by
  cases highest with
  | none => simp [place, Placement.leads]
  | some m =>
    simp only [place, Option.some.injEq, forall_eq']
    grind [Placement.leads, Placement.advances]

/-- Of any numbers whatever, also such as no one has counted. -/
theorem highest_follow (numbers : List UInt16) :
    (({} : ReportOrder).follow numbers).2.highest.map wrapped =
      lastLead? numbers (({} : ReportOrder).follow numbers).1 := by
  induction numbers using List.reverseRecOn with
  | nil => rfl
  | append_singleton numbers number ih =>
    rw [follow_append]
    generalize hrun : ({} : ReportOrder).follow numbers = run at ih
    obtain ⟨placements, o⟩ := run
    have hlength : placements.length = numbers.length := by
      have hlength := length_follow {} numbers
      rwa [hrun] at hlength
    show (o.push number).2.highest.map wrapped =
      lastLead? (numbers ++ [number]) (placements ++ [(o.push number).1])
    rw [lastLead?_concat hlength, highest_push, push_fst, Option.map_some]
    by_cases hleads : (place o.highest (o.unwrapper.next number)).leads
    · rw [if_pos hleads]
      rw [leads_place_iff] at hleads
      cases hhighest : o.highest with
      | none => rw [Option.elim_none, Unwrapper.wrapped_next]
      | some m =>
        rw [Option.elim_some, Int.max_eq_right (Int.le_of_lt (hleads m hhighest)),
          Unwrapper.wrapped_next]
    · rw [if_neg hleads, ← ih]
      rw [leads_place_iff] at hleads
      push Not at hleads
      obtain ⟨m, hhighest, hle⟩ := hleads
      rw [hhighest, Option.elim_some, Int.max_eq_left hle, Option.map_some]

/-! ### The newest -/

/-- A number keeps up with one that is no further ahead than half the space. Two that are half the
space apart are ordered by size, so then the one ahead has to be the larger as a word. -/
def KeepsUp (m t : Int) : Prop := m - t < 0x8000 ∨ (m - t = 0x8000 ∧ wrapped t < wrapped m)

instance (m t : Int) : Decidable (KeepsUp m t) := inferInstanceAs (Decidable (_ ∨ _))

/-- Each number keeps up with the greatest before it. -/
def AllKeepUp (ts : List Int) : Prop :=
  ∀ i (h : i < ts.length), ∀ m ∈ (ts.take i).max?, KeepsUp m ts[i]

instance (ts : List Int) : Decidable (AllKeepUp ts) :=
  inferInstanceAs (Decidable (∀ i (h : i < ts.length), ∀ m ∈ (ts.take i).max?, KeepsUp m ts[i]))

theorem allKeepUp_concat :
    AllKeepUp (ts ++ [t]) ↔ AllKeepUp ts ∧ ∀ m, ts.max? = some m → KeepsUp m t := by
  constructor
  · refine fun h ↦ ⟨fun i hi ↦ ?_, ?_⟩
    · have hkeeps := h i (by simp; omega)
      rwa [List.getElem_append_left hi, List.take_append_of_le_length hi.le] at hkeeps
    · have hkeeps := h ts.length (by simp)
      rwa [List.getElem_concat_length rfl, List.take_left] at hkeeps
  · rintro ⟨hts, ht⟩ i hi
    rw [List.length_append, List.length_singleton] at hi
    rcases Nat.lt_succ_iff_lt_or_eq.mp hi with hlt | rfl
    · rw [List.getElem_append_left hlt, List.take_append_of_le_length hlt.le]
      exact hts i hlt
    · rw [List.getElem_concat_length rfl, List.take_left]
      exact ht

theorem AllKeepUp.behind_le (hts : AllKeepUp ts) {last : Int} (hmax : ts.max? = some m)
    (hlast : ts.getLast? = some last) : m - last ≤ 0x8000 := by
  obtain ⟨earlier, rfl⟩ := List.getLast?_eq_some_iff.mp hlast
  rw [max?_concat, Option.some.injEq] at hmax
  subst hmax
  cases hearlier : earlier.max? with
  | none => simp
  | some m =>
    have hkeeps := (allKeepUp_concat.mp hts).2 m hearlier
    unfold KeepsUp at hkeeps
    rw [Option.elim_some]
    omega

/-- Of a number not yet a turn behind, the greater is the newer exactly when it keeps up. -/
theorem latest_wrapped_iff (hnear : t - m < 0x8000) (hfar : m - t < 0x10000) :
    latest (wrapped m) (wrapped t) = wrapped (max m t) ↔ KeepsUp m t := by
  have hm := toNat_wrapped m
  have ht := toNat_wrapped t
  have hdistance := toNat_sub_wrapped m t
  unfold latest KeepsUp
  rw [UInt16.lt_iff_toNat_lt]
  split
  next h =>
    rw [isNewer_iff] at h
    rw [wrapped_eq_iff]
    omega
  next h =>
    rw [isNewer_iff] at h
    rw [wrapped_eq_iff]
    omega

theorem latest?_push (o : ReportOrder) (number : UInt16) :
    (o.push number).2.latest? =
      some (if o.highest.isSome then latest o.newest number else number) := by
  unfold push
  dsimp only
  split <;> rfl

theorem latest?_push_iff (ho : o.Follows ts) (hts : CloseSteps (ts ++ [t])) (hkeep : AllKeepUp ts)
    (hagree : o.latest? = o.highest.map wrapped) :
    (o.push (wrapped t)).2.latest? = (o.push (wrapped t)).2.highest.map wrapped ↔
      ∀ m, ts.max? = some m → KeepsUp m t := by
  have hhighest := (ho.push hts).highest
  rw [latest?_push, hhighest, max?_concat]
  cases hmax : ts.max? with
  | none => simp [ho.highest, hmax, wrapped_add_turn]
  | some m =>
    obtain ⟨last, hlast⟩ : ∃ last, ts.getLast? = some last := by
      cases hlast : ts.getLast? with
      | none =>
        rw [List.getLast?_eq_none_iff.mp hlast] at hmax
        cases hmax
      | some last => exact ⟨last, rfl⟩
    have hnear : |t - last| < 0x8000 := (List.isChain_append.mp hts).2.2 last hlast t rfl
    have ⟨hlow, hhigh⟩ := abs_lt.mp hnear
    have hbehind := hkeep.behind_le hmax hlast
    have hle : last ≤ m := (List.max?_eq_some_iff.mp hmax).2 last (List.mem_of_getLast? hlast)
    have hnewest : o.newest = wrapped m := by
      rw [latest?, ho.highest, hmax] at hagree
      simpa [wrapped_add_turn] using hagree
    simp only [ho.highest, hmax, hnewest, Option.map_some, Option.isSome_some, if_true,
      Option.elim_some, wrapped_add_turn, Option.some.injEq, forall_eq']
    exact latest_wrapped_iff (by omega) (by omega)

/-- After every report of a run whose neighbours are less than half the space apart, the low 16 bits
of the greatest number are the number of the last report that was newer than all before it. The
number told as the newest is the same one after every report exactly when each of them keeps up with
the greatest before it. -/
theorem newest_agrees_iff (hts : CloseSteps ts) :
    (∀ seen, seen <+: ts → (after seen).highest.map wrapped =
      lastLead? (seen.map wrapped) (({} : ReportOrder).follow (seen.map wrapped)).1) ∧
    ((∀ seen, seen <+: ts → (after seen).latest? = (after seen).highest.map wrapped) ↔
      AllKeepUp ts) := by
  refine ⟨fun seen _ ↦ highest_follow (seen.map wrapped), ?_⟩
  induction ts using List.reverseRecOn with
  | nil =>
    refine ⟨fun _ i hi ↦ absurd hi (Nat.not_lt_zero i), fun _ seen hseen ↦ ?_⟩
    rw [List.prefix_nil.mp hseen]
    rfl
  | append_singleton ts t ih =>
    have hbefore : CloseSteps ts := (List.isChain_append.mp hts).1
    rw [allKeepUp_concat, ← ih hbefore]
    -- as long as all before it agree, the last report decides
    have hlast : (∀ seen, seen <+: ts → (after seen).latest? = (after seen).highest.map wrapped) →
        ((after (ts ++ [t])).latest? = (after (ts ++ [t])).highest.map wrapped ↔
          ∀ m, ts.max? = some m → KeepsUp m t) := fun hagree ↦ by
      rw [after_concat]
      exact latest?_push_iff (follows_after hbefore) hts ((ih hbefore).mp hagree)
        (hagree ts (List.prefix_refl ts))
    constructor
    · intro hagree
      have hseen : ∀ seen, seen <+: ts →
          (after seen).latest? = (after seen).highest.map wrapped :=
        fun seen hseen ↦ hagree seen (hseen.trans (List.prefix_append ts [t]))
      exact ⟨hseen, (hlast hseen).mp (hagree _ (List.prefix_refl _))⟩
    · rintro ⟨hseen, hkeeps⟩ seen hprefix
      rcases List.prefix_concat_iff.mp hprefix with rfl | hprefix
      · exact (hlast hseen).mpr hkeeps
      · exact hseen seen hprefix

/-- Back by half the space, and then on through the end of it. -/
def halfBehind : List Int := [40000, 20000, 7232, 35000, 65537]

theorem newest_agrees_iff_halfBehind : CloseSteps halfBehind ∧ AllKeepUp halfBehind ∧
    ∀ seen, seen <+: halfBehind → (after seen).latest? = (after seen).highest.map wrapped := by
  have hclose : CloseSteps halfBehind := by unfold CloseSteps; decide
  have hkeep : AllKeepUp halfBehind := by decide +kernel
  exact ⟨hclose, hkeep, (newest_agrees_iff hclose).2.mpr hkeep⟩

/-- Three reports, the last one of which is placed as older than the newest and told as the newest:
it is 60000 behind the first. -/
theorem newest_falls_behind : CloseSteps [40000, 10000, -20000] ∧
    (({} : ReportOrder).follow ([40000, 10000, -20000].map wrapped)).1 =
      [.first, .reordered, .reordered] ∧
    (after [40000, 10000, -20000]).highest = some 40000 ∧
    (after [40000, 10000, -20000]).latest? = some 45536 := by
  refine ⟨?_, by decide +kernel, by decide +kernel, by decide +kernel⟩
  unfold CloseSteps
  decide

end ReportOrder

end Congestion
