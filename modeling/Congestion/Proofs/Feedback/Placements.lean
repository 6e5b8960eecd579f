import Congestion.Feedback.ReportOrder
import Congestion.Proofs.Units.Unwrapping
import Mathlib.Algebra.Ring.Nat
import Mathlib.Tactic.Common

/-!
# Where reports fall

Reports are numbered modulo 2^16, and a receiver counts them with integers. Where neighbouring
reports are less than half the space apart, the placement of each is the one that these integers
give it among the earlier ones (`Placement.Among`), and the counts are of these placements
(`ReportOrder.Counts`). The greatest number has risen by one with each report that went ahead, and
by the reports it passed over (`Placement.advances`, `Placement.missing`).

`ReportOrder.Follows` says what is kept of the numbers seen: the last one and the greatest, both
some whole turns of the space away from the integers behind them. With it, `ReportOrder.Tells` is
all that is known of a run; one more report keeps it (`Tells.push`), and so any run comes to it
(`Tells.follow`). Nothing is said of `newest`, which is compared pairwise and knows nothing of the
turns.
-/

set_option autoImplicit false
set_option relaxedAutoImplicit false

namespace Congestion

open SequenceNumber

namespace Placement

/-- Reports passed over. -/
def missing : Placement → Nat
  | .gap missing => missing
  | _ => 0

/-- The report is newer than all before it, which is not said of the first one. -/
def advances : Placement → Bool
  | .inOrder => true
  | .gap _ => true
  | _ => false

/-- The placement of `t` by the greatest of the numbers before it. -/
structure Among (p : Placement) (earlier : List Int) (t : Int) : Prop where
  first : p = .first ↔ earlier = []
  duplicate : p = .duplicate ↔ ∃ m, earlier.max? = some m ∧ t = m
  reordered : p = .reordered ↔ ∃ m, earlier.max? = some m ∧ t < m
  inOrder : p = .inOrder ↔ ∃ m, earlier.max? = some m ∧ t = m + 1
  gap : ∀ missing : Nat, p = .gap missing ↔
    ∃ m, earlier.max? = some m ∧ m + 1 < t ∧ (missing : Int) = t - m - 1

end Placement

theorem max?_concat (ts : List Int) (t : Int) :
    (ts ++ [t]).max? = some (ts.max?.elim t (max · t)) := by
  rw [List.max?_eq_some_iff]
  cases hmax : ts.max? with
  | none => simp [List.max?_eq_none_iff.mp hmax]
  | some m =>
    obtain ⟨hmem, hle⟩ := List.max?_eq_some_iff.mp hmax
    refine ⟨?_, fun b hb ↦ ?_⟩
    · rcases Int.le_total m t with h | h
      · simp [Int.max_eq_right h]
      · simp [Int.max_eq_left h, hmem]
    · rcases List.mem_append.mp hb with hb | hb
      · exact Int.le_trans (hle b hb) (Int.le_max_left m t)
      · rw [List.mem_singleton.mp hb]
        exact Int.le_max_right m t

namespace ReportOrder

/-- Takes in numbers one after another, and tells where each of them falls. -/
def follow (o : ReportOrder) : List UInt16 → List Placement × ReportOrder
  | [] => ([], o)
  | number :: rest =>
    let (placement, o) := o.push number
    let (placements, o) := o.follow rest
    (placement :: placements, o)

theorem follow_take (o : ReportOrder) (numbers : List UInt16) (k : Nat) :
    (o.follow (numbers.take k)).1 = (o.follow numbers).1.take k := by
  induction numbers generalizing o k with
  | nil => simp [follow]
  | cons number rest ih =>
    cases k with
    | zero => rfl
    | succ k => simp only [List.take_succ_cons, follow, ih]

theorem follow_append (o : ReportOrder) (numbers later : List UInt16) :
    o.follow (numbers ++ later) = ((o.follow numbers).1 ++ ((o.follow numbers).2.follow later).1,
      ((o.follow numbers).2.follow later).2) := by
  induction numbers generalizing o with
  | nil => rfl
  | cons number rest ih => simp only [List.cons_append, follow, ih]

theorem length_follow (o : ReportOrder) (numbers : List UInt16) :
    (o.follow numbers).1.length = numbers.length := by
  induction numbers generalizing o with
  | nil => rfl
  | cons number rest ih => simp only [follow, List.length_cons, ih]

/-! ### One report -/

theorem place_among (earlier : List Int) (t : Int) :
    (place earlier.max? t).Among earlier t := by
  cases hmax : earlier.max? with
  | none =>
    have hnil := List.max?_eq_none_iff.mp hmax
    constructor <;> simp [place, hnil]
  | some m =>
    have hcons : earlier ≠ [] := fun hnil ↦ by simp [hnil] at hmax
    constructor <;> simp only [place, hmax, Option.some.injEq, exists_eq_left', hcons] <;> grind

/-- A placement does not change when all numbers are some turns on. -/
theorem place_add (highest : Option Int) (t turn : Int) :
    place (highest.map (· + turn)) (t + turn) = place highest t := by
  cases highest with
  | none => rfl
  | some m => simp only [place, Option.map_some]; grind

theorem push_fst (o : ReportOrder) (number : UInt16) :
    (o.push number).1 = place o.highest (o.unwrapper.next number) := rfl

theorem last_push (o : ReportOrder) (number : UInt16) :
    (o.push number).2.unwrapper.last = some (o.unwrapper.next number) := by
  unfold push
  dsimp only
  split <;> rfl

theorem highest_push (o : ReportOrder) (number : UInt16) : (o.push number).2.highest =
    some (o.highest.elim (o.unwrapper.next number) (max · (o.unwrapper.next number))) := by
  unfold push
  cases o.highest with
  | none =>
    dsimp only
    split <;> rfl
  | some highest =>
    dsimp only
    split <;> rfl

theorem lost_push (o : ReportOrder) (number : UInt16) :
    (o.push number).2.lost = o.lost + (o.push number).1.missing := by
  unfold push
  dsimp only
  split <;> simp_all [Placement.missing]

/-- The counts are of these placements. -/
structure Counts (o : ReportOrder) (placements : List Placement) : Prop where
  lost : o.lost = (placements.map Placement.missing).sum
  duplicates : o.duplicates = placements.count .duplicate
  reordered : o.reordered = placements.count .reordered

theorem Counts.push {o : ReportOrder} {placements : List Placement} (ho : o.Counts placements)
    (number : UInt16) : (o.push number).2.Counts (placements ++ [(o.push number).1]) := by
  obtain ⟨hlost, hduplicates, hreordered⟩ := ho
  have hplacement := o.push_fst number
  unfold ReportOrder.push at hplacement ⊢
  dsimp only at hplacement ⊢
  rw [hplacement]
  split <;> constructor <;>
    simp_all [Placement.missing, List.count_append]

/-! ### Runs -/

theorem lost_follow (o : ReportOrder) (numbers : List UInt16) : (o.follow numbers).2.lost =
    o.lost + ((o.follow numbers).1.map Placement.missing).sum := by
  induction numbers generalizing o with
  | nil => rfl
  | cons number rest ih =>
    simp only [follow, ih, lost_push, List.map_cons, List.sum_cons, Nat.add_assoc]

/-- The last number and the greatest are kept, some turns from the integers behind them. -/
structure Follows (o : ReportOrder) (ts : List Int) : Prop where
  last : o.unwrapper.last = ts.getLast?.map (· + turn ts)
  highest : o.highest = ts.max?.map (· + turn ts)

theorem follows_empty : ({} : ReportOrder).Follows [] := ⟨rfl, rfl⟩

theorem Follows.push_fst {o : ReportOrder} {ts : List Int} {t : Int} (ho : o.Follows ts)
    (hts : CloseSteps (ts ++ [t])) : (o.push (wrapped t)).1 = place ts.max? t := by
  rw [ReportOrder.push_fst, Unwrapper.next_wrapped ho.last hts, ho.highest]
  by_cases hnil : ts = []
  · rw [hnil]
    rfl
  · rw [turn_append hnil, place_add]

theorem Follows.push {o : ReportOrder} {ts : List Int} {t : Int} (ho : o.Follows ts)
    (hts : CloseSteps (ts ++ [t])) : (o.push (wrapped t)).2.Follows (ts ++ [t]) := by
  have hnext := Unwrapper.next_wrapped ho.last hts
  refine ⟨by rw [last_push, hnext, List.getLast?_concat, Option.map_some], ?_⟩
  rw [highest_push, hnext, ho.highest, max?_concat, Option.map_some]
  cases hmax : ts.max? with
  | none => rfl
  | some m =>
    have hne : ts ≠ [] := fun hnil ↦ by simp [hnil] at hmax
    simp only [Option.map_some, Option.elim_some, turn_append hne]
    congr 1
    omega

/-- What is known of a run over the low 16 bits of integers. -/
structure Tells (o : ReportOrder) (placements : List Placement) (ts : List Int) : Prop where
  follows : o.Follows ts
  counts : o.Counts placements
  length : placements.length = ts.length
  placed : ∀ i t, ts[i]? = some t → ∃ p : Placement,
    placements[i]? = some p ∧ p.Among (ts.take i) t
  risen : ∀ t₀ m, ts.head? = some t₀ → ts.max? = some m →
    m - t₀ = o.lost + placements.countP Placement.advances

theorem tells_empty : ({} : ReportOrder).Tells [] [] :=
  ⟨follows_empty, ⟨rfl, rfl, rfl⟩, rfl, fun i t h ↦ by simp at h, fun t₀ m h ↦ by simp at h⟩

/-- How far a report raises the greatest number. -/
theorem max_sub_of_place (m t : Int) : max m t - m =
    ((place (some m) t).missing + if (place (some m) t).advances then 1 else 0 : Nat) := by
  unfold place
  grind [Placement.missing, Placement.advances]

theorem Tells.push {o : ReportOrder} {placements : List Placement} {ts : List Int} {t : Int}
    (ho : o.Tells placements ts) (hts : CloseSteps (ts ++ [t])) :
    (o.push (wrapped t)).2.Tells (placements ++ [(o.push (wrapped t)).1]) (ts ++ [t]) := by
  have hplacement := ho.follows.push_fst hts
  refine ⟨ho.follows.push hts, ho.counts.push _, ?_, fun i t' hi ↦ ?_, fun t₀ m hhead hmax ↦ ?_⟩
  · simp [ho.length]
  · rcases Nat.lt_or_ge i ts.length with hlt | hge
    · rw [List.getElem?_append_left hlt] at hi
      rw [List.getElem?_append_left (by rwa [ho.length]), List.take_append_of_le_length hlt.le]
      exact ho.placed i t' hi
    · have hlast : i = ts.length := by
        have := (List.getElem?_eq_some_iff.mp hi).1
        simp at this
        omega
      subst hlast
      rw [List.getElem?_concat_length, Option.some.injEq] at hi
      rw [← ho.length, List.getElem?_concat_length, ho.length, List.take_left]
      exact ⟨_, rfl, hi ▸ hplacement ▸ place_among ts t⟩
  · have hlost := (ho.counts.push (wrapped t)).lost
    rw [List.map_append, List.sum_append, ← ho.counts.lost, List.map_singleton,
      List.sum_singleton] at hlost
    rw [max?_concat, Option.some.injEq] at hmax
    rw [hlost, List.countP_append, List.countP_singleton, hplacement]
    cases hold : ts.max? with
    | none =>
      obtain rfl := List.max?_eq_none_iff.mp hold
      obtain rfl := List.eq_nil_of_length_eq_zero ho.length
      obtain rfl : t = t₀ := by simpa using hhead
      simp [← hmax, ho.counts.lost, place, Placement.missing, Placement.advances]
    | some m' =>
      have hne : ts ≠ [] := fun hnil ↦ by simp [hnil] at hold
      rw [List.head?_append_of_ne_nil _ hne] at hhead
      have hrisen := ho.risen t₀ m' hhead hold
      have hstep := max_sub_of_place m' t
      rw [hold, Option.elim_some] at hmax
      push_cast at hstep ⊢
      omega

theorem Tells.follow {o o' : ReportOrder} {placements placements' : List Placement}
    {ts ts' : List Int} (ho : o.Tells placements ts) (hts : CloseSteps (ts ++ ts'))
    (h : o.follow (ts'.map wrapped) = (placements', o')) :
    o'.Tells (placements ++ placements') (ts ++ ts') := by
  induction ts' generalizing o placements placements' ts with
  | nil =>
    cases h
    simpa using ho
  | cons t rest ih =>
    have hsplit : ts ++ t :: rest = ts ++ [t] ++ rest := by simp
    rw [hsplit] at hts ⊢
    cases h
    rw [List.append_cons]
    exact ih (ho.push (List.isChain_append.mp hts).1) hts rfl

/-- The words that integers within 2^62 of zero are kept in hold what is kept of them. -/
theorem Follows.fits {o : ReportOrder} {ts : List Int} (ho : o.Follows ts)
    (hts : ∀ t ∈ ts, |t| < 2 ^ 62) {n : Int}
    (hn : o.highest = some n ∨ o.unwrapper.last = some n) : -2 ^ 63 ≤ n ∧ n < 2 ^ 63 := by
  have hturn : -2 ^ 62 < turn ts ∧ turn ts ≤ 2 ^ 62 := by
    cases ts with
    | nil => simp [turn]
    | cons t rest =>
      have := abs_lt.mp (hts t (by simp))
      simp only [turn]
      omega
  have hmem : ∃ t ∈ ts, n = t + turn ts := by
    rw [ho.highest, ho.last, Option.map_eq_some_iff, Option.map_eq_some_iff] at hn
    rcases hn with ⟨t, ht, rfl⟩ | ⟨t, ht, rfl⟩
    · exact ⟨t, List.max?_mem ht, rfl⟩
    · exact ⟨t, List.mem_of_getLast? ht, rfl⟩
  obtain ⟨t, ht, rfl⟩ := hmem
  have := abs_lt.mp (hts t ht)
  omega

/-- No more reports are lost than the integers are apart. -/
theorem Tells.lost_lt {o : ReportOrder} {placements : List Placement} {ts : List Int}
    (ho : o.Tells placements ts) (hts : ∀ t ∈ ts, |t| < 2 ^ 62) : o.lost < 2 ^ 63 := by
  cases ts with
  | nil =>
    obtain rfl := List.eq_nil_of_length_eq_zero ho.length
    simp [ho.counts.lost]
  | cons t₀ rest =>
    obtain ⟨m, hm⟩ : ∃ m, (t₀ :: rest).max? = some m := ⟨_, rfl⟩
    have hrisen := ho.risen t₀ m rfl hm
    have hfirst := abs_lt.mp (hts t₀ List.mem_cons_self)
    have hmax := abs_lt.mp (hts m (List.max?_mem hm))
    omega

/-- Numbers that are the low 16 bits of integers less than half the space apart are placed as
these integers are, each by the greatest of those before it. After any of them, the counts are of
the placements so far, and the greatest has risen from the first by one for each report that went
ahead and by those passed over. Integers within 2^62 of zero leave all that is kept within 64-bit
words. -/
theorem placed_by_integers {ts : List Int} (hts : CloseSteps ts) : ∃ placements : List Placement,
    placements.length = ts.length ∧
    (∀ i t, ts[i]? = some t → ∃ p : Placement,
      placements[i]? = some p ∧ p.Among (ts.take i) t) ∧
    ∀ k, ∃ o, ({} : ReportOrder).follow ((ts.take k).map wrapped) = (placements.take k, o) ∧
      o.Counts (placements.take k) ∧
      (∀ t₀ m, (ts.take k).head? = some t₀ → (ts.take k).max? = some m →
        m - t₀ = o.lost + (placements.take k).countP Placement.advances) ∧
      ((∀ t ∈ ts, |t| < 2 ^ 62) → o.lost < 2 ^ 63 ∧
        ∀ n, o.highest = some n ∨ o.unwrapper.last = some n → -2 ^ 63 ≤ n ∧ n < 2 ^ 63) := by
  have hall := tells_empty.follow hts rfl
  refine ⟨_, hall.length, hall.placed, fun k ↦ ?_⟩
  have hsome : CloseSteps ([] ++ ts.take k) := hts.take k
  have ho := tells_empty.follow hsome rfl
  have hplacements : (({} : ReportOrder).follow ((ts.take k).map wrapped)).1 =
      (({} : ReportOrder).follow (ts.map wrapped)).1.take k := by
    rw [List.map_take, follow_take]
  rw [List.nil_append, List.nil_append, hplacements] at ho
  refine ⟨_, Prod.ext hplacements rfl, ho.counts, ho.risen, fun hfit ↦ ?_⟩
  have hfit : ∀ t ∈ ts.take k, |t| < 2 ^ 62 := fun t ht ↦ hfit t (List.mem_of_mem_take ht)
  exact ⟨ho.lost_lt hfit, fun n ↦ ho.follows.fits hfit⟩

/-- Back below zero at first, and later further behind the greatest than half the space. -/
def farBehind : List Int := [1, -2, 30000, 62000, 65537, 65537, 40000, 10000, 42000, 65538]

theorem placed_by_integers_farBehind : CloseSteps farBehind ∧ ∃ placements,
    placements = [.first, .reordered, .gap 29998, .gap 31999, .gap 3536, .duplicate, .reordered,
      .reordered, .reordered, .inOrder] ∧
    Placement.Among .inOrder (farBehind.take 9) 65538 ∧
    ∃ o, ({} : ReportOrder).follow ((farBehind.take 8).map wrapped) = (placements.take 8, o) ∧
      o.Counts (placements.take 8) ∧ (65537 - 1 : Int) = o.lost + 3 ∧ o.lost < 2 ^ 63 := by
  have hclose : CloseSteps farBehind := by unfold CloseSteps; decide
  obtain ⟨placements, hlength, hplaced, hpoints⟩ := placed_by_integers hclose
  have hwhole : placements = [.first, .reordered, .gap 29998, .gap 31999, .gap 3536, .duplicate,
      .reordered, .reordered, .reordered, .inOrder] := by
    obtain ⟨o, hfollow, -⟩ := hpoints 10
    have htake : placements.take 10 = placements := List.take_of_length_le (Nat.le_of_eq hlength)
    exact htake.symm.trans ((congrArg Prod.fst hfollow).symm.trans (by decide +kernel))
  obtain ⟨o, hfollow, hcounts, hrisen, hfits⟩ := hpoints 8
  obtain ⟨p, hp, hamong⟩ := hplaced 9 65538 rfl
  subst hwhole
  cases hp
  exact ⟨hclose, _, rfl, hamong, o, hfollow, hcounts, hrisen 1 65537 rfl (by decide +kernel),
    (hfits (by decide)).1⟩

end ReportOrder

end Congestion
