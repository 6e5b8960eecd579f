import Congestion.Proofs.Path.Replays
import Mathlib.Data.List.Forall2

/-!
# Capacities

The search for a capacity goes up from the estimate by equal steps. It stops at the first one whose
replay explains the delay, or when the steps are used up (`VirtualQueue.search_eq_ok`).

That all beyond the first one would explain it as well rests on replays: on a link with more bandwidth
each packet takes no longer and the link is free no later, so that nothing waits longer
(`Replay.Ahead.serve`). A replay on such a link also meets no fault that the slower one has not met
(`Replay.exists_serve`).

A headroom of more than the whole bandwidth makes the capacities negative, and packets take a negative
time on such a link. Among these capacities too a greater one lets nothing wait longer, but one of them
can explain a delay that a positive one does not (`VirtualQueue.negative_capacity_explains`).
-/

set_option autoImplicit false
set_option relaxedAutoImplicit false

namespace Congestion

/-! ### Service times -/

theorem tdiv_le_tdiv_of_pos {n b c : ℤ} (hn : 0 ≤ n) (hb : 0 < b) (hle : b ≤ c) :
    n.tdiv c ≤ n.tdiv b := by
  rw [Int.tdiv_eq_ediv_of_nonneg hn, Int.tdiv_eq_ediv_of_nonneg hn]
  have hc : 0 < c := Int.lt_of_lt_of_le hb hle
  refine Int.le_ediv_of_mul_le hb ?_
  calc n / c * b ≤ n / c * c := Int.mul_le_mul_of_nonneg_left hle (Int.ediv_nonneg hn hc.le)
    _ ≤ n := Int.ediv_mul_le n hc.ne'

theorem tdiv_le_tdiv_of_neg {n b c : ℤ} (hn : 0 ≤ n) (hc : c < 0) (hle : b ≤ c) :
    n.tdiv c ≤ n.tdiv b := by
  have h := tdiv_le_tdiv_of_pos hn (Int.neg_pos.mpr hc) (Int.neg_le_neg hle)
  rw [Int.tdiv_neg, Int.tdiv_neg] at h
  exact Int.neg_le_neg_iff.mp h

/-- A bandwidth that is no less than another one, and on the same side of zero. -/
structure DataRate.Raised (b c : DataRate) : Prop where
  le : b ≤ c
  sameSide : 0 ≤ b ∨ c < 0

namespace Quantity

variable {d : Dimension} {a : Quantity d} {size : DataSize} {b c : DataRate} {service : Duration}
  {m n : ℤ}

/-- A packet takes a known time only at a rate that is neither zero nor endless below it. -/
theorem rate_of_timeAt (hservice : service.isFinite) (h : size.timeAt b = .ok service) :
    b = infinity ∨ ∃ x : Finite, b = ⟨.finite x⟩ ∧ x.value ≠ 0 := by
  obtain ⟨_ | x | _⟩ := b
  case negInf =>
    obtain ⟨_, -, h⟩ := bind_eq_ok_iff.mp h
    obtain ⟨_, -, h⟩ := bind_eq_ok_iff.mp h
    cases h
  case posInf => exact .inl rfl
  case finite =>
    refine .inr ⟨x, rfl, fun hzero ↦ ?_⟩
    have hb : (⟨.finite x⟩ : DataRate) = 0 := eq_of_toInt (congrArg Except.ok hzero) rfl
    rw [timeAt, if_pos hb] at h
    cases h
    cases hservice

theorem serviceMicros_nonneg (hsize : 0 ≤ size) (hb : 0 ≤ b) : 0 ≤ size.serviceMicros b := by
  obtain ⟨_ | n | _⟩ := size <;> obtain ⟨_ | x | _⟩ := b
  case finite.finite =>
    have hn : 0 ≤ n.value := hsize
    exact Int.tdiv_nonneg (by omega) hb
  all_goals exact Int.le_refl 0

theorem serviceMicros_of_infinity (size : DataSize) :
    size.serviceMicros (infinity : DataRate) = 0 := by
  obtain ⟨_ | n | _⟩ := size <;> rfl

/-- Above a finite rate there are finite ones and the endless one. -/
theorem rate_of_le {x : Finite} (h : (⟨.finite x⟩ : DataRate) ≤ c) :
    c = infinity ∨ ∃ y : Finite, c = ⟨.finite y⟩ ∧ x.value ≤ y.value := by
  obtain ⟨_ | y | _⟩ := c
  case negInf => exact absurd x.lower (Int.not_lt.mpr h)
  case finite => exact .inr ⟨y, rfl, h⟩
  case posInf => exact .inl rfl

theorem serviceMicros_anti (hsize : 0 ≤ size) (hraised : b.Raised c) (hservice : service.isFinite)
    (h : size.timeAt b = .ok service) : size.serviceMicros c ≤ size.serviceMicros b := by
  obtain ⟨hle, hside⟩ := hraised
  obtain rfl | ⟨x, rfl, hx⟩ := rate_of_timeAt hservice h
  · rw [infinity_le_iff.mp hle]
  obtain rfl | ⟨y, rfl, hxy⟩ := rate_of_le hle
  · rw [serviceMicros_of_infinity]
    exact serviceMicros_nonneg hsize (hside.resolve_right (by decide))
  obtain ⟨_ | n | _⟩ := size
  case finite =>
    have hn : 0 ≤ n.value := hsize
    obtain hpos | hneg : 0 ≤ x.value ∨ y.value < 0 := hside
    · exact tdiv_le_tdiv_of_pos (by omega) (by omega) hxy
    · exact tdiv_le_tdiv_of_neg (by omega) hneg hxy
  all_goals exact Int.le_refl 0

theorem timeAt_of_ne_zero {x : Finite} (hx : x.value ≠ 0) :
    size.timeAt (⟨.finite x⟩ : DataRate) = (do
      let microbits ← signed64 ((← size.bytes) * 8000000)
      ofInt (microbits.tdiv x.value)) := by
  have hzero : (⟨.finite x⟩ : DataRate) ≠ 0 := fun h ↦ hx (by cases h; rfl)
  rw [timeAt, if_neg hzero, if_neg (fun h ↦ by cases h)]
  rfl

/-- At a greater rate a packet meets no fault that it has not met before. -/
theorem exists_timeAt (hsize : 0 ≤ size) (hb : 0 ≤ b) (hle : b ≤ c) (hservice : service.isFinite)
    (h : size.timeAt b = .ok service) :
    ∃ service', size.timeAt c = .ok service' ∧ service'.isFinite := by
  obtain rfl | ⟨x, rfl, hx⟩ := rate_of_timeAt hservice h
  · rw [infinity_le_iff.mp hle]
    exact ⟨service, h, hservice⟩
  obtain rfl | ⟨y, rfl, hxy⟩ := rate_of_le hle
  · exact ⟨0, rfl, rfl⟩
  have hpos : 0 < x.value := Int.lt_iff_le_and_ne.mpr ⟨hb, hx.symm⟩
  rw [timeAt_of_ne_zero hx] at h
  obtain ⟨n, hn, h⟩ := bind_eq_ok_iff.mp h
  obtain ⟨microbits, hmicrobits, h⟩ := bind_eq_ok_iff.mp h
  have hnonneg : 0 ≤ microbits := by
    obtain ⟨rfl, -⟩ := signed64_eq_ok_iff.mp hmicrobits
    have : 0 ≤ n := Extended.word_of_toInt hn ▸ hsize
    omega
  obtain ⟨service', hservice'⟩ := exists_toInt_of_le (ofInt_eq_ok_iff.mp h)
    (Int.tdiv_nonneg hnonneg (hpos.le.trans hxy)) (tdiv_le_tdiv_of_pos hnonneg hpos hxy)
  refine ⟨service', ?_, isFinite_of_toInt hservice'⟩
  rw [timeAt_of_ne_zero (by omega)]
  exact bind_eq_ok_iff.mpr ⟨n, hn, bind_eq_ok_iff.mpr ⟨microbits, hmicrobits,
    ofInt_eq_ok_iff.mpr hservice'⟩⟩

end Quantity

/-! ### Replays with more bandwidth -/

namespace Replay

variable {b c : DataRate} {seed : Option Instant} {r r' r₁ r₁' : Replay} {s : DelaySample}
  {samples : List DelaySample} {service queueTime : Duration}
  {free free' send : ExtendedInt} {wait wait' n : ℤ}

/-- A packet that waits for a link was sent at a known time, and the link is free at one. -/
theorem Waits.exists_send (h : Waits free send wait) (hlate : send < free) :
    ∃ n : ℤ, send = (n : WithTop ℤ) ∧ free = ((n + wait : ℤ) : WithTop ℤ) := by
  have hends := h.ends
  rw [max_eq_right hlate.le] at hends
  induction send using WithBot.recBotCoe with
  | bot =>
    rw [WithBot.bot_add] at hends
    exact absurd hlate (hends ▸ lt_irrefl _)
  | coe send =>
    induction send using WithTop.recTopCoe with
    | top => exact absurd hlate not_top_lt
    | coe n => exact ⟨n, rfl, hends.symm⟩

theorem Waits.mono (h' : Waits free' send wait') (h : Waits free send wait) (hfree : free' ≤ free) :
    wait' ≤ wait := by
  obtain hidle | hlate := le_or_gt free' send
  · rw [h'.idle hidle]
    exact h.nonneg
  · obtain ⟨n, rfl, rfl⟩ := h'.exists_send hlate
    obtain ⟨m, hm, rfl⟩ := h.exists_send (hlate.trans_le hfree)
    norm_cast at hm hfree
    omega

/-- If a packet knows how long it waits for a link, it does so for one that is free earlier. -/
theorem Waits.exists_of_le (h : Waits free send wait) (hfree : free' ≤ free) :
    ∃ wait', Waits free' send wait' := by
  obtain hidle | hlate := le_or_gt free' send
  · exact ⟨0, waits_idle hidle⟩
  obtain ⟨n, rfl, rfl⟩ := h.exists_send (hlate.trans_le hfree)
  induction free' using WithBot.recBotCoe with
  | bot => exact absurd hlate not_lt_bot
  | coe free' =>
    induction free' using WithTop.recTopCoe with
    | top =>
      rw [WithBot.coe_le_coe, top_le_iff] at hfree
      exact absurd hfree (WithTop.coe_ne_top)
    | coe m =>
      norm_cast at hlate
      exact ⟨m - n, waits_sub hlate⟩

/-- The converse of `exists_wait`, for a packet that does not take a negative time. -/
theorem timeFor_eq_ok (hservice : service.toInt = .ok n) (hn : 0 ≤ n)
    (hwait : Waits r.free s.sendTime.value wait) (hqueueTime : queueTime.toInt = .ok (n + wait)) :
    r.timeFor s service = .ok queueTime := by
  unfold timeFor
  unfold free at hwait
  cases hdeparture : r.departure with
  | none =>
    rw [hdeparture] at hwait
    rw [hwait.idle bot_le, Int.add_zero] at hqueueTime
    exact congrArg Except.ok (Quantity.eq_of_toInt hservice hqueueTime)
  | some departure =>
    rw [hdeparture] at hwait
    dsimp only
    split
    next hlate =>
      obtain ⟨t, hsend, hdeparts⟩ :=
        hwait.exists_send (lt_of_not_ge fun h ↦ Int.not_lt.mpr (Instant.value_le_iff.mp h) hlate)
      obtain ⟨rest, hrest⟩ :=
        Quantity.exists_toInt_of_le hqueueTime hwait.nonneg (Int.le_add_of_nonneg_left hn)
      refine bind_eq_ok_iff.mpr ⟨rest, (Quantity.sub_eq_ok_iff (Extended.toInt_of_value hdeparts)
        (Extended.toInt_of_value hsend)).mpr ?_, (Quantity.add_eq_ok_iff hservice hrest).mpr ?_⟩
      · rwa [add_sub_cancel_left]
      · exact hqueueTime
    next hidle =>
      rw [hwait.idle (Instant.value_le_iff.mpr (Int.not_lt.mp hidle)), Int.add_zero] at hqueueTime
      exact congrArg Except.ok (Quantity.eq_of_toInt hservice hqueueTime)

/-- A packet is served only in a known time. -/
theorem timeAt_of_serve (h : serve b r s = .ok r₁) :
    ∃ service, s.size.timeAt b = .ok service ∧ service.isFinite := by
  obtain ⟨service, time, _, _, hservice, htime, -, hmicros, -⟩ := serve_eq_ok_iff.mp h
  obtain ⟨_, -, hfinite, -⟩ := exists_wait (Quantity.isFinite_of_toInt hmicros) htime
  exact ⟨service, hservice, hfinite⟩

/-- The link is free no later, the last packet has spent no longer, and so has none of them. -/
structure Ahead (r' r : Replay) : Prop where
  free : r'.free ≤ r.free
  queueTime : r'.queueTime ≤ r.queueTime
  modeled : List.Forall₂ (· ≤ ·) r'.modeled r.modeled

theorem ahead_refl (r : Replay) : Ahead r r where
  free := le_rfl
  queueTime := Int.le_refl _
  modeled := List.forall₂_refl _

/-- A packet that takes no longer on a link that is free no later leaves it so. -/
theorem Ahead.serve (hr : Ahead r' r) (hsize : 0 ≤ s.size) (hraised : b.Raised c)
    (h : serve b r s = .ok r₁) (h' : serve c r' s = .ok r₁') : Ahead r₁' r₁ := by
  obtain ⟨_, wait, hwait, rfl, hqueueTime, hfree, -, hmodeled⟩ := serve_eq_ok h
  obtain ⟨_, wait', hwait', rfl, hqueueTime', hfree', -, hmodeled'⟩ := serve_eq_ok h'
  obtain ⟨service, hservice, hfinite⟩ := timeAt_of_serve h
  have hle := Int.add_le_add (Quantity.serviceMicros_anti hsize hraised hfinite hservice)
    (hwait'.mono hwait hr.free)
  constructor
  case free =>
    rw [hfree, hfree']
    exact add_le_add_right (by norm_cast) _
  case queueTime => exact (Quantity.le_iff_of_toInt hqueueTime' hqueueTime).mpr hle
  case modeled =>
    rw [hmodeled, hmodeled']
    exact List.rel_append hr.modeled (.cons (Int.tdiv_le_tdiv (by decide) hle) .nil)

/-- With more bandwidth and a link that is free no later a packet meets no fault that it has not met
before. -/
theorem exists_serve (hfree : r'.free ≤ r.free) (hsize : 0 ≤ s.size) (hb : 0 ≤ b) (hle : b ≤ c)
    (h : serve b r s = .ok r₁) : ∃ r₁', serve c r' s = .ok r₁' := by
  obtain ⟨service, time, departure, micros, hservice, htime, hdeparture, hmicros, -⟩ :=
    serve_eq_ok_iff.mp h
  obtain ⟨wait, hwait, hfinite, hsum⟩ := exists_wait (Quantity.isFinite_of_toInt hmicros) htime
  have htime := hsum _ (Quantity.toInt_of_timeAt hfinite hservice)
  obtain ⟨service', hservice', hfinite'⟩ := Quantity.exists_timeAt hsize hb hle hfinite hservice
  obtain ⟨wait', hwait'⟩ := hwait.exists_of_le hfree
  have hnonneg := Quantity.serviceMicros_nonneg hsize (Int.le_trans hb hle)
  have hpositive := Int.add_nonneg hnonneg hwait'.nonneg
  have hless := Int.add_le_add
    (Quantity.serviceMicros_anti hsize ⟨hle, .inl hb⟩ hfinite hservice) (hwait'.mono hwait hfree)
  obtain ⟨time', htime'⟩ := Quantity.exists_toInt_of_le htime hpositive hless
  have hqueue := timeFor_eq_ok (Quantity.toInt_of_timeAt hfinite' hservice') hnonneg hwait' htime'
  obtain ⟨departure', hdeparture'⟩ :=
    Instant.exists_add_of_le htime htime' hpositive hless hdeparture
  exact ⟨_, serve_eq_ok_iff.mpr
    ⟨service', time', departure', _, hservice', hqueue, hdeparture', htime', rfl⟩⟩

/-- A replay with more bandwidth is ahead in the end. -/
theorem ahead_of_run (hsizes : ∀ s ∈ samples, 0 ≤ s.size) (hraised : b.Raised c)
    (h : run samples b seed = .ok r) (h' : run samples c seed = .ok r') : Ahead r' r := by
  induction samples using List.reverseRecOn generalizing r r' with
  | nil =>
    cases h
    cases h'
    exact ahead_refl _
  | append_singleton samples s ih =>
    obtain ⟨hsizes, hsize⟩ := List.forall_mem_append.mp hsizes
    obtain ⟨r₀, hbefore, hserve⟩ := run_concat_eq_ok_iff.mp h
    obtain ⟨r₀', hbefore', hserve'⟩ := run_concat_eq_ok_iff.mp h'
    exact (ih hsizes hbefore hbefore').serve (hsize s (by simp)) hraised hserve hserve'

theorem exists_run (hsizes : ∀ s ∈ samples, 0 ≤ s.size) (hb : 0 ≤ b) (hle : b ≤ c)
    (h : run samples b seed = .ok r) : ∃ r', run samples c seed = .ok r' := by
  induction samples using List.reverseRecOn generalizing r with
  | nil => exact ⟨_, rfl⟩
  | append_singleton samples s ih =>
    obtain ⟨hsizes, hsize⟩ := List.forall_mem_append.mp hsizes
    obtain ⟨r₀, hbefore, hserve⟩ := run_concat_eq_ok_iff.mp h
    obtain ⟨r₀', hbefore'⟩ := ih hsizes hbefore
    have hahead := ahead_of_run hsizes ⟨hle, .inl hb⟩ hbefore hbefore'
    obtain ⟨r', hserve'⟩ := exists_serve hahead.free (hsize s (by simp)) hb hle hserve
    exact ⟨r', run_concat_eq_ok_iff.mpr ⟨r₀', hbefore', hserve'⟩⟩

theorem exists_queueTime (hsizes : ∀ s ∈ samples, 0 ≤ s.size) (hb : 0 ≤ b)
    (h : run samples b seed = .ok r) : ∃ n : ℤ, r.queueTime.toInt = .ok n ∧ 0 ≤ n := by
  obtain rfl | ⟨before, s, rfl⟩ := List.eq_nil_or_concat' samples
  · cases h
    exact ⟨0, rfl, le_rfl⟩
  · obtain ⟨r₀, -, hserve⟩ := run_concat_eq_ok_iff.mp h
    obtain ⟨_, wait, hwait, rfl, hqueueTime, -⟩ := serve_eq_ok hserve
    exact ⟨_, hqueueTime,
      Int.add_nonneg (Quantity.serviceMicros_nonneg (hsizes s (by simp)) hb) hwait.nonneg⟩

end Replay

namespace VirtualQueue

variable {q : VirtualQueue} {samples : List DelaySample} {seed : Option Instant} {b c : DataRate}
  {t u found : Trial} {queueTime queueTime' difference excess : Duration} {delay m n : ℤ}
  {steps : ℕ}

/-! ### Excess -/

/-- What a queue time has beyond the base delay, in whole milliseconds. -/
def excessMillis (base queueTime : ℤ) : ℤ := (max (queueTime - base) 0).tdiv 1000

theorem excessMillis_mono (base : ℤ) (h : m ≤ n) : excessMillis base m ≤ excessMillis base n :=
  Int.tdiv_le_tdiv (by decide) (by omega)

theorem excessOf_eq_ok (h : q.excessOf queueTime = .ok excess) : ∃ (base n : ℤ)
    (difference : Duration), q.baseDelay.toInt = .ok base ∧ queueTime.toInt = .ok n ∧
    difference.toInt = .ok (n - base) ∧ Duration.ofMillis (excessMillis base n) = .ok excess := by
  obtain ⟨difference, hdifference, h⟩ := bind_eq_ok_iff.mp h
  obtain ⟨micros, hmicros, h⟩ := bind_eq_ok_iff.mp h
  obtain ⟨hqueueTime, hbase⟩ :=
    Quantity.isFinite_of_sub hdifference (Quantity.isFinite_of_toInt hmicros)
  obtain ⟨n, hn⟩ := Quantity.exists_toInt_of_isFinite hqueueTime
  obtain ⟨base, hbase⟩ := Quantity.exists_toInt_of_isFinite hbase
  have hknown := (Quantity.sub_eq_ok_iff hn hbase).mp hdifference
  cases hmicros.symm.trans hknown
  exact ⟨base, n, difference, hbase, hn, hknown, h⟩

theorem exists_excessOf (hbase : q.baseDelay.isFinite) (hqueueTime : queueTime.isFinite)
    (hdifference : (queueTime - q.baseDelay : Checked Duration) = .ok difference) :
    ∃ excess, q.excessOf queueTime = .ok excess := by
  obtain ⟨b, hb⟩ := Quantity.exists_toInt_of_isFinite hbase
  obtain ⟨t, ht⟩ := Quantity.exists_toInt_of_isFinite hqueueTime
  have hmicros := (Quantity.sub_eq_ok_iff ht hb).mp hdifference
  -- whole milliseconds of an amount are no more than it
  have hwhole : 0 ≤ excessMillis b t * 1000 ∧ excessMillis b t * 1000 ≤ max (t - b) 0 := by
    rw [excessMillis, Int.tdiv_eq_ediv_of_nonneg (le_max_right _ _)]
    omega
  have hupper : t - b < 0x7fffffffffffffff := by
    obtain ⟨x, -, hx⟩ := Extended.toInt_eq_ok_iff.mp hmicros
    exact hx ▸ x.upper
  obtain ⟨c, hc⟩ := Extended.exists_ofInt (n := excessMillis b t * 1000) (by omega) (by omega)
  exact ⟨⟨c⟩, bind_eq_ok_iff.mpr ⟨difference, hdifference, bind_eq_ok_iff.mpr ⟨t - b, hmicros,
    map_eq_ok_iff.mpr ⟨c, hc, rfl⟩⟩⟩⟩

theorem isFinite_of_excessOf (h : q.excessOf queueTime = .ok excess) : q.baseDelay.isFinite := by
  obtain ⟨base, n, difference, hbase, -⟩ := excessOf_eq_ok h
  exact Quantity.isFinite_of_toInt hbase

/-- A shorter queue time has an excess too, unless it is negative. -/
theorem exists_excessOf_of_le (hm : queueTime'.toInt = .ok m) (hnonneg : 0 ≤ m)
    (hle : queueTime' ≤ queueTime) (h : q.excessOf queueTime = .ok excess) :
    ∃ excess', q.excessOf queueTime' = .ok excess' := by
  obtain ⟨base, n, difference, hbase, hn, hdifference, -⟩ := excessOf_eq_ok h
  have hless := (Quantity.le_iff_of_toInt hm hn).mp hle
  obtain ⟨x, -, rfl⟩ := Extended.toInt_eq_ok_iff.mp hbase
  obtain ⟨y, -, hy⟩ := Extended.toInt_eq_ok_iff.mp hdifference
  have := x.upper
  have := y.upper
  obtain ⟨difference', hdifference'⟩ :=
    Quantity.exists_toInt (d := .time) (n := m - x.value) (by omega) (by omega)
  exact exists_excessOf (Quantity.isFinite_of_toInt hbase) (Quantity.isFinite_of_toInt hm)
    ((Quantity.sub_eq_ok_iff hm hbase).mpr hdifference')

/-! ### Trials -/

/-- The excess, in milliseconds, is no longer than a delay. -/
def Trial.Explains (t : Trial) (delay : ℤ) : Prop :=
  ∃ excess, t.excess.millis = .ok excess ∧ excess ≤ delay

/-- No queue time and no excess of the trial is longer than that of another one, so that it explains
what the other one explains. -/
structure Trial.Eases (u t : Trial) : Prop where
  queueTime : u.replay.queueTime ≤ t.replay.queueTime
  modeled : List.Forall₂ (· ≤ ·) u.replay.modeled t.replay.modeled
  excess : u.excess ≤ t.excess
  explains : ∀ delay, t.Explains delay → u.Explains delay

theorem tryOut_eq_ok_iff : q.tryOut samples seed b = .ok t ↔ ∃ replay excess,
    Replay.run samples b seed = .ok replay ∧ q.excessOf replay.queueTime = .ok excess ∧
    t = ⟨b, replay, excess⟩ := by
  unfold tryOut
  rw [bind_eq_ok_iff]
  refine exists_congr fun replay ↦ ?_
  rw [bind_eq_ok_iff, ← exists_and_left]
  exact exists_congr fun excess ↦ and_congr_right' (and_congr_right' (pure_eq_ok_iff.trans eq_comm))

theorem eases_of_tryOut (hsizes : ∀ s ∈ samples, 0 ≤ s.size) (hraised : b.Raised c)
    (ht : q.tryOut samples seed b = .ok t) (hu : q.tryOut samples seed c = .ok u) :
    u.Eases t := by
  obtain ⟨replay, excess, hrun, hexcess, rfl⟩ := tryOut_eq_ok_iff.mp ht
  obtain ⟨replay', excess', hrun', hexcess', rfl⟩ := tryOut_eq_ok_iff.mp hu
  have hahead := Replay.ahead_of_run hsizes hraised hrun hrun'
  obtain ⟨base, n, -, hbase, hn, -, hmillis⟩ := excessOf_eq_ok hexcess
  obtain ⟨base', m, -, hbase', hm, -, hmillis'⟩ := excessOf_eq_ok hexcess'
  cases hbase.symm.trans hbase'
  have hless := excessMillis_mono base ((Quantity.le_iff_of_toInt hm hn).mp hahead.queueTime)
  refine ⟨hahead.queueTime, hahead.modeled, ?excess, fun delay hexplains ↦ ?explains⟩
  case excess =>
    refine (Quantity.le_iff_of_toInt (Duration.ofMillis_eq_ok_iff.mp hmillis')
      (Duration.ofMillis_eq_ok_iff.mp hmillis)).mpr ?_
    omega
  case explains =>
    obtain ⟨millis, hsame, hle⟩ := hexplains
    cases hsame.symm.trans (Duration.millis_of_ofMillis hmillis)
    exact ⟨_, Duration.millis_of_ofMillis hmillis', hless.trans hle⟩

theorem exists_tryOut (hsizes : ∀ s ∈ samples, 0 ≤ s.size) (hb : 0 ≤ b) (hle : b ≤ c)
    (ht : q.tryOut samples seed b = .ok t) : ∃ u, q.tryOut samples seed c = .ok u := by
  obtain ⟨replay, excess, hrun, hexcess, rfl⟩ := tryOut_eq_ok_iff.mp ht
  obtain ⟨replay', hrun'⟩ := Replay.exists_run hsizes hb hle hrun
  have hahead := Replay.ahead_of_run hsizes ⟨hle, .inl hb⟩ hrun hrun'
  obtain ⟨n, hn, hnonneg⟩ := Replay.exists_queueTime hsizes (Int.le_trans hb hle) hrun'
  obtain ⟨excess', hexcess'⟩ := exists_excessOf_of_le hn hnonneg hahead.queueTime hexcess
  exact ⟨_, tryOut_eq_ok_iff.mpr ⟨replay', excess', hrun', hexcess', rfl⟩⟩

/-! ### The search -/

/-- The trial of the capacity that is some steps above a bandwidth. -/
structure TriedAt (q : VirtualQueue) (samples : List DelaySample) (seed : Option Instant)
    (b : DataRate) (k : ℕ) (t : Trial) : Prop where
  bandwidth : t.bandwidth.value = b.value + k • q.bandwidthStep.value
  trial : q.tryOut samples seed t.bandwidth = .ok t

theorem bandwidth_of_tryOut (h : q.tryOut samples seed b = .ok t) : t.bandwidth = b := by
  obtain ⟨_, _, -, -, rfl⟩ := tryOut_eq_ok_iff.mp h
  rfl

theorem triedAt_zero (ht : q.tryOut samples seed t.bandwidth = .ok t) :
    q.TriedAt samples seed t.bandwidth 0 t where
  bandwidth := by rw [zero_nsmul, add_zero]
  trial := ht

/-- A trial comes next to the last one when the capacity has been raised by a step. -/
theorem TriedAt.of_add {k : ℕ} (hb : (b + q.bandwidthStep : Checked DataRate) = .ok c)
    (h : q.TriedAt samples seed c k t) : q.TriedAt samples seed b (k + 1) t where
  bandwidth := by rw [h.bandwidth, Quantity.value_add hb, succ_nsmul', add_assoc]
  trial := h.trial

/-- The search ends with the first trial that explains the delay, or with the last one. -/
theorem search_eq_ok (ht : q.tryOut samples seed t.bandwidth = .ok t)
    (h : q.search samples seed delay steps t = .ok found) : ∃ k ≤ steps,
    q.TriedAt samples seed t.bandwidth k found ∧
    (∀ j < k, ∃ u, q.TriedAt samples seed t.bandwidth j u ∧ ¬u.Explains delay) ∧
    (found.Explains delay ∨ k = steps) := by
  induction steps generalizing t with
  | zero =>
    cases h
    exact ⟨0, le_rfl, triedAt_zero ht, fun j hj ↦ absurd hj (Nat.not_lt_zero j), .inr rfl⟩
  | succ steps ih =>
    obtain ⟨excess, hexcess, h⟩ := bind_eq_ok_iff.mp h
    split at h
    next hlong =>
      obtain ⟨b, hb, h⟩ := bind_eq_ok_iff.mp h
      obtain ⟨u, hu, hrest⟩ := bind_eq_ok_iff.mp h
      obtain rfl := bandwidth_of_tryOut hu
      obtain ⟨k, hk, hfound, hbefore, hend⟩ := ih hu hrest
      refine ⟨k + 1, Nat.succ_le_succ hk, hfound.of_add hb, fun j hj ↦ ?_,
        hend.imp_right (congrArg (· + 1))⟩
      cases j with
      | zero =>
        refine ⟨t, triedAt_zero ht, ?_⟩
        rintro ⟨millis, hmillis, hle⟩
        cases hexcess.symm.trans hmillis
        exact Int.not_lt.mpr hle hlong
      | succ j =>
        obtain ⟨v, hv, hnot⟩ := hbefore j (Nat.lt_of_succ_lt_succ hj)
        exact ⟨v, hv.of_add hb, hnot⟩
    next hshort =>
      cases h
      exact ⟨0, Nat.zero_le _, triedAt_zero ht, fun j hj ↦ absurd hj (Nat.not_lt_zero j),
        .inl ⟨excess, hexcess, Int.not_lt.mp hshort⟩⟩

/-- Among bandwidths on one side of zero, a greater one has no longer queue times and no more excess,
and explains each delay that a smaller one explains; unless they are negative, it has an answer as the
smaller one has. An update goes up from the estimate, enlarged by the headroom, to the first capacity
that explains the delay, or as far as the steps go. It keeps what the trial of this capacity tells. -/
theorem search_stops_at_least (q : VirtualQueue) (hsizes : ∀ s ∈ samples, 0 ≤ s.size) :
    (∀ (seed : Option Instant) (b c : DataRate) (t : Trial), b.Raised c →
      q.tryOut samples seed b = .ok t →
      (0 ≤ b → ∃ u, q.tryOut samples seed c = .ok u) ∧
      ∀ u, q.tryOut samples seed c = .ok u → u.Eases t) ∧
    ∀ (measured : List ℤ) (latest previous : Duration) (estimate : DataRate) (q' : VirtualQueue),
      0 < latest → 0 < estimate →
      q.update samples measured latest previous (some estimate) = .ok q' →
      ∃ (seed : Option Instant) (b : DataRate) (delay : ℤ) (k : ℕ) (t : Trial),
        q.seed? previous = .ok seed ∧ estimate.scale (1.0 / (1.0 - q.headroom)) = .ok b ∧
        latest.millis = .ok delay ∧ k ≤ q.maxSteps ∧ q.TriedAt samples seed b k t ∧
        (∀ j < k, ∃ u, q.TriedAt samples seed b j u ∧ ¬u.Explains delay) ∧
        (t.Explains delay ∨ k = q.maxSteps) ∧
        q' = { q with
          correlation := Congestion.correlation measured t.replay.modeled
          queueTime := t.replay.queueTime
          excess := t.excess
          lastSend := t.replay.lastSend
          bandwidth := t.bandwidth } := by
  refine ⟨fun seed b c t hraised ht ↦ ⟨fun hb ↦ exists_tryOut hsizes hb hraised.le ht,
    fun u hu ↦ eases_of_tryOut hsizes hraised ht hu⟩, ?_⟩
  intro measured latest previous estimate q' hlatest hestimate h
  unfold update at h
  dsimp only at h
  rw [if_neg (Quantity.not_le.mpr hestimate), if_neg (Quantity.not_le.mpr hlatest)] at h
  obtain ⟨seed, hseed, h⟩ := bind_eq_ok_iff.mp h
  obtain ⟨b, hb, h⟩ := bind_eq_ok_iff.mp h
  obtain ⟨first, hfirst, h⟩ := bind_eq_ok_iff.mp h
  obtain ⟨delay, hdelay, h⟩ := bind_eq_ok_iff.mp h
  obtain ⟨t, hsearch, h⟩ := bind_eq_ok_iff.mp h
  cases h
  obtain rfl := bandwidth_of_tryOut hfirst
  obtain ⟨k, hk, ht, hbefore, hend⟩ := search_eq_ok hfirst hsearch
  exact ⟨seed, first.bandwidth, delay, k, t, hseed, hb, hdelay, hk, ht, hbefore, hend, rfl⟩

/-- A packet of a thousand bytes. -/
def packet : DelaySample := ⟨1, 0, ⟨0⟩, 0, .exactly 1000⟩

/-- Steps of 100 kilobits per second. -/
def tenthFree : VirtualQueue :=
  { baseDelay := .exactly 20000, bandwidthStep := .exactly 100000, maxSteps := 5, headroom := 0.1 }

/-- At 100 and at 200 kilobits per second the packet takes more than 30 milliseconds, and at 300 it
does not. -/
theorem search_stops_at_least_tenthFree : (∀ s ∈ [packet], 0 ≤ s.size) ∧
    ∃ q' k t, tenthFree.update [packet] [] (.exactly 10000) 0 (some (.exactly 90000)) = .ok q' ∧
      q'.bandwidth = .exactly 300000 ∧ tenthFree.TriedAt [packet] none (.exactly 100000) k t ∧
      t.Explains 10 ∧
      (∀ j < k, ∃ u, tenthFree.TriedAt [packet] none (.exactly 100000) j u ∧ ¬u.Explains 10) ∧
      ∀ u, tenthFree.tryOut [packet] none (.exactly 1000000) = .ok u → u.Explains 10 := by
  have hsizes : ∀ s ∈ [packet], 0 ≤ s.size := by decide
  obtain ⟨q', hupdate, hbandwidth⟩ := exists_ok_of_any
    (x := tenthFree.update [packet] [] (.exactly 10000) 0 (some (.exactly 90000)))
    (fun q' ↦ q'.bandwidth = .exactly 300000) (by decide +kernel)
  obtain ⟨first, hscale, hfirst⟩ := exists_ok_of_any
    (x := (.exactly 90000 : DataRate).scale (1.0 / (1.0 - tenthFree.headroom)))
    (fun b ↦ b = .exactly 100000) (by decide +kernel)
  obtain rfl := of_decide_eq_true hfirst
  obtain ⟨heases, hsearch⟩ := search_stops_at_least tenthFree hsizes
  obtain ⟨seed, b, delay, k, ⟨bandwidth, replay, excess⟩, hseed, hb, hdelay, -, ht, hbefore, -,
    rfl⟩ := hsearch [] (.exactly 10000) 0 (.exactly 90000) q' (by decide) (by decide) hupdate
  cases hseed
  cases hscale.symm.trans hb
  cases hdelay
  obtain rfl : bandwidth = .exactly 300000 := of_decide_eq_true hbandwidth
  have hexplains : Trial.Explains ⟨.exactly 300000, replay, excess⟩ 10 := by
    cases ht.trial
    exact ⟨6, rfl, by decide⟩
  have hraised : DataRate.Raised (.exactly 300000) (.exactly 1000000) :=
    ⟨by decide, .inl (by decide)⟩
  exact ⟨hsizes, _, k, _, hupdate, rfl, ht, hexplains, hbefore,
    fun u hu ↦ ((heases _ _ _ _ hraised ht.trial).2 u hu).explains 10 hexplains⟩

/-- A headroom of twice the bandwidth makes the capacities negative. -/
def overcommitted : VirtualQueue :=
  { baseDelay := .exactly 20000, bandwidthStep := .exactly 100000, maxSteps := 5, headroom := 2.0
    lastSend := some ⟨0⟩ }

/-- Behind a queue of a second the packet of a thousand bytes leaves earlier at a negative capacity
than at a positive one, which explains no delay of 830 milliseconds while the negative one does. So
an estimate of 50 kilobits per second ends at the negative capacity, and one of 60 passes by 40, as
it passes by all others, up to 440. -/
theorem negative_capacity_explains :
    (∃ t u, overcommitted.tryOut [packet] (some ⟨.exactly 1000000⟩) (.exactly (-50000)) = .ok t ∧
      overcommitted.tryOut [packet] (some ⟨.exactly 1000000⟩) (.exactly 40000) = .ok u ∧
      t.excess < u.excess ∧ t.Explains 830 ∧ ¬u.Explains 830) ∧
    (∃ q', overcommitted.update [packet] [] (.exactly 830000) (.exactly 980000)
      (some (.exactly 50000)) = .ok q' ∧ q'.bandwidth = .exactly (-50000)) ∧
    (∃ q', overcommitted.update [packet] [] (.exactly 830000) (.exactly 980000)
      (some (.exactly 60000)) = .ok q' ∧ q'.bandwidth = .exactly 440000) := by
  refine ⟨⟨_, _, rfl, rfl, by decide, ⟨820, rfl, by decide⟩, ?_⟩, ?_, ?_⟩
  · rintro ⟨excess, hexcess, hle⟩
    cases hexcess
    exact absurd hle (by decide)
  · obtain ⟨q', hupdate, hbandwidth⟩ := exists_ok_of_any (x := overcommitted.update [packet] []
      (.exactly 830000) (.exactly 980000) (some (.exactly 50000)))
      (fun q' ↦ q'.bandwidth = .exactly (-50000)) (by decide +kernel)
    exact ⟨q', hupdate, of_decide_eq_true hbandwidth⟩
  · obtain ⟨q', hupdate, hbandwidth⟩ := exists_ok_of_any (x := overcommitted.update [packet] []
      (.exactly 830000) (.exactly 980000) (some (.exactly 60000)))
      (fun q' ↦ q'.bandwidth = .exactly 440000) (by decide +kernel)
    exact ⟨q', hupdate, of_decide_eq_true hbandwidth⟩

end VirtualQueue

end Congestion
