import Congestion.Path.VirtualQueue
import Congestion.Proofs.Units.Infinities
import Mathlib.Data.List.Induction

/-!
# Replays

A replay is a link that serves packets in the order of the list. Its code carries the time that the
last packet spent and lets a packet wait where the link is not free. `Replay.free` reads it as a link
that is free from some time on, and `serve_eq_ok` tells what a packet finds there: the link takes it
up when it is sent or when it is free, whichever is later, and is free again after the time that the
packet takes.

Were the link busy without a break since packet `k` was sent, or since the seed, it would be free
after the sum of the times of all packets from there on. `busyEnds` are these ends, and the link is
free at the greatest of them (`Frees.serve`), whatever idle times and whatever order of sends there
are in between. So every packet leaves as it does on a link that serves in order
(`run_serves_in_order`).
-/

set_option autoImplicit false
set_option relaxedAutoImplicit false

namespace Congestion

namespace Quantity

variable {d : Dimension} {a b c : Quantity d} {size : DataSize} {bandwidth : DataRate}
  {service : Duration}

/-- A known sum is one of known amounts. -/
theorem isFinite_of_add (h : (a + b : Checked (Quantity d)) = .ok c) (hc : c.isFinite) :
    a.isFinite ∧ b.isFinite := by
  obtain ⟨_ | x | _⟩ := a <;> obtain ⟨_ | y | _⟩ := b
  case finite.finite => exact ⟨rfl, rfl⟩
  all_goals
    cases h
    try cases hc

/-- The microseconds that a size takes at a rate, the fraction cut off. An endless rate takes none. -/
def serviceMicros (size : DataSize) (bandwidth : DataRate) : ℤ :=
  match size.amount, bandwidth.amount with
  | .finite n, .finite b => (n.value * 8000000).tdiv b.value
  | _, _ => 0

theorem toInt_of_timeAt (hservice : service.isFinite) (h : size.timeAt bandwidth = .ok service) :
    service.toInt = .ok (size.serviceMicros bandwidth) := by
  unfold timeAt at h
  split at h
  next =>
    cases h
    cases hservice
  next =>
    split at h
    next hendless =>
      cases h
      rw [hendless, serviceMicros]
      cases size.amount <;> rfl
    next =>
      obtain ⟨n, hn, h⟩ := bind_eq_ok_iff.mp h
      obtain ⟨microbits, hmicrobits, h⟩ := bind_eq_ok_iff.mp h
      obtain ⟨b, hb, h⟩ := bind_eq_ok_iff.mp h
      obtain ⟨x, hx, rfl⟩ := Extended.toInt_eq_ok_iff.mp hn
      obtain ⟨y, hy, rfl⟩ := Extended.toInt_eq_ok_iff.mp hb
      obtain ⟨rfl, -⟩ := signed64_eq_ok_iff.mp hmicrobits
      rw [serviceMicros, hx, hy]
      exact ofInt_eq_ok_iff.mp h

end Quantity

namespace Replay

variable {bandwidth : DataRate} {seed : Option Instant} {r r' : Replay} {s : DelaySample}
  {samples : List DelaySample} {service : Duration}

/-! ### One packet -/

/-- The time a packet spends queueing and being sent. -/
def timeFor (r : Replay) (s : DelaySample) (service : Duration) : Checked Duration :=
  match r.departure with
  | some departure =>
    if s.sendTime < departure then do service + (← departure - s.sendTime) else pure service
  | none => pure service

theorem serve_eq (bandwidth : DataRate) (r : Replay) (s : DelaySample) : serve bandwidth r s = do
    let service ← s.size.timeAt bandwidth
    let queueTime ← r.timeFor s service
    let departure ← s.sendTime + queueTime
    let micros ← queueTime.micros
    return { departure := some departure, lastSend := some s.sendTime, queueTime,
             modeledReversed := micros.tdiv 1000 :: r.modeledReversed } := by
  unfold serve timeFor
  refine bind_congr fun service ↦ ?_
  cases r.departure with
  | none => rfl
  | some departure =>
    dsimp only
    split
    · simp only [bind_assoc]
    · rfl

theorem serve_eq_ok_iff : serve bandwidth r s = .ok r' ↔
    ∃ (service queueTime : Duration) (departure : Instant) (micros : ℤ),
      s.size.timeAt bandwidth = .ok service ∧ r.timeFor s service = .ok queueTime ∧
      (s.sendTime + queueTime : Checked Instant) = .ok departure ∧
      queueTime.toInt = .ok micros ∧
      r' = { departure := some departure, lastSend := some s.sendTime, queueTime,
             modeledReversed := micros.tdiv 1000 :: r.modeledReversed } := by
  rw [serve_eq]
  constructor
  · intro h
    obtain ⟨service, hservice, h⟩ := bind_eq_ok_iff.mp h
    obtain ⟨queueTime, hqueueTime, h⟩ := bind_eq_ok_iff.mp h
    obtain ⟨departure, hdeparture, h⟩ := bind_eq_ok_iff.mp h
    obtain ⟨micros, hmicros, h⟩ := bind_eq_ok_iff.mp h
    cases h
    exact ⟨service, queueTime, departure, micros, hservice, hqueueTime, hdeparture, hmicros, rfl⟩
  · rintro ⟨service, queueTime, departure, micros, hservice, hqueueTime, hdeparture, hmicros, rfl⟩
    exact bind_eq_ok_iff.mpr ⟨service, hservice, bind_eq_ok_iff.mpr ⟨queueTime, hqueueTime,
      bind_eq_ok_iff.mpr ⟨departure, hdeparture, bind_eq_ok_iff.mpr ⟨micros, hmicros, rfl⟩⟩⟩⟩

/-- When the link is free: always, if nothing has gone through it and nothing was in it. -/
def free (r : Replay) : ExtendedInt := r.departure.elim ⊥ Instant.value

/-- The time that a packet waits for a link to be free. -/
structure Waits (free send : ExtendedInt) (wait : ℤ) : Prop where
  ends : send + (wait : WithTop ℤ) = max send free
  nonneg : 0 ≤ wait
  idle : free ≤ send → wait = 0

theorem waits_idle {free send : ExtendedInt} (h : free ≤ send) : Waits free send 0 where
  ends := by rw [max_eq_left h]; exact add_zero send
  nonneg := Int.le_refl 0
  idle _ := rfl

theorem waits_sub {free send : ℤ} (h : send < free) :
    Waits (free : WithTop ℤ) (send : WithTop ℤ) (free - send) where
  ends := by
    norm_cast
    omega
  nonneg := by omega
  idle hle := by
    norm_cast at hle
    omega

theorem exists_wait {queueTime : Duration} (hqueueTime : queueTime.isFinite)
    (h : r.timeFor s service = .ok queueTime) : ∃ wait : ℤ, Waits r.free s.sendTime.value wait ∧
      service.isFinite ∧ ∀ n : ℤ, service.toInt = .ok n → queueTime.toInt = .ok (n + wait) := by
  unfold timeFor at h
  unfold free
  cases hdeparture : r.departure with
  | none =>
    rw [hdeparture] at h
    cases h
    exact ⟨0, waits_idle bot_le, hqueueTime, fun n hn ↦ by rwa [Int.add_zero]⟩
  | some departure =>
    rw [hdeparture] at h
    dsimp only at h
    split at h
    next hlate =>
      obtain ⟨rest, hrest, h⟩ := bind_eq_ok_iff.mp h
      obtain ⟨hservice, hfinite⟩ := Quantity.isFinite_of_add h hqueueTime
      obtain ⟨hdeparts, hsent⟩ := Quantity.isFinite_of_sub hrest hfinite
      obtain ⟨free, hfree⟩ := Quantity.exists_toInt_of_isFinite hdeparts
      obtain ⟨send, hsend⟩ := Quantity.exists_toInt_of_isFinite hsent
      have hwait := (Quantity.sub_eq_ok_iff hfree hsend).mp hrest
      refine ⟨free - send, ?_, hservice, fun n hn ↦ (Quantity.add_eq_ok_iff hn hwait).mp h⟩
      have hwaits := waits_sub ((Quantity.lt_iff_of_toInt hsend hfree).mp hlate)
      rwa [← Extended.value_of_toInt hfree, ← Extended.value_of_toInt hsend] at hwaits
    next hidle =>
      cases h
      refine ⟨0, waits_idle ?_, hqueueTime, fun n hn ↦ by rwa [Int.add_zero]⟩
      exact Instant.value_le_iff.mpr (Int.not_lt.mp hidle)

/-- What a packet finds on the link and leaves behind. -/
theorem serve_eq_ok (h : serve bandwidth r s = .ok r') : ∃ queueTime wait : ℤ,
    Waits r.free s.sendTime.value wait ∧ queueTime = s.size.serviceMicros bandwidth + wait ∧
    r'.queueTime.toInt = .ok queueTime ∧ r'.free = s.sendTime.value + (queueTime : WithTop ℤ) ∧
    r'.lastSend = some s.sendTime ∧ r'.modeled = r.modeled ++ [queueTime.tdiv 1000] := by
  obtain ⟨service, time, departure, micros, hservice, htime, hdeparture, hmicros, rfl⟩ :=
    serve_eq_ok_iff.mp h
  obtain ⟨wait, hwait, hknown, hsum⟩ := exists_wait (Quantity.isFinite_of_toInt hmicros) htime
  have hqueueTime := hsum _ (Quantity.toInt_of_timeAt hknown hservice)
  cases hmicros.symm.trans hqueueTime
  refine ⟨_, wait, hwait, rfl, hqueueTime, ?_, rfl, List.reverse_cons⟩
  rw [← Extended.value_of_toInt hqueueTime]
  exact Instant.value_add hdeparture

theorem Waits.free_eq {free send : ExtendedInt} {wait : ℤ} (h : Waits free send wait)
    (service : ℤ) : send + ((service + wait : ℤ) : WithTop ℤ) =
      max send free + (service : WithTop ℤ) := by
  rw [← h.ends, Int.add_comm, add_assoc]
  norm_cast

/-- The link takes a packet up when it is sent or when it is free, and is free again a service time
later. -/
theorem free_of_serve (h : serve bandwidth r s = .ok r') :
    r'.free = max s.sendTime.value r.free + (s.size.serviceMicros bandwidth : WithTop ℤ) := by
  obtain ⟨_, wait, hwait, rfl, -, hfree, -⟩ := serve_eq_ok h
  rw [hfree, hwait.free_eq]

/-! ### Packets in order -/

theorem run_concat_eq_ok_iff : run (samples ++ [s]) bandwidth seed = .ok r' ↔
    ∃ r, run samples bandwidth seed = .ok r ∧ serve bandwidth r s = .ok r' := by
  unfold run
  rw [List.foldlM_append, bind_eq_ok_iff]
  simp only [List.foldlM_cons, List.foldlM_nil, bind_pure]

theorem length_modeled (h : run samples bandwidth seed = .ok r) :
    r.modeled.length = samples.length := by
  induction samples using List.reverseRecOn generalizing r with
  | nil =>
    cases h
    rfl
  | append_singleton samples s ih =>
    obtain ⟨r₀, hbefore, hserve⟩ := run_concat_eq_ok_iff.mp h
    obtain ⟨_, _, -, -, -, -, -, hmodeled⟩ := serve_eq_ok hserve
    rw [hmodeled, List.length_append, List.length_append, ih hbefore]
    rfl

/-- What has been served first has been served in the same way in the end. -/
theorem exists_prefix {before after : List DelaySample}
    (h : run (before ++ after) bandwidth seed = .ok r) :
    ∃ r₀, run before bandwidth seed = .ok r₀ ∧ r₀.modeled <+: r.modeled ∧
      (after = [] → r₀ = r) := by
  induction after using List.reverseRecOn generalizing r with
  | nil => exact ⟨r, by rwa [List.append_nil] at h, List.prefix_refl _, fun _ ↦ rfl⟩
  | append_singleton after s ih =>
    rw [← List.append_assoc] at h
    obtain ⟨r₁, hbefore, hserve⟩ := run_concat_eq_ok_iff.mp h
    obtain ⟨r₀, hrun, hprefix, -⟩ := ih hbefore
    obtain ⟨_, _, -, -, -, -, -, hmodeled⟩ := serve_eq_ok hserve
    exact ⟨r₀, hrun, hmodeled ▸ hprefix.trans (List.prefix_append _ _), fun h ↦ absurd h (by simp)⟩

theorem lastSend_of_run (h : run samples bandwidth seed = .ok r) :
    r.lastSend = samples.getLast?.map DelaySample.sendTime := by
  induction samples using List.reverseRecOn generalizing r with
  | nil =>
    cases h
    rfl
  | append_singleton samples s ih =>
    obtain ⟨r₀, hbefore, hserve⟩ := run_concat_eq_ok_iff.mp h
    obtain ⟨_, _, -, -, -, -, hlastSend, -⟩ := serve_eq_ok hserve
    rw [hlastSend, List.getLast?_concat]
    rfl

/-! ### Busy links -/

/-- The time that packets take together. -/
def work (bandwidth : DataRate) (samples : List DelaySample) : ℤ :=
  (samples.map fun s ↦ s.size.serviceMicros bandwidth).sum

theorem work_concat (bandwidth : DataRate) (samples : List DelaySample) (s : DelaySample) :
    work bandwidth (samples ++ [s]) =
      work bandwidth samples + s.size.serviceMicros bandwidth := by
  rw [work, List.map_append, List.sum_append, List.map_singleton, List.sum_singleton, work]

/-- When a link would be free that had been busy with all packets since the seed, or with those from
packet `k` on since packet `k` was sent. -/
def busyEnds (bandwidth : DataRate) (seed : Option Instant) (samples : List DelaySample) :
    Set ExtendedInt :=
  {t | (∃ departure ∈ seed, t = departure.value + (work bandwidth samples : WithTop ℤ)) ∨
    ∃ k s, samples[k]? = some s ∧
      t = s.sendTime.value + (work bandwidth (samples.drop k) : WithTop ℤ)}

theorem add_work_concat (t : ExtendedInt) (bandwidth : DataRate) (samples : List DelaySample)
    (s : DelaySample) : t + (work bandwidth (samples ++ [s]) : WithTop ℤ) =
      t + (work bandwidth samples : WithTop ℤ) + (s.size.serviceMicros bandwidth : WithTop ℤ) := by
  rw [work_concat, add_assoc]
  norm_cast

/-- One more packet lengthens each of them, and adds the one in which it comes to a free link. -/
theorem mem_busyEnds_concat {t : ExtendedInt} : t ∈ busyEnds bandwidth seed (samples ++ [s]) ↔
    (∃ u ∈ busyEnds bandwidth seed samples,
      t = u + (s.size.serviceMicros bandwidth : WithTop ℤ)) ∨
    t = s.sendTime.value + (s.size.serviceMicros bandwidth : WithTop ℤ) := by
  have halone : work bandwidth ((samples ++ [s]).drop samples.length) =
      s.size.serviceMicros bandwidth := by
    rw [List.drop_left]
    exact List.sum_singleton
  constructor
  · rintro (⟨departure, hseed, rfl⟩ | ⟨k, s', hk, rfl⟩)
    · exact .inl ⟨_, .inl ⟨departure, hseed, rfl⟩, add_work_concat _ _ _ _⟩
    obtain hlt | hge := Nat.lt_or_ge k samples.length
    · rw [List.getElem?_append_left hlt] at hk
      rw [List.drop_append_of_le_length hlt.le, add_work_concat]
      exact .inl ⟨_, .inr ⟨k, s', hk, rfl⟩, rfl⟩
    · have hlast : k = samples.length := by
        have hlt := (List.getElem?_eq_some_iff.mp hk).1
        rw [List.length_append, List.length_singleton] at hlt
        omega
      subst hlast
      rw [List.getElem?_concat_length] at hk
      cases hk
      exact .inr (by rw [halone])
  · rintro (⟨u, ⟨departure, hseed, rfl⟩ | ⟨k, s', hk, rfl⟩, rfl⟩ | rfl)
    · exact .inl ⟨departure, hseed, (add_work_concat _ _ _ _).symm⟩
    · have hlt := (List.getElem?_eq_some_iff.mp hk).1
      refine .inr ⟨k, s', ?_, ?_⟩
      · rwa [List.getElem?_append_left hlt]
      · rw [List.drop_append_of_le_length hlt.le, add_work_concat]
    · exact .inr ⟨samples.length, s, List.getElem?_concat_length, by rw [halone]⟩

/-- The link is free at the greatest of them, unless there is none. -/
structure Frees (bandwidth : DataRate) (seed : Option Instant) (samples : List DelaySample)
    (r : Replay) : Prop where
  upper : ∀ t ∈ busyEnds bandwidth seed samples, t ≤ r.free
  mem : r.departure ≠ none → r.free ∈ busyEnds bandwidth seed samples

theorem frees_nil (bandwidth : DataRate) (seed : Option Instant) :
    Frees bandwidth seed [] { departure := seed } where
  upper := by
    rintro t (⟨departure, rfl, rfl⟩ | ⟨k, s, hk, -⟩)
    · exact (add_zero departure.value).le
    · cases hk
  mem h := by
    obtain ⟨departure, rfl⟩ := Option.ne_none_iff_exists'.mp h
    exact .inl ⟨departure, rfl, (add_zero departure.value).symm⟩

theorem Frees.serve (hr : Frees bandwidth seed samples r) (h : serve bandwidth r s = .ok r') :
    IsGreatest (busyEnds bandwidth seed (samples ++ [s])) r'.free := by
  rw [free_of_serve h]
  constructor
  · obtain hidle | hbusy := le_or_gt r.free s.sendTime.value
    · rw [max_eq_left hidle]
      exact mem_busyEnds_concat.mpr (.inr rfl)
    · rw [max_eq_right hbusy.le]
      refine mem_busyEnds_concat.mpr (.inl ⟨r.free, hr.mem fun hnone ↦ ?_, rfl⟩)
      rw [free, hnone] at hbusy
      exact not_lt_bot hbusy
  · intro t ht
    obtain ⟨u, hu, rfl⟩ | rfl := mem_busyEnds_concat.mp ht
    · exact add_le_add_left ((hr.upper u hu).trans (le_max_right _ _)) _
    · exact add_le_add_left (le_max_left _ _) _

theorem frees_of_run (h : run samples bandwidth seed = .ok r) : Frees bandwidth seed samples r := by
  induction samples using List.reverseRecOn generalizing r with
  | nil =>
    cases h
    exact frees_nil bandwidth seed
  | append_singleton samples s ih =>
    obtain ⟨r₀, hbefore, hserve⟩ := run_concat_eq_ok_iff.mp h
    obtain ⟨hmem, hupper⟩ := (ih hbefore).serve hserve
    exact ⟨fun t ht ↦ hupper ht, fun _ ↦ hmem⟩

/-- Each packet of a replay leaves a link that takes it up when it is sent or when the packet before
it has left, whichever is later, the seed being the first to leave. It leaves at the greatest of the
ends that the link would have if it had been busy without a break since the seed or since one of the
packets up to this one was sent. The time between its send and its departure is told in whole
milliseconds for each packet, and in full for the last one. -/
theorem run_serves_in_order (h : run samples bandwidth seed = .ok r) :
    run [] bandwidth seed = .ok { departure := seed } ∧
    (∀ before s after, samples = before ++ s :: after →
      ∃ (r₀ r₁ : Replay) (queueTime : ℤ), run before bandwidth seed = .ok r₀ ∧
        run (before ++ [s]) bandwidth seed = .ok r₁ ∧ r₁.queueTime.toInt = .ok queueTime ∧
        r₁.free = s.sendTime.value + (queueTime : WithTop ℤ) ∧
        r₁.free = max s.sendTime.value r₀.free + (s.size.serviceMicros bandwidth : WithTop ℤ) ∧
        IsGreatest (busyEnds bandwidth seed (before ++ [s])) r₁.free ∧
        r.modeled[before.length]? = some (queueTime.tdiv 1000) ∧ (after = [] → r₁ = r)) ∧
    r.modeled.length = samples.length ∧
    r.lastSend = samples.getLast?.map DelaySample.sendTime ∧
    (samples = [] → r.queueTime = 0) := by
  refine ⟨rfl, ?served, length_modeled h, lastSend_of_run h, ?none⟩
  case served =>
    rintro before s after rfl
    rw [← List.singleton_append, ← List.append_assoc] at h
    obtain ⟨r₁, hserved, hprefix, hlast⟩ := exists_prefix h
    obtain ⟨r₀, hbefore, hserve⟩ := run_concat_eq_ok_iff.mp hserved
    obtain ⟨queueTime, -, -, -, hqueueTime, hfree, -, hmodeled⟩ := serve_eq_ok hserve
    refine ⟨r₀, r₁, queueTime, hbefore, hserved, hqueueTime, hfree, free_of_serve hserve,
      (frees_of_run hbefore).serve hserve, ?_, hlast⟩
    obtain ⟨rest, hrest⟩ := hprefix
    rw [← hrest, hmodeled, ← length_modeled hbefore, List.append_assoc,
      List.getElem?_append_right (Nat.le_refl _), Nat.sub_self]
    rfl
  case none =>
    rintro rfl
    cases h
    rfl

/-- The second packet was sent before the first one, and the third one when both have left. -/
def twoBursts : List DelaySample :=
  [⟨1, 0, ⟨.exactly 49000⟩, 0, .exactly 1000⟩, ⟨1, 1, ⟨.exactly 40000⟩, 0, .exactly 1500⟩,
    ⟨1, 2, ⟨.exactly 100000⟩, 0, .exactly 1000⟩]

/-- At eight megabits per second and behind a queue of 50 milliseconds, the second packet spends 12.5
milliseconds, and the third one leaves a link that has been idle. -/
theorem run_serves_in_order_twoBursts : ∃ r : Replay,
    run twoBursts (.exactly 8000000) (some ⟨.exactly 50000⟩) = .ok r ∧
    r.modeled[1]? = some ((12500 : ℤ).tdiv 1000) ∧
    IsGreatest (busyEnds (.exactly 8000000) (some ⟨.exactly 50000⟩) twoBursts)
      ((101000 : ℤ) : WithTop ℤ) := by
  have hrun : run twoBursts (.exactly 8000000) (some ⟨.exactly 50000⟩) =
      .ok ⟨some ⟨.exactly 101000⟩, some ⟨.exactly 100000⟩, .exactly 1000, [1, 12, 2]⟩ := rfl
  obtain ⟨-, hserved, -⟩ := run_serves_in_order hrun
  obtain ⟨_, r₁, micros, -, hsecond, hmicros, -, -, -, hmodeled, -⟩ :=
    hserved (twoBursts.take 1) _ (twoBursts.drop 2) rfl
  obtain ⟨_, r₂, _, -, hthird, -, -, -, hgreatest, -, hlast⟩ :=
    hserved (twoBursts.take 2) _ [] rfl
  cases hsecond
  cases hmicros
  cases hlast rfl
  exact ⟨_, hrun, hmodeled, hgreatest⟩

end Replay

end Congestion
