import Congestion.Rejection

/-!
# Computations that may stop

How a `Checked` or an `Outcome` computation that runs over a list comes to an answer. A fold
answers when some invariant of the elements still to come and the state lets every step answer
(`foldlM_ok`). A map answers with the list of its answers (`mapM_eq_ok_map`), and a traversal when
every element answers (`forM_eq_ok_iff`). `Faultless` is an outcome that is at worst a rejection.
-/

set_option autoImplicit false
set_option relaxedAutoImplicit false

namespace Congestion

variable {ε α β γ δ : Type}

@[simp] theorem pure_eq_ok_iff {a b : α} : (pure a : Except ε α) = .ok b ↔ a = b :=
  ⟨fun h ↦ by cases h; rfl, fun h ↦ by rw [h]; rfl⟩

@[simp] theorem bind_eq_ok_iff {x : Except ε α} {f : α → Except ε β} {b : β} :
    x >>= f = .ok b ↔ ∃ a, x = .ok a ∧ f a = .ok b := by
  cases x with
  | ok a =>
    constructor
    · exact fun h ↦ ⟨a, rfl, h⟩
    · rintro ⟨_, ha, h⟩
      cases ha
      exact h
  | error e =>
    constructor
    · exact fun h ↦ by cases h
    · rintro ⟨_, ha, -⟩
      cases ha

theorem bind_eq_error_iff {x : Except ε α} {f : α → Except ε β} {e : ε} :
    x >>= f = .error e ↔ x = .error e ∨ ∃ a, x = .ok a ∧ f a = .error e := by
  cases x with
  | ok a =>
    constructor
    · exact fun h ↦ Or.inr ⟨a, rfl, h⟩
    · rintro (h | ⟨_, ha, h⟩)
      · cases h
      · cases ha
        exact h
  | error e' =>
    constructor
    · intro h
      cases h
      exact Or.inl rfl
    · rintro (h | ⟨_, ha, -⟩)
      · cases h
        rfl
      · cases ha

@[simp] theorem map_eq_ok_iff {x : Except ε α} {f : α → β} {b : β} :
    f <$> x = .ok b ↔ ∃ a, x = .ok a ∧ f a = b := by
  rw [map_eq_pure_bind, bind_eq_ok_iff]
  constructor
  · rintro ⟨a, ha, h⟩
    cases h
    exact ⟨a, ha, rfl⟩
  · rintro ⟨a, ha, rfl⟩
    exact ⟨a, ha, rfl⟩

theorem map_eq_error_iff {x : Except ε α} {f : α → β} {e : ε} :
    f <$> x = .error e ↔ x = .error e := by
  cases x with
  | ok a => constructor <;> (intro h; cases h)
  | error e' => constructor <;> (intro h; cases h; rfl)

/-- Two computations go on alike when all that the rest of them looks at is the same. -/
theorem bind_congr_of_map {x : Except ε α} {y : Except ε β} {p : α → γ} {q : β → γ}
    {f : α → Except ε δ} {g : β → Except ε δ} (h : p <$> x = q <$> y)
    (hrest : ∀ a b, p a = q b → f a = g b) : x >>= f = y >>= g := by
  cases x with
  | error e =>
    cases y with
    | error e' => cases h; rfl
    | ok b => cases h
  | ok a =>
    cases y with
    | error e' => cases h
    | ok b => exact hrest a b (Except.ok.inj h)

theorem isOk_iff {x : Except ε α} : x.isOk ↔ ∃ a, x = .ok a := by
  cases x <;> simp [Except.isOk, Except.toBool]

/-- A computation that has been carried out, with a test of its answer. -/
theorem exists_ok_of_any {x : Except ε α} (test : α → Bool) (h : x.toOption.any test = true) :
    ∃ a, x = .ok a ∧ test a = true := by
  cases x with
  | ok a => exact ⟨a, rfl, h⟩
  | error e => cases h

/-! ### Folds -/

/-- The invariant speaks of the elements still to come, so that a budget for them can be part of
it. -/
theorem foldlM_ok {f : β → α → Except ε β} (invariant : List α → β → Prop)
    (step : ∀ a rest b, invariant (a :: rest) b → ∃ b', f b a = .ok b' ∧ invariant rest b') :
    ∀ l b, invariant l b → ∃ b', l.foldlM f b = .ok b' ∧ invariant [] b' := by
  intro l
  induction l with
  | nil => exact fun b hb ↦ ⟨b, rfl, hb⟩
  | cons a rest ih =>
    intro b hb
    obtain ⟨b', hstep, hb'⟩ := step a rest b hb
    obtain ⟨b'', hrest, hb''⟩ := ih b' hb'
    rw [List.foldlM_cons, hstep]
    exact ⟨b'', hrest, hb''⟩

/-- What every step keeps holds of the answer of a fold. -/
theorem foldlM_keeps {f : β → α → Except ε β} (invariant : β → Prop) {l : List α}
    (step : ∀ a ∈ l, ∀ b b', invariant b → f b a = .ok b' → invariant b') {b b' : β}
    (hb : invariant b) (h : l.foldlM f b = .ok b') : invariant b' := by
  induction l generalizing b with
  | nil =>
    cases h
    exact hb
  | cons a rest ih =>
    rw [List.foldlM_cons] at h
    obtain ⟨b₁, hb₁, hrest⟩ := bind_eq_ok_iff.mp h
    exact ih (fun a ha ↦ step a (List.mem_cons_of_mem _ ha))
      (step a List.mem_cons_self b b₁ hb hb₁) hrest

/-- A fold that goes along with another one, step by step, answers where the other does. -/
theorem foldlM_simulates {f : β → α → Except ε β} {g : γ → α → Except ε γ} (related : β → γ → Prop)
    {l : List α} (step : ∀ a ∈ l, ∀ b c b', related b c → f b a = .ok b' →
      ∃ c', g c a = .ok c' ∧ related b' c') {b b' : β} {c : γ} (hbc : related b c)
    (h : l.foldlM f b = .ok b') : ∃ c', l.foldlM g c = .ok c' ∧ related b' c' := by
  induction l generalizing b c with
  | nil =>
    cases h
    exact ⟨c, rfl, hbc⟩
  | cons a rest ih =>
    rw [List.foldlM_cons] at h
    obtain ⟨b₁, hb₁, hrest⟩ := bind_eq_ok_iff.mp h
    obtain ⟨c₁, hc₁, hrelated⟩ := step a (by simp) b c b₁ hbc hb₁
    obtain ⟨c', hc', hrelated'⟩ := ih (fun a ha ↦ step a (by simp [ha])) hrelated hrest
    exact ⟨c', by rw [List.foldlM_cons, hc₁]; exact hc', hrelated'⟩

/-! ### Maps and traversals -/

theorem mapM_eq_ok_map {f : α → Except ε β} {g : α → β} :
    ∀ {l : List α}, (∀ a ∈ l, f a = .ok (g a)) → l.mapM f = .ok (l.map g) := by
  intro l
  induction l with
  | nil => exact fun _ ↦ rfl
  | cons a rest ih =>
    intro h
    rw [List.mapM_cons, h a (by simp), ih fun a' ha' ↦ h a' (by simp [ha'])]
    rfl

theorem exists_ok_of_mapM {f : α → Except ε β} :
    ∀ {l : List α} {ys : List β}, l.mapM f = .ok ys → ∀ a ∈ l, ∃ y, f a = .ok y := by
  intro l
  induction l with
  | nil => exact fun _ a ha ↦ by cases ha
  | cons a rest ih =>
    intro ys h a' ha'
    rw [List.mapM_cons, bind_eq_ok_iff] at h
    obtain ⟨y, hy, h⟩ := h
    obtain ⟨ys', hys', -⟩ := bind_eq_ok_iff.mp h
    rcases List.mem_cons.mp ha' with rfl | hmem
    · exact ⟨y, hy⟩
    · exact ih hys' a' hmem

theorem forM_eq_ok_iff {f : α → Except ε Unit} :
    ∀ {l : List α}, l.forM f = .ok () ↔ ∀ a ∈ l, f a = .ok () := by
  intro l
  induction l with
  | nil => simp [List.forM, pure, Except.pure]
  | cons a rest ih =>
    rw [List.forM, bind_eq_ok_iff, List.forall_mem_cons, ← ih]
    constructor
    · exact fun ⟨_, h, hrest⟩ ↦ ⟨h, hrest⟩
    · exact fun ⟨h, hrest⟩ ↦ ⟨(), h, hrest⟩

/-- A traversal stops at the first element that does not answer. -/
theorem forM_eq_error_iff {f : α → Except ε Unit} {l : List α} {e : ε} : l.forM f = .error e ↔
    ∃ before a after, l = before ++ a :: after ∧ (∀ b ∈ before, f b = .ok ()) ∧ f a = .error e := by
  induction l with
  | nil =>
    refine ⟨fun h ↦ (by cases h), ?_⟩
    rintro ⟨before, a, after, h, -⟩
    exact absurd h (by simp)
  | cons a rest ih =>
    rw [List.forM, bind_eq_error_iff, ih]
    constructor
    · rintro (ha | ⟨_, ha, before, b, after, rfl, hbefore, hb⟩)
      · exact ⟨[], a, rest, rfl, fun b hb ↦ (by cases hb), ha⟩
      · exact ⟨a :: before, b, after, rfl, List.forall_mem_cons.mpr ⟨ha, hbefore⟩, hb⟩
    · rintro ⟨before, b, after, hsplit, hbefore, hb⟩
      cases before with
      | nil =>
        obtain ⟨rfl, -⟩ := List.cons.inj hsplit
        exact Or.inl hb
      | cons c before =>
        obtain ⟨rfl, rfl⟩ := List.cons.inj hsplit
        obtain ⟨ha, hbefore⟩ := List.forall_mem_cons.mp hbefore
        exact Or.inr ⟨(), ha, before, b, after, rfl, hbefore, hb⟩

/-! ### Outcomes without a fault -/

/-- The outcome is an answer or a rejection. -/
def Faultless (x : Outcome α) : Prop := ∀ f, x ≠ .error (.fault f)

theorem faultless_ok (a : α) : Faultless (.ok a) := fun _ h ↦ by cases h

theorem faultless_rejected (r : Rejection) : Faultless (.error (.rejected r) : Outcome α) :=
  fun _ h ↦ by cases h

theorem Faultless.bind {x : Outcome α} {f : α → Outcome β} (hx : Faultless x)
    (hf : ∀ a, x = .ok a → Faultless (f a)) : Faultless (x >>= f) := by
  intro fault h
  cases x with
  | ok a => exact hf a rfl fault h
  | error e => exact hx fault (by cases h; rfl)

theorem faultless_forM {f : α → Outcome Unit} :
    ∀ {l : List α}, (∀ a ∈ l, Faultless (f a)) → Faultless (l.forM f) := by
  intro l
  induction l with
  | nil => exact fun _ ↦ faultless_ok ()
  | cons a rest ih =>
    intro h
    exact (h a (by simp)).bind fun _ _ ↦ ih fun a' ha' ↦ h a' (by simp [ha'])

theorem Faultless.settle_cases {x : Outcome α} (hx : Faultless x) :
    (∃ a, x = .ok a ∧ x.settle = .ok (.ok a)) ∨
      ∃ r, x = .error (.rejected r) ∧ x.settle = .ok (.error r) := by
  obtain (f | r) | a := x
  · exact absurd rfl (hx f)
  · exact .inr ⟨r, rfl, rfl⟩
  · exact .inl ⟨a, rfl, rfl⟩

theorem settle_eq_ok_ok_iff {x : Outcome α} {a : α} : x.settle = .ok (.ok a) ↔ x = .ok a := by
  obtain (f | r) | a' := x <;> simp [Outcome.settle]

theorem ofChecked_eq_ok_iff {x : Checked α} {a : α} : Outcome.ofChecked x = .ok a ↔ x = .ok a := by
  cases x with
  | ok a' => constructor <;> (intro h; cases h; rfl)
  | error f => constructor <;> (intro h; cases h)

/-- A settled outcome has met no fault on its way. -/
theorem settle_ofChecked_bind_eq_ok {x : Checked α} {f : α → Outcome β}
    {answer : Except Rejection β} (h : (Outcome.ofChecked x >>= f).settle = .ok answer) :
    ∃ a, x = .ok a ∧ (f a).settle = .ok answer := by
  cases x with
  | ok a => exact ⟨a, rfl, h⟩
  | error fault => cases h

theorem ofRejected_eq_ok_iff {x : Except Rejection α} {a : α} :
    Outcome.ofRejected x = .ok a ↔ x = .ok a := by
  cases x with
  | ok a' => constructor <;> (intro h; cases h; rfl)
  | error r => constructor <;> (intro h; cases h)

end Congestion
