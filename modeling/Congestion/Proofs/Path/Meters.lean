import Congestion.Proofs.Checked

/-!
# Meters

A `Meter` is whatever is updated with each report and reset when a session starts anew. `Meter.run`
is any sequence of updates and resets, and tells the updates since the last reset, each with its
answer. What holds of a meter without a past, and is kept by each update as the past grows, holds
after every run (`run_keeps`).
-/

set_option autoImplicit false
set_option relaxedAutoImplicit false

namespace Congestion

structure Meter (σ α β : Type) where
  update : σ → α → Checked (β × σ)
  reset : σ → σ

namespace Meter

inductive Command (α : Type)
  | update (input : α)
  | reset

/-- An update with its answer. -/
structure Reading (α β : Type) where
  input : α
  answer : β

variable {σ α β : Type} (m : Meter σ α β)

/-- A reset forgets the readings. -/
def step : List (Reading α β) × σ → Command α → Checked (List (Reading α β) × σ)
  | (past, s), .update input =>
    (fun (answer, s) ↦ (past ++ [⟨input, answer⟩], s)) <$> m.update s input
  | (_, s), .reset => .ok ([], m.reset s)

def run (s : σ) (commands : List (Command α)) : Checked (List (Reading α β) × σ) :=
  commands.foldlM m.step ([], s)

variable {m}

theorem run_keeps (invariant : List (Reading α β) → σ → Prop)
    (hreset : ∀ past s, invariant past s → invariant [] (m.reset s))
    (hupdate : ∀ past s input answer s', invariant past s → m.update s input = .ok (answer, s') →
      invariant (past ++ [⟨input, answer⟩]) s')
    {s s' : σ} {commands : List (Command α)} {past : List (Reading α β)} (hs : invariant [] s)
    (h : m.run s commands = .ok (past, s')) : invariant past s' := by
  refine foldlM_keeps (fun b ↦ invariant b.1 b.2) ?_ hs h
  rintro command - ⟨past, s⟩ b hb hstep
  cases command with
  | update input =>
    obtain ⟨⟨answer, s'⟩, hanswer, rfl⟩ := map_eq_ok_iff.mp hstep
    exact hupdate past s input answer s' hb hanswer
  | reset =>
    cases hstep
    exact hreset past s hb

end Meter

end Congestion
