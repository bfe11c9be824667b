import Mathlib.Order.WellFounded
import FFoveated.Queue

/-!
# Interleavings of threads

A system of threads is a state and a partial function `next` that lets one named worker take
one step; `none` means that worker is blocked or has returned. Any interleaving is allowed.

## Main definitions

- `Reachable` — the states some interleaving leads to.
- `schedule` — the state a given interleaving leads to, if each step is enabled.
- `Inevitably` — every interleaving reaches a state with a given property.

## Main results

- `Reachable.inv` — an invariant kept by every step holds in every reachable state.
- `inevitably_of_rank` — a ranking lowered by every step, and progress outside the goal, make
  the goal inevitable.
- `Inevitably.mono_reachable` — what holds of reachable states at the goal holds where every
  interleaving ends.
- `Inevitably.exists_reachable` — an inevitable goal is met in some reachable state.
-/

namespace FFoveated

variable {S W : Type} (next : S → W → Option S)

/-- `Reachable next s₀ s`: some interleaving of the workers' steps leads from `s₀` to `s`. -/
inductive Reachable (s₀ : S) : S → Prop
  | init : Reachable s₀ s₀
  | step {s s' : S} (w : W) : Reachable s₀ s → next s w = some s' → Reachable s₀ s'

/-- The state reached from `s` when the workers `ws` step in turn; `none` as soon as one of
them cannot. -/
def schedule (s : S) : List W → Option S
  | [] => some s
  | w :: ws => (next s w).bind fun s' => schedule s' ws

/-- Every interleaving from `s` reaches a state where `P` holds: `P` holds now, or some worker
can step and every step leads to such a state. -/
inductive Inevitably (P : S → Prop) : S → Prop
  | done {s : S} : P s → Inevitably P s
  | later {s : S} : (∃ w s', next s w = some s') →
      (∀ w s', next s w = some s' → Inevitably P s') → Inevitably P s

variable {next} {s₀ : S}

theorem Reachable.inv {Inv : S → Prop} (h₀ : Inv s₀)
    (hstep : ∀ s w s', Inv s → next s w = some s' → Inv s') {s : S}
    (h : Reachable next s₀ s) : Inv s := by
  induction h with
  | init => exact h₀
  | step w _ hs ih => exact hstep _ w _ ih hs

theorem Reachable.trans {s s' : S} (h : Reachable next s₀ s) (h' : Reachable next s s') :
    Reachable next s₀ s' := by
  induction h' with
  | init => exact h
  | step w _ hs ih => exact .step w ih hs

theorem Reachable.of_schedule {s s' : S} {ws : List W} (h : Reachable next s₀ s)
    (hs : schedule next s ws = some s') : Reachable next s₀ s' := by
  induction ws generalizing s with
  | nil => cases hs; exact h
  | cons w ws ih =>
    simp only [schedule, Option.bind_eq_some] at hs
    obtain ⟨s₁, h₁, hs⟩ := hs
    exact ih (.step w h h₁) hs

/-- A property of the state an interleaving leads to holds of a reachable state. -/
theorem Reachable.exists_of_schedule {P : S → Bool} (ws : List W)
    (h : (schedule next s₀ ws).any P = true) : ∃ s, Reachable next s₀ s ∧ P s = true := by
  cases hs : schedule next s₀ ws with
  | none => rw [hs] at h; cases h
  | some s => rw [hs] at h; exact ⟨s, Reachable.init.of_schedule hs, h⟩

/-- What every interleaving reaches can be read with what is known of reachable states. -/
theorem Inevitably.mono_reachable {P Q : S → Prop} (h : Inevitably next P s₀)
    (hpq : ∀ s, Reachable next s₀ s → P s → Q s) : Inevitably next Q s₀ := by
  induction h with
  | done hp => exact .done (hpq _ .init hp)
  | later hm _ ih =>
    exact .later hm fun w s' hs => ih w s' hs fun s'' h' =>
      hpq s'' ((Reachable.init.step w hs).trans h')

/-- A goal every interleaving reaches is met in some reachable state. -/
theorem Inevitably.exists_reachable {P : S → Prop} (h : Inevitably next P s₀) :
    ∃ s, Reachable next s₀ s ∧ P s := by
  induction h with
  | done hp => exact ⟨_, .init, hp⟩
  | later hm _ ih =>
    obtain ⟨w, s', hs⟩ := hm
    obtain ⟨s'', h', hp⟩ := ih w s' hs
    exact ⟨s'', (Reachable.init.step w hs).trans h', hp⟩

/-- Termination with a goal: if `Inv` is kept by every step, every step lowers `rank` in a
well-founded order, and every state of `Inv` either meets `P` or lets some worker step, then
every interleaving from a state of `Inv` reaches `P`. -/
theorem inevitably_of_rank {α : Type} {r : α → α → Prop} (hwf : WellFounded r) (rank : S → α)
    {Inv P : S → Prop} (hinv : ∀ s w s', Inv s → next s w = some s' → Inv s')
    (hdec : ∀ s w s', Inv s → next s w = some s' → r (rank s') (rank s))
    (hprog : ∀ s, Inv s → P s ∨ ∃ w s', next s w = some s') {s : S} (hs : Inv s) :
    Inevitably next P s := by
  induction s using (InvImage.wf rank hwf).induction with
  | _ s ih =>
    rcases hprog s hs with hp | hm
    · exact .done hp
    · exact .later hm fun w s' h => ih s' (hdec s w s' hs h) (hinv s w s' hs h)

end FFoveated
