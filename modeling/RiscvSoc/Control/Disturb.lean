import Mathlib.Data.Nat.Init

/-!
# Control — Disturb

Runs that are disturbed. A system takes its steps, and before, between
and behind them anything out of a family of disturbances may happen, in
any order and any number of times. A relation to another system that
every step keeps and that the disturbances do not touch holds throughout:
the disturbed run is the run of the other system, step by step.
-/

namespace RiscvSoc.Control

variable {σ τ ι : Type _}

/-- The first `n` steps. -/
def steps (step : σ → Option σ) : Nat → σ → Option σ
  | 0, s => some s
  | n + 1, s => (step s).bind (steps step n)

/-- A run by a schedule: a step for `none`, the disturbance `i` for `some i`. -/
def disturbed (step : σ → Option σ) (disturb : ι → σ → σ) : List (Option ι) → σ → Option σ
  | [], s => some s
  | none :: es, s => (step s).bind (disturbed step disturb es)
  | some i :: es, s => disturbed step disturb es (disturb i s)

theorem steps_succ_of_step {step : σ → Option σ} {s s' : σ} (h : step s = some s') (n : Nat) :
    steps step (n + 1) s = steps step n s' := by
  rw [steps, h, Option.bind_some]

theorem rel_bind {α β γ δ : Type _} {R : α → β → Prop} {S : γ → δ → Prop} {x : Option α}
    {y : Option β} {f : α → Option γ} {g : β → Option δ} (h : Option.Rel R x y)
    (hfg : ∀ a b, y = some b → R a b → Option.Rel S (f a) (g b)) :
    Option.Rel S (x.bind f) (y.bind g) := by
  cases h with
  | none => exact .none
  | some hab => exact hfg _ _ rfl hab

/-- **The run rule**: a relation that each step keeps and no disturbance
touches, at least where the steps alone lead, relates the disturbed run to
the steps alone. -/
theorem disturbed_rel {step : σ → Option σ} {disturb : ι → σ → σ} {step' : τ → Option τ}
    {R : σ → τ → Prop} {Good : τ → Prop}
    (hstep : ∀ s t, Good t → R s t → Option.Rel R (step s) (step' t))
    (hdisturb : ∀ i s t, Good t → R s t → R (disturb i s) t) (es : List (Option ι)) {s : σ}
    {t : τ} (hgood : ∀ n t', steps step' n t = some t' → Good t') (h : R s t) :
    Option.Rel R (disturbed step disturb es s) (steps step' (es.countP Option.isNone) t) := by
  have hhere : Good t := hgood 0 t rfl
  induction es generalizing s t with
  | nil => exact .some h
  | cons e es ih =>
      cases e with
      | some i => exact ih hgood (hdisturb i s t hhere h) hhere
      | none =>
          rw [List.countP_cons_of_pos rfl, disturbed, steps]
          refine rel_bind (hstep s t hhere h) fun s' t' ht hnext => ?_
          have hgood' : ∀ n u, steps step' n t' = some u → Good u := fun n u hu =>
            hgood (n + 1) u ((steps_succ_of_step ht n).trans hu)
          exact ih hgood' hnext (hgood' 0 t' rfl)

end RiscvSoc.Control
