import Mathlib.Data.Nat.Init

/-!
# Control — While

Loops. `while` with a step budget, so that a loop that does not end has
no result, and the rule for total correctness: an invariant that each
round keeps, and a measure that each round lowers.
-/

namespace RiscvSoc.Control

variable {σ : Type _}

/-- `while (cond) body`, in at most `fuel` tests of the condition. -/
def whileLoop (cond : σ → Bool) (body : σ → σ) : Nat → σ → Option σ
  | 0, _ => none
  | fuel + 1, s => if cond s then whileLoop cond body fuel (body s) else some s

/-- The loop ends in `s'`, with every budget that is large enough. -/
def Ends (run : Nat → Option σ) (s' : σ) : Prop :=
  ∃ fuel, ∀ f, fuel ≤ f → run f = some s'

/-- Two loops in a row. -/
theorem Ends.bind {τ : Type _} {run : Nat → Option σ} {next : σ → Nat → Option τ} {s' : σ}
    {t' : τ} (hs : Ends run s') (ht : Ends (next s') t') :
    Ends (fun f => (run f).bind fun s => next s f) t' := by
  obtain ⟨m, hm⟩ := hs
  obtain ⟨n, hn⟩ := ht
  refine ⟨max m n, fun f hf => ?_⟩
  show (run f).bind _ = _
  rw [hm f (by omega), Option.bind_some]
  exact hn f (by omega)

/-- **The loop rule**: an invariant that each round keeps while it lowers a
measure holds where the loop ends, and it ends. -/
theorem whileLoop_total (cond : σ → Bool) (body : σ → σ) (I : σ → Prop) (measure : σ → Nat)
    (hs : ∀ s, I s → cond s = true → I (body s) ∧ measure (body s) < measure s) {s : σ}
    (h0 : I s) :
    ∃ s', Ends (fun f => whileLoop cond body f s) s' ∧ I s' ∧ cond s' = false := by
  induction hm : measure s using Nat.strong_induction_on generalizing s with
  | _ m ih =>
      cases hc : cond s with
      | false =>
          refine ⟨s, ⟨1, fun f hf => ?_⟩, h0, hc⟩
          obtain ⟨n, rfl⟩ : ∃ n, f = n + 1 := ⟨f - 1, by omega⟩
          show whileLoop cond body (n + 1) s = some s
          rw [whileLoop, hc, if_neg Bool.false_ne_true]
      | true =>
          obtain ⟨hkeep, hless⟩ := hs s h0 hc
          obtain ⟨s', ⟨fuel, hfuel⟩, hinv, hend⟩ := ih _ (hm ▸ hless) hkeep rfl
          refine ⟨s', ⟨fuel + 1, fun f hf => ?_⟩, hinv, hend⟩
          obtain ⟨n, rfl⟩ : ∃ n, f = n + 1 := ⟨f - 1, by omega⟩
          show whileLoop cond body (n + 1) s = some s'
          rw [whileLoop, hc, if_pos rfl]
          exact hfuel n (by omega)

end RiscvSoc.Control
