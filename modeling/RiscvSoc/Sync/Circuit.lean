import RiscvSoc.Sync.Cycles

/-!
# Sync — Circuit

Clocked designs with one clock and a synchronous reset. `reset` is the
register contents an `always @ (posedge clk)` block loads while its
reset input is low, `next` what it loads otherwise. A run feeds one
input value per cycle; the state in cycle `n` has seen the inputs of
the cycles before `n`.
-/

namespace RiscvSoc.Sync

/-- A clocked design with inputs `ι` and registers `σ`. -/
structure Circuit (ι σ : Type _) where
  reset : σ
  next : σ → ι → σ

namespace Circuit

variable {ι σ : Type _} (c : Circuit ι σ)

/-- One clock edge, with the reset input. -/
def clock (rstn : Bool) (s : σ) (i : ι) : σ :=
  if !rstn then c.reset else c.next s i

/-- The registers in cycle `n` of the run from reset. -/
def stateAt (ins : Nat → ι) : Nat → σ
  | 0 => c.reset
  | n + 1 => c.next (stateAt ins n) (ins n)

@[simp] theorem stateAt_zero (ins : Nat → ι) : c.stateAt ins 0 = c.reset := rfl

theorem stateAt_succ (ins : Nat → ι) (n : Nat) :
    c.stateAt ins (n + 1) = c.next (c.stateAt ins n) (ins n) := rfl

/-- The registers in cycle `n` of a run from any contents, with the reset
input. -/
def runFrom (s : σ) (rstn : Nat → Bool) (ins : Nat → ι) : Nat → σ
  | 0 => s
  | n + 1 => c.clock (rstn n) (runFrom s rstn ins n) (ins n)

theorem runFrom_succ_of_run {s : σ} {rstn : Nat → Bool} {ins : Nat → ι} {n : Nat}
    (h : rstn n = true) :
    c.runFrom s rstn ins (n + 1) = c.next (c.runFrom s rstn ins n) (ins n) := by
  simp [runFrom, clock, h]

/-- A run is the run up to some cycle and the run from there on. -/
theorem stateAt_add (ins : Nat → ι) (m n : Nat) :
    c.stateAt ins (m + n)
      = c.runFrom (c.stateAt ins m) (fun _ => true) (fun k => ins (m + k)) n := by
  induction n with
  | zero => rfl
  | succ n ih => rw [← Nat.add_assoc, stateAt_succ, ih, runFrom_succ_of_run c rfl]

/-- **The run rule**: what holds at reset and is kept by every clock
edge of the run holds in every cycle. The invariant may speak about the
cycle number and, through it, about the past inputs. -/
theorem stateAt_invariant {ins : Nat → ι} {I : Nat → σ → Prop}
    (h0 : I 0 c.reset)
    (hs : ∀ n s, I n s → I (n + 1) (c.next s (ins n))) :
    ∀ n, I n (c.stateAt ins n) := by
  intro n
  induction n with
  | zero => exact h0
  | succ n ih => exact hs n _ ih

/-- Inputs that the design does not tell apart lead to the same run. -/
theorem stateAt_congr {ins ins' : Nat → ι} (h : ∀ n s, c.next s (ins n) = c.next s (ins' n))
    (n : Nat) : c.stateAt ins n = c.stateAt ins' n := by
  induction n with
  | zero => rfl
  | succ n ih => rw [stateAt_succ, stateAt_succ, ih, h]

/-- **A component runs as it does alone**: if `f` picks the registers of
`d` out of those of `c`, and `g` is what `c` feeds `d`, then within `c`
the component goes through the states of its own run on these inputs. -/
theorem stateAt_component {κ τ : Type _} {d : Circuit κ τ} {f : σ → τ}
    {g : σ → ι → κ} (h0 : f c.reset = d.reset)
    (hs : ∀ s i, f (c.next s i) = d.next (f s) (g s i)) (ins : Nat → ι) (n : Nat) :
    f (c.stateAt ins n) = d.stateAt (fun k => g (c.stateAt ins k) (ins k)) n := by
  induction n with
  | zero => exact h0
  | succ n ih => rw [stateAt_succ, hs, ih, stateAt_succ]

end Circuit

end RiscvSoc.Sync
