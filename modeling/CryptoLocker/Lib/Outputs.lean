import CryptoLocker.Lib.Conduit

/-!
# Machines with outputs

A step takes an input to an output and a next state. A simulation relates the
states of two machines so that their steps agree on the outputs
(`Simulates`); then their runs do, and end in related states
(`Simulates.outputs_eq`, `Simulates.final`). What the steps of a conduit put
out is what its run does (`runOut_outputs`).
-/

namespace Lib

section
variable {σ τ ι ο : Type*}

/-- What the steps put out, in order. -/
def outputs (step : σ → ι → ο × σ) : σ → List ι → List ο
  | _, [] => []
  | s, i :: is => (step s i).1 :: outputs step (step s i).2 is

/-- The state behind all steps. -/
def final (step : σ → ι → ο × σ) (s : σ) (is : List ι) : σ := is.foldl (fun s i => (step s i).2) s

/-- Steps from related states put out the same, and leave related states. -/
def Simulates (R : σ → τ → Prop) (step : σ → ι → ο × σ) (step' : τ → ι → ο × τ) : Prop :=
  ∀ s t i, R s t → (step s i).1 = (step' t i).1 ∧ R (step s i).2 (step' t i).2

theorem final_append (step : σ → ι → ο × σ) (s : σ) (is js : List ι) :
    final step s (is ++ js) = final step (final step s is) js := List.foldl_append

/-- **Invariant rule**, for the inputs of one run. -/
theorem final_inv {step : σ → ι → ο × σ} (Inv : σ → Prop) {s : σ} {is : List ι}
    (hstep : ∀ s, ∀ i ∈ is, Inv s → Inv (step s i).2) (hs : Inv s) : Inv (final step s is) := by
  induction is generalizing s with
  | nil => exact hs
  | cons i is ih =>
    exact ih (fun s j hj => hstep s j (List.mem_cons_of_mem i hj)) (hstep s i List.mem_cons_self hs)

/-- A run none of whose steps fails. -/
theorem runOut_outputs {ε κ : Type*} (step : σ → ι → ο × σ) (f : ο → List κ) (s : σ) (is : List ι) :
    runOut (fun s i => (.ok (f (step s i).1, (step s i).2) : Except ε _)) s is =
      .ok ((outputs step s is).flatMap f, final step s is) := by
  induction is generalizing s with
  | nil => rfl
  | cons i is ih =>
    unfold runOut
    dsimp only
    rw [ih]
    rfl

variable {R : σ → τ → Prop} {step : σ → ι → ο × σ} {step' : τ → ι → ο × τ} {s : σ} {t : τ}

/-- **Simulation rule.** -/
theorem Simulates.outputs_eq (h : Simulates R step step') (hst : R s t) (is : List ι) :
    outputs step s is = outputs step' t is := by
  induction is generalizing s t with
  | nil => rfl
  | cons i is ih =>
    obtain ⟨hout, hnext⟩ := h s t i hst
    exact List.cons_eq_cons.mpr ⟨hout, ih hnext⟩

theorem Simulates.final (h : Simulates R step step') (hst : R s t) (is : List ι) :
    R (final step s is) (final step' t is) := by
  induction is generalizing s t with
  | nil => exact hst
  | cons i is ih => exact ih (h s t i hst).2

end

end Lib
