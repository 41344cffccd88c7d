import CryptoLocker.Lib.Runs

/-!
# Conduits

A conduit is fed items, holds some of them and puts items out. A step passes
(`Conduit.Passes`) when it loses nothing and keeps the order: what was held,
then what came in, is what was put out, then what is held now. Steps that pass
compose (`Passes.trans`), and a machine whose steps all pass under an invariant
passes over every run (`Conduit.Steady.run`).
-/

namespace Lib

section
variable {σ ι ο ε : Type*}

/-- All a conduit has been fed, and what it may be holding. -/
structure Conduit (σ ο : Type*) where
  fed : σ → List ο
  Holds : σ → List ο → Prop

/-- From `s` to `s'` the conduit put out `out`, in order and without loss. -/
def Conduit.Passes (c : Conduit σ ο) (s : σ) (out : List ο) (s' : σ) : Prop :=
  ∀ l, c.Holds s l → ∃ new l', c.fed s' = c.fed s ++ new ∧ c.Holds s' l' ∧ l ++ new = out ++ l'

section
variable {c : Conduit σ ο} {s t u : σ} {o o' : List ο}

theorem Conduit.Passes.refl (s : σ) : c.Passes s [] s :=
  fun l hl => ⟨[], l, (List.append_nil _).symm, hl, List.append_nil _⟩

theorem Conduit.Passes.trans (h : c.Passes s o t) (h' : c.Passes t o' u) : c.Passes s (o ++ o') u := by
  intro l hl
  obtain ⟨new, l₁, hfed, hl₁, heq⟩ := h l hl
  obtain ⟨new', l₂, hfed', hl₂, heq'⟩ := h' l₁ hl₁
  refine ⟨new ++ new', l₂, by rw [hfed', hfed, List.append_assoc], hl₂, ?_⟩
  rw [← List.append_assoc, heq, List.append_assoc, heq', List.append_assoc]

/-- From an empty start, what came out and what is held is what went in. -/
theorem Conduit.Passes.of_empty (h : c.Passes s o t) (hs : c.Holds s []) (hfed : c.fed s = []) :
    ∃ l, c.Holds t l ∧ o ++ l = c.fed t := by
  obtain ⟨new, l, hnew, hl, heq⟩ := h [] hs
  refine ⟨l, hl, ?_⟩
  rw [hnew, hfed]
  exact heq.symm

end

/-! ## Runs -/

/-- One step for each input, with all they put out. -/
def runOut (step : σ → ι → Except ε (List ο × σ)) : σ → List ι → Except ε (List ο × σ)
  | s, [] => .ok ([], s)
  | s, i :: is =>
    match step s i with
    | .error e => .error e
    | .ok (o, s') =>
      match runOut step s' is with
      | .error e => .error e
      | .ok (os, t) => .ok (o ++ os, t)

/-- Under the invariant `Inv` no step fails, and each passes. -/
structure Conduit.Steady (c : Conduit σ ο) (step : σ → ι → Except ε (List ο × σ)) (Inv : σ → Prop) :
    Prop where
  step : ∀ s i, Inv s → ∃ o s', step s i = .ok (o, s') ∧ Inv s' ∧ c.Passes s o s'

/-- **Conservation rule.** -/
theorem Conduit.Steady.run {c : Conduit σ ο} {step : σ → ι → Except ε (List ο × σ)} {Inv : σ → Prop}
    (h : c.Steady step Inv) {s : σ} (hs : Inv s) (is : List ι) :
    ∃ out t, runOut step s is = .ok (out, t) ∧ Inv t ∧ c.Passes s out t := by
  induction is generalizing s with
  | nil => exact ⟨[], s, rfl, hs, .refl s⟩
  | cons i is ih =>
    obtain ⟨o, s', hi, hs', hp⟩ := h.step s i hs
    obtain ⟨os, t, hrun, ht, hp'⟩ := ih hs'
    refine ⟨o ++ os, t, ?_, ht, hp.trans hp'⟩
    simp only [runOut, hi, hrun]

end

end Lib
