import Mathlib.Data.List.Basic

/-!
# Registers

A register is a part of a machine's state that every step writes or leaves
alone, and what is written depends on the input only. After a run it holds
what the last write wrote, or what it held at the start (`Register.read_run`).
-/

namespace Lib

section
variable {σ ι α : Type*}

/-- What a register reads in a state, and what an input writes to it, if anything. -/
structure Register (σ ι α : Type*) where
  read : σ → α
  write : ι → Option α

/-- The steps write the register as it says. -/
def Register.Of (r : Register σ ι α) (step : σ → ι → σ) : Prop :=
  ∀ s i, r.read (step s i) = (r.write i).getD (r.read s)

/-- No input writes the register. -/
def Register.Unwritten (r : Register σ ι α) (is : List ι) : Prop := ∀ i ∈ is, r.write i = none

/-- The last input to write the register writes `a`. -/
def Register.Wrote (r : Register σ ι α) (a : α) (is : List ι) : Prop :=
  ∃ pre i post, is = pre ++ i :: post ∧ r.write i = some a ∧ r.Unwritten post

variable {r : Register σ ι α} {step : σ → ι → σ} {s : σ} {a : α} {i : ι} {is : List ι}

theorem Register.unwritten_cons : r.Unwritten (i :: is) ↔ r.write i = none ∧ r.Unwritten is :=
  List.forall_mem_cons

/-- A write is the last one when none follows, and stays behind those that follow. -/
theorem Register.wrote_cons :
    r.Wrote a (i :: is) ↔ r.Wrote a is ∨ (r.write i = some a ∧ r.Unwritten is) := by
  constructor
  · rintro ⟨pre, j, post, heq, hj, hpost⟩
    cases pre with
    | nil =>
      obtain ⟨rfl, rfl⟩ := List.cons.inj heq
      exact .inr ⟨hj, hpost⟩
    | cons x pre =>
      obtain ⟨rfl, rfl⟩ := List.cons.inj heq
      exact .inl ⟨pre, j, post, rfl, hj, hpost⟩
  · rintro (⟨pre, j, post, rfl, hj, hpost⟩ | ⟨hi, his⟩)
    · exact ⟨i :: pre, j, post, rfl, hj, hpost⟩
    · exact ⟨[], i, is, rfl, hi, his⟩

/-- **Register rule.** -/
theorem Register.Of.read_run (h : r.Of step) (s : σ) (is : List ι) :
    r.read (is.foldl step s) = a ↔ r.Wrote a is ∨ (r.Unwritten is ∧ r.read s = a) := by
  induction is generalizing s with
  | nil =>
    refine ⟨fun hs => .inr ⟨nofun, hs⟩, ?_⟩
    rintro (⟨pre, j, post, heq, -⟩ | ⟨-, hs⟩)
    · cases pre <;> cases heq
    · exact hs
  | cons i is ih =>
    rw [List.foldl_cons, ih, h, Register.wrote_cons, Register.unwritten_cons]
    cases r.write i with
    | none => simp
    | some b => simp [and_comm]

end

end Lib
