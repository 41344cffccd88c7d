import Mathlib.Data.List.Basic
import Mathlib.Algebra.Order.Group.Nat

/-!
# Chunks

A buffer of `n` items is put out when it is full and one more comes, and at
the end. What is put out are the `chunks` of what came: all of it in order,
all but the last of `n` items (`chunksFrom_spec`), and one alone exactly when
everything fits (`chunks_eq_singleton`).
-/

namespace Lib

section
variable {α : Type*} {n : Nat}

/-- What a buffer that holds `held` puts out for the items and at the end. -/
def chunksFrom (n : Nat) : List α → List α → List (List α)
  | held, [] => [held]
  | held, a :: l => if held.length = n then held :: chunksFrom n [a] l else chunksFrom n (held ++ [a]) l

def chunks (n : Nat) (l : List α) : List (List α) := chunksFrom n [] l

/-- Pieces of `n` items, and a last one that is not longer, nor empty where it need not be. -/
structure Cut (n : Nat) (l : List α) (pieces : List (List α)) : Prop where
  flatten : pieces.flatten = l
  full : ∀ p ∈ pieces.dropLast, p.length = n
  short : ∀ p ∈ pieces, p.length ≤ n
  some : pieces ≠ []

theorem chunksFrom_spec (hn : 0 < n) (held l : List α) (h : held.length ≤ n) :
    Cut n (held ++ l) (chunksFrom n held l) := by
  induction l generalizing held with
  | nil =>
    unfold chunksFrom
    refine ⟨by simp, nofun, fun p hp => ?_, List.cons_ne_nil held []⟩
    obtain rfl := List.mem_singleton.mp hp
    exact h
  | cons a l ih =>
    unfold chunksFrom
    by_cases hfull : held.length = n
    · rw [if_pos hfull]
      obtain ⟨hflat, hall, hshort, hsome⟩ := ih [a] hn
      refine ⟨?_, ?_, ?_, List.cons_ne_nil held _⟩
      · rw [List.flatten_cons, hflat, List.singleton_append]
      · rw [List.dropLast_cons_of_ne_nil hsome]
        exact List.forall_mem_cons.mpr ⟨hfull, hall⟩
      · exact List.forall_mem_cons.mpr ⟨h, hshort⟩
    · rw [if_neg hfull]
      have hspec := ih (held ++ [a]) (by rw [List.length_append, List.length_singleton]; omega)
      rwa [List.append_assoc, List.singleton_append] at hspec

theorem chunks_spec (hn : 0 < n) (l : List α) : Cut n l (chunks n l) :=
  chunksFrom_spec hn [] l (Nat.zero_le n)

/-- What fits is one chunk. -/
theorem chunksFrom_of_le (held l : List α) (h : held.length + l.length ≤ n) :
    chunksFrom n held l = [held ++ l] := by
  induction l generalizing held with
  | nil => rw [List.append_nil]; rfl
  | cons a l ih =>
    rw [List.length_cons] at h
    rw [chunksFrom, if_neg (by omega), ih _ (by rw [List.length_append, List.length_singleton]; omega),
      List.append_assoc, List.singleton_append]

theorem chunks_eq_singleton (hn : 0 < n) (l : List α) : chunks n l = [l] ↔ l.length ≤ n := by
  constructor
  · intro h
    exact (chunks_spec hn l).short l (h ▸ List.mem_singleton_self l)
  · intro h
    exact chunksFrom_of_le [] l (by rw [List.length_nil]; omega)

/-- Lists go through whole when each of them fits. -/
theorem flatMap_chunks_iff (hn : 0 < n) (ls : List (List α)) :
    ls.flatMap (chunks n) = ls ↔ ∀ l ∈ ls, l.length ≤ n := by
  constructor
  · intro h l hl
    rw [← h] at hl
    obtain ⟨l', -, hmem⟩ := List.mem_flatMap.mp hl
    exact (chunks_spec hn l').short l hmem
  · intro h
    induction ls with
    | nil => rfl
    | cons l ls ih =>
      obtain ⟨hl, hls⟩ := List.forall_mem_cons.mp h
      rw [List.flatMap_cons, (chunks_eq_singleton hn l).mpr hl, ih hls, List.singleton_append]

theorem flatten_flatMap_chunks (hn : 0 < n) (ls : List (List α)) :
    (ls.flatMap (chunks n)).flatten = ls.flatten := by
  induction ls with
  | nil => rfl
  | cons l ls ih =>
    rw [List.flatMap_cons, List.flatten_append, (chunks_spec hn l).flatten, ih, List.flatten_cons]

end

end Lib
