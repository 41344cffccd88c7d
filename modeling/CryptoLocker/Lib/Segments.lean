import Mathlib.Data.List.Induction

/-!
# Segments of a stream

A closed segment is a block without ending elements and the ending element
behind it. Every list is closed segments and an open rest in exactly one way,
which `splitOnP` computes (`exists_segments`, `splitOnP_segments`).
-/

namespace Lib

variable {α : Type*} (p : α → Bool)

/-- No element ends a segment. -/
def Open (l : List α) : Prop := ∀ a ∈ l, p a = false

instance (l : List α) : Decidable (Open p l) := inferInstanceAs (Decidable (∀ a ∈ l, p a = false))

/-- Only the last element ends a segment. -/
def Closed (l : List α) : Prop := ∃ body e, l = body ++ [e] ∧ Open p body ∧ p e = true

variable {p} {l rest : List α} {segs : List (List α)} {a : α}

theorem open_nil : Open p [] := fun _ h => absurd h List.not_mem_nil

theorem Open.snoc (h : Open p l) (ha : p a = false) : Open p (l ++ [a]) := by
  intro b hb
  rcases List.mem_append.mp hb with hb | hb
  · exact h b hb
  · exact List.mem_singleton.mp hb ▸ ha

theorem Open.closed (h : Open p l) (ha : p a = true) : Closed p (l ++ [a]) := ⟨l, a, rfl, h, ha⟩

theorem Closed.dropLast_open (h : Closed p l) : Open p l.dropLast := by
  obtain ⟨body, e, rfl, ho, -⟩ := h
  rwa [List.dropLast_concat]

/-- Every list is closed segments and an open rest. -/
theorem exists_segments (p : α → Bool) (l : List α) :
    ∃ (segs : List (List α)) (rest : List α),
      l = segs.flatten ++ rest ∧ (∀ seg ∈ segs, Closed p seg) ∧ Open p rest := by
  induction l using List.reverseRecOn with
  | nil => exact ⟨[], [], rfl, fun _ h => absurd h List.not_mem_nil, open_nil⟩
  | append_singleton l a ih =>
    obtain ⟨segs, rest, rfl, hsegs, hrest⟩ := ih
    cases ha : p a with
    | false => exact ⟨segs, rest ++ [a], by rw [List.append_assoc], hsegs, hrest.snoc ha⟩
    | true =>
      refine ⟨segs ++ [rest ++ [a]], [], by simp, fun seg hseg => ?_, open_nil⟩
      rcases List.mem_append.mp hseg with hseg | hseg
      · exact hsegs seg hseg
      · exact List.mem_singleton.mp hseg ▸ hrest.closed ha

/-- The segments of a list are what `splitOnP` cuts it into. -/
theorem splitOnP_segments (hsegs : ∀ seg ∈ segs, Closed p seg) (hrest : Open p rest) :
    (segs.flatten ++ rest).splitOnP p = segs.map List.dropLast ++ [rest] := by
  induction segs with
  | nil => exact List.splitOnP_eq_singleton hrest
  | cons seg segs ih =>
    obtain ⟨body, e, rfl, hbody, he⟩ := hsegs seg List.mem_cons_self
    have hrec := ih fun seg h => hsegs seg (List.mem_cons_of_mem _ h)
    have hcut := List.splitOnP_append_cons_of_forall_mem hbody e he (segs.flatten ++ rest)
    rw [List.map_cons, List.dropLast_concat, List.cons_append, ← hrec, ← hcut]
    simp

section
variable {β : Type*} {q : β → Bool} {f : α → β}

theorem Open.map (hf : ∀ a, q (f a) = p a) (h : Open p l) : Open q (l.map f) := by
  intro b hb
  obtain ⟨a, ha, rfl⟩ := List.mem_map.mp hb
  rw [hf, h a ha]

theorem Closed.map (hf : ∀ a, q (f a) = p a) (h : Closed p l) : Closed q (l.map f) := by
  obtain ⟨body, e, rfl, ho, he⟩ := h
  rw [List.map_append, List.map_singleton]
  exact (ho.map hf).closed (by rw [hf, he])

/-- Cutting commutes with renaming the elements. -/
theorem splitOnP_map (hf : ∀ a, q (f a) = p a) (l : List α) :
    (l.map f).splitOnP q = (l.splitOnP p).map (List.map f) := by
  obtain ⟨segs, rest, rfl, hsegs, hrest⟩ := exists_segments p l
  have hsegs' : ∀ seg ∈ segs.map (List.map f), Closed q seg := by
    intro seg hseg
    obtain ⟨seg, hmem, rfl⟩ := List.mem_map.mp hseg
    exact (hsegs seg hmem).map hf
  rw [splitOnP_segments hsegs hrest, List.map_append, List.map_flatten,
    splitOnP_segments hsegs' (hrest.map hf)]
  simp [Function.comp_def]

end

/-- A segment ends once. -/
theorem Closed.countP (h : Closed p l) : l.countP p = 1 := by
  obtain ⟨body, e, rfl, ho, he⟩ := h
  rw [List.countP_append, List.countP_eq_zero.mpr fun a ha => by simp [ho a ha]]
  simp [he]

theorem Open.countP (h : Open p l) : l.countP p = 0 :=
  List.countP_eq_zero.mpr fun a ha => by simp [h a ha]

/-- As many segments are closed as elements end one. -/
theorem countP_segments (hsegs : ∀ seg ∈ segs, Closed p seg) (hrest : Open p rest) :
    (segs.flatten ++ rest).countP p = segs.length := by
  rw [List.countP_append, hrest.countP, Nat.add_zero]
  induction segs with
  | nil => rfl
  | cons seg segs ih =>
    rw [List.flatten_cons, List.countP_append, (hsegs seg List.mem_cons_self).countP,
      ih fun seg h => hsegs seg (List.mem_cons_of_mem _ h), List.length_cons, Nat.add_comm]

end Lib
