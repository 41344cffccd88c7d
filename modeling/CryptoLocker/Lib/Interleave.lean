import Mathlib.Data.List.Basic
import Mathlib.Data.List.Count

/-!
# Interleavings of streams

A schedule is a list of elements tagged with the party each comes from.
`part c` is what the party `c` contributes; a schedule interleaves a family of
streams when every party contributes its stream. The schedules of one family
are permutations of each other (`Interleaves.perm`).
-/

namespace Lib

variable {ι α β : Type*}

/-- Each element of a schedule replaced by a block of elements of its party. -/
def expand (f : α → List β) (evs : List (ι × α)) : List (ι × β) :=
  evs.flatMap fun e => (f e.2).map (e.1, ·)

theorem map_snd_expand (f : α → List β) (evs : List (ι × α)) :
    (expand f evs).map Prod.snd = (evs.map Prod.snd).flatMap f := by
  simp [expand, List.map_flatMap, List.flatMap_map, Function.comp_def]

variable [DecidableEq ι]

/-- What `c` contributes to a schedule, in order. -/
def part (c : ι) (evs : List (ι × α)) : List α := (evs.filter (·.1 = c)).map Prod.snd

/-- The schedule `evs` runs the streams side by side, each in its own order. -/
def Interleaves (streams : ι → List α) (evs : List (ι × α)) : Prop := ∀ c, part c evs = streams c

variable {c : ι} {x : α} {evs evs' : List (ι × α)} {streams : ι → List α}

theorem part_cons_self : part c ((c, x) :: evs) = x :: part c evs := by
  simp [part]

theorem part_cons_ne {d : ι} (h : d ≠ c) : part c ((d, x) :: evs) = part c evs := by
  simp [part, h]

theorem part_append : part c (evs ++ evs') = part c evs ++ part c evs' := by
  simp [part]

theorem part_sublist : (part c evs).Sublist (evs.map Prod.snd) := List.filter_sublist.map _

theorem mem_part : x ∈ part c evs ↔ (c, x) ∈ evs := by
  simp [part]

/-- A block belongs to the party of its element. -/
theorem part_block {l : List β} {d : ι} : part c (l.map (d, ·)) = if d = c then l else [] := by
  split
  · next h => subst h; simp [part, List.filter_map, Function.comp_def]
  · next h => simp [part, h]

theorem part_expand (f : α → List β) : part c (expand f evs) = (part c evs).flatMap f := by
  induction evs with
  | nil => rfl
  | cons e evs ih =>
    obtain ⟨d, x⟩ := e
    show part c ((f x).map (d, ·) ++ expand f evs) = _
    rw [part_append, part_block, ih]
    by_cases h : d = c
    · subst h
      rw [if_pos rfl, part_cons_self, List.flatMap_cons]
    · rw [if_neg h, part_cons_ne h, List.nil_append]

theorem Interleaves.mem (h : Interleaves streams evs) (hx : (c, x) ∈ evs) : x ∈ streams c :=
  h c ▸ mem_part.mpr hx

theorem Interleaves.expand (h : Interleaves streams evs) (f : α → List β) :
    Interleaves (fun c => (streams c).flatMap f) (expand f evs) := fun c => by
  rw [part_expand, h c]

theorem count_part [DecidableEq α] : (part c evs).count x = evs.count (c, x) := by
  induction evs with
  | nil => rfl
  | cons e evs ih =>
    obtain ⟨d, y⟩ := e
    by_cases h : d = c
    · subst h
      rw [part_cons_self, List.count_cons, List.count_cons, ih]
      simp
    · rw [part_cons_ne h, ih, List.count_cons_of_ne]
      exact fun e => h (Prod.mk.inj e).1

/-- **Two schedules of the same streams** are permutations of each other. -/
theorem Interleaves.perm [DecidableEq α] (h : Interleaves streams evs)
    (h' : Interleaves streams evs') : evs.Perm evs' := by
  refine List.perm_iff_count.mpr fun e => ?_
  obtain ⟨c, x⟩ := e
  rw [← count_part, ← count_part, h c, h' c]

end Lib
