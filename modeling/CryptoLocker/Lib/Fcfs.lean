import Mathlib.Data.List.Nodup
import Mathlib.Data.List.Perm.Subperm

/-!
# First-come-first-served queues

A queue lists its members in order of arrival, each with an owner. `find` is
the first member of an owner and `cancel` takes that member out.
`waiting joined left` is the queue that a history of arrivals and departures
leaves behind: who has joined and not left, in order of joining.
-/

namespace Lib.Fcfs

section
variable {κ γ : Type*} [DecidableEq κ] (owner : γ → κ)

def find (q : List γ) (k : κ) : Option γ := q.find? fun x => owner x = k

def cancel (q : List γ) (k : κ) : List γ := q.eraseP fun x => owner x = k

variable {owner} {q : List γ} {k : κ} {x : γ}

theorem find_eq_none : find owner q k = none ↔ k ∉ q.map owner := by
  simp [find, List.find?_eq_none]

/-- The member found, with nobody of its owner in front of it. -/
theorem find_eq_some :
    find owner q k = some x ↔
      owner x = k ∧ ∃ l r, q = l ++ x :: r ∧ ∀ y ∈ l, owner y ≠ k := by
  simp [find, List.find?_eq_some_iff_append]

theorem cancel_of_find_none (h : find owner q k = none) : cancel owner q k = q := by
  refine List.eraseP_of_forall_not fun x hx => ?_
  simpa using List.find?_eq_none.mp h x hx

theorem cancel_split {l r : List γ} (hx : owner x = k) (hl : ∀ y ∈ l, owner y ≠ k) :
    cancel owner (l ++ x :: r) k = l ++ r := by
  rw [cancel, List.eraseP_append_right _ (by simpa using hl), List.eraseP_cons_of_pos (by simpa using hx)]

/-- Only the last member's cancellation empties a queue. -/
theorem cancel_eq_nil : cancel owner q k = [] ↔ q = [] ∨ q.map owner = [k] := by
  cases q with
  | nil => simp [cancel]
  | cons y q =>
    by_cases hy : owner y = k
    · simp [cancel, hy]
    · simp [cancel, hy]

theorem cancel_sublist : (cancel owner q k).Sublist q := List.eraseP_sublist

/-- The owners that are left. -/
theorem map_cancel : (cancel owner q k).map owner = (q.map owner).erase k := by
  rw [cancel, List.erase_eq_eraseP', List.eraseP_map]
  rfl

/-- A list of two members at most is what two erasures empty. -/
theorem erase_erase_eq_nil {ks : List κ} {k k' : κ} :
    (ks.erase k).erase k' = [] ↔ ks.Subperm [k, k'] := by
  constructor
  · intro h
    have hk' : (ks.erase k).Subperm [k'] := by
      have := List.subperm_cons_erase k' (ks.erase k)
      rwa [h] at this
    exact (List.subperm_cons_erase k ks).trans ((List.subperm_cons k).mpr hk')
  · intro h
    have := (h.erase k).erase k'
    simpa using this

/-- Cancellations of different owners commute. -/
theorem cancel_comm {k' : κ} (hk : k ≠ k') :
    cancel owner (cancel owner q k) k' = cancel owner (cancel owner q k') k := by
  refine List.eraseP_comm fun x _ => ?_
  by_cases hx : owner x = k
  · exact .inr (by simpa [hx] using hk)
  · exact .inl (by simpa using hx)

/-- A member of another owner may join before or after. -/
theorem cancel_snoc (hx : owner x ≠ k) : cancel owner (q ++ [x]) k = cancel owner q k ++ [x] := by
  cases hf : find owner q k with
  | none =>
    have hnone : find owner (q ++ [x]) k = none := by
      rw [find_eq_none] at hf ⊢
      simpa [hf] using hx.symm
    rw [cancel_of_find_none hf, cancel_of_find_none hnone]
  | some y =>
    obtain ⟨hy, l, r, rfl, hl⟩ := find_eq_some.mp hf
    rw [cancel_split hy hl, List.append_assoc, List.cons_append, cancel_split hy hl, List.append_assoc]

/-- A new member who leaves again was the last. -/
theorem cancel_snoc_self (hx : owner x = k) (hk : k ∉ q.map owner) :
    cancel owner (q ++ [x]) k = q := by
  have hq : ∀ y ∈ q, owner y ≠ k := fun y hy hown => hk (hown ▸ List.mem_map_of_mem hy)
  rw [cancel_split hx hq, List.append_nil]

/-- A cancellation neither hides nor shows a member of another owner. -/
theorem find_cancel_ne {k' : κ} (hk : k ≠ k') :
    find owner (cancel owner q k) k' = find owner q k' := by
  cases hf : find owner q k with
  | none => rw [cancel_of_find_none hf]
  | some y =>
    obtain ⟨rfl, l, r, rfl, hl⟩ := find_eq_some.mp hf
    rw [cancel_split rfl hl, find, find, List.find?_append, List.find?_append,
      List.find?_cons_of_neg (by simpa using hk)]

/-- Nor does a member who joins. -/
theorem find_snoc_ne (hx : owner x ≠ k) : find owner (q ++ [x]) k = find owner q k := by
  rw [find, List.find?_append, List.find?_singleton, if_neg (by simpa using hx), Option.or_none]
  rfl

end

/-! ## Histories -/

section
variable {ι : Type*} [DecidableEq ι] {joined left : List ι} {a : ι}

/-- Who has joined and not left, in order of joining. -/
def waiting (joined left : List ι) : List ι := joined.filter (· ∉ left)

theorem waiting_join (ha : a ∉ left) : waiting (joined ++ [a]) left = waiting joined left ++ [a] := by
  simp [waiting, ha]

theorem mem_waiting : a ∈ waiting joined left ↔ a ∈ joined ∧ a ∉ left := by simp [waiting]

theorem waiting_leave (hnd : joined.Nodup) :
    waiting joined (left ++ [a]) = (waiting joined left).erase a := by
  have hw : (waiting joined left).Nodup := hnd.filter _
  rw [hw.erase_eq_filter, waiting, waiting, List.filter_filter]
  refine List.filter_congr fun x _ => ?_
  by_cases hxa : x = a <;> simp [hxa]

end

end Lib.Fcfs
