import Mathlib.Algebra.Order.Group.Nat
import Mathlib.Data.List.Nodup
import Mathlib.Logic.Function.Iterate

/-!
# Erasing by index

A loop that erases the entry at its index and steps on all the same skips the
entry that moved up. On a list this is `eraseSkip` (`eraseLoop_eq`): of
adjacent entries to erase every other stays, so a loop halves the longest block
of them (`longest_eraseSkip`), and `k` loops erase all exactly when no block
has 2^k entries (`iterate_eraseSkip_iff`). What the loop looks at is `seen`
(`seenLoop_eq`, `filter_seen_iff`).
-/

namespace Lib

section
variable {α : Type*} (p : α → Bool)

/-- `for (i = 0; i < v.size(); i++) if (p(v[i])) v.erase(v.begin() + i);`, from `i` on. -/
def eraseLoop : Nat → Nat → List α → List α
  | 0, _, v => v
  | fuel + 1, i, v =>
    match v[i]? with
    | none => v
    | some a => eraseLoop fuel (i + 1) (if p a then v.eraseIdx i else v)

/-- What the loop leaves. -/
def eraseSkip : List α → List α
  | [] => []
  | [a] => if p a then [] else [a]
  | a :: b :: v => if p a then b :: eraseSkip v else a :: eraseSkip (b :: v)

/-- The entries the loop looks at. -/
def seenLoop : Nat → Nat → List α → List α
  | 0, _, _ => []
  | fuel + 1, i, v =>
    match v[i]? with
    | none => []
    | some a => a :: seenLoop fuel (i + 1) (if p a then v.eraseIdx i else v)

/-- What the loop looks at. -/
def seen : List α → List α
  | [] => []
  | [a] => [a]
  | a :: b :: v => if p a then a :: seen v else a :: seen (b :: v)

/-- How many entries to erase a list begins with. -/
def leading : List α → Nat
  | [] => 0
  | a :: v => if p a then leading v + 1 else 0

/-- The most entries to erase in a row. -/
def longest : List α → Nat
  | [] => 0
  | a :: v => max (leading p (a :: v)) (longest v)

variable {p} {a b : α} {v w : List α}

theorem eraseSkip_pos (h : p a) : eraseSkip p (a :: b :: v) = b :: eraseSkip p v := if_pos h

theorem eraseSkip_neg (h : ¬ p a) : eraseSkip p (a :: v) = a :: eraseSkip p v := by
  cases v with
  | nil => exact if_neg h
  | cons b v => exact if_neg h

theorem leading_pos (h : p a) : leading p (a :: v) = leading p v + 1 := if_pos h

theorem leading_neg (h : ¬ p a) : leading p (a :: v) = 0 := if_neg h

theorem longest_cons : longest p (a :: v) = max (leading p (a :: v)) (longest p v) := rfl

/-- The entry behind an erased one moves to its place. -/
theorem drop_eraseIdx {i : Nat} (h : i < v.length) : (v.eraseIdx i).drop (i + 1) = (v.drop (i + 1)).drop 1 := by
  have htake : (v.take i).length = i := List.length_take_of_le (Nat.le_of_lt h)
  rw [List.eraseIdx_eq_take_drop_succ, List.drop_append, htake, List.drop_eq_nil_of_le (by omega),
    Nat.add_sub_cancel_left, List.nil_append]

theorem take_eraseIdx {i : Nat} (h : i < v.length) :
    (v.eraseIdx i).take (i + 1) = v.take i ++ (v.drop (i + 1)).take 1 := by
  have htake : (v.take i).length = i := List.length_take_of_le (Nat.le_of_lt h)
  rw [List.eraseIdx_eq_take_drop_succ, List.take_append, htake, List.take_of_length_le (by omega),
    Nat.add_sub_cancel_left]

theorem eraseLoop_eq (fuel i : Nat) (v : List α) (h : v.length ≤ i + fuel) :
    eraseLoop p fuel i v = v.take i ++ eraseSkip p (v.drop i) := by
  induction fuel generalizing i v with
  | zero =>
    have hle : v.length ≤ i := h
    rw [List.drop_eq_nil_of_le hle, List.take_of_length_le hle, eraseSkip, List.append_nil]
    rfl
  | succ fuel ih =>
    unfold eraseLoop
    cases hi : v[i]? with
    | none =>
      have hle := List.getElem?_eq_none_iff.mp hi
      rw [List.drop_eq_nil_of_le hle, List.take_of_length_le hle, eraseSkip, List.append_nil]
    | some a =>
      obtain ⟨hlt, rfl⟩ := List.getElem?_eq_some_iff.mp hi
      dsimp only
      by_cases hp : p v[i]
      · rw [if_pos hp, ih _ _ (by rw [List.length_eraseIdx_of_lt hlt]; omega), drop_eraseIdx hlt,
          take_eraseIdx hlt, List.drop_eq_getElem_cons hlt]
        cases v.drop (i + 1) with
        | nil => simp [eraseSkip, hp]
        | cons b w => rw [eraseSkip_pos hp]; simp
      · rw [if_neg hp, ih _ _ (by omega), List.drop_eq_getElem_cons hlt, eraseSkip_neg hp,
          List.take_succ_eq_append_getElem hlt, List.append_assoc]
        rfl

theorem seen_pos (h : p a) : seen p (a :: b :: v) = a :: seen p v := if_pos h

theorem seen_neg (h : ¬ p a) : seen p (a :: v) = a :: seen p v := by
  cases v with
  | nil => rfl
  | cons b v => exact if_neg h

theorem seenLoop_eq (fuel i : Nat) (v : List α) (h : v.length ≤ i + fuel) :
    seenLoop p fuel i v = seen p (v.drop i) := by
  induction fuel generalizing i v with
  | zero =>
    have hle : v.length ≤ i := h
    rw [List.drop_eq_nil_of_le hle]
    rfl
  | succ fuel ih =>
    unfold seenLoop
    cases hi : v[i]? with
    | none =>
      rw [List.drop_eq_nil_of_le (List.getElem?_eq_none_iff.mp hi)]
      rfl
    | some a =>
      obtain ⟨hlt, rfl⟩ := List.getElem?_eq_some_iff.mp hi
      dsimp only
      by_cases hp : p v[i]
      · rw [if_pos hp, ih _ _ (by rw [List.length_eraseIdx_of_lt hlt]; omega), drop_eraseIdx hlt,
          List.drop_eq_getElem_cons hlt]
        cases v.drop (i + 1) with
        | nil => rfl
        | cons b w => rw [seen_pos hp]; rfl
      · rw [if_neg hp, ih _ _ (by omega), List.drop_eq_getElem_cons hlt, seen_neg hp]

theorem leading_eraseSkip (v : List α) : leading p (eraseSkip p v) = leading p v / 2 := by
  induction v using eraseSkip.induct p with
  | case1 => simp [eraseSkip, leading]
  | case2 a h => simp [eraseSkip, leading, h]
  | case3 a h => simp [eraseSkip, leading, h]
  | case4 a b v h ih =>
    rw [eraseSkip_pos h, leading_pos h]
    by_cases hb : p b
    · rw [leading_pos hb, leading_pos hb, ih]
      omega
    · rw [leading_neg hb, leading_neg hb]
  | case5 a b v h ih => rw [eraseSkip_neg h, leading_neg h, leading_neg h]

theorem longest_eraseSkip (v : List α) : longest p (eraseSkip p v) = longest p v / 2 := by
  induction v using eraseSkip.induct p with
  | case1 => simp [eraseSkip, longest]
  | case2 a h => simp [eraseSkip, longest, leading, h]
  | case3 a h => simp [eraseSkip, longest, leading, h]
  | case4 a b v h ih =>
    have hlead : leading p (b :: eraseSkip p v) = leading p (a :: b :: v) / 2 := by
      rw [← eraseSkip_pos h, leading_eraseSkip]
    have hab := leading_pos (v := b :: v) h
    rw [eraseSkip_pos h, longest_cons, longest_cons, longest_cons, hlead, ih]
    omega
  | case5 a b v h ih =>
    rw [eraseSkip_neg h, longest_cons, longest_cons, leading_neg h, leading_neg h, ih]
    omega

theorem iterate_longest (k : Nat) (v : List α) : longest p ((eraseSkip p)^[k] v) = longest p v / 2 ^ k := by
  induction k generalizing v with
  | zero => simp
  | succ k ih =>
    rw [Function.iterate_succ_apply, ih, longest_eraseSkip, Nat.div_div_eq_div_mul, Nat.pow_succ, Nat.mul_comm]

theorem longest_eq_zero : longest p v = 0 ↔ ∀ a ∈ v, ¬ p a := by
  induction v with
  | nil => exact iff_of_true rfl nofun
  | cons a v ih =>
    rw [longest_cons, List.forall_mem_cons, ← ih]
    by_cases h : p a
    · rw [leading_pos h]
      exact iff_of_false (by omega) fun hc => hc.1 h
    · rw [leading_neg h]
      exact ⟨fun hz => ⟨h, by omega⟩, fun hz => by omega⟩

/-- **Loops it takes.** -/
theorem iterate_eraseSkip_iff (k : Nat) (v : List α) :
    (∀ a ∈ (eraseSkip p)^[k] v, ¬ p a) ↔ longest p v < 2 ^ k := by
  rw [← longest_eq_zero, iterate_longest]
  exact Nat.div_eq_zero_iff_lt (Nat.two_pow_pos k)

/-- The others stay, in their order. -/
theorem filter_eraseSkip (v : List α) : (eraseSkip p v).filter (! p ·) = v.filter (! p ·) := by
  induction v using eraseSkip.induct p with
  | case1 => rfl
  | case2 a h => simp [eraseSkip, h]
  | case3 a h => simp [eraseSkip, h]
  | case4 a b v h ih => rw [eraseSkip_pos h, List.filter_cons, ih]; simp [h, List.filter_cons]
  | case5 a b v h ih =>
    rw [eraseSkip_neg h, List.filter_cons, ih, List.filter_cons (x := a)]

theorem eraseSkip_sublist (v : List α) : (eraseSkip p v).Sublist v := by
  induction v using eraseSkip.induct p with
  | case1 => exact .slnil
  | case2 a h => simp [eraseSkip, h]
  | case3 a h => simp [eraseSkip, h]
  | case4 a b v h ih => rw [eraseSkip_pos h]; exact (ih.cons_cons b).cons a
  | case5 a b v h ih => rw [eraseSkip_neg h]; exact ih.cons_cons a

theorem longest_le_one (h : v.IsChain fun a b => ¬ (p a ∧ p b)) : longest p v ≤ 1 := by
  induction v with
  | nil => exact Nat.zero_le 1
  | cons a v ih =>
    have hv := ih h.of_cons
    rw [longest_cons]
    by_cases ha : p a
    · rw [leading_pos ha]
      cases v with
      | nil => exact Nat.le_refl 1
      | cons b v =>
        have hb : ¬ p b := fun hb => (List.isChain_cons_cons.mp h).1 ⟨ha, hb⟩
        rw [leading_neg hb]
        omega
    · rw [leading_neg ha]
      omega

/-- Without two in a row the loop erases what it is to erase. -/
theorem eraseSkip_of_longest (h : longest p v ≤ 1) : eraseSkip p v = v.filter (! p ·) := by
  have hnone : ∀ a ∈ eraseSkip p v, ¬ p a := by
    rw [← longest_eq_zero, longest_eraseSkip]
    omega
  rw [← filter_eraseSkip, List.filter_eq_self.mpr fun a ha => by simpa using hnone a ha]

theorem seen_sublist (v : List α) : (seen p v).Sublist v := by
  induction v using seen.induct p with
  | case1 => exact .slnil
  | case2 a => exact .refl [a]
  | case3 a b v h ih => rw [seen_pos h]; exact (ih.cons b).cons_cons a
  | case4 a b v h ih => rw [seen_neg h]; exact ih.cons_cons a

/-- The loop erases what it looks at and is to erase. -/
theorem eraseSkip_eq_filter [DecidableEq α] (h : v.Nodup) :
    eraseSkip p v = v.filter fun a => ¬ (p a ∧ a ∈ seen p v) := by
  induction v using seen.induct p with
  | case1 => simp [eraseSkip]
  | case2 a => by_cases hp : p a <;> simp [eraseSkip, seen, hp]
  | case3 a b v hp ih =>
    obtain ⟨ha, hbv⟩ := List.nodup_cons.mp h
    obtain ⟨hb, hv⟩ := List.nodup_cons.mp hbv
    have hbs : b ∉ a :: seen p v := by
      rintro (_ | ⟨_, hmem⟩)
      · exact ha List.mem_cons_self
      · exact hb ((seen_sublist v).subset hmem)
    have hrest : ∀ x ∈ v, (x ∈ a :: seen p v ↔ x ∈ seen p v) := fun x hx =>
      List.mem_cons.trans (or_iff_right fun he => ha (List.mem_cons_of_mem b (he ▸ hx)))
    rw [eraseSkip_pos hp, seen_pos hp, ih hv, List.filter_cons_of_neg (by simp [hp]),
      List.filter_cons_of_pos (by simp [hbs]), List.cons.injEq, and_iff_right rfl]
    exact List.filter_congr fun x hx => by simp only [hrest x hx]
  | case4 a b v hp ih =>
    obtain ⟨ha, hbv⟩ := List.nodup_cons.mp h
    have hrest : ∀ x ∈ b :: v, (x ∈ a :: seen p (b :: v) ↔ x ∈ seen p (b :: v)) := fun x hx =>
      List.mem_cons.trans (or_iff_right fun he => ha (he ▸ hx))
    have hcongr : (b :: v).filter (fun x => ¬ (p x ∧ x ∈ seen p (b :: v))) =
        (b :: v).filter fun x => ¬ (p x ∧ x ∈ a :: seen p (b :: v)) :=
      List.filter_congr fun x hx => by simp only [hrest x hx]
    rw [eraseSkip_neg hp, seen_neg hp, ih hbv, hcongr]
    exact (List.filter_cons_of_pos (by simp [hp])).symm

/-- The loop passes no entry of `q` exactly when none of them is behind one it would erase. -/
theorem filter_seen_iff {q : α → Bool} (hpq : ∀ a, p a → q a) (v : List α) :
    (seen p v).filter q = v.filter q ↔ v.IsChain fun a b => ¬ (p a ∧ q b) := by
  induction v using seen.induct p with
  | case1 => exact iff_of_true rfl .nil
  | case2 a => exact iff_of_true rfl (.singleton a)
  | case3 a b v h ih =>
    have hqa := hpq a h
    rw [seen_pos h, List.filter_cons_of_pos hqa, List.filter_cons_of_pos hqa, List.cons.injEq,
      and_iff_right rfl, List.isChain_cons_cons]
    by_cases hqb : q b
    · -- `b` is passed, so the loop looks at fewer
      refine iff_of_false (fun heq => ?_) fun hc => hc.1 ⟨h, hqb⟩
      have hle := ((seen_sublist (p := p) v).filter q).length_le
      rw [heq, List.filter_cons_of_pos hqb, List.length_cons] at hle
      omega
    · have hpb : ¬ p b := fun hp => hqb (hpq b hp)
      rw [List.filter_cons_of_neg hqb, ih, and_iff_right fun hc => hqb hc.2]
      cases v with
      | nil => exact iff_of_true .nil (.singleton b)
      | cons c v => rw [List.isChain_cons_cons, and_iff_right fun hc => hpb hc.1]
  | case4 a b v h ih =>
    rw [seen_neg h, List.isChain_cons_cons, and_iff_right fun hc => h hc.1, ← ih]
    by_cases hqa : q a
    · rw [List.filter_cons_of_pos hqa, List.filter_cons_of_pos hqa, List.cons.injEq, and_iff_right rfl]
    · rw [List.filter_cons_of_neg hqa, List.filter_cons_of_neg hqa]

end

end Lib
