import Mathlib.Algebra.Order.Group.Nat
import Mathlib.Data.Nat.Size

/-!
# Masks and intervals

A mask cuts the words in classes: those that agree where it has ones. Each
class lies between its least and its greatest word; all classes are intervals
exactly when the mask is ones followed by zeros (`interval_iff`).
-/

namespace Lib

section
variable {w k : Nat}

/-- What is left of a word under a mask and under its complement. -/
theorem toNat_and_add_not (a m : BitVec w) : (a &&& m).toNat + (a &&& ~~~ m).toNat = a.toNat := by
  have hdisj : (a &&& m) &&& (a &&& ~~~ m) = 0#w := by
    ext i hi
    cases ha : a[i] <;> cases hm : m[i] <;> simp [ha, hm]
  have hor : (a &&& m) ||| (a &&& ~~~ m) = a := by
    ext i hi
    simp [← Bool.and_or_distrib_left]
  rw [← BitVec.toNat_add_of_and_eq_zero hdisj, BitVec.add_eq_or_of_and_eq_zero _ _ hdisj, hor]

/-- The greatest word of a class. -/
theorem toNat_or_not (a m : BitVec w) : (a ||| ~~~ m).toNat = (a &&& m).toNat + (~~~ m).toNat := by
  have hdisj : (a &&& m) &&& ~~~ m = 0#w := by
    ext i hi
    simp
  have hor : (a &&& m) ||| ~~~ m = a ||| ~~~ m := by
    ext i hi
    cases hm : m[i] <;> simp [hm]
  rw [← BitVec.toNat_add_of_and_eq_zero hdisj, BitVec.add_eq_or_of_and_eq_zero _ _ hdisj, hor]

/-- Ones, then `k` zeros. -/
def leadingOnes (w k : Nat) : BitVec w := ~~~ BitVec.ofNat w (2 ^ k - 1)

theorem toNat_not_leadingOnes (hk : k ≤ w) : (~~~ leadingOnes w k).toNat = 2 ^ k - 1 := by
  have hle : 2 ^ k ≤ 2 ^ w := Nat.pow_le_pow_right (by decide) hk
  have hpos := Nat.two_pow_pos k
  unfold leadingOnes
  rw [BitVec.not_not, BitVec.toNat_ofNat, Nat.mod_eq_of_lt (by omega)]

theorem toNat_and_leadingOnes (hk : k ≤ w) (a : BitVec w) :
    (a &&& leadingOnes w k).toNat = 2 ^ k * (a.toNat / 2 ^ k) := by
  have hsplit := toNat_and_add_not a (leadingOnes w k)
  have hdiv := Nat.div_add_mod a.toNat (2 ^ k)
  rw [BitVec.toNat_and a (~~~ _), toNat_not_leadingOnes hk, Nat.and_two_pow_sub_one_eq_mod] at hsplit
  omega

/-- The words of each class are those from its least to its greatest. -/
def Interval (m : BitVec w) : Prop :=
  ∀ b a : BitVec w, a &&& m = b &&& m ↔ b &&& m ≤ a ∧ a ≤ b ||| ~~~ m

theorem interval_leadingOnes (hk : k ≤ w) : Interval (leadingOnes w k) := by
  intro b a
  have hpos : 0 < 2 ^ k := Nat.two_pow_pos k
  have hdiv := Nat.div_add_mod a.toNat (2 ^ k)
  have hlt := Nat.mod_lt a.toNat hpos
  rw [← BitVec.toNat_inj, BitVec.le_def, BitVec.le_def, toNat_or_not, toNat_not_leadingOnes hk,
    toNat_and_leadingOnes hk, toNat_and_leadingOnes hk]
  constructor
  · intro h
    rw [← h]
    omega
  · rintro ⟨hlow, hhigh⟩
    have hq : a.toNat / 2 ^ k = b.toNat / 2 ^ k := by
      refine Nat.div_eq_of_lt_le ?_ ?_
      · rw [Nat.mul_comm]
        exact hlow
      · rw [Nat.mul_comm, Nat.mul_add]
        omega
    rw [hq]

/-- A number that has all the ones of those up to it is ones only. -/
theorem eq_two_pow_sub_one {c : Nat} (h : ∀ x ≤ c, x &&& c = x) : c = 2 ^ c.size - 1 := by
  cases hk : c.size with
  | zero => exact Nat.size_eq_zero.mp hk
  | succ j =>
    -- the first one of `c` and, by `h`, all behind it
    have hlow : 2 ^ j ≤ c := Nat.lt_size.mp (by omega)
    have hhigh : c < 2 ^ (j + 1) := Nat.size_le.mp (Nat.le_of_eq hk)
    have hmod : c % 2 ^ j = 2 ^ j - 1 := by
      rw [← Nat.and_two_pow_sub_one_eq_mod, Nat.and_comm]
      exact h _ (by omega)
    have hdiv : c / 2 ^ j = 1 := by
      refine Nat.div_eq_of_lt_le ?_ ?_
      · omega
      · omega
    have hc := Nat.div_add_mod c (2 ^ j)
    rw [hdiv, hmod] at hc
    omega

theorem Interval.leadingOnes {m : BitVec w} (h : Interval m) : ∃ k ≤ w, m = leadingOnes w k := by
  have hones : ∀ x ≤ (~~~ m).toNat, x &&& (~~~ m).toNat = x := by
    intro x hx
    have hxw : (BitVec.ofNat w x).toNat = x :=
      Nat.mod_eq_of_lt (Nat.lt_of_le_of_lt hx (~~~ m).isLt)
    have hclass : BitVec.ofNat w x &&& m = 0#w &&& m := by
      refine (h 0#w (BitVec.ofNat w x)).mpr ⟨?_, ?_⟩
      · rw [BitVec.zero_and]
        exact Nat.zero_le _
      · rw [BitVec.zero_or, BitVec.le_def, hxw]
        exact hx
    have hsplit := toNat_and_add_not (BitVec.ofNat w x) m
    rw [hclass, BitVec.zero_and, BitVec.toNat_zero, Nat.zero_add, BitVec.toNat_and, hxw] at hsplit
    exact hsplit
  refine ⟨(~~~ m).toNat.size, Nat.size_le.mpr (~~~ m).isLt, ?_⟩
  unfold Lib.leadingOnes
  rw [← eq_two_pow_sub_one hones, BitVec.ofNat_toNat, BitVec.setWidth_eq, BitVec.not_not]

/-- **Interval rule.** -/
theorem interval_iff {m : BitVec w} : Interval m ↔ ∃ k ≤ w, m = leadingOnes w k :=
  ⟨Interval.leadingOnes, fun ⟨_, hk, heq⟩ => heq ▸ interval_leadingOnes hk⟩

end

end Lib
