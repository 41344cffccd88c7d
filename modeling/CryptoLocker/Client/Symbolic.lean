import CryptoLocker.Client.Encryption
import CryptoLocker.Lib.Heap

/-!
# An openssl that keeps the laws

Keys are a tag and a body, the two halves of a pair with the same body; to lock
a text is to mask its bytes and to put a tag and the body or the `pass:` string in
front of them. The laws of `Openssl` hold of it, so they can be met together, and
runs of the module can be computed with it.
-/

namespace CryptoLocker

open Lib

namespace Symbolic

/-- A body longer than those of all contents seen. -/
def freshBody (seen : List Bytes) : Bytes :=
  .replicate (Malloc.next.pick (seen.map fun c => c.tail.length)) 0

def pubout : Bytes → Option Bytes
  | 1 :: body => some (2 :: body)
  | _ => none

def mask (c : Bytes) : Bytes := c.map (· ^^^ 0x80)

/-- What is behind `lock`. -/
def strip (lock c : Bytes) : Option Bytes := if lock <+: c then some (c.drop lock.length) else none

def aesEncrypt (pass m : Bytes) : Bytes := 4 :: pass ++ mask m

def aesDecrypt (pass c : Bytes) : Option Bytes := (strip (4 :: pass) c).map mask

/-- The length is the most a key of 2048 bits takes. -/
def rsaEncrypt : Bytes → Bytes → Option Bytes
  | 2 :: body, m => if m.length ≤ 245 then some (3 :: body ++ mask m) else none
  | _, _ => none

def rsaDecrypt : Bytes → Bytes → Option Bytes
  | 1 :: body, c => (strip (3 :: body) c).map mask
  | _, _ => none

/-- `pkey` opens its output file first, `rsautl` behind the key and the text. -/
def empties : Command → List (Option Bytes) → Bool
  | .pkey, _ => true
  | .rsautl, [some (2 :: _), some _] => true
  | _, _ => false

theorem freshBody_fresh (tag : UInt8) (seen : List Bytes) : tag :: freshBody seen ∉ seen := by
  intro h
  have hlen : (freshBody seen).length ∈ seen.map fun c => c.tail.length :=
    List.mem_map_of_mem (f := fun c : Bytes => c.tail.length) h
  rw [freshBody, List.length_replicate] at hlen
  exact Malloc.next.fresh _ hlen

theorem mask_mask (c : Bytes) : mask (mask c) = c := by
  unfold mask
  rw [List.map_map]
  refine List.map_id'' (fun b => ?_) c
  show b ^^^ 0x80 ^^^ 0x80 = b
  rw [UInt8.xor_assoc, UInt8.xor_self, UInt8.xor_zero]

/-- Only the string in front comes off. -/
theorem strip_append (lock lock' m : Bytes) : strip lock' (lock ++ m) = some m ↔ lock' = lock := by
  unfold strip
  constructor
  · intro h
    split at h
    · next hpre =>
      obtain ⟨rest, hrest⟩ := hpre
      rw [← hrest, List.drop_left, Option.some.injEq] at h
      exact List.append_cancel_right (h ▸ hrest)
    · cases h
  · rintro rfl
    rw [if_pos (List.prefix_append _ _), List.drop_left]

/-- So the text is got back only with it. -/
theorem map_mask_strip (lock lock' m : Bytes) :
    (strip lock' (lock ++ mask m)).map mask = some m ↔ lock' = lock := by
  rw [← strip_append lock lock' (mask m), Option.map_eq_some_iff]
  constructor
  · rintro ⟨c, hc, rfl⟩
    rw [hc, mask_mask]
  · exact fun h => ⟨mask m, h, mask_mask m⟩

theorem rsaEncrypt_some {pk m c : Bytes} (h : rsaEncrypt pk m = some c) : ∃ rest, c = 3 :: rest := by
  unfold rsaEncrypt at h
  split at h
  · next body =>
    obtain ⟨-, hc⟩ := Option.ite_none_right_eq_some.mp h
    exact ⟨body ++ mask m, (Option.some.inj hc).symm⟩
  · cases h

end Symbolic

def Openssl.symbolic : Openssl Unit where
  genpkey _ seen := 1 :: Symbolic.freshBody seen
  pubout := Symbolic.pubout
  aesEncrypt _ := Symbolic.aesEncrypt
  aesDecrypt := Symbolic.aesDecrypt
  rsaEncrypt _ := Symbolic.rsaEncrypt
  rsaDecrypt := Symbolic.rsaDecrypt
  base64 c := c
  unbase64 := some
  empties := Symbolic.empties
  genpkey_fresh _ seen := Symbolic.freshBody_fresh 1 seen
  pubout_genpkey _ seen := ⟨_, rfl, Symbolic.freshBody_fresh 2 seen⟩
  aesDecrypt_aesEncrypt _ pass pass' m :=
    (Symbolic.map_mask_strip (4 :: pass) (4 :: pass') m).trans (List.cons_inj_right 4)
  rsaDecrypt_rsaEncrypt _ k pk m c hk hc := by
    unfold Symbolic.pubout at hk
    split at hk
    · next body =>
      cases hk
      obtain ⟨-, hc⟩ := Option.ite_none_right_eq_some.mp hc
      rw [← Option.some.inj hc]
      exact (Symbolic.map_mask_strip (3 :: body) (3 :: body) m).mpr rfl
    · cases hk
  rsautl_long _ k pk m hk _ := by
    unfold Symbolic.pubout at hk
    split at hk
    · next body =>
      cases hk
      exact ⟨rfl, rfl⟩
    · cases hk
  unbase64_base64 _ := rfl

end CryptoLocker
