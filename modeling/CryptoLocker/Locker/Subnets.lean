import CryptoLocker.Lib.Masks
import Mathlib.Algebra.Order.Ring.Nat

/-!
# Subnets

The network and the broadcast address of an address under a subnet mask are
computed byte by byte. They bound the addresses of the network exactly when
the mask is ones followed by zeros, and then `calculateSubnetCIDR` counts the
ones (`subnet_interval`).
-/

namespace CryptoLocker

open Lib

/-- `IPAddress`. -/
structure IPAddress where
  b0 : UInt8
  b1 : UInt8
  b2 : UInt8
  b3 : UInt8
  deriving DecidableEq

def IPAddress.bytes (a : IPAddress) : List UInt8 := [a.b0, a.b1, a.b2, a.b3]

/-- `calculateNetworkID`. -/
def calculateNetworkID (ip subnet : IPAddress) : IPAddress where
  b0 := subnet.b0 &&& ip.b0
  b1 := subnet.b1 &&& ip.b1
  b2 := subnet.b2 &&& ip.b2
  b3 := subnet.b3 &&& ip.b3

/-- `calculateBroadcast`. -/
def calculateBroadcast (ip subnet : IPAddress) : IPAddress where
  b0 := ~~~ subnet.b0 ||| ip.b0
  b1 := ~~~ subnet.b1 ||| ip.b1
  b2 := ~~~ subnet.b2 ||| ip.b2
  b3 := ~~~ subnet.b3 ||| ip.b3

/-- What a byte of the mask adds to the count. -/
def byteCIDR (b : UInt8) : UInt8 :=
  if b = 0x80 then 1
  else if b = 0xC0 then 2
  else if b = 0xE0 then 3
  else if b = 0xF0 then 4
  else if b = 0xF8 then 5
  else if b = 0xFC then 6
  else if b = 0xFE then 7
  else if b = 0xFF then 8
  else 0

/-- `calculateSubnetCIDR`. -/
def calculateSubnetCIDR (subnetMask : IPAddress) : UInt8 :=
  subnetMask.bytes.foldl (fun cidr b => cidr + byteCIDR b) 0

/-- The address as a word, its first byte the highest. -/
def IPAddress.word (a : IPAddress) : BitVec 32 :=
  a.b0.toBitVec ++ (a.b1.toBitVec ++ (a.b2.toBitVec ++ a.b3.toBitVec))

/-- The address of a word. -/
def ofWord (x : BitVec 32) : IPAddress where
  b0 := .ofBitVec (x.extractLsb' 24 8)
  b1 := .ofBitVec (x.extractLsb' 16 8)
  b2 := .ofBitVec (x.extractLsb' 8 8)
  b3 := .ofBitVec (x.extractLsb' 0 8)

/-! ## Words -/

section
variable {a b ip subnet : IPAddress} {x : BitVec 32}

theorem word_networkID : (calculateNetworkID ip subnet).word = ip.word &&& subnet.word := by
  have happ : ∀ x y : BitVec (8 + (8 + (8 + 8))), x = ip.word → y = subnet.word →
      x &&& y = (calculateNetworkID ip subnet).word := by
    rintro x y rfl rfl
    unfold calculateNetworkID IPAddress.word
    simp only [UInt8.toBitVec_and, BitVec.and_append, BitVec.and_comm]
  exact (happ _ _ rfl rfl).symm

theorem word_broadcast : (calculateBroadcast ip subnet).word = ip.word ||| ~~~ subnet.word := by
  have happ : ∀ x y : BitVec (8 + (8 + (8 + 8))), x = ip.word → y = subnet.word →
      x ||| ~~~ y = (calculateBroadcast ip subnet).word := by
    rintro x y rfl rfl
    unfold calculateBroadcast IPAddress.word
    simp only [UInt8.toBitVec_or, UInt8.toBitVec_not, BitVec.not_append, BitVec.or_append, BitVec.or_comm]
  exact (happ _ _ rfl rfl).symm

theorem word_ofWord (x : BitVec 32) : (ofWord x).word = x := by
  have h2 : x.extractLsb' 8 8 ++ x.extractLsb' 0 8 = x.extractLsb' 0 16 :=
    BitVec.extractLsb'_append_extractLsb'_eq_extractLsb' rfl
  have h1 : x.extractLsb' 16 8 ++ x.extractLsb' 0 16 = x.extractLsb' 0 24 :=
    BitVec.extractLsb'_append_extractLsb'_eq_extractLsb' rfl
  have h0 : x.extractLsb' 24 8 ++ x.extractLsb' 0 24 = x.extractLsb' 0 32 :=
    BitVec.extractLsb'_append_extractLsb'_eq_extractLsb' rfl
  rw [BitVec.extractLsb'_eq_self] at h0
  have hword : (ofWord x).word = x.extractLsb' 24 8 ++ (x.extractLsb' 16 8 ++ (x.extractLsb' 8 8 ++
    x.extractLsb' 0 8)) := rfl
  exact hword.trans ((congrArg _ ((congrArg _ h2).trans h1)).trans h0)

theorem ofWord_word (a : IPAddress) : ofWord a.word = a := by
  have h0 : a.word.extractLsb' 24 8 = a.b0.toBitVec := BitVec.extractLsb'_append_eq_left
  have h1 : a.word.extractLsb' 16 8 = a.b1.toBitVec :=
    (BitVec.extractLsb'_append_eq_of_add_le (by decide)).trans BitVec.extractLsb'_append_eq_left
  have h2 : a.word.extractLsb' 8 8 = a.b2.toBitVec :=
    (BitVec.extractLsb'_append_eq_of_add_le (by decide)).trans
      ((BitVec.extractLsb'_append_eq_of_add_le (by decide)).trans BitVec.extractLsb'_append_eq_left)
  have h3 : a.word.extractLsb' 0 8 = a.b3.toBitVec :=
    (BitVec.extractLsb'_append_eq_of_add_le (by decide)).trans
      ((BitVec.extractLsb'_append_eq_of_add_le (by decide)).trans BitVec.extractLsb'_append_eq_right)
  unfold ofWord
  rw [h0, h1, h2, h3]

theorem word_inj : a.word = b.word ↔ a = b :=
  ⟨fun h => by rw [← ofWord_word a, ← ofWord_word b, h], congrArg _⟩

/-- The mask of `k` zeros, counted. -/
theorem subnetCIDR_leadingOnes :
    ∀ k : Fin 33, (calculateSubnetCIDR (ofWord (leadingOnes 32 k))).toNat = 32 - k := by
  decide

end

/-- **Networks.** The addresses of a network are those from its ID through its broadcast address, for
every address, exactly when the mask is ones followed by zeros; the ones are then counted. -/
theorem subnet_interval (subnet : IPAddress) :
    (∀ ip a : IPAddress, calculateNetworkID a subnet = calculateNetworkID ip subnet ↔
        (calculateNetworkID ip subnet).word ≤ a.word ∧ a.word ≤ (calculateBroadcast ip subnet).word) ↔
      ∃ k ≤ 32, subnet.word = leadingOnes 32 k ∧ (calculateSubnetCIDR subnet).toNat = 32 - k := by
  have hwords : (∀ ip a : IPAddress, calculateNetworkID a subnet = calculateNetworkID ip subnet ↔
        (calculateNetworkID ip subnet).word ≤ a.word ∧ a.word ≤ (calculateBroadcast ip subnet).word) ↔
      Interval subnet.word := by
    simp only [← word_inj, word_networkID, word_broadcast]
    constructor
    · intro h b a
      have hab := h (ofWord b) (ofWord a)
      rwa [word_ofWord, word_ofWord] at hab
    · exact fun h ip a => h ip.word a.word
  rw [hwords, interval_iff]
  constructor
  · rintro ⟨k, hk, heq⟩
    refine ⟨k, hk, heq, ?_⟩
    rw [← ofWord_word subnet, heq]
    exact subnetCIDR_leadingOnes ⟨k, Nat.lt_succ_of_le hk⟩
  · rintro ⟨k, hk, heq, -⟩
    exact ⟨k, hk, heq⟩

end CryptoLocker
