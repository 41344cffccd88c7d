import Mathlib.Algebra.Ring.Int.Defs
import Mathlib.Data.UInt
import Mathlib.Data.List.TakeWhile

/-!
# C strings

A `CStr` is what the string functions of the C library see: the bytes before
the first NUL. `cstr` reads one off memory. `strcmp` and `atoi` follow the C
library (`atoi` is `strtol` in base 10 cut to an `int`, on a 64-bit server);
`strdup` copies the bytes, so on values it is the identity.
-/

namespace CryptoLocker

/-- Bytes without a NUL. -/
structure CStr where
  bytes : List UInt8
  nulFree : 0 ∉ bytes
  deriving DecidableEq

theorem CStr.ext {a b : CStr} (h : a.bytes = b.bytes) : a = b := by
  cases a; cases b; cases h; rfl

/-- The string that starts at the bytes `bs`. -/
def cstr (bs : List UInt8) : CStr where
  bytes := bs.takeWhile (· ≠ 0)
  nulFree h := by simpa using List.mem_takeWhile_imp h

/-- The string "\0" of the source. -/
def CStr.empty : CStr := cstr []

/-- A string literal of the source. -/
def lit (s : String) : CStr := cstr s.toUTF8.data.toList

@[simp] theorem bytes_cstr (bs : List UInt8) : (cstr bs).bytes = bs.takeWhile (· ≠ 0) := rfl

theorem bytes_cstr_of_nulFree {bs : List UInt8} (h : 0 ∉ bs) : (cstr bs).bytes = bs :=
  List.takeWhile_eq_self_iff.mpr fun b hb => by
    simp only [ne_eq, decide_not, Bool.not_eq_eq_eq_not, Bool.not_true, decide_eq_false_iff_not]
    rintro rfl; exact h hb

@[simp] theorem cstr_bytes (s : CStr) : cstr s.bytes = s :=
  CStr.ext (bytes_cstr_of_nulFree s.nulFree)

/-- A string is empty when its first byte, if any, is NUL. -/
theorem cstr_eq_empty {bs : List UInt8} : cstr bs = CStr.empty ↔ bs.headD 0 = 0 := by
  constructor
  · intro h
    have hb : (cstr bs).bytes = [] := congrArg CStr.bytes h
    rcases bs with _ | ⟨b, bs⟩
    · rfl
    · by_contra hne
      simp [show b ≠ 0 from hne] at hb
  · intro h
    rcases bs with _ | ⟨b, bs⟩
    · rfl
    · obtain rfl : b = 0 := h
      rfl

/-! ## The library functions -/

/-- The difference of the first bytes that differ. -/
def strcmpBytes : List UInt8 → List UInt8 → Int
  | [], [] => 0
  | [], b :: _ => -b.toNat
  | a :: _, [] => a.toNat
  | a :: as, b :: bs => if a = b then strcmpBytes as bs else a.toNat - b.toNat

def strcmp (a b : CStr) : Int := strcmpBytes a.bytes b.bytes

theorem strcmpBytes_eq_zero {as bs : List UInt8} (ha : 0 ∉ as) (hb : 0 ∉ bs) :
    strcmpBytes as bs = 0 ↔ as = bs := by
  have hpos : ∀ c : UInt8, c ≠ 0 → c.toNat ≠ 0 := fun c hc h => hc (UInt8.toNat_inj.mp h)
  induction as generalizing bs with
  | nil =>
    cases bs with
    | nil => simp [strcmpBytes]
    | cons b bs =>
      have := hpos b fun e => hb (e ▸ List.mem_cons_self)
      simp only [strcmpBytes]
      refine iff_of_false (by omega) nofun
  | cons a as ih =>
    cases bs with
    | nil =>
      have := hpos a fun e => ha (e ▸ List.mem_cons_self)
      simp only [strcmpBytes]
      refine iff_of_false (by omega) nofun
    | cons b bs =>
      simp only [strcmpBytes]
      split
      · next hab =>
        subst hab
        have htail : strcmpBytes as bs = 0 ↔ as = bs :=
          ih (fun h => ha (List.mem_cons_of_mem _ h)) fun h => hb (List.mem_cons_of_mem _ h)
        rw [htail, List.cons.injEq, eq_self, true_and]
      · next hab =>
        have hne : a.toNat ≠ b.toNat := fun h => hab (UInt8.toNat_inj.mp h)
        refine iff_of_false (by omega) fun h => hab (List.cons.inj h).1

/-- `strcmp` is zero exactly on equal strings. -/
@[simp] theorem strcmp_eq_zero {a b : CStr} : strcmp a b = 0 ↔ a = b := by
  rw [strcmp, strcmpBytes_eq_zero a.nulFree b.nulFree]
  exact ⟨CStr.ext, congrArg _⟩

/-- `isspace` in the C locale. -/
def isSpace (c : UInt8) : Bool := c == 32 || (9 ≤ c && c ≤ 13)

/-- The value of the leading decimal digits, after `acc`. -/
def digitsValue : Nat → List UInt8 → Nat
  | acc, [] => acc
  | acc, c :: cs => if 48 ≤ c ∧ c ≤ 57 then digitsValue (10 * acc + (c.toNat - 48)) cs else acc

/-- `strtol` in base 10: blanks, a sign, digits, saturating at the ends of `long`. -/
def strtol (s : CStr) : Int :=
  let n : Int :=
    match s.bytes.dropWhile isSpace with
    | 45 :: cs => -digitsValue 0 cs
    | 43 :: cs => digitsValue 0 cs
    | cs => digitsValue 0 cs
  max (-2 ^ 63) (min (2 ^ 63 - 1) n)

def atoi (s : CStr) : Int := (strtol s).bmod (2 ^ 32)

example : atoi (lit " -12h") = -12 := by decide

end CryptoLocker
