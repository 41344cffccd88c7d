import CryptoLocker.Client.KeyPair
import Mathlib.Data.List.DropRight

/-!
# Encryption and decryption

`decryptMessage` is the decryption written down at the top of
`client/encryption.py`. The password it recovers ends a line of hexadecimal
digits, the `pass:` string of `encryptMessage` is the text `[enc/password.pem]`,
so it never gives the message back (`round_trip_never`).
-/

namespace CryptoLocker

open Lib

/-- The trailing newlines a shell takes off the output of a command. -/
def chomp (c : Bytes) : Bytes := c.rdropWhile (· = 10)

section
variable {ρ : Type} (o : Openssl ρ)

/-- Steps 6 of the module: un-base64 and unlock the password, unlock the message
with `asPass` of it. -/
def decryptMessage (key : Bytes) (asPass : Bytes → Bytes) (pair : Bytes × Bytes) : Option Bytes := do
  let secretMsg ← o.unbase64 pair.2
  let msg ← o.rsaDecrypt key secretMsg
  o.aesDecrypt (asPass msg) pair.1

/-- The holder of `key` gets `msg` back, with the password as it was stored or
without its newline. -/
def Recovers (key : Bytes) (pair : Bytes × Bytes) (msg : Bytes) : Prop :=
  decryptMessage o key id pair = some msg ∨ decryptMessage o key chomp pair = some msg

end

/-! ## The password stored -/

/-- A line of hexadecimal digits behind anything ends in a digit and a newline. -/
theorem hexLine_ends (c : Bytes) (secret : Fin 8 → UInt8) :
    ∃ pre, ∃ n < 16, c ++ hexLine secret = pre ++ [hexDigit n] ++ [10] := by
  let high (b : UInt8) := hexDigit (b.toNat / 16)
  let low (b : UInt8) := hexDigit (b.toNat % 16)
  refine ⟨c ++ (List.ofFn fun i => secret i.castSucc).flatMap (fun b => [high b, low b]) ++
    [high (secret (Fin.last 7))], (secret (Fin.last 7)).toNat % 16, Nat.mod_lt _ (by decide), ?_⟩
  rw [hexLine, List.ofFn_succ_last, List.flatMap_append]
  simp only [List.flatMap_cons, List.flatMap_nil, List.append_nil, List.append_assoc, List.cons_append,
    List.nil_append, high, low]

theorem hexDigit_ne : ∀ n, n < 16 → hexDigit n ≠ 10 ∧ hexDigit n ≠ 93 := by decide

/-- No recovered password is the text `[enc/password.pem]`, which ends in a bracket. -/
theorem password_ne (c : Bytes) (secret : Fin 8 → UInt8) :
    c ++ hexLine secret ≠ text "[enc/password.pem]" ∧
      chomp (c ++ hexLine secret) ≠ text "[enc/password.pem]" := by
  obtain ⟨pre, n, hn, he⟩ := hexLine_ends c secret
  obtain ⟨hnewline, hbracket⟩ := hexDigit_ne n hn
  have hlast : (text "[enc/password.pem]").getLast? = some 93 := by decide
  have hchomp : chomp (pre ++ [hexDigit n] ++ [10]) = pre ++ [hexDigit n] := by
    unfold chomp
    rw [List.rdropWhile_concat_pos _ _ _ (by decide),
      List.rdropWhile_concat_neg _ _ _ (by simpa using hnewline)]
  rw [he, hchomp]
  refine ⟨fun h => ?_, fun h => ?_⟩
  · rw [← h, List.getLast?_concat] at hlast
    exact absurd (Option.some.inj hlast) (by decide)
  · rw [← h, List.getLast?_concat] at hlast
    exact hbracket (Option.some.inj hlast)

/-! ## The pair returned -/

section
variable {ρ : Type} {o : Openssl ρ} {d : Disk Path Bytes} {k pk : Bytes}

/-- Under a public key `rsautl` writes what its private key takes back to the password file, or, where
that is too long, nothing of it. -/
theorem rsautlWritten_pair (r : ρ) (secret : Fin 8 → UInt8) (hpub : d.file "enc/publicKey.pem" = some pk)
    (hpk : o.pubout k = some pk) :
    ∃ w, rsautlWritten o r secret d = some w ∧ ∀ m, o.rsaDecrypt k w = some m → m = passwordFile secret d := by
  unfold rsautlWritten wrapped
  rw [hpub, Option.bind_some]
  cases hw : o.rsaEncrypt r pk (passwordFile secret d) with
  | some w =>
    refine ⟨w, o.written_some _ _ w, fun m hm => ?_⟩
    exact Option.some.inj (hm.symm.trans (o.rsaDecrypt_rsaEncrypt r k pk _ w hpk hw))
  | none =>
    obtain ⟨hempties, hnone⟩ := o.rsautl_long r k pk _ hpk hw
    refine ⟨[], ?_, fun m hm => ?_⟩
    · rw [Openssl.written, hempties]
      rfl
    · cases hnone.symm.trans hm

/-- With a pair of keys on the disk `encryptMessage` comes to its end: the message is
locked with the text of the command, and what can be had with the private key is the
password file, with whatever it held before. -/
theorem encryptMessage_pair (r : ρ) (secret : Fin 8 → UInt8) (msg : Bytes)
    (hpub : d.file "enc/publicKey.pem" = some pk) (hpk : o.pubout k = some pk) :
    ∃ w d', encryptMessage o r secret msg d =
        .ok ((o.aesEncrypt r (text "[enc/password.pem]") msg, o.base64 w), d') ∧
      ∀ m, o.rsaDecrypt k w = some m → m = passwordFile secret d := by
  obtain ⟨w, hw, hdec⟩ := rsautlWritten_pair r secret hpub hpk
  have hmessage := afterCommands_encryptedMessage o r secret msg d
  have hpassword := afterCommands_encryptedPassword64 o r secret msg d (some w) (by rw [hw, Option.some_or])
  refine ⟨w, afterCommands o r secret msg d, ?_, hdec⟩
  rw [encryptMessage_eq, openRead_ok.mpr hmessage, openRead_ok.mpr hpassword]
  rfl

/-- **No round trip.** Whatever is on the disk next to a pair of keys, whatever
the message and the random password, the pair `encryptMessage` returns does not
give the message back. -/
theorem round_trip_never (o : Openssl ρ) (d : Disk Path Bytes) (k : Bytes) (r : ρ)
    (secret : Fin 8 → UInt8) (msg : Bytes) (hkey : d.file "enc/key.pem" = some k)
    (hpair : Paired o d) :
    ∃ pair d', encryptMessage o r secret msg d = .ok (pair, d') ∧ ¬ Recovers o k pair msg := by
  obtain ⟨hsome, hpub⟩ := hpair
  rw [hkey, Option.bind_some] at hsome hpub
  obtain ⟨pk, hpk⟩ := Option.isSome_iff_exists.mp hsome
  obtain ⟨w, d', hrun, hw⟩ := encryptMessage_pair r secret msg (hpub.trans hpk) hpk
  refine ⟨_, d', hrun, ?_⟩
  have hdec : ∀ asPass, decryptMessage o k asPass
      (o.aesEncrypt r (text "[enc/password.pem]") msg, o.base64 w) = some msg →
        asPass (passwordFile secret d) = text "[enc/password.pem]" := by
    intro asPass hmsg
    unfold decryptMessage at hmsg
    rw [o.unbase64_base64, Option.bind_eq_bind, Option.bind_some] at hmsg
    obtain ⟨m, hm, hmsg⟩ := Option.bind_eq_some_iff.mp hmsg
    rw [hw m hm] at hmsg
    exact (o.aesDecrypt_aesEncrypt r _ _ msg).mp hmsg
  obtain ⟨hstored, hchomped⟩ := password_ne ((d.file "enc/password.pem").getD []) secret
  exact fun h => h.elim (fun h => hstored (hdec id h)) fun h => hchomped (hdec chomp h)

end

/-- A pair of keys and the password file of an interrupted call. -/
theorem round_trip_leftover :
    ∃ pair d', encryptMessage Openssl.symbolic () (fun _ => 0x5a) (text "CREATE")
        (Disk.ofList [("enc/key.pem", [1, 0]), ("enc/publicKey.pem", [2, 0]),
          ("enc/password.pem", text "0123456789abcdef\n")]) = .ok (pair, d') ∧
      ¬ Recovers Openssl.symbolic [1, 0] pair (text "CREATE") :=
  round_trip_never Openssl.symbolic _ [1, 0] () _ _ rfl (by decide)

/-- The recovered password does not open the message; the text of the command does. -/
theorem round_trip_fails :
    ∃ pair d', encryptMessage Openssl.symbolic () (fun _ => 0x5a) (text "CREATE")
        (Disk.ofList [("enc/key.pem", [1, 0]), ("enc/publicKey.pem", [2, 0])]) = .ok (pair, d') ∧
      Openssl.symbolic.rsaDecrypt [1, 0] pair.2 = some (text "5a5a5a5a5a5a5a5a\n") ∧
      ¬ Recovers Openssl.symbolic [1, 0] pair (text "CREATE") ∧
      Openssl.symbolic.aesDecrypt (text "[enc/password.pem]") pair.1 = some (text "CREATE") := by
  refine ⟨_, _, rfl, by decide, ?_, by decide⟩
  unfold Recovers
  decide

end CryptoLocker
