import CryptoLocker.Lib.Disk
import CryptoLocker.Lib.Runs

/-!
# The encryption module of the client

The functions of `client/encryption.py` over the client's disk. `Openssl` is the
program they call, taken symbolically: what its commands compute, and as its laws
what the module relies on. A command that fails has emptied its output file or
has not opened it, as `empties` says, and no status is looked at.
-/

namespace CryptoLocker

open Lib

abbrev Bytes := List UInt8

abbrev Path := String

/-- The bytes of a string literal of the source. -/
def text (s : String) : Bytes := s.toUTF8.data.toList

/-- The commands that can fail. -/
inductive Command where
  | pkey
  | aes
  | rsautl
  | base64
  deriving DecidableEq

/-- `openssl`; `ρ` is what a command draws at random. -/
structure Openssl (ρ : Type) where
  /-- The private key written, given everything stored before. -/
  genpkey : ρ → List Bytes → Bytes
  /-- The public key of a private key. -/
  pubout : Bytes → Option Bytes
  /-- The arguments are the `pass:` string and the text. -/
  aesEncrypt : ρ → Bytes → Bytes → Bytes
  aesDecrypt : Bytes → Bytes → Option Bytes
  rsaEncrypt : ρ → Bytes → Bytes → Option Bytes
  rsaDecrypt : Bytes → Bytes → Option Bytes
  base64 : Bytes → Bytes
  unbase64 : Bytes → Option Bytes
  /-- Whether a command that fails on the files it is given, `none` for a missing one, has emptied its
  output file by then. -/
  empties : Command → List (Option Bytes) → Bool
  genpkey_fresh : ∀ r seen, genpkey r seen ∉ seen
  pubout_genpkey : ∀ r seen, ∃ pk, pubout (genpkey r seen) = some pk ∧ pk ∉ seen
  aesDecrypt_aesEncrypt : ∀ r pass pass' m, aesDecrypt pass' (aesEncrypt r pass m) = some m ↔ pass' = pass
  rsaDecrypt_rsaEncrypt : ∀ r k pk m c, pubout k = some pk → rsaEncrypt r pk m = some c →
    rsaDecrypt k c = some m
  /-- Under a public key `rsautl` fails where the text is too long, behind opening its output file. -/
  rsautl_long : ∀ r k pk m, pubout k = some pk → rsaEncrypt r pk m = none →
    empties .rsautl [some pk, some m] = true ∧ rsaDecrypt k [] = none
  unbase64_base64 : ∀ c, unbase64 (base64 c) = some c

/-! ## The commands -/

/-- The line `openssl rand -hex` prints for the bytes drawn. -/
def hexDigit (n : Nat) : UInt8 := if n < 10 then .ofNat (48 + n) else .ofNat (87 + n)

def hexLine (secret : Fin 8 → UInt8) : Bytes :=
  (List.ofFn secret).flatMap (fun b => [hexDigit (b.toNat / 16), hexDigit (b.toNat % 16)]) ++ [10]

namespace Openssl
variable {ρ : Type} (o : Openssl ρ) (d : Disk Path Bytes) (r : ρ)

/-- What a command writes to its output file, where `answer` is what it computes of the files it is
given. -/
def written (cmd : Command) (given : List (Option Bytes)) (answer : Option Bytes) : Option Bytes :=
  answer.or (if o.empties cmd given then some [] else none)

@[simp] theorem written_some (cmd : Command) (given : List (Option Bytes)) (c : Bytes) :
    o.written cmd given (some c) = some c := rfl

/-- `openssl genpkey -algorithm RSA -out out`. -/
def runGenpkey (out : Path) : Disk Path Bytes := d.write out (o.genpkey r d.seen)

/-- `openssl pkey -in key -pubout -out out`. -/
def runPkey (key out : Path) : Disk Path Bytes :=
  d.output out (o.written .pkey [d.file key] ((d.file key).bind o.pubout))

/-- `openssl aes-256-cbc -pbkdf2 -a -in plain -out out -pass pass:pass`. -/
def runAes (pass : Bytes) (plain out : Path) : Disk Path Bytes :=
  d.output out (o.written .aes [d.file plain] ((d.file plain).map (o.aesEncrypt r pass)))

/-- `openssl rsautl -encrypt -pubin -inkey key -in plain -out out`. -/
def runRsautl (key plain out : Path) : Disk Path Bytes :=
  d.output out (o.written .rsautl [d.file key, d.file plain]
    ((d.file key).bind fun pk => (d.file plain).bind (o.rsaEncrypt r pk)))

/-- `openssl base64 -in plain -out out`. -/
def runBase64 (plain out : Path) : Disk Path Bytes :=
  d.output out (o.written .base64 [d.file plain] ((d.file plain).map o.base64))

end Openssl

/-! ## The functions -/

/-- `FileNotFoundError`. -/
inductive PyError where
  | fileNotFound (p : Path)
  deriving DecidableEq, Repr

/-- `open(p, 'r').read()`. -/
def openRead (d : Disk Path Bytes) (p : Path) : Except PyError Bytes :=
  match d.file p with
  | some c => .ok c
  | none => .error (.fileNotFound p)

/-- `os.path.exists`. -/
def pathExists (d : Disk Path Bytes) (p : Path) : Bool := (d.file p).isSome

section
variable {ρ : Type} (o : Openssl ρ) (r : ρ)

/-- The files are looked for under `.enc` and written under `enc`; the keys read
go into a local variable. -/
def generateKey (d : Disk Path Bytes) : Except PyError (Disk Path Bytes) := do
  let d := if pathExists d ".enc/key.pem" then d else o.runGenpkey d r "enc/key.pem"
  let d := if pathExists d ".enc/publicKey.pem" then d
    else o.runPkey d "enc/key.pem" "enc/publicKey.pem"
  let _ ← openRead d "enc/key.pem"
  let _ ← openRead d "enc/publicKey.pem"
  .ok d

/-- The pair returned and the disk left. The `pass:` string is the text of the command. -/
def encryptMessage (secret : Fin 8 → UInt8) (msg : Bytes) (d : Disk Path Bytes) :
    Except PyError ((Bytes × Bytes) × Disk Path Bytes) := do
  let d := d.write "message" msg
  let d := d.append "enc/password.pem" (hexLine secret)
  let d := o.runAes d r (text "[enc/password.pem]") "message" "enc/encryptedMessage.enc"
  let d := o.runRsautl d r "enc/publicKey.pem" "enc/password.pem" "enc/encryptedPassword.enc"
  let d := o.runBase64 d "enc/encryptedPassword.enc" "enc/encryptedPassword64.enc"
  let d := (d.remove "enc/password.pem").remove "enc/message"
  let message ← openRead d "enc/encryptedMessage.enc"
  let password ← openRead d "enc/encryptedPassword64.enc"
  .ok ((message, password), d)

/-- The result is `None` when the file under `.enc` exists. -/
def getPubKey (d : Disk Path Bytes) : Except PyError (Option Bytes) :=
  if pathExists d ".enc/publicKey.pem" then .ok none
  else do
    let key ← openRead d "enc/publicKey.pem"
    .ok (some key)

end

/-! ## What they touch -/

theorem openRead_ok {d : Disk Path Bytes} {p : Path} {c : Bytes} :
    openRead d p = .ok c ↔ d.file p = some c := by
  unfold openRead
  constructor
  · intro h
    split at h
    · next hf => cases h; exact hf
    · cases h
  · intro h
    rw [h]

section
variable {ρ : Type} {o : Openssl ρ} {r : ρ} {d d' : Disk Path Bytes} {secret : Fin 8 → UInt8}
  {msg : Bytes} {pair : Bytes × Bytes}

/-- The disk once the commands of `encryptMessage` have run. -/
def afterCommands (o : Openssl ρ) (r : ρ) (secret : Fin 8 → UInt8) (msg : Bytes)
    (d : Disk Path Bytes) : Disk Path Bytes :=
  let d := (d.write "message" msg).append "enc/password.pem" (hexLine secret)
  let d := o.runAes d r (text "[enc/password.pem]") "message" "enc/encryptedMessage.enc"
  let d := o.runRsautl d r "enc/publicKey.pem" "enc/password.pem" "enc/encryptedPassword.enc"
  let d := o.runBase64 d "enc/encryptedPassword.enc" "enc/encryptedPassword64.enc"
  (d.remove "enc/password.pem").remove "enc/message"

theorem encryptMessage_eq :
    encryptMessage o r secret msg d =
      (openRead (afterCommands o r secret msg d) "enc/encryptedMessage.enc" >>= fun message =>
        openRead (afterCommands o r secret msg d) "enc/encryptedPassword64.enc" >>= fun password =>
        .ok ((message, password), afterCommands o r secret msg d)) := rfl

theorem encryptMessage_disk (h : encryptMessage o r secret msg d = .ok (pair, d')) :
    d' = afterCommands o r secret msg d := by
  rw [encryptMessage_eq] at h
  obtain ⟨m, -, h⟩ := seq_ok.mp h
  obtain ⟨w, -, h⟩ := seq_ok.mp h
  cases h
  rfl

/-- The files `encryptMessage` names. -/
def encryptPaths : List Path :=
  ["message", "enc/password.pem", "enc/encryptedMessage.enc", "enc/encryptedPassword.enc",
    "enc/encryptedPassword64.enc", "enc/message"]

theorem mem_encryptPaths {p : Path} :
    p ∈ encryptPaths ↔ p = "message" ∨ p = "enc/password.pem" ∨ p = "enc/encryptedMessage.enc" ∨
      p = "enc/encryptedPassword.enc" ∨ p = "enc/encryptedPassword64.enc" ∨ p = "enc/message" := by
  simp only [encryptPaths, List.mem_cons, List.not_mem_nil, or_false]

/-- Every other file is as it was. -/
theorem afterCommands_frame {p : Path} (hp : p ∉ encryptPaths) :
    (afterCommands o r secret msg d).file p = d.file p := by
  simp only [mem_encryptPaths, not_or] at hp
  obtain ⟨h1, h2, h3, h4, h5, h6⟩ := hp
  unfold afterCommands Openssl.runBase64 Openssl.runRsautl Openssl.runAes
  rw [Disk.file_remove_ne _ h6, Disk.file_remove_ne _ h2, Disk.file_output_ne _ _ h5,
    Disk.file_output_ne _ _ h4, Disk.file_output_ne _ _ h3, Disk.file_append_ne _ _ h2,
    Disk.file_write_ne _ _ h1]

theorem encryptMessage_frame (h : encryptMessage o r secret msg d = .ok (pair, d')) {p : Path}
    (hp : p ∉ encryptPaths) : d'.file p = d.file p := by
  rw [encryptMessage_disk h, afterCommands_frame hp]

end

/-! ## What they leave -/

section
variable {ρ : Type} (o : Openssl ρ) (r : ρ) (secret : Fin 8 → UInt8) (msg : Bytes)
  (d : Disk Path Bytes)

/-- The password file `rsautl` is given: the digits behind whatever it held before. -/
def passwordFile : Bytes := (d.file "enc/password.pem").getD [] ++ hexLine secret

/-- What `rsautl` makes of it. -/
def wrapped : Option Bytes :=
  (d.file "enc/publicKey.pem").bind fun pk => o.rsaEncrypt r pk (passwordFile secret d)

/-- What `rsautl` writes. -/
def rsautlWritten : Option Bytes :=
  o.written .rsautl [d.file "enc/publicKey.pem", some (passwordFile secret d)] (wrapped o r secret d)

theorem afterCommands_message : (afterCommands o r secret msg d).file "message" = some msg := by
  simp [afterCommands, Openssl.runAes, Openssl.runRsautl, Openssl.runBase64]

theorem afterCommands_removed {p : Path} (hp : p = "enc/password.pem" ∨ p = "enc/message") :
    (afterCommands o r secret msg d).file p = none := by
  rcases hp with rfl | rfl
  · simp [afterCommands]
  · simp [afterCommands]

theorem afterCommands_encryptedMessage :
    (afterCommands o r secret msg d).file "enc/encryptedMessage.enc" =
      some (o.aesEncrypt r (text "[enc/password.pem]") msg) := by
  simp [afterCommands, Openssl.runAes, Openssl.runRsautl, Openssl.runBase64]

theorem afterCommands_encryptedPassword :
    (afterCommands o r secret msg d).file "enc/encryptedPassword.enc" =
      (rsautlWritten o r secret d).or (d.file "enc/encryptedPassword.enc") := by
  simp [afterCommands, Openssl.runAes, Openssl.runRsautl, Openssl.runBase64, rsautlWritten, wrapped,
    passwordFile]

/-- What `base64` is given is what stands in the file before. -/
theorem afterCommands_encryptedPassword64 (given : Option Bytes)
    (hgiven : given = (rsautlWritten o r secret d).or (d.file "enc/encryptedPassword.enc")) :
    (afterCommands o r secret msg d).file "enc/encryptedPassword64.enc" =
      (o.written .base64 [given] (given.map o.base64)).or (d.file "enc/encryptedPassword64.enc") := by
  subst hgiven
  simp [afterCommands, Openssl.runAes, Openssl.runRsautl, Openssl.runBase64, rsautlWritten, wrapped,
    passwordFile]

end

end CryptoLocker
