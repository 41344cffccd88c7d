import CryptoLocker.Client.Symbolic

/-!
# The key pair on the client's disk

`Client` follows runs of `generateKey`, `getPubKey` and `encryptMessage`, and
remembers the private key from the time the pair is complete. The pair is stable
exactly when the files under `.enc` are there for `generateKey` and not there for
`getPubKey` (`key_pair_stable_iff`).
-/

namespace CryptoLocker

open Lib

/-- `enc/publicKey.pem` is the public key of `enc/key.pem`. -/
def Paired {ρ : Type} (o : Openssl ρ) (d : Disk Path Bytes) : Prop :=
  ((d.file "enc/key.pem").bind o.pubout).isSome ∧
    d.file "enc/publicKey.pem" = (d.file "enc/key.pem").bind o.pubout

instance {ρ : Type} (o : Openssl ρ) (d : Disk Path Bytes) : Decidable (Paired o d) :=
  inferInstanceAs (Decidable (_ ∧ _))

/-- A call of the module, with its arguments and what its commands draw. -/
inductive ClientCall (ρ : Type) where
  | generateKey (r : ρ)
  | getPubKey
  | encryptMessage (r : ρ) (secret : Fin 8 → UInt8) (msg : Bytes)

/-- The disk, the private key it held when the pair was first complete, and what
`getPubKey` has returned since. -/
structure Client where
  disk : Disk Path Bytes
  key : Option Bytes
  answers : List (Option Bytes)

section
variable {ρ : Type} (o : Openssl ρ)

/-- The pair may be on the disk from the start. -/
def Client.start (d : Disk Path Bytes) : Client :=
  ⟨d, if Paired o d then d.file "enc/key.pem" else none, []⟩

def Client.call (c : Client) : ClientCall ρ → Except PyError Client
  | .generateKey r => do
    let d ← generateKey o r c.disk
    .ok { c with disk := d, key := c.key.or (d.file "enc/key.pem") }
  | .getPubKey => do
    let answer ← getPubKey c.disk
    .ok { c with answers := if c.key.isSome then c.answers ++ [answer] else c.answers }
  | .encryptMessage r secret msg => do
    let (_, d) ← encryptMessage o r secret msg c.disk
    .ok { c with disk := d }

/-- From the time the pair is complete the private key is as it was, the public
key is its, and `getPubKey` has returned that. -/
def Client.Stable (c : Client) : Prop :=
  ∀ k, c.key = some k → c.disk.file "enc/key.pem" = some k ∧ Paired o c.disk ∧
    ∀ answer ∈ c.answers, answer = o.pubout k

/-- Nothing has been recorded before the pair was complete. -/
structure Client.Fresh (c : Client) : Prop where
  unpaired : c.key = none → ¬ Paired o c.disk
  answers : c.key = none → c.answers = []

/-- When a call keeps the pair. Before the pair is complete `generateKey` must
write the public key, and of a private key; later the private key must seem to
be there and the public key must not. -/
def KeepsPair (c : Client) : ClientCall ρ → Prop
  | .generateKey _ =>
    match c.key with
    | none => ¬ pathExists c.disk ".enc/publicKey.pem" ∧
      (pathExists c.disk ".enc/key.pem" → ((c.disk.file "enc/key.pem").bind o.pubout).isSome)
    | some _ => pathExists c.disk ".enc/key.pem"
  | .getPubKey => c.key.isSome → ¬ pathExists c.disk ".enc/publicKey.pem"
  | .encryptMessage _ _ _ => True

end

section
variable {ρ : Type} {o : Openssl ρ} {r : ρ} {d d' : Disk Path Bytes} {c c' : Client} {k : Bytes}

/-! ## `generateKey` -/

/-- The disk after the first command. -/
def afterGenpkey (o : Openssl ρ) (r : ρ) (d : Disk Path Bytes) : Disk Path Bytes :=
  if pathExists d ".enc/key.pem" then d else o.runGenpkey d r "enc/key.pem"

theorem pathExists_afterGenpkey :
    pathExists (afterGenpkey o r d) ".enc/publicKey.pem" = pathExists d ".enc/publicKey.pem" := by
  unfold afterGenpkey
  split
  · rfl
  · unfold pathExists Openssl.runGenpkey
    rw [Disk.file_write_ne _ _ (by decide)]

theorem generateKey_ok (h : generateKey o r d = .ok d') :
    d' = (if pathExists d ".enc/publicKey.pem" then afterGenpkey o r d
        else o.runPkey (afterGenpkey o r d) "enc/key.pem" "enc/publicKey.pem") ∧
      (d'.file "enc/key.pem").isSome := by
  obtain ⟨key, hkey, h⟩ := seq_ok.mp h
  obtain ⟨pub, -, h⟩ := seq_ok.mp h
  cases h
  refine ⟨?_, ?_⟩
  · show (if pathExists (afterGenpkey o r d) ".enc/publicKey.pem" then _ else _) = _
    rw [pathExists_afterGenpkey]
    rfl
  · rw [openRead_ok.mp hkey]
    rfl

theorem afterGenpkey_old (hkey : pathExists d ".enc/key.pem") : afterGenpkey o r d = d := if_pos hkey

/-- The key written is new, and so is its public key. -/
theorem afterGenpkey_new (hkey : ¬ pathExists d ".enc/key.pem") :
    ∃ k pk, (afterGenpkey o r d).file "enc/key.pem" = some k ∧ k ∉ d.seen ∧
      o.pubout k = some pk ∧ pk ∉ d.seen ∧
      (afterGenpkey o r d).file "enc/publicKey.pem" = d.file "enc/publicKey.pem" := by
  obtain ⟨pk, hpk, hnew⟩ := o.pubout_genpkey r d.seen
  have hafter : afterGenpkey o r d = o.runGenpkey d r "enc/key.pem" := if_neg hkey
  rw [hafter, Openssl.runGenpkey]
  exact ⟨_, pk, Disk.file_write_self _ _, o.genpkey_fresh r d.seen, hpk, hnew,
    Disk.file_write_ne _ _ (by decide)⟩

theorem runPkey_key : (o.runPkey d "enc/key.pem" "enc/publicKey.pem").file "enc/key.pem" =
    d.file "enc/key.pem" := Disk.file_output_ne _ _ (by decide)

/-- Writing the public key makes a pair of any private key. -/
theorem paired_runPkey : Paired o (o.runPkey d "enc/key.pem" "enc/publicKey.pem") ↔
    ((d.file "enc/key.pem").bind o.pubout).isSome := by
  unfold Paired
  rw [runPkey_key]
  cases hpub : (d.file "enc/key.pem").bind o.pubout with
  | none => exact ⟨And.left, fun h => absurd h nofun⟩
  | some pk =>
    rw [Openssl.runPkey, hpub, Openssl.written_some]
    exact iff_of_true ⟨rfl, Disk.file_write_self _ _⟩ rfl

/-- The first `generateKey` completes the pair or not. -/
theorem generateKey_first (hun : ¬ Paired o d) (h : generateKey o r d = .ok d') :
    Paired o d' ↔ ¬ pathExists d ".enc/publicKey.pem" ∧
      (pathExists d ".enc/key.pem" → ((d.file "enc/key.pem").bind o.pubout).isSome) := by
  obtain ⟨rfl, -⟩ := generateKey_ok h
  by_cases hpub : pathExists d ".enc/publicKey.pem"
  · rw [if_pos hpub]
    refine iff_of_false ?_ fun hc => hc.1 hpub
    by_cases hkey : pathExists d ".enc/key.pem"
    · rwa [afterGenpkey_old hkey]
    · -- the public key on the disk is older than the private key
      obtain ⟨k, pk, hk, -, hpk, hnew, hold⟩ := afterGenpkey_new (o := o) (r := r) hkey
      rintro ⟨-, hp⟩
      rw [hk, hold, Option.bind_some, hpk] at hp
      exact hnew (d.mem_seen _ _ hp)
  · rw [if_neg hpub, paired_runPkey]
    by_cases hkey : pathExists d ".enc/key.pem"
    · rw [afterGenpkey_old hkey]
      exact ⟨fun hs => ⟨hpub, fun _ => hs⟩, fun hc => hc.2 hkey⟩
    · obtain ⟨k, pk, hk, -, hpk, -⟩ := afterGenpkey_new (o := o) (r := r) hkey
      rw [hk, Option.bind_some, hpk]
      exact iff_of_true rfl ⟨hpub, fun hc => absurd hc hkey⟩

/-- A later `generateKey` keeps the private key when it does not write one. -/
theorem generateKey_later (hfile : d.file "enc/key.pem" = some k) (hpair : Paired o d)
    (h : generateKey o r d = .ok d') :
    (d'.file "enc/key.pem" = some k ∧ Paired o d') ↔ pathExists d ".enc/key.pem" := by
  obtain ⟨rfl, -⟩ := generateKey_ok h
  have hsame : (if pathExists d ".enc/publicKey.pem" then afterGenpkey o r d
      else o.runPkey (afterGenpkey o r d) "enc/key.pem" "enc/publicKey.pem").file "enc/key.pem" =
        (afterGenpkey o r d).file "enc/key.pem" := by
    split
    · rfl
    · exact runPkey_key
  rw [hsame]
  by_cases hkey : pathExists d ".enc/key.pem"
  · rw [afterGenpkey_old hkey]
    refine iff_of_true ⟨hfile, ?_⟩ hkey
    split
    · exact hpair
    · exact paired_runPkey.mpr hpair.1
  · obtain ⟨k', pk, hk', hnew, -⟩ := afterGenpkey_new (o := o) (r := r) hkey
    rw [hk']
    refine iff_of_false ?_ hkey
    rintro ⟨he, -⟩
    exact hnew (Option.some.inj he ▸ d.mem_seen _ _ hfile)

/-! ## One call -/

theorem encryptMessage_paired {secret : Fin 8 → UInt8} {msg : Bytes} {pair : Bytes × Bytes}
    (h : encryptMessage o r secret msg d = .ok (pair, d')) :
    d'.file "enc/key.pem" = d.file "enc/key.pem" ∧ (Paired o d' ↔ Paired o d) := by
  have hkey := encryptMessage_frame h (p := "enc/key.pem") (by decide)
  have hpub := encryptMessage_frame h (p := "enc/publicKey.pem") (by decide)
  refine ⟨hkey, ?_⟩
  unfold Paired
  rw [hkey, hpub]

theorem getPubKey_ok {answer : Option Bytes} (h : getPubKey d = .ok answer) :
    answer = if pathExists d ".enc/publicKey.pem" then none else d.file "enc/publicKey.pem" := by
  unfold getPubKey at h
  split at h
  · next hp =>
    cases h
    exact (if_pos hp).symm
  · next hp =>
    obtain ⟨key, hkey, h⟩ := seq_ok.mp h
    cases h
    rw [if_neg hp, openRead_ok.mp hkey]

/-- With a pair on the disk the answer is its public key, unless the other path exists. -/
theorem getPubKey_paired {answer : Option Bytes} (hfile : d.file "enc/key.pem" = some k)
    (hpair : Paired o d) (h : getPubKey d = .ok answer) :
    answer = o.pubout k ↔ ¬ pathExists d ".enc/publicKey.pem" := by
  have hpub : d.file "enc/publicKey.pem" = o.pubout k := by
    rw [hpair.2, hfile, Option.bind_some]
  have hsome : (o.pubout k).isSome := by
    have := hpair.1
    rwa [hfile, Option.bind_some] at this
  rw [getPubKey_ok h]
  by_cases hexists : pathExists d ".enc/publicKey.pem"
  · rw [if_pos hexists]
    refine iff_of_false (fun hnone => ?_) (fun hno => hno hexists)
    rw [← hnone] at hsome
    cases hsome
  · rw [if_neg hexists]
    exact iff_of_true hpub hexists

theorem Client.stable_of_key {k : Bytes} (hk : c.key = some k) :
    c.Stable o ↔ c.disk.file "enc/key.pem" = some k ∧ Paired o c.disk ∧
      ∀ answer ∈ c.answers, answer = o.pubout k := by
  constructor
  · exact fun h => h k hk
  · rintro h k' hk'
    cases hk.symm.trans hk'
    exact h

theorem Client.fresh_start (o : Openssl ρ) (d : Disk Path Bytes) : (Client.start o d).Fresh o := by
  refine ⟨fun hnone hpair => ?_, fun _ => rfl⟩
  have hfile : d.file "enc/key.pem" = none := (if_pos hpair).symm.trans hnone
  have hsome := hpair.1
  rw [show (Client.start o d).disk = d from rfl, hfile] at hsome
  cases hsome

theorem Client.stable_start (o : Openssl ρ) (d : Disk Path Bytes) : (Client.start o d).Stable o := by
  intro k hk
  by_cases hpair : Paired o d
  · exact ⟨(if_pos hpair).symm.trans hk, hpair, nofun⟩
  · cases (if_neg hpair).symm.trans hk

theorem Client.fresh_call {i : ClientCall ρ} (hc : c.Fresh o) (h : c.call o i = .ok c') :
    c'.Fresh o := by
  cases i with
  | generateKey r =>
    obtain ⟨d, hd, h⟩ := seq_ok.mp h
    cases h
    -- the private key has been read
    have hsome : (c.key.or (d.file "enc/key.pem")).isSome := by
      rw [Option.isSome_or, (generateKey_ok hd).2, Bool.or_true]
    refine ⟨fun hnone => ?_, fun hnone => ?_⟩
    · exact absurd hsome (by rw [show c.key.or _ = none from hnone]; nofun)
    · exact absurd hsome (by rw [show c.key.or _ = none from hnone]; nofun)
  | getPubKey =>
    obtain ⟨answer, -, h⟩ := seq_ok.mp h
    cases h
    refine ⟨hc.unpaired, fun hnone => ?_⟩
    have hno : c.key.isSome = false := by rw [show c.key = none from hnone]; rfl
    simp only [hno]
    exact hc.answers hnone
  | encryptMessage r secret msg =>
    obtain ⟨⟨pair, d⟩, hd, h⟩ := seq_ok.mp h
    cases h
    exact ⟨fun hnone hp => hc.unpaired hnone ((encryptMessage_paired hd).2.mp hp), hc.answers⟩

theorem Client.stable_generateKey_iff (hf : c.Fresh o) (hs : c.Stable o)
    (h : c.call o (.generateKey r) = .ok c') : c'.Stable o ↔ KeepsPair o c (.generateKey r) := by
  obtain ⟨d, hd, h⟩ := seq_ok.mp h
  cases h
  cases hkey : c.key with
  | none =>
    obtain ⟨k, hk⟩ := Option.isSome_iff_exists.mp (generateKey_ok hd).2
    have hafter : (none : Option Bytes).or (d.file "enc/key.pem") = some k := hk
    rw [Client.stable_of_key hafter, hf.answers hkey]
    unfold KeepsPair
    rw [hkey]
    show _ ↔ _ ∧ _
    rw [← generateKey_first (hf.unpaired hkey) hd]
    exact ⟨fun h => h.2.1, fun h => ⟨hk, h, nofun⟩⟩
  | some k =>
    obtain ⟨hfile, hpair, hanswers⟩ := hs k hkey
    rw [Client.stable_of_key (show (some k).or (d.file "enc/key.pem") = some k from rfl)]
    unfold KeepsPair
    rw [hkey]
    show _ ↔ pathExists c.disk ".enc/key.pem" = true
    rw [← generateKey_later hfile hpair hd]
    exact ⟨fun h => ⟨h.1, h.2.1⟩, fun h => ⟨h.1, h.2, hanswers⟩⟩

theorem Client.stable_getPubKey_iff (hs : c.Stable o) (h : c.call o .getPubKey = .ok c') :
    c'.Stable o ↔ KeepsPair o c .getPubKey := by
  obtain ⟨answer, ha, h⟩ := seq_ok.mp h
  cases h
  cases hkey : c.key with
  | none =>
    refine iff_of_true (fun k hk => ?_) fun hsome => ?_
    · cases (show (none : Option Bytes) = some k from hk)
    · rw [hkey] at hsome
      cases hsome
  | some k =>
    obtain ⟨hfile, hpair, hanswers⟩ := hs k hkey
    have hkeeps : KeepsPair o c .getPubKey ↔ ¬ pathExists c.disk ".enc/publicKey.pem" :=
      ⟨fun h => h (by rw [hkey]; rfl), fun h _ => h⟩
    rw [Client.stable_of_key (show _ = some k from rfl), hkeeps, ← getPubKey_paired hfile hpair ha]
    constructor
    · rintro ⟨-, -, hall⟩
      exact hall answer (List.mem_append_right _ (List.mem_singleton_self answer))
    · intro hanswer
      refine ⟨hfile, hpair, fun a hmem => ?_⟩
      rcases List.mem_append.mp hmem with hmem | hmem
      · exact hanswers a hmem
      · rw [List.mem_singleton.mp hmem, hanswer]

theorem Client.stable_encryptMessage {secret : Fin 8 → UInt8} {msg : Bytes} (hs : c.Stable o)
    (h : c.call o (.encryptMessage r secret msg) = .ok c') : c'.Stable o := by
  obtain ⟨⟨pair, d⟩, hd, h⟩ := seq_ok.mp h
  cases h
  obtain ⟨hfile, hpair⟩ := encryptMessage_paired hd
  intro k hk
  obtain ⟨hfile₀, hpair₀, hanswers⟩ := hs k hk
  exact ⟨hfile.trans hfile₀, hpair.mpr hpair₀, hanswers⟩

/-- One call keeps the pair stable exactly when it meets the condition. -/
theorem Client.stable_call_iff {i : ClientCall ρ} (hf : c.Fresh o) (hs : c.Stable o)
    (h : c.call o i = .ok c') : c'.Stable o ↔ KeepsPair o c i := by
  cases i with
  | generateKey r => exact Client.stable_generateKey_iff hf hs h
  | getPubKey => exact Client.stable_getPubKey_iff hs h
  | encryptMessage r secret msg =>
    exact iff_of_true (Client.stable_encryptMessage hs h) trivial

end

/-- **The key pair.** Along a run of calls that completes the pair is stable
exactly when every call keeps it. -/
theorem key_pair_stable_iff {ρ : Type} (o : Openssl ρ) (d : Disk Path Bytes)
    (calls : List (ClientCall ρ)) (c : Client)
    (h : runFrom (Client.call o) (Client.start o d) calls = .ok c) :
    (∀ c', Reaches (Client.call o) (Client.start o d) calls c' → c'.Stable o) ↔
      Along (Client.call o) (KeepsPair o) (Client.start o d) calls :=
  forall_reaches_iff_along_of_ok (fun _ _ _ => Client.fresh_call)
    (fun _ _ _ => Client.stable_call_iff) (Client.fresh_start o d) (Client.stable_start o d) h

/-- The start-up of `client.py` on an empty disk. -/
theorem key_pair_start_up :
    ∃ c, runFrom (Client.call Openssl.symbolic) (Client.start Openssl.symbolic Disk.empty)
        [.generateKey (), .getPubKey] = .ok c ∧
      ∀ c, Reaches (Client.call Openssl.symbolic) (Client.start Openssl.symbolic Disk.empty)
        [.generateKey (), .getPubKey] c → c.Stable Openssl.symbolic := by
  refine ⟨_, rfl, (key_pair_stable_iff Openssl.symbolic Disk.empty _ _ rfl).mpr
    ⟨⟨by decide, nofun⟩, fun c h => ?_⟩⟩
  cases (show Client.call Openssl.symbolic (Client.start Openssl.symbolic Disk.empty)
    (.generateKey ()) = .ok _ from rfl).symm.trans h
  exact ⟨fun _ => by decide, fun _ _ => trivial⟩

/-- `pkey` on no key of its own making: the call completes with an empty public key. -/
example : ∃ c, (Client.start Openssl.symbolic
      (Disk.ofList [(".enc/key.pem", []), ("enc/key.pem", [7])])).call Openssl.symbolic
        (.generateKey ()) = .ok c ∧ c.disk.file "enc/publicKey.pem" = some [] :=
  ⟨_, rfl, by decide⟩

/-- The client starts twice: the second start writes another private key. -/
theorem key_pair_replaced :
    ∃ c₁ c₂, runFrom (Client.call Openssl.symbolic) (Client.start Openssl.symbolic Disk.empty)
          [.generateKey (), .getPubKey] = .ok c₁ ∧
      runFrom (Client.call Openssl.symbolic) (Client.start Openssl.symbolic Disk.empty)
          [.generateKey (), .getPubKey, .generateKey (), .getPubKey] = .ok c₂ ∧
      c₁.disk.file "enc/key.pem" = some [1, 0] ∧ c₂.disk.file "enc/key.pem" = some [1, 0, 0] ∧
      ¬ c₂.Stable Openssl.symbolic := by
  refine ⟨_, _, rfl, rfl, by decide, by decide, fun h => ?_⟩
  exact absurd (h [1, 0] (by decide)).1 (by decide)

end CryptoLocker
