import CryptoLocker.Locker.Reads

/-!
# Writing to a `WiFiClient`

`write(buf, size)` of `WiFiClient.cpp` hands its bytes to `send` piece by piece.
Each pass of its loop waits in `select` and costs one of ten retries, which a
pass that sent something gives back. `write_account` says for every behaviour
of the link what went out, what is reported and after how many passes;
`write_complete` when everything goes out.
-/

namespace CryptoLocker

/-- How a pass of the loop comes out; `takes n` is a `send` with room for `n + 1` bytes. -/
inductive Pass where
  | selectError
  | notReady
  | takes (n : Nat)
  | wouldBlock
  | error
  deriving DecidableEq

/-- `WIFI_CLIENT_MAX_WRITE_RETRY`. -/
def maxWriteRetry : Nat := 10

/-- What `write` did: its result, the bytes that went out, whether it stopped the
client, and the number of its passes. -/
structure Written where
  res : Nat
  sent : List UInt8
  stopped : Bool
  passes : Nat
  deriving DecidableEq

/-- The loop, at the pass `k`, with the bytes `sent` so far and those still to go. -/
def writeLoop (link : Nat → Pass) (k retry : Nat) (sent left : List UInt8) : Written :=
  match retry with
  | 0 => ⟨sent.length, sent, false, k⟩
  | retry + 1 =>
    match link k with
    | .selectError => ⟨0, sent, false, k + 1⟩
    | .notReady | .wouldBlock => writeLoop link (k + 1) retry sent left
    | .error => ⟨sent.length, sent, true, k + 1⟩
    | .takes n =>
      -- of no bytes `send` takes none, and the loop tries again
      if left = [] then writeLoop link (k + 1) retry sent left
      else if left.length ≤ n + 1 then ⟨(sent ++ left).length, sent ++ left, false, k + 1⟩
      else writeLoop link (k + 1) maxWriteRetry (sent ++ left.take (n + 1)) (left.drop (n + 1))
termination_by (left.length, retry)
decreasing_by
  all_goals first
    | exact Prod.Lex.right _ (Nat.lt_succ_self _)
    | refine Prod.Lex.left _ _ ?_
      rw [List.length_drop]
      omega

/-- `write(buf, size)`; a client without a connection writes nothing. -/
def WiFiClient.write (c : WiFiClient) (link : Nat → Pass) (data : List UInt8) : Written × WiFiClient :=
  match c.rx with
  | none => (⟨0, [], false, 0⟩, c)
  | some _ =>
    let w := writeLoop link 0 maxWriteRetry [] data
    (w, if w.stopped then c.stop else c)

/-- A pass that sends nothing and breaks nothing. -/
def Pass.Idle : Pass → Prop
  | .notReady | .wouldBlock => True
  | _ => False

/-- How the loop ended: everything went out; a failed `select`, which forgets what did; a failed
`send`; or ten passes in a row for nothing. -/
inductive Written.Ended (link : Nat → Pass) (data : List UInt8) : Written → Prop where
  | complete {k : Nat} : data ≠ [] → Written.Ended link data ⟨data.length, data, false, k + 1⟩
  | selectFailed {sent : List UInt8} {k : Nat} :
      link k = .selectError → Written.Ended link data ⟨0, sent, false, k + 1⟩
  | sendFailed {sent : List UInt8} {k : Nat} :
      link k = .error → Written.Ended link data ⟨sent.length, sent, true, k + 1⟩
  | gaveUp {sent : List UInt8} {k : Nat} :
      sent ≠ data ∨ data = [] → (data ≠ [] → ∀ j < maxWriteRetry, (link (k + j)).Idle) →
      Written.Ended link data ⟨sent.length, sent, false, k + maxWriteRetry⟩

section
variable {link : Nat → Pass} {k retry : Nat} {sent left data : List UInt8}

/-- The passes since the last one that sent something: `maxWriteRetry - retry`, all idle. -/
def IdleSince (link : Nat → Pass) (k retry : Nat) : Prop :=
  ∀ j < maxWriteRetry - retry, (link (k + retry - maxWriteRetry + j)).Idle

theorem IdleSince.next (h : IdleSince link k (retry + 1)) (hk : maxWriteRetry ≤ k + (retry + 1))
    (hidle : (link k).Idle) : IdleSince link (k + 1) retry := by
  intro j hj
  rw [show k + 1 + retry = k + (retry + 1) by omega]
  by_cases hlast : j < maxWriteRetry - (retry + 1)
  · exact h j hlast
  · rwa [show k + (retry + 1) - maxWriteRetry + j = k by omega]

theorem idleSince_reset : IdleSince link k maxWriteRetry := by
  intro j hj
  rw [Nat.sub_self] at hj
  exact absurd hj (Nat.not_lt_zero j)

theorem one_pass {n : Nat} : k + 1 ≤ k + (retry + 1) + n := by omega

/-- The loop with `left` to go of `data`. -/
theorem writeLoop_spec (hdata : sent ++ left = data) (hk : maxWriteRetry ≤ k + retry)
    (hidle : data ≠ [] → left ≠ [] ∧ IdleSince link k retry) :
    (writeLoop link k retry sent left).sent <+: data ∧
      (writeLoop link k retry sent left).passes ≤ k + retry + maxWriteRetry * (left.length - 1) ∧
      (writeLoop link k retry sent left).Ended link data := by
  fun_induction writeLoop link k retry sent left with
  | case1 k sent left =>
    refine ⟨⟨left, hdata⟩, Nat.le_add_right _ _, ?_⟩
    obtain ⟨start, rfl⟩ : ∃ start, k = start + maxWriteRetry := ⟨k - maxWriteRetry, by omega⟩
    refine .gaveUp ?_ fun hne j hj => ?_
    · by_cases hne : data = []
      · exact .inr hne
      · exact .inl fun heq => (hidle hne).1 (List.self_eq_append_right.mp (heq.trans hdata.symm))
    · have h := (hidle hne).2 j hj
      rwa [show start + maxWriteRetry + 0 - maxWriteRetry + j = start + j by omega] at h
  | case2 k sent left retry hlink => exact ⟨⟨left, hdata⟩, one_pass, .selectFailed hlink⟩
  | case3 k sent left retry hlink ih =>
    obtain ⟨hpre, hpasses, hended⟩ := ih hdata (by omega) fun hne =>
      ⟨(hidle hne).1, (hidle hne).2.next hk (by rw [hlink]; trivial)⟩
    exact ⟨hpre, by omega, hended⟩
  | case4 k sent left retry hlink ih =>
    obtain ⟨hpre, hpasses, hended⟩ := ih hdata (by omega) fun hne =>
      ⟨(hidle hne).1, (hidle hne).2.next hk (by rw [hlink]; trivial)⟩
    exact ⟨hpre, by omega, hended⟩
  | case5 k sent left retry hlink => exact ⟨⟨left, hdata⟩, one_pass, .sendFailed hlink⟩
  | case6 k sent retry n hlink ih =>
    obtain ⟨hpre, hpasses, hended⟩ := ih hdata (by omega) fun hne => absurd rfl (hidle hne).1
    exact ⟨hpre, by omega, hended⟩
  | case7 k sent left retry n hlink hleft hall =>
    subst hdata
    exact ⟨List.prefix_rfl, one_pass, .complete fun hnil => hleft (List.append_eq_nil_iff.mp hnil).2⟩
  | case8 k sent left retry n hlink hleft hsome ih =>
    obtain ⟨hpre, hpasses, hended⟩ := ih (by rw [List.append_assoc, List.take_append_drop, hdata])
      (by omega) fun hne => ⟨by rw [Ne, List.drop_eq_nil_iff]; exact hsome, idleSince_reset⟩
    refine ⟨hpre, hpasses.trans ?_, hended⟩
    rw [List.length_drop, maxWriteRetry]
    omega

end

/-- A link that breaks at no pass and takes something in any ten. -/
structure Fair (link : Nat → Pass) : Prop where
  sound : ∀ k, link k ≠ .selectError ∧ link k ≠ .error
  often : ∀ k, ∃ j < maxWriteRetry, ¬ (link (k + j)).Idle

/-- A byte at a time, at every tenth pass. -/
def slowLink (k : Nat) : Pass := if k % 10 = 9 then .takes 0 else .notReady

theorem fair_slowLink : Fair slowLink where
  sound k := by
    unfold slowLink
    split <;> exact ⟨nofun, nofun⟩
  often k := by
    refine ⟨9 - k % 10, by rw [maxWriteRetry]; omega, ?_⟩
    rw [slowLink, if_pos (by omega)]
    exact id

/-- **Writing.** However the link behaves, `write` comes back within ten passes for each byte, what went out
is a prefix of the data, and the result is its length unless a `select` failed: then it is 0,
whatever went out. -/
theorem write_account (c : WiFiClient) (link : Nat → Pass) (data : List UInt8) (hc : c.rx.isSome) :
    (c.write link data).1.sent <+: data ∧
      (c.write link data).1.passes ≤ maxWriteRetry * max 1 data.length ∧
      (c.write link data).1.Ended link data ∧
      ((c.write link data).2 = if (c.write link data).1.stopped then c.stop else c) := by
  obtain ⟨rx, hrx⟩ := Option.isSome_iff_exists.mp hc
  unfold WiFiClient.write
  rw [hrx]
  obtain ⟨hpre, hpasses, hended⟩ := writeLoop_spec (List.nil_append data)
    (Nat.zero_add maxWriteRetry).ge fun hne => ⟨hne, @idleSince_reset link 0⟩
  refine ⟨hpre, hpasses.trans ?_, hended, rfl⟩
  rw [maxWriteRetry]
  omega

theorem write_account_poll :
    ((WiFiClient.connected twoSegments).write slowLink ESP32_LOCKER.bytes).1.passes ≤ 120 :=
  (write_account (WiFiClient.connected twoSegments) slowLink ESP32_LOCKER.bytes rfl).2.1

/-- **Patience.** Over a fair link `write` sends all of the data, however small the pieces that `send`
takes, and leaves the client open. -/
theorem write_complete (c : WiFiClient) (link : Nat → Pass) (data : List UInt8) (hc : c.rx.isSome)
    (hlink : Fair link) :
    (c.write link data).1.sent = data ∧ (c.write link data).1.res = data.length ∧
      (c.write link data).2 = c := by
  obtain ⟨rx, hrx⟩ := Option.isSome_iff_exists.mp hc
  unfold WiFiClient.write
  rw [hrx]
  obtain ⟨hpre, -, hended⟩ := writeLoop_spec (List.nil_append data)
    (Nat.zero_add maxWriteRetry).ge fun hne => ⟨hne, @idleSince_reset link 0⟩
  simp only
  generalize writeLoop link 0 maxWriteRetry [] data = w at hpre hended ⊢
  cases hended with
  | complete hne => exact ⟨rfl, rfl, rfl⟩
  | selectFailed hk => exact absurd hk (hlink.sound _).1
  | sendFailed hk => exact absurd hk (hlink.sound _).2
  | gaveUp hsent hidle =>
    by_cases hne : data = []
    · subst hne
      obtain rfl := List.prefix_nil.mp hpre
      exact ⟨rfl, rfl, rfl⟩
    · obtain ⟨j, hj, hbusy⟩ := hlink.often _
      exact absurd (hidle hne j hj) hbusy

end CryptoLocker
