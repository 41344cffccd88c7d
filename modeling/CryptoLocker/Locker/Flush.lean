import CryptoLocker.Locker.Quiet

/-!
# Flushing a client

`WiFiClient::flush` means to drop what there is to read. It counts the bytes
with `available()`, those in the receive buffer among them, and then takes as
many from the socket alone. With bytes in the buffer the socket runs out: then
`flush` stops the client at the first `recv` that fails, and goes round as long
as `recv` gives 0 (`flush_quiet`).
-/

namespace CryptoLocker

open Lib

/-- `while (a)`. `eof k` says that `recv` gives 0 when it is called on the empty socket for the time `k`, as
it may when the peer has closed; else it fails. -/
def WiFiClient.flushLoop : Nat → Nat → (Nat → Bool) → WiFiClient → Except Fault WiFiClient
  | _, 0, _, c => .ok c
  | 0, _ + 1, _, _ => .error .diverges
  | fuel + 1, a + 1, eof, c =>
    match c.rx with
    | none => .ok c.stop
    | some rx =>
      let toRead := if 1024 < a + 1 then 1024 else a + 1
      if c.sock.next.queue = [] then
        if eof 0 then flushLoop fuel (a + 1) (fun k => eof (k + 1)) ⟨some rx, c.sock.next⟩
        else .ok (⟨some rx, c.sock.next⟩ : WiFiClient).stop
      else
        match c.sock.tick.recv with
        | .upTo n =>
          let res := (c.sock.next.queue.take (min (n + 1) toRead)).length
          flushLoop fuel (a + 1 - res) eof ⟨some rx, c.sock.next.received res⟩
        | _ => .ok (⟨some rx, c.sock.next⟩ : WiFiClient).stop

/-- `flush`, where `malloc` gives a buffer or not. -/
def WiFiClient.flush (c : WiFiClient) (malloc : Bool) (eof : Nat → Bool) (fuel : Nat) :
    Except Fault WiFiClient :=
  let (a, c) := c.available
  if a = 0 then .ok c
  else if ¬ malloc then .ok c
  else WiFiClient.flushLoop fuel a eof c

section
variable {c : WiFiClient} {sock : Socket} {eof : Nat → Bool} {a fuel k : Nat}

/-- A turn on a quiet network takes bytes as long as there are any. -/
theorem WiFiClient.flushLoop_take (rx : RxBuffer) (hq : sock.Quiet) (hne : sock.queue ≠ [])
    (ha : sock.queue.length ≤ a) (eof : Nat → Bool) (fuel : Nat) :
    ∃ k sock', 0 < k ∧ k ≤ sock.queue.length ∧ sock'.Quiet ∧ sock'.queue.length = sock.queue.length - k ∧
      WiFiClient.flushLoop (fuel + 1) a eof ⟨some rx, sock⟩ =
        WiFiClient.flushLoop fuel (a - k) eof ⟨some rx, sock'⟩ := by
  obtain ⟨-, -, -, n, hrecv, hn⟩ := hq 0
  have hpos := List.length_pos_of_ne_nil hne
  obtain ⟨hqueue, hquiet⟩ := hq.next
  cases a with
  | zero => omega
  | succ a =>
    obtain ⟨k, hk⟩ : ∃ k, k = (sock.queue.take (min (n + 1) (if 1024 < a + 1 then 1024 else a + 1))).length :=
      ⟨_, rfl⟩
    refine ⟨k, sock.next.received k, ?_, ?_, hquiet.quiet.received k, ?_, ?_⟩
    · rw [hk, List.length_take]
      split <;> omega
    · rw [hk]
      exact List.length_take_le' _ _
    · show (sock.next.queue.drop k).length = _
      rw [List.length_drop, hqueue]
    · conv_lhs => unfold WiFiClient.flushLoop
      dsimp only
      rw [if_neg (by rwa [hqueue]), show sock.tick.recv = .upTo n from hrecv]
      dsimp only
      rw [hqueue, ← hk]

theorem WiFiClient.flushLoop_zero : WiFiClient.flushLoop fuel 0 eof c = .ok c := by
  cases fuel <;> rfl

/-- A turn on a socket that is empty goes round or stops the client. -/
theorem WiFiClient.flushLoop_dry (rx : RxBuffer) (hq : sock.Quiet) (hnil : sock.queue = []) (ha : 0 < a)
    (eof : Nat → Bool) (fuel : Nat) :
    sock.next.Quiet ∧ sock.next.queue = [] ∧
      WiFiClient.flushLoop (fuel + 1) a eof ⟨some rx, sock⟩ =
        if eof 0 then WiFiClient.flushLoop fuel a (fun k => eof (k + 1)) ⟨some rx, sock.next⟩
        else .ok ⟨none, sock.next⟩ := by
  obtain ⟨hqueue, hquiet⟩ := hq.next
  have hnext : sock.next.queue = [] := hqueue.trans hnil
  obtain ⟨b, rfl⟩ := Nat.exists_eq_succ_of_ne_zero ha.ne'
  refine ⟨hquiet.quiet, hnext, ?_⟩
  conv_lhs => unfold WiFiClient.flushLoop
  dsimp only
  rw [if_pos hnext]
  rfl

/-- The loop drops what the socket holds. If that was all it counted it is through, else it waits for a
`recv` to fail. -/
theorem WiFiClient.flushLoop_quiet (rx : RxBuffer) (hq : sock.Quiet) (ha : sock.queue.length ≤ a)
    (eof : Nat → Bool) (fuel : Nat) :
    (sock.queue.length = a → a ≤ fuel → ∃ sock', sock'.queue = [] ∧
        WiFiClient.flushLoop fuel a eof ⟨some rx, sock⟩ = .ok ⟨some rx, sock'⟩) ∧
      (sock.queue.length < a → eof k = false → sock.queue.length + k < fuel →
        ∃ sock', sock'.queue = [] ∧ WiFiClient.flushLoop fuel a eof ⟨some rx, sock⟩ = .ok ⟨none, sock'⟩) ∧
      (sock.queue.length < a → (∀ k, eof k = true) →
        WiFiClient.flushLoop fuel a eof ⟨some rx, sock⟩ = .error .diverges) := by
  induction fuel generalizing a sock eof k with
  | zero =>
    refine ⟨fun hlen hle => ?_, fun _ _ h => by omega, fun hlt _ => ?_⟩
    · obtain rfl : a = 0 := Nat.le_zero.mp hle
      exact ⟨sock, List.eq_nil_of_length_eq_zero hlen, rfl⟩
    · obtain ⟨b, rfl⟩ := Nat.exists_eq_succ_of_ne_zero (show a ≠ 0 by omega)
      rfl
  | succ fuel ih =>
    by_cases hnil : sock.queue = []
    · have hlen : sock.queue.length = 0 := by rw [hnil]; rfl
      refine ⟨fun h _ => ⟨sock, hnil, ?_⟩, fun hlt hk hf => ?_, fun hlt he => ?_⟩
      · obtain rfl : a = 0 := by omega
        exact WiFiClient.flushLoop_zero
      · obtain ⟨hquiet, hnext, hturn⟩ := WiFiClient.flushLoop_dry rx hq hnil
          (show 0 < a by omega) eof fuel
        have hnlen : sock.next.queue.length = 0 := by rw [hnext]; rfl
        rw [hturn]
        split
        · next h0 =>
          -- this `recv` has given 0, so the one that fails is a later one
          obtain ⟨j, rfl⟩ := Nat.exists_eq_succ_of_ne_zero (show k ≠ 0 by
            rintro rfl
            exact Bool.false_ne_true (hk.symm.trans h0))
          exact (ih hquiet (by omega) (fun k => eof (k + 1))).2.1 (by omega) hk (by omega)
        · exact ⟨sock.next, hnext, rfl⟩
      · obtain ⟨hquiet, hnext, hturn⟩ := WiFiClient.flushLoop_dry rx hq hnil
          (show 0 < a by omega) eof fuel
        have hnlen : sock.next.queue.length = 0 := by rw [hnext]; rfl
        rw [hturn, if_pos (he 0)]
        exact (ih (k := 0) hquiet (by omega) (fun k => eof (k + 1))).2.2 (by omega) fun k => he (k + 1)
    · obtain ⟨n, sock', hpos, hle, hquiet, hlen, hturn⟩ :=
        WiFiClient.flushLoop_take rx hq hnil ha eof fuel
      rw [hturn]
      obtain ⟨h1, h2, h3⟩ := @ih sock' (a - n) k hquiet (by omega) eof
      exact ⟨fun h hf => h1 (by omega) (by omega), fun hlt hk hf => h2 (by omega) hk (by omega),
        fun hlt he => h3 (by omega) he⟩

end

/-- **Flushing.** After any calls, with the network quiet from now on: `flush`, if it gets its memory, drops
all there is to read when the receive buffer is empty. When it is not, `flush` drops what is on the socket
and stops the client as soon as a `recv` of the empty socket fails, and never returns if none does. Without
its memory it drops nothing. -/
theorem flush_quiet (network : Nat → Tick) (ops : List ReadOp) (out : List UInt8) (c : WiFiClient)
    (rx : RxBuffer) (hrun : runOut WiFiClient.step (WiFiClient.connected network) ops = .ok (out, c))
    (hc : c.rx = some rx) (hq : c.sock.Quiet) (eof : Nat → Bool) (fuel : Nat) :
    (rx.pending = [] → c.sock.queue.length ≤ fuel →
        ∃ c', c.flush true eof fuel = .ok c' ∧ c'.rx = some rx ∧ c'.sock.queue = []) ∧
      (rx.pending ≠ [] →
        (∀ k, eof k = false → c.sock.queue.length + k < fuel →
          ∃ c', c.flush true eof fuel = .ok c' ∧ c'.rx = none ∧ c'.sock.queue = []) ∧
        ((∀ k, eof k = true) → c.flush true eof fuel = .error .diverges)) ∧
      ∃ c', c.flush false eof fuel = .ok c' ∧ c'.rx = some rx ∧ c'.sock.queue = c.sock.queue := by
  obtain ⟨out', c', hrun', hinv, -⟩ := WiFiClient.steady.run (WiFiClient.inv_connected network) ops
  cases hrun'.symm.trans hrun
  obtain ⟨hrx, hfailed⟩ := hinv rx hc
  obtain ⟨hqueue, hquiet⟩ := hq.next
  have hlen := hrx.length_pending
  have havail : c.available = (rx.pending.length + c.sock.queue.length, ⟨some rx, c.sock.next⟩) := by
    have hioctl : c.sock.tick.ioctl := (hq 0).2.2.1
    unfold WiFiClient.available RxBuffer.available RxBuffer.rAvailable WiFiClient.check
    rw [hc]
    dsimp only
    rw [if_pos hioctl]
    dsimp only
    rw [hfailed, if_neg Bool.false_ne_true, hqueue, hlen]
  have hnext : c.sock.next.queue.length = c.sock.queue.length := congrArg List.length hqueue
  have hle : c.sock.next.queue.length ≤ rx.pending.length + c.sock.queue.length := by omega
  have hloop := fun k => WiFiClient.flushLoop_quiet (k := k) rx hquiet.quiet hle eof fuel
  unfold WiFiClient.flush
  rw [havail]
  dsimp only
  rw [if_neg (not_not.mpr rfl), if_pos Bool.false_ne_true]
  refine ⟨fun hnil hfuel => ?_, fun hne => ?_, ?_⟩
  · have hzero : rx.pending.length = 0 := by rw [hnil]; rfl
    obtain ⟨sock', hempty, heq⟩ := (hloop 0).1 (by omega) (by omega)
    split
    · exact ⟨_, rfl, rfl, List.eq_nil_of_length_eq_zero (by dsimp only; omega)⟩
    · exact ⟨_, heq, rfl, hempty⟩
  · have hpos := List.length_pos_of_ne_nil hne
    rw [if_neg (by omega)]
    refine ⟨fun k hk hfuel => ?_, fun he => (hloop 0).2.2 (by omega) he⟩
    obtain ⟨sock', hempty, heq⟩ := (hloop k).2.1 (by omega) hk (by omega)
    exact ⟨_, heq, rfl, hempty⟩
  · split <;> exact ⟨_, rfl, rfl, hqueue⟩

/-- With "bc" in the buffer and "de" on the socket, `flush` stops the client, also where the peer has
closed and one `recv` gives 0 before the next one fails. -/
theorem flush_quiet_stops :
    ∃ c rx c', runOut WiFiClient.step (WiFiClient.connected twoSegments) [.readByte, .available] =
        .ok ((lit "a").bytes, c) ∧ c.rx = some rx ∧ rx.pending = (lit "bc").bytes ∧
      c.flush true (· = 0) 4 = .ok c' ∧ c'.rx = none := by
  obtain ⟨c', h, hstopped, -⟩ := ((flush_quiet twoSegments [.readByte, .available] (lit "a").bytes _ _ rfl rfl
    (fun k => ⟨rfl, rfl, rfl, 9, rfl, by decide⟩) (· = 0) 4).2.1 (by decide)).1 1 (by decide) (by decide)
  exact ⟨_, _, c', rfl, rfl, by decide, h, hstopped⟩

end CryptoLocker
