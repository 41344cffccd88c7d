import CryptoLocker.Locker.Reads

/-!
# Reading from a quiet network

While no bytes arrive and no call fails, a fill takes all there is room for
(`fillBuffer_quiet`) and `read` hands out everything there is, up to its limit.
The exception is `RxBuffer.Short`: the free part of the block would hold what
is missing, the socket has less than that, and `read` gives only what was in
the buffer (`read_quiet`).
-/

namespace CryptoLocker

open Lib

/-- No more bytes arrive, no call fails, and `recv` gives all it can. -/
def Socket.Quiet (sock : Socket) : Prop :=
  ∀ k, (sock.network k).arrives = [] ∧ (sock.network k).malloc ∧ (sock.network k).ioctl ∧
    ∃ n, (sock.network k).recv = .upTo n ∧ sock.queue.length ≤ n + 1

/-- The network is quiet and nothing has arrived since `sock`. -/
structure Socket.QuietSince (sock' sock : Socket) : Prop where
  quiet : sock'.Quiet
  arrived : sock'.arrived = sock.arrived

/-- The bytes the next fill has room for. -/
def RxBuffer.room (rx : RxBuffer) : Nat := rx.size - rx.reset.fill

/-- Fewer bytes than asked for are there, and the block has room for the missing ones. -/
structure RxBuffer.Short (rx : RxBuffer) (len : Nat) (sock : Socket) : Prop where
  nonempty : rx.pending ≠ []
  few : rx.pending.length + sock.queue.length < len
  room : len - rx.pending.length ≤ rx.size - rx.fill

instance (rx : RxBuffer) (len : Nat) (sock : Socket) : Decidable (rx.Short len sock) :=
  decidable_of_iff (rx.pending ≠ [] ∧ rx.pending.length + sock.queue.length < len ∧
      len - rx.pending.length ≤ rx.size - rx.fill)
    ⟨fun h => ⟨h.1, h.2.1, h.2.2⟩, fun h => ⟨h.nonempty, h.few, h.room⟩⟩

section
variable {rx rx' : RxBuffer} {sock sock' : Socket} {size len n fuel left : Nat}

theorem Socket.QuietSince.trans {sock'' : Socket} (h' : sock''.QuietSince sock')
    (h : sock'.QuietSince sock) : sock''.QuietSince sock := ⟨h'.quiet, h'.arrived.trans h.arrived⟩

theorem Socket.Quiet.refl (h : sock.Quiet) : sock.QuietSince sock := ⟨h, rfl⟩

theorem Socket.Quiet.next (h : sock.Quiet) :
    sock.next.queue = sock.queue ∧ sock.next.QuietSince sock := by
  have hnone : sock.tick.arrives = [] := (h 0).1
  have hqueue : sock.next.queue = sock.queue := by
    rw [Socket.next, hnone]
    exact List.append_nil _
  refine ⟨hqueue, fun k => ?_, by rw [Socket.next, hnone]; exact List.append_nil _⟩
  rw [hqueue]
  exact h (k + 1)

theorem Socket.Quiet.received (h : sock.Quiet) (n : Nat) : (sock.received n).Quiet := by
  intro k
  obtain ⟨harr, hmalloc, hioctl, m, hrecv, hm⟩ := h k
  refine ⟨harr, hmalloc, hioctl, m, hrecv, le_trans ?_ hm⟩
  show (sock.queue.drop n).length ≤ sock.queue.length
  rw [List.length_drop]
  exact Nat.sub_le _ _

/-- A `recv` that gives all it can. -/
theorem RxBuffer.receive_all {mem : Nat → UInt8} {t : Tick} {m : Nat} (hb : rx.buffer = some mem)
    (hioctl : t.ioctl) (hrecv : t.recv = .upTo m) (hm : sock.queue.length ≤ m + 1) :
    ∃ mem', rx.receive mem t sock = ((sock.queue.take (rx.size - rx.fill)).length,
      { rx with buffer := some mem', fill := rx.fill + (sock.queue.take (rx.size - rx.fill)).length },
      sock.received (sock.queue.take (rx.size - rx.fill)).length) := by
  have hnone : sock.queue.take (rx.size - rx.fill) = [] →
      ∃ mem', (0, rx, sock) = ((sock.queue.take (rx.size - rx.fill)).length,
        { rx with buffer := some mem', fill := rx.fill + (sock.queue.take (rx.size - rx.fill)).length },
        sock.received (sock.queue.take (rx.size - rx.fill)).length) := by
    intro hnil
    refine ⟨mem, ?_⟩
    rw [hnil, ← hb]
    rfl
  unfold RxBuffer.receive RxBuffer.rAvailable
  split
  · next hfull => exact hnone (by rw [Nat.sub_eq_zero_of_le hfull]; rfl)
  · simp only
    split
    · next hempty => exact hnone (by rw [List.length_eq_zero_iff.mp hempty, List.take_nil])
    · have hmin : sock.queue.take (min (m + 1) (rx.size - rx.fill)) =
          sock.queue.take (rx.size - rx.fill) := by
        rw [← List.take_take, List.take_of_length_le (i := m + 1)]
        · exact (List.length_take_le' _ _).trans hm
      rw [hrecv]
      simp only [hmin]
      exact ⟨_, rfl⟩

theorem RxBuffer.fillBuffer_all (rx : RxBuffer) (hq : sock.Quiet) :
    ∃ rx', rx.fillBuffer sock = ((sock.queue.take rx.room).length, rx',
        sock.next.received (sock.queue.take rx.room).length) ∧
      rx'.failed = rx.failed ∧ rx'.fill = rx.reset.fill + (sock.queue.take rx.room).length := by
  obtain ⟨-, hmalloc, hioctl, m, hrecv, hm⟩ := hq 0
  obtain ⟨mem, hmem⟩ : ∃ mem, rx.buffer.or (if sock.tick.malloc then some fun _ => 0 else none) =
      some mem := by
    cases rx.buffer with
    | none => exact ⟨_, by rw [Option.none_or]; exact if_pos hmalloc⟩
    | some mem => exact ⟨mem, rfl⟩
  have hreset : ({ rx with buffer := some mem } : RxBuffer).reset.fill = rx.reset.fill ∧
      ({ rx with buffer := some mem } : RxBuffer).reset.size = rx.size := by
    unfold RxBuffer.reset
    dsimp only
    split <;> exact ⟨rfl, rfl⟩
  obtain ⟨mem', hrec⟩ := RxBuffer.receive_all
    (RxBuffer.reset_buffer { rx with buffer := some mem }) hioctl hrecv
    (show sock.next.queue.length ≤ _ from hq.next.1 ▸ hm)
  rw [hreset.1, hreset.2, hq.next.1] at hrec
  unfold RxBuffer.fillBuffer
  rw [hmem]
  exact ⟨_, hrec, RxBuffer.reset_failed _, rfl⟩

/-- A fill on a quiet network takes what there is room for. -/
theorem RxBuffer.fillBuffer_quiet (h : rx.Inv size) (hq : sock.Quiet) :
    ∃ rx' sock', rx.fillBuffer sock = ((sock.queue.take rx.room).length, rx', sock') ∧
      RxBuffer.Filled size rx sock (sock.queue.take rx.room) rx' sock' ∧ sock'.QuietSince sock ∧
      sock'.queue = sock.queue.drop rx.room ∧ rx'.failed = rx.failed ∧
      rx'.fill = rx.reset.fill + (sock.queue.take rx.room).length := by
  obtain ⟨got, rx', sock', hfill, hfilled⟩ := RxBuffer.fillBuffer_spec h sock
  obtain ⟨rx₁, hall, hfailed, hend⟩ := RxBuffer.fillBuffer_all rx hq
  obtain ⟨hqueue, hnext⟩ := hq.next
  obtain ⟨hlen, hpair⟩ := Prod.mk.inj (hfill.symm.trans hall)
  obtain ⟨rfl, rfl⟩ := Prod.mk.inj hpair
  have hsplit : got ++ _ = sock.queue := hfilled.queue.symm.trans hqueue
  have hgot : got = sock.queue.take rx.room := by
    rw [List.prefix_iff_eq_take.mp ⟨_, hsplit⟩, hlen]
    exact (List.prefix_iff_eq_take.mp (List.take_prefix _ _)).symm
  subst hgot
  exact ⟨_, _, hfill, hfilled, ⟨hnext.quiet.received _, hnext.arrived⟩,
    List.append_cancel_left (hsplit.trans (List.take_append_drop _ _).symm), hfailed, hend⟩

theorem RxBuffer.reset_of_read (h : rx.pos = rx.fill) : rx.reset.fill = 0 := by
  unfold RxBuffer.reset
  split
  · rfl
  · next hne =>
    by_contra h0
    exact hne ⟨h0, h⟩

theorem RxBuffer.room_of_read (h : rx.pos = rx.fill) : rx.room = rx.size := by
  rw [RxBuffer.room, RxBuffer.reset_of_read h, Nat.sub_zero]

theorem RxBuffer.room_of_pending (h : rx.pos < rx.fill) : rx.room = rx.size - rx.fill := by
  unfold RxBuffer.room RxBuffer.reset
  rw [if_neg fun hread => h.ne hread.2]

theorem take_append_rest {l : List UInt8} {a b : Nat} (h : (l.take a).length ≤ b) :
    l.take a ++ (l.drop a).take (b - (l.take a).length) = l.take b := by
  conv_rhs => rw [← List.take_append_drop a l, List.take_append, List.take_of_length_le h]

/-- With nothing on the socket the loop of `read` ends at once. -/
theorem RxBuffer.readLoop_dry (h : rx.Inv size) (hq : sock.Quiet) (hdry : sock.queue = []) (left : Nat) :
    ∃ rx' sock', rx.readLoop left left sock = .ok ([], rx', sock') ∧ rx'.failed = rx.failed ∧
      sock'.QuietSince sock := by
  rcases left with _ | left
  · exact ⟨rx, sock, rfl, rfl, hq.refl⟩
  · obtain ⟨rx', sock', hfill, -, hq', -, hfailed, -⟩ := RxBuffer.fillBuffer_quiet h hq
    rw [hdry, List.take_nil] at hfill
    unfold RxBuffer.readLoop
    rw [hfill]
    exact ⟨rx', sock', rfl, hfailed, hq'⟩

/-- From an empty buffer the loop of `read` takes all it can. -/
theorem RxBuffer.readLoop_quiet (hsize : 0 < size) (h : rx.Inv size) (hq : sock.Quiet)
    (hread : rx.pos = rx.fill) (hfuel : left ≤ fuel) :
    ∃ rx' sock', rx.readLoop fuel left sock = .ok (sock.queue.take left, rx', sock') ∧
      rx'.failed = rx.failed ∧ sock'.QuietSince sock := by
  induction fuel generalizing left rx sock with
  | zero =>
    obtain rfl := Nat.le_zero.mp hfuel
    exact ⟨rx, sock, rfl, rfl, hq.refl⟩
  | succ fuel ih =>
    rcases left with _ | left
    · exact ⟨rx, sock, rfl, rfl, hq.refl⟩
    · obtain ⟨rx₁, sock₁, hfill, hfilled, hq₁, hqueue, hfailed, -⟩ := RxBuffer.fillBuffer_quiet h hq
      have hroom : rx.room = size := (RxBuffer.room_of_read hread).trans h.size_eq
      have hpend : rx₁.pending = sock.queue.take size := by
        rw [hfilled.pending, h.pending_eq_nil.mpr hread, hroom]
        rfl
      rw [hroom] at hfill hqueue
      unfold RxBuffer.readLoop
      simp only [hfill]
      by_cases hnone : sock.queue = []
      · simp only [hnone, List.take_nil, List.length_nil, if_true]
        exact ⟨rx₁, sock₁, rfl, hfailed, hq₁⟩
      · have hgot : sock.queue.take size ≠ [] := by
          rw [Ne, List.take_eq_nil_iff]
          rintro (h0 | h0)
          · exact hsize.ne' h0
          · exact hnone h0
        have hlt := hfilled.pos_lt (hroom.symm ▸ hgot)
        have hlen := hfilled.inv.length_pending
        rw [if_neg (by rwa [List.length_eq_zero_iff])]
        generalize hn : (if left + 1 < rx₁.fill - rx₁.pos then left + 1 else rx₁.fill - rx₁.pos) = n
        have hle : n ≤ rx₁.pending.length := by split at hn <;> omega
        obtain ⟨hok, hinv, -⟩ := hfilled.inv.fetch hlt hle
        simp only [hok, ok_seq]
        by_cases hall : left + 1 < rx₁.fill - rx₁.pos
        · -- the block holds all that is left to read
          obtain rfl : left + 1 = n := by rwa [if_pos hall] at hn
          have htake : rx₁.pending.take (left + 1) = sock.queue.take (left + 1) := by
            rw [hpend, List.length_take] at hle
            rw [hpend, List.take_take, min_eq_left (by omega)]
          simp only [Nat.sub_self, RxBuffer.readLoop, ok_seq, List.append_nil, htake]
          exact ⟨_, _, rfl, hfailed, hq₁⟩
        · rw [if_neg hall] at hn
          obtain ⟨rx₂, sock₂, hloop, hfailed₂, hq₂⟩ :=
            ih hinv hq₁.quiet (show rx₁.pos + n = rx₁.fill by omega) (show left + 1 - n ≤ fuel by omega)
          simp only [hloop, ok_seq]
          refine ⟨rx₂, sock₂, ?_, hfailed₂.trans hfailed, hq₂.trans hq₁⟩
          rw [hqueue, List.take_of_length_le (by omega), hpend, ← hn, ← hlen, hpend,
            take_append_rest (by rw [← hpend]; omega)]

/-- `read` on bytes that are there. -/
theorem RxBuffer.readFilled_quiet (hsize : 0 < size) (h : rx.Inv size) (hq : sock.Quiet)
    (hpos : rx.pos < rx.fill) (len : Nat) :
    ∃ rx' sock', rx.readFilled len sock = .ok (Got.bytes ((rx.pending ++ sock.queue).take
        (if rx.Short len sock then rx.pending.length else len)), rx', sock') ∧
      rx'.failed = rx.failed ∧ sock'.QuietSince sock := by
  have hlen := h.length_pending
  unfold RxBuffer.readFilled
  by_cases ha : len ≤ rx.fill - rx.pos
  · obtain ⟨hok, hinv, -⟩ := h.fetch hpos (hlen ▸ ha)
    have hshort : ¬ rx.Short len sock := fun hs => by
      have := hs.few
      omega
    simp only [if_pos ha, hok, ok_seq, if_neg hshort]
    rw [List.take_append_of_le_length (by omega)]
    exact ⟨_, _, rfl, rfl, hq.refl⟩
  · simp only [if_neg ha]
    by_cases hroom : len - (rx.fill - rx.pos) ≤ rx.size - rx.fill
    · obtain ⟨rx₁, sock₁, hfill, hfilled, hq₁, hqueue, hfailed, -⟩ := RxBuffer.fillBuffer_quiet h hq
      rw [RxBuffer.room_of_pending hpos] at hfill hfilled hqueue
      have hlen₁ : rx₁.pending.length =
          rx.pending.length + (sock.queue.take (rx.size - rx.fill)).length := by
        rw [hfilled.pending, List.length_append]
      have hpos₁ : rx₁.pos < rx₁.fill := by
        have hgap := hfilled.inv.length_pending
        omega
      simp only [if_pos hroom, hfill]
      by_cases henough : len - (rx.fill - rx.pos) ≤ (sock.queue.take (rx.size - rx.fill)).length
      · have hread : len ≤ rx₁.pending.length := by omega
        obtain ⟨hok, hinv, -⟩ := hfilled.inv.fetch hpos₁ hread
        have hshort : ¬ rx.Short len sock := fun hs => by
          have := hs.few
          rw [List.length_take] at henough
          omega
        have htake : rx₁.pending.take len = (rx.pending ++ sock.queue).take len := by
          rw [hfilled.pending, List.take_append, List.take_append, List.take_take,
            min_eq_left (by rw [List.length_take] at henough; omega)]
        simp only [decide_eq_true henough, if_true, hok, ok_seq, if_neg hshort, htake]
        exact ⟨_, _, rfl, hfailed, hq₁⟩
      · -- the socket is dry now
        have hall : sock.queue.length ≤ rx.size - rx.fill := by
          rw [List.length_take] at henough
          omega
        have hdry : sock₁.queue = [] := by rw [hqueue, List.drop_eq_nil_iff]; exact hall
        have hread : rx.fill - rx.pos ≤ rx₁.pending.length := by omega
        obtain ⟨hok, hinv, -⟩ := hfilled.inv.fetch hpos₁ hread
        obtain ⟨rx₂, sock₂, hloop, hfailed₂, hq₂⟩ :=
          RxBuffer.readLoop_dry hinv hq₁.quiet hdry (len - (rx.fill - rx.pos))
        have hshort : rx.Short len sock := by
          refine ⟨fun hnil => hpos.ne (h.pending_eq_nil.mp hnil), ?_, by rwa [hlen]⟩
          rw [List.length_take, min_eq_right hall] at henough
          omega
        have htake : rx₁.pending.take (rx.fill - rx.pos) ++ [] =
            (rx.pending ++ sock.queue).take rx.pending.length := by
          rw [List.append_nil, hfilled.pending, ← hlen, List.take_left, List.take_left]
        simp only [decide_eq_false henough, Bool.false_eq_true, if_false, hok, hloop, ok_seq,
          if_pos hshort, htake]
        exact ⟨_, _, rfl, hfailed₂.trans hfailed, hq₂.trans hq₁⟩
    · obtain ⟨hok, hinv, -⟩ := h.fetch hpos hlen.ge
      obtain ⟨rx₂, sock₂, hloop, hfailed, hq₂⟩ :=
        RxBuffer.readLoop_quiet hsize hinv hq
          (show rx.pos + (rx.fill - rx.pos) = rx.fill by omega) (Nat.le_refl (len - (rx.fill - rx.pos)))
      have hshort : ¬ rx.Short len sock := fun hs => hroom (hlen ▸ hs.room)
      have htake : rx.pending.take (rx.fill - rx.pos) ++ sock.queue.take (len - (rx.fill - rx.pos)) =
          (rx.pending ++ sock.queue).take len := by
        rw [List.take_append, ← hlen, List.take_length, List.take_of_length_le (l := rx.pending) (by omega)]
      simp only [if_neg hroom, Bool.false_eq_true, if_false, hok, hloop, ok_seq, if_neg hshort, htake]
      exact ⟨rx₂, sock₂, rfl, hfailed, hq₂⟩

/-- `read` on a quiet network. -/
theorem RxBuffer.read_quiet (hsize : 0 < size) (h : rx.Inv size) (hq : sock.Quiet)
    (hf : rx.failed = false) (len : Nat) :
    ∃ rx' sock', rx.read len sock = .ok (Got.bytes ((rx.pending ++ sock.queue).take
        (if rx.Short len sock then rx.pending.length else len)), rx', sock') ∧
      rx'.failed = false ∧ sock'.QuietSince sock := by
  have hnothing : ∀ rx : RxBuffer, rx.failed = false → rx.nothing = Got.bytes [] := by
    intro rx hrx
    unfold RxBuffer.nothing
    rw [hrx]
    rfl
  unfold RxBuffer.read
  by_cases hlen : len = 0
  · have hshort : ¬ rx.Short len sock := fun hs => by
      have := hs.few
      omega
    rw [if_pos hlen, if_neg hshort, hlen, List.take_zero, hnothing rx hf]
    exact ⟨_, _, rfl, hf, hq.refl⟩
  · rw [if_neg hlen]
    by_cases hread : rx.pos = rx.fill
    · obtain ⟨rx₁, sock₁, hfill, hfilled, hq₁, hqueue, hfailed, hend⟩ := RxBuffer.fillBuffer_quiet h hq
      have hnone : rx.pending = [] := h.pending_eq_nil.mpr hread
      have hshort : ¬ rx.Short len sock := fun hs => hs.nonempty hnone
      rw [RxBuffer.room_of_read hread, h.size_eq] at hfill hfilled hqueue hend
      rw [if_pos hread, hfill, if_neg hshort, hnone, List.nil_append]
      have hpend : rx₁.pending = sock.queue.take size := by
        rw [hfilled.pending, hnone, List.nil_append]
      by_cases hgot : sock.queue.take size = []
      · have hdry : sock.queue = [] := (List.take_eq_nil_iff.mp hgot).resolve_left hsize.ne'
        simp only [hdry, List.take_nil, List.length_nil, if_true, hnothing rx₁ (hfailed.trans hf)]
        exact ⟨_, _, rfl, hfailed.trans hf, hq₁⟩
      · simp only [if_neg (mt List.length_eq_zero_iff.mp hgot)]
        obtain ⟨rx₂, sock₂, hfill₂, hfailed₂, hq₂⟩ :=
          RxBuffer.readFilled_quiet hsize hfilled.inv hq₁.quiet (hfilled.pos_lt hgot) len
        rw [hfill₂, hpend, hqueue, List.take_append_drop]
        have hsame : sock.queue.take (if rx₁.Short len sock₁ then (sock.queue.take size).length else len) =
            sock.queue.take len := by
          split
          · next hs =>
            -- all of the queue was received, and it is less than `len`
            have hfew := hs.few
            have hroom := hs.room
            rw [hpend, hfilled.inv.size_eq, hend, RxBuffer.reset_of_read hread] at hroom
            rw [hpend, hqueue, List.length_drop] at hfew
            simp only [List.length_take] at hroom hfew ⊢
            rw [List.take_of_length_le (by omega), List.take_of_length_le (by omega)]
          · rfl
        rw [hsame]
        exact ⟨rx₂, sock₂, rfl, hfailed₂.trans (hfailed.trans hf), hq₂.trans hq₁⟩
    · rw [if_neg hread]
      obtain ⟨rx', sock', heq, hfailed, hq'⟩ :=
        RxBuffer.readFilled_quiet hsize h hq (lt_of_le_of_ne h.pos_le hread) len
      exact ⟨rx', sock', heq, hfailed.trans hf, hq'⟩

end

/-! ## The client -/

/-- `read` of a client that is open while the network is quiet. -/
theorem WiFiClient.read_quiet {c : WiFiClient} {rx : RxBuffer} (h : c.Inv) (hrx : c.rx = some rx)
    (hq : c.sock.Quiet) (size : Nat) :
    ∃ rx' sock', c.read size = .ok (Got.bytes ((rx.pending ++ c.sock.queue).take
        (if rx.Short size c.sock then rx.pending.length else size)), ⟨some rx', sock'⟩) ∧
      sock'.QuietSince c.sock := by
  obtain ⟨hinv, hf⟩ := h rx hrx
  obtain ⟨rx', sock', hread, hf', hq'⟩ := RxBuffer.read_quiet (by decide) hinv hq hf size
  refine ⟨rx', sock', ?_, hq'⟩
  unfold WiFiClient.read
  simp only [hrx, hread, ok_seq, WiFiClient.check_open rx' sock' hf']

/-- **Reading all there is.** After any calls, with the network quiet from now on, a `read`
gives the bytes that are there up to its limit, but only those in the buffer
when it is short. -/
theorem quiet_read (network : Nat → Tick) (ops : List ReadOp) (out : List UInt8) (c : WiFiClient)
    (rx : RxBuffer) (hrun : runOut WiFiClient.step (WiFiClient.connected network) ops = .ok (out, c))
    (hrx : c.rx = some rx) (hq : c.sock.Quiet) (size : Nat) :
    ∃ c', c.read size = .ok (Got.bytes ((rx.pending ++ c.sock.queue).take
      (if rx.Short size c.sock then rx.pending.length else size)), c') := by
  obtain ⟨out', c', hrun', hinv, -⟩ := WiFiClient.steady.run (WiFiClient.inv_connected network) ops
  cases hrun'.symm.trans hrun
  obtain ⟨rx', sock', hread, -⟩ := WiFiClient.read_quiet hinv hrx hq size
  exact ⟨_, hread⟩

/-- With "bc" in the buffer and "de" on the socket, a `read` of ten bytes gives "bc". -/
theorem quiet_read_short :
    ∃ c c' rx, runOut WiFiClient.step (WiFiClient.connected twoSegments) [.readByte, .available] =
        .ok ((lit "a").bytes, c) ∧ c.rx = some rx ∧ rx.pending = (lit "bc").bytes ∧
      c.sock.queue = (lit "de").bytes ∧ c.read 10 = .ok (Got.bytes (lit "bc").bytes, c') := by
  obtain ⟨c', h⟩ := quiet_read twoSegments [.readByte, .available] (lit "a").bytes _ _ rfl rfl
    (fun k => ⟨rfl, rfl, rfl, 9, rfl, by decide⟩) 10
  exact ⟨_, c', _, rfl, rfl, by decide, by decide, h⟩

end CryptoLocker
