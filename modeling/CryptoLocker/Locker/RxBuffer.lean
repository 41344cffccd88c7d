import CryptoLocker.Lib.Conduit
import CryptoLocker.Lib.Rows
import CryptoLocker.Server.Reservations

/-!
# The receive buffer of a client connection

`WiFiClientRxBuffer` of `locker/src/WiFiClient.cpp`: `read`, `peek` and
`available` over a block of `_size` bytes that `recv` fills from the socket.
The network is a sequence of ticks, one for each look at the socket, that says
which bytes arrive before it and how the calls of the look come out. Reading
bytes that were never received is the fault `outOfBounds`.

The buffer and the socket behind it are a conduit of bytes (`rxConduit`), and
every call passes: `fillBuffer_spec`, `read_spec`, `peek_spec`,
`available_spec`.
-/

namespace CryptoLocker

open Lib

/-! ## The socket -/

/-- How a `recv` comes out while bytes are waiting; `upTo n` hands over at most `n + 1`. -/
inductive Recv where
  | upTo (n : Nat)
  | wouldBlock
  | error
  deriving DecidableEq

/-- What the network does around one look at the socket. -/
structure Tick where
  arrives : List UInt8
  malloc : Bool
  ioctl : Bool
  recv : Recv

/-- The receiving end of a connection: the bytes that have arrived on it so far,
those of them not yet received, and what the network does from now on. -/
structure Socket where
  arrived : List UInt8
  queue : List UInt8
  network : Nat → Tick

def Socket.connected (network : Nat → Tick) : Socket := ⟨[], [], network⟩

def Socket.tick (sock : Socket) : Tick := sock.network 0

/-- The socket once the bytes of the tick are there. -/
def Socket.next (sock : Socket) : Socket :=
  ⟨sock.arrived ++ sock.tick.arrives, sock.queue ++ sock.tick.arrives, fun n => sock.network (n + 1)⟩

def Socket.received (sock : Socket) (n : Nat) : Socket := { sock with queue := sock.queue.drop n }

/-! ## The buffer -/

/-- `_buffer` is `none` until the first fill; `_fd` is the descriptor of a socket. -/
structure RxBuffer where
  size : Nat
  buffer : Option (Nat → UInt8)
  pos : Nat
  fill : Nat
  failed : Bool

/-- The default size. -/
def rxSize : Nat := 1436

def RxBuffer.new (size : Nat) : RxBuffer := ⟨size, none, 0, 0, false⟩

/-- `r_available`, on the tick `t`. -/
def RxBuffer.rAvailable (rx : RxBuffer) (t : Tick) (sock : Socket) : Nat × RxBuffer :=
  if t.ioctl then (sock.queue.length, rx) else (0, { rx with failed := true })

/-- `_fill && _pos == _fill`: all that was received has been read. -/
def RxBuffer.reset (rx : RxBuffer) : RxBuffer :=
  if rx.fill ≠ 0 ∧ rx.pos = rx.fill then { rx with pos := 0, fill := 0 } else rx

/-- The `recv` of `fillBuffer`, behind the bytes of the block `mem`. -/
def RxBuffer.receive (rx : RxBuffer) (mem : Nat → UInt8) (t : Tick) (sock : Socket) :
    Nat × RxBuffer × Socket :=
  if rx.size ≤ rx.fill then (0, rx, sock)
  else
    let (available, rx) := rx.rAvailable t sock
    if available = 0 then (0, rx, sock)
    else
      match t.recv with
      | .wouldBlock => (0, rx, sock)
      | .error => (0, { rx with failed := true }, sock)
      | .upTo n =>
        let bytes := sock.queue.take (min (n + 1) (rx.size - rx.fill))
        (bytes.length, { rx with
          buffer := some (Rows.overwrite mem rx.fill bytes), fill := rx.fill + bytes.length },
          sock.received bytes.length)

/-- `fillBuffer`: the bytes received. What `malloc` leaves in the block is never read. -/
def RxBuffer.fillBuffer (rx : RxBuffer) (sock : Socket) : Nat × RxBuffer × Socket :=
  match rx.buffer.or (if sock.tick.malloc then some fun _ => 0 else none) with
  | none => (0, { rx with failed := true }, sock.next)
  | some mem => ({ rx with buffer := some mem } : RxBuffer).reset.receive mem sock.tick sock.next

/-- `memcpy(buf, _buffer + _pos, n); _pos += n`. -/
def RxBuffer.fetch (rx : RxBuffer) (n : Nat) : Except Fault (List UInt8 × RxBuffer) :=
  match rx.buffer with
  | none => .error .nullDeref
  | some mem =>
    if rx.pos + n ≤ rx.fill then .ok ((List.range' rx.pos n).map mem, { rx with pos := rx.pos + n })
    else .error .outOfBounds

/-- `while (left)` in `read`; each turn that goes on reads a byte or more. -/
def RxBuffer.readLoop : Nat → Nat → RxBuffer → Socket → Except Fault (List UInt8 × RxBuffer × Socket)
  | _, 0, rx, sock => .ok ([], rx, sock)
  | 0, _ + 1, _, _ => .error .diverges
  | fuel + 1, left + 1, rx, sock =>
    let (n, rx, sock) := rx.fillBuffer sock
    if n = 0 then .ok ([], rx, sock)
    else do
      let a := rx.fill - rx.pos
      let toRead := if left + 1 < a then left + 1 else a
      let (bytes, rx) ← rx.fetch toRead
      let (more, rx, sock) ← readLoop fuel (left + 1 - toRead) rx sock
      .ok (bytes ++ more, rx, sock)

/-- What `read` returns and the bytes it stored at `dst`. -/
structure Got where
  res : Int
  dst : List UInt8

/-- The return without a byte. -/
def RxBuffer.nothing (rx : RxBuffer) : Got := ⟨if rx.failed then -1 else 0, []⟩

def Got.bytes (dst : List UInt8) : Got := ⟨dst.length, dst⟩

/-- `read` once `_pos < _fill`. -/
def RxBuffer.readFilled (rx : RxBuffer) (len : Nat) (sock : Socket) :
    Except Fault (Got × RxBuffer × Socket) := do
  let a := rx.fill - rx.pos
  if len ≤ a then
    let (dst, rx) ← rx.fetch len
    .ok (Got.bytes dst, rx, sock)
  else
    -- `fillBuffer` is called here only if the block has room for the rest
    let (enough, rx, sock) :=
      if len - a ≤ rx.size - rx.fill then
        let (n, rx, sock) := rx.fillBuffer sock
        (decide (len - a ≤ n), rx, sock)
      else (false, rx, sock)
    if enough then
      let (dst, rx) ← rx.fetch len
      .ok (Got.bytes dst, rx, sock)
    else
      let (dst, rx) ← rx.fetch a
      let (more, rx, sock) ← rx.readLoop (len - a) (len - a) sock
      .ok (Got.bytes (dst ++ more), rx, sock)

/-- `read`, into a `dst` that is not NULL. -/
def RxBuffer.read (rx : RxBuffer) (len : Nat) (sock : Socket) :
    Except Fault (Got × RxBuffer × Socket) :=
  if len = 0 then .ok (rx.nothing, rx, sock)
  else if rx.pos = rx.fill then
    let (n, rx, sock) := rx.fillBuffer sock
    if n = 0 then .ok (rx.nothing, rx, sock) else rx.readFilled len sock
  else rx.readFilled len sock

/-- `return _buffer[_pos]`. -/
def RxBuffer.first (rx : RxBuffer) : Except Fault Int :=
  match rx.buffer with
  | none => .error .nullDeref
  | some mem => if rx.pos < rx.fill then .ok (mem rx.pos).toNat else .error .outOfBounds

def RxBuffer.peek (rx : RxBuffer) (sock : Socket) : Except Fault (Int × RxBuffer × Socket) :=
  if rx.pos = rx.fill then
    let (n, rx, sock) := rx.fillBuffer sock
    if n = 0 then .ok (-1, rx, sock) else rx.first.map fun c => (c, rx, sock)
  else rx.first.map fun c => (c, rx, sock)

def RxBuffer.available (rx : RxBuffer) (sock : Socket) : Nat × RxBuffer × Socket :=
  let (n, rx') := rx.rAvailable sock.tick sock.next
  (rx.fill - rx.pos + n, rx', sock.next)

/-! ## The bytes it holds -/

/-- The bytes received and not yet read. -/
def RxBuffer.pending (rx : RxBuffer) : List UInt8 :=
  match rx.buffer with
  | none => []
  | some mem => (List.range' rx.pos (rx.fill - rx.pos)).map mem

/-- The indices are in order and inside the block. -/
structure RxBuffer.Inv (rx : RxBuffer) (size : Nat) : Prop where
  size_eq : rx.size = size
  pos_le : rx.pos ≤ rx.fill
  fill_le : rx.fill ≤ rx.size
  unallocated : rx.buffer = none → rx.fill = 0

/-- A buffer and the socket behind it, as a conduit of bytes. -/
def rxConduit : Conduit (RxBuffer × Socket) UInt8 where
  fed p := p.2.arrived
  Holds p l := l = p.1.pending ++ p.2.queue

theorem RxBuffer.inv_new (size : Nat) : (RxBuffer.new size).Inv size :=
  ⟨rfl, Nat.le_refl 0, Nat.zero_le _, fun _ => rfl⟩

section
variable {rx rx' : RxBuffer} {sock sock' : Socket} {size len n fuel left : Nat}

theorem RxBuffer.Inv.length_pending (h : rx.Inv size) : rx.pending.length = rx.fill - rx.pos := by
  unfold RxBuffer.pending
  cases hb : rx.buffer with
  | none => rw [h.unallocated hb]; simp
  | some mem => simp

theorem RxBuffer.Inv.pending_eq_nil (h : rx.Inv size) : rx.pending = [] ↔ rx.pos = rx.fill := by
  rw [← List.length_eq_zero_iff, h.length_pending]
  have hle := h.pos_le
  omega

/-- A `memcpy` of bytes that are pending. -/
theorem RxBuffer.Inv.fetch (h : rx.Inv size) (hpos : rx.pos < rx.fill) (hn : n ≤ rx.pending.length) :
    rx.fetch n = .ok (rx.pending.take n, { rx with pos := rx.pos + n }) ∧
      ({ rx with pos := rx.pos + n } : RxBuffer).Inv size ∧
      ({ rx with pos := rx.pos + n } : RxBuffer).pending = rx.pending.drop n := by
  rw [h.length_pending] at hn
  obtain ⟨mem, hb⟩ : ∃ mem, rx.buffer = some mem := by
    cases hb : rx.buffer with
    | none =>
      have h0 := h.unallocated hb
      omega
    | some mem => exact ⟨mem, rfl⟩
  refine ⟨?_, ⟨h.size_eq, by simp only; omega, h.fill_le, h.unallocated⟩, ?_⟩
  · unfold RxBuffer.fetch RxBuffer.pending
    rw [hb]
    simp only
    rw [if_pos (by omega), ← List.map_take, List.take_range'_of_length_ge hn]
  · unfold RxBuffer.pending
    rw [hb]
    simp only
    rw [← List.map_drop, List.drop_range']
    congr 2 <;> omega

/-! ## Filling -/

/-- What a `fillBuffer` did that received `got`. -/
structure RxBuffer.Filled (size : Nat) (rx : RxBuffer) (sock : Socket) (got : List UInt8)
    (rx' : RxBuffer) (sock' : Socket) : Prop where
  inv : rx'.Inv size
  pending : rx'.pending = rx.pending ++ got
  arrived : sock'.arrived = sock.next.arrived
  queue : sock.next.queue = got ++ sock'.queue
  failed : got ≠ [] → rx'.failed = rx.failed

/-- A failure changes no byte. -/
theorem RxBuffer.Inv.fail (h : rx.Inv size) : ({ rx with failed := true } : RxBuffer).Inv size :=
  ⟨h.size_eq, h.pos_le, h.fill_le, h.unallocated⟩

theorem RxBuffer.Inv.allocated (h : rx.Inv size) {mem : Nat → UInt8} {o : Option (Nat → UInt8)}
    (hm : rx.buffer.or o = some mem) :
    ({ rx with buffer := some mem } : RxBuffer).Inv size ∧
      ({ rx with buffer := some mem } : RxBuffer).pending = rx.pending := by
  refine ⟨⟨h.size_eq, h.pos_le, h.fill_le, nofun⟩, ?_⟩
  cases hb : rx.buffer with
  | none =>
    have h0 := h.unallocated hb
    simp [RxBuffer.pending, hb, h0]
  | some mem' =>
    rw [hb, Option.some_or] at hm
    simp [RxBuffer.pending, hb, Option.some.inj hm]

theorem RxBuffer.Inv.reset (h : rx.Inv size) : rx.reset.Inv size ∧ rx.reset.pending = rx.pending := by
  unfold RxBuffer.reset
  split
  · next hread =>
    refine ⟨⟨h.size_eq, Nat.le_refl 0, Nat.zero_le _, fun _ => rfl⟩, ?_⟩
    rw [h.pending_eq_nil.mpr hread.2]
    unfold RxBuffer.pending
    cases rx.buffer <;> rfl
  · exact ⟨h, rfl⟩

theorem RxBuffer.reset_buffer (rx : RxBuffer) : rx.reset.buffer = rx.buffer := by
  unfold RxBuffer.reset
  split <;> rfl

theorem RxBuffer.reset_failed (rx : RxBuffer) : rx.reset.failed = rx.failed := by
  unfold RxBuffer.reset
  split <;> rfl

/-- Bytes received behind those that are there. -/
theorem RxBuffer.Inv.append (h : rx.Inv size) {mem : Nat → UInt8} (hb : rx.buffer = some mem)
    {got : List UInt8} (hgot : rx.fill + got.length ≤ rx.size) :
    ({ rx with buffer := some (Rows.overwrite mem rx.fill got), fill := rx.fill + got.length } :
        RxBuffer).Inv size ∧
      ({ rx with buffer := some (Rows.overwrite mem rx.fill got), fill := rx.fill + got.length } :
        RxBuffer).pending = rx.pending ++ got := by
  refine ⟨⟨h.size_eq, h.pos_le.trans (Nat.le_add_right _ _), hgot, nofun⟩, ?_⟩
  unfold RxBuffer.pending
  rw [hb]
  exact Rows.map_overwrite_end h.pos_le

theorem RxBuffer.receive_spec {mem : Nat → UInt8} (h : rx.Inv size) (hb : rx.buffer = some mem) (t : Tick)
    (sock : Socket) :
    ∃ got rx' sock', rx.receive mem t sock = (got.length, rx', sock') ∧ rx'.Inv size ∧
      rx'.pending = rx.pending ++ got ∧ sock'.arrived = sock.arrived ∧
      sock.queue = got ++ sock'.queue ∧ (got ≠ [] → rx'.failed = rx.failed) := by
  have hstay : rx.Inv size ∧ rx.pending = rx.pending ++ [] ∧ sock.arrived = sock.arrived ∧
      sock.queue = [] ++ sock.queue ∧ (([] : List UInt8) ≠ [] → rx.failed = rx.failed) :=
    ⟨h, (List.append_nil _).symm, rfl, rfl, fun _ => rfl⟩
  have hfail : ({ rx with failed := true } : RxBuffer).Inv size ∧
      ({ rx with failed := true } : RxBuffer).pending = rx.pending ++ [] ∧
      sock.arrived = sock.arrived ∧ sock.queue = [] ++ sock.queue ∧
      (([] : List UInt8) ≠ [] → true = rx.failed) :=
    ⟨h.fail, (List.append_nil _).symm, rfl, rfl, fun hne => absurd rfl hne⟩
  unfold RxBuffer.receive RxBuffer.rAvailable
  split
  · exact ⟨[], _, _, rfl, hstay⟩
  · next hroom =>
    cases t.ioctl with
    | false => exact ⟨[], _, _, rfl, hfail⟩
    | true =>
      simp only [if_true]
      split
      · exact ⟨[], _, _, rfl, hstay⟩
      · cases t.recv with
        | wouldBlock => exact ⟨[], _, _, rfl, hstay⟩
        | error => exact ⟨[], _, _, rfl, hfail⟩
        | upTo n =>
          have hfit : rx.fill + (sock.queue.take (min (n + 1) (rx.size - rx.fill))).length ≤ rx.size := by
            rw [List.length_take]
            omega
          obtain ⟨hinv, hpend⟩ := h.append hb hfit
          exact ⟨_, _, _, rfl, hinv, hpend, rfl,
            (List.prefix_iff_eq_append.mp (List.take_prefix _ _)).symm, fun _ => rfl⟩

/-- **`fillBuffer`.** -/
theorem RxBuffer.fillBuffer_spec (h : rx.Inv size) (sock : Socket) :
    ∃ got rx' sock', rx.fillBuffer sock = (got.length, rx', sock') ∧ RxBuffer.Filled size rx sock got rx' sock' := by
  unfold RxBuffer.fillBuffer
  cases hm : rx.buffer.or (if sock.tick.malloc then some fun _ => 0 else none) with
  | none => exact ⟨[], _, _, rfl, h.fail, (List.append_nil _).symm, rfl, rfl, fun hne => absurd rfl hne⟩
  | some mem =>
    obtain ⟨hinv, hpend⟩ := h.allocated hm
    obtain ⟨hinv', hpend'⟩ := hinv.reset
    obtain ⟨got, rx', sock', hrecv, hrx, hgot, harr, hq, hfailed⟩ :=
      RxBuffer.receive_spec hinv' (RxBuffer.reset_buffer _) sock.tick sock.next
    refine ⟨got, rx', sock', hrecv, hrx, by rw [hgot, hpend', hpend], harr, hq, fun hne => ?_⟩
    rw [hfailed hne, RxBuffer.reset_failed]

/-! ## Reading -/

theorem RxBuffer.Filled.passes {got : List UInt8} (h : RxBuffer.Filled size rx sock got rx' sock') :
    rxConduit.Passes (rx, sock) [] (rx', sock') := by
  rintro l rfl
  refine ⟨sock.tick.arrives, _, h.arrived, rfl, ?_⟩
  show rx.pending ++ sock.queue ++ sock.tick.arrives = rx'.pending ++ sock'.queue
  rw [h.pending, List.append_assoc, List.append_assoc, ← h.queue]
  rfl

theorem RxBuffer.Inv.fetch_passes (h : rx.Inv size) (hpos : rx.pos < rx.fill) (hn : n ≤ rx.pending.length)
    (sock : Socket) :
    rxConduit.Passes (rx, sock) (rx.pending.take n) ({ rx with pos := rx.pos + n }, sock) := by
  rintro l rfl
  refine ⟨[], _, (List.append_nil _).symm, rfl, ?_⟩
  show rx.pending ++ sock.queue ++ [] = rx.pending.take n ++ (RxBuffer.pending _ ++ sock.queue)
  rw [(h.fetch hpos hn).2.2, List.append_nil, ← List.append_assoc, List.take_append_drop]

/-- A fill that received something leaves something to read. -/
theorem RxBuffer.Filled.pos_lt {got : List UInt8} (h : RxBuffer.Filled size rx sock got rx' sock') (hne : got ≠ []) :
    rx'.pos < rx'.fill := by
  have hpend : rx'.pending ≠ [] := by
    rw [h.pending]
    exact List.append_ne_nil_of_right_ne_nil _ hne
  exact lt_of_le_of_ne h.inv.pos_le fun heq => hpend (h.inv.pending_eq_nil.mpr heq)

/-- The loop of `read` reads what it can get, up to `left` bytes. -/
theorem RxBuffer.readLoop_spec (h : rx.Inv size) (hfuel : left ≤ fuel) (sock : Socket) :
    ∃ out rx' sock', rx.readLoop fuel left sock = .ok (out, rx', sock') ∧ rx'.Inv size ∧
      rxConduit.Passes (rx, sock) out (rx', sock') ∧ out.length ≤ left := by
  induction fuel generalizing left rx sock with
  | zero =>
    obtain rfl := Nat.le_zero.mp hfuel
    exact ⟨[], rx, sock, rfl, h, .refl _, Nat.le_refl 0⟩
  | succ fuel ih =>
    rcases left with _ | left
    · exact ⟨[], rx, sock, rfl, h, .refl _, Nat.le_refl 0⟩
    · obtain ⟨got, rx₁, sock₁, hfill, hfilled⟩ := RxBuffer.fillBuffer_spec h sock
      unfold RxBuffer.readLoop
      simp only [hfill]
      by_cases hgot : got = []
      · rw [if_pos (by rw [hgot]; rfl)]
        exact ⟨[], rx₁, sock₁, rfl, hfilled.inv, hfilled.passes, Nat.zero_le _⟩
      · rw [if_neg (by rwa [List.length_eq_zero_iff])]
        have hlt := hfilled.pos_lt hgot
        have hlen := hfilled.inv.length_pending
        -- `toRead`, one byte at least
        generalize hn : (if left + 1 < rx₁.fill - rx₁.pos then left + 1 else rx₁.fill - rx₁.pos) = n
        obtain ⟨hpos, hle, hread⟩ : 0 < n ∧ n ≤ left + 1 ∧ n ≤ rx₁.pending.length := by
          split at hn <;> omega
        obtain ⟨hok, hinv, -⟩ := hfilled.inv.fetch hlt hread
        obtain ⟨more, rx₂, sock₂, hrest, hinv₂, hpass, hmore⟩ :=
          ih hinv (show left + 1 - n ≤ fuel by omega) sock₁
        simp only [hok, hrest, ok_seq]
        refine ⟨_, rx₂, sock₂, rfl, hinv₂, ?_, ?_⟩
        · exact (hfilled.passes.trans (hfilled.inv.fetch_passes hlt hread sock₁)).trans hpass
        · rw [List.length_append, List.length_take_of_le hread]
          omega

/-- What a call of `read` for `len` bytes did: in order and without loss it handed
over as many of the pending bytes as it could, and reported their number. -/
structure RxBuffer.Served (size : Nat) (rx : RxBuffer) (sock : Socket) (len : Nat) (got : Got)
    (rx' : RxBuffer) (sock' : Socket) : Prop where
  inv : rx'.Inv size
  passes : rxConduit.Passes (rx, sock) got.dst (rx', sock')
  most : got.dst.length ≤ len
  least : min len rx.pending.length ≤ got.dst.length
  res : got.res = got.dst.length ∨ (got.dst = [] ∧ got.res = -1 ∧ rx'.failed)

theorem RxBuffer.nothing_res (rx : RxBuffer) :
    rx.nothing.res = rx.nothing.dst.length ∨
      (rx.nothing.dst = [] ∧ rx.nothing.res = -1 ∧ rx.failed) := by
  unfold RxBuffer.nothing
  cases rx.failed with
  | false => exact .inl rfl
  | true => exact .inr ⟨rfl, rfl, rfl⟩

/-- The bytes that are there, then the loop. -/
theorem RxBuffer.Inv.drain (h : rx.Inv size) (hpos : rx.pos < rx.fill) (ha : n ≤ rx.pending.length)
    (left : Nat) (sock : Socket) :
    ∃ more rx' sock', (do
        let (dst, rx) ← rx.fetch n
        let (more, rx, sock) ← rx.readLoop left left sock
        Except.ok (Got.bytes (dst ++ more), rx, sock)) =
          .ok (Got.bytes (rx.pending.take n ++ more), rx', sock') ∧ rx'.Inv size ∧
      rxConduit.Passes (rx, sock) (rx.pending.take n ++ more) (rx', sock') ∧ more.length ≤ left := by
  obtain ⟨hok, hinv, -⟩ := h.fetch hpos ha
  obtain ⟨more, rx', sock', hloop, hinv', hpass, hmore⟩ :=
    RxBuffer.readLoop_spec hinv (Nat.le_refl left) sock
  refine ⟨more, rx', sock', ?_, hinv', (h.fetch_passes hpos ha sock).trans hpass, hmore⟩
  simp only [hok, hloop, ok_seq]

theorem RxBuffer.readFilled_spec (h : rx.Inv size) (hpos : rx.pos < rx.fill) (len : Nat) (sock : Socket) :
    ∃ got rx' sock', rx.readFilled len sock = .ok (got, rx', sock') ∧
      RxBuffer.Served size rx sock len got rx' sock' := by
  have hlen := h.length_pending
  unfold RxBuffer.readFilled
  by_cases ha : len ≤ rx.fill - rx.pos
  · obtain ⟨hok, hinv, -⟩ := h.fetch hpos (hlen ▸ ha)
    simp only [if_pos ha, hok, ok_seq]
    have hdst : (rx.pending.take len).length = len := List.length_take_of_le (hlen ▸ ha)
    exact ⟨_, _, _, rfl, hinv, h.fetch_passes hpos (hlen ▸ ha) sock, hdst.le,
      (Nat.min_le_left _ _).trans hdst.ge, .inl rfl⟩
  · simp only [if_neg ha]
    by_cases hroom : len - (rx.fill - rx.pos) ≤ rx.size - rx.fill
    · obtain ⟨more, rx₁, sock₁, hfill, hfilled⟩ := RxBuffer.fillBuffer_spec h sock
      have hlen₁ : rx₁.pending.length = rx.pending.length + more.length := by
        rw [hfilled.pending, List.length_append]
      have hpos₁ : rx₁.pos < rx₁.fill := by
        have hgap := hfilled.inv.length_pending
        omega
      simp only [if_pos hroom, hfill]
      by_cases henough : len - (rx.fill - rx.pos) ≤ more.length
      · have hread : len ≤ rx₁.pending.length := by omega
        obtain ⟨hok, hinv, -⟩ := hfilled.inv.fetch hpos₁ hread
        simp only [decide_eq_true henough, if_true, hok, ok_seq]
        have hdst : (rx₁.pending.take len).length = len := List.length_take_of_le hread
        exact ⟨_, _, _, rfl, hinv, hfilled.passes.trans (hfilled.inv.fetch_passes hpos₁ hread sock₁),
          hdst.le, (Nat.min_le_left _ _).trans hdst.ge, .inl rfl⟩
      · have hread : rx.fill - rx.pos ≤ rx₁.pending.length := by omega
        obtain ⟨rest, rx₂, sock₂, hdrain, hinv, hpass, hrest⟩ :=
          hfilled.inv.drain hpos₁ hread (len - (rx.fill - rx.pos)) sock₁
        simp only [decide_eq_false henough, Bool.false_eq_true, if_false]
        have hdst : (rx₁.pending.take (rx.fill - rx.pos) ++ rest).length =
            rx.fill - rx.pos + rest.length := by
          rw [List.length_append, List.length_take_of_le hread]
        exact ⟨_, rx₂, sock₂, hdrain, hinv, hfilled.passes.trans hpass, hdst.trans_le (by omega),
          Nat.le_trans (by omega) hdst.ge, .inl rfl⟩
    · have hread : rx.fill - rx.pos ≤ rx.pending.length := hlen.ge
      obtain ⟨rest, rx₂, sock₂, hdrain, hinv, hpass, hrest⟩ :=
        h.drain hpos hread (len - (rx.fill - rx.pos)) sock
      simp only [if_neg hroom, Bool.false_eq_true, if_false]
      have hdst : (rx.pending.take (rx.fill - rx.pos) ++ rest).length =
          rx.fill - rx.pos + rest.length := by
        rw [List.length_append, List.length_take_of_le hread]
      exact ⟨_, rx₂, sock₂, hdrain, hinv, hpass, hdst.trans_le (by omega),
        Nat.le_trans (by omega) hdst.ge, .inl rfl⟩

/-- **`read`.** -/
theorem RxBuffer.read_spec (h : rx.Inv size) (len : Nat) (sock : Socket) :
    ∃ got rx' sock', rx.read len sock = .ok (got, rx', sock') ∧ RxBuffer.Served size rx sock len got rx' sock' := by
  unfold RxBuffer.read
  by_cases hlen : len = 0
  · rw [if_pos hlen, hlen]
    exact ⟨_, _, _, rfl, h, .refl _, Nat.le_refl 0, by simp, rx.nothing_res⟩
  · rw [if_neg hlen]
    by_cases hpos : rx.pos = rx.fill
    · obtain ⟨got, rx₁, sock₁, hfill, hfilled⟩ := RxBuffer.fillBuffer_spec h sock
      have hnone : rx.pending = [] := h.pending_eq_nil.mpr hpos
      simp only [if_pos hpos, hfill]
      by_cases hgot : got = []
      · rw [if_pos (by rw [hgot]; rfl)]
        exact ⟨_, _, _, rfl, hfilled.inv, hfilled.passes, Nat.zero_le _, by simp [hnone],
          rx₁.nothing_res⟩
      · rw [if_neg (by rwa [List.length_eq_zero_iff])]
        obtain ⟨got', rx₂, sock₂, hread, hserved⟩ :=
          RxBuffer.readFilled_spec hfilled.inv (hfilled.pos_lt hgot) len sock₁
        exact ⟨got', rx₂, sock₂, hread, hserved.inv, hfilled.passes.trans hserved.passes, hserved.most,
          by simp [hnone], hserved.res⟩
    · rw [if_neg hpos]
      exact RxBuffer.readFilled_spec h (lt_of_le_of_ne h.pos_le hpos) len sock

/-- `_buffer[_pos]` is the next byte. -/
theorem RxBuffer.Inv.first (h : rx.Inv size) (hpos : rx.pos < rx.fill) :
    ∃ b rest, rx.pending = b :: rest ∧ rx.first = .ok b.toNat := by
  unfold RxBuffer.first RxBuffer.pending
  cases hb : rx.buffer with
  | none =>
    have h0 := h.unallocated hb
    omega
  | some mem =>
    obtain ⟨k, hk⟩ : ∃ k, rx.fill - rx.pos = k + 1 := ⟨rx.fill - rx.pos - 1, by omega⟩
    refine ⟨mem rx.pos, (List.range' (rx.pos + 1) k).map mem, ?_, if_pos hpos⟩
    simp only [hk, List.range'_succ, List.map_cons]

/-- **`peek`** shows the next byte and takes none. -/
theorem RxBuffer.peek_spec (h : rx.Inv size) (sock : Socket) :
    ∃ c rx' sock', rx.peek sock = .ok (c, rx', sock') ∧ rx'.Inv size ∧
      rxConduit.Passes (rx, sock) [] (rx', sock') ∧
      (c = -1 ∨ ∃ b rest, c = b.toNat ∧ rx'.pending = b :: rest ∧ rx'.failed = rx.failed) := by
  unfold RxBuffer.peek
  by_cases hpos : rx.pos = rx.fill
  · obtain ⟨got, rx₁, sock₁, hfill, hfilled⟩ := RxBuffer.fillBuffer_spec h sock
    simp only [if_pos hpos, hfill]
    by_cases hgot : got = []
    · rw [if_pos (by rw [hgot]; rfl)]
      exact ⟨_, _, _, rfl, hfilled.inv, hfilled.passes, .inl rfl⟩
    · rw [if_neg (by rwa [List.length_eq_zero_iff])]
      obtain ⟨b, rest, hpend, hfirst⟩ := hfilled.inv.first (hfilled.pos_lt hgot)
      rw [hfirst]
      exact ⟨_, _, _, rfl, hfilled.inv, hfilled.passes, .inr ⟨b, rest, rfl, hpend, hfilled.failed hgot⟩⟩
  · rw [if_neg hpos]
    obtain ⟨b, rest, hpend, hfirst⟩ := h.first (lt_of_le_of_ne h.pos_le hpos)
    rw [hfirst]
    exact ⟨_, _, _, rfl, h, .refl _, .inr ⟨b, rest, rfl, hpend, rfl⟩⟩

theorem Socket.next_passes (rx : RxBuffer) (sock : Socket) :
    rxConduit.Passes (rx, sock) [] (rx, sock.next) := by
  rintro l rfl
  exact ⟨sock.tick.arrives, _, rfl, rfl, List.append_assoc _ _ _⟩

/-- **`available`** counts the bytes to come, and takes none. -/
theorem RxBuffer.available_spec (h : rx.Inv size) (sock : Socket) :
    ∃ n rx', rx.available sock = (n, rx', sock.next) ∧ rx'.Inv size ∧
      rxConduit.Passes (rx, sock) [] (rx', sock.next) ∧
      ((rx' = rx ∧ n = rx.pending.length + sock.next.queue.length) ∨ rx'.failed) := by
  unfold RxBuffer.available RxBuffer.rAvailable
  cases sock.tick.ioctl with
  | false => exact ⟨_, _, rfl, h.fail, sock.next_passes rx, .inr rfl⟩
  | true => exact ⟨_, _, rfl, h, sock.next_passes rx, .inl ⟨rfl, by rw [h.length_pending]⟩⟩

end

end CryptoLocker
