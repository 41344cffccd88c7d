import CryptoLocker.Lib.Chunks
import CryptoLocker.Lib.Runs
import CryptoLocker.Server.Reservations

/-!
# Datagrams

`WiFiUDP::write` fills a buffer of 1460 bytes and sends it when it is full and
one more byte comes; `endPacket` sends what is in it. `parsePacket` takes a
datagram when the last one has been read out. Both write through a pointer they
do not look at, and fault only where it is NULL (`udp_completes`). What a receiver
reads is what the packets held, packet by packet as long as they fit
(`udp_transfer`). DNS and the options of the sockets are left out, and a `cbuf` is
the bytes it holds.
-/

namespace CryptoLocker

open Lib

/-- What is handed to `sendto`, or comes from `recvfrom`, with the peer. -/
structure Datagram where
  ip : UInt32
  port : UInt16
  bytes : List UInt8
  deriving DecidableEq

/-- How the calls of `begin` and `beginPacket` come out. -/
structure UdpCalls where
  malloc : Bool
  socket : Bool
  setsockopt : Bool
  bind : Bool

structure WiFiUDP where
  /-- `udp_server` is not -1 -/
  isOpen : Bool
  serverPort : UInt16
  multicastIp : UInt32
  remoteIp : UInt32
  remotePort : UInt16
  /-- `tx_buffer`, up to `tx_buffer_len` -/
  txBuffer : Option (List UInt8)
  rxBuffer : Option (List UInt8)
  /-- what has been handed to `sendto` on an open socket -/
  sent : List Datagram

def WiFiUDP.init : WiFiUDP := ⟨false, 0, 0, 0, 0, none, none, []⟩

def WiFiUDP.stop (u : WiFiUDP) : WiFiUDP :=
  { u with
    txBuffer := none
    rxBuffer := none
    multicastIp := if u.isOpen then 0 else u.multicastIp
    isOpen := false }

/-- `begin(address, port)`. -/
def WiFiUDP.begin (u : WiFiUDP) (port : UInt16) (c : UdpCalls) : Bool × WiFiUDP :=
  let u := { u.stop with serverPort := port }
  if ¬ c.malloc then (false, u)
  else
    let u := { u with txBuffer := some [] }
    if ¬ c.socket then (false, u)
    else
      let u := { u with isOpen := true }
      if ¬ c.setsockopt then (false, u.stop)
      else if ¬ c.bind then (false, u.stop)
      else (true, u)

/-- `beginMulticast`, where joining the group comes out as `join`. -/
def WiFiUDP.beginMulticast (u : WiFiUDP) (a : UInt32) (port : UInt16) (c : UdpCalls) (join : Bool) :
    Bool × WiFiUDP :=
  match u.begin port c with
  | (true, u) =>
    if a ≠ 0 then
      if ¬ join then (false, u.stop) else (true, { u with multicastIp := a })
    else (true, u)
  | (false, u) => (false, u)

/-- `beginPacket()`. -/
def WiFiUDP.beginPacket (u : WiFiUDP) (c : UdpCalls) : Bool × WiFiUDP :=
  if u.remotePort = 0 then (false, u)
  else if u.txBuffer = none ∧ ¬ c.malloc then (false, u)
  else
    let u := { u with txBuffer := some [] }
    if u.isOpen then (true, u)
    else if ¬ c.socket then (false, u)
    else (true, { u with isOpen := true })

/-- `beginPacket(ip, port)`. -/
def WiFiUDP.beginPacketTo (u : WiFiUDP) (ip : UInt32) (port : UInt16) (c : UdpCalls) : Bool × WiFiUDP :=
  { u with remoteIp := ip, remotePort := port }.beginPacket c

def WiFiUDP.beginMulticastPacket (u : WiFiUDP) (c : UdpCalls) : Bool × WiFiUDP :=
  if u.serverPort = 0 ∨ u.multicastIp = 0 then (false, u)
  else { u with remoteIp := u.multicastIp, remotePort := u.serverPort }.beginPacket c

/-- `endPacket`, where `sendto` comes out as `ok`; the buffer stays as it is. -/
def WiFiUDP.endPacket (u : WiFiUDP) (ok : Bool) : Bool × WiFiUDP :=
  if u.isOpen then
    (ok, { u with sent := u.sent ++ [⟨u.remoteIp, u.remotePort, u.txBuffer.getD []⟩] })
  else (false, u)

/-- `write(data)`. -/
def WiFiUDP.write1 (u : WiFiUDP) (data : UInt8) : Except Fault WiFiUDP :=
  match u.txBuffer with
  | none => .error .nullDeref
  | some buf =>
    if buf.length = 1460 then .ok { (u.endPacket true).2 with txBuffer := some [data] }
    else if buf.length < 1460 then .ok { u with txBuffer := some (buf ++ [data]) }
    else .error .outOfBounds

/-- `write(buffer, size)`. -/
def WiFiUDP.write (u : WiFiUDP) : List UInt8 → Except Fault WiFiUDP
  | [] => .ok u
  | b :: bs => u.write1 b >>= fun u => u.write bs

/-- How the allocations of `parsePacket` come out: its scratch memory, and the `cbuf`, which it does not
test for NULL. -/
structure ParseCalls where
  malloc : Bool
  cbuf : Bool

/-- `parsePacket` with the datagram that has come, if any: the length it returns. -/
def WiFiUDP.parsePacket (u : WiFiUDP) (c : ParseCalls) (d : Option Datagram) : Except Fault (Nat × WiFiUDP) :=
  if u.rxBuffer.isSome then .ok (0, u)
  else if ¬ c.malloc then .ok (0, u)
  else
    match d with
    | none => .ok (0, u)
    | some d =>
      let buf := d.bytes.take 1460
      let u := { u with remoteIp := d.ip, remotePort := d.port }
      if 0 < buf.length then
        if c.cbuf then .ok (buf.length, { u with rxBuffer := some buf }) else .error .nullDeref
      else .ok (buf.length, u)

def WiFiUDP.available (u : WiFiUDP) : Nat :=
  match u.rxBuffer with
  | none => 0
  | some buf => buf.length

/-- `read(buffer, len)`. -/
def WiFiUDP.read (u : WiFiUDP) (len : Nat) : List UInt8 × WiFiUDP :=
  match u.rxBuffer with
  | none => ([], u)
  | some buf =>
    let rest := buf.drop len
    (buf.take len, { u with rxBuffer := if rest.length = 0 then none else some rest })

def WiFiUDP.flush (u : WiFiUDP) : WiFiUDP := { u with rxBuffer := none }

/-! ## Runs -/

inductive UdpOp where
  | begin (port : UInt16) (c : UdpCalls)
  | beginMulticast (a : UInt32) (port : UInt16) (c : UdpCalls) (join : Bool)
  | stop
  | beginPacket (c : UdpCalls)
  | beginPacketTo (ip : UInt32) (port : UInt16) (c : UdpCalls)
  | beginMulticastPacket (c : UdpCalls)
  | endPacket (ok : Bool)
  | write (bytes : List UInt8)
  | parsePacket (c : ParseCalls) (d : Option Datagram)
  | read (len : Nat)
  | flush

def WiFiUDP.step (u : WiFiUDP) : UdpOp → Except Fault WiFiUDP
  | .begin port c => .ok (u.begin port c).2
  | .beginMulticast a port c join => .ok (u.beginMulticast a port c join).2
  | .stop => .ok u.stop
  | .beginPacket c => .ok (u.beginPacket c).2
  | .beginPacketTo ip port c => .ok (u.beginPacketTo ip port c).2
  | .beginMulticastPacket c => .ok (u.beginMulticastPacket c).2
  | .endPacket ok => .ok (u.endPacket ok).2
  | .write bytes => u.write bytes
  | .parsePacket c d => (u.parsePacket c d).map Prod.snd
  | .read len => .ok (u.read len).2
  | .flush => .ok u.flush

/-- What is in `tx_buffer` fits. -/
def WiFiUDP.Inv (u : WiFiUDP) : Prop := ∀ buf, u.txBuffer = some buf → buf.length ≤ 1460

/-- What is written to is there: `tx_buffer` for `write`, the `cbuf` for a `parsePacket` that takes bytes. -/
def UdpOp.Buffered (u : WiFiUDP) : UdpOp → Prop
  | .write (_ :: _) => u.txBuffer ≠ none
  | .parsePacket c (some d) => u.rxBuffer = none → c.malloc → d.bytes ≠ [] → c.cbuf
  | _ => True

section
variable {u : WiFiUDP} {buf bytes : List UInt8} {c : UdpCalls}

/-- What sending the pieces hands to `sendto`. -/
def WiFiUDP.handed (u : WiFiUDP) (pieces : List (List UInt8)) : List Datagram :=
  if u.isOpen then pieces.map (Datagram.mk u.remoteIp u.remotePort) else []

/-- Behind sending the pieces, with `buf` in the buffer. -/
def WiFiUDP.hold (u : WiFiUDP) (buf : List UInt8) (pieces : List (List UInt8)) : WiFiUDP :=
  { u with txBuffer := some buf, sent := u.sent ++ u.handed pieces }

theorem WiFiUDP.hold_hold {buf' : List UInt8} {p q : List (List UInt8)} :
    (u.hold buf p).hold buf' q = u.hold buf' (p ++ q) := by
  unfold WiFiUDP.hold WiFiUDP.handed
  cases u.isOpen <;> simp

theorem WiFiUDP.hold_nil (h : u.txBuffer = some buf) : u.hold buf [] = u := by
  unfold WiFiUDP.hold WiFiUDP.handed
  rw [← h]
  simp

theorem WiFiUDP.endPacket_eq (h : u.txBuffer = some buf) : (u.endPacket true).2 = u.hold buf [buf] := by
  unfold WiFiUDP.endPacket WiFiUDP.hold WiFiUDP.handed
  by_cases ho : u.isOpen
  · rw [if_pos ho, if_pos ho, h]
    rfl
  · rw [if_neg ho, if_neg ho, List.append_nil, ← h]

/-- `write` cuts what it is given, from what the buffer holds on. -/
theorem WiFiUDP.write_spec (h : u.txBuffer = some buf) (hle : buf.length ≤ 1460) (bytes : List UInt8) :
    ∃ out buf', u.write bytes = .ok (u.hold buf' out) ∧ buf'.length ≤ 1460 ∧
      ∀ r, chunksFrom 1460 buf (bytes ++ r) = out ++ chunksFrom 1460 buf' r := by
  induction bytes generalizing u buf with
  | nil => exact ⟨[], buf, by rw [WiFiUDP.hold_nil h]; rfl, hle, fun r => rfl⟩
  | cons b bs ih =>
    unfold WiFiUDP.write WiFiUDP.write1
    rw [h]
    dsimp only
    by_cases hfull : buf.length = 1460
    · rw [if_pos hfull, ok_seq, WiFiUDP.endPacket_eq h]
      have hlen : [b].length ≤ 1460 := by rw [List.length_singleton]; decide
      obtain ⟨out, buf', hok, hle', hcut⟩ := @ih (u.hold [b] [buf]) [b] rfl hlen
      refine ⟨buf :: out, buf', hok.trans ?_, hle', fun r => ?_⟩
      · rw [WiFiUDP.hold_hold]
        rfl
      · rw [List.cons_append, chunksFrom, if_pos hfull, hcut, List.cons_append]
    · rw [if_neg hfull, if_pos (by omega), ok_seq]
      have hlen : (buf ++ [b]).length ≤ 1460 := by
        rw [List.length_append, List.length_singleton]
        omega
      obtain ⟨out, buf', hok, hle', hcut⟩ := @ih { u with txBuffer := some (buf ++ [b]) } (buf ++ [b]) rfl hlen
      refine ⟨out, buf', hok, hle', fun r => ?_⟩
      rw [List.cons_append, chunksFrom, if_neg hfull, hcut]

theorem WiFiUDP.write_null (h : u.txBuffer = none) (b : UInt8) (bs : List UInt8) :
    u.write (b :: bs) = .error .nullDeref := by
  unfold WiFiUDP.write WiFiUDP.write1
  rw [h]
  rfl

/-- `parsePacket` leaves `tx_buffer` alone, and faults where its `cbuf` is missing. -/
theorem WiFiUDP.parsePacket_cases (u : WiFiUDP) (c : ParseCalls) (d : Option Datagram) :
    ((UdpOp.parsePacket c d).Buffered u ∧ ∃ n v, u.parsePacket c d = .ok (n, v) ∧ v.txBuffer = u.txBuffer) ∨
      (¬ (UdpOp.parsePacket c d).Buffered u ∧ u.parsePacket c d = .error .nullDeref) := by
  unfold WiFiUDP.parsePacket
  cases d with
  | none =>
    refine .inl ⟨trivial, ?_⟩
    split_ifs <;> exact ⟨0, u, rfl, rfl⟩
  | some d =>
    unfold UdpOp.Buffered
    dsimp only
    split
    · next hrx =>
      have hsome : u.rxBuffer ≠ none := Option.isSome_iff_ne_none.mp hrx
      exact .inl ⟨fun hnone => absurd hnone hsome, 0, u, rfl, rfl⟩
    · next hrx =>
      have hnone : u.rxBuffer = none := Option.not_isSome_iff_eq_none.mp hrx
      split
      · next hmalloc => exact .inl ⟨fun _ hm => absurd hm hmalloc, 0, u, rfl, rfl⟩
      · next hmalloc =>
        split
        · next hpos =>
          have hne : d.bytes ≠ [] := by
            rintro hnil
            rw [hnil] at hpos
            exact Nat.lt_irrefl 0 hpos
          split
          · next hcbuf => exact .inl ⟨fun _ _ _ => hcbuf, _, _, rfl, rfl⟩
          · next hcbuf => exact .inr ⟨fun h => hcbuf (h hnone (not_not.mp hmalloc) hne), rfl⟩
        · next hpos =>
          refine .inl ⟨fun _ _ hne => absurd ?_ hpos, _, _, rfl, rfl⟩
          rw [List.length_take]
          have hlen := List.length_pos_of_ne_nil hne
          omega

theorem WiFiUDP.Inv.of_none (h : u.txBuffer = none) : u.Inv := fun buf hb => by cases h.symm.trans hb

theorem WiFiUDP.Inv.of_empty (h : u.txBuffer = some []) : u.Inv := fun buf hb => by
  cases h.symm.trans hb
  exact Nat.zero_le _

theorem WiFiUDP.Inv.begin (u : WiFiUDP) (port : UInt16) (c : UdpCalls) : (u.begin port c).2.Inv := by
  unfold WiFiUDP.begin
  dsimp only
  split_ifs
  all_goals first | exact .of_none rfl | exact .of_empty rfl

theorem WiFiUDP.Inv.beginPacket (h : u.Inv) (c : UdpCalls) : (u.beginPacket c).2.Inv := by
  unfold WiFiUDP.beginPacket
  dsimp only
  split_ifs
  all_goals first | exact h | exact .of_empty rfl

theorem WiFiUDP.Inv.beginMulticast (u : WiFiUDP) (a : UInt32) (port : UInt16) (c : UdpCalls) (join : Bool) :
    (u.beginMulticast a port c join).2.Inv := by
  have h := Inv.begin u port c
  unfold WiFiUDP.beginMulticast
  split
  · next v heq =>
    rw [heq] at h
    split_ifs
    all_goals first | exact h | exact .of_none rfl
  · next v heq =>
    rw [heq] at h
    exact h

theorem WiFiUDP.Inv.step (h : u.Inv) (op : UdpOp) {t : WiFiUDP} (ht : u.step op = .ok t) : t.Inv := by
  cases op with
  | write bytes =>
    cases hb : u.txBuffer with
    | none =>
      cases bytes with
      | nil => cases ht; exact h
      | cons b bs => cases ht.symm.trans (WiFiUDP.write_null hb b bs)
    | some buf =>
      obtain ⟨out, buf', hok, hle, -⟩ := WiFiUDP.write_spec hb (h buf hb) bytes
      cases ht.symm.trans hok
      exact fun b hb' => by cases hb'; exact hle
  | begin port c => cases ht; exact .begin u port c
  | beginMulticast a port c join => cases ht; exact .beginMulticast u a port c join
  | stop => cases ht; exact .of_none rfl
  | beginPacket c => cases ht; exact h.beginPacket c
  | beginPacketTo ip port c =>
    cases ht
    exact Inv.beginPacket (u := { u with remoteIp := ip, remotePort := port }) h c
  | beginMulticastPacket c =>
    cases ht
    show (u.beginMulticastPacket c).2.Inv
    unfold WiFiUDP.beginMulticastPacket
    split_ifs
    · exact h
    · exact Inv.beginPacket (u := { u with remoteIp := u.multicastIp, remotePort := u.serverPort }) h c
  | endPacket ok =>
    cases ht
    show (u.endPacket ok).2.Inv
    unfold WiFiUDP.endPacket
    split_ifs <;> exact h
  | parsePacket c d =>
    rcases WiFiUDP.parsePacket_cases u c d with ⟨-, n, v, hok, htx⟩ | ⟨-, herr⟩
    · cases ht.symm.trans (congrArg (Except.map Prod.snd) hok)
      exact fun buf hb => h buf (htx.symm.trans hb)
    · cases ht.symm.trans (congrArg (Except.map Prod.snd) herr)
  | read len =>
    cases ht
    show (u.read len).2.Inv
    unfold WiFiUDP.read
    split <;> exact h
  | flush => cases ht; exact h

theorem WiFiUDP.step_ok_iff (h : u.Inv) (op : UdpOp) : (∃ t, u.step op = .ok t) ↔ op.Buffered u := by
  cases op with
  | write bytes =>
    cases bytes with
    | nil => exact iff_of_true ⟨u, rfl⟩ trivial
    | cons b bs =>
      cases hb : u.txBuffer with
      | none =>
        refine iff_of_false (fun ⟨t, ht⟩ => ?_) fun hc => hc hb
        cases ht.symm.trans (WiFiUDP.write_null hb b bs)
      | some buf =>
        obtain ⟨out, buf', hok, -⟩ := WiFiUDP.write_spec hb (h buf hb) (b :: bs)
        exact iff_of_true ⟨_, hok⟩ fun hnone => by cases hb.symm.trans hnone
  | parsePacket c d =>
    rcases WiFiUDP.parsePacket_cases u c d with ⟨hbuf, n, v, hok, -⟩ | ⟨hbuf, herr⟩
    · exact iff_of_true ⟨v, congrArg (Except.map Prod.snd) hok⟩ hbuf
    · refine iff_of_false (fun ⟨t, ht⟩ => ?_) hbuf
      cases ht.symm.trans (congrArg (Except.map Prod.snd) herr)
  | _ => exact iff_of_true ⟨_, rfl⟩ trivial

theorem WiFiUDP.step_error (h : u.Inv) (op : UdpOp) {e : Fault} (he : u.step op = .error e) : e = .nullDeref := by
  cases op with
  | write bytes =>
    cases hb : u.txBuffer with
    | none =>
      cases bytes with
      | nil => cases he
      | cons b bs => cases he.symm.trans (WiFiUDP.write_null hb b bs); rfl
    | some buf =>
      obtain ⟨out, buf', hok, -⟩ := WiFiUDP.write_spec hb (h buf hb) bytes
      cases he.symm.trans hok
  | parsePacket c d =>
    rcases WiFiUDP.parsePacket_cases u c d with ⟨-, n, v, hok, -⟩ | ⟨-, herr⟩
    · cases he.symm.trans (congrArg (Except.map Prod.snd) hok)
    · cases he.symm.trans (congrArg (Except.map Prod.snd) herr)
      rfl
  | _ => cases he

end

/-- **Writing is safe behind a buffer.** A run goes through exactly when each `write` finds `tx_buffer`
allocated and each `parsePacket` that takes bytes gets its `cbuf`; no write passes the end of a buffer,
and what else fails dereferences NULL. -/
theorem udp_completes (ops : List UdpOp) :
    ((∃ t, runFrom WiFiUDP.step .init ops = .ok t) ↔
        Along WiFiUDP.step (fun u op => op.Buffered u) .init ops) ∧
      ∀ e, runFrom WiFiUDP.step .init ops = .error e → e = .nullDeref := by
  have hstart : WiFiUDP.init.Inv := .of_none rfl
  have hkeep : ∀ u op t, WiFiUDP.Inv u → WiFiUDP.step u op = .ok t → WiFiUDP.Inv t :=
    fun _ op _ h ht => h.step op ht
  have herr : ∀ u op e, WiFiUDP.Inv u → WiFiUDP.step u op = .error e → e = .nullDeref :=
    fun _ op _ h he => WiFiUDP.step_error h op he
  exact ⟨completes_iff_along hkeep (fun _ op h => WiFiUDP.step_ok_iff h op) hstart,
    fun e he => runFrom_error hkeep herr hstart he⟩

/-! ## From packets to reads -/

/-- What a program writes to a peer between `beginPacket` and `endPacket`. -/
structure Packet where
  ip : UInt32
  port : UInt16
  calls : UdpCalls
  writes : List (List UInt8)

def Packet.bytes (p : Packet) : List UInt8 := p.writes.flatten

def Packet.ops (p : Packet) : List UdpOp :=
  .beginPacketTo p.ip p.port p.calls :: (p.writes.map .write ++ [.endPacket true])

/-- `beginPacket` succeeds. -/
def Packet.Begins (p : Packet) : Prop := p.port ≠ 0 ∧ p.calls.malloc ∧ p.calls.socket

/-- `while (available()) read(buffer, len)`: what is read. -/
def WiFiUDP.drain (len : Nat) : Nat → WiFiUDP → List UInt8 × WiFiUDP
  | 0, u => ([], u)
  | fuel + 1, u =>
    if u.available = 0 then ([], u)
    else
      let (rest, v) := WiFiUDP.drain len fuel (u.read len).2
      ((u.read len).1 ++ rest, v)

/-- A program that takes each datagram and reads it out, where its allocations succeed. -/
def WiFiUDP.receive (len : Nat) : List Datagram → WiFiUDP → Except Fault (List (List UInt8))
  | [], _ => .ok []
  | d :: ds, u => do
    let (_, v) ← u.parsePacket ⟨true, true⟩ (some d)
    let got ← WiFiUDP.receive len ds (WiFiUDP.drain len v.available v).2
    .ok ((WiFiUDP.drain len v.available v).1 :: got)

section
variable {u : WiFiUDP} {buf : List UInt8} {p : Packet} {len : Nat}

theorem WiFiUDP.writes_spec (h : u.txBuffer = some buf) (hle : buf.length ≤ 1460) (ws : List (List UInt8)) :
    ∃ out buf', runFrom WiFiUDP.step u (ws.map .write) = .ok (u.hold buf' out) ∧
      ∀ r, chunksFrom 1460 buf (ws.flatten ++ r) = out ++ chunksFrom 1460 buf' r := by
  induction ws generalizing u buf with
  | nil => exact ⟨[], buf, by rw [WiFiUDP.hold_nil h]; rfl, fun r => rfl⟩
  | cons w ws ih =>
    obtain ⟨out, buf', hok, hle', hcut⟩ := WiFiUDP.write_spec h hle w
    obtain ⟨out', buf'', hrun, hcut'⟩ := @ih (u.hold buf' out) buf' rfl hle'
    refine ⟨out ++ out', buf'', ?_, fun r => ?_⟩
    · rw [List.map_cons, runFrom_cons]
      show u.write w >>= _ = _
      rw [hok, ok_seq, hrun, WiFiUDP.hold_hold]
    · rw [List.flatten_cons, List.append_assoc, hcut, hcut', List.append_assoc]

/-- A packet goes out in chunks. -/
theorem Packet.run_ops (h : p.Begins) (u : WiFiUDP) :
    ∃ t, runFrom WiFiUDP.step u p.ops = .ok t ∧
      t.sent = u.sent ++ (chunks 1460 p.bytes).map (Datagram.mk p.ip p.port) := by
  obtain ⟨hport, hmalloc, hsocket⟩ := h
  have hbegin : u.step (.beginPacketTo p.ip p.port p.calls) = .ok
      { u with remoteIp := p.ip, remotePort := p.port, txBuffer := some [], isOpen := true } := by
    unfold WiFiUDP.step WiFiUDP.beginPacketTo WiFiUDP.beginPacket
    by_cases ho : u.isOpen <;> simp [hport, hmalloc, hsocket, ho]
  unfold Packet.ops
  rw [runFrom_cons, hbegin, ok_seq, runFrom_append]
  generalize hv : ({ u with remoteIp := p.ip, remotePort := p.port, txBuffer := some [], isOpen := true } : WiFiUDP) = v
  have htx : v.txBuffer = some [] := by rw [← hv]
  have hopen : v.isOpen = true := by rw [← hv]
  obtain ⟨out, buf', hrun, hcut⟩ := WiFiUDP.writes_spec htx (Nat.zero_le _) p.writes
  refine ⟨v.hold buf' (out ++ [buf']), ?_, ?_⟩
  · have hend : (v.hold buf' out).step (.endPacket true) = .ok (v.hold buf' (out ++ [buf'])) := by
      rw [← WiFiUDP.hold_hold]
      exact congrArg Except.ok (WiFiUDP.endPacket_eq rfl)
    rw [hrun, ok_seq, runFrom_cons, hend]
    rfl
  · have hchunks : chunks 1460 p.bytes = out ++ [buf'] := by
      have h := hcut []
      rwa [List.append_nil] at h
    rw [hchunks]
    unfold WiFiUDP.hold WiFiUDP.handed
    rw [hopen, if_pos rfl, ← hv]

theorem run_packets (packets : List Packet) (h : ∀ p ∈ packets, p.Begins) (u : WiFiUDP) :
    ∃ t, runFrom WiFiUDP.step u (packets.flatMap Packet.ops) = .ok t ∧
      t.sent = u.sent ++ packets.flatMap fun p => (chunks 1460 p.bytes).map (Datagram.mk p.ip p.port) := by
  induction packets generalizing u with
  | nil => exact ⟨u, rfl, (List.append_nil _).symm⟩
  | cons p packets ih =>
    obtain ⟨hp, hps⟩ := List.forall_mem_cons.mp h
    obtain ⟨v, hv, hsent⟩ := Packet.run_ops hp u
    obtain ⟨t, ht, hsent'⟩ := ih hps v
    refine ⟨t, ?_, ?_⟩
    · rw [List.flatMap_cons, runFrom_append, hv, ok_seq, ht]
    · rw [hsent', hsent, List.flatMap_cons, List.append_assoc]

theorem WiFiUDP.drain_none (h : u.rxBuffer = none) (fuel : Nat) : WiFiUDP.drain len fuel u = ([], u) := by
  cases fuel with
  | zero => rfl
  | succ fuel =>
    have havail : u.available = 0 := by
      unfold WiFiUDP.available
      rw [h]
    unfold WiFiUDP.drain
    exact if_pos havail

/-- A datagram is read out by reads of any size. -/
theorem WiFiUDP.drain_spec (hlen : 0 < len) (fuel : Nat) (h : u.rxBuffer = some buf) (hne : 0 < buf.length)
    (hle : buf.length ≤ fuel) :
    (WiFiUDP.drain len fuel u).1 = buf ∧ (WiFiUDP.drain len fuel u).2.rxBuffer = none := by
  induction fuel generalizing u buf with
  | zero => omega
  | succ fuel ih =>
    have havail : u.available = buf.length := by
      unfold WiFiUDP.available
      rw [h]
    have hread : (u.read len).1 = buf.take len := by
      unfold WiFiUDP.read
      rw [h]
    have hrx : (u.read len).2.rxBuffer = if (buf.drop len).length = 0 then none else some (buf.drop len) := by
      unfold WiFiUDP.read
      rw [h]
    unfold WiFiUDP.drain
    rw [if_neg (by omega)]
    dsimp only
    rw [hread]
    by_cases hrest : (buf.drop len).length = 0
    · rw [if_pos hrest] at hrx
      rw [WiFiUDP.drain_none hrx]
      have hall : buf.take len = buf := List.take_of_length_le (by rw [List.length_drop] at hrest; omega)
      exact ⟨by rw [hall]; exact List.append_nil buf, hrx⟩
    · rw [if_neg hrest] at hrx
      obtain ⟨h1, h2⟩ := ih hrx (Nat.pos_of_ne_zero hrest) (by rw [List.length_drop]; omega)
      exact ⟨by rw [h1, List.take_append_drop], h2⟩

/-- A datagram that fits is taken. -/
theorem WiFiUDP.parsePacket_taken (h : u.rxBuffer = none) (d : Datagram) (hd : d.bytes.length ≤ 1460) :
    ∃ v, u.parsePacket ⟨true, true⟩ (some d) = .ok (d.bytes.length, v) ∧
      v.rxBuffer = if 0 < d.bytes.length then some d.bytes else none := by
  unfold WiFiUDP.parsePacket
  rw [h, Option.isSome_none, if_neg Bool.false_ne_true, if_neg (not_not.mpr rfl)]
  dsimp only
  rw [List.take_of_length_le hd]
  split
  · exact ⟨_, rfl, rfl⟩
  · exact ⟨_, rfl, rfl⟩

/-- The datagrams that fit are read as they came. -/
theorem WiFiUDP.receive_spec (hlen : 0 < len) (ds : List Datagram) (hds : ∀ d ∈ ds, d.bytes.length ≤ 1460)
    (h : u.rxBuffer = none) : WiFiUDP.receive len ds u = .ok (ds.map Datagram.bytes) := by
  induction ds generalizing u with
  | nil => rfl
  | cons d ds ih =>
    obtain ⟨hd, hrest⟩ := List.forall_mem_cons.mp hds
    obtain ⟨v, hparse, hrx⟩ := WiFiUDP.parsePacket_taken h d hd
    unfold WiFiUDP.receive
    rw [hparse, ok_seq]
    dsimp only
    by_cases hne : 0 < d.bytes.length
    · rw [if_pos hne] at hrx
      have havail : v.available = d.bytes.length := by
        unfold WiFiUDP.available
        rw [hrx]
      obtain ⟨h1, h2⟩ := WiFiUDP.drain_spec hlen v.available hrx hne (Nat.le_of_eq havail.symm)
      rw [h1, ih hrest h2, ok_seq, List.map_cons]
    · rw [if_neg hne] at hrx
      have hnil : d.bytes = [] := List.eq_nil_of_length_eq_zero (Nat.eq_zero_of_not_pos hne)
      rw [WiFiUDP.drain_none hrx, ih hrest hrx, ok_seq, List.map_cons, hnil]

end

/-- **From packets to reads.** What a receiver reads of the datagrams sent is what the packets held, in
order, and it reads it packet by packet exactly when none holds more than 1460 bytes. -/
theorem udp_transfer (packets : List Packet) (hpackets : ∀ p ∈ packets, p.Begins) (u v : WiFiUDP)
    (hv : v.rxBuffer = none) (len : Nat) (hlen : 0 < len) :
    ∃ t ds got, runFrom WiFiUDP.step u (packets.flatMap Packet.ops) = .ok t ∧ t.sent = u.sent ++ ds ∧
      WiFiUDP.receive len ds v = .ok got ∧ got.flatten = (packets.map Packet.bytes).flatten ∧
      (got = packets.map Packet.bytes ↔ ∀ p ∈ packets, p.bytes.length ≤ 1460) := by
  obtain ⟨t, ht, hsent⟩ := run_packets packets hpackets u
  have hbytes : (packets.flatMap fun p => (chunks 1460 p.bytes).map (Datagram.mk p.ip p.port)).map
      Datagram.bytes = (packets.map Packet.bytes).flatMap (chunks 1460) := by
    rw [List.map_flatMap, List.flatMap_map]
    refine List.flatMap_congr fun p _ => ?_
    rw [List.map_map]
    exact List.map_id _
  have hfit : ∀ d ∈ packets.flatMap fun p => (chunks 1460 p.bytes).map (Datagram.mk p.ip p.port),
      d.bytes.length ≤ 1460 := by
    intro d hd
    obtain ⟨p, -, hd⟩ := List.mem_flatMap.mp hd
    obtain ⟨piece, hpiece, rfl⟩ := List.mem_map.mp hd
    exact (chunks_spec (by decide) p.bytes).short piece hpiece
  refine ⟨t, _, _, ht, hsent, WiFiUDP.receive_spec hlen _ hfit hv, ?_, ?_⟩
  · rw [hbytes, flatten_flatMap_chunks (by decide)]
  · rw [hbytes, flatMap_chunks_iff (by decide)]
    exact List.forall_mem_map

/-- A packet of 1461 bytes. -/
def longPacket : Packet := ⟨1, 53, ⟨true, true, true, true⟩, [List.replicate 1461 0]⟩

/-- One byte too many splits a packet. -/
theorem udp_transfer_long :
    ∃ t ds got, runFrom WiFiUDP.step .init ([longPacket].flatMap Packet.ops) = .ok t ∧ t.sent = ds ∧
      WiFiUDP.receive 1460 ds (WiFiUDP.init.begin 53 ⟨true, true, true, true⟩).2 = .ok got ∧
      got ≠ [longPacket.bytes] := by
  have hbegins : ∀ p ∈ [longPacket], p.Begins := by
    intro p hp
    obtain rfl := List.mem_singleton.mp hp
    exact ⟨by decide, rfl, rfl⟩
  obtain ⟨t, ds, got, hrun, hsent, hgot, -, hiff⟩ :=
    udp_transfer [longPacket] hbegins .init (WiFiUDP.init.begin 53 ⟨true, true, true, true⟩).2 rfl 1460
      (by decide)
  refine ⟨t, ds, got, hrun, hsent, hgot, fun heq => ?_⟩
  have hlong : longPacket.bytes.length = 1461 := by
    unfold Packet.bytes longPacket
    rw [List.flatten_cons, List.flatten_nil, List.append_nil, List.length_replicate]
  have hle := hiff.mp heq longPacket (List.mem_singleton_self _)
  omega

end CryptoLocker
