import CryptoLocker.Lib.Rows
import CryptoLocker.Server.Reservations

/-!
# `listen_aws` and the server's main loop

The receive buffer of `listen_aws` is a flat array of 1024 rows of 16 bytes;
`read` copies up to 1024 bytes to the start of row `i`, whatever lies there and
behind. `iteration` is the body of the accept loop, `finish` everything after
the loop, `listenAws` one call on a stream of accept results and `mainLoop`
the repeated calls. `Machine.step` runs the same code one accept at a time;
`mainLoop_eq_run` says the two agree on every stream.

A connection is known by the descriptor `accept` returns for it, and accept
never returns a descriptor twice. Sends succeed. The listening socket is open
throughout.
-/

namespace CryptoLocker

open Lib

/-! ## The receive buffer -/

def bufRows : Nat := 1024
def rowSize : Nat := 16
def bufSize : Nat := bufRows * rowSize

/-- The limit of each `read`. -/
def readLimit : Nat := 1024

/-- The bytes of `buffer` by offset; only offsets below `bufSize` are in the array. -/
abbrev Buffer := Nat → UInt8

/-- `char buffer[1024][16] = {0}`. -/
def Buffer.zero : Buffer := fun _ => 0

/-- The string that starts at row `j`. -/
def Buffer.row (buf : Buffer) (j : Nat) : CStr :=
  cstr ((List.range' (rowSize * j) (bufSize - rowSize * j)).map buf)

/-- The string at row `j` ends inside the array. -/
def Buffer.terminated (buf : Buffer) (j : Nat) : Bool :=
  Rows.terminated buf (rowSize * j) (bufSize - rowSize * j)

theorem Buffer.bytes_row (buf : Buffer) (j : Nat) :
    (buf.row j).bytes = Rows.stringAt buf (rowSize * j) (bufSize - rowSize * j) := rfl

/-! ## The server between two steps -/

abbrev Fd := Nat

/-- What one `read` on a connection gives: an error or the bytes that arrived. -/
inductive ReadResult where
  | error
  | bytes (payload : List UInt8)
  deriving DecidableEq

/-- What one `accept` gives: an error or a connection. -/
inductive AcceptResult where
  | error
  | conn (r : ReadResult)
  deriving DecidableEq

/-- A connection whose payload arrives whole in one read. -/
def arrival (payload : List UInt8) : AcceptResult := .conn (.bytes payload)

/-- The statics of the server, its descriptors and what it has sent on them.
`accepted` counts the connections so far and is the next descriptor. -/
structure Server where
  store : Store
  esp32Fd : Option Fd
  accepted : Fd
  openFds : List Fd
  sent : List (Fd × List UInt8)

/-- The server when `main` enters its loop, from the store `s`. -/
def Server.start (s : Store) : Server := ⟨s, none, 0, [], []⟩

def Server.accept (sv : Server) : Server :=
  { sv with accepted := sv.accepted + 1, openFds := sv.openFds ++ [sv.accepted] }

/-- `send`; on descriptor -1 (`none`) it fails and nothing is sent. -/
def Server.send (sv : Server) (fd : Option Fd) (bytes : List UInt8) : Server :=
  { sv with sent := sv.sent ++ fd.toList.map (·, bytes) }

/-- `close`; on descriptor -1 it fails. -/
def Server.close (sv : Server) (fd : Option Fd) : Server :=
  { sv with openFds := sv.openFds.filter (some · ≠ fd) }

def ACK : List UInt8 := (lit "ACK").bytes
def cmd : List UInt8 := (lit "cmd").bytes

/-! ## The accept loop -/

/-- `read(client_fd, buffer[i], 1024)`; after an error the buffer is as it was. -/
def readRow (buf : Buffer) (i : Nat) : ReadResult → Except Fault Buffer
  | .error => .ok buf
  | .bytes payload =>
    let bytes := payload.take readLimit
    if rowSize * i + bytes.length ≤ bufSize then .ok (Rows.overwrite buf (rowSize * i) bytes)
    else .error .outOfBounds

/-- Row `i` as the string functions read it. -/
def readString (buf : Buffer) (i : Nat) : Except Fault CStr :=
  if buf.terminated i then .ok (buf.row i) else .error .outOfBounds

/-- Lines 213–222: a row "ESP32-LOCKER" is answered when there is a list. -/
def Server.poll (sv : Server) (fd : Fd) (row : CStr) : Server :=
  if strcmp row ESP32_LOCKER = 0 then
    let sv := { sv with esp32Fd := some fd }
    if sv.store.reservations.isSome then sv.send sv.esp32Fd cmd else sv
  else sv

/-- The body of the loop for row `i`; `true` says it was left by `break`. -/
def iteration (sv : Server) (buf : Buffer) (i : Nat) (fd : Fd) (r : ReadResult) :
    Except Fault (Server × Buffer × Bool) := do
  let buf ← readRow buf i r
  let row ← readString buf i
  if strcmp row CStr.empty = 0 then .ok (sv, buf, true)
  else .ok (sv.poll fd row, buf, false)

/-- The rows the dispatch reads on the store `s`: the fields of a reservation
only if one is made, and the user to delete only if there is a list. -/
def rowsRead (s : Store) (rows : EntryData) : List Nat :=
  if strcmp (rows 0) CREATE = 0 then
    match s.reservations with
    | none => [0, 1, 3, 7]
    | some r => if r.head ≠ none ∧ searchReservation s (rows 0) = .ok none then [0, 1, 2, 3, 7] else [0]
  else if strcmp (rows 0) DELETE = 0 then if s.reservations.isSome then [0, 1] else [0]
  else [0]

/-- Lines 226–257: dispatch, refresh, acknowledge and close. -/
def Server.finish (M : Malloc Addr) (sv : Server) (rows : EntryData) (clientFd : Option Fd) :
    Except Fault Server := do
  let store ← session M sv.store rows
  let sv := { sv with store }.send clientFd ACK
  if strcmp (rows 0) ESP32_LOCKER ≠ 0 then .ok (sv.close clientFd) else .ok sv

/-- The end of a call, on the rows of the buffer. -/
def finishBuffer (M : Malloc Addr) (sv : Server) (buf : Buffer) (clientFd : Option Fd) :
    Except Fault Server :=
  if (rowsRead sv.store buf.row).all buf.terminated then sv.finish M buf.row clientFd
  else .error .outOfBounds

/-- What one call of `listen_aws` received: the accepts it consumed and the rows
it dispatched. -/
structure Served where
  conns : List AcceptResult
  rows : EntryData

/-! ## One accept at a time -/

/-- The server inside the accept loop of the current call, whose row index is
the number of connections in `conns`, with the calls that have dispatched. A
fault stops the machine. -/
structure Machine where
  server : Server
  buffer : Buffer
  conns : List AcceptResult
  served : List Served
  fault : Option Fault

/-- A call about to accept its first connection. -/
def Machine.start (sv : Server) (served : List Served) : Machine := ⟨sv, Buffer.zero, [], served, none⟩

/-- The program when `main` enters its loop. -/
def Machine.init : Machine := Machine.start (Server.start Store.init) []

/-- The call is over with the buffer `buf`; the next one begins. -/
def Machine.endCall (M : Malloc Addr) (served : List Served) (sv : Server) (buf : Buffer)
    (conns : List AcceptResult) (clientFd : Option Fd) : Machine :=
  match finishBuffer M sv buf clientFd with
  | .ok sv' => Machine.start sv' (served ++ [⟨conns, buf.row⟩])
  | .error f => { Machine.start sv (served ++ [⟨conns, buf.row⟩]) with fault := some f }

def Machine.step (M : Malloc Addr) (m : Machine) (a : AcceptResult) : Machine :=
  if m.fault.isSome then m
  else
    match a with
    | .error => Machine.endCall M m.served m.server m.buffer (m.conns ++ [a]) none
    | .conn r =>
      match iteration m.server.accept m.buffer m.conns.length m.server.accepted r with
      | .error f => { m with server := m.server.accept, fault := some f }
      | .ok (sv, buf, false) => { m with server := sv, buffer := buf, conns := m.conns ++ [a] }
      | .ok (sv, buf, true) =>
        Machine.endCall M m.served sv buf (m.conns ++ [a]) (some m.server.accepted)

def Machine.run (M : Malloc Addr) (m : Machine) (stream : List AcceptResult) : Machine :=
  stream.foldl (Machine.step M) m

/-! ## The loops of the source -/

/-- How a call ends on a finite stream: it returns with the rest of the stream,
or the stream is used up inside the loop, or it faults. -/
inductive Outcome where
  | returned (sv : Server) (served : Served) (rest : List AcceptResult)
  | stopped (m : Machine)

/-- The accept loop from row `conns.length`, and what follows it. -/
def acceptLoop (M : Malloc Addr) (served : List Served) :
    Server → Buffer → List AcceptResult → List AcceptResult → Outcome
  | sv, buf, conns, [] => .stopped ⟨sv, buf, conns, served, none⟩
  | sv, buf, conns, .error :: rest =>
    match finishBuffer M sv buf none with
    | .ok sv' => .returned sv' ⟨conns ++ [.error], buf.row⟩ rest
    | .error f =>
      .stopped { Machine.start sv (served ++ [⟨conns ++ [.error], buf.row⟩]) with fault := some f }
  | sv, buf, conns, .conn r :: rest =>
    match iteration sv.accept buf conns.length sv.accepted r with
    | .error f => .stopped ⟨sv.accept, buf, conns, served, some f⟩
    | .ok (sv', buf, false) => acceptLoop M served sv' buf (conns ++ [.conn r]) rest
    | .ok (sv', buf, true) =>
      match finishBuffer M sv' buf (some sv.accepted) with
      | .ok sv' => .returned sv' ⟨conns ++ [.conn r], buf.row⟩ rest
      | .error f =>
        .stopped { Machine.start sv' (served ++ [⟨conns ++ [.conn r], buf.row⟩]) with fault := some f }

/-- One call of `listen_aws`, after the calls `served`. -/
def listenAws (M : Malloc Addr) (served : List Served) (sv : Server) (stream : List AcceptResult) :
    Outcome :=
  acceptLoop M served sv Buffer.zero [] stream

/-- `while (1) listen_aws(server)`, for at most `n` calls. -/
def mainLoop (M : Malloc Addr) : Nat → List Served → Server → List AcceptResult → Machine
  | 0, served, sv, _ => Machine.start sv served
  | n + 1, served, sv, stream =>
    match listenAws M served sv stream with
    | .stopped m => m
    | .returned sv call rest => mainLoop M n (served ++ [call]) sv rest

section
variable {M : Malloc Addr}

theorem Machine.run_append (m : Machine) (s t : List AcceptResult) :
    m.run M (s ++ t) = (m.run M s).run M t := List.foldl_append

theorem Machine.run_cons (m : Machine) (a : AcceptResult) (t : List AcceptResult) :
    m.run M (a :: t) = (m.step M a).run M t := rfl

section
variable {m : Machine} {r : ReadResult} {sv : Server} {buf : Buffer}

theorem Machine.step_acceptError (hf : m.fault = none) :
    m.step M .error = Machine.endCall M m.served m.server m.buffer (m.conns ++ [.error]) none := by
  unfold Machine.step
  rw [hf]; rfl

theorem Machine.step_fault {f : Fault} (hf : m.fault = none)
    (hi : iteration m.server.accept m.buffer m.conns.length m.server.accepted r = .error f) :
    m.step M (.conn r) = { m with server := m.server.accept, fault := some f } := by
  unfold Machine.step
  simp only [hf, hi]
  rfl

theorem Machine.step_again (hf : m.fault = none)
    (hi : iteration m.server.accept m.buffer m.conns.length m.server.accepted r =
      .ok (sv, buf, false)) :
    m.step M (.conn r) = { m with server := sv, buffer := buf, conns := m.conns ++ [.conn r] } := by
  unfold Machine.step
  simp only [hf, hi]
  rfl

theorem Machine.step_break (hf : m.fault = none)
    (hi : iteration m.server.accept m.buffer m.conns.length m.server.accepted r =
      .ok (sv, buf, true)) :
    m.step M (.conn r) =
      Machine.endCall M m.served sv buf (m.conns ++ [.conn r]) (some m.server.accepted) := by
  unfold Machine.step
  simp only [hf, hi]
  rfl

end

/-- The accept `a` leaves the loop, with this server, buffer and `client_fd`. -/
def Machine.Leaves (m : Machine) (sv : Server) (buf : Buffer) (fd : Option Fd) : AcceptResult → Prop
  | .error => sv = m.server ∧ buf = m.buffer ∧ fd = none
  | .conn r => iteration m.server.accept m.buffer m.conns.length m.server.accepted r = .ok (sv, buf, true) ∧
      fd = some m.server.accepted

theorem Machine.step_leaves {m : Machine} {sv : Server} {buf : Buffer} {fd : Option Fd} {a : AcceptResult}
    (hf : m.fault = none) (hl : m.Leaves sv buf fd a) :
    m.step M a = Machine.endCall M m.served sv buf (m.conns ++ [a]) fd := by
  cases a with
  | error =>
    obtain ⟨rfl, rfl, rfl⟩ := hl
    exact Machine.step_acceptError hf
  | conn r =>
    obtain ⟨hi, rfl⟩ := hl
    exact Machine.step_break hf hi

/-- Everything a step can do: fault in the loop, stay in it, or end the call. -/
theorem Machine.step_cases (M : Malloc Addr) {m : Machine} (hf : m.fault = none) (a : AcceptResult) :
    (∃ r f, a = .conn r ∧
        iteration m.server.accept m.buffer m.conns.length m.server.accepted r = .error f ∧
        m.step M a = { m with server := m.server.accept, fault := some f }) ∨
      (∃ r sv buf, a = .conn r ∧
        iteration m.server.accept m.buffer m.conns.length m.server.accepted r = .ok (sv, buf, false) ∧
        m.step M a = { m with server := sv, buffer := buf, conns := m.conns ++ [a] }) ∨
      (∃ sv buf fd, m.Leaves sv buf fd a ∧
        m.step M a = Machine.endCall M m.served sv buf (m.conns ++ [a]) fd) := by
  cases a with
  | error =>
    have hl : m.Leaves m.server m.buffer none .error := ⟨rfl, rfl, rfl⟩
    exact .inr (.inr ⟨_, _, _, hl, Machine.step_leaves hf hl⟩)
  | conn r =>
    cases hi : iteration m.server.accept m.buffer m.conns.length m.server.accepted r with
    | error f => exact .inl ⟨r, f, rfl, hi, Machine.step_fault hf hi⟩
    | ok x =>
      obtain ⟨sv, buf, left⟩ := x
      cases left with
      | false => exact .inr (.inl ⟨r, sv, buf, rfl, hi, Machine.step_again hf hi⟩)
      | true =>
        have hl : m.Leaves sv buf (some m.server.accepted) (.conn r) := ⟨hi, rfl⟩
        exact .inr (.inr ⟨sv, buf, _, hl, Machine.step_leaves hf hl⟩)

/-- A fault stops the machine. -/
theorem Machine.run_fault {m : Machine} {f : Fault} (h : m.fault = some f) (s : List AcceptResult) :
    m.run M s = m := by
  induction s with
  | nil => rfl
  | cons a s ih =>
    have hstep : m.step M a = m := by
      unfold Machine.step
      rw [h]; rfl
    rw [Machine.run_cons, hstep, ih]

/-- The call that ends has been served, whatever its session did. -/
theorem Machine.endCall_served (served : List Served) (sv : Server) (buf : Buffer)
    (conns : List AcceptResult) (clientFd : Option Fd) :
    (Machine.endCall M served sv buf conns clientFd).served = served ++ [⟨conns, buf.row⟩] := by
  unfold Machine.endCall
  split <;> rfl

theorem Machine.served_step (m : Machine) (a : AcceptResult) : m.served <+: (m.step M a).served := by
  unfold Machine.step
  split
  · exact List.prefix_rfl
  · split
    · rw [Machine.endCall_served]
      exact List.prefix_append _ _
    · split
      · exact List.prefix_rfl
      · exact List.prefix_rfl
      · rw [Machine.endCall_served]
        exact List.prefix_append _ _

/-- What has been served stays served. -/
theorem Machine.served_run (m : Machine) (s : List AcceptResult) : m.served <+: (m.run M s).served := by
  induction s generalizing m with
  | nil => exact List.prefix_rfl
  | cons a s ih => exact (m.served_step a).trans (ih _)

/-- The outcome of a call is where the machine gets from `m`. -/
def Outcome.Of (M : Malloc Addr) (m : Machine) (stream : List AcceptResult) : Outcome → Prop
  | .stopped m' => m.run M stream = m'
  | .returned sv call rest => rest.length < stream.length ∧
      m.run M stream = (Machine.start sv (m.served ++ [call])).run M rest

/-- A step inside the call in front of its outcome. -/
theorem Outcome.Of.step {o : Outcome} {m : Machine} {a : AcceptResult} {rest : List AcceptResult}
    (hserved : (m.step M a).served = m.served) (h : o.Of M (m.step M a) rest) :
    o.Of M m (a :: rest) := by
  cases o with
  | stopped m' => exact h
  | returned sv call rest' =>
    obtain ⟨hlen, hrun⟩ := h
    exact ⟨Nat.lt_succ_of_lt hlen, by rw [Machine.run_cons, hrun, hserved]⟩

/-- The accept that leaves the loop ends the call. -/
theorem Outcome.of_endCall {m : Machine} {a : AcceptResult} {sv : Server} {buf : Buffer}
    {conns : List AcceptResult} {fd : Option Fd}
    (hstep : m.step M a = Machine.endCall M m.served sv buf conns fd) (rest : List AcceptResult) :
    Outcome.Of M m (a :: rest)
      (match finishBuffer M sv buf fd with
        | .ok sv' => .returned sv' ⟨conns, buf.row⟩ rest
        | .error f =>
          .stopped { Machine.start sv (m.served ++ [⟨conns, buf.row⟩]) with fault := some f }) := by
  unfold Machine.endCall at hstep
  cases hf : finishBuffer M sv buf fd with
  | ok sv' =>
    rw [hf] at hstep
    exact ⟨Nat.lt_succ_self _, by rw [Machine.run_cons, hstep]⟩
  | error f =>
    rw [hf] at hstep
    show Machine.run M m (a :: rest) = _
    rw [Machine.run_cons, hstep]
    exact Machine.run_fault rfl rest

/-- A call from inside the loop ends where the machine does. -/
theorem acceptLoop_run (M : Malloc Addr) (served : List Served) (stream : List AcceptResult)
    (sv : Server) (buf : Buffer) (conns : List AcceptResult) :
    (acceptLoop M served sv buf conns stream).Of M ⟨sv, buf, conns, served, none⟩ stream := by
  induction stream generalizing sv buf conns with
  | nil => exact rfl
  | cons a rest ih =>
    cases a with
    | error =>
      simp only [acceptLoop]
      exact Outcome.of_endCall
        (Machine.step_acceptError (m := ⟨sv, buf, conns, served, none⟩) rfl) rest
    | conn r =>
      simp only [acceptLoop]
      cases hi : iteration sv.accept buf conns.length sv.accepted r with
      | error f =>
        have hstep := Machine.step_fault (M := M) (m := ⟨sv, buf, conns, served, none⟩) rfl hi
        refine Outcome.Of.step (by rw [hstep]) ?_
        rw [hstep]
        exact Machine.run_fault rfl rest
      | ok x =>
        obtain ⟨sv', buf', left⟩ := x
        cases left with
        | false =>
          have hstep := Machine.step_again (M := M) (m := ⟨sv, buf, conns, served, none⟩) rfl hi
          refine Outcome.Of.step (by rw [hstep]) ?_
          rw [hstep]
          exact ih sv' buf' (conns ++ [.conn r])
        | true =>
          exact Outcome.of_endCall
            (Machine.step_break (m := ⟨sv, buf, conns, served, none⟩) rfl hi) rest

/-- **The loops.** On every finite stream the repeated calls of `listen_aws`
and the machine end in the same state. -/
theorem mainLoop_eq_run {n : Nat} {stream : List AcceptResult} (hn : stream.length < n)
    (served : List Served) (sv : Server) :
    mainLoop M n served sv stream = (Machine.start sv served).run M stream := by
  induction n generalizing stream served sv with
  | zero => omega
  | succ n ih =>
    have hloop := acceptLoop_run M served stream sv Buffer.zero []
    simp only [mainLoop, listenAws]
    revert hloop
    cases acceptLoop M served sv Buffer.zero [] stream with
    | stopped m => exact fun h => h.symm
    | returned sv' call rest =>
      rintro ⟨hlen, hrun⟩
      exact (ih (by omega) _ _).trans hrun.symm

end

end CryptoLocker
