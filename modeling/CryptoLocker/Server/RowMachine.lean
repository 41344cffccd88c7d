import CryptoLocker.Lib.Runs
import CryptoLocker.Server.Listen

/-!
# The calls on payloads that fit their rows

When every payload fits its row with the terminator, the buffer is the layout
of the payloads received and each row holds the string of its own payload. The
row machine forgets the buffer, the descriptors and what was sent on them: a
call collects rows up to an empty one and runs the session on them.
`Machine.Lined.run` is the refinement.
-/

namespace CryptoLocker

open Lib

/-- The bytes an accept brings. -/
def AcceptResult.payload : AcceptResult → List UInt8
  | .conn (.bytes payload) => payload
  | _ => []

/-- The string those bytes are. -/
def AcceptResult.row (a : AcceptResult) : CStr := cstr a.payload

/-- The bytes fit a row with the terminator. -/
def AcceptResult.Fits (a : AcceptResult) : Prop := a.payload.length < rowSize

instance (a : AcceptResult) : Decidable a.Fits := inferInstanceAs (Decidable (_ < _))

/-- The accept ends the call. -/
def AcceptResult.ends (a : AcceptResult) : Bool := a.row = CStr.empty

theorem AcceptResult.ends_iff {a : AcceptResult} : a.ends = true ↔ a.row = CStr.empty :=
  decide_eq_true_iff

theorem AcceptResult.ends_eq_false {a : AcceptResult} : a.ends = false ↔ a.row ≠ CStr.empty :=
  decide_eq_false_iff_not

/-- The rows of a call with the accepts `conns`. -/
def rowsOfConns (conns : List AcceptResult) : EntryData := rowsOf (conns.map AcceptResult.row)

/-- The row of the accept that ends a call is as if it were not there. -/
theorem rowsOf_snoc_empty (l : List CStr) : rowsOf (l ++ [CStr.empty]) = rowsOf l := by
  funext j
  simp only [rowsOf, List.getD_eq_getElem?_getD]
  by_cases hj : j < l.length
  · rw [List.getElem?_append_left hj]
  · rw [List.getElem?_append_right (by omega), List.getElem?_eq_none (l := l) (by omega)]
    cases j - l.length <;> rfl

theorem rowsOfConns_ends {conns : List AcceptResult} {a : AcceptResult} (ha : a.ends) :
    rowsOfConns (conns ++ [a]) = rowsOfConns conns := by
  rw [rowsOfConns, List.map_append, List.map_singleton, AcceptResult.ends_iff.mp ha,
    rowsOf_snoc_empty, rowsOfConns]

/-! ## The row machine -/

structure RowMachine where
  store : Store
  conns : List AcceptResult
  served : List Served
  fault : Option Fault

def RowMachine.start (s : Store) (served : List Served) : RowMachine := ⟨s, [], served, none⟩

/-- The session on the accepts `conns`, and the next call. -/
def RowMachine.endCall (M : Malloc Addr) (s : Store) (served : List Served)
    (conns : List AcceptResult) : RowMachine :=
  match session M s (rowsOfConns conns) with
  | .ok s' => RowMachine.start s' (served ++ [⟨conns, rowsOfConns conns⟩])
  | .error f => { RowMachine.start s (served ++ [⟨conns, rowsOfConns conns⟩]) with fault := some f }

/-- A full buffer has no row for one more connection. -/
def RowMachine.step (M : Malloc Addr) (m : RowMachine) (a : AcceptResult) : RowMachine :=
  if m.fault.isSome then m
  else if a ≠ .error ∧ bufRows ≤ m.conns.length then { m with fault := some .outOfBounds }
  else if a.ends then RowMachine.endCall M m.store m.served (m.conns ++ [a])
  else { m with conns := m.conns ++ [a] }

def RowMachine.run (M : Malloc Addr) (m : RowMachine) (stream : List AcceptResult) : RowMachine :=
  stream.foldl (RowMachine.step M) m

/-- What the row machine keeps of the machine. -/
def Machine.forget (m : Machine) : RowMachine := ⟨m.server.store, m.conns, m.served, m.fault⟩

@[simp] theorem Machine.forget_served (m : Machine) : m.forget.served = m.served := rfl
@[simp] theorem Machine.forget_fault (m : Machine) : m.forget.fault = m.fault := rfl

/-! ## The buffer -/

section
variable {ps : List (List UInt8)} {j : Nat}

theorem rowsOf_map_cstr : rowsOf (ps.map cstr) j = cstr (ps.getD j []) := List.getD_map _ _ _

theorem getD_fits (hps : ∀ p ∈ ps, p.length < rowSize) (j : Nat) : (ps.getD j []).length < rowSize := by
  by_cases hj : j < ps.length
  · rw [List.getD_eq_getElem _ _ hj]
    exact hps _ (List.getElem_mem hj)
  · rw [List.getD_eq_default _ _ (by omega)]
    decide

/-- A row whose payload leaves room for the terminator holds that payload. -/
theorem Buffer.row_layout_at (hlen : ps.length ≤ bufRows) (hp : (ps.getD j []).length < rowSize) :
    Buffer.row (Rows.layout rowSize ps) j = rowsOf (ps.map cstr) j := by
  apply CStr.ext
  rw [Buffer.bytes_row, rowsOf_map_cstr, bytes_cstr]
  by_cases hj : j < bufRows
  · refine Rows.stringAt_layout hp ?_
    simp only [bufSize, bufRows, rowSize] at hj ⊢
    omega
  · have hn : bufSize - rowSize * j = 0 := by
      simp only [bufSize, bufRows, rowSize] at hj ⊢
      omega
    rw [hn, List.getD_eq_default _ _ (by omega)]
    rfl

theorem Buffer.row_layout (hps : ∀ p ∈ ps, p.length < rowSize) (hlen : ps.length ≤ bufRows) :
    Buffer.row (Rows.layout rowSize ps) = rowsOf (ps.map cstr) :=
  funext fun j => Buffer.row_layout_at hlen (getD_fits hps j)

theorem Buffer.terminated_layout (hps : ∀ p ∈ ps, p.length < rowSize) (hj : j < bufRows) :
    Buffer.terminated (Rows.layout rowSize ps) j := by
  refine Rows.terminated_iff.mpr ⟨rowSize - 1, ?_, ?_⟩
  · simp only [bufSize, bufRows, rowSize] at hj ⊢
    omega
  · rw [Rows.layout_cell (by decide)]
    exact List.getD_eq_default _ _ (Nat.le_sub_one_of_lt (getD_fits hps j))

theorem readRow_layout {r : ReadResult} (hr : (AcceptResult.conn r).Fits) (hlen : ps.length < bufRows) :
    readRow (Rows.layout rowSize ps) ps.length r =
      .ok (Rows.layout rowSize (ps ++ [(AcceptResult.conn r).payload])) := by
  cases r with
  | error =>
    show Except.ok _ = Except.ok (Rows.layout rowSize (ps ++ [[]]))
    rw [← Rows.overwrite_layout (by decide) (by decide), Rows.overwrite_nil]
  | bytes p =>
    have hp : p.length < rowSize := hr
    have htake : p.take readLimit = p :=
      List.take_of_length_le (by simp only [rowSize, readLimit] at hp ⊢; omega)
    have hin : rowSize * ps.length + p.length ≤ bufSize := by
      simp only [bufSize, bufRows, rowSize] at hp hlen ⊢
      omega
    simp only [readRow, htake, if_pos hin]
    rw [Rows.overwrite_layout (by decide) hp.le]
    rfl

/-- One turn of the loop on a payload that fits. -/
theorem iteration_fits (sv : Server) (fd : Fd) {r : ReadResult}
    (hps : ∀ p ∈ ps, p.length < rowSize) (hr : (AcceptResult.conn r).Fits) (hlen : ps.length < bufRows) :
    iteration sv (Rows.layout rowSize ps) ps.length fd r =
      .ok (if (AcceptResult.conn r).ends then sv else sv.poll fd (AcceptResult.conn r).row,
        Rows.layout rowSize (ps ++ [(AcceptResult.conn r).payload]), (AcceptResult.conn r).ends) := by
  have hps' : ∀ p ∈ ps ++ [(AcceptResult.conn r).payload], p.length < rowSize := by
    intro p hp
    rcases List.mem_append.mp hp with hp | hp
    · exact hps p hp
    · exact List.mem_singleton.mp hp ▸ hr
  have hrow : Buffer.row (Rows.layout rowSize (ps ++ [(AcceptResult.conn r).payload])) ps.length =
      (AcceptResult.conn r).row := by
    rw [Buffer.row_layout hps' (by rw [List.length_append]; exact hlen), rowsOf_map_cstr]
    simp [AcceptResult.row]
  unfold iteration readString
  rw [readRow_layout hr hlen, ok_seq, if_pos (Buffer.terminated_layout hps' hlen), ok_seq, hrow]
  cases hends : (AcceptResult.conn r).ends with
  | true => simp [AcceptResult.ends_iff.mp hends]
  | false => simp [AcceptResult.ends_eq_false.mp hends]

/-- There is no row behind the last. -/
theorem iteration_full {sv : Server} {buf : Buffer} {i : Nat} {fd : Fd} {r : ReadResult}
    (hi : bufRows ≤ i) : iteration sv buf i fd r = .error .outOfBounds := by
  have hstring : ∀ b, readString b i = .error .outOfBounds := by
    intro b
    have hn : bufSize - rowSize * i = 0 := by
      simp only [bufSize, bufRows, rowSize] at hi ⊢
      omega
    simp [readString, Buffer.terminated, hn, Rows.terminated]
  unfold iteration
  simp only [hstring]
  cases r with
  | error => rfl
  | bytes p =>
    simp only [readRow]
    split <;> rfl

end

/-! ## The end of a call -/

section
variable {M : Malloc Addr} {sv sv' : Server} {rows : EntryData} {fd : Option Fd}

@[simp] theorem Server.accept_store (sv : Server) : sv.accept.store = sv.store := rfl

@[simp] theorem Server.poll_store (sv : Server) (n : Fd) (row : CStr) :
    (sv.poll n row).store = sv.store := by
  unfold Server.poll
  split
  · dsimp only
    split <;> rfl
  · rfl

/-- What the loop body did to the server when it did not fault. -/
theorem iteration_server {fd : Fd} {buf buf' : Buffer} {i : Nat} {r : ReadResult} {left : Bool}
    (h : iteration sv buf i fd r = .ok (sv', buf', left)) : sv' = sv ∨ ∃ row, sv' = sv.poll fd row := by
  obtain ⟨b, -, h⟩ := seq_ok.mp h
  obtain ⟨row, -, h⟩ := seq_ok.mp h
  split at h
  · cases h
    exact .inl rfl
  · cases h
    exact .inr ⟨row, rfl⟩

theorem iteration_store {fd : Fd} {buf buf' : Buffer} {i : Nat} {r : ReadResult} {left : Bool}
    (h : iteration sv buf i fd r = .ok (sv', buf', left)) : sv'.store = sv.store := by
  rcases iteration_server h with rfl | ⟨row, rfl⟩
  · rfl
  · exact Server.poll_store ..

theorem Machine.Leaves.store {m : Machine} {buf : Buffer} {a : AcceptResult} (h : m.Leaves sv buf fd a) :
    sv.store = m.server.store := by
  cases a with
  | error => exact congrArg _ h.1
  | conn r => exact (iteration_store h.1).trans (Server.accept_store _)

theorem finish_ok (h : sv.finish M rows fd = .ok sv') :
    session M sv.store rows = .ok sv'.store ∧ sv'.accepted = sv.accepted ∧
      sv'.sent = sv.sent ++ fd.toList.map (·, ACK) := by
  obtain ⟨s, hs, h⟩ := seq_ok.mp h
  split at h <;> cases h <;> exact ⟨hs, rfl, rfl⟩

theorem finish_error {f : Fault} (h : sv.finish M rows fd = .error f) :
    session M sv.store rows = .error f := by
  unfold Server.finish at h
  cases hs : session M sv.store rows with
  | error e => rw [hs, error_seq] at h; cases h; rfl
  | ok s =>
    rw [hs, ok_seq] at h
    dsimp only at h
    split at h <;> cases h

/-- No request has a row behind row 7. -/
theorem rowsRead_le {s : Store} {j : Nat} (hj : j ∈ rowsRead s rows) : j ≤ 7 := by
  have hall : (rowsRead s rows).all (· ≤ 7) := by
    unfold rowsRead
    split
    · split
      · decide
      · split <;> decide
    · split
      · split <;> decide
      · decide
  exact of_decide_eq_true (List.all_eq_true.mp hall j hj)

theorem finishBuffer_layout {ps : List (List UInt8)} (hps : ∀ p ∈ ps, p.length < rowSize)
    (hlen : ps.length ≤ bufRows) :
    finishBuffer M sv (Rows.layout rowSize ps) fd = sv.finish M (rowsOf (ps.map cstr)) fd := by
  unfold finishBuffer
  rw [Buffer.row_layout hps hlen]
  exact if_pos (List.all_eq_true.mpr fun j hj =>
    Buffer.terminated_layout hps ((rowsRead_le hj).trans_lt (by decide)))

/-- The end of a call on fitting payloads is the session on their strings. -/
theorem endCall_forget {served : List Served} {ps : List (List UInt8)} {conns : List AcceptResult}
    (hps : ∀ p ∈ ps, p.length < rowSize) (hlen : ps.length ≤ bufRows)
    (hrows : rowsOf (ps.map cstr) = rowsOfConns conns) :
    (Machine.endCall M served sv (Rows.layout rowSize ps) conns fd).forget =
      RowMachine.endCall M sv.store served conns := by
  unfold Machine.endCall RowMachine.endCall
  rw [finishBuffer_layout hps hlen, Buffer.row_layout hps hlen, hrows]
  cases h : sv.finish M (rowsOfConns conns) fd with
  | ok sv' => rw [(finish_ok h).1]; rfl
  | error f => rw [finish_error h]; rfl

end

/-! ## The refinement -/

/-- The buffer is the layout of the payloads of the call. -/
structure Machine.Lined (m : Machine) : Prop where
  buffer : m.buffer = Rows.layout rowSize (m.conns.map AcceptResult.payload)
  fits : ∀ a ∈ m.conns, a.Fits
  short : m.conns.length ≤ bufRows

section
variable {M : Malloc Addr} {m : Machine} {a : AcceptResult}

theorem Machine.lined_start (sv : Server) (served : List Served) : (Machine.start sv served).Lined :=
  ⟨rfl, fun _ h => absurd h List.not_mem_nil, Nat.zero_le _⟩

theorem Machine.lined_endCall (served : List Served) (sv : Server) (buf : Buffer)
    (conns : List AcceptResult) (fd : Option Fd) : (Machine.endCall M served sv buf conns fd).Lined := by
  unfold Machine.endCall
  cases finishBuffer M sv buf fd with
  | ok sv' => exact Machine.lined_start sv' _
  | error f => exact ⟨rfl, fun _ h => absurd h List.not_mem_nil, Nat.zero_le _⟩

theorem Machine.Lined.payloads (h : m.Lined) :
    ∀ p ∈ m.conns.map AcceptResult.payload, p.length < rowSize := by
  intro p hp
  obtain ⟨a, ha, rfl⟩ := List.mem_map.mp hp
  exact h.fits a ha

theorem map_row (conns : List AcceptResult) :
    (conns.map AcceptResult.payload).map cstr = conns.map AcceptResult.row := List.map_map

/-- The turn of the loop for one more connection. -/
theorem Machine.Lined.iteration (h : m.Lined) {r : ReadResult} (ha : (AcceptResult.conn r).Fits)
    (hroom : m.conns.length < bufRows) :
    iteration m.server.accept m.buffer m.conns.length m.server.accepted r =
      .ok (if (AcceptResult.conn r).ends then m.server.accept
          else m.server.accept.poll m.server.accepted (AcceptResult.conn r).row,
        Rows.layout rowSize ((m.conns ++ [AcceptResult.conn r]).map AcceptResult.payload),
        (AcceptResult.conn r).ends) := by
  have hlen : (m.conns.map AcceptResult.payload).length = m.conns.length := List.length_map ..
  have hit := iteration_fits m.server.accept m.server.accepted h.payloads ha (by omega)
  rwa [← h.buffer, hlen, ← List.map_singleton, ← List.map_append] at hit

theorem Machine.Lined.snoc (h : m.Lined) (ha : a.Fits) : ∀ b ∈ m.conns ++ [a], b.Fits := by
  intro b hb
  rcases List.mem_append.mp hb with hb | hb
  · exact h.fits b hb
  · exact List.mem_singleton.mp hb ▸ ha

/-- A connection, when the call still waits. -/
theorem Machine.Lined.step_conn (h : m.Lined) (hf : m.fault = none) {r : ReadResult}
    (ha : (AcceptResult.conn r).Fits) :
    (m.step M (.conn r)).Lined ∧ (m.step M (.conn r)).forget = m.forget.step M (.conn r) := by
  have hfits := h.snoc ha
  by_cases hfull : bufRows ≤ m.conns.length
  · rw [Machine.step_fault hf (iteration_full hfull)]
    refine ⟨⟨h.buffer, h.fits, h.short⟩, ?_⟩
    unfold RowMachine.step Machine.forget
    rw [hf]
    simp [hfull]
  · have hit := h.iteration ha (Nat.lt_of_not_le hfull)
    have hnext : (m.conns ++ [AcceptResult.conn r]).length ≤ bufRows := by
      rw [List.length_append, List.length_singleton]; omega
    cases hends : (AcceptResult.conn r).ends with
    | true =>
      rw [hends, if_pos rfl] at hit
      have hps : ∀ p ∈ (m.conns ++ [AcceptResult.conn r]).map AcceptResult.payload,
          p.length < rowSize := by
        intro p hp
        obtain ⟨b, hb, rfl⟩ := List.mem_map.mp hp
        exact hfits b hb
      rw [Machine.step_break hf hit]
      refine ⟨Machine.lined_endCall .., ?_⟩
      rw [endCall_forget hps (by rwa [List.length_map]) (by rw [map_row]; rfl)]
      unfold RowMachine.step Machine.forget
      rw [hf]
      simp [hfull, hends]
    | false =>
      rw [hends, if_neg Bool.false_ne_true] at hit
      rw [Machine.step_again hf hit]
      refine ⟨⟨rfl, hfits, hnext⟩, ?_⟩
      unfold RowMachine.step Machine.forget
      rw [hf]
      simp [hfull, hends]

/-- **One accept.** The machine does what the row machine does. -/
theorem Machine.Lined.step (h : m.Lined) (ha : a.Fits) :
    (m.step M a).Lined ∧ (m.step M a).forget = m.forget.step M a := by
  cases hf : m.fault with
  | some f =>
    have hstep : m.step M a = m := by unfold Machine.step; rw [hf]; rfl
    have hstep' : m.forget.step M a = m.forget := by
      unfold RowMachine.step Machine.forget; rw [hf]; rfl
    rw [hstep, hstep']
    exact ⟨h, rfl⟩
  | none =>
    cases a with
    | conn r => exact h.step_conn hf ha
    | error =>
      have hlen : (m.conns.map AcceptResult.payload).length ≤ bufRows := by
        rw [List.length_map]; exact h.short
      rw [Machine.step_acceptError hf, h.buffer]
      refine ⟨Machine.lined_endCall .., ?_⟩
      rw [endCall_forget h.payloads hlen (by rw [map_row, rowsOfConns_ends (by decide)]; rfl)]
      unfold RowMachine.step Machine.forget
      rw [hf]
      rfl

/-- **The refinement.** On payloads that fit their rows the machine is the row machine. -/
theorem Machine.Lined.run {stream : List AcceptResult} (h : m.Lined) (hs : ∀ a ∈ stream, a.Fits) :
    (m.run M stream).Lined ∧ (m.run M stream).forget = m.forget.run M stream := by
  induction stream generalizing m with
  | nil => exact ⟨h, rfl⟩
  | cons a stream ih =>
    obtain ⟨hl, hstep⟩ := h.step (M := M) (hs a List.mem_cons_self)
    obtain ⟨hl', hrun⟩ := ih hl fun b hb => hs b (List.mem_cons_of_mem _ hb)
    refine ⟨hl', hrun.trans ?_⟩
    rw [hstep]
    rfl

/-- The server on fitting payloads, from the store `s`. -/
theorem run_forget (M : Malloc Addr) (s : Store) {stream : List AcceptResult}
    (hfit : ∀ a ∈ stream, a.Fits) :
    ((Machine.start (Server.start s) []).run M stream).forget = (RowMachine.start s []).run M stream :=
  ((Machine.lined_start (Server.start s) []).run hfit).2

theorem run_init_forget (M : Malloc Addr) {stream : List AcceptResult} (hfit : ∀ a ∈ stream, a.Fits) :
    (Machine.init.run M stream).forget = (RowMachine.start Store.init []).run M stream :=
  run_forget M Store.init hfit

end

end CryptoLocker
