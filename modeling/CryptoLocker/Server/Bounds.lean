import CryptoLocker.Server.Segments

/-!
# The edges of the receive buffer

Neither the index of the accept loop nor the limit of its reads knows where the
buffer ends. `Room` says, of the payloads of a call, when the next one leaves
the server inside the array, and `inside_array_iff` that a run stays inside
exactly when every connection finds room. The buffer of a call is the stack of
what it has stored (`Machine.Stacked`).
-/

namespace CryptoLocker

open Lib

/-- The bytes `read` puts at the start of a row. -/
def AcceptResult.stored (a : AcceptResult) : List UInt8 := a.payload.take readLimit

/-- Every payload ends before the last byte of the array. -/
def EndsEarly (ps : List (List UInt8)) : Prop := ∀ i < ps.length, 16 * i + (ps.getD i []).length < 16384

/-- A NUL of some payload lies at or behind the last row and no later payload covers it. -/
def ShowsNul (ps : List (List UInt8)) : Prop :=
  ∃ i c, (ps.getD i [])[c]? = some 0 ∧ 16 * (ps.length - 1) ≤ 16 * i + c ∧
    ∀ j < ps.length, i < j → 16 * j + (ps.getD j []).length ≤ 16 * i + c

/-- Behind the payloads `ps` of a call there is room for `p`: a row, the bytes of
the array up to its end, and a NUL that ends the row. -/
structure Room (ps : List (List UInt8)) (p : List UInt8) : Prop where
  row : ps.length ≤ 1023
  write : 16 * ps.length + p.length ≤ 16384
  nul : EndsEarly (ps ++ [p]) ∨ ShowsNul (ps ++ [p])

/-- No payload runs over the end of the array. -/
def Inside (ps : List (List UInt8)) : Prop := ∀ i < ps.length, 16 * i + (ps.getD i []).length ≤ 16384

section
variable {ps : List (List UInt8)} {p : List UInt8}

/-- A property of all payloads at their rows, with one payload more. -/
theorem forall_row_snoc {P : Nat → List UInt8 → Prop} :
    (∀ i < (ps ++ [p]).length, P i ((ps ++ [p]).getD i [])) ↔
      (∀ i < ps.length, P i (ps.getD i [])) ∧ P ps.length p := by
  have hnew : (ps ++ [p]).getD ps.length [] = p := by simp
  constructor
  · intro h
    have hlast := h ps.length (by simp)
    rw [hnew] at hlast
    refine ⟨fun i hi => ?_, hlast⟩
    have hold := h i (by rw [List.length_append]; omega)
    rwa [List.getD_append _ _ _ _ hi] at hold
  · rintro ⟨h, hp⟩ i hi
    rw [List.length_append, List.length_singleton] at hi
    rcases Nat.lt_succ_iff_lt_or_eq.mp hi with hi | rfl
    · rw [List.getD_append _ _ _ _ hi]
      exact h i hi
    · rwa [hnew]

theorem inside_snoc : Inside (ps ++ [p]) ↔ Inside ps ∧ 16 * ps.length + p.length ≤ 16384 :=
  forall_row_snoc (P := fun i q => 16 * i + q.length ≤ 16384)

theorem endsEarly_snoc : EndsEarly (ps ++ [p]) ↔ EndsEarly ps ∧ 16 * ps.length + p.length < 16384 :=
  forall_row_snoc (P := fun i q => 16 * i + q.length < 16384)

theorem EndsEarly.inside (h : EndsEarly ps) : Inside ps := fun i hi => (h i hi).le

/-- A NUL behind the last row is an untouched byte or a byte of some payload. -/
theorem early_or_shows_of_terminated
    (ht : Buffer.terminated (Rows.stack rowSize (ps ++ [p])) ps.length) :
    EndsEarly (ps ++ [p]) ∨ ShowsNul (ps ++ [p]) := by
  have hlen : (ps ++ [p]).length = ps.length + 1 := by simp
  obtain ⟨k, hk, hz⟩ := Rows.terminated_iff.mp ht
  simp only [bufSize, bufRows, rowSize] at hk
  rcases Rows.stack_eq_zero_iff.mp hz with hnone | ⟨i, ⟨h1, h2⟩, hlast, h0⟩
  · refine .inl fun i hi => ?_
    have hmiss := hnone i
    simp only [Rows.Hits, rowSize] at hmiss
    omega
  · refine .inr ⟨i, rowSize * ps.length + k - rowSize * i, ?_, ?_, fun j hj hij => ?_⟩
    · rw [List.getD_eq_getElem _ _ (by omega)] at h0
      rw [List.getElem?_eq_getElem (by omega), h0]
    · simp only [rowSize] at h1 ⊢
      omega
    · have hmiss := hlast j hij
      simp only [Rows.Hits, rowSize] at hmiss h1 ⊢
      omega

/-- The last byte of the array is still zero. -/
theorem terminated_of_endsEarly (hrow : ps.length ≤ 1023) (h : EndsEarly (ps ++ [p])) :
    Buffer.terminated (Rows.stack rowSize (ps ++ [p])) ps.length := by
  have hlen : (ps ++ [p]).length = ps.length + 1 := by simp
  refine Rows.terminated_iff.mpr
    ⟨bufSize - 1 - rowSize * ps.length, ?_, Rows.stack_of_none fun i hhit => ?_⟩
  · simp only [bufSize, bufRows, rowSize]
    omega
  · by_cases hi : i < (ps ++ [p]).length
    · have hend := h i hi
      simp only [Rows.Hits, bufSize, bufRows, rowSize] at hhit
      omega
    · exact Rows.not_hits_of_le (Nat.le_of_not_lt hi) hhit

/-- The NUL of a payload is still in the array. -/
theorem terminated_of_showsNul (hin : Inside (ps ++ [p])) (h : ShowsNul (ps ++ [p])) :
    Buffer.terminated (Rows.stack rowSize (ps ++ [p])) ps.length := by
  obtain ⟨i, c, h0, hle, hlast⟩ := h
  have hlen : (ps ++ [p]).length = ps.length + 1 := by simp
  obtain ⟨hc, hget⟩ := List.getElem?_eq_some_iff.mp h0
  have hi : i < (ps ++ [p]).length := by
    by_contra hge
    rw [List.getD_eq_default _ _ (Nat.le_of_not_lt hge)] at hc
    exact absurd hc (Nat.not_lt_zero c)
  have hend := hin i hi
  refine Rows.terminated_iff.mpr ⟨16 * i + c - rowSize * ps.length, ?_, ?_⟩
  · simp only [bufSize, bufRows, rowSize]
    omega
  · have hcell : rowSize * ps.length + (16 * i + c - rowSize * ps.length) = rowSize * i + c := by
      simp only [rowSize]
      omega
    rw [hcell, Rows.stack_of_last ⟨Nat.le_add_right _ _, by omega⟩, Nat.add_sub_cancel_left,
      List.getD_eq_getElem _ _ hc, hget]
    intro j hij hhit
    by_cases hj : j < (ps ++ [p]).length
    · have hmiss := hlast j hj hij
      simp only [Rows.Hits, rowSize] at hhit
      omega
    · exact Rows.not_hits_of_le (Nat.le_of_not_lt hj) hhit

/-- The string of the last row ends inside the array. -/
theorem terminated_last_iff (h : Inside (ps ++ [p])) (hrow : ps.length ≤ 1023) :
    Buffer.terminated (Rows.stack rowSize (ps ++ [p])) ps.length ↔
      EndsEarly (ps ++ [p]) ∨ ShowsNul (ps ++ [p]) := by
  constructor
  · exact early_or_shows_of_terminated
  · rintro (hearly | hshows)
    · exact terminated_of_endsEarly hrow hearly
    · exact terminated_of_showsNul h hshows

theorem readRow_stack {r : ReadResult} (hrow : ps.length ≤ 1023) :
    readRow (Rows.stack rowSize ps) ps.length r =
      if 16 * ps.length + (AcceptResult.conn r).stored.length ≤ 16384 then
        .ok (Rows.stack rowSize (ps ++ [(AcceptResult.conn r).stored]))
      else .error .outOfBounds := by
  cases r with
  | error =>
    have hnil : (AcceptResult.conn ReadResult.error).stored = [] := rfl
    rw [hnil, if_pos (by simp only [List.length_nil]; omega), Rows.stack_snoc, Rows.overwrite_nil]
    rfl
  | bytes p =>
    rw [Rows.stack_snoc]
    rfl

/-- The loop body where there is room. -/
theorem iteration_room (sv : Server) (fd : Fd) {r : ReadResult} (h : Inside ps)
    (hroom : Room ps (AcceptResult.conn r).stored) {buf : Buffer}
    (hbuf : buf = Rows.stack rowSize (ps ++ [(AcceptResult.conn r).stored])) :
    iteration sv (Rows.stack rowSize ps) ps.length fd r =
      if buf.row ps.length = CStr.empty then .ok (sv, buf, true)
      else .ok (sv.poll fd (buf.row ps.length), buf, false) := by
  have hterm : buf.terminated ps.length :=
    hbuf ▸ (terminated_last_iff (inside_snoc.mpr ⟨h, hroom.write⟩) hroom.row).mpr hroom.nul
  unfold iteration readString
  rw [readRow_stack hroom.row, if_pos hroom.write, ok_seq, ← hbuf, if_pos hterm, ok_seq]
  simp only [strcmp_eq_zero]

/-- Where there is no room the loop body leaves the array. -/
theorem iteration_no_room (sv : Server) (fd : Fd) {r : ReadResult} (h : Inside ps)
    (hno : ¬ Room ps (AcceptResult.conn r).stored) :
    iteration sv (Rows.stack rowSize ps) ps.length fd r = .error .outOfBounds := by
  by_cases hrow : ps.length ≤ 1023
  · unfold iteration readString
    rw [readRow_stack hrow]
    by_cases hwrite : 16 * ps.length + (AcceptResult.conn r).stored.length ≤ 16384
    · have hterm : ¬ Buffer.terminated (Rows.stack rowSize (ps ++ [(AcceptResult.conn r).stored]))
          ps.length := fun ht =>
        hno ⟨hrow, hwrite, (terminated_last_iff (inside_snoc.mpr ⟨h, hwrite⟩) hrow).mp ht⟩
      rw [if_pos hwrite, ok_seq, if_neg hterm, error_seq]
    · rw [if_neg hwrite, error_seq]
  · exact iteration_full (by simp only [bufRows]; omega)

/-- The rows of a request end inside the array once the last row received does. -/
theorem terminated_head (hlimit : ∀ p ∈ ps, p.length ≤ readLimit)
    (hlast : ps ≠ [] → Buffer.terminated (Rows.stack rowSize ps) (ps.length - 1)) {j : Nat}
    (hj : j ≤ 7) : Buffer.terminated (Rows.stack rowSize ps) j := by
  unfold Buffer.terminated at hlast ⊢
  rw [Rows.terminated_iff] at hlast ⊢
  by_cases hrow : j < ps.length
  · obtain ⟨k, hk, hz⟩ := hlast (List.length_pos_iff.mp (by omega))
    refine ⟨rowSize * (ps.length - 1) + k - rowSize * j, ?_, ?_⟩
    · simp only [bufSize, bufRows, rowSize] at hk ⊢
      omega
    · rw [Nat.add_sub_cancel' (by simp only [rowSize]; omega), hz]
  · -- too few payloads to reach the last byte
    refine ⟨bufSize - 1 - rowSize * j, ?_, Rows.stack_of_none fun i hhit => ?_⟩
    · simp only [bufSize, bufRows, rowSize]
      omega
    · by_cases hi : i < ps.length
      · have hle := hlimit (ps.getD i []) (by rw [List.getD_eq_getElem _ _ hi]; exact List.getElem_mem hi)
        simp only [Rows.Hits, bufSize, bufRows, rowSize, readLimit] at hhit hle
        omega
      · exact Rows.not_hits_of_le (Nat.le_of_not_lt hi) hhit

end

/-! ## The machine -/

/-- The buffer is the stack of what the call has stored, and its last row ends
inside the array. -/
structure Machine.Stacked (m : Machine) : Prop where
  buffer : m.buffer = Rows.stack rowSize (m.conns.map AcceptResult.stored)
  inside : Inside (m.conns.map AcceptResult.stored)
  last : m.conns ≠ [] → m.buffer.terminated (m.conns.length - 1)

section
variable {M : Malloc Addr} {m : Machine} {a : AcceptResult} {served : List Served} {sv : Server}
  {buf : Buffer} {conns : List AcceptResult} {fd : Option Fd} {p : List UInt8}

theorem Machine.stacked_start (sv : Server) (served : List Served) : (Machine.start sv served).Stacked :=
  ⟨rfl, fun _ hi => absurd hi (Nat.not_lt_zero _), fun h => absurd rfl h⟩

theorem Machine.stacked_endCall (served : List Served) (sv : Server) (buf : Buffer)
    (conns : List AcceptResult) (fd : Option Fd) : (Machine.endCall M served sv buf conns fd).Stacked := by
  unfold Machine.endCall
  cases finishBuffer M sv buf fd with
  | ok sv' => exact Machine.stacked_start sv' _
  | error f => exact ⟨rfl, fun _ hi => absurd hi (Nat.not_lt_zero _), fun h => absurd rfl h⟩

/-- The end of a call on rows that end inside the array. -/
theorem finishBuffer_terminated (hterm : ∀ j ≤ 7, buf.terminated j) :
    finishBuffer M sv buf fd = sv.finish M buf.row fd :=
  if_pos (List.all_eq_true.mpr fun j hj => hterm j (rowsRead_le hj))

theorem endCall_inside (hs : sv.store.Settled) (hterm : ∀ j ≤ 7, buf.terminated j) :
    (Machine.endCall M served sv buf conns fd).fault ≠ some .outOfBounds := by
  unfold Machine.endCall
  rw [finishBuffer_terminated hterm]
  cases hfin : sv.finish M buf.row fd with
  | ok sv' => nofun
  | error f =>
    obtain rfl : f = .nullDeref := session_error hs (finish_error hfin)
    nofun

theorem stored_limit (conns : List AcceptResult) :
    ∀ p ∈ conns.map AcceptResult.stored, p.length ≤ readLimit := by
  intro p hp
  obtain ⟨a, -, rfl⟩ := List.mem_map.mp hp
  exact List.length_take_le _ _

/-- The buffer once the accept has been read. -/
def Machine.received (m : Machine) (a : AcceptResult) : Buffer :=
  Rows.overwrite m.buffer (rowSize * m.conns.length) a.stored

theorem Machine.Stacked.received (h : m.Stacked) (a : AcceptResult) :
    m.received a = Rows.stack rowSize (m.conns.map AcceptResult.stored ++ [a.stored]) := by
  rw [Machine.received, h.buffer, Rows.stack_snoc, List.length_map]

theorem Room.conns_row (h : Room (conns.map AcceptResult.stored) p) : conns.length ≤ 1023 := by
  have hrow := h.row
  rwa [List.length_map] at hrow

theorem Room.conns_write (h : Room (conns.map AcceptResult.stored) p) :
    16 * conns.length + p.length ≤ 16384 := by
  have hwrite := h.write
  rwa [List.length_map] at hwrite

/-- The row received ends inside the array exactly when there was room for it. -/
theorem Machine.Stacked.terminated_iff (h : m.Stacked) (hrow : m.conns.length ≤ 1023)
    (hwrite : 16 * m.conns.length + a.stored.length ≤ 16384) :
    (m.received a).terminated m.conns.length ↔ Room (m.conns.map AcceptResult.stored) a.stored := by
  have hlen : (m.conns.map AcceptResult.stored).length = m.conns.length := List.length_map ..
  rw [← hlen] at hrow hwrite
  rw [h.received, ← hlen, terminated_last_iff (inside_snoc.mpr ⟨h.inside, hwrite⟩) hrow]
  exact ⟨fun hnul => ⟨hrow, hwrite, hnul⟩, fun hroom => hroom.nul⟩

theorem Machine.Stacked.terminated (h : m.Stacked)
    (hroom : Room (m.conns.map AcceptResult.stored) a.stored) :
    (m.received a).terminated m.conns.length :=
  (h.terminated_iff hroom.conns_row hroom.conns_write).mpr hroom

/-- Then so do the rows a call may dispatch. -/
theorem Machine.Stacked.head (h : m.Stacked)
    (hroom : a ≠ .error → Room (m.conns.map AcceptResult.stored) a.stored) {j : Nat} (hj : j ≤ 7) :
    (m.received a).terminated j := by
  cases a with
  | error =>
    have hnil : m.received .error = m.buffer := Rows.overwrite_nil
    rw [hnil, h.buffer]
    refine terminated_head (stored_limit m.conns) (fun hne => ?_) hj
    rw [List.length_map, ← h.buffer]
    exact h.last fun hconns => hne (by rw [hconns]; rfl)
  | conn r =>
    have hlast := h.terminated (hroom nofun)
    have hsnoc : m.conns.map AcceptResult.stored ++ [(AcceptResult.conn r).stored] =
        (m.conns ++ [AcceptResult.conn r]).map AcceptResult.stored := by rw [List.map_append]; rfl
    rw [h.received, hsnoc] at hlast ⊢
    refine terminated_head (stored_limit _) (fun _ => ?_) hj
    rw [List.length_map, List.length_append]
    exact hlast

/-- The loop body for a connection with room. -/
theorem Machine.Stacked.iteration {r : ReadResult} (h : m.Stacked)
    (hroom : Room (m.conns.map AcceptResult.stored) (AcceptResult.conn r).stored) :
    iteration m.server.accept m.buffer m.conns.length m.server.accepted r =
      if (m.received (.conn r)).row m.conns.length = CStr.empty then
        .ok (m.server.accept, m.received (.conn r), true)
      else .ok (m.server.accept.poll m.server.accepted ((m.received (.conn r)).row m.conns.length),
        m.received (.conn r), false) := by
  have hlen : (m.conns.map AcceptResult.stored).length = m.conns.length := List.length_map ..
  have hit := iteration_room m.server.accept m.server.accepted h.inside hroom
    (h.received (.conn r))
  rwa [← h.buffer, hlen] at hit

theorem Machine.Stacked.iteration_no_room {r : ReadResult} (h : m.Stacked)
    (hno : ¬ Room (m.conns.map AcceptResult.stored) (AcceptResult.conn r).stored) :
    CryptoLocker.iteration m.server.accept m.buffer m.conns.length m.server.accepted r =
      .error .outOfBounds := by
  have hit := CryptoLocker.iteration_no_room m.server.accept m.server.accepted h.inside hno
  rwa [← h.buffer, List.length_map] at hit

/-- A turn of the loop that did not fault. -/
theorem Machine.Stacked.iteration_ok {r : ReadResult} {left : Bool} (h : m.Stacked)
    (hi : CryptoLocker.iteration m.server.accept m.buffer m.conns.length m.server.accepted r =
      .ok (sv, buf, left)) :
    buf = m.received (.conn r) ∧ (left = true ↔ buf.row m.conns.length = CStr.empty) ∧
      sv = if left then m.server.accept
        else m.server.accept.poll m.server.accepted (buf.row m.conns.length) := by
  by_cases hroom : Room (m.conns.map AcceptResult.stored) (AcceptResult.conn r).stored
  · rw [h.iteration hroom] at hi
    split at hi
    · next hempty =>
      cases hi
      exact ⟨rfl, iff_of_true rfl hempty, rfl⟩
    · next hempty =>
      cases hi
      exact ⟨rfl, iff_of_false nofun hempty, rfl⟩
  · cases (h.iteration_no_room hroom).symm.trans hi

/-- The dispatch is on the buffer once the accept that ends the call has been read. -/
theorem Machine.Stacked.leaves (h : m.Stacked) (hl : m.Leaves sv buf fd a) : buf = m.received a := by
  cases a with
  | error => exact hl.2.1.trans Rows.overwrite_nil.symm
  | conn r => exact (h.iteration_ok hl.1).1

theorem Machine.Stacked.step (h : m.Stacked) (a : AcceptResult) : (m.step M a).Stacked := by
  cases hf : m.fault with
  | some f =>
    have hstay : m.step M a = m := Machine.run_fault hf [a]
    rwa [hstay]
  | none =>
    cases a with
    | error =>
      rw [Machine.step_acceptError hf]
      exact Machine.stacked_endCall ..
    | conn r =>
      by_cases hroom : Room (m.conns.map AcceptResult.stored) (AcceptResult.conn r).stored
      · have hit := h.iteration hroom
        split at hit
        · rw [Machine.step_break hf hit]
          exact Machine.stacked_endCall ..
        · rw [Machine.step_again hf hit]
          refine ⟨?_, ?_, fun _ => ?_⟩
          · rw [h.received, List.map_append]
            rfl
          · rw [List.map_append]
            exact inside_snoc.mpr ⟨h.inside, hroom.write⟩
          · rw [List.length_append]
            exact h.terminated hroom
      · rw [Machine.step_fault hf (h.iteration_no_room hroom)]
        exact ⟨h.buffer, h.inside, h.last⟩

theorem Machine.Stacked.run {stream : List AcceptResult} (h : m.Stacked) : (m.run M stream).Stacked := by
  induction stream generalizing m with
  | nil => exact h
  | cons a stream ih => exact ih (h.step a)

/-- **One accept** leaves the array only as a connection without room. -/
theorem Machine.Stacked.outOfBounds_iff (h : m.Stacked) (hf : m.fault = none)
    (hs : m.server.store.Settled) :
    (m.step M a).fault = some .outOfBounds ↔
      a ≠ .error ∧ ¬ Room (m.conns.map AcceptResult.stored) a.stored := by
  cases a with
  | error =>
    rw [Machine.step_acceptError hf]
    refine iff_of_false (endCall_inside hs fun j hj => ?_) fun hno => hno.1 rfl
    have hhead := h.head (a := .error) (fun hne => absurd rfl hne) hj
    rwa [show m.received .error = m.buffer from Rows.overwrite_nil] at hhead
  | conn r =>
    by_cases hroom : Room (m.conns.map AcceptResult.stored) (AcceptResult.conn r).stored
    · refine iff_of_false ?_ fun hno => hno.2 hroom
      have hit := h.iteration hroom
      split at hit
      · rw [Machine.step_break hf hit]
        exact endCall_inside hs fun j => h.head fun _ => hroom
      · rw [Machine.step_again hf hit, hf]
        nofun
    · rw [Machine.step_fault hf (h.iteration_no_room hroom)]
      exact iff_of_true rfl ⟨nofun, hroom⟩

/-- What the accept `a` makes the server touch lies inside the array: the row it
writes, the string it inspects, and the rows the dispatch reads if the call ends. -/
structure Machine.InBounds (M : Malloc Addr) (m : Machine) (a : AcceptResult) : Prop where
  row : a ≠ .error → m.conns.length ≤ 1023
  write : a ≠ .error → 16 * m.conns.length + a.stored.length ≤ 16384
  inspected : a ≠ .error → (m.received a).terminated m.conns.length
  handed : (m.step M a).served ≠ m.served →
    ∀ j ∈ rowsRead m.server.store (m.received a).row, (m.received a).terminated j

theorem Machine.Stacked.inBounds_iff (h : m.Stacked) :
    m.InBounds M a ↔ (a ≠ .error → Room (m.conns.map AcceptResult.stored) a.stored) := by
  constructor
  · intro hin hne
    exact (h.terminated_iff (hin.row hne) (hin.write hne)).mp (hin.inspected hne)
  · intro hroom
    exact ⟨fun hne => (hroom hne).conns_row, fun hne => (hroom hne).conns_write,
      fun hne => h.terminated (hroom hne), fun _ j hj => h.head hroom (rowsRead_le hj)⟩

/-- **The array.** A run touches only the array, at every accept before it stops,
exactly when every connection finds room in its call. -/
theorem inside_array_iff (M : Malloc Addr) (stream : List AcceptResult) :
    (∀ pre a, pre ++ [a] <+: stream → (Machine.init.run M pre).fault = none →
        (Machine.init.run M pre).InBounds M a) ↔
      ∀ pre a, pre ++ [a] <+: stream → (Machine.init.run M pre).fault = none → a ≠ .error →
        Room ((Machine.init.run M pre).conns.map AcceptResult.stored) a.stored := by
  refine forall₄_congr fun pre a _ _ => ?_
  have h : (Machine.init.run M pre).Stacked := (Machine.stacked_start _ _).run
  exact h.inBounds_iff

/-- A call waits as long as no payload ends it. -/
theorem Machine.run_init_open {l : List AcceptResult} (hfit : ∀ a ∈ l, a.Fits)
    (hopen : Open AcceptResult.ends l) (hlen : l.length ≤ bufRows) :
    (Machine.init.run M l).fault = none ∧ (Machine.init.run M l).conns = l := by
  have hrun := run_init_forget M hfit
  rw [RowMachine.run_open (m := RowMachine.start Store.init []) rfl hopen
    ((Nat.zero_add _).trans_le hlen)] at hrun
  exact ⟨congrArg RowMachine.fault hrun, congrArg RowMachine.conns hrun⟩

/-- Behind 1024 connections there is no row. -/
theorem Machine.run_init_full {l : List AcceptResult} (hfit : ∀ a ∈ l, a.Fits)
    (hopen : Open AcceptResult.ends l) (hlen : l.length = bufRows) (r : ReadResult) :
    (Machine.init.run M l).fault = none ∧ ¬ (Machine.init.run M l).InBounds M (.conn r) ∧
      (Machine.init.run M (l ++ [.conn r])).fault = some .outOfBounds := by
  obtain ⟨halive, hconns⟩ := Machine.run_init_open (M := M) hfit hopen hlen.le
  have hstacked : (Machine.init.run M l).Stacked := (Machine.stacked_start _ _).run
  have hsettled : (Machine.init.run M l).server.store.Settled := Machine.settled_run Store.settled_init
  rw [Machine.run_append]
  generalize Machine.init.run M l = m at *
  rw [← hconns] at hlen
  have hfull : ¬ m.conns.length ≤ 1023 := by
    rw [hlen]
    decide
  refine ⟨halive, fun hin => hfull (hin.row nofun), ?_⟩
  exact (hstacked.outOfBounds_iff (a := .conn r) halive hsettled).mpr
    ⟨nofun, fun hroom => hfull hroom.conns_row⟩

/-- 1025 connections of one byte: the last has no row. -/
theorem inside_array_fails :
    ∃ pre a, pre ++ [a] = List.replicate 1025 (arrival [120]) ∧
      (Machine.init.run Malloc.next pre).fault = none ∧
      ¬ (Machine.init.run Malloc.next pre).InBounds Malloc.next a ∧
      (Machine.init.run Malloc.next (pre ++ [a])).fault = some .outOfBounds := by
  refine ⟨List.replicate 1024 (arrival [120]), arrival [120], List.replicate_succ'.symm, ?_⟩
  refine Machine.run_init_full (fun a ha => ?_) (fun a ha => ?_) List.length_replicate _
  · obtain rfl := List.eq_of_mem_replicate ha
    decide
  · obtain rfl := List.eq_of_mem_replicate ha
    decide

end

end CryptoLocker
