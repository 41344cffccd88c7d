import CryptoLocker.Server.Bounds

/-!
# Payloads that overrun their rows

A read stores up to 1024 bytes at the start of a 16-byte row. The buffer of a
session is the stack of its payloads, whatever their lengths
(`run_arrivals`). The rows of a session are isolated from each other exactly
when every payload with another behind it leaves room for its terminator
(`isolated_iff`).
-/

namespace CryptoLocker

open Lib

/-- The payloads of a session before its empty one: what each read admits,
stored with its terminator inside the array. -/
structure Admissible (payloads : List (List UInt8)) : Prop where
  nonempty : ∀ p ∈ payloads, p ≠ []
  nulFree : ∀ p ∈ payloads, 0 ∉ p
  limit : ∀ p ∈ payloads, p.length ≤ readLimit
  rows : payloads.length < bufRows
  inside : ∀ i (h : i < payloads.length), rowSize * i + payloads[i].length < bufSize

/-- The connections of a session: its payloads and the empty one. -/
def sessionConns (payloads : List (List UInt8)) : List AcceptResult :=
  payloads.map arrival ++ [arrival []]

/-- From a call about to start on the server `sv`, the session ends at its empty
payload and nowhere before, and the dispatch sees `rows`. -/
def Delivers (M : Malloc Addr) (sv : Server) (payloads : List (List UInt8)) (rows : EntryData) : Prop :=
  ((Machine.start sv []).run M (sessionConns payloads)).served = [⟨sessionConns payloads, rows⟩]

/-- The session ends at its empty payload, and so it does with any one payload
replaced by one that is no longer, and then no other row changes. -/
def Isolated (M : Malloc Addr) (sv : Server) (payloads : List (List UInt8)) : Prop :=
  ∃ rows, Delivers M sv payloads rows ∧
    ∀ k (hk : k < payloads.length) (q : List UInt8), q ≠ [] → 0 ∉ q → q.length ≤ payloads[k].length →
      ∃ rows', Delivers M sv (payloads.set k q) rows' ∧ ∀ j, j ≠ k → rows' j = rows j

/-- Every payload fits its row, and the terminator too when a payload follows. -/
def KeepsRows (payloads : List (List UInt8)) : Prop :=
  ∀ i (h : i < payloads.length), payloads[i].length ≤ 16 ∧
    (i + 1 < payloads.length → payloads[i].length ≤ 15)

instance (payloads : List (List UInt8)) : Decidable (KeepsRows payloads) :=
  inferInstanceAs (Decidable (∀ i (_ : i < payloads.length), _))

section
variable {M : Malloc Addr} {sv : Server} {payloads : List (List UInt8)} {rows : EntryData} {k : Nat}
  {q : List UInt8}

theorem Admissible.append_left {ps qs : List (List UInt8)} (h : Admissible (ps ++ qs)) :
    Admissible ps where
  nonempty p hp := h.nonempty p (List.mem_append_left _ hp)
  nulFree p hp := h.nulFree p (List.mem_append_left _ hp)
  limit p hp := h.limit p (List.mem_append_left _ hp)
  rows := by
    have := h.rows
    rw [List.length_append] at this
    omega
  inside i hi := by
    have := h.inside i (by rw [List.length_append]; omega)
    rwa [List.getElem_append_left hi] at this

theorem Admissible.set (h : Admissible payloads) (hk : k < payloads.length) (hq : q ≠ []) (h0 : 0 ∉ q)
    (hlen : q.length ≤ payloads[k].length) : Admissible (payloads.set k q) := by
  have hmem : ∀ {P : List UInt8 → Prop}, (∀ p ∈ payloads, P p) → P q → ∀ p ∈ payloads.set k q, P p := by
    intro P hall hnew p hp
    rcases List.mem_or_eq_of_mem_set hp with hp | rfl
    · exact hall p hp
    · exact hnew
  have hlimit : q.length ≤ readLimit := hlen.trans (h.limit _ (List.getElem_mem hk))
  refine ⟨hmem h.nonempty hq, hmem h.nulFree h0, hmem h.limit hlimit,
    by rw [List.length_set]; exact h.rows, ?_⟩
  intro i hi
  rw [List.length_set] at hi
  have hin := h.inside i hi
  rw [List.getElem_set]
  split
  · next hik => subst hik; omega
  · exact hin

/-! ## The buffer of a session -/

theorem Admissible.endsEarly (h : Admissible payloads) : EndsEarly payloads := fun i hi => by
  rw [List.getD_eq_getElem _ _ hi]
  exact h.inside i hi

/-- There is room for every payload of the session. -/
theorem Admissible.room {p : List UInt8} (h : Admissible (payloads ++ [p])) : Room payloads p := by
  have hrows := h.rows
  rw [List.length_append, List.length_singleton] at hrows
  simp only [bufRows] at hrows
  have hearly := h.endsEarly
  exact ⟨by omega, (endsEarly_snoc.mp hearly).2.le, .inl hearly⟩

/-- There is room for the empty payload behind them. -/
theorem Admissible.room_nil (h : Admissible payloads) : Room payloads [] := by
  have hrows := h.rows
  simp only [bufRows] at hrows
  have hwrite : 16 * payloads.length + ([] : List UInt8).length < 16384 := by
    rw [List.length_nil]
    omega
  exact ⟨by omega, hwrite.le, .inl (endsEarly_snoc.mpr ⟨h.endsEarly, hwrite⟩)⟩

/-- The string of a row is empty when its first cell is zero. -/
theorem row_eq_empty {buf : Buffer} {j : Nat} (hj : j < bufRows) :
    buf.row j = CStr.empty ↔ buf (rowSize * j) = 0 := by
  have hn : bufSize - rowSize * j = (bufSize - rowSize * j - 1) + 1 := by
    simp only [bufSize, bufRows, rowSize] at hj ⊢
    omega
  unfold Buffer.row
  rw [cstr_eq_empty, hn, List.range'_succ]
  rfl

/-- A payload is stored, whatever its length, and does not end the session. -/
theorem iteration_stack {p : List UInt8} (sv : Server) (fd : Fd) (h : Admissible (payloads ++ [p])) :
    iteration sv (Rows.stack rowSize payloads) payloads.length fd (.bytes p) =
      .ok (sv.poll fd (Buffer.row (Rows.stack rowSize (payloads ++ [p])) payloads.length),
        Rows.stack rowSize (payloads ++ [p]), false) := by
  have hmem : p ∈ payloads ++ [p] := by simp
  have hstored : (AcceptResult.conn (.bytes p)).stored = p := List.take_of_length_le (h.limit p hmem)
  have hpos : 0 < p.length := List.length_pos_iff.mpr (h.nonempty p hmem)
  have hrow : Buffer.row (Rows.stack rowSize (payloads ++ [p])) payloads.length ≠ CStr.empty := by
    rw [Ne, row_eq_empty (Nat.lt_succ_of_le h.room.row),
      Rows.stack_first (by decide) (by simp) (by simpa using hpos)]
    simp only [List.getElem_concat_length]
    exact fun h0 => h.nulFree p hmem (h0 ▸ List.getElem_mem hpos)
  have hit := iteration_room sv fd h.append_left.endsEarly.inside (hstored.symm ▸ h.room) rfl
  rwa [hstored, if_neg hrow] at hit

/-- **The buffer of a session** is the stack of its payloads. -/
theorem run_arrivals (sv : Server) (h : Admissible payloads) :
    ∃ sv', (Machine.start sv []).run M (payloads.map arrival) =
      ⟨sv', Rows.stack rowSize payloads, payloads.map arrival, [], none⟩ := by
  induction payloads using List.reverseRecOn with
  | nil => exact ⟨sv, rfl⟩
  | append_singleton ps p ih =>
    obtain ⟨sv', hrun⟩ := ih h.append_left
    rw [List.map_append, Machine.run_append, hrun]
    have hit := iteration_stack sv'.accept sv'.accepted h
    rw [← List.length_map (f := arrival)] at hit
    exact ⟨_, Machine.step_again (m := ⟨sv', Rows.stack rowSize ps, ps.map arrival, [], none⟩) rfl hit⟩

/-- The empty payload leaves the buffer as it is, and ends the session if its row is. -/
theorem iteration_empty (sv : Server) (fd : Fd) (h : Admissible payloads) :
    iteration sv (Rows.stack rowSize payloads) payloads.length fd (.bytes []) =
      if Buffer.row (Rows.stack rowSize payloads) payloads.length = CStr.empty then
        .ok (sv, Rows.stack rowSize payloads, true)
      else .ok (sv.poll fd (Buffer.row (Rows.stack rowSize payloads) payloads.length),
        Rows.stack rowSize payloads, false) := by
  have hstack : Rows.stack rowSize (payloads ++ [(AcceptResult.conn (.bytes [])).stored]) =
      Rows.stack rowSize payloads := Rows.stack_snoc.trans Rows.overwrite_nil
  have hroom : Room payloads (AcceptResult.conn (.bytes [])).stored := h.room_nil
  exact iteration_room sv fd h.endsEarly.inside hroom hstack.symm

/-- The empty payload ends the session when no payload reaches its row. -/
theorem delivers_iff (h : Admissible payloads) :
    Delivers M sv payloads rows ↔
      Rows.stack rowSize payloads (rowSize * payloads.length) = 0 ∧
        rows = Buffer.row (Rows.stack rowSize payloads) := by
  obtain ⟨sv', hrun⟩ := run_arrivals (M := M) sv h
  have hit := iteration_empty sv'.accept sv'.accepted h
  unfold Delivers sessionConns
  rw [Machine.run_append, hrun, ← row_eq_empty h.rows]
  show (Machine.step M ⟨sv', Rows.stack rowSize payloads, payloads.map arrival, [], none⟩
    (.conn (.bytes []))).served = _ ↔ _
  by_cases hends : Buffer.row (Rows.stack rowSize payloads) payloads.length = CStr.empty
  · rw [if_pos hends, ← List.length_map (f := arrival)] at hit
    rw [Machine.step_break (m := ⟨sv', Rows.stack rowSize payloads, payloads.map arrival, [], none⟩)
      rfl hit, Machine.endCall_served]
    refine ⟨fun he => ⟨hends, ?_⟩, fun he => he.2 ▸ rfl⟩
    simpa [arrival] using he.symm
  · rw [if_neg hends, ← List.length_map (f := arrival)] at hit
    rw [Machine.step_again (m := ⟨sv', Rows.stack rowSize payloads, payloads.map arrival, [], none⟩)
      rfl hit]
    refine iff_of_false (fun he => ?_) fun he => hends he.1
    cases he

/-! ## Sessions that keep their rows -/

theorem KeepsRows.set (h : KeepsRows payloads) (hk : k < payloads.length)
    (hlen : q.length ≤ payloads[k].length) : KeepsRows (payloads.set k q) := by
  intro i hi
  rw [List.length_set] at hi ⊢
  have hfit := h i hi
  rw [List.getElem_set]
  split
  · next hik =>
    subst hik
    exact ⟨by omega, fun hnext => hlen.trans (hfit.2 hnext)⟩
  · exact hfit

theorem KeepsRows.layout (h : KeepsRows payloads) :
    Rows.stack rowSize payloads = Rows.layout rowSize payloads := by
  refine Rows.stack_eq_layout (by decide) fun p hp => ?_
  obtain ⟨i, hi, rfl⟩ := List.mem_iff_getElem.mp hp
  exact (h i hi).1

/-- Each row holds its own payload. -/
theorem KeepsRows.row (h : KeepsRows payloads) (ha : Admissible payloads) :
    Buffer.row (Rows.stack rowSize payloads) = rowsOf (payloads.map cstr) := by
  have hrows := ha.rows
  funext j
  rw [h.layout]
  by_cases hlast : j + 1 = payloads.length
  · -- the last payload may fill its row
    have hj : j < payloads.length := by omega
    have hget : payloads.getD j [] = payloads[j] := List.getD_eq_getElem _ _ hj
    have h0 : 0 ∉ payloads.getD j [] := hget ▸ ha.nulFree _ (List.getElem_mem hj)
    have hroom : rowSize < bufSize - rowSize * j := by
      simp only [bufSize, bufRows, rowSize] at hrows ⊢
      omega
    apply CStr.ext
    rw [Buffer.bytes_row, rowsOf_map_cstr, bytes_cstr_of_nulFree h0]
    exact Rows.stringAt_layout_last (by decide) hlast.symm (hget ▸ (h j hj).1) h0 hroom
  · refine Buffer.row_layout_at hrows.le ?_
    by_cases hj : j < payloads.length
    · rw [List.getD_eq_getElem _ _ hj]
      exact Nat.lt_succ_of_le ((h j hj).2 (by omega))
    · rw [List.getD_eq_default _ _ (by omega)]
      decide

theorem KeepsRows.delivers (h : KeepsRows payloads) (ha : Admissible payloads) :
    Delivers M sv payloads (rowsOf (payloads.map cstr)) := by
  refine (delivers_iff ha).mpr ⟨?_, (h.row ha).symm⟩
  rw [h.layout, ← Nat.add_zero (rowSize * payloads.length)]
  exact Rows.layout_past (by decide) (Nat.le_refl _)

theorem KeepsRows.isolated (h : KeepsRows payloads) (ha : Admissible payloads) :
    Isolated M sv payloads := by
  refine ⟨_, h.delivers ha, fun k hk q hq h0 hlen => ?_⟩
  refine ⟨_, (h.set hk hlen).delivers (ha.set hk hq h0 hlen), fun j hj => ?_⟩
  rw [rowsOf_map_cstr, rowsOf_map_cstr]
  simp only [List.getD_eq_getElem?_getD]
  rw [List.getElem?_set_ne (Ne.symm hj)]

/-! ## Sessions that do not -/

/-- A byte other than `b` and NUL. -/
def otherByte (b : UInt8) : UInt8 := if b = 1 then 2 else 1

theorem otherByte_spec (b : UInt8) : otherByte b ≠ b ∧ otherByte b ≠ 0 := by
  unfold otherByte
  split
  · next h => subst h; decide
  · next h => exact ⟨Ne.symm h, by decide⟩

/-- A payload that fills its row shows the first byte of the payload behind it. -/
theorem row_shows_next (h : Admissible payloads) {m : Nat} (hm : m + 1 < payloads.length)
    (hlen : 16 ≤ payloads[m].length) (hpos : 0 < payloads[m + 1].length) :
    (Buffer.row (Rows.stack rowSize payloads) m).bytes[16]? = some payloads[m + 1][0] := by
  have hrows := h.rows
  have hcell : ∀ c ≤ 16, Rows.stack rowSize payloads (rowSize * m + c) ≠ 0 := by
    intro c hc hz
    have hfree := (Rows.stack_eq_zero h.nulFree).mp hz
    by_cases hc16 : c < 16
    · exact hfree m (by omega) ⟨by omega, by omega⟩
    · refine hfree (m + 1) hm ⟨?_, ?_⟩
      · rw [Nat.mul_succ, rowSize]; omega
      · rw [Nat.mul_succ, rowSize]; omega
  rw [Buffer.bytes_row, Rows.getElem?_stringAt hcell (by
    simp only [bufSize, bufRows, rowSize] at hrows ⊢
    omega)]
  exact congrArg some (Rows.stack_first (by decide) hm hpos)

/-- Where a payload follows, an isolated session has room for the terminator: else
changing the first byte behind would show. -/
theorem Isolated.room (h : Isolated M sv payloads) (ha : Admissible payloads) {i : Nat}
    (hi : i + 1 < payloads.length) : payloads[i].length ≤ 15 := by
  obtain ⟨rows, hdel, hset⟩ := h
  obtain ⟨-, rfl⟩ := (delivers_iff ha).mp hdel
  by_contra hlong
  have hmem := List.getElem_mem hi
  have hpos : 0 < payloads[i + 1].length := List.length_pos_iff.mpr (ha.nonempty _ hmem)
  obtain ⟨hne, hnz⟩ := otherByte_spec payloads[i + 1][0]
  have hq0 : 0 ∉ payloads[i + 1].set 0 (otherByte payloads[i + 1][0]) := by
    intro h0
    rcases List.mem_or_eq_of_mem_set h0 with h0 | h0
    · exact ha.nulFree _ hmem h0
    · exact hnz h0.symm
  have hqne : payloads[i + 1].set 0 (otherByte payloads[i + 1][0]) ≠ [] := by
    rw [← List.length_pos_iff, List.length_set]
    exact hpos
  obtain ⟨rows', hdel', hsame⟩ := hset (i + 1) hi _ hqne hq0 (by rw [List.length_set])
  have ha' := ha.set hi hqne hq0 (by rw [List.length_set])
  obtain ⟨-, rfl⟩ := (delivers_iff ha').mp hdel'
  have hi' : i + 1 < (payloads.set (i + 1)
      (payloads[i + 1].set 0 (otherByte payloads[i + 1][0]))).length := by rwa [List.length_set]
  have hlong' : 16 ≤ (payloads.set (i + 1)
      (payloads[i + 1].set 0 (otherByte payloads[i + 1][0])))[i].length := by
    rw [List.getElem_set_ne (by omega)]; omega
  have hrow := congrArg (fun s => s.bytes[16]?) (hsame i (by omega))
  rw [row_shows_next ha hi (by omega) hpos, row_shows_next ha' hi' hlong' (by simpa using hpos)] at hrow
  exact hne (by simpa using hrow)

theorem Isolated.keepsRows (h : Isolated M sv payloads) (ha : Admissible payloads) :
    KeepsRows payloads := by
  intro i hi
  refine ⟨?_, fun hnext => h.room ha hnext⟩
  by_cases hlast : i + 1 < payloads.length
  · exact (h.room ha hlast).trans (by decide)
  · obtain ⟨rows, hdel, -⟩ := h
    have hfree := (Rows.stack_eq_zero ha.nulFree).mp ((delivers_iff ha).mp hdel).1 i hi
    have hend : rowSize * payloads.length = rowSize * i + 16 := by
      rw [show payloads.length = i + 1 by omega, Nat.mul_succ, rowSize]
    omega

/-- **Row isolation.** A session is isolated exactly when every payload fits its
row and leaves room for its terminator if a payload follows; then each row is
its own payload. -/
theorem isolated_iff (M : Malloc Addr) (sv : Server) (payloads : List (List UInt8))
    (ha : Admissible payloads) :
    (Isolated M sv payloads ↔ KeepsRows payloads) ∧
      (KeepsRows payloads → Delivers M sv payloads (rowsOf (payloads.map cstr))) :=
  ⟨⟨fun h => h.keepsRows ha, fun h => h.isolated ha⟩, fun h => h.delivers ha⟩

theorem isolated_delete :
    Isolated Malloc.next (Server.start Store.init) [DELETE.bytes, (lit "a-user-of-length").bytes] ∧
      Delivers Malloc.next (Server.start Store.init) [DELETE.bytes, (lit "a-user-of-length").bytes]
        (rowsOf [DELETE, lit "a-user-of-length"]) := by
  have h := isolated_iff Malloc.next (Server.start Store.init)
    [DELETE.bytes, (lit "a-user-of-length").bytes]
    ⟨by decide, by decide, by decide, by decide, by decide⟩
  exact ⟨h.1.mpr (by decide), h.2 (by decide)⟩

/-- The client's timestamp has 19 characters: row 3 takes its end from the key
behind it. -/
theorem isolation_fails :
    ∃ (payloads : List (List UInt8)) (q : List UInt8) (rows rows' : EntryData),
      Admissible payloads ∧ Admissible (payloads.set 4 q) ∧
        Delivers Malloc.next (Server.start Store.init) payloads rows ∧
        Delivers Malloc.next (Server.start Store.init) (payloads.set 4 q) rows' ∧ rows 3 ≠ rows' 3 := by
  have ha : Admissible [CREATE.bytes, (lit "alice").bytes, (lit "10.0.0.1").bytes,
      (lit "01/02/2020 10:00:00").bytes, (lit "key").bytes] :=
    ⟨by decide, by decide, by decide, by decide, by decide⟩
  have ha' := ha.set (k := 4) (q := (lit "sky").bytes) (by decide) (by decide) (by decide) (by decide)
  exact ⟨_, _, _, _, ha, ha', (delivers_iff ha).mpr ⟨by decide, rfl⟩,
    (delivers_iff ha').mpr ⟨by decide, rfl⟩, by decide⟩

end

end CryptoLocker
