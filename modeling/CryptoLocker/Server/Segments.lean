import CryptoLocker.Lib.Segments
import CryptoLocker.Server.RowMachine
import CryptoLocker.Server.Steps

/-!
# How the calls cut the stream

The calls of a run that has not faulted cover the stream: each consumed a
segment closed by its first ending accept and ran its session once
(`RowMachine.Covers`). Conversely the segments of a stream are served one by
one as long as their sessions complete (`run_segments`). Together they say
which streams of payloads are cut at their ending payloads (`segmented_iff`).
-/

namespace CryptoLocker

open Lib

section
variable {M : Malloc Addr} {m : Machine}

theorem Machine.settled_step (h : m.server.store.Settled) (a : AcceptResult) :
    (m.step M a).server.store.Settled := by
  cases hf : m.fault with
  | some f => rwa [show m.step M a = m from Machine.run_fault hf [a]]
  | none =>
    obtain ⟨r, f, -, -, hstep⟩ | ⟨r, sv, buf, -, hi, hstep⟩ | ⟨sv, buf, fd, hleaves, hstep⟩ :=
      Machine.step_cases M hf a
    · rw [hstep]
      exact h
    · rw [hstep]
      exact (iteration_store hi).symm ▸ h
    · have hs : sv.store.Settled := hleaves.store.symm ▸ h
      rw [hstep]
      unfold Machine.endCall finishBuffer
      split
      · next sv' hfin =>
        split at hfin
        · exact session_settled hs (finish_ok hfin).1
        · cases hfin
      · exact hs

/-- Between calls a list that exists is not empty, whatever was received. -/
theorem Machine.settled_run {stream : List AcceptResult} (h : m.server.store.Settled) :
    (m.run M stream).server.store.Settled := by
  induction stream generalizing m with
  | nil => exact h
  | cons a stream ih => exact ih (Machine.settled_step h a)

end

/-- The accept that ends a segment adds an empty row. -/
theorem map_row_closed {seg : List AcceptResult} (h : Closed AcceptResult.ends seg) :
    seg.map AcceptResult.row = seg.dropLast.map AcceptResult.row ++ [CStr.empty] := by
  obtain ⟨body, e, rfl, -, he⟩ := h
  rw [List.dropLast_concat, List.map_append, List.map_singleton, AcceptResult.ends_iff.mp he]

theorem rowsOfConns_dropLast {seg : List AcceptResult} (h : Closed AcceptResult.ends seg) :
    rowsOfConns seg.dropLast = rowsOfConns seg := by
  unfold rowsOfConns
  rw [map_row_closed h, rowsOf_snoc_empty]

/-- The call that consumed the accepts `conns`. -/
def servedOf (conns : List AcceptResult) : Served := ⟨conns, rowsOfConns conns⟩

section
variable {M : Malloc Addr} {m : RowMachine} {s t : Store} {served : List Served} {a : AcceptResult}
  {l : List AcceptResult}

theorem RowMachine.run_append (m : RowMachine) (l l' : List AcceptResult) :
    m.run M (l ++ l') = (m.run M l).run M l' := List.foldl_append

theorem RowMachine.run_cons (m : RowMachine) (a : AcceptResult) (l : List AcceptResult) :
    m.run M (a :: l) = (m.step M a).run M l := rfl

theorem RowMachine.step_fault {f : Fault} (h : m.fault = some f) : m.step M a = m := by
  unfold RowMachine.step
  rw [h]
  rfl

theorem RowMachine.run_fault {f : Fault} (h : m.fault = some f) (l : List AcceptResult) :
    m.run M l = m := by
  induction l with
  | nil => rfl
  | cons a l ih => rw [RowMachine.run_cons, RowMachine.step_fault h, ih]

theorem RowMachine.step_over (hf : m.fault = none) (ha : a ≠ .error) (hfull : bufRows ≤ m.conns.length) :
    m.step M a = { m with fault := some .outOfBounds } := by
  unfold RowMachine.step
  rw [if_neg (by simp [hf]), if_pos ⟨ha, hfull⟩]

theorem RowMachine.step_open (hf : m.fault = none) (ha : a.ends = false)
    (hlen : m.conns.length < bufRows) : m.step M a = { m with conns := m.conns ++ [a] } := by
  unfold RowMachine.step
  rw [if_neg (by simp [hf]), if_neg fun h => absurd h.2 (by omega), if_neg (by simp [ha])]

theorem RowMachine.step_ends (hf : m.fault = none) (ha : a.ends = true)
    (hlen : a = .error ∨ m.conns.length < bufRows) :
    m.step M a = RowMachine.endCall M m.store m.served (m.conns ++ [a]) := by
  have hroom : ¬ (a ≠ .error ∧ bufRows ≤ m.conns.length) := by
    rintro ⟨hne, hfull⟩
    exact absurd (hlen.resolve_left hne) (by omega)
  unfold RowMachine.step
  rw [if_neg (by simp [hf]), if_neg hroom, if_pos ha]

theorem ends_error {a : AcceptResult} (ha : a.ends = false) : a ≠ .error := by
  rintro rfl
  exact absurd ha (by decide)

/-- Everything a step can do. -/
theorem RowMachine.step_cases (M : Malloc Addr) (hf : m.fault = none) (a : AcceptResult) :
    (a ≠ .error ∧ bufRows ≤ m.conns.length ∧ m.step M a = { m with fault := some .outOfBounds }) ∨
      (a.ends = false ∧ m.conns.length < bufRows ∧
        m.step M a = { m with conns := m.conns ++ [a] }) ∨
      (a.ends = true ∧ (a = .error ∨ m.conns.length < bufRows) ∧
        m.step M a = RowMachine.endCall M m.store m.served (m.conns ++ [a])) := by
  by_cases hroom : a = .error ∨ m.conns.length < bufRows
  · cases ha : a.ends with
    | false =>
      have hlen := hroom.resolve_left (ends_error ha)
      exact .inr (.inl ⟨rfl, hlen, RowMachine.step_open hf ha hlen⟩)
    | true => exact .inr (.inr ⟨rfl, hroom, RowMachine.step_ends hf ha hroom⟩)
  · have hne : a ≠ .error := fun h => hroom (.inl h)
    have hfull : bufRows ≤ m.conns.length := Nat.le_of_not_lt fun h => hroom (.inr h)
    exact .inl ⟨hne, hfull, RowMachine.step_over hf hne hfull⟩

/-- The rows of a call as long as none ends it. -/
theorem RowMachine.run_open (hf : m.fault = none) (hl : Open AcceptResult.ends l)
    (hlen : m.conns.length + l.length ≤ bufRows) :
    m.run M l = { m with conns := m.conns ++ l } := by
  induction l generalizing m with
  | nil => rw [List.append_nil]; rfl
  | cons a l ih =>
    rw [List.length_cons] at hlen
    have hrec := ih (m := { m with conns := m.conns ++ [a] }) hf
      (fun b hb => hl b (List.mem_cons_of_mem _ hb))
      (by rw [List.length_append, List.length_singleton]; omega)
    rw [RowMachine.run_cons, RowMachine.step_open hf (hl a List.mem_cons_self) (by omega), hrec,
      List.append_assoc]
    rfl

/-- A closed segment is one call. -/
theorem RowMachine.run_closed (hl : Closed AcceptResult.ends l) (hlen : l.length ≤ bufRows) :
    (RowMachine.start s served).run M l = RowMachine.endCall M s served l := by
  obtain ⟨body, e, rfl, ho, he⟩ := hl
  rw [List.length_append, List.length_singleton] at hlen
  have hopen : (RowMachine.start s served).run M body =
      { RowMachine.start s served with conns := body } :=
    RowMachine.run_open rfl ho ((Nat.zero_add _).le.trans (by omega))
  rw [RowMachine.run_append, hopen]
  exact RowMachine.step_ends (m := { RowMachine.start s served with conns := body }) rfl he (.inr hlen)

theorem RowMachine.endCall_ok (h : session M s (rowsOfConns l) = .ok t) :
    RowMachine.endCall M s served l = RowMachine.start t (served ++ [servedOf l]) := by
  unfold RowMachine.endCall
  rw [h]
  rfl

theorem RowMachine.endCall_served :
    (RowMachine.endCall M s served l).served = served ++ [servedOf l] := by
  unfold RowMachine.endCall
  split <;> rfl

/-- Without an ending accept nothing is served. -/
theorem RowMachine.run_open_served (m : RowMachine) (hl : Open AcceptResult.ends l) :
    (m.run M l).served = m.served := by
  induction l generalizing m with
  | nil => rfl
  | cons a l ih =>
    have ha := hl a List.mem_cons_self
    rw [RowMachine.run_cons, ih _ fun b hb => hl b (List.mem_cons_of_mem _ hb)]
    unfold RowMachine.step
    rw [ha]
    split
    · rfl
    · split <;> rfl

/-- A stream with one ending connection is one call, if that still finds a row. -/
theorem RowMachine.run_once {e : AcceptResult} {rest : List AcceptResult}
    (hl : Open AcceptResult.ends l) (he : e.ends) (hne : e ≠ .error)
    (hrest : Open AcceptResult.ends rest) :
    ((RowMachine.start s []).run M (l ++ e :: rest)).served =
      if l.length < bufRows then [servedOf (l ++ [e])] else [] := by
  split
  · next hlen =>
    rw [List.append_cons, RowMachine.run_append, RowMachine.run_open_served _ hrest,
      RowMachine.run_closed (hl.closed he) (by rw [List.length_append]; exact hlen),
      RowMachine.endCall_served]
    rfl
  · next hlen =>
    -- the first connection behind the full buffer stops the server
    obtain ⟨b, excess, hexcess, hb⟩ : ∃ b excess,
        l.drop bufRows ++ e :: rest = b :: excess ∧ b ≠ .error := by
      cases hd : l.drop bufRows with
      | nil => exact ⟨e, rest, rfl, hne⟩
      | cons b bs =>
        have hmem : b ∈ l.drop bufRows := hd ▸ List.mem_cons_self
        exact ⟨b, bs ++ e :: rest, rfl, ends_error (hl b (List.mem_of_mem_drop hmem))⟩
    have htake : (l.take bufRows).length = bufRows := List.length_take_of_le (by omega)
    have hfull := RowMachine.run_open (M := M) (m := RowMachine.start s []) (l := l.take bufRows) rfl
      (fun a ha => hl a (List.mem_of_mem_take ha)) (by
        rw [htake]
        exact (Nat.zero_add _).le)
    have hstep := RowMachine.step_over (M := M) (a := b)
      (m := { RowMachine.start s [] with conns := l.take bufRows }) rfl hb htake.ge
    rw [show l ++ e :: rest = l.take bufRows ++ (b :: excess) by
      rw [← hexcess, ← List.append_assoc, List.take_append_drop], RowMachine.run_append, hfull,
      RowMachine.run_cons]
    show (RowMachine.run M (RowMachine.step M { RowMachine.start s [] with conns := l.take bufRows } b)
      excess).served = []
    rw [hstep, RowMachine.run_fault rfl]
    rfl

/-- **Segments are served one by one** while their sessions complete. -/
theorem RowMachine.run_segments {segs : List (List AcceptResult)}
    (hsegs : ∀ seg ∈ segs, Closed AcceptResult.ends seg ∧ seg.length ≤ bufRows)
    (h : runFrom (session M) s (segs.map rowsOfConns) = .ok t) :
    (RowMachine.start s served).run M segs.flatten =
      RowMachine.start t (served ++ segs.map servedOf) := by
  induction segs generalizing s served with
  | nil => cases h; rw [List.map_nil, List.append_nil]; rfl
  | cons seg segs ih =>
    obtain ⟨s', hs, ht⟩ := runFrom_cons_ok.mp h
    obtain ⟨hseg, hlen⟩ := hsegs seg List.mem_cons_self
    rw [List.flatten_cons, RowMachine.run_append, RowMachine.run_closed hseg hlen,
      RowMachine.endCall_ok hs, ih (fun seg h => hsegs seg (List.mem_cons_of_mem _ h)) ht]
    simp

/-! ## What a run without a fault has done -/

/-- The calls of `m` cover the stream `l` received from the store `s`. -/
structure RowMachine.Covers (M : Malloc Addr) (s : Store) (l : List AcceptResult) (m : RowMachine) :
    Prop where
  conns : (m.served.map Served.conns).flatten ++ m.conns = l
  closed : ∀ call ∈ m.served, Closed AcceptResult.ends call.conns
  pending : Open AcceptResult.ends m.conns
  calls : ∀ call ∈ m.served, call = servedOf call.conns
  short : ∀ call ∈ m.served, AcceptResult.error ∉ call.conns → call.conns.length ≤ bufRows
  store : runFrom (session M) s (m.served.map Served.rows) = .ok m.store

/-- Between sessions a list that exists is not empty. -/
theorem RowMachine.Covers.settled (h : m.Covers M s l) (hs : s.Settled) : m.store.Settled :=
  runFrom_inv (fun _ _ _ => session_settled) hs h.store

theorem RowMachine.covers_start (s : Store) : (RowMachine.start s []).Covers M s [] :=
  ⟨rfl, nofun, open_nil, nofun, nofun, rfl⟩

/-- One accept without a fault. -/
theorem RowMachine.Covers.step (h : m.Covers M s l) (hf : (m.step M a).fault = none) :
    (m.step M a).Covers M s (l ++ [a]) := by
  cases hm : m.fault with
  | some f => rw [RowMachine.step_fault hm, hm] at hf; cases hf
  | none =>
    obtain ⟨-, -, hstep⟩ | ⟨hends, -, hstep⟩ | ⟨hends, hroom, hstep⟩ := RowMachine.step_cases M hm a
    · rw [hstep] at hf
      cases hf
    · rw [hstep]
      exact ⟨by rw [← h.conns, List.append_assoc], h.closed, h.pending.snoc hends, h.calls, h.short,
        h.store⟩
    · rw [hstep] at hf ⊢
      cases hs : session M m.store (rowsOfConns (m.conns ++ [a])) with
      | error f =>
        unfold RowMachine.endCall at hf
        rw [hs] at hf
        cases hf
      | ok t =>
        rw [RowMachine.endCall_ok hs]
        have hnew : ∀ {P : Served → Prop}, (∀ call ∈ m.served, P call) → P (servedOf (m.conns ++ [a])) →
            ∀ call ∈ m.served ++ [servedOf (m.conns ++ [a])], P call := by
          intro P hold hP call hcall
          rcases List.mem_append.mp hcall with hcall | hcall
          · exact hold call hcall
          · exact List.mem_singleton.mp hcall ▸ hP
        refine ⟨?_, hnew h.closed (h.pending.closed hends), open_nil, hnew h.calls rfl,
          hnew h.short fun herr => ?_, ?_⟩
        · show ((m.served ++ [servedOf (m.conns ++ [a])]).map Served.conns).flatten ++ [] = l ++ [a]
          rw [← h.conns]
          simp [servedOf]
        · show (m.conns ++ [a]).length ≤ bufRows
          have hlt := hroom.resolve_left fun e => herr (by simp [servedOf, e])
          rw [List.length_append, List.length_singleton]
          omega
        · show runFrom _ _ ((m.served ++ [servedOf (m.conns ++ [a])]).map Served.rows) = _
          rw [List.map_append]
          exact runFrom_append_ok.mpr ⟨_, h.store, runFrom_cons_ok.mpr ⟨t, hs, rfl⟩⟩

/-- **A run without a fault covers its stream.** -/
theorem RowMachine.covers_run (hf : ((RowMachine.start s []).run M l).fault = none) :
    ((RowMachine.start s []).run M l).Covers M s l := by
  induction l using List.reverseRecOn with
  | nil => exact RowMachine.covers_start s
  | append_singleton l a ih =>
    rw [RowMachine.run_append] at hf ⊢
    refine RowMachine.Covers.step (ih ?_) hf
    cases h : ((RowMachine.start s []).run M l).fault with
    | none => rfl
    | some f => rw [RowMachine.run_fault h, h] at hf; cases hf

/-- A run faults by dereferencing NULL, or by one connection more than the buffer has rows. -/
theorem RowMachine.run_faults {f : Fault} (hs : s.Settled)
    (h : ((RowMachine.start s []).run M l).fault = some f) :
    f = .nullDeref ∨
      (f = .outOfBounds ∧ bufRows ≤ ((RowMachine.start s []).run M l).conns.length) := by
  induction l using List.reverseRecOn with
  | nil => cases h
  | append_singleton l a ih =>
    rw [RowMachine.run_append] at h ⊢
    change (RowMachine.step M _ a).fault = some f at h
    show f = .nullDeref ∨ (f = .outOfBounds ∧ bufRows ≤ (RowMachine.step M _ a).conns.length)
    cases hm : ((RowMachine.start s []).run M l).fault with
    | some f' =>
      rw [RowMachine.step_fault hm] at h ⊢
      exact ih h
    | none =>
      have hset := (RowMachine.covers_run hm).settled hs
      generalize (RowMachine.start s []).run M l = m at h hm hset
      obtain ⟨-, hfull, hstep⟩ | ⟨-, -, hstep⟩ | ⟨-, -, hstep⟩ := RowMachine.step_cases M hm a
      · rw [hstep] at h ⊢
        exact .inr ⟨(Option.some.inj h).symm, hfull⟩
      · rw [hstep] at h
        cases hm.symm.trans h
      · rw [hstep] at h
        unfold RowMachine.endCall at h
        cases hsess : session M m.store (rowsOfConns (m.conns ++ [a])) with
        | ok t => rw [hsess] at h; cases h
        | error e =>
          rw [hsess] at h
          exact .inl ((Option.some.inj h).symm.trans (session_error hset hsess))

theorem RowMachine.Covers.closed_conns (h : m.Covers M s l) :
    ∀ seg ∈ m.served.map Served.conns, Closed AcceptResult.ends seg := by
  intro seg hseg
  obtain ⟨call, hcall, rfl⟩ := List.mem_map.mp hseg
  exact h.closed call hcall

/-- The strings a call received before the one that ended it. -/
def Served.strings (call : Served) : List CStr := call.conns.dropLast.map AcceptResult.row

theorem RowMachine.Covers.strings_ne_empty (h : m.Covers M s l) {call : Served}
    (hcall : call ∈ m.served) : ∀ t ∈ call.strings, t ≠ CStr.empty := by
  intro t ht
  obtain ⟨a, ha, rfl⟩ := List.mem_map.mp ht
  exact AcceptResult.ends_eq_false.mp ((h.closed call hcall).dropLast_open a ha)

theorem RowMachine.Covers.call_rows (h : m.Covers M s l) {call : Served} (hcall : call ∈ m.served) :
    call.rows = rowsOf call.strings := by
  rw [h.calls call hcall]
  exact (rowsOfConns_dropLast (h.closed call hcall)).symm

/-- The rows dispatched are those of the segments of the stream. -/
theorem RowMachine.Covers.rows (h : m.Covers M s l) :
    m.served.map Served.rows = (l.splitOnP AcceptResult.ends).dropLast.map rowsOfConns := by
  rw [← h.conns, splitOnP_segments h.closed_conns h.pending, List.dropLast_concat, List.map_map,
    List.map_map]
  exact List.map_congr_left fun call hcall => h.call_rows hcall

/-- The strings of the stream are those of the calls, each ended by an empty one. -/
theorem RowMachine.Covers.map_row (h : m.Covers M s l) :
    l.map AcceptResult.row = (m.served.map fun call => call.strings ++ [CStr.empty]).flatten ++
      m.conns.map AcceptResult.row := by
  have hcalls : m.served.map (fun call => call.conns.map AcceptResult.row) =
      m.served.map fun call => call.strings ++ [CStr.empty] :=
    List.map_congr_left fun call hcall => map_row_closed (h.closed call hcall)
  rw [← h.conns, List.map_append, List.map_flatten, List.map_map, ← hcalls]
  rfl

theorem RowMachine.Covers.countP (h : m.Covers M s l) :
    l.countP AcceptResult.ends = m.served.length := by
  rw [← h.conns, countP_segments h.closed_conns h.pending, List.length_map]

/-- A stream without overlong segments is survived when its sessions complete. -/
theorem RowMachine.alive_iff {stream : List AcceptResult}
    (hgap : ∀ seg ∈ stream.splitOnP AcceptResult.ends, seg.length < bufRows) :
    ((RowMachine.start s []).run M stream).fault = none ↔
      ∃ t, runFrom (session M) s
        ((stream.splitOnP AcceptResult.ends).dropLast.map rowsOfConns) = .ok t := by
  constructor
  · intro hf
    have hc := RowMachine.covers_run hf
    exact ⟨_, hc.rows ▸ hc.store⟩
  · rintro ⟨t, ht⟩
    obtain ⟨segs, rest, rfl, hsegs, hrest⟩ := exists_segments AcceptResult.ends stream
    rw [splitOnP_segments hsegs hrest] at hgap ht
    rw [List.dropLast_concat, List.map_map] at ht
    have hrows : segs.map (rowsOfConns ∘ List.dropLast) = segs.map rowsOfConns :=
      List.map_congr_left fun seg hseg => rowsOfConns_dropLast (hsegs seg hseg)
    have hlens : ∀ seg ∈ segs, Closed AcceptResult.ends seg ∧ seg.length ≤ bufRows := by
      intro seg hseg
      refine ⟨hsegs seg hseg, ?_⟩
      have := hgap seg.dropLast (List.mem_append_left _ (List.mem_map_of_mem hseg))
      rw [List.length_dropLast] at this
      omega
    rw [hrows] at ht
    have hlast := hgap rest (by simp)
    rw [RowMachine.run_append, RowMachine.run_segments hlens ht, RowMachine.run_open rfl hrest]
    · rfl
    · rw [show (RowMachine.start t ([] ++ segs.map servedOf)).conns.length = 0 from rfl]
      omega

end

/-! ## Streams of payloads -/

/-- The payload is empty or begins with NUL. -/
def endsRequest (payload : List UInt8) : Bool := payload.headD 0 = 0

theorem ends_arrival (payload : List UInt8) : (arrival payload).ends = endsRequest payload := by
  unfold endsRequest
  rw [Bool.eq_iff_iff, AcceptResult.ends_iff, decide_eq_true_iff]
  exact cstr_eq_empty

/-- The blocks of payloads that an ending payload closes. -/
def segments (payloads : List (List UInt8)) : List (List (List UInt8)) :=
  (payloads.splitOnP endsRequest).dropLast

/-- Row `i` is payload `i` up to its first NUL; the rows behind are empty. -/
def segmentRows (seg : List (List UInt8)) : EntryData := rowsOf (seg.map cstr)

/-- The run `m` on `payloads` has cut them at the ending ones. -/
structure Segmented (M : Malloc Addr) (payloads : List (List UInt8)) (m : Machine) : Prop where
  alive : m.fault = none
  /-- One session for each segment, on the rows of that segment. -/
  rows : m.served.map Served.rows = (segments payloads).map segmentRows
  /-- Every payload belongs to one session, or to the call that still waits. -/
  consumed : (m.served.map Served.conns).flatten ++ m.conns = payloads.map arrival
  closed : ∀ call ∈ m.served, Closed AcceptResult.ends call.conns
  pending : Open AcceptResult.ends m.conns
  /-- Every command was dispatched once. -/
  store : runFrom (session M) Store.init ((segments payloads).map segmentRows) = .ok m.server.store

theorem segments_arrival (payloads : List (List UInt8)) :
    ((payloads.map arrival).splitOnP AcceptResult.ends).dropLast.map rowsOfConns =
      (segments payloads).map segmentRows := by
  rw [splitOnP_map ends_arrival, ← List.map_dropLast, List.map_map]
  refine List.map_congr_left fun seg _ => ?_
  show rowsOf ((seg.map arrival).map AcceptResult.row) = rowsOf (seg.map cstr)
  rw [List.map_map]
  rfl

/-- The calls on payloads that fit their rows are the row machine's. -/
theorem mainLoop_forget (M : Malloc Addr) (s : Store) {payloads : List (List UInt8)}
    (hfit : ∀ p ∈ payloads, p.length ≤ 15) :
    (mainLoop M (payloads.length + 1) [] (Server.start s) (payloads.map arrival)).forget =
      (RowMachine.start s []).run M (payloads.map arrival) := by
  rw [mainLoop_eq_run (by simp)]
  refine run_forget M s fun a ha => ?_
  obtain ⟨p, hp, rfl⟩ := List.mem_map.mp ha
  exact Nat.lt_succ_of_le (hfit p hp)

/-- **Segmentation.** On payloads that fit their rows and leave room for the one
that ends them, the calls cut the stream at its ending payloads exactly when no
session deletes the last reservation. -/
theorem segmented_iff (M : Malloc Addr) (payloads : List (List UInt8))
    (hfit : ∀ p ∈ payloads, p.length ≤ 15)
    (hgap : ∀ seg ∈ payloads.splitOnP endsRequest, seg.length ≤ 1023) :
    Segmented M payloads
        (mainLoop M (payloads.length + 1) [] (Server.start Store.init) (payloads.map arrival)) ↔
      Along (session M) (fun s rows => ¬ DeletesLast s rows) Store.init
        ((segments payloads).map segmentRows) := by
  have hrun := mainLoop_forget M Store.init hfit
  have hgaps : ∀ seg ∈ (payloads.map arrival).splitOnP AcceptResult.ends, seg.length < bufRows := by
    intro seg hseg
    rw [splitOnP_map ends_arrival] at hseg
    obtain ⟨seg, hmem, rfl⟩ := List.mem_map.mp hseg
    rw [List.length_map]
    exact Nat.lt_succ_of_le (hgap seg hmem)
  rw [← sessions_complete_iff Store.settled_init, ← segments_arrival, ← RowMachine.alive_iff hgaps,
    ← hrun]
  generalize mainLoop M _ _ _ _ = m at hrun
  constructor
  · exact fun h => h.alive
  · intro hf
    have hc : m.forget.Covers M Store.init (payloads.map arrival) :=
      hrun ▸ RowMachine.covers_run (hrun ▸ hf)
    have hrows : m.served.map Served.rows = (segments payloads).map segmentRows :=
      hc.rows.trans (segments_arrival payloads)
    exact ⟨hf, hrows, hc.conns, hc.closed, hc.pending, hrows ▸ hc.store⟩

theorem segmented_create_locker :
    Segmented Malloc.next ([CREATE.bytes, [97, 0, 98], [], ESP32_LOCKER.bytes, [0]])
      (mainLoop Malloc.next 6 [] (Server.start Store.init)
        ([CREATE.bytes, [97, 0, 98], [], ESP32_LOCKER.bytes, [0]].map arrival)) := by
  refine (segmented_iff Malloc.next _ (by decide) (by decide)).mpr ?_
  exact ⟨by decide, fun s _ => ⟨fun h => absurd h.1 (by decide), fun _ _ => trivial⟩⟩

/-- The session that deletes the only reservation never returns, and the command
behind it reaches no session. -/
theorem segmented_fails :
    ∃ payloads : List (List UInt8), (∀ p ∈ payloads, p.length ≤ 15) ∧
      (∀ seg ∈ payloads.splitOnP endsRequest, seg.length ≤ 1023) ∧
      ¬ Segmented Malloc.next payloads (mainLoop Malloc.next (payloads.length + 1) []
        (Server.start Store.init) (payloads.map arrival)) := by
  refine ⟨[CREATE.bytes, (lit "alice").bytes, [], DELETE.bytes, (lit "alice").bytes, [],
    DISPLAY.bytes, []], by decide, by decide, fun h => ?_⟩
  have halive := h.alive
  rw [← Machine.forget_fault, mainLoop_forget] at halive
  · cases halive
  · decide

end CryptoLocker
