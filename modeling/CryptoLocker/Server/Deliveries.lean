import CryptoLocker.Server.Isolation
import CryptoLocker.Server.Roster

/-!
# Calls whose payloads overlap

A `Delivery` is what one call receives when no accept and no read fails, the
payloads are free of NULs and inside the array, and none reaches the row of the
one that ends the call; before that they may run over each other as they like.
Its rows are read off the stack of its payloads. Over any run of deliveries the
server does to its store what sessions on those rows do
(`Machine.run_deliveries`), so with its buffer, heap and pointers it refines the
roster (`deliveries_refine`).
-/

namespace CryptoLocker

open Lib

/-- An empty payload or a NUL ends a call. -/
theorem empty_ends : ([] : List UInt8) = [] ∨ ([] : List UInt8) = [0] := .inl rfl

theorem nul_ends : ([0] : List UInt8) = [] ∨ ([0] : List UInt8) = [0] := .inr rfl

/-- The payloads of a call, none of them empty or with a NUL and all inside the array, and the one that ends
it in a row they do not reach. -/
structure Delivery where
  payloads : List (List UInt8)
  terminator : List UInt8
  admissible : Admissible payloads
  clear : Rows.stack rowSize payloads (rowSize * payloads.length) = 0
  ending : terminator = [] ∨ terminator = [0]

def Delivery.conns (d : Delivery) : List AcceptResult := d.payloads.map arrival ++ [arrival d.terminator]

/-- The rows as the string functions read them. -/
def Delivery.rows (d : Delivery) : EntryData := Buffer.row (Rows.stack rowSize d.payloads)

def Delivery.served (d : Delivery) : Served := ⟨d.conns, d.rows⟩

section
variable {M : Malloc Addr} {payloads : List (List UInt8)} {served : List Served} {sv : Server}

/-- The payloads of a call, whatever was served before it. -/
theorem Machine.run_payloads (sv : Server) (served : List Served) (h : Admissible payloads) :
    ∃ sv', (Machine.start sv served).run M (payloads.map arrival) =
        ⟨sv', Rows.stack rowSize payloads, payloads.map arrival, served, none⟩ ∧
      sv'.store = sv.store := by
  induction payloads using List.reverseRecOn with
  | nil => exact ⟨sv, rfl, rfl⟩
  | append_singleton ps p ih =>
    obtain ⟨sv', hrun, hstore⟩ := ih h.append_left
    have hit := iteration_stack sv'.accept sv'.accepted h
    rw [← List.length_map (f := arrival)] at hit
    rw [List.map_append, Machine.run_append, hrun]
    refine ⟨_, Machine.step_again (m := ⟨sv', Rows.stack rowSize ps, ps.map arrival, served, none⟩) rfl hit,
      ?_⟩
    rw [Server.poll_store, Server.accept_store, hstore]

variable (d : Delivery)

theorem Delivery.stored_terminator : (arrival d.terminator).stored = d.terminator := by
  rcases d.ending with h | h <;> rw [h] <;> rfl

/-- The payload that ends the call leaves the buffer as it is. -/
theorem Delivery.stack_terminator :
    Rows.stack rowSize (d.payloads ++ [d.terminator]) = Rows.stack rowSize d.payloads := by
  rw [Rows.stack_snoc]
  rcases d.ending with h | h
  · rw [h, Rows.overwrite_nil]
  · rw [h]
    funext k
    by_cases hk : k = rowSize * d.payloads.length
    · rw [hk, d.clear]
      exact @Rows.overwrite_hit _ _ (Rows.stack rowSize d.payloads) _ 0 [0] Nat.one_pos
    · refine Rows.overwrite_miss ?_
      rw [List.length_singleton]
      omega

theorem Delivery.room : Room d.payloads d.terminator := by
  have hrows := d.admissible.rows
  simp only [bufRows] at hrows
  have hlen : d.terminator.length ≤ 1 := by rcases d.ending with h | h <;> rw [h] <;> decide
  have hwrite : 16 * d.payloads.length + d.terminator.length < 16384 := by omega
  exact ⟨by omega, hwrite.le, .inl (endsEarly_snoc.mpr ⟨d.admissible.endsEarly, hwrite⟩)⟩

/-- The row of the terminator is empty, so the loop is left there. -/
theorem Delivery.iteration_terminator (sv : Server) (fd : Fd) :
    iteration sv (Rows.stack rowSize d.payloads) d.payloads.length fd (.bytes d.terminator) =
      .ok (sv, Rows.stack rowSize d.payloads, true) := by
  have hstored := d.stored_terminator
  have hit := iteration_room sv fd (r := .bytes d.terminator) d.admissible.endsEarly.inside
    (hstored.symm ▸ d.room) (show Rows.stack rowSize d.payloads = _ by
      rw [show (AcceptResult.conn (.bytes d.terminator)).stored = d.terminator from hstored]
      exact d.stack_terminator.symm)
  rwa [if_pos ((row_eq_empty d.admissible.rows).mpr d.clear)] at hit

/-- The rows a call may dispatch end inside the array. -/
theorem Delivery.terminated {j : Nat} (hj : j ≤ 7) : Buffer.terminated (Rows.stack rowSize d.payloads) j := by
  refine terminated_head d.admissible.limit (fun hne => ?_) hj
  have hpos := List.length_pos_iff.mpr hne
  have hrows := d.admissible.rows
  refine Rows.terminated_iff.mpr ⟨16, ?_, ?_⟩
  · simp only [bufSize, bufRows, rowSize] at hrows ⊢
    omega
  · rw [show rowSize * (d.payloads.length - 1) + 16 = rowSize * d.payloads.length by
      simp only [rowSize]
      omega]
    exact d.clear

/-- **One call** is the session on the rows of its delivery. -/
theorem Machine.run_delivery (sv : Server) (served : List Served) :
    (∀ t, session M sv.store d.rows = .ok t →
      ∃ sv', (Machine.start sv served).run M d.conns = Machine.start sv' (served ++ [d.served]) ∧
        sv'.store = t) ∧
      ∀ f, session M sv.store d.rows = .error f →
        ((Machine.start sv served).run M d.conns).fault = some f := by
  obtain ⟨sv', hrun, hstore⟩ := Machine.run_payloads (M := M) sv served d.admissible
  have hit := d.iteration_terminator sv'.accept sv'.accepted
  rw [← List.length_map (f := arrival)] at hit
  have hend : (Machine.start sv served).run M d.conns =
      Machine.endCall M served sv'.accept (Rows.stack rowSize d.payloads) d.conns (some sv'.accepted) := by
    rw [Delivery.conns, Machine.run_append, hrun]
    exact Machine.step_break
      (m := ⟨sv', Rows.stack rowSize d.payloads, d.payloads.map arrival, served, none⟩) rfl hit
  have hfinish : finishBuffer M sv'.accept (Rows.stack rowSize d.payloads) (some sv'.accepted) =
      sv'.accept.finish M d.rows (some sv'.accepted) := finishBuffer_terminated fun j => d.terminated
  rw [hend]
  unfold Machine.endCall
  rw [hfinish]
  rw [← hstore, ← Server.accept_store sv']
  cases hfin : sv'.accept.finish M d.rows (some sv'.accepted) with
  | ok sv'' =>
    have hsession := (finish_ok hfin).1
    refine ⟨fun t ht => ⟨sv'', rfl, ?_⟩, fun f hf => ?_⟩
    · exact Except.ok.inj (hsession.symm.trans ht)
    · cases hsession.symm.trans hf
  | error f =>
    have hsession := finish_error hfin
    refine ⟨fun t ht => ?_, fun f' hf => ?_⟩
    · cases hsession.symm.trans ht
    · cases hsession.symm.trans hf
      rfl

end

section
variable {M : Malloc Addr}

/-- **Runs of calls** are runs of sessions. -/
theorem Machine.run_deliveries (sv : Server) (served : List Served) (ds : List Delivery) :
    (∀ t, runFrom (session M) sv.store (ds.map Delivery.rows) = .ok t →
      ∃ sv', (Machine.start sv served).run M (ds.flatMap Delivery.conns) =
          Machine.start sv' (served ++ ds.map Delivery.served) ∧ sv'.store = t) ∧
      ∀ f, runFrom (session M) sv.store (ds.map Delivery.rows) = .error f →
        ((Machine.start sv served).run M (ds.flatMap Delivery.conns)).fault = some f := by
  induction ds generalizing sv served with
  | nil =>
    refine ⟨fun t ht => ⟨sv, ?_, Except.ok.inj ht⟩, nofun⟩
    rw [List.map_nil, List.append_nil]
    rfl
  | cons d ds ih =>
    obtain ⟨hok, herror⟩ := Machine.run_delivery (M := M) d sv served
    rw [List.flatMap_cons, Machine.run_append, List.map_cons, runFrom_cons]
    cases hs : session M sv.store d.rows with
    | error f =>
      refine ⟨nofun, fun f' hf => ?_⟩
      cases hf
      rw [Machine.run_fault (herror f hs)]
      exact herror f hs
    | ok s =>
      obtain ⟨sv', hrun, rfl⟩ := hok s hs
      obtain ⟨hok', herror'⟩ := ih sv' (served ++ [d.served])
      rw [hrun, ok_seq]
      refine ⟨fun t ht => ?_, herror'⟩
      obtain ⟨sv'', hrun', hstore⟩ := hok' t ht
      exact ⟨sv'', by rw [hrun', List.append_assoc]; rfl, hstore⟩

end

/-- **Refinement.** From any store between sessions, on deliveries, whose payloads may overlap, the server
faults exactly where the roster does, and otherwise has served every call on its rows and
holds the roster the sessions lead to. -/
theorem deliveries_refine (M : Malloc Addr) (s : Store) (ds : List Delivery) (hs : s.Settled) :
    (∀ R, runFrom Roster.session s.roster (ds.map Delivery.rows) = .ok R →
      ∃ sv, (Machine.start (Server.start s) []).run M (ds.flatMap Delivery.conns) =
          Machine.start sv (ds.map Delivery.served) ∧ sv.store.roster = R) ∧
      ∀ f, runFrom Roster.session s.roster (ds.map Delivery.rows) = .error f →
        ((Machine.start (Server.start s) []).run M (ds.flatMap Delivery.conns)).fault = some f := by
  obtain ⟨hok, herror⟩ := Machine.run_deliveries (M := M) (Server.start s) [] ds
  have hrefine := (session_refines (M := M)).run hs.wf (ds.map Delivery.rows)
  rw [← hrefine]
  cases hrun : runFrom (session M) s (ds.map Delivery.rows) with
  | error f =>
    refine ⟨nofun, fun f' hf => ?_⟩
    cases hf
    exact herror f hrun
  | ok t =>
    refine ⟨fun R hR => ?_, nofun⟩
    cases hR
    obtain ⟨sv, hsv, rfl⟩ := hok t hrun
    exact ⟨sv, hsv, rfl⟩

/-- The timestamp of 19 characters runs into the row of the key, which is stored over its end. -/
def longCreate : Delivery where
  payloads := [CREATE.bytes, (lit "alice").bytes, (lit "10.0.0.1").bytes,
    (lit "01/02/2020 10:00:00").bytes, (lit "key").bytes]
  terminator := []
  admissible := ⟨by decide, by decide, by decide, by decide, by decide⟩
  clear := by decide
  ending := empty_ends

theorem deliveries_refine_long :
    ∃ sv, (Machine.start (Server.start Store.init) []).run Malloc.next ([longCreate].flatMap Delivery.conns) =
        Machine.start sv ([longCreate].map Delivery.served) ∧
      sv.store.roster = some [⟨lit "alice", lit "01/02/2020 10:00key", lit "01/02/2020 10:00key", 0⟩] :=
  (deliveries_refine Malloc.next Store.init [longCreate] Store.settled_init).1 _ (by decide)

end CryptoLocker
