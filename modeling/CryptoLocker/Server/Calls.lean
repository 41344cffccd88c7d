import CryptoLocker.Server.Bounds

/-!
# One call of `listen_aws`

A run of sessions is a run of `Server.call`, one call on the accepts it
consumes. `InCall` is the server while it waits inside a call, with what the
call has accepted, opened and stored so far; `call_ok` opens a call that
returned. Row 0 of a session shows its first payload, whatever comes behind
(`Machine.Stacked.first_row`).
-/

namespace CryptoLocker

open Lib

/-- A call that is given the accepts `conns` and returns when it has consumed them. -/
def Server.call (M : Malloc Addr) (sv : Server) (conns : List AcceptResult) : Except Outcome Server :=
  match listenAws M [] sv conns with
  | .returned sv' _ [] => .ok sv'
  | o => .error o

/-- The server `m` has received `body` in a call that began on `sv`, and waits. -/
structure InCall (M : Malloc Addr) (sv : Server) (body : List AcceptResult) (m : Machine) : Prop where
  run : (Machine.start sv []).run M body = m
  alive : m.fault = none
  waiting : m.served = []

section
variable {M : Malloc Addr} {sv sv' : Server} {m : Machine} {body conns : List AcceptResult}
  {a : AcceptResult}

theorem InCall.stacked (h : InCall M sv body m) : m.Stacked :=
  h.run ▸ (Machine.stacked_start sv []).run

/-- A call still waits behind an accept that was a connection and did not end it. -/
theorem InCall.snoc (h : InCall M sv (body ++ [a]) m) :
    ∃ m₀ r sv₁ buf, InCall M sv body m₀ ∧ a = .conn r ∧
      iteration m₀.server.accept m₀.buffer m₀.conns.length m₀.server.accepted r = .ok (sv₁, buf, false) ∧
      m = { m₀ with server := sv₁, buffer := buf, conns := m₀.conns ++ [a] } := by
  have hrun := h.run
  rw [Machine.run_append] at hrun
  have hserved := Machine.served_run (M := M) ((Machine.start sv []).run M body) [a]
  rw [hrun, h.waiting] at hserved
  have h₀ : InCall M sv body ((Machine.start sv []).run M body) := by
    refine ⟨rfl, ?_, List.prefix_nil.mp hserved⟩
    cases hf : ((Machine.start sv []).run M body).fault with
    | none => rfl
    | some f =>
      rw [Machine.run_fault hf] at hrun
      rw [← hf, hrun]
      exact h.alive
  obtain ⟨r, f, -, -, hstep⟩ | ⟨r, sv₁, buf, ha, hi, hstep⟩ | ⟨sv₁, buf, fd, -, hstep⟩ :=
    Machine.step_cases M h₀.alive a
  · have halive := h.alive
    rw [← hrun, show Machine.run M _ [a] = _ from hstep] at halive
    cases halive
  · exact ⟨_, r, sv₁, buf, h₀, ha, hi, hrun.symm.trans hstep⟩
  · have hwait := h.waiting
    rw [← hrun, show Machine.run M _ [a] = _ from hstep, Machine.endCall_served] at hwait
    exact absurd hwait (by simp)

/-- What the loop has done to the server so far. -/
structure InCall.Spec (sv : Server) (body : List AcceptResult) (m : Machine) : Prop where
  conns : m.conns = body
  connected : .error ∉ body
  store : m.server.store = sv.store
  accepted : m.server.accepted = sv.accepted + body.length
  openFds : m.server.openFds = sv.openFds ++ List.range' sv.accepted body.length

theorem iteration_fds {fd : Fd} {buf buf' : Buffer} {i : Nat} {r : ReadResult} {left : Bool}
    (h : iteration sv buf i fd r = .ok (sv', buf', left)) :
    sv'.accepted = sv.accepted ∧ sv'.openFds = sv.openFds := by
  rcases iteration_server h with rfl | ⟨row, rfl⟩
  · exact ⟨rfl, rfl⟩
  · unfold Server.poll
    split
    · dsimp only
      split <;> exact ⟨rfl, rfl⟩
    · exact ⟨rfl, rfl⟩

theorem InCall.spec (h : InCall M sv body m) : InCall.Spec sv body m := by
  induction body using List.reverseRecOn generalizing m with
  | nil =>
    obtain rfl := h.run
    exact ⟨rfl, List.not_mem_nil, rfl, rfl, (List.append_nil _).symm⟩
  | append_singleton body a ih =>
    obtain ⟨m₀, r, sv₁, buf, h₀, rfl, hi, rfl⟩ := h.snoc
    obtain ⟨hconns, hconn, hstore, hacc, hopen⟩ := ih h₀
    obtain ⟨hacc₁, hopen₁⟩ := iteration_fds hi
    refine ⟨?_, ?_, ?_, ?_, ?_⟩
    · show m₀.conns ++ _ = _
      rw [hconns]
    · intro hm
      rcases List.mem_append.mp hm with hm | hm
      · exact hconn hm
      · cases List.mem_singleton.mp hm
    · exact (iteration_store hi).trans hstore
    · show sv₁.accepted = _
      rw [hacc₁, List.length_append, ← Nat.add_assoc, ← hacc]
      rfl
    · show sv₁.openFds = _
      rw [hopen₁, List.length_append, List.length_singleton, List.range'_1_concat, ← List.append_assoc,
        ← hopen, ← hacc]
      rfl

/-- The accept that leaves the loop ends the call. -/
theorem InCall.ends {sv₁ : Server} {buf : Buffer} {fd : Option Fd} (h : InCall M sv body m)
    (hl : m.Leaves sv₁ buf fd a) :
    (Machine.start sv []).run M (body ++ [a]) = Machine.endCall M [] sv₁ buf (body ++ [a]) fd := by
  have hstep := Machine.step_leaves (M := M) h.alive hl
  rw [h.waiting, h.spec.conns] at hstep
  rw [Machine.run_append, h.run]
  exact hstep

/-! ## A call that returned -/

theorem acceptLoop_returned {served : List Served} {buf : Buffer} {stream rest : List AcceptResult}
    {call : Served} (h : acceptLoop M served sv buf conns stream = .returned sv' call rest) :
    ∃ body a m sv₁ buf₁ fd, stream = body ++ a :: rest ∧
      (⟨sv, buf, conns, served, none⟩ : Machine).run M body = m ∧ m.fault = none ∧ m.served = served ∧
      m.Leaves sv₁ buf₁ fd a ∧ finishBuffer M sv₁ buf₁ fd = .ok sv' ∧
      call = ⟨m.conns ++ [a], buf₁.row⟩ := by
  induction stream generalizing sv buf conns with
  | nil => cases h
  | cons a stream ih =>
    cases a with
    | error =>
      simp only [acceptLoop] at h
      cases hfin : finishBuffer M sv buf none with
      | error f => rw [hfin] at h; cases h
      | ok sv'' =>
        rw [hfin] at h
        cases h
        exact ⟨[], .error, _, sv, buf, none, rfl, rfl, rfl, rfl, ⟨rfl, rfl, rfl⟩, hfin, rfl⟩
    | conn r =>
      simp only [acceptLoop] at h
      cases hi : iteration sv.accept buf conns.length sv.accepted r with
      | error f => rw [hi] at h; cases h
      | ok x =>
        obtain ⟨sv₁, buf₁, left⟩ := x
        rw [hi] at h
        cases left with
        | true =>
          cases hfin : finishBuffer M sv₁ buf₁ (some sv.accepted) with
          | error f => simp only [hfin] at h; cases h
          | ok sv'' =>
            simp only [hfin] at h
            cases h
            exact ⟨[], .conn r, _, sv₁, buf₁, _, rfl, rfl, rfl, rfl, ⟨hi, rfl⟩, hfin, rfl⟩
        | false =>
          obtain ⟨body, a, m, sv₂, buf₂, fd, rfl, hrun, hrest⟩ := ih h
          refine ⟨.conn r :: body, a, m, sv₂, buf₂, fd, rfl, ?_, hrest⟩
          rw [Machine.run_cons, Machine.step_again (m := ⟨sv, buf, conns, served, none⟩) rfl hi]
          exact hrun

/-- **A call that returned**: what it waited through, and how it left the loop. -/
theorem call_ok (h : sv.call M conns = .ok sv') :
    ∃ body a m sv₁ buf fd, conns = body ++ [a] ∧ InCall M sv body m ∧ m.Leaves sv₁ buf fd a ∧
      finishBuffer M sv₁ buf fd = .ok sv' := by
  unfold Server.call at h
  cases hl : listenAws M [] sv conns with
  | stopped m => rw [hl] at h; cases h
  | returned sv'' call rest =>
    rw [hl] at h
    cases rest with
    | cons b rest => cases h
    | nil =>
      cases h
      obtain ⟨body, a, m, sv₁, buf, fd, rfl, hrun, halive, hserved, hleaves, hfin, -⟩ :=
        acceptLoop_returned hl
      exact ⟨body, a, m, sv₁, buf, fd, rfl, ⟨hrun, halive, hserved⟩, hleaves, hfin⟩

/-- What was served before does not matter to a call. -/
theorem acceptLoop_served {served : List Served} (served' : List Served) {buf : Buffer}
    {stream rest : List AcceptResult} {call : Served}
    (h : acceptLoop M served sv buf conns stream = .returned sv' call rest) :
    acceptLoop M served' sv buf conns stream = .returned sv' call rest := by
  induction stream generalizing sv buf conns with
  | nil => cases h
  | cons a stream ih =>
    cases a with
    | error =>
      simp only [acceptLoop] at h ⊢
      cases hfin : finishBuffer M sv buf none with
      | error f => rw [hfin] at h; cases h
      | ok sv'' => rw [hfin] at h; cases h; rfl
    | conn r =>
      simp only [acceptLoop] at h ⊢
      cases hi : iteration sv.accept buf conns.length sv.accepted r with
      | error f => rw [hi] at h; cases h
      | ok x =>
        obtain ⟨sv₁, buf₁, left⟩ := x
        rw [hi] at h
        cases left with
        | false => exact ih h
        | true =>
          cases hfin : finishBuffer M sv₁ buf₁ (some sv.accepted) with
          | error f => simp only [hfin] at h; cases h
          | ok sv'' => simp only [hfin] at h ⊢; exact h

/-- A run of calls is what `main` does on their accepts. -/
theorem mainLoop_calls {calls : List (List AcceptResult)} {n : Nat} (hn : calls.flatten.length < n)
    (served : List Served) (h : runFrom (Server.call M) sv calls = .ok sv') :
    ∃ served', mainLoop M n served sv calls.flatten = Machine.start sv' served' := by
  rw [mainLoop_eq_run hn]
  clear hn
  induction calls generalizing sv served with
  | nil => cases h; exact ⟨served, rfl⟩
  | cons conns calls ih =>
    obtain ⟨sv₁, hcall, hrest⟩ := runFrom_cons_ok.mp h
    unfold Server.call at hcall
    cases hl : listenAws M [] sv conns with
    | stopped m => rw [hl] at hcall; cases hcall
    | returned sv'' call rest =>
      rw [hl] at hcall
      cases rest with
      | cons b rest => cases hcall
      | nil =>
        cases hcall
        have hloop := acceptLoop_run M served conns sv Buffer.zero []
        rw [acceptLoop_served served hl] at hloop
        obtain ⟨-, hrun⟩ := hloop
        obtain ⟨served', hserved⟩ := ih (served ++ [call]) hrest
        refine ⟨served', ?_⟩
        rw [List.flatten_cons, Machine.run_append]
        exact (congrArg (fun m => Machine.run M m calls.flatten) hrun).trans hserved

/-! ## Row 0 -/

/-- The limit of the reads does not touch a string shorter than a row. -/
theorem cstr_stored {c : CStr} (hc : c.bytes.length < rowSize) (a : AcceptResult) :
    cstr a.stored = c ↔ a.row = c := by
  have hlt : c.bytes.length < readLimit := hc.trans (by decide)
  have hget : ∀ k ≤ c.bytes.length, a.stored.getD k 0 = a.payload.getD k 0 := by
    intro k hk
    simp only [AcceptResult.stored, List.getD_eq_getElem?_getD, List.getElem?_take]
    rw [if_pos (by omega)]
  have hcstr : ∀ l : List UInt8, cstr l = c ↔ l.takeWhile (· ≠ 0) = c.bytes := fun l =>
    ⟨fun h => congrArg CStr.bytes h, fun h => CStr.ext h⟩
  rw [AcceptResult.row, hcstr, hcstr, Rows.takeWhile_eq_iff, Rows.takeWhile_eq_iff, hget _ (Nat.le_refl _)]
  refine and_congr_left fun _ => forall₂_congr fun k hk => ?_
  rw [hget k hk.le]

/-- A string shorter than a row is in row 0 when it is the first payload's. -/
theorem row_zero_stack {c : CStr} (hc : c.bytes.length < rowSize) (a : AcceptResult)
    (conns : List AcceptResult) :
    Buffer.row (Rows.stack rowSize ((a :: conns).map AcceptResult.stored)) 0 = c ↔ a.row = c := by
  rw [← cstr_stored hc]
  have hfirst : Rows.stringAt (Rows.stack rowSize ((a :: conns).map AcceptResult.stored)) 0 bufSize =
      c.bytes ↔ a.stored.takeWhile (· ≠ 0) = c.bytes :=
    Rows.stringAt_first hc (hc.trans (by decide))
  exact ⟨fun h => CStr.ext (hfirst.mp (congrArg CStr.bytes h)),
    fun h => CStr.ext (hfirst.mpr (congrArg CStr.bytes h))⟩

/-- Row 0 at the dispatch. -/
theorem InCall.row_zero {sv₁ : Server} {buf : Buffer} {fd : Option Fd} {b : AcceptResult}
    {rest : List AcceptResult} {c : CStr} (h : InCall M sv body m) (hl : m.Leaves sv₁ buf fd a)
    (hb : body ++ [a] = b :: rest) (hc : c.bytes.length < rowSize) : buf.row 0 = c ↔ b.row = c := by
  have hstack : m.conns.map AcceptResult.stored ++ [a.stored] = (b :: rest).map AcceptResult.stored := by
    rw [h.spec.conns, ← hb, List.map_append]
    rfl
  rw [h.stacked.leaves hl, h.stacked.received, hstack, row_zero_stack hc]

end

end CryptoLocker
