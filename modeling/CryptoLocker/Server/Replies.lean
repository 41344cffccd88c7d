import CryptoLocker.Server.Segments

/-!
# What the server sends on a connection

A step sends on no connection but the one it accepts, so what a connection gets
is decided by the step that accepts it (`Server.Advances.sentOn`). On payloads
that fit their rows a poll gets "cmd" when there is a list, and nothing else
(`Machine.sentOn_poll`).
-/

namespace CryptoLocker

open Lib

/-- The bytes sent on the connection `fd`, in order. -/
def Server.sentOn (sv : Server) (fd : Fd) : List UInt8 :=
  (sv.sent.filter (·.1 = fd)).flatMap Prod.snd

/-- From `sv` to `sv'` the server sent only on connections it accepted meanwhile. -/
structure Server.Advances (sv sv' : Server) : Prop where
  accepted : sv.accepted ≤ sv'.accepted
  sent : ∃ new, sv'.sent = sv.sent ++ new ∧ ∀ x ∈ new, sv.accepted ≤ x.1 ∧ x.1 < sv'.accepted

section
variable {M : Malloc Addr} {sv sv' sv'' : Server} {fd : Fd}

theorem Server.Advances.of_eq (ha : sv'.accepted = sv.accepted) (hs : sv'.sent = sv.sent) :
    sv.Advances sv' :=
  ⟨ha.ge, [], by rw [hs, List.append_nil], nofun⟩

theorem Server.Advances.trans (h : sv.Advances sv') (h' : sv'.Advances sv'') : sv.Advances sv'' := by
  obtain ⟨hacc, new, hsent, hnew⟩ := h
  obtain ⟨hacc', new', hsent', hnew'⟩ := h'
  refine ⟨hacc.trans hacc', new ++ new', by rw [hsent', hsent, List.append_assoc], fun x hx => ?_⟩
  rcases List.mem_append.mp hx with hx | hx
  · exact ⟨(hnew x hx).1, (hnew x hx).2.trans_le hacc'⟩
  · exact ⟨hacc.trans (hnew' x hx).1, (hnew' x hx).2⟩

/-- An older connection gets nothing more. -/
theorem Server.Advances.sentOn (h : sv.Advances sv') (hfd : fd < sv.accepted) :
    sv'.sentOn fd = sv.sentOn fd := by
  obtain ⟨-, new, hsent, hnew⟩ := h
  have hnone : new.filter (·.1 = fd) = [] := by
    refine List.filter_eq_nil_iff.mpr fun x hx => ?_
    rw [decide_eq_true_eq]
    exact (hfd.trans_le (hnew x hx).1).ne'
  unfold Server.sentOn
  rw [hsent, List.filter_append, hnone, List.append_nil]

/-- A connection not yet accepted has got nothing. -/
theorem Server.Advances.sentOn_fresh {s : Store} (h : (Server.start s).Advances sv)
    (hfd : sv.accepted ≤ fd) : sv.sentOn fd = [] := by
  obtain ⟨-, new, hsent, hnew⟩ := h
  have hnone : sv.sent.filter (·.1 = fd) = [] := by
    refine List.filter_eq_nil_iff.mpr fun x hx => ?_
    rw [decide_eq_true_eq]
    exact ((hnew x (by rwa [hsent] at hx)).2.trans_le hfd).ne
  unfold Server.sentOn
  rw [hnone]
  rfl

theorem Server.poll_accepted (sv : Server) (n : Fd) (row : CStr) :
    (sv.poll n row).accepted = sv.accepted := by
  unfold Server.poll
  split
  · dsimp only
    split <;> rfl
  · rfl

theorem Server.poll_sent (sv : Server) (n : Fd) (row : CStr) :
    (sv.poll n row).sent =
      sv.sent ++ if row = ESP32_LOCKER ∧ sv.store.reservations.isSome then [(n, cmd)] else [] := by
  unfold Server.poll
  simp only [strcmp_eq_zero]
  by_cases hrow : row = ESP32_LOCKER
  · rw [if_pos hrow]
    by_cases hsome : sv.store.reservations.isSome
    · rw [if_pos hsome, if_pos ⟨hrow, hsome⟩]
      rfl
    · rw [if_neg hsome, if_neg fun h => hsome h.2, List.append_nil]
  · rw [if_neg hrow, if_neg fun h => hrow h.1, List.append_nil]

theorem Server.poll_advances (sv : Server) (row : CStr) :
    sv.Advances (sv.accept.poll sv.accepted row) := by
  refine ⟨?_, _, Server.poll_sent .., fun x hx => ?_⟩
  · rw [Server.poll_accepted]
    exact Nat.le_succ _
  · rw [Server.poll_accepted]
    split at hx
    · obtain rfl := List.mem_singleton.mp hx
      exact ⟨Nat.le_refl _, Nat.lt_succ_self _⟩
    · cases hx

/-- The end of a call acknowledges on the connection it was left on, if any. -/
theorem endCall_sent (served : List Served) (sv : Server) (buf : Buffer) (conns : List AcceptResult)
    (clientFd : Option Fd) :
    (Machine.endCall M served sv buf conns clientFd).server.accepted = sv.accepted ∧
      ∃ new, (Machine.endCall M served sv buf conns clientFd).server.sent = sv.sent ++ new ∧
        ∀ x ∈ new, some x.1 = clientFd := by
  have hstay : sv.accepted = sv.accepted ∧ ∃ new, sv.sent = sv.sent ++ new ∧
      ∀ x ∈ new, some x.1 = clientFd := ⟨rfl, [], (List.append_nil _).symm, nofun⟩
  unfold Machine.endCall
  cases hfin : finishBuffer M sv buf clientFd with
  | error f => exact hstay
  | ok sv' =>
    unfold finishBuffer at hfin
    split at hfin
    · obtain ⟨-, hacc, hsent⟩ := finish_ok hfin
      refine ⟨hacc, _, hsent, fun x hx => ?_⟩
      obtain ⟨n, hn, rfl⟩ := List.mem_map.mp hx
      exact (Option.mem_toList.mp hn).symm
    · cases hfin

theorem Server.accept_advances (sv : Server) : sv.Advances sv.accept :=
  ⟨Nat.le_succ _, [], (List.append_nil _).symm, nofun⟩

theorem iteration_advances {buf buf' : Buffer} {i : Nat} {r : ReadResult} {left : Bool}
    (h : iteration sv.accept buf i sv.accepted r = .ok (sv', buf', left)) :
    sv.Advances sv' ∧ sv'.accepted = sv.accepted + 1 := by
  rcases iteration_server h with rfl | ⟨row, rfl⟩
  · exact ⟨Server.accept_advances sv, rfl⟩
  · exact ⟨Server.poll_advances sv row, Server.poll_accepted ..⟩

/-- Leaving the loop, what is sent on `client_fd` goes to a connection accepted by this step. -/
theorem Machine.Leaves.advances {m : Machine} {buf : Buffer} {clientFd : Option Fd} {a : AcceptResult}
    (h : m.Leaves sv buf clientFd a) : m.server.Advances sv ∧
      ∀ n, some n = clientFd → m.server.accepted ≤ n ∧ n < sv.accepted := by
  cases a with
  | error =>
    obtain ⟨rfl, -, rfl⟩ := h
    exact ⟨Server.Advances.of_eq rfl rfl, nofun⟩
  | conn r =>
    obtain ⟨hadv, hacc⟩ := iteration_advances h.1
    refine ⟨hadv, fun n hn => ?_⟩
    obtain rfl := Option.some.inj (hn.trans h.2)
    exact ⟨Nat.le_refl _, hacc ▸ Nat.lt_succ_self _⟩

/-- **One step** sends on no connection but the one it accepts. -/
theorem Machine.step_advances (m : Machine) (a : AcceptResult) :
    m.server.Advances (m.step M a).server := by
  cases hf : m.fault with
  | some f =>
    rw [show m.step M a = m from Machine.run_fault hf [a]]
    exact Server.Advances.of_eq rfl rfl
  | none =>
    obtain ⟨r, f, -, -, hstep⟩ | ⟨r, sv, buf, -, hi, hstep⟩ | ⟨sv, buf, fd, hleaves, hstep⟩ :=
      Machine.step_cases M hf a
    · rw [hstep]
      exact Server.accept_advances _
    · rw [hstep]
      exact (iteration_advances hi).1
    · rw [hstep]
      obtain ⟨⟨hle, old, hold, hrange⟩, hfd⟩ := hleaves.advances
      obtain ⟨hacc, new, hsent, hnew⟩ := endCall_sent (M := M) m.served sv buf (m.conns ++ [a]) fd
      refine ⟨hle.trans hacc.ge, old ++ new, by rw [hsent, hold, List.append_assoc], fun x hx => ?_⟩
      rw [hacc]
      rcases List.mem_append.mp hx with hx | hx
      · exact hrange x hx
      · exact hfd x.1 (hnew x hx)

/-- Over a run too. -/
theorem Machine.run_advances (m : Machine) (stream : List AcceptResult) :
    m.server.Advances (m.run M stream).server := by
  induction stream generalizing m with
  | nil => exact Server.Advances.of_eq rfl rfl
  | cons a stream ih => exact (m.step_advances a).trans (ih (m.step M a))

/-! ## Polls -/

/-- A poll that does not fault is answered on its connection. -/
theorem Machine.Lined.step_poll {m : Machine} (hl : m.Lined) (hf : m.fault = none) {p : List UInt8}
    (hfit : (arrival p).Fits) (hp : cstr p = ESP32_LOCKER)
    (hnext : (m.step M (arrival p)).fault = none) :
    (m.step M (arrival p)).server = m.server.accept.poll m.server.accepted ESP32_LOCKER := by
  have hroom : m.conns.length < bufRows := by
    by_contra hfull
    rw [show m.step M (arrival p) = _ from
      Machine.step_fault hf (iteration_full (Nat.le_of_not_lt hfull))] at hnext
    cases hnext
  have hrow : (arrival p).row = ESP32_LOCKER := hp
  have hends : (arrival p).ends = false := AcceptResult.ends_eq_false.mpr (by rw [hrow]; decide)
  have hit := hl.iteration (r := .bytes p) hfit hroom
  rw [show (AcceptResult.conn (.bytes p)) = arrival p from rfl, hends, if_neg Bool.false_ne_true,
    hrow] at hit
  rw [show m.step M (arrival p) = _ from Machine.step_again hf hit]

theorem Machine.fault_of_append {m : Machine} {s t : List AcceptResult}
    (h : (m.run M (s ++ t)).fault = none) : (m.run M s).fault = none := by
  cases hs : (m.run M s).fault with
  | none => rfl
  | some f => rw [Machine.run_append, Machine.run_fault hs, hs] at h; cases h

/-- **What a poll gets**: "cmd" if there is a list when it is accepted, else nothing. -/
theorem Machine.sentOn_poll {pre post : List AcceptResult} {p : List UInt8} {s : Store}
    (hfit : ∀ a ∈ pre ++ arrival p :: post, a.Fits)
    (hrun : ((Machine.start (Server.start s) []).run M (pre ++ arrival p :: post)).fault = none)
    (hp : cstr p = ESP32_LOCKER) :
    ((Machine.start (Server.start s) []).run M (pre ++ arrival p :: post)).server.sentOn
        ((Machine.start (Server.start s) []).run M pre).server.accepted =
      if ((Machine.start (Server.start s) []).run M pre).server.store.reservations.isSome then cmd
      else [] := by
  have hpre : ∀ a ∈ pre, a.Fits := fun a ha => hfit a (List.mem_append_left _ ha)
  have hlined := ((Machine.lined_start (Server.start s) []).run (M := M) hpre).1
  have hbefore := Machine.fault_of_append hrun
  have hfresh := ((Machine.start (Server.start s) []).run_advances (M := M) pre).sentOn_fresh
    (Nat.le_refl _)
  rw [Machine.run_append] at hrun ⊢
  generalize (Machine.start (Server.start s) []).run M pre = m at hlined hbefore hfresh hrun ⊢
  rw [List.append_cons] at hfit
  have hnext : (m.step M (arrival p)).fault = none :=
    Machine.fault_of_append (s := [arrival p]) (t := post) hrun
  have hserver := hlined.step_poll hbefore (hfit _ (by simp)) hp hnext
  have hlater := (m.step M (arrival p)).run_advances (M := M) post
  rw [Machine.run_cons, hlater.sentOn (by
    rw [hserver, Server.poll_accepted]
    exact Nat.lt_succ_self _), hserver]
  unfold Server.sentOn at hfresh ⊢
  rw [Server.poll_sent, List.filter_append, List.flatMap_append,
    show m.server.accept.sent = m.server.sent from rfl, hfresh]
  by_cases hsome : m.server.store.reservations.isSome
  · simp [hsome]
  · simp [hsome]

end

end CryptoLocker
