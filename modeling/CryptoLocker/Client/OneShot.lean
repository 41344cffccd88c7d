import CryptoLocker.Server.Fates

/-!
# The C client

`client.c` sends one message on one connection and then reads the answer. The
server takes the message for a row of whatever call is open and answers only
polls and the connection that ends a call, so nothing it does ends the client's
wait: it sends nothing on the connection and never closes it (`client_unanswered`).
-/

namespace CryptoLocker

open Lib

/-- The message of `main`: `argv[3]`, copied into `msg[1024]` over "(NULL)". -/
def clientMessage (argv3 : Option CStr) : Except Fault CStr :=
  match argv3 with
  | none => .ok (lit "(NULL)")
  | some s => if s.bytes.length < 1024 then .ok s else .error .outOfBounds

section
variable {M : Malloc Addr} {m : Machine} {F : List Fate} {p : List UInt8}

/-- The row of a payload without NUL begins with what was read of it. -/
theorem prefix_row {buf buf' : Buffer} {i : Nat} (hnul : 0 ∉ p)
    (hread : readRow buf i (.bytes p) = .ok buf') : p.take readLimit <+: (buf'.row i).bytes := by
  simp only [readRow] at hread
  split at hread
  · next hin =>
    cases hread
    rw [Buffer.bytes_row]
    exact Rows.prefix_stringAt_overwrite (fun h0 => hnul (List.mem_of_mem_take h0)) (by omega)
  · cases hread

/-- A connection whose payload begins no poll and ends no call is left waiting. -/
theorem Machine.fate_waiting (h : m.server.Shows F) (hf : m.fault = none) (hne : p ≠ []) (hnul : 0 ∉ p)
    (hpoll : ¬ p <+: ESP32_LOCKER.bytes) : (m.step M (arrival p)).server.Shows (F ++ [.waiting]) := by
  have hread : ∀ {buf buf' : Buffer} {i : Nat}, readRow buf i (.bytes p) = .ok buf' →
      buf'.row i ≠ CStr.empty ∧ buf'.row i ≠ ESP32_LOCKER := by
    intro buf buf' i hread
    have hpre := prefix_row hnul hread
    refine ⟨fun hrow => hne ?_, fun hrow => hpoll ?_⟩
    · rw [hrow] at hpre
      have hnil : p.take readLimit = [] := List.prefix_nil.mp hpre
      exact (List.take_eq_nil_iff.mp hnil).resolve_left (by decide)
    · rw [hrow] at hpre
      -- a string that short was read whole
      have hlen : min readLimit p.length ≤ 12 := by
        rw [← List.length_take]
        exact hpre.length_le
      rwa [List.take_of_length_le (by simp only [readLimit] at hlen ⊢; omega)] at hpre
  obtain ⟨r, e, -, -, hstep⟩ | ⟨r, sv, buf, he, hi, hstep⟩ | ⟨sv, buf, fd, hleaves, -⟩ :=
    Machine.step_cases M hf (arrival p)
  · rw [hstep]
    exact h.accept
  · cases he
    rw [hstep]
    obtain ⟨hok, ⟨hleft, -⟩ | ⟨-, -, rfl⟩⟩ := iteration_ok_server hi
    · cases hleft
    · have hshows := h.poll (buf.row m.conns.length)
      rwa [if_neg fun hp => (hread hok).2 hp.1] at hshows
  · obtain ⟨hi, -⟩ := hleaves
    obtain ⟨hok, ⟨-, hempty, -⟩ | ⟨hleft, -⟩⟩ := iteration_ok_server hi
    · exact absurd hempty (hread hok).1
    · cases hleft

end

/-- **No answer.** Whatever the server received before and receives after, a message of `client.c` that is
neither empty nor the beginning of a poll is never answered, and its connection is never closed. -/
theorem client_unanswered (M : Malloc Addr) (s : Store) (pre post : List AcceptResult)
    (argv3 : Option CStr) (msg : CStr) (hmsg : clientMessage argv3 = .ok msg) (hne : argv3 ≠ some CStr.empty)
    (hpoll : ¬ msg.bytes <+: ESP32_LOCKER.bytes)
    (hrun : ((Machine.start (Server.start s) []).run M pre).fault = none) :
    ((Machine.start (Server.start s) []).run M (pre ++ arrival msg.bytes :: post)).server.sentOn
        ((Machine.start (Server.start s) []).run M pre).server.accepted = [] ∧
      ((Machine.start (Server.start s) []).run M pre).server.accepted ∈
        ((Machine.start (Server.start s) []).run M (pre ++ arrival msg.bytes :: post)).server.openFds := by
  have hbytes : msg.bytes ≠ [] := by
    intro hnil
    cases argv3 with
    | none => cases hmsg; cases hnil
    | some t =>
      simp only [clientMessage] at hmsg
      split at hmsg
      · cases hmsg
        exact hne (congrArg some (CStr.ext hnil))
      · cases hmsg
  obtain ⟨F, hF⟩ := Machine.fate_run (M := M) (m := Machine.start (Server.start s) [])
    (Server.shows_start s) pre
  rw [List.nil_append] at hF
  have hwait := Machine.fate_waiting (M := M) hF hrun hbytes msg.nulFree hpoll
  obtain ⟨G, hG⟩ := Machine.fate_run (M := M) hwait post
  have hfate : (F ++ [Fate.waiting] ++ G)[F.length]? = some .waiting := by simp
  rw [Machine.run_append, Machine.run_cons, hF.accepted, hG.sentOn, hfate]
  refine ⟨rfl, ?_⟩
  rw [hG.openFds]
  exact mem_openOf.mpr ⟨_, hfate, rfl⟩

/-- A CREATE of the C client, with a terminator from another connection behind it. -/
theorem client_unanswered_create :
    (Machine.init.run Malloc.next [arrival CREATE.bytes, arrival []]).server.sentOn 0 = [] ∧
      0 ∈ (Machine.init.run Malloc.next [arrival CREATE.bytes, arrival []]).server.openFds :=
  client_unanswered Malloc.next Store.init [] [arrival []] (some CREATE) CREATE rfl (by decide) (by decide)
    rfl

end CryptoLocker
