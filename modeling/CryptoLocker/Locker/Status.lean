import CryptoLocker.Locker.ReadResponse
import CryptoLocker.Server.Replies

/-!
# The lock status

The server answers a poll when `reservations` is not NULL and the locker blinks
on "cmd". Between sessions a list that exists is not empty, so the two agree on
whether a reservation is stored (`lock_status`).
-/

namespace CryptoLocker

open Lib

section
variable {M : Malloc Addr} {stream : List AcceptResult}

/-- On payloads that fit their rows the server faults by dereferencing NULL or
when one call has more than 1024 connections. -/
theorem run_faults (hfit : ∀ a ∈ stream, a.Fits) {f : Fault}
    (h : (Machine.init.run M stream).fault = some f) :
    f = .nullDeref ∨ (f = .outOfBounds ∧ (Machine.init.run M stream).conns.length = bufRows) := by
  have hlined := ((Machine.lined_start (Server.start Store.init) []).run (M := M) hfit).1
  have hrun := run_init_forget M hfit
  rw [← Machine.forget_fault, hrun] at h
  rcases RowMachine.run_faults Store.settled_init h with hf | ⟨hf, hfull⟩
  · exact .inl hf
  · rw [← hrun] at hfull
    exact .inr ⟨hf, Nat.le_antisymm hlined.short hfull⟩

/-- A list exists exactly when a reservation is stored. -/
theorem Store.Settled.exists_iff {s : Store} (h : s.Settled) :
    s.reservations.isSome ↔ s.nodes ≠ [] := by
  refine ⟨fun hsome hn => ?_, fun hn => ?_⟩
  · refine h.inhabited hsome (Store.queue_eq_nil.mpr ?_)
    rw [Store.users, hn]
    rfl
  · exact Store.isSome_of_queue fun hq => hn (List.map_eq_nil_iff.mp hq)

end

theorem cmd_blinks {timeout : UInt32} {samples : List Sample} (h : Delivered timeout samples cmd) :
    (readResponse timeout samples cmd).Blinks := by
  refine ⟨cmd, ?_, by decide⟩
  rw [h.lines]
  decide

theorem silence_no_blink {timeout : UInt32} {samples : List Sample} :
    ¬ (readResponse timeout samples []).Blinks := by
  have h : Delivered timeout samples [] := fun hne => absurd rfl hne
  rintro ⟨line, hline, -⟩
  rw [h.lines] at hline
  cases hline

/-- **The lock status.** In a run without a fault, on payloads that fit their rows,
a connection with "ESP32-LOCKER" gets "cmd" in all if a reservation is stored when it
is accepted and nothing otherwise, and the locker blinks in the first case only. -/
theorem lock_status (M : Malloc Addr) (pre post : List AcceptResult) (p : List UInt8)
    (hfit : ∀ a ∈ pre ++ arrival p :: post, a.Fits)
    (hrun : (Machine.init.run M (pre ++ arrival p :: post)).fault = none) (hp : cstr p = ESP32_LOCKER)
    (timeout : UInt32) (samples : List Sample)
    (hdel : Delivered timeout samples ((Machine.init.run M (pre ++ arrival p :: post)).server.sentOn
      (Machine.init.run M pre).server.accepted)) :
    (Machine.init.run M (pre ++ arrival p :: post)).server.sentOn
        (Machine.init.run M pre).server.accepted =
      (if (Machine.init.run M pre).server.store.nodes = [] then [] else (lit "cmd").bytes) ∧
    ((readResponse timeout samples ((Machine.init.run M (pre ++ arrival p :: post)).server.sentOn
        (Machine.init.run M pre).server.accepted)).Blinks ↔
      (Machine.init.run M pre).server.store.nodes ≠ []) := by
  have hsettled : (Machine.init.run M pre).server.store.Settled := Machine.settled_run Store.settled_init
  have hexists := hsettled.exists_iff
  have hsent : (Machine.init.run M (pre ++ arrival p :: post)).server.sentOn
      (Machine.init.run M pre).server.accepted =
        if (Machine.init.run M pre).server.store.reservations.isSome then cmd else [] :=
    Machine.sentOn_poll hfit hrun hp
  rw [hsent] at hdel ⊢
  by_cases hn : (Machine.init.run M pre).server.store.nodes = []
  · rw [if_pos hn, if_neg fun h => hexists.mp h hn]
    exact ⟨rfl, iff_of_false silence_no_blink fun h => h hn⟩
  · rw [if_neg hn]
    rw [if_pos (hexists.mpr hn)] at hdel ⊢
    exact ⟨rfl, iff_of_true (cmd_blinks hdel) hn⟩

/-- After a create the next poll is told to blink. -/
theorem lock_status_after_create :
    (Machine.init.run Malloc.next
        ([arrival CREATE.bytes, arrival [97], arrival []] ++
          arrival ESP32_LOCKER.bytes :: [])).server.sentOn
      (Machine.init.run Malloc.next
        [arrival CREATE.bytes, arrival [97], arrival []]).server.accepted = (lit "cmd").bytes := by
  have hfit : ∀ a ∈ [arrival CREATE.bytes, arrival [97], arrival []] ++ arrival ESP32_LOCKER.bytes :: [],
      a.Fits := by decide
  have hrun := run_init_forget Malloc.next hfit
  have hnodes : (Machine.init.run Malloc.next
      [arrival CREATE.bytes, arrival [97], arrival []]).server.store.nodes ≠ [] := by
    have hpre : ∀ a ∈ [arrival CREATE.bytes, arrival [97], arrival []], a.Fits := by decide
    have hcreated := run_init_forget Malloc.next hpre
    exact fun hn => absurd ((congrArg (·.store.nodes) hcreated).symm.trans hn) (by decide)
  have h := lock_status Malloc.next [arrival CREATE.bytes, arrival [97], arrival []] []
    ESP32_LOCKER.bytes hfit (congrArg RowMachine.fault hrun) rfl 0 [⟨3, 0⟩] fun _ =>
      ⟨[], ⟨3, 0⟩, [], rfl, by decide, nofun⟩
  exact h.1.trans (if_neg hnodes)

end CryptoLocker
