import CryptoLocker.Locker.Lines
import CryptoLocker.Locker.Status
import CryptoLocker.Locker.Write
import CryptoLocker.Server.Fates

/-!
# From the store to the LEDs

The whole way of a poll: `write` on the locker, the accept loop on the server,
the answer through the receive buffer and `readStringUntil`. The locker never
blinks without a reservation, whatever the network does (`blink_sound`), and a
turn of `loop` on which nothing is lost blinks exactly when there is one
(`turn_blinks`).
-/

namespace CryptoLocker

open Lib

/-- `line == "cmd"` on some line of an answer. -/
def Blinks (ls : List (List UInt8)) : Prop := ∃ line ∈ ls, strcmp (cstr line) (lit "cmd") = 0

section
variable {M : Malloc Addr} {pre post : List AcceptResult} {r : ReadResult} {fd : Fd}

/-- The letter "c". -/
theorem mem_of_cmd {line : List UInt8} (h : strcmp (cstr line) (lit "cmd") = 0) : 99 ∈ line := by
  have hmem : 99 ∈ (cstr line).bytes := by
    rw [strcmp_eq_zero.mp h]
    decide
  exact (List.takeWhile_prefix _).subset hmem

/-- No other message has that letter. -/
theorem Fate.polled_of_mem {f : Fate} (h : 99 ∈ f.reply.getD []) : f = .polled := by
  cases f with
  | polled => rfl
  | waiting => cases h
  | acknowledged | closed => exact absurd h (by decide)

theorem cmd_sent (h : 99 ∈ (Machine.init.run M (pre ++ .conn r :: post)).server.sentOn
      (Machine.init.run M pre).server.accepted) :
    (Machine.init.run M pre).server.store.reservations.isSome := by
  obtain ⟨F, hF⟩ := Machine.fate_run (M := M) (m := Machine.init) (Server.shows_start Store.init) pre
  rw [List.nil_append] at hF
  rw [Machine.run_append, hF.accepted] at h
  cases hfault : (Machine.init.run M pre).fault with
  | some f =>
    rw [Machine.run_fault hfault, hF.sentOn, List.getElem?_eq_none (Nat.le_refl _)] at h
    cases h
  | none =>
    obtain ⟨f, hconn, hlist⟩ := Machine.fate_conn (M := M) hF hfault r
    obtain ⟨G, hG⟩ := Machine.fate_run (M := M) hconn post
    have hfate : (F ++ [f] ++ G)[F.length]? = some f := by simp
    rw [Machine.run_cons, hG.sentOn, hfate] at h
    exact hlist (Fate.polled_of_mem h)

end

/-- A create in a session of its own. -/
def created : List AcceptResult := [arrival CREATE.bytes, arrival [97], arrival []]

theorem fits_created : ∀ a ∈ created ++ arrival ESP32_LOCKER.bytes :: [], a.Fits := by decide

theorem run_created : (Machine.init.run Malloc.next (created ++ arrival ESP32_LOCKER.bytes :: [])).fault = none := by
  have hrun := congrArg RowMachine.fault (run_init_forget Malloc.next fits_created)
  have hnone : ((RowMachine.start Store.init []).run Malloc.next
      (created ++ arrival ESP32_LOCKER.bytes :: [])).fault = none := by decide
  exact hrun.trans hnone

theorem sentOn_created : (Machine.init.run Malloc.next (created ++ arrival ESP32_LOCKER.bytes :: [])).server.sentOn
    (Machine.init.run Malloc.next created).server.accepted = (lit "cmd").bytes := by
  have hpre : ∀ a ∈ created, a.Fits := fun a ha => fits_created a (List.mem_append_left _ ha)
  have hlist : (Machine.init.run Malloc.next created).server.store.reservations.isSome := by
    have hstore := congrArg (·.store.reservations) (run_init_forget Malloc.next hpre)
    have hsome : ((RowMachine.start Store.init []).run Malloc.next created).store.reservations.isSome := by decide
    exact (congrArg Option.isSome hstore).trans hsome
  exact (Machine.sentOn_poll fits_created run_created (cstr_bytes ESP32_LOCKER)).trans (if_pos hlist)

/-- **No blink without a reservation.** Whatever the server received and receives, however the answer is cut
up, delayed or lost on its way and whenever the locker's reads time out: a locker that blinks on
a connection was accepted when a reservation was stored. -/
theorem blink_sound (M : Malloc Addr) (pre post : List AcceptResult) (r : ReadResult) (timeout : UInt32)
    (network : Nat → Tick) (ls : List (List UInt8)) (c' : WiFiClient)
    (hr : Answers timeout (WiFiClient.connected network) ls c')
    (harrived : c'.sock.arrived <+: (Machine.init.run M (pre ++ .conn r :: post)).server.sentOn
      (Machine.init.run M pre).server.accepted)
    (hblink : Blinks ls) : (Machine.init.run M pre).server.store.nodes ≠ [] := by
  obtain ⟨line, hline, hcmd⟩ := hblink
  have harr := (line_within hr hline).subset (mem_of_cmd hcmd)
  have hsettled : (Machine.init.run M pre).server.store.Settled := Machine.settled_run Store.settled_init
  exact hsettled.exists_iff.mp (cmd_sent (harrived.subset harr))

theorem blink_sound_created : (Machine.init.run Malloc.next created).server.store.nodes ≠ [] := by
  refine blink_sound Malloc.next created [] (.bytes ESP32_LOCKER.bytes) 0 cmdOnly [(lit "cmd").bytes] _
    (.data (by decide) (.line (by decide) (.byte rfl rfl (by decide) (.byte rfl rfl (by decide)
      (.byte rfl rfl (by decide) (.timeout rfl (by decide))))) (.done rfl))) ?_ ⟨cmd, by decide, by decide⟩
  exact sentOn_created ▸ List.prefix_rfl

/-- **A turn of `loop`.** The poll goes out over a fair link and is read whole by a server without a
fault, and the answer is waited for on a quiet network: the locker blinks exactly when a reservation
was stored. -/
theorem turn_blinks (M : Malloc Addr) (pre post : List AcceptResult) (link : Nat → Pass) (c c₁ c' : WiFiClient)
    (timeout : UInt32) (ls : List (List UInt8)) (hc : c.rx.isSome) (hlink : Fair link)
    (hfit : ∀ a ∈ pre ++ arrival (c.write link ESP32_LOCKER.bytes).1.sent :: post, a.Fits)
    (hrun : (Machine.init.run M
      (pre ++ arrival (c.write link ESP32_LOCKER.bytes).1.sent :: post)).fault = none)
    (hwait : c₁.Waiting ((Machine.init.run M
      (pre ++ arrival (c.write link ESP32_LOCKER.bytes).1.sent :: post)).server.sentOn
        (Machine.init.run M pre).server.accepted))
    (hr : Answers timeout c₁ ls c') :
    Blinks ls ↔ (Machine.init.run M pre).server.store.nodes ≠ [] := by
  obtain ⟨hsent, -⟩ := write_complete c link ESP32_LOCKER.bytes hc hlink
  rw [hsent] at hfit hrun hwait
  have hpoll : (Machine.init.run M (pre ++ arrival ESP32_LOCKER.bytes :: post)).server.sentOn
      (Machine.init.run M pre).server.accepted =
        if (Machine.init.run M pre).server.store.reservations.isSome then cmd else [] :=
    Machine.sentOn_poll hfit hrun (cstr_bytes ESP32_LOCKER)
  have hsettled : (Machine.init.run M pre).server.store.Settled := Machine.settled_run Store.settled_init
  rw [hpoll] at hwait
  rw [← hsettled.exists_iff, hr.waiting hwait]
  split
  · next hsome => exact iff_of_true ⟨cmd, by decide, by decide⟩ hsome
  · next hnone =>
    refine iff_of_false ?_ hnone
    rintro ⟨line, hline, -⟩
    cases hline

theorem turn_blinks_created : (Machine.init.run Malloc.next created).server.store.nodes ≠ [] := by
  obtain ⟨hsent, -⟩ := write_complete (WiFiClient.connected cmdOnly) slowLink ESP32_LOCKER.bytes rfl
    fair_slowLink
  obtain ⟨c', hr⟩ := waiting_cmd.answers 0
  refine (turn_blinks Malloc.next created [] slowLink (WiFiClient.connected cmdOnly) _ c' 0 _ rfl
    fair_slowLink ?_ ?_ ?_ hr).mp ⟨cmd, by decide, by decide⟩
  · rw [hsent]
    exact fits_created
  · rw [hsent]
    exact run_created
  · rw [hsent, sentOn_created]
    exact waiting_cmd

end CryptoLocker
