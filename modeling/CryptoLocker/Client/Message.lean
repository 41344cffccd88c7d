import CryptoLocker.Client.Request

/-!
# The message of the client

`createMessage` is the message `client.py` builds for a reservation. Its two
empty fields end the request before the duration, so the server never takes it
as one session (`create_message_not_understood`).
-/

namespace CryptoLocker

open Lib

/-- `str(i).encode()`. -/
def decimal (i : Nat) : List UInt8 := (toString i).toUTF8.data.toList

/-- `['CREATE', user, IPAddr, dt_string, "key", "", "", i, "\0"]`, encoded. -/
def createMessage (user IPAddr dt_string : CStr) (i : Nat) : List (List UInt8) :=
  [CREATE.bytes, user.bytes, IPAddr.bytes, dt_string.bytes, (lit "key").bytes, [], [], decimal i, [0]]

/-- The server took the message as one session, with its fields in rows 0 to 7,
and holds a reservation of the user for `i` hours. -/
structure Understood (user IPAddr dt_string : CStr) (i : Nat) (m : Machine) : Prop where
  session : m.served.map Served.conns = [(createMessage user IPAddr dt_string i).map arrival]
  fields : ∀ call ∈ m.served, ∀ j < 8,
    call.rows j = cstr ((createMessage user IPAddr dt_string i).getD j [])
  stored : ∃ x ∈ m.server.store.nodes, x.2.user = user ∧ x.2.durationHours = i

/-- The payloads up to the first empty one. -/
def messageHead (user IPAddr dt_string : CStr) : List (List UInt8) :=
  [CREATE.bytes, user.bytes, IPAddr.bytes, dt_string.bytes, (lit "key").bytes, []]

section
variable (user IPAddr dt_string : RowText) (i : Nat)

theorem createMessage_eq (user IPAddr dt_string : CStr) :
    createMessage user IPAddr dt_string i =
      messageHead user IPAddr dt_string ++ [[], decimal i, [0]] := rfl

theorem messageHead_fits :
    ∀ a ∈ (messageHead user.str IPAddr.str dt_string.str).map arrival, a.Fits := by
  have hfits : ∀ f : RowText, (arrival f.str.bytes).Fits := fun f => Nat.lt_succ_of_le f.fits
  simp only [messageHead, List.map_cons, List.map_nil, List.forall_mem_cons, hfits, true_and]
  decide

theorem messageHead_closed :
    Closed AcceptResult.ends ((messageHead user.str IPAddr.str dt_string.str).map arrival) := by
  have hopen : ∀ f : RowText, (arrival f.str.bytes).ends = false := by
    intro f
    rw [AcceptResult.ends_eq_false]
    exact fun he => f.nonempty ((cstr_bytes f.str).symm.trans he)
  refine ⟨[CREATE.bytes, user.str.bytes, IPAddr.str.bytes, dt_string.str.bytes, (lit "key").bytes].map
    arrival, arrival [], rfl, ?_, rfl⟩
  simp only [Open, List.map_cons, List.map_nil, List.forall_mem_cons, hopen, true_and]
  decide

/-- The first session takes six of the nine payloads. -/
theorem served_messageHead (M : Malloc Addr) (s : Store) :
    ((Machine.start (Server.start s) []).run M
        ((messageHead user.str IPAddr.str dt_string.str).map arrival)).served =
      [servedOf ((messageHead user.str IPAddr.str dt_string.str).map arrival)] := by
  rw [← Machine.forget_served, run_forget M s (messageHead_fits user IPAddr dt_string),
    RowMachine.run_closed (messageHead_closed user IPAddr dt_string)
      (show 6 ≤ bufRows by decide),
    RowMachine.endCall_served]
  rfl

/-- **The formats disagree.** The server never understands a message of the
client: its sixth payload is empty and ends the session. -/
theorem create_message_not_understood (M : Malloc Addr) (s : Store) :
    ¬ Understood user.str IPAddr.str dt_string.str i ((Machine.start (Server.start s) []).run M
      ((createMessage user.str IPAddr.str dt_string.str i).map arrival)) := by
  intro h
  have hserved := Machine.served_run (M := M) ((Machine.start (Server.start s) []).run M
    ((messageHead user.str IPAddr.str dt_string.str).map arrival)) ([[], decimal i, [0]].map arrival)
  rw [served_messageHead, ← Machine.run_append, ← List.map_append, ← createMessage_eq] at hserved
  obtain ⟨rest, hrest⟩ := hserved
  have hconns := h.session
  rw [← hrest, List.map_append] at hconns
  have hhead : 6 = 9 := congrArg List.length (List.cons.inj hconns).1
  exact absurd hhead (by decide)

end

/-- Nine connections become three sessions, and the reservation is for 0 hours, not 5. -/
theorem create_message_cut :
    ∃ m : Machine, m = Machine.init.run Malloc.next
        ((createMessage (lit "alice") (lit "10.0.0.1") (lit "01/02/2020") 5).map arrival) ∧
      m.fault = none ∧ m.served.map (·.conns.length) = [6, 1, 2] ∧
      m.server.store.nodes.map (·.2.durationHours) = [0] ∧
      ¬ Understood (lit "alice") (lit "10.0.0.1") (lit "01/02/2020") 5 m := by
  have hrun := run_init_forget Malloc.next
    (show ∀ a ∈ (createMessage (lit "alice") (lit "10.0.0.1") (lit "01/02/2020") 5).map arrival, a.Fits
      by decide)
  have hlens := congrArg (fun m => m.served.map (·.conns.length)) hrun
  refine ⟨_, rfl, congrArg RowMachine.fault hrun, hlens,
    congrArg (fun m => m.store.nodes.map (·.2.durationHours)) hrun, fun h => ?_⟩
  have hone := congrArg (List.map List.length) h.session
  rw [List.map_map] at hone
  cases hlens.symm.trans hone

end CryptoLocker
