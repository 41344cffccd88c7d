import CryptoLocker.Client.Message
import CryptoLocker.Server.Deliveries

/-!
# The script of the client

`client.py` sends ten CREATEs, opens a connection it sends nothing on, and then
sends a DISPLAY, three DELETEs and a DISPLAY. To the server each message is
several calls, and the timestamp of a CREATE runs over its row; the other fields
are taken to fit theirs, with 15 bytes at most. `deliver` says what one message
does to the entries; any sequence of messages does just that (`messages_refine`),
and so the script, on a host whose name is not longer than 14 bytes, leaves seven
of its ten users (`script_users`).
-/

namespace CryptoLocker

open Lib

/-- "dd/mm/YY H:M:S", three characters longer than a row. -/
structure Stamp where
  str : CStr
  long : str.bytes.length = 19

/-- `['DISPLAY', user, "", "", "", "", "", "", "\0"]`, encoded. -/
def commandMessage (cmd user : CStr) : List (List UInt8) :=
  [cmd.bytes, user.bytes, [], [], [], [], [], [], [0]]

/-- What the script sends; `hello` is a connection without a message. -/
inductive ClientMessage where
  | create (user IPAddr : RowText) (dt_string : Stamp) (i : Fin 10)
  | display (user : RowText)
  | delete (user : RowText)
  | hello

def ClientMessage.payloads : ClientMessage → List (List UInt8)
  | .create user IPAddr dt_string i => createMessage user.str IPAddr.str dt_string.str i
  | .display user => commandMessage DISPLAY user.str
  | .delete user => commandMessage DELETE user.str
  | .hello => [[]]

/-- Row 3 of a CREATE: what its row holds of the timestamp, and the key behind it. -/
def Stamp.shown (t : Stamp) : CStr where
  bytes := t.str.bytes.take 16 ++ (lit "key").bytes
  nulFree h := (List.mem_append.mp h).elim (fun h => t.str.nulFree (List.mem_of_mem_take h)) (lit "key").nulFree

/-- What a message does to the entries. A create is refused while a user named "CREATE" is on the
list; the deletion of the last reservation is the server's end. -/
def deliver (es : List Entry) : ClientMessage → Except Fault (List Entry)
  | .create user IPAddr t _ =>
    .ok (if CREATE ∈ es.map Entry.user then es
      else es ++ [⟨user.str, if es = [] then t.shown else IPAddr.str, t.shown, 0⟩])
  | .delete user =>
    if es ≠ [] ∧ Fcfs.cancel Entry.user es user.str = [] then .error .nullDeref
    else .ok (Fcfs.cancel Entry.user es user.str)
  | .display _ | .hello => .ok es

/-! ## The calls of a message -/

/-- A payload as the script sends them. -/
def Short (p : List UInt8) : Prop := p ≠ [] ∧ 0 ∉ p ∧ p.length ≤ 19

section
variable {ps : List (List UInt8)}

theorem admissible_short (hps : ∀ p ∈ ps, Short p) (hn : ps.length ≤ 8) : Admissible ps where
  nonempty p hp := (hps p hp).1
  nulFree p hp := (hps p hp).2.1
  limit p hp := (hps p hp).2.2.trans (by decide)
  rows := hn.trans_lt (by decide)
  inside i hi := by
    have hlen := (hps _ (List.getElem_mem hi)).2.2
    simp only [bufSize, bufRows, rowSize]
    omega

/-- The row behind is clear when the last payload fits its own. -/
theorem clear_short (hps : ∀ p ∈ ps, Short p) (hlast : (ps.getLastD []).length ≤ 16) :
    Rows.stack rowSize ps (rowSize * ps.length) = 0 := by
  refine (Rows.stack_eq_zero fun p hp => (hps p hp).2.1).mpr fun i hi hhit => ?_
  have hlen := (hps _ (List.getElem_mem hi)).2.2
  simp only [rowSize] at hhit
  by_cases hend : i + 1 = ps.length
  · have hget : ps.getLastD [] = ps[i] := by
      rw [List.getLastD_eq_getLast?, List.getLast?_eq_getElem?, ← hend, Nat.add_sub_cancel,
        List.getElem?_eq_getElem hi, Option.getD_some]
    rw [hget] at hlast
    omega
  · omega

end

theorem RowText.short (f : RowText) : Short f.str.bytes :=
  ⟨fun h => f.nonempty (CStr.ext h), f.str.nulFree, f.fits.trans (by decide)⟩

theorem Stamp.short (t : Stamp) : Short t.str.bytes :=
  ⟨List.ne_nil_of_length_pos (by rw [t.long]; decide), t.str.nulFree, t.long.le⟩

theorem short_decimal : ∀ i : Fin 10, Short (decimal i) ∧ (decimal i).length ≤ 15 := by
  unfold Short
  decide

/-- A connection that ends a call by itself. -/
def blank (terminator : List UInt8) (h : terminator = [] ∨ terminator = [0]) : Delivery :=
  ⟨[], terminator, ⟨nofun, nofun, nofun, by decide, nofun⟩, rfl, h⟩

theorem short_create (user IPAddr : RowText) (t : Stamp) :
    ∀ p ∈ [CREATE.bytes, user.str.bytes, IPAddr.str.bytes, t.str.bytes, (lit "key").bytes], Short p := by
  simp only [List.forall_mem_cons, user.short, IPAddr.short, t.short, true_and]
  unfold Short
  decide

theorem length_key : (lit "key").bytes.length = 3 := by decide

/-- The fields of a CREATE up to its first empty one. -/
def createFields (user IPAddr : RowText) (t : Stamp) : Delivery where
  payloads := [CREATE.bytes, user.str.bytes, IPAddr.str.bytes, t.str.bytes, (lit "key").bytes]
  terminator := []
  admissible := admissible_short (short_create user IPAddr t) (Nat.le_add_right 5 3)
  clear := clear_short (short_create user IPAddr t) (Nat.le_trans (Nat.le_of_eq length_key) (Nat.le_add_right 3 13))
  ending := empty_ends

/-- Its duration, on a call of its own. -/
def createDuration (i : Fin 10) : Delivery where
  payloads := [decimal i]
  terminator := [0]
  admissible := admissible_short (List.forall_mem_singleton.mpr (short_decimal i).1) (Nat.le_add_right 1 7)
  clear := clear_short (List.forall_mem_singleton.mpr (short_decimal i).1) (Nat.le_trans (short_decimal i).2 (Nat.le_succ 15))
  ending := nul_ends

theorem short_command (cmd user : RowText) : ∀ p ∈ [cmd.str.bytes, user.str.bytes], Short p := by
  simp [cmd.short, user.short]

def commandFields (cmd user : RowText) : Delivery where
  payloads := [cmd.str.bytes, user.str.bytes]
  terminator := []
  admissible := admissible_short (short_command cmd user) (Nat.le_add_right 2 6)
  clear := clear_short (short_command cmd user) (Nat.le_trans user.fits (Nat.le_succ 15))
  ending := empty_ends

def displayCommand : RowText := ⟨DISPLAY, by decide, by decide⟩
def deleteCommand : RowText := ⟨DELETE, by decide, by decide⟩

/-- The calls of a command: its fields, its five further empty strings and its "\0". -/
def commandCalls (cmd user : RowText) : List Delivery :=
  commandFields cmd user :: (List.replicate 5 (blank [] empty_ends) ++ [blank [0] nul_ends])

def ClientMessage.calls : ClientMessage → List Delivery
  | .create user IPAddr t i => [createFields user IPAddr t, blank [] empty_ends, createDuration i]
  | .display user => commandCalls displayCommand user
  | .delete user => commandCalls deleteCommand user
  | .hello => [blank [] empty_ends]

theorem ClientMessage.calls_conns (m : ClientMessage) :
    m.calls.flatMap Delivery.conns = m.payloads.map arrival := by
  cases m <;> rfl

/-! ## Their rows -/

section
variable {ps : List (List UInt8)} {j : Nat}

theorem short_getD (hps : ∀ p ∈ ps, Short p) (j : Nat) : 0 ∉ ps.getD j [] ∧ (ps.getD j []).length ≤ 19 := by
  by_cases hj : j < ps.length
  · rw [List.getD_eq_getElem _ _ hj]
    exact (hps _ (List.getElem_mem hj)).2
  · rw [List.getD_eq_default _ _ (Nat.le_of_not_lt hj)]
    exact ⟨List.not_mem_nil, Nat.zero_le _⟩

/-- A row shows its payload unless the one before runs over it and behind its end. -/
theorem row_stack (hps : ∀ p ∈ ps, Short p) (hj : j ≤ 7) (hlen : (ps.getD j []).length ≤ 15)
    (hprev : (ps.getD (j - 1) []).length ≤ 16 + (ps.getD j []).length) :
    (Buffer.row (Rows.stack rowSize ps) j).bytes = ps.getD j [] := by
  rw [Buffer.bytes_row]
  refine Rows.stringAt_stack (Nat.lt_succ_of_le hlen) (short_getD hps j).1 (fun i hi => ?_)
    (by simp only [bufSize, bufRows, rowSize]; omega)
  simp only [rowSize]
  by_cases hnext : i + 1 = j
  · subst hnext
    rw [Nat.add_sub_cancel] at hprev
    omega
  · have hi19 := (short_getD hps i).2
    omega

/-- A row that is full shows the payload behind it. -/
theorem row_stack_over (hps : ∀ p ∈ ps, Short p) (hj : j ≤ 6) (hfull : 16 ≤ (ps.getD j []).length)
    (hnext : (ps.getD (j + 1) []).length ≤ 15)
    (hover : (ps.getD j []).length ≤ 16 + (ps.getD (j + 1) []).length) :
    (Buffer.row (Rows.stack rowSize ps) j).bytes = (ps.getD j []).take 16 ++ ps.getD (j + 1) [] := by
  rw [Buffer.bytes_row]
  refine Rows.stringAt_stack_over hfull (Nat.lt_succ_of_le hnext) (short_getD hps j).1
    (short_getD hps (j + 1)).1 (fun i hi => ?_) (by simp only [bufSize, bufRows, rowSize]; omega)
  simp only [rowSize]
  by_cases heq : i = j
  · subst heq
    omega
  · have hi19 := (short_getD hps i).2
    omega

variable (cmd user IPAddr : RowText) (t : Stamp) (i : Fin 10)

/-- The rows a CREATE reads. -/
theorem createFields_rows :
    (createFields user IPAddr t).rows 0 = CREATE ∧ (createFields user IPAddr t).rows 1 = user.str ∧
      (createFields user IPAddr t).rows 2 = IPAddr.str ∧ (createFields user IPAddr t).rows 3 = t.shown ∧
      (createFields user IPAddr t).rows 7 = CStr.empty := by
  have hshort := short_create user IPAddr t
  have hcreate : CREATE.bytes.length = 6 := by decide
  have hkey := length_key
  have huser := user.fits
  have hip := IPAddr.fits
  have ht := t.long
  refine ⟨CStr.ext ?_, CStr.ext ?_, CStr.ext ?_, CStr.ext ?_, CStr.ext ?_⟩
  · exact row_stack hshort (by decide) (show CREATE.bytes.length ≤ 15 by omega)
      (Nat.le_add_left _ _)
  · exact row_stack hshort (by decide) huser (show CREATE.bytes.length ≤ 16 + _ by omega)
  · exact row_stack hshort (by decide) hip (show user.str.bytes.length ≤ 16 + _ by omega)
  · exact row_stack_over hshort (by decide) (show 16 ≤ t.str.bytes.length by omega)
      (show (lit "key").bytes.length ≤ 15 by omega)
      (show t.str.bytes.length ≤ 16 + (lit "key").bytes.length by omega)
  · exact row_stack hshort (by decide) (Nat.zero_le _) (Nat.zero_le _)

theorem commandFields_rows :
    (commandFields cmd user).rows 0 = cmd.str ∧ (commandFields cmd user).rows 1 = user.str := by
  have hshort := short_command cmd user
  refine ⟨CStr.ext ?_, CStr.ext ?_⟩
  · exact row_stack hshort (by decide) cmd.fits (Nat.le_add_left _ _)
  · exact row_stack hshort (by decide) user.fits (cmd.fits.trans (by omega))

theorem createDuration_zero : (createDuration i).rows 0 = cstr (decimal i) := by
  obtain ⟨hshort, hlen⟩ := short_decimal i
  refine CStr.ext ?_
  rw [bytes_cstr_of_nulFree hshort.2.1]
  exact row_stack (List.forall_mem_singleton.mpr hshort) (by decide) hlen (Nat.le_add_left _ _)

theorem blank_zero {terminator : List UInt8} {h : terminator = [] ∨ terminator = [0]} :
    (blank terminator h).rows 0 = CStr.empty :=
  (row_eq_empty (by decide)).mpr rfl

end

/-! ## What the calls do -/

/-- The roster of the entries of a store between sessions. -/
def rosterOf (es : List Entry) : Roster := if es = [] then none else some es

theorem Store.Settled.roster_eq {s : Store} (h : s.Settled) : s.roster = rosterOf s.entries := by
  unfold rosterOf
  cases hr : s.reservations with
  | none => rw [Store.roster_null hr, if_pos (Store.entries_eq_nil.mpr (Store.queue_null hr))]
  | some r =>
    have hsome : s.reservations.isSome := by rw [hr]; rfl
    rw [Store.roster_some hsome, if_neg fun hnil => h.inhabited hsome (Store.entries_eq_nil.mp hnil)]

section
variable {es : List Entry} {rows : EntryData} {user : CStr}

theorem rosterOf_update (es : List Entry) : (rosterOf es).update = .ok (rosterOf es) := by
  unfold rosterOf Roster.update
  split
  · rfl
  · next hne => exact if_neg fun h => hne (Option.some.inj h)

/-- A call without a command that changes the list. -/
theorem session_idle (hc : rows 0 ≠ CREATE) (hd : rows 0 ≠ DELETE) :
    (rosterOf es).session rows = .ok (rosterOf es) := by
  unfold Roster.session Roster.dispatch
  rw [if_neg hc, if_neg hd, ok_seq, rosterOf_update]

theorem session_create (hc : rows 0 = CREATE) :
    (rosterOf es).session rows = .ok (rosterOf (if CREATE ∈ es.map Entry.user then es
      else es ++ [if es = [] then firstEntry rows else appendEntry rows])) := by
  unfold Roster.session Roster.dispatch
  rw [if_pos hc]
  by_cases hes : es = []
  · subst hes
    rfl
  · have hne : rosterOf es = some es := if_neg hes
    rw [hne, Roster.create, hc, if_neg hes]
    by_cases hm : CREATE ∈ es.map Entry.user
    · rw [if_pos hm, if_pos hm, ok_seq, ← hne, rosterOf_update]
    · have hsnoc : rosterOf (es ++ [appendEntry rows]) = some (es ++ [appendEntry rows]) :=
        if_neg (List.append_ne_nil_of_right_ne_nil _ (List.cons_ne_nil _ _))
      rw [if_neg hm, if_neg hes, if_neg hm, ok_seq, ← hsnoc, rosterOf_update]

theorem session_delete (hd : rows 0 = DELETE) :
    (rosterOf es).session rows =
      if es ≠ [] ∧ Fcfs.cancel Entry.user es (rows 1) = [] then .error .nullDeref
      else .ok (rosterOf (Fcfs.cancel Entry.user es (rows 1))) := by
  unfold Roster.session Roster.dispatch
  rw [if_neg (by rw [hd]; decide), if_pos hd, ok_seq]
  by_cases hes : es = []
  · subst hes
    rfl
  · rw [show rosterOf es = some es from if_neg hes]
    show Roster.update (some (Fcfs.cancel Entry.user es (rows 1))) = _
    by_cases hlast : Fcfs.cancel Entry.user es (rows 1) = []
    · rw [if_pos ⟨hes, hlast⟩, hlast]
      rfl
    · rw [if_neg fun h => hlast h.2, ← rosterOf_update, rosterOf, if_neg hlast]

theorem decimal_idle : ∀ i : Fin 10, cstr (decimal i) ≠ CREATE ∧ cstr (decimal i) ≠ DELETE := by decide

/-- Calls that hold no field change nothing. -/
theorem run_idle {ds : List Delivery} (h : ∀ d ∈ ds, d.rows 0 ≠ CREATE ∧ d.rows 0 ≠ DELETE) :
    runFrom Roster.session (rosterOf es) (ds.map Delivery.rows) = .ok (rosterOf es) := by
  induction ds with
  | nil => rfl
  | cons d ds ih =>
    obtain ⟨hc, hd⟩ := h d List.mem_cons_self
    rw [List.map_cons, runFrom_cons, session_idle hc hd, ok_seq]
    exact ih fun d' hd' => h d' (List.mem_cons_of_mem _ hd')

/-- The calls behind the fields of a command. -/
theorem commandCalls_idle : ∀ d ∈ List.replicate 5 (blank [] empty_ends) ++ [blank [0] nul_ends],
    d.rows 0 ≠ CREATE ∧ d.rows 0 ≠ DELETE := by
  have hblank : ∀ {terminator : List UInt8} (h : terminator = [] ∨ terminator = [0]),
      (blank terminator h).rows 0 ≠ CREATE ∧ (blank terminator h).rows 0 ≠ DELETE := by
    intro terminator h
    rw [blank_zero]
    decide
  intro d hd
  rcases List.mem_append.mp hd with hd | hd
  · rw [List.eq_of_mem_replicate hd]
    exact hblank _
  · rw [List.mem_singleton.mp hd]
    exact hblank _

/-- **One message.** -/
theorem deliver_refines :
    Refines deliver (fun R m => runFrom Roster.session R (m.calls.map Delivery.rows)) rosterOf
      (fun _ => True) where
  inv _ _ _ _ _ := trivial
  step es m _ := by
    symm
    cases m with
    | create user IPAddr t i =>
      obtain ⟨h0, h1, h2, h3, h7⟩ := createFields_rows user IPAddr t
      have hidle : ∀ d ∈ [blank [] empty_ends, createDuration i], d.rows 0 ≠ CREATE ∧ d.rows 0 ≠ DELETE := by
        intro d hd
        rcases List.mem_cons.mp hd with rfl | hd
        · rw [blank_zero]
          decide
        · rw [List.mem_singleton.mp hd, createDuration_zero]
          exact decimal_idle i
      have hentry : (if es = [] then firstEntry (createFields user IPAddr t).rows
          else appendEntry (createFields user IPAddr t).rows) =
          ⟨user.str, if es = [] then t.shown else IPAddr.str, t.shown, 0⟩ := by
        unfold firstEntry appendEntry
        rw [h1, h2, h3, h7]
        split <;> rfl
      rw [ClientMessage.calls, List.map_cons, runFrom_cons, session_create h0, ok_seq, run_idle hidle, hentry]
      rfl
    | delete user =>
      obtain ⟨h0, h1⟩ := commandFields_rows deleteCommand user
      rw [ClientMessage.calls, commandCalls, List.map_cons, runFrom_cons, session_delete h0, h1, deliver]
      split
      · rfl
      · rw [ok_seq, run_idle commandCalls_idle]
        rfl
    | display user =>
      refine run_idle fun d hd => ?_
      rcases List.mem_cons.mp hd with rfl | hd
      · rw [(commandFields_rows displayCommand user).1]
        decide
      · exact commandCalls_idle d hd
    | hello =>
      refine run_idle fun d hd => ?_
      rw [List.mem_singleton.mp hd, blank_zero]
      decide

end

/-- The connections of the messages. -/
def connections (ms : List ClientMessage) : List AcceptResult := ms.flatMap fun m => m.payloads.map arrival

section
variable {M : Malloc Addr} {s : Store} {es : List Entry} {ms : List ClientMessage}

theorem connections_eq (ms : List ClientMessage) :
    connections ms = (ms.flatMap ClientMessage.calls).flatMap Delivery.conns := by
  rw [List.flatMap_assoc]
  exact List.flatMap_congr fun m _ => m.calls_conns.symm

/-- What the sessions of the messages do to the roster. -/
theorem run_messages (hs : s.Settled) (ms : List ClientMessage) :
    (runFrom (session M) s ((ms.flatMap ClientMessage.calls).map Delivery.rows)).map Store.roster =
      (runFrom deliver s.entries ms).map rosterOf := by
  rw [session_refines.run hs.wf, hs.roster_eq, deliver_refines.run trivial, List.map_flatMap,
    runFrom_flatMap]

theorem rosterOf_getD (es : List Entry) : (rosterOf es).getD [] = es := by
  unfold rosterOf
  split
  · next h => exact h.symm
  · rfl

/-- Messages the server gets through. -/
theorem Machine.run_connections (hs : s.Settled) (h : runFrom deliver s.entries ms = .ok es) :
    ∃ sv, (Machine.start (Server.start s) []).run M (connections ms) =
        Machine.start sv ((ms.flatMap ClientMessage.calls).map Delivery.served) ∧
      sv.store.entries = es := by
  have hrun := run_messages (M := M) hs ms
  rw [h] at hrun
  cases ht : runFrom (session M) s ((ms.flatMap ClientMessage.calls).map Delivery.rows) with
  | error f => rw [ht] at hrun; cases hrun
  | ok t =>
    rw [ht] at hrun
    obtain ⟨sv, hsv, rfl⟩ := (Machine.run_deliveries (M := M) (Server.start s) [] _).1 t ht
    refine ⟨sv, (connections_eq ms).symm ▸ hsv, ?_⟩
    have hroster : sv.store.roster = rosterOf es := Except.ok.inj hrun
    rw [← Store.entries_roster, hroster, rosterOf_getD]

end

/-- **The messages of the client.** Whatever messages `client.py` sends, in whatever order, with users and
addresses that fit a row: the server stops where a deletion empties the list, and else does what `deliver`
says, its calls all over. -/
theorem messages_refine (M : Malloc Addr) (s : Store) (ms : List ClientMessage) (hs : s.Settled) :
    (∀ es, runFrom deliver s.entries ms = .ok es →
      ∃ sv, (Machine.start (Server.start s) []).run M (connections ms) =
          Machine.start sv ((ms.flatMap ClientMessage.calls).map Delivery.served) ∧
        sv.store.entries = es) ∧
      ∀ f, runFrom deliver s.entries ms = .error f →
        ((Machine.start (Server.start s) []).run M (connections ms)).fault = some f := by
  refine ⟨fun es => Machine.run_connections hs, fun f hf => ?_⟩
  have hrun := run_messages (M := M) hs ms
  rw [hf] at hrun
  cases ht : runFrom (session M) s ((ms.flatMap ClientMessage.calls).map Delivery.rows) with
  | ok t => rw [ht] at hrun; cases hrun
  | error f' =>
    rw [ht] at hrun
    cases hrun
    rw [connections_eq]
    exact (Machine.run_deliveries (M := M) (Server.start s) [] _).2 _ ht

theorem messages_refine_last :
    ((Machine.start (Server.start Store.init) []).run Malloc.next
      (connections [.create alice ⟨lit "10.0.0.1", by decide, by decide⟩
        ⟨lit "01/05/2023 10:00:00", by decide⟩ 0, .delete alice])).fault =
        some .nullDeref :=
  (messages_refine Malloc.next Store.init _ Store.settled_init).2 _ rfl

/-! ## The script -/

/-- The machine the script runs on, and the time. With a longer name the users, which have a digit behind it,
run into the row of the address. -/
structure Host where
  hostname : CStr
  IPAddr : RowText
  dt_string : Stamp
  short : hostname.bytes.length ≤ 14

theorem decimal_digit (i : Fin 10) : ∃ b, decimal i = [b] ∧ b ≠ 0 ∧ b ≠ 69 := by
  refine ⟨UInt8.ofNat (48 + i), ?_⟩
  revert i
  decide

section
variable (h : Host)

/-- `hostname + str(i)`. -/
def Host.user (i : Fin 10) : RowText where
  str := ⟨h.hostname.bytes ++ decimal i, fun h0 =>
    (List.mem_append.mp h0).elim h.hostname.nulFree (short_decimal i).1.2.1⟩
  nonempty he := List.append_ne_nil_of_right_ne_nil _ (short_decimal i).1.1 (congrArg CStr.bytes he)
  fits := by
    obtain ⟨b, hb, -⟩ := decimal_digit i
    have hshort := h.short
    rw [List.length_append, hb, List.length_singleton]
    omega

/-- The messages of `client.py`. -/
def Host.script : List ClientMessage :=
  ((List.finRange 10).map fun i => .create (h.user i) h.IPAddr h.dt_string i) ++
    [.hello, .display (h.user 0), .delete (h.user 0), .delete (h.user 1), .delete (h.user 2),
      .display (h.user 0)]

/-- A user of the script is not named as the command. -/
theorem Host.user_ne (i : Fin 10) : (h.user i).str ≠ CREATE := by
  intro he
  obtain ⟨b, hb, -, hne⟩ := decimal_digit i
  have hlast := congrArg (fun s : CStr => s.bytes.getLast?) he
  simp only [Host.user, hb, List.getLast?_concat] at hlast
  exact hne (Option.some.inj (hlast.trans (show CREATE.bytes.getLast? = some 69 by decide)))

variable {es : List Entry}

/-- Creates are all taken. -/
theorem Host.deliver_creates (is : List (Fin 10)) (hnew : CREATE ∉ es.map Entry.user) :
    ∃ es', runFrom deliver es (is.map fun i => .create (h.user i) h.IPAddr h.dt_string i) = .ok es' ∧
      es'.map Entry.user = es.map Entry.user ++ is.map fun i => (h.user i).str := by
  induction is generalizing es with
  | nil => exact ⟨es, rfl, (List.append_nil _).symm⟩
  | cons i is ih =>
    rw [List.map_cons, runFrom_cons, deliver, if_neg hnew, ok_seq]
    have hnext : ∀ e : Entry, e.user = (h.user i).str → CREATE ∉ (es ++ [e]).map Entry.user := by
      intro e hi
      rw [List.map_append, List.mem_append, List.map_singleton, List.mem_singleton]
      exact fun hm => hm.elim hnew fun he => h.user_ne i (hi.symm.trans he.symm)
    obtain ⟨es', hrun, husers⟩ := ih (hnext ⟨_, _, _, 0⟩ rfl)
    exact ⟨es', hrun, by rw [husers, List.map_append, List.append_assoc]; rfl⟩

/-- A deletion from a longer list. -/
theorem deliver_delete (es : List Entry) (user : RowText) (hlen : 2 ≤ es.length) :
    ∃ es', deliver es (.delete user) = .ok es' ∧
      es'.map Entry.user = (es.map Entry.user).erase user.str ∧ es.length ≤ es'.length + 1 := by
  have husers : (Fcfs.cancel Entry.user es user.str).map Entry.user = (es.map Entry.user).erase user.str :=
    Fcfs.map_cancel
  have hle : es.length ≤ (Fcfs.cancel Entry.user es user.str).length + 1 := by
    rw [← List.length_map (f := Entry.user), ← List.length_map (f := Entry.user), husers,
      List.length_erase]
    split <;> omega
  refine ⟨_, if_neg fun hc => ?_, husers, hle⟩
  rw [hc.2, List.length_nil] at hle
  omega

end

/-- **The script.** From any store between sessions without a user named "CREATE", the script of a host with
a short name is served in 66 calls and leaves its users behind those that were there, without the first of
each it deletes. -/
theorem script_users (M : Malloc Addr) (s : Store) (h : Host) (hs : s.Settled) (hnew : CREATE ∉ s.users) :
    ∃ sv served, (Machine.start (Server.start s) []).run M (connections h.script) = Machine.start sv served ∧
      served.length = 66 ∧
      sv.store.users = (((s.users ++ (List.finRange 10).map fun i => (h.user i).str).erase
        (h.user 0).str).erase (h.user 1).str).erase (h.user 2).str := by
  rw [← Store.map_user_entries] at hnew
  obtain ⟨es, hrun, husers⟩ := h.deliver_creates (List.finRange 10) hnew
  have hlen : 10 ≤ es.length := by
    rw [← List.length_map (f := Entry.user), husers, List.length_append, List.length_map]
    exact Nat.le_add_left _ _
  obtain ⟨es₁, hdel₁, husers₁, hlen₁⟩ := deliver_delete es (h.user 0) (by omega)
  obtain ⟨es₂, hdel₂, husers₂, hlen₂⟩ := deliver_delete es₁ (h.user 1) (by omega)
  obtain ⟨es₃, hdel₃, husers₃, -⟩ := deliver_delete es₂ (h.user 2) (by omega)
  have hscript : runFrom deliver s.entries h.script = .ok es₃ := by
    have hlast : runFrom deliver es₃ [.display (h.user 0)] = .ok es₃ := rfl
    have hdeletes := runFrom_cons_ok.mpr ⟨es₁, hdel₁, runFrom_cons_ok.mpr ⟨es₂, hdel₂,
      runFrom_cons_ok.mpr ⟨es₃, hdel₃, hlast⟩⟩⟩
    exact runFrom_append_ok.mpr ⟨es, hrun, runFrom_cons_ok.mpr ⟨es, rfl,
      runFrom_cons_ok.mpr ⟨es, rfl, hdeletes⟩⟩⟩
  obtain ⟨sv, hsv, hentries⟩ := Machine.run_connections (M := M) hs hscript
  refine ⟨sv, _, hsv, ?_, ?_⟩
  · rw [List.length_map]
    rfl
  · rw [← Store.map_user_entries, hentries, husers₃, husers₂, husers₁, husers, Store.map_user_entries]

def ubuntu : Host where
  hostname := lit "ubuntu"
  IPAddr := ⟨lit "127.0.1.1", by decide, by decide⟩
  dt_string := ⟨lit "01/05/2023 10:00:00", by decide⟩
  short := by decide

theorem script_users_ubuntu :
    ∃ sv served, (Machine.start (Server.start Store.init) []).run Malloc.next (connections ubuntu.script) =
        Machine.start sv served ∧ served.length = 66 ∧
      sv.store.users = [3, 4, 5, 6, 7, 8, 9].map fun i => (ubuntu.user i).str := by
  obtain ⟨sv, served, hrun, hlen, husers⟩ :=
    script_users Malloc.next Store.init ubuntu Store.settled_init List.not_mem_nil
  exact ⟨sv, served, hrun, hlen, husers.trans (by decide)⟩

end CryptoLocker
