import CryptoLocker.Client.Request
import CryptoLocker.Lib.Interleave

/-!
# Requests of many clients

A run executes the requests of several clients as if they came one after
another exactly when the accepted strings read as whole requests in some order
that keeps each client's own (`requests_serial_iff`): the server has nothing
but the accept order to tell clients apart.
-/

namespace CryptoLocker

open Lib

/-- The string ends a request. -/
def isEnd (s : CStr) : Bool := s = CStr.empty

/-- The strings of the requests, each with the empty one behind. -/
def blocks {ι : Type*} (order : List (ι × Request)) : List (List CStr) :=
  order.map fun e => e.2.strings ++ [CStr.empty]

/-- The rows of the requests, in order. -/
def orderRows {ι : Type*} (order : List (ι × Request)) : List EntryData := order.map (·.2.rows)

/-- The run `m` applied the requests in this order, each once and with its own
rows, and ended with the list they make. -/
structure SerialAs {ι : Type*} (M : Malloc Addr) (m : Machine) (order : List (ι × Request)) : Prop where
  alive : m.fault = none
  applied : applied m.served = orderRows order
  store : runFrom (session M) Store.init (orderRows order) = .ok m.server.store

/-- The strings accepted are those of whole requests in this order, the requests
fit the buffer and none deletes the last reservation. -/
structure Whole {ι : Type*} (M : Malloc Addr) (stream : List AcceptResult) (order : List (ι × Request)) :
    Prop where
  strings : stream.map AcceptResult.row = (blocks order).flatten
  fits : ∀ e ∈ order, e.2.Fits
  safe : Along (session M) (fun s rows => ¬ DeletesLast s rows) Store.init (orderRows order)

section
variable {ι : Type*} {M : Malloc Addr} {order : List (ι × Request)} {stream : List AcceptResult}

theorem strings_open {l : List CStr} (h : ∀ s ∈ l, s ≠ CStr.empty) : Open isEnd l := fun s hs =>
  decide_eq_false (h s hs)

theorem blocks_closed : ∀ seg ∈ blocks order, Closed isEnd seg := by
  intro seg hseg
  obtain ⟨e, -, rfl⟩ := List.mem_map.mp hseg
  exact (strings_open e.2.strings_ne_empty).closed rfl

theorem blocks_dropLast : (blocks order).map List.dropLast = order.map (·.2.strings) := by
  unfold blocks
  rw [List.map_map]
  exact List.map_congr_left fun e _ => List.dropLast_concat

theorem splitOnP_row : (stream.map AcceptResult.row).splitOnP isEnd =
    (stream.splitOnP AcceptResult.ends).map (List.map AcceptResult.row) :=
  splitOnP_map (fun _ => rfl) stream

/-- A stream of whole requests is cut into their strings. -/
theorem Whole.cut (h : Whole M stream order) :
    (stream.splitOnP AcceptResult.ends).map (List.map AcceptResult.row) =
      order.map (·.2.strings) ++ [[]] := by
  rw [← splitOnP_row, h.strings, ← List.append_nil (blocks order).flatten,
    splitOnP_segments blocks_closed open_nil, blocks_dropLast]

theorem Whole.rows (h : Whole M stream order) :
    (stream.splitOnP AcceptResult.ends).dropLast.map rowsOfConns = orderRows order := by
  have hcut := congrArg (fun l => l.dropLast.map rowsOf) h.cut
  rw [List.dropLast_concat, ← List.map_dropLast, List.map_map, List.map_map] at hcut
  exact hcut

theorem Whole.short (h : Whole M stream order) :
    ∀ seg ∈ stream.splitOnP AcceptResult.ends, seg.length < bufRows := by
  intro seg hseg
  have hm : seg.map AcceptResult.row ∈ order.map (·.2.strings) ++ [[]] := by
    rw [← h.cut]
    exact List.mem_map_of_mem hseg
  rw [← List.length_map (f := AcceptResult.row)]
  rcases List.mem_append.mp hm with hm | hm
  · obtain ⟨e, he, heq⟩ := List.mem_map.mp hm
    rw [← heq]
    exact h.fits e he
  · rw [List.mem_singleton.mp hm]
    decide

/-- Creates and deletes are what the calls apply. -/
theorem applied_eq {served : List Served} (h : ∀ rows ∈ served.map Served.rows, Changes rows) :
    applied served = served.map Served.rows :=
  List.filter_eq_self.mpr fun rows hr => decide_eq_true (h rows hr)

/-- Whole requests are executed in their order. -/
theorem Whole.serial (h : Whole M stream order) (hfit : ∀ a ∈ stream, a.Fits)
    (hcmd : ∀ e ∈ order, Changes e.2.rows) : SerialAs M (Machine.init.run M stream) order := by
  have hrun := run_init_forget M hfit
  have halive : ((RowMachine.start Store.init []).run M stream).fault = none := by
    rw [RowMachine.alive_iff h.short, h.rows]
    exact (sessions_complete_iff Store.settled_init).mpr h.safe
  have hc := RowMachine.covers_run halive
  rw [← hrun] at hc halive
  have hrows : (Machine.init.run M stream).served.map Served.rows = orderRows order :=
    hc.rows.trans h.rows
  refine ⟨halive, (applied_eq fun rows hr => ?_).trans hrows, hrows ▸ hc.store⟩
  rw [hrows] at hr
  obtain ⟨e, he, rfl⟩ := List.mem_map.mp hr
  exact hcmd e he

theorem map_rowsOf_inj {ls ls' : List (List CStr)} (hl : ∀ l ∈ ls, ∀ s ∈ l, s ≠ CStr.empty)
    (hl' : ∀ l ∈ ls', ∀ s ∈ l, s ≠ CStr.empty) (h : ls.map rowsOf = ls'.map rowsOf) : ls = ls' := by
  induction ls generalizing ls' with
  | nil => exact (List.map_eq_nil_iff.mp h.symm).symm
  | cons l ls ih =>
    obtain ⟨l', ls', rfl, he, hes⟩ := List.map_eq_cons_iff.mp h.symm
    rw [List.forall_mem_cons] at hl hl'
    rw [rowsOf_inj hl.1 hl'.1 he.symm, ih hl.2 hl'.2 hes.symm]

/-- Where as many requests are applied as sessions end, each session applied one. -/
theorem SerialAs.rows {m : Machine} (h : SerialAs M m order) (hcount : m.served.length = order.length) :
    m.served.map Served.rows = orderRows order := by
  rw [← h.applied]
  refine (List.filter_sublist.eq_of_length ?_).symm
  have hlen := congrArg List.length h.applied
  rw [orderRows, List.length_map, ← hcount] at hlen
  rw [List.length_map]
  exact hlen

/-- As many sessions end as there are requests in the stream. -/
theorem served_length_of_perm {m : Machine} (hc : m.forget.Covers M Store.init stream)
    (hperm : (stream.map AcceptResult.row).Perm (blocks order).flatten) :
    m.served.length = order.length := by
  have hends : stream.countP AcceptResult.ends = (stream.map AcceptResult.row).countP isEnd := by
    rw [List.countP_map]
    rfl
  have hclosed : ∀ seg ∈ blocks order, Closed isEnd seg := blocks_closed
  have hblocks := countP_segments hclosed open_nil
  rw [List.append_nil, ← hperm.countP_eq, ← hends, hc.countP, blocks, List.length_map] at hblocks
  exact hblocks

/-- Rows without an empty string in front of their end tell the strings. -/
theorem SerialAs.strings {m : Machine} (h : SerialAs M m order)
    (hc : m.forget.Covers M Store.init stream) (hcount : m.served.length = order.length) :
    m.served.map Served.strings = order.map (·.2.strings) := by
  refine map_rowsOf_inj (fun l hl => ?_) (fun l hl => ?_) ?_
  · obtain ⟨call, hcall, rfl⟩ := List.mem_map.mp hl
    exact hc.strings_ne_empty hcall
  · obtain ⟨e, -, rfl⟩ := List.mem_map.mp hl
    exact e.2.strings_ne_empty
  · rw [List.map_map, List.map_map]
    exact (List.map_congr_left fun call hcall => (hc.call_rows hcall).symm).trans (h.rows hcount)

/-- A run that executes the requests in some order received them whole in that order. -/
theorem SerialAs.whole (h : SerialAs M (Machine.init.run M stream) order) (hfit : ∀ a ∈ stream, a.Fits)
    (hconn : .error ∉ stream) (hperm : (stream.map AcceptResult.row).Perm (blocks order).flatten) :
    Whole M stream order := by
  have hrun := run_init_forget M hfit
  have hc : (Machine.init.run M stream).forget.Covers M Store.init stream :=
    hrun ▸ RowMachine.covers_run (hrun ▸ h.alive)
  generalize Machine.init.run M stream = m at h hc
  have hstrings : m.served.map Served.strings = order.map (·.2.strings) :=
    h.strings hc (served_length_of_perm hc hperm)
  have hmap : stream.map AcceptResult.row = (blocks order).flatten ++ m.conns.map AcceptResult.row := by
    have hblocks := congrArg (List.map (· ++ [CStr.empty])) hstrings
    rw [List.map_map, List.map_map] at hblocks
    exact hc.map_row.trans (congrArg (fun l => l.flatten ++ m.conns.map AcceptResult.row) hblocks)
  refine ⟨?_, fun e he => ?_, (sessions_complete_iff Store.settled_init).mp ⟨_, h.store⟩⟩
  · -- nothing is left over, for the two streams have one length
    have hlen := hperm.length_eq
    rw [hmap, List.length_append] at hlen
    rw [hmap, List.eq_nil_of_length_eq_zero (by omega : (m.conns.map AcceptResult.row).length = 0),
      List.append_nil]
  · obtain ⟨call, hcall, heq⟩ : ∃ call ∈ m.served, call.strings = e.2.strings :=
      List.mem_map.mp (hstrings ▸ List.mem_map_of_mem he)
    have hshort := hc.short call hcall fun herr => hconn (by
      rw [← hc.conns]
      exact List.mem_append_left _ (List.mem_flatten.mpr ⟨_, List.mem_map_of_mem hcall, herr⟩))
    obtain ⟨body, t, hbody, -⟩ := hc.closed call hcall
    rw [Served.strings, hbody, List.dropLast_concat] at heq
    rw [hbody, List.length_append, List.length_singleton] at hshort
    show e.2.strings.length < bufRows
    rw [← heq, List.length_map]
    exact hshort

/-- The connections of clients are requests' connections. -/
theorem mem_clients {clients : ι → List Request} [DecidableEq ι] {evs : List (ι × AcceptResult)}
    (h : Interleaves (fun c => (clients c).flatMap Request.conns) evs) {a : AcceptResult}
    (ha : a ∈ evs.map Prod.snd) : ∃ r : Request, a ∈ r.conns := by
  obtain ⟨⟨c, a⟩, he, rfl⟩ := List.mem_map.mp ha
  obtain ⟨r, -, hr⟩ := List.mem_flatMap.mp (h.mem he)
  exact ⟨r, hr⟩

/-- Whatever the order of the connections, their strings are those of the requests. -/
theorem perm_blocks [DecidableEq ι] {clients : ι → List Request} {evs : List (ι × AcceptResult)}
    (h : Interleaves (fun c => (clients c).flatMap Request.conns) evs)
    (ho : Interleaves clients order) :
    ((evs.map Prod.snd).map AcceptResult.row).Perm (blocks order).flatten := by
  have hperm := ((h.perm (ho.expand Request.conns)).map Prod.snd).map AcceptResult.row
  rw [map_snd_expand, List.map_flatMap, List.flatMap_map] at hperm
  simpa only [Request.conns_row, blocks, ← List.flatMap_def] using hperm

/-- **Serial requests.** However the connections of the clients interleave, their
requests are executed as if one after another exactly when the accepts are whole
requests one after another, and no request deletes the last reservation. -/
theorem requests_serial_iff [DecidableEq ι] (M : Malloc Addr) (clients : ι → List Request)
    (hcmd : ∀ c, ∀ r ∈ clients c, Changes r.rows) (evs : List (ι × AcceptResult))
    (h : Interleaves (fun c => (clients c).flatMap Request.conns) evs) :
    (∃ order, Interleaves clients order ∧ SerialAs M (Machine.init.run M (evs.map Prod.snd)) order) ↔
      ∃ order, Interleaves clients order ∧ Whole M (evs.map Prod.snd) order := by
  have hfit : ∀ a ∈ evs.map Prod.snd, a.Fits := by
    intro a ha
    obtain ⟨r, hr⟩ := mem_clients h ha
    exact r.conns_fits a hr
  have hconn : .error ∉ evs.map Prod.snd := by
    intro ha
    obtain ⟨r, hr⟩ := mem_clients h ha
    exact r.conns_conn hr
  refine exists_congr fun order => and_congr_right fun ho => ⟨fun hs => ?_, fun hw => ?_⟩
  · exact hs.whole hfit hconn (perm_blocks h ho)
  · exact hw.serial hfit fun e he => hcmd e.1 e.2 (ho.mem he)

/-- Two clients with one reservation each. -/
def twoClients : Bool → List Request
  | true => [createFor alice]
  | false => [createFor bob]

theorem requests_serial_one_by_one :
    ∃ order, Interleaves twoClients order ∧ SerialAs Malloc.next
      (Machine.init.run Malloc.next ((createFor bob).conns ++ (createFor alice).conns)) order := by
  have hevs : Interleaves (fun c => (twoClients c).flatMap Request.conns)
      ((createFor bob).conns.map (false, ·) ++ (createFor alice).conns.map (true, ·)) := fun c => by
    cases c <;> rfl
  refine (requests_serial_iff Malloc.next twoClients (by decide) _ hevs).mpr
    ⟨[(false, createFor bob), (true, createFor alice)], fun c => by cases c <;> rfl, by decide,
      by decide, ?_⟩
  have hcreate : ∀ s user, ¬ DeletesLast s (createFor user).rows := fun s user h =>
    absurd (show CREATE = DELETE from h.1) (by decide)
  exact ⟨hcreate _ bob, fun s _ => ⟨hcreate s alice, fun _ _ => trivial⟩⟩

/-- The connections of the two clients in turn. -/
def inTurn : List (Bool × AcceptResult) :=
  [(true, arrival CREATE.bytes), (false, arrival CREATE.bytes), (true, arrival alice.str.bytes),
    (false, arrival bob.str.bytes), (true, arrival [0]), (false, arrival [0])]

/-- In turn the two requests become one, with "CREATE" for its user. -/
theorem requests_serial_fails :
    Interleaves (fun c => (twoClients c).flatMap Request.conns) inTurn ∧
      ¬ ∃ order, Interleaves twoClients order ∧
        SerialAs Malloc.next (Machine.init.run Malloc.next (inTurn.map Prod.snd)) order := by
  refine ⟨fun c => by cases c <;> rfl, ?_⟩
  rintro ⟨order, ho, hs⟩
  have hserved : (applied (Machine.init.run Malloc.next (inTurn.map Prod.snd)).served).map (· 1) =
      [CREATE] :=
    congrArg (fun m => (applied m.served).map (· 1))
      (run_init_forget Malloc.next (show ∀ a ∈ inTurn.map Prod.snd, a.Fits by decide))
  have hm : CREATE ∈ (orderRows order).map (· 1) := by
    rw [← hs.applied, hserved]
    exact List.mem_singleton_self _
  obtain ⟨rows, hrows, h1⟩ := List.mem_map.mp hm
  obtain ⟨⟨c, r⟩, he, rfl⟩ := List.mem_map.mp hrows
  have hr := ho.mem he
  cases c with
  | true =>
    obtain rfl := List.mem_singleton.mp hr
    exact absurd h1 (by decide)
  | false =>
    obtain rfl := List.mem_singleton.mp hr
    exact absurd h1 (by decide)

end

end CryptoLocker
