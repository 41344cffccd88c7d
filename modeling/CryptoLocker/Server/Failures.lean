import CryptoLocker.Server.Calls

/-!
# Sessions cut short

A failed accept leaves the loop, and so does a failed read into an empty row; both
lead to the same dispatch as the end of a request. What has been received by
then is executed unless its first payload is no command (`cut_short_iff`).
-/

namespace CryptoLocker

open Lib

/-- The call on `body` and `a` leaves the loop at `a`, an accept or a read that failed. -/
structure CutShort (M : Malloc Addr) (sv : Server) (body : List AcceptResult) (a : AcceptResult) :
    Prop where
  failed : a = .error ∨ a = .conn .error
  left : ∃ m sv₁ buf fd, InCall M sv body m ∧ m.Leaves sv₁ buf fd a

/-- The session on `conns` executes no CREATE and no DELETE and, if it completes,
has left the list as it was. -/
structure Untouched (M : Malloc Addr) (sv : Server) (conns : List AcceptResult) : Prop where
  commands : ∀ call ∈ ((Machine.start sv []).run M conns).served,
    call.rows 0 ≠ CREATE ∧ call.rows 0 ≠ DELETE
  list : ((Machine.start sv []).run M conns).fault = none →
    ((Machine.start sv []).run M conns).server.store.nodes = sv.store.nodes

section
variable {M : Malloc Addr} {s s' : Store} {rows : EntryData}

theorem update_nodes (h : updateReservation s = .ok s') : s'.nodes = s.nodes := by
  unfold updateReservation at h
  split at h
  · cases h
    rfl
  · next r hr =>
    obtain ⟨head, -, h⟩ := seq_ok.mp h
    have hnodes : ∀ r' : LockerReservations, r'.head = r.head →
        ({ s with reservations := some r' } : Store).nodes = s.nodes := by
      intro r' hhead
      simp only [Store.nodes, hr, hhead]
    dsimp only at h
    split at h
    · cases h
      exact hnodes _ rfl
    · cases h
      exact hnodes _ rfl

/-- Rows without a command leave the list as it is. -/
theorem session_nodes (hcreate : rows 0 ≠ CREATE) (hdelete : rows 0 ≠ DELETE)
    (h : session M s rows = .ok s') : s'.nodes = s.nodes := by
  obtain ⟨p, t, hd, hu⟩ := session_ok.mp h
  have ht : t = s := by
    unfold dispatch at hd
    simp only [strcmp_eq_zero] at hd
    rw [if_neg hcreate, if_neg hdelete] at hd
    split at hd
    · obtain ⟨us, -, hd⟩ := seq_ok.mp hd
      cases hd
      rfl
    · cases hd
      rfl
  exact ht ▸ update_nodes hu

variable {sv sv₁ : Server} {m : Machine} {buf : Buffer} {fd : Option Fd} {served : List Served}
  {body conns : List AcceptResult} {a : AcceptResult}

/-- The end of a call without a command. -/
theorem endCall_nodes (hcreate : buf.row 0 ≠ CREATE) (hdelete : buf.row 0 ≠ DELETE)
    (halive : (Machine.endCall M served sv buf conns fd).fault = none) :
    (Machine.endCall M served sv buf conns fd).server.store.nodes = sv.store.nodes := by
  unfold Machine.endCall at halive ⊢
  cases hfin : finishBuffer M sv buf fd with
  | error f =>
    rw [hfin] at halive
    cases halive
  | ok sv' =>
    unfold finishBuffer at hfin
    split at hfin
    · exact session_nodes hcreate hdelete (finish_ok hfin).1
    · cases hfin

/-- Behind an accept that brought nothing, row 0 holds what the first payload brought. -/
theorem InCall.row_zero_iff (h : InCall M sv body m) (hl : m.Leaves sv₁ buf fd a)
    (ha : a.row = CStr.empty) {c : CStr} (hc : c.bytes.length < rowSize) (hne : c ≠ CStr.empty) :
    buf.row 0 = c ↔ ∃ b rest, body = b :: rest ∧ b.row = c := by
  cases body with
  | nil =>
    rw [h.row_zero hl rfl hc, ha]
    exact iff_of_false hne.symm nofun
  | cons b rest =>
    rw [h.row_zero hl rfl hc]
    constructor
    · exact fun hb => ⟨b, rest, rfl, hb⟩
    · rintro ⟨_, _, ⟨⟩, hb⟩
      exact hb

end

/-- **Sessions cut short.** A session that leaves the loop because an accept or a
read failed changes nothing exactly when its first payload is no command. -/
theorem cut_short_iff (M : Malloc Addr) (sv : Server) (body : List AcceptResult) (a : AcceptResult)
    (h : CutShort M sv body a) :
    Untouched M sv (body ++ [a]) ↔ ∀ b rest, body = b :: rest → b.row ≠ CREATE ∧ b.row ≠ DELETE := by
  obtain ⟨hfailed, m, sv₁, buf, fd, hin, hleaves⟩ := h
  have hempty : a.row = CStr.empty := by rcases hfailed with rfl | rfl <;> rfl
  have hrow : ∀ {c : CStr}, c.bytes.length < rowSize → c ≠ CStr.empty →
      (buf.row 0 = c ↔ ∃ b rest, body = b :: rest ∧ b.row = c) := hin.row_zero_iff hleaves hempty
  have hrun := hin.ends hleaves
  have hserved : ((Machine.start sv []).run M (body ++ [a])).served = [⟨body ++ [a], buf.row⟩] := by
    rw [hrun, Machine.endCall_served]
    rfl
  constructor
  · rintro ⟨hcommands, -⟩ b rest hb
    obtain ⟨hcreate, hdelete⟩ := hcommands _ (hserved ▸ List.mem_singleton_self _)
    exact ⟨fun he => hcreate ((hrow (by decide) (by decide)).mpr ⟨b, rest, hb, he⟩),
      fun he => hdelete ((hrow (by decide) (by decide)).mpr ⟨b, rest, hb, he⟩)⟩
  · intro hfirst
    have hcreate : buf.row 0 ≠ CREATE := fun he => by
      obtain ⟨b, rest, hb, he⟩ := (hrow (by decide) (by decide)).mp he
      exact (hfirst b rest hb).1 he
    have hdelete : buf.row 0 ≠ DELETE := fun he => by
      obtain ⟨b, rest, hb, he⟩ := (hrow (by decide) (by decide)).mp he
      exact (hfirst b rest hb).2 he
    refine ⟨fun call hcall => ?_, fun halive => ?_⟩
    · rw [hserved] at hcall
      rw [List.mem_singleton.mp hcall]
      exact ⟨hcreate, hdelete⟩
    · rw [hrun] at halive ⊢
      rw [endCall_nodes hcreate hdelete halive, hleaves.store, hin.spec.store]

theorem cut_short_display :
    Untouched Malloc.next (Server.start Store.init) ([arrival DISPLAY.bytes] ++ [.conn .error]) := by
  have hin : InCall Malloc.next (Server.start Store.init) [arrival DISPLAY.bytes] _ := ⟨rfl, rfl, rfl⟩
  refine (cut_short_iff Malloc.next _ [arrival DISPLAY.bytes] (.conn .error)
    ⟨.inr rfl, _, _, _, _, hin, rfl, rfl⟩).mpr fun b rest hb => ?_
  cases hb
  decide

/-- The accept fails behind the second row of a create, and the reservation is made. -/
theorem cut_short_fails :
    CutShort Malloc.next (Server.start Store.init) [arrival CREATE.bytes, arrival (lit "alice").bytes]
        .error ∧
      ∃ m, m = (Machine.start (Server.start Store.init) []).run Malloc.next
          ([arrival CREATE.bytes, arrival (lit "alice").bytes] ++ [.error]) ∧
        m.fault = none ∧ m.server.store.users = [lit "alice"] ∧
        ¬ Untouched Malloc.next (Server.start Store.init)
          ([arrival CREATE.bytes, arrival (lit "alice").bytes] ++ [.error]) := by
  have hin : InCall Malloc.next (Server.start Store.init)
      [arrival CREATE.bytes, arrival (lit "alice").bytes] _ := ⟨rfl, rfl, rfl⟩
  refine ⟨⟨.inl rfl, _, _, _, _, hin, rfl, rfl, rfl⟩, _, rfl, rfl, rfl, fun h => ?_⟩
  cases h.list rfl

end CryptoLocker
