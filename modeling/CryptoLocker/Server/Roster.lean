import CryptoLocker.Server.Finality
import CryptoLocker.Server.Operations

/-!
# The roster

What the list says, without addresses: `none` for NULL, else the entries from
the head. The dispatch and the session have a reading on rosters alone
(`Roster.dispatch`, `Roster.session`), which on well-formed stores the faithful
ones refine (`dispatched_refines`, `session_refines`).
-/

namespace CryptoLocker

open Lib

abbrev Roster := Option (List Entry)

namespace Roster

def users (R : Roster) : List CStr := (R.getD []).map Entry.user

/-- A CREATE: the first entry, a refusal for a user named as row 0, or an entry behind the last. -/
def create (entryData : EntryData) : Roster → Except Fault Roster
  | none => .ok (some [firstEntry entryData])
  | some es =>
    if entryData 0 ∈ es.map Entry.user then .ok (some es)
    else if es = [] then .error .nullDeref
    else .ok (some (es ++ [appendEntry entryData]))

def delete (user : CStr) (R : Roster) : Roster := R.map fun es => Fcfs.cancel Entry.user es user

def dispatch (R : Roster) (buffer : EntryData) : Except Fault Roster :=
  if buffer 0 = CREATE then R.create buffer
  else if buffer 0 = DELETE then .ok (R.delete (buffer 1))
  else .ok R

/-- The refresh fails on an emptied list. -/
def update (R : Roster) : Except Fault Roster := if R = some [] then .error .nullDeref else .ok R

def session (R : Roster) (buffer : EntryData) : Except Fault Roster := R.dispatch buffer >>= update

end Roster

/-! ## Reading a store -/

def Store.entries (s : Store) : List Entry := s.queue.map Prod.snd

def Store.roster (s : Store) : Roster := s.reservations.map fun _ => s.entries

section
variable {M : Malloc Addr} {s s' : Store} {entryData : EntryData} {p : Ptr}

theorem Store.roster_null (hr : s.reservations = none) : s.roster = none := by
  rw [Store.roster, hr]
  rfl

theorem Store.roster_some (hsome : s.reservations.isSome) : s.roster = some s.entries := by
  obtain ⟨r, hr⟩ := Option.isSome_iff_exists.mp hsome
  rw [Store.roster, hr]
  rfl

theorem Store.map_user_entries (s : Store) : s.entries.map Entry.user = s.users := by
  rw [Store.entries, List.map_map, ← Store.map_owner_queue]
  rfl

theorem Store.entries_eq_nil : s.entries = [] ↔ s.queue = [] := by
  rw [Store.entries, List.map_eq_nil_iff]

theorem Store.entries_roster (s : Store) : s.roster.getD [] = s.entries := by
  cases hr : s.reservations with
  | none => rw [Store.roster_null hr, Store.entries, Store.queue_null hr]; rfl
  | some r => rw [Store.roster_some (by rw [hr]; rfl)]; rfl

theorem Store.users_roster (s : Store) : s.roster.users = s.users := by
  rw [Roster.users, Store.entries_roster, Store.map_user_entries]

/-! ## Refinement -/

theorem create_roster (hwf : s.WF) :
    (createReservation M s entryData).map (fun x => x.2.roster) = s.roster.create entryData := by
  cases hr : s.reservations with
  | none =>
    obtain ⟨s', hs', -, hr', hq, -⟩ := create_first M entryData hr
    rw [hs', Store.roster_null hr]
    show Except.ok s'.roster = _
    rw [Store.roster_some (by rw [hr']; rfl), Store.entries, hq]
    rfl
  | some r =>
    rw [Store.roster_some (by rw [hr]; rfl), Roster.create, Store.map_user_entries]
    by_cases hf : entryData 0 ∈ s.users
    · rw [create_refused M entryData hr hwf hf, if_pos hf]
      exact congrArg _ (Store.roster_some (by rw [hr]; rfl))
    · rw [if_neg hf]
      by_cases hq : s.queue = []
      · rw [create_emptied M entryData hr hwf hq, if_pos (Store.entries_eq_nil.mpr hq)]
        rfl
      · obtain ⟨s', hs', -, hr', hq', -⟩ := create_append M entryData hr hwf hq hf
        rw [hs', if_neg fun h => hq (Store.entries_eq_nil.mp h)]
        show Except.ok s'.roster = _
        rw [Store.roster_some (by rw [hr']; rfl), Store.entries, hq', List.map_append]
        rfl

theorem delete_roster (hwf : s.WF) (user : CStr) :
    (deleteReservation s user).map (fun x => x.2.roster) = .ok (s.roster.delete user) := by
  obtain ⟨s', hs', -, hq, hsome, -⟩ := delete_spec hwf user
  rw [hs']
  show Except.ok s'.roster = _
  cases hr : s.reservations with
  | none =>
    rw [hr] at hsome
    rw [Store.roster_null hr, Store.roster_null (Option.isNone_iff_eq_none.mp (by simpa using hsome))]
    rfl
  | some r =>
    rw [hr] at hsome
    rw [Store.roster_some (s := s) (by rw [hr]; rfl), Store.roster_some hsome, Store.entries, hq]
    show Except.ok (some (List.map _ (List.eraseP _ _))) = Except.ok (some (List.eraseP _ (List.map _ _)))
    rw [List.eraseP_map]
    rfl

theorem update_roster (hwf : s.WF) : (updateReservation s).map Store.roster = s.roster.update := by
  cases hr : s.reservations with
  | none =>
    rw [update_null hr, Store.roster_null hr]
    exact congrArg _ (Store.roster_null hr)
  | some r =>
    rw [Store.roster_some (by rw [hr]; rfl)]
    cases hq : s.queue with
    | nil =>
      rw [update_emptied hr hwf hq, Store.entries_eq_nil.mpr hq]
      rfl
    | cons x q =>
      obtain ⟨s', hu⟩ := (update_completes_iff hwf).mpr fun _ h => by rw [hq] at h; cases h
      obtain ⟨-, hq', -, hsome, -⟩ := update_ok hwf hu
      have hne : s.entries ≠ [] := fun h => by
        rw [Store.entries_eq_nil, hq] at h
        cases h
      rw [hu, Roster.update, if_neg fun h => hne (Option.some.inj h)]
      show Except.ok s'.roster = _
      rw [Store.roster_some (by rw [hsome, hr]; rfl), Store.entries, hq']
      rfl

/-- **Dispatches on rosters.** -/
theorem dispatched_refines : Refines (dispatched M) Roster.dispatch Store.roster Store.WF where
  inv _ _ _ := dispatched_wf
  step s buffer hwf := by
    have hmap : (dispatched M s buffer).map Store.roster =
        (dispatch M s buffer).map fun x => x.2.roster := by
      unfold dispatched
      cases dispatch M s buffer <;> rfl
    rw [hmap]
    unfold dispatch Roster.dispatch
    simp only [strcmp_eq_zero]
    split
    · exact create_roster hwf
    · split
      · exact delete_roster hwf (buffer 1)
      · split
        · rw [print_spec hwf]
          rfl
        · rfl

/-- **Sessions on rosters.** -/
theorem session_refines : Refines (session M) Roster.session Store.roster Store.WF where
  inv _ _ _ := session_wf
  step s buffer hwf := by
    have hsession : session M s buffer = dispatched M s buffer >>= updateReservation := by
      unfold session dispatched
      cases dispatch M s buffer <;> rfl
    rw [hsession, Roster.session, ← dispatched_refines.step s buffer hwf]
    cases hd : dispatched M s buffer with
    | error f => rfl
    | ok t => exact update_roster (dispatched_wf hwf hd)

end

end CryptoLocker
