import CryptoLocker.Server.Queue

/-!
# What one step can do

The inversions of `create_reservation`, `delete_reservation`, the dispatch and
`update_reservation`: every way a call on a well-formed store can complete, as
a change of the queue. A session from a settled store (a list that exists is
not empty) completes unless it deletes the last reservation
(`session_completes_iff`).
-/

namespace CryptoLocker

open Lib

section
variable {M : Malloc Addr} {s s' : Store} {entryData : EntryData} {p : Ptr}

/-- A new reservation went to the end of the list. -/
structure Added (M : Malloc Addr) (s : Store) (entryData : EntryData) (s' : Store) : Prop where
  queue : ∃ e, e.user = entryData 1 ∧ s'.queue = s.queue ++ [(M.pick s.heap.allocated, e)]
  allocated : s'.heap.allocated = s.heap.allocated ++ [M.pick s.heap.allocated]
  exist : s'.reservations.isSome

/-- The first reservation of `user`, if any, went off the list. -/
structure Removed (s : Store) (user : CStr) (s' : Store) : Prop where
  queue : s'.queue = Fcfs.cancel owner s.queue user
  allocated : s'.heap.allocated = s.heap.allocated
  exist : s'.reservations.isSome = s.reservations.isSome

theorem Added.users (h : Added M s entryData s') : s'.users = s.users ++ [entryData 1] := by
  obtain ⟨e, he, hq⟩ := h.queue
  rw [← Store.map_owner_queue, hq, List.map_append, Store.map_owner_queue, ← he]
  rfl

theorem Removed.users_sublist {user : CStr} (h : Removed s user s') : s'.users.Sublist s.users := by
  rw [← Store.map_owner_queue, ← Store.map_owner_queue, h.queue]
  exact Fcfs.cancel_sublist.map owner

theorem Store.queue_eq_nil : s.queue = [] ↔ s.users = [] := by
  rw [← Store.map_owner_queue, List.map_eq_nil_iff]

/-- Every way `create_reservation` completes. -/
theorem create_ok (hwf : s.WF) (h : createReservation M s entryData = .ok (p, s')) :
    s'.WF ∧ ((p = none ∧ s' = s ∧ s.reservations.isSome ∧ entryData 0 ∈ s.users) ∨
      (Added M s entryData s' ∧ (s.reservations.isSome → entryData 0 ∉ s.users))) := by
  cases hr : s.reservations with
  | none =>
    obtain ⟨t, ht, htwf, htr, htq, hta⟩ := create_first M entryData hr
    cases ht.symm.trans h
    refine ⟨htwf, .inr ⟨⟨⟨firstEntry entryData, rfl, ?_⟩, hta, by rw [htr]; rfl⟩, nofun⟩⟩
    rw [htq, Store.queue_null hr]; rfl
  | some r =>
    by_cases hf : entryData 0 ∈ s.users
    · cases (create_refused M entryData hr hwf hf).symm.trans h
      exact ⟨hwf, .inl ⟨rfl, rfl, rfl, hf⟩⟩
    · by_cases hq : s.queue = []
      · cases (create_emptied M entryData hr hwf hq).symm.trans h
      · obtain ⟨t, ht, htwf, htr, htq, hta⟩ := create_append M entryData hr hwf hq hf
        cases ht.symm.trans h
        exact ⟨htwf, .inr ⟨⟨⟨appendEntry entryData, rfl, htq⟩, hta, by rw [htr]; rfl⟩, fun _ => hf⟩⟩

/-- `create_reservation` fails only on a list that was emptied. -/
theorem create_error {f : Fault} (hwf : s.WF) (h : createReservation M s entryData = .error f) :
    f = .nullDeref ∧ s.reservations.isSome ∧ s.queue = [] := by
  cases hr : s.reservations with
  | none =>
    obtain ⟨t, ht, -⟩ := create_first M entryData hr
    cases ht.symm.trans h
  | some r =>
    by_cases hf : entryData 0 ∈ s.users
    · cases (create_refused M entryData hr hwf hf).symm.trans h
    · by_cases hq : s.queue = []
      · cases (create_emptied M entryData hr hwf hq).symm.trans h
        exact ⟨rfl, rfl, hq⟩
      · obtain ⟨t, ht, -⟩ := create_append M entryData hr hwf hq hf
        cases ht.symm.trans h

/-- `delete_reservation` always completes. -/
theorem delete_ok (hwf : s.WF) {user : CStr} (h : deleteReservation s user = .ok (p, s')) :
    s'.WF ∧ p = (Fcfs.find owner s.queue user).map Prod.fst ∧ Removed s user s' := by
  obtain ⟨t, ht, htwf, htq, htr, hta⟩ := delete_spec hwf user
  cases ht.symm.trans h
  exact ⟨htwf, rfl, htq, hta, htr⟩

/-- Every way the dispatch completes. -/
theorem dispatch_ok (hwf : s.WF) (h : dispatch M s entryData = .ok (p, s')) :
    s'.WF ∧
      ((entryData 0 = CREATE ∧ Added M s entryData s' ∧ (s.reservations.isSome → CREATE ∉ s.users)) ∨
        (entryData 0 = DELETE ∧ p = (Fcfs.find owner s.queue (entryData 1)).map Prod.fst ∧
          Removed s (entryData 1) s') ∨
        (entryData 0 ≠ DELETE ∧ p = none ∧ s' = s ∧ (entryData 0 = CREATE → CREATE ∈ s.users))) := by
  unfold dispatch at h
  simp only [strcmp_eq_zero] at h
  split at h
  · next hcmd =>
    obtain ⟨hwf', ⟨rfl, rfl, -, hf⟩ | ⟨hadd, hf⟩⟩ := create_ok hwf h
    · exact ⟨hwf', .inr (.inr ⟨by rw [hcmd]; decide, rfl, rfl, fun _ => hcmd ▸ hf⟩)⟩
    · exact ⟨hwf', .inl ⟨hcmd, hadd, hcmd ▸ hf⟩⟩
  · next hncreate =>
    split at h
    · next hcmd =>
      obtain ⟨hwf', hp, hrem⟩ := delete_ok hwf h
      exact ⟨hwf', .inr (.inl ⟨hcmd, hp, hrem⟩)⟩
    · next hcmd =>
      have hsame : (none, s) = (p, s') := by
        split at h
        · rw [print_spec hwf] at h
          exact Except.ok.inj h
        · exact Except.ok.inj h
      cases hsame
      exact ⟨hwf, .inr (.inr ⟨hcmd, rfl, rfl, fun e => absurd e hncreate⟩)⟩

/-- The dispatch fails only on a CREATE into an emptied list. -/
theorem dispatch_error {f : Fault} (hwf : s.WF) (h : dispatch M s entryData = .error f) :
    f = .nullDeref ∧ entryData 0 = CREATE ∧ s.reservations.isSome ∧ s.queue = [] := by
  unfold dispatch at h
  simp only [strcmp_eq_zero] at h
  split at h
  · next hcmd =>
    obtain ⟨hf, hsome, hq⟩ := create_error hwf h
    exact ⟨hf, hcmd, hsome, hq⟩
  · next hncreate =>
    split at h
    · obtain ⟨t, ht, -⟩ := delete_spec hwf (entryData 1)
      cases ht.symm.trans h
    · split at h
      · rw [print_spec hwf] at h
        cases h
      · cases h

/-! ## The refresh and the session -/

/-- Every way `update_reservation` completes. -/
theorem update_ok (hwf : s.WF) (h : updateReservation s = .ok s') :
    s'.WF ∧ s'.queue = s.queue ∧ s'.heap = s.heap ∧
      s'.reservations.isSome = s.reservations.isSome ∧
      ∀ r, s'.reservations = some r →
        ∃ x q, s.queue = x :: q ∧ r.LOCKED = some 1 ∧ r.USER = some (owner x) := by
  cases hr : s.reservations with
  | none =>
    cases (update_null hr).symm.trans h
    exact ⟨hwf, rfl, rfl, by rw [hr], fun r h => absurd (hr.symm.trans h) nofun⟩
  | some r =>
    cases hq : s.queue with
    | nil => cases (update_emptied hr hwf hq).symm.trans h
    | cons x q =>
      cases (update_cons hr hwf hq).symm.trans h
      have hc : Chain UserReservation.next s.heap r.head s.nodes := hwf.chain hr
      obtain ⟨hwf', hq'⟩ :=
        Store.mk_chain { r with LOCKED := some 1, USER := some (owner x) } hc
      refine ⟨hwf', hq'.trans hq, rfl, rfl, fun r' hr' => ?_⟩
      cases hr'
      exact ⟨x, q, rfl, rfl, rfl⟩

/-- A list that exists is not empty: the state between sessions. -/
structure Store.Settled (s : Store) : Prop where
  wf : s.WF
  inhabited : s.reservations.isSome → s.queue ≠ []

theorem Store.settled_init : Store.init.Settled := ⟨Store.wf_init, nofun⟩

theorem update_settled (hwf : s.WF) (h : updateReservation s = .ok s') : s'.Settled := by
  obtain ⟨hwf', hq, -, -, hr⟩ := update_ok hwf h
  refine ⟨hwf', fun hsome => ?_⟩
  obtain ⟨r, hr'⟩ := Option.isSome_iff_exists.mp hsome
  obtain ⟨x, q, hx, -⟩ := hr r hr'
  rw [hq, hx]
  exact List.cons_ne_nil x q

theorem update_completes_iff (hwf : s.WF) :
    (∃ s', updateReservation s = .ok s') ↔ (s.reservations.isSome → s.queue ≠ []) := by
  constructor
  · rintro ⟨s', h⟩ hsome
    obtain ⟨r, hr⟩ := Option.isSome_iff_exists.mp hsome
    intro hq
    cases (update_emptied hr hwf hq).symm.trans h
  · intro h
    cases hr : s.reservations with
    | none => exact ⟨s, update_null hr⟩
    | some r =>
      obtain ⟨x, q, hq⟩ := List.exists_cons_of_ne_nil (h (by rw [hr]; rfl))
      exact ⟨_, update_cons hr hwf hq⟩

theorem session_ok :
    session M s entryData = .ok s' ↔
      ∃ p t, dispatch M s entryData = .ok (p, t) ∧ updateReservation t = .ok s' := by
  unfold session
  rw [seq_ok]
  exact ⟨fun ⟨⟨p, t⟩, h⟩ => ⟨p, t, h⟩, fun ⟨p, t, h⟩ => ⟨(p, t), h⟩⟩

theorem session_settled (hs : s.Settled) (h : session M s entryData = .ok s') : s'.Settled := by
  obtain ⟨p, t, hd, hu⟩ := session_ok.mp h
  exact update_settled (dispatch_ok hs.wf hd).1 hu

/-- Between sessions the dispatch always completes. -/
theorem dispatch_completes (M : Malloc Addr) (hs : s.Settled) (entryData : EntryData) :
    ∃ p t, dispatch M s entryData = .ok (p, t) := by
  cases h : dispatch M s entryData with
  | ok x => exact ⟨x.1, x.2, rfl⟩
  | error f =>
    obtain ⟨-, -, hsome, hq⟩ := dispatch_error hs.wf h
    exact absurd hq (hs.inhabited hsome)

/-- The session deletes the only reservation there is. -/
def DeletesLast (s : Store) (entryData : EntryData) : Prop :=
  entryData 0 = DELETE ∧ s.users = [entryData 1]

instance : Decidable (DeletesLast s entryData) :=
  inferInstanceAs (Decidable (_ ∧ _))

/-- **A session completes unless it deletes the last reservation**: only then
does `update_reservation` find a list without a head. -/
theorem session_completes_iff (hs : s.Settled) :
    (∃ s', session M s entryData = .ok s') ↔ ¬ DeletesLast s entryData := by
  obtain ⟨p, t, hd⟩ := dispatch_completes M hs entryData
  have hiff : (∃ s', session M s entryData = .ok s') ↔ (t.reservations.isSome → t.queue ≠ []) := by
    rw [← update_completes_iff (dispatch_ok hs.wf hd).1]
    refine exists_congr fun s' => ⟨fun h => ?_, fun h => session_ok.mpr ⟨p, t, hd, h⟩⟩
    obtain ⟨p', t', hd', hu⟩ := session_ok.mp h
    cases hd.symm.trans hd'
    exact hu
  rw [hiff]
  obtain ⟨-, ⟨hcmd, hadd, -⟩ | ⟨hcmd, -, hrem⟩ | ⟨hcmd, -, rfl, -⟩⟩ := dispatch_ok hs.wf hd
  · refine iff_of_true (fun _ => ?_) fun h => ?_
    · obtain ⟨e, -, hq⟩ := hadd.queue
      simp [hq]
    · exact absurd (hcmd.symm.trans h.1) (by decide)
  · rw [hrem.exist, hrem.queue, Ne, Fcfs.cancel_eq_nil, Store.map_owner_queue]
    constructor
    · rintro h ⟨-, hu⟩
      have hq : s.queue ≠ [] := by rw [Ne, Store.queue_eq_nil, hu]; nofun
      exact h (Store.isSome_of_queue hq) (.inr hu)
    · rintro h hsome (hq | hu)
      · exact hs.inhabited hsome hq
      · exact h ⟨hcmd, hu⟩
  · exact iff_of_true hs.inhabited fun h => hcmd h.1

/-- A session fails only by dereferencing NULL. -/
theorem session_error {f : Fault} (hs : s.Settled) (h : session M s entryData = .error f) :
    f = .nullDeref := by
  obtain ⟨p, t, hd⟩ := dispatch_completes M hs entryData
  have hwf := (dispatch_ok hs.wf hd).1
  have hu : updateReservation t = .error f := by
    unfold session at h
    rwa [hd, ok_seq] at h
  cases hr : t.reservations with
  | none => cases (update_null hr).symm.trans hu
  | some r =>
    cases hq : t.queue with
    | nil => cases (update_emptied hr hwf hq).symm.trans hu; rfl
    | cons x q => cases (update_cons hr hwf hq).symm.trans hu

/-- **A run of sessions completes** when none of them deletes the last reservation. -/
theorem sessions_complete_iff (hs : s.Settled) {l : List EntryData} :
    (∃ t, runFrom (session M) s l = .ok t) ↔
      Along (session M) (fun s rows => ¬ DeletesLast s rows) s l :=
  completes_iff_along (fun _ _ _ => session_settled) (fun _ _ => session_completes_iff) hs

end

end CryptoLocker
