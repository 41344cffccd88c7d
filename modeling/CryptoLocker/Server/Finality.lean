import CryptoLocker.Server.Safety

/-!
# Deletion

After `delete_reservation` the user is gone when he held at most one
reservation (`final_iff`), so a run of sessions keeps every deletion final
exactly when its CREATEs are fresh (`deletion_final_iff`).
-/

namespace CryptoLocker

open Lib

/-- `user` holds nothing: a search and a deletion find nothing, and only a CREATE
for him changes that. -/
structure Gone (M : Malloc Addr) (s : Store) (user : CStr) : Prop where
  search : searchReservation s user = .ok none
  again : deleteReservation s user = .ok (none, s)
  regained : ∀ l t, (runFrom (session M) s l = .ok t ∨ runFrom (dispatched M) s l = .ok t) →
    user ∈ t.users → ∃ rows ∈ l, rows 0 = CREATE ∧ rows 1 = user

/-- Whenever `delete_reservation` returns, `user` is gone. -/
def Final (M : Malloc Addr) (s : Store) (user : CStr) : Prop :=
  ∀ p s', deleteReservation s user = .ok (p, s') → Gone M s' user

section
variable {M : Malloc Addr} {s s' : Store} {rows : EntryData} {user : CStr}

/-- Only a CREATE for the user puts him on the list. -/
theorem dispatched_absent (hwf : s.WF) (h : dispatched M s rows = .ok s')
    (hrows : ¬ (rows 0 = CREATE ∧ rows 1 = user)) (hu : user ∉ s.users) : user ∉ s'.users := by
  obtain ⟨p, hd⟩ := dispatched_ok.mp h
  obtain ⟨-, ⟨hcmd, hadd, -⟩ | ⟨-, -, hrem⟩ | ⟨-, -, rfl, -⟩⟩ := dispatch_ok hwf hd
  · rw [hadd.users]
    intro hm
    rcases List.mem_append.mp hm with hm | hm
    · exact hu hm
    · exact hrows ⟨hcmd, (List.mem_singleton.mp hm).symm⟩
  · exact fun hm => hu (hrem.users_sublist.subset hm)
  · exact hu

/-- A session is a dispatch and the refresh, which keeps the users. -/
theorem session_dispatched (hwf : s.WF) (h : session M s rows = .ok s') :
    ∃ t, dispatched M s rows = .ok t ∧ updateReservation t = .ok s' ∧ s'.WF ∧ s'.users = t.users := by
  obtain ⟨p, t, hd, hu⟩ := session_ok.mp h
  obtain ⟨hwf', hq, -⟩ := update_ok (dispatch_ok hwf hd).1 hu
  refine ⟨t, dispatched_ok.mpr ⟨p, hd⟩, hu, hwf', ?_⟩
  rw [← Store.map_owner_queue, ← Store.map_owner_queue, hq]

theorem session_wf (hwf : s.WF) (h : session M s rows = .ok s') : s'.WF := by
  obtain ⟨t, -, -, hwf', -⟩ := session_dispatched hwf h
  exact hwf'

theorem session_absent (hwf : s.WF) (h : session M s rows = .ok s')
    (hrows : ¬ (rows 0 = CREATE ∧ rows 1 = user)) (hu : user ∉ s.users) : user ∉ s'.users := by
  obtain ⟨t, hd, -, -, husers⟩ := session_dispatched hwf h
  rw [husers]
  exact dispatched_absent hwf hd hrows hu

/-- A user who holds nothing is put on the list along a run by a CREATE for him. -/
theorem regained_along {step : Store → EntryData → Except Fault Store} {t : Store} {l : List EntryData}
    (hwf : ∀ s rows s', s.WF → step s rows = .ok s' → s'.WF)
    (habsent : ∀ s rows s', s.WF → step s rows = .ok s' → ¬ (rows 0 = CREATE ∧ rows 1 = user) →
      user ∉ s.users → user ∉ s'.users)
    (hs : s.WF) (hu : user ∉ s.users) (h : runFrom step s l = .ok t) (ht : user ∈ t.users) :
    ∃ rows ∈ l, rows 0 = CREATE ∧ rows 1 = user := by
  by_contra hno
  have hkeep : ∀ s, ∀ rows ∈ l, ∀ s', s.WF ∧ user ∉ s.users → step s rows = .ok s' →
      s'.WF ∧ user ∉ s'.users := fun s rows hm s' hs h' =>
    ⟨hwf s rows s' hs.1 h', habsent s rows s' hs.1 h' (fun he => hno ⟨rows, hm, he⟩) hs.2⟩
  exact (runFrom_inv_of_mem hkeep ⟨hs, hu⟩ h).2 ht

theorem gone_iff (hwf : s.WF) : Gone M s user ↔ user ∉ s.users := by
  constructor
  · intro h
    have hsearch := (search_spec hwf user).symm.trans h.search
    rw [← Store.map_owner_queue, ← Fcfs.find_eq_none]
    exact Option.map_eq_none_iff.mp (Except.ok.inj hsearch)
  · intro hu
    refine ⟨?_, delete_absent hwf hu, fun l t h ht => ?_⟩
    · rw [search_spec hwf, Fcfs.find_eq_none.mpr (Store.map_owner_queue s ▸ hu)]
      rfl
    · rcases h with h | h
      · exact regained_along (fun _ _ _ => session_wf) (fun _ _ _ => session_absent) hwf hu h ht
      · exact regained_along (fun _ _ _ => dispatched_wf) (fun _ _ _ => dispatched_absent) hwf hu h ht

/-- A deletion is final for a user who holds one reservation at most. -/
theorem final_iff (hwf : s.WF) : Final M s user ↔ s.users.count user ≤ 1 := by
  obtain ⟨s', hs', hwf', hq, -⟩ := delete_spec hwf user
  have husers : s'.users = s.users.erase user := by
    rw [← Store.map_owner_queue, ← Store.map_owner_queue, hq, Fcfs.map_cancel]
  have hfinal : Final M s user ↔ Gone M s' user := by
    constructor
    · intro h
      exact h _ s' hs'
    · intro h p t ht
      cases hs'.symm.trans ht
      exact h
  rw [hfinal, gone_iff hwf', husers, ← List.count_eq_zero, List.count_erase_self]
  omega

/-- One session keeps the users distinct exactly when its CREATE is fresh. -/
theorem session_nodup_iff (hwf : s.WF) (hnd : s.users.Nodup) :
    (∀ s', session M s rows = .ok s' → s'.users.Nodup) ↔ FreshCreate s rows := by
  rw [← dispatched_nodup_iff (M := M) hwf hnd]
  constructor
  · intro h t ht
    obtain ⟨p, hd⟩ := dispatched_ok.mp ht
    have hwft := dispatched_wf hwf ht
    by_cases hq : t.queue = []
    · rw [Store.queue_eq_nil.mp hq]
      exact List.nodup_nil
    · obtain ⟨s', hu⟩ := (update_completes_iff hwft).mpr fun _ => hq
      have hs' := session_ok.mpr ⟨p, t, hd, hu⟩
      rw [← Store.map_owner_queue, ← (update_ok hwft hu).2.1, Store.map_owner_queue]
      exact h s' hs'
  · intro h s' hs'
    obtain ⟨t, hd, -, -, husers⟩ := session_dispatched hwf hs'
    rw [husers]
    exact h t hd

end

/-- **Deletion is final.** In every store a run of sessions reaches a deletion
leaves its user without a reservation, exactly when the CREATEs of the run are fresh. -/
theorem deletion_final_iff (M : Malloc Addr) (l : List EntryData) :
    (∀ s, Reaches (session M) Store.init l s → ∀ user, Final M s user) ↔
      Along (session M) FreshCreate Store.init l := by
  rw [← forall_reaches_iff_along (fun _ _ _ => session_wf) (fun _ _ => session_nodup_iff)
    Store.wf_init List.nodup_nil]
  refine forall₂_congr fun s hs => ?_
  obtain ⟨pre, -, hrun⟩ := hs
  have hwf : s.WF := runFrom_inv (fun _ _ _ => session_wf) Store.wf_init hrun
  rw [List.nodup_iff_count_le_one]
  exact forall_congr' fun user => final_iff hwf

/-- Alice reserves twice and cancels: her second reservation is still found. -/
theorem deletion_final_fails :
    ∃ s, Reaches (session Malloc.next) Store.init
        [rowsOf [CREATE, lit "alice"], rowsOf [CREATE, lit "alice"]] s ∧
      (∃ s', deleteReservation s (lit "alice") = .ok (some 1, s') ∧
        searchReservation s' (lit "alice") = .ok (some 2)) ∧
      ¬ Final Malloc.next s (lit "alice") := by
  refine ⟨_, ⟨_, List.prefix_rfl, rfl⟩, ⟨_, rfl, rfl⟩, fun h => ?_⟩
  cases (h (some 1) _ rfl).search

end CryptoLocker
