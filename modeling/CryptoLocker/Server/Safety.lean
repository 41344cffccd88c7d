import CryptoLocker.Server.Steps

/-!
# Runs of sessions and of dispatches

Two properties the list was meant to have and the exact runs that have them:
no session dereferences NULL (`null_safe_iff`), and no user holds two
reservations (`one_reservation_iff`).
-/

namespace CryptoLocker

open Lib

/-! ## NULL pointers -/

/-- **NULL safety.** A run of sessions dereferences no NULL pointer, and so
completes, exactly when none of its sessions deletes the last reservation. -/
theorem null_safe_iff (M : Malloc Addr) (l : List EntryData) :
    (runFrom (session M) Store.init l ≠ .error .nullDeref ↔
        Along (session M) (fun s rows => ¬ DeletesLast s rows) Store.init l) ∧
      ((∃ s, runFrom (session M) Store.init l = .ok s) ↔
        Along (session M) (fun s rows => ¬ DeletesLast s rows) Store.init l) := by
  have hruns := sessions_complete_iff (M := M) (l := l) Store.settled_init
  refine ⟨?_, hruns⟩
  rw [← hruns]
  constructor
  · intro hne
    cases h : runFrom (session M) Store.init l with
    | ok s => exact ⟨s, rfl⟩
    | error f =>
      have hf : f = .nullDeref :=
        runFrom_error (fun _ _ _ => session_settled) (fun _ _ _ => session_error) Store.settled_init h
      exact absurd (hf ▸ h) hne
  · rintro ⟨s, hs⟩ he
    cases hs.symm.trans he

/-- A user reserves and cancels; the refresh after the cancellation reads
`head->user` through NULL. -/
theorem null_safe_fails :
    runFrom (session Malloc.next) Store.init
      [rowsOf [CREATE, lit "alice"], rowsOf [DELETE, lit "alice"]] = .error .nullDeref := rfl

/-! ## One reservation a user -/

/-- The store after a dispatch, without the refresh. -/
def dispatched (M : Malloc Addr) (s : Store) (buffer : EntryData) : Except Fault Store := do
  let (_, s) ← dispatch M s buffer
  .ok s

section
variable {M : Malloc Addr} {s s' : Store} {rows : EntryData}

theorem dispatched_ok : dispatched M s rows = .ok s' ↔ ∃ p, dispatch M s rows = .ok (p, s') := by
  unfold dispatched
  rw [seq_ok]
  constructor
  · rintro ⟨⟨p, t⟩, hd, ht⟩
    cases ht
    exact ⟨p, hd⟩
  · rintro ⟨p, hd⟩
    exact ⟨(p, s'), hd, rfl⟩

theorem dispatched_wf (hwf : s.WF) (h : dispatched M s rows = .ok s') : s'.WF := by
  obtain ⟨p, hd⟩ := dispatched_ok.mp h
  exact (dispatch_ok hwf hd).1

/-- A CREATE for a user who holds no reservation, or one that is refused: the
search of `create_reservation` looks for row 0, that is for a user "CREATE". -/
def FreshCreate (s : Store) (rows : EntryData) : Prop :=
  rows 0 = CREATE → rows 1 ∉ s.users ∨ CREATE ∈ s.users

/-- One dispatch keeps the users distinct exactly when its CREATE is fresh. -/
theorem dispatched_nodup_iff (hwf : s.WF) (hnd : s.users.Nodup) :
    (∀ s', dispatched M s rows = .ok s' → s'.users.Nodup) ↔ FreshCreate s rows := by
  constructor
  · intro h hcmd
    cases hd : dispatch M s rows with
    | error f =>
      obtain ⟨-, -, -, hq⟩ := dispatch_error hwf hd
      rw [Store.queue_eq_nil.mp hq]
      exact .inl List.not_mem_nil
    | ok x =>
      obtain ⟨p, t⟩ := x
      have ht := h t (dispatched_ok.mpr ⟨p, hd⟩)
      obtain ⟨-, ⟨-, hadd, -⟩ | ⟨hdel, -⟩ | ⟨-, -, -, hf⟩⟩ := dispatch_ok hwf hd
      · rw [hadd.users, List.nodup_append] at ht
        exact .inl fun hm => ht.2.2 _ hm _ (List.mem_singleton_self _) rfl
      · exact absurd (hcmd.symm.trans hdel) (by decide)
      · exact .inr (hf hcmd)
  · intro hfresh t ht
    obtain ⟨p, hd⟩ := dispatched_ok.mp ht
    obtain ⟨-, ⟨hcmd, hadd, hf⟩ | ⟨-, -, hrem⟩ | ⟨-, -, rfl, -⟩⟩ := dispatch_ok hwf hd
    · have hnew : rows 1 ∉ s.users := by
        rcases hfresh hcmd with hnew | hc
        · exact hnew
        · -- a user "CREATE" is on the list, so there is a list and nothing was added
          have hq : s.queue ≠ [] := fun hnil => by
            rw [Store.queue_eq_nil.mp hnil] at hc
            cases hc
          exact absurd hc (hf (Store.isSome_of_queue hq))
      rw [hadd.users, List.nodup_append]
      refine ⟨hnd, List.nodup_singleton _, ?_⟩
      rintro u hu v hv rfl
      exact hnew (List.mem_singleton.mp hv ▸ hu)
    · exact hnd.sublist hrem.users_sublist
    · exact hnd

end

/-- **One reservation a user.** In every store a run of dispatches reaches the
users are distinct exactly when all its CREATEs are fresh. -/
theorem one_reservation_iff (M : Malloc Addr) (l : List EntryData) :
    (∀ s, Reaches (dispatched M) Store.init l s → s.users.Nodup) ↔
      Along (dispatched M) FreshCreate Store.init l :=
  forall_reaches_iff_along (fun _ _ _ => dispatched_wf) (fun _ _ => dispatched_nodup_iff)
    Store.wf_init List.nodup_nil

/-- Reserving twice puts the user on the list twice. -/
theorem one_reservation_fails :
    ∃ s, Reaches (dispatched Malloc.next) Store.init
        [rowsOf [CREATE, lit "alice"], rowsOf [CREATE, lit "alice"]] s ∧
      s.users = [lit "alice", lit "alice"] ∧ ¬ s.users.Nodup :=
  ⟨_, ⟨_, List.prefix_rfl, rfl⟩, by decide, by decide⟩

end CryptoLocker
