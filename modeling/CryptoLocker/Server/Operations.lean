import CryptoLocker.Server.History
import CryptoLocker.Server.Safety

/-!
# The list operations from any reachable store

`Store.Reachable` is every store the list functions reach from program start,
called in any order. From there a free user can reserve unless the list is
empty or somebody is named "CREATE" (`create_free_iff`), a deletion takes out
the first node of its user (`delete_removes_first`), and the two insertion paths
store the same entry when rows 2 and 3 agree (`insertion_paths_iff`).
-/

namespace CryptoLocker

open Lib

/-- Stores that dispatches and refreshes reach from program start, in any order. -/
inductive Store.Reachable (M : Malloc Addr) : Store → Prop
  | init : Reachable M Store.init
  | dispatch {s s' : Store} {buffer : EntryData} (h : Reachable M s)
      (hd : dispatched M s buffer = .ok s') : Reachable M s'
  | update {s s' : Store} (h : Reachable M s) (hu : updateReservation s = .ok s') : Reachable M s'

section
variable {M : Malloc Addr} {s s' : Store} {entryData : EntryData}

theorem Store.Reachable.wf (h : Store.Reachable M s) : s.WF := by
  induction h with
  | init => exact Store.wf_init
  | dispatch _ hd ih => exact dispatched_wf ih hd
  | update _ hu ih => exact (update_ok ih hu).1

/-- The stores between sessions are reachable. -/
theorem Store.Reachable.sessions {l : List EntryData} (h : runFrom (session M) Store.init l = .ok s) :
    Store.Reachable M s := by
  refine runFrom_inv (fun t rows t' ht hstep => ?_) Store.Reachable.init h
  obtain ⟨p, u, hd, hu⟩ := session_ok.mp hstep
  exact (ht.dispatch (dispatched_ok.mpr ⟨p, hd⟩)).update hu

/-! ## Reserving -/

/-- `create_reservation` completes and puts one node of row 1 behind all others. -/
def Appends (M : Malloc Addr) (s : Store) (entryData : EntryData) : Prop :=
  ∃ p s' a e, createReservation M s entryData = .ok (p, s') ∧ s'.WF ∧ e.user = entryData 1 ∧
    s'.queue = s.queue ++ [(a, e)]

theorem appends_iff (hwf : s.WF) :
    Appends M s entryData ↔ s.reservations = none ∨ (s.users ≠ [] ∧ entryData 0 ∉ s.users) := by
  constructor
  · rintro ⟨p, s', a, e, h, -, -, hq⟩
    cases hr : s.reservations with
    | none => exact .inl rfl
    | some r =>
      refine .inr ⟨fun hnil => ?_, fun hf => ?_⟩
      · cases (create_emptied M entryData hr hwf (Store.queue_eq_nil.mpr hnil)).symm.trans h
      · cases (create_refused M entryData hr hwf hf).symm.trans h
        simp at hq
  · intro h
    cases hr : s.reservations with
    | none =>
      obtain ⟨s', hs', hwf', -, hq, -⟩ := create_first M entryData hr
      refine ⟨none, s', M.pick s.heap.allocated, firstEntry entryData, hs', hwf', rfl, ?_⟩
      rw [hq, Store.queue_null hr]
      rfl
    | some r =>
      obtain ⟨hne, hf⟩ := h.resolve_left (by rw [hr]; nofun)
      have hq : s.queue ≠ [] := fun hnil => hne (Store.queue_eq_nil.mp hnil)
      obtain ⟨s', hs', hwf', -, hq', -⟩ := create_append M entryData hr hwf hq hf
      exact ⟨_, s', _, appendEntry entryData, hs', hwf', rfl, hq'⟩

end

/-- **A free user reserves.** A CREATE adds its user, free or not, exactly when
there is no list yet, or it is not empty and nobody on it is named "CREATE". -/
theorem create_free_iff (M : Malloc Addr) (s : Store) (rows : EntryData) (hs : Store.Reachable M s)
    (hcmd : rows 0 = CREATE) :
    Appends M s rows ↔ s.reservations = none ∨ (s.users ≠ [] ∧ CREATE ∉ s.users) := by
  rw [appends_iff hs.wf, hcmd]

/-- Bob reserves behind Alice. -/
theorem create_free_second :
    ∃ s, runFrom (session Malloc.next) Store.init [rowsOf [CREATE, lit "alice"]] = .ok s ∧
      Appends Malloc.next s (rowsOf [CREATE, lit "bob"]) := by
  obtain ⟨s, hs⟩ : ∃ s, runFrom (session Malloc.next) Store.init
      [rowsOf [CREATE, lit "alice"]] = .ok s := ⟨_, rfl⟩
  have husers : s.users = [lit "alice"] := by cases hs; rfl
  refine ⟨s, hs, (create_free_iff Malloc.next s _ (Store.Reachable.sessions hs) rfl).mpr (.inr ?_)⟩
  rw [husers]
  decide

/-- A user named "CREATE" keeps Alice off the list. -/
theorem create_free_fails :
    ∃ s, runFrom (session Malloc.next) Store.init [rowsOf [CREATE, CREATE]] = .ok s ∧
      lit "alice" ∉ s.users ∧
      createReservation Malloc.next s (rowsOf [CREATE, lit "alice"]) = .ok (none, s) ∧
      ¬ Appends Malloc.next s (rowsOf [CREATE, lit "alice"]) := by
  refine ⟨_, rfl, by decide, rfl, fun h => ?_⟩
  obtain ⟨p, s', a, e, hs', -, -, hq⟩ := h
  cases hs'
  simp at hq

/-! ## Cancelling -/

/-- **Removal of the first match.** On every well-formed store
`delete_reservation` completes, returns what the search finds, and takes just
that node out of the list. -/
theorem delete_removes_first (s : Store) (hwf : s.WF) (user : CStr) :
    ∃ p s', searchReservation s user = .ok p ∧ deleteReservation s user = .ok (p, s') ∧ s'.WF ∧
      (p = none → user ∉ s.users ∧ s' = s) ∧
      ∀ a, p = some a → ∃ pre e post, s.queue = pre ++ (a, e) :: post ∧ e.user = user ∧
        (∀ x ∈ pre, owner x ≠ user) ∧ s'.queue = pre ++ post := by
  obtain ⟨s', hs', hwf', hq, -⟩ := delete_spec hwf user
  refine ⟨_, s', search_spec hwf user, hs', hwf', fun hnone => ?_, fun a ha => ?_⟩
  · have hu : user ∉ s.users := by
      rwa [Option.map_eq_none_iff, Fcfs.find_eq_none, Store.map_owner_queue] at hnone
    have hsame := Except.ok.inj (hs'.symm.trans (delete_absent hwf hu))
    exact ⟨hu, congrArg Prod.snd hsame⟩
  · obtain ⟨x, hx, rfl⟩ := Option.map_eq_some_iff.mp ha
    obtain ⟨hu, pre, post, hsplit, hpre⟩ := Fcfs.find_eq_some.mp hx
    refine ⟨pre, x.2, post, hsplit, hu, hpre, ?_⟩
    rw [hq, hsplit, Fcfs.cancel_split hu hpre]

/-- Of two reservations of Bob the first goes. -/
theorem delete_removes_first_bob :
    ∃ s, runFrom (session Malloc.next) Store.init
        [rowsOf [CREATE, lit "alice"], rowsOf [CREATE, lit "bob"], rowsOf [CREATE, lit "bob"]] = .ok s ∧
      ∃ p s', searchReservation s (lit "bob") = .ok p ∧
        deleteReservation s (lit "bob") = .ok (p, s') ∧ s'.WF ∧ p = some 2 ∧
        s'.users = [lit "alice", lit "bob"] := by
  obtain ⟨s, hs⟩ : ∃ s, runFrom (session Malloc.next) Store.init
      [rowsOf [CREATE, lit "alice"], rowsOf [CREATE, lit "bob"],
        rowsOf [CREATE, lit "bob"]] = .ok s := ⟨_, rfl⟩
  obtain ⟨p, s', hsearch, hdelete, hwf', -, -⟩ :=
    delete_removes_first s (Store.Reachable.sessions hs).wf (lit "bob")
  refine ⟨s, hs, p, s', hsearch, hdelete, hwf', ?_, ?_⟩
  · cases hs; cases hsearch; rfl
  · cases hs; cases hdelete; rfl

/-! ## The two insertion paths -/

section
variable {M : Malloc Addr} {s s' : Store} {entryData : EntryData} {p : Ptr}

theorem deref_ok {h : Heap Addr UserReservation} {node : UserReservation} :
    deref h p = .ok node ↔ ∃ a, p = some a ∧ h.cell a = some node := by
  unfold deref
  constructor
  · intro hd
    split at hd
    · cases hd
    · next a =>
      split at hd
      · next hcell =>
        cases hd
        exact ⟨a, rfl, hcell⟩
      · cases hd
  · rintro ⟨a, rfl, hcell⟩
    simp only [hcell]

/-- The walk to the last node ends at a block. -/
theorem lastLoop_cell {h : Heap Addr UserReservation} {n : Nat} {q : Ptr}
    (hl : lastLoop h n p = .ok q) : ∃ a, q = some a ∧ a ∈ h.allocated := by
  induction n generalizing p with
  | zero => cases p <;> cases hl
  | succ n ih =>
    cases p with
    | none => cases hl
    | some a =>
      obtain ⟨cursor, hd, hl⟩ := seq_ok.mp hl
      split at hl
      · obtain ⟨_, ⟨⟩, hcell⟩ := deref_ok.mp hd
        cases hl
        exact ⟨a, rfl, Heap.allocated_of_cell hcell⟩
      · exact ih hl

/-- The node built for the first entry. -/
theorem create_first_node (hr : s.reservations = none)
    (h : createReservation M s entryData = .ok (p, s')) :
    p = none ∧ deref s'.heap s'.head = .ok
      ⟨entryData 1, entryData 3, entryData 3, atoi (entryData 7), none⟩ := by
  unfold createReservation at h
  rw [hr] at h
  cases h
  exact ⟨rfl, deref_ok.mpr ⟨_, rfl, Heap.cell_alloc_self M s.heap _⟩⟩

/-- The node built behind others. -/
theorem create_append_node {a : Addr} (h : createReservation M s entryData = .ok (some a, s')) :
    deref s'.heap (some a) = .ok
      ⟨entryData 1, entryData 2, entryData 3, atoi (entryData 7), none⟩ := by
  cases hr : s.reservations with
  | none => cases (create_first_node hr h).1
  | some r =>
    unfold createReservation at h
    rw [hr] at h
    obtain ⟨found, -, h⟩ := seq_ok.mp h
    split at h
    · obtain ⟨cursor, hl, h⟩ := seq_ok.mp h
      obtain ⟨c, rfl, hc⟩ := lastLoop_cell hl
      cases h
      -- the cursor is an older block than the new node
      have hne : M.pick s.heap.allocated ≠ c := by
        rintro rfl
        exact M.fresh _ hc
      refine deref_ok.mpr ⟨_, rfl, ?_⟩
      rw [Heap.cell_modify_ne _ hne, Heap.cell_alloc_self]
    · cases h

end

/-- **The two insertion paths.** The node built for a first entry and the node
appended for the same rows hold the same reservation exactly when rows 2 and 3 agree. -/
theorem insertion_paths_iff (M : Malloc Addr) (rows : EntryData) (s₀ s₀' s₁ s₁' : Store) (p : Ptr)
    (a : Addr) (hnull : s₀.reservations = none)
    (hfirst : createReservation M s₀ rows = .ok (p, s₀'))
    (happend : createReservation M s₁ rows = .ok (some a, s₁')) :
    (∃ n₀ n₁, deref s₀'.heap s₀'.head = .ok n₀ ∧ deref s₁'.heap (some a) = .ok n₁ ∧
        n₀.entry = n₁.entry) ↔ rows 2 = rows 3 := by
  rw [(create_first_node hnull hfirst).2, create_append_node happend]
  constructor
  · rintro ⟨_, _, ⟨⟩, ⟨⟩, he⟩
    exact (congrArg Entry.startTime he).symm
  · intro h
    exact ⟨_, _, rfl, rfl, by simp only [UserReservation.entry, h]⟩

/-- A request whose start and end are the same string. -/
theorem insertion_paths_same :
    ∃ s₀' s₁ s₁', createReservation Malloc.next Store.init
          (rowsOf [CREATE, lit "bob", lit "10:00", lit "10:00"]) = .ok (none, s₀') ∧
      runFrom (session Malloc.next) Store.init [rowsOf [CREATE, lit "alice"]] = .ok s₁ ∧
      createReservation Malloc.next s₁ (rowsOf [CREATE, lit "bob", lit "10:00", lit "10:00"]) =
        .ok (some 2, s₁') ∧
      ∃ n₀ n₁, deref s₀'.heap s₀'.head = .ok n₀ ∧ deref s₁'.heap (some 2) = .ok n₁ ∧
        n₀.entry = n₁.entry := by
  obtain ⟨s₁, hs₁⟩ : ∃ s₁, runFrom (session Malloc.next) Store.init
      [rowsOf [CREATE, lit "alice"]] = .ok s₁ := ⟨_, rfl⟩
  obtain ⟨s₁', hs₁'⟩ : ∃ s₁', createReservation Malloc.next s₁
      (rowsOf [CREATE, lit "bob", lit "10:00", lit "10:00"]) = .ok (some 2, s₁') := by
    cases hs₁
    exact ⟨_, rfl⟩
  exact ⟨_, s₁, s₁', rfl, hs₁, hs₁',
    (insertion_paths_iff Malloc.next _ Store.init _ s₁ s₁' none 2 rfl rfl hs₁').mpr rfl⟩

/-- The first entry has its end for a start. -/
theorem insertion_paths_fail :
    ∃ s₀' s₁ s₁' n₀ n₁, createReservation Malloc.next Store.init
          (rowsOf [CREATE, lit "bob", lit "09:00", lit "10:00"]) = .ok (none, s₀') ∧
      runFrom (session Malloc.next) Store.init [rowsOf [CREATE, lit "alice"]] = .ok s₁ ∧
      createReservation Malloc.next s₁ (rowsOf [CREATE, lit "bob", lit "09:00", lit "10:00"]) =
        .ok (some 2, s₁') ∧
      deref s₀'.heap s₀'.head = .ok n₀ ∧ deref s₁'.heap (some 2) = .ok n₁ ∧
      n₀.startTime = lit "10:00" ∧ n₁.startTime = lit "09:00" ∧ n₀.entry ≠ n₁.entry :=
  ⟨_, _, _, _, _, rfl, rfl, rfl, rfl, rfl, rfl, rfl, by decide⟩

end CryptoLocker
