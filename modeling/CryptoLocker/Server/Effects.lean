import CryptoLocker.Server.Operations

/-!
# What a call on the list leaves alone

`create_reservation` tells with NULL that it left the list alone, except for the
first entry (`create_reports_iff`). Neither it nor `delete_reservation` touches
the reservations of another user (`others_undisturbed`), and a deletion takes
back what a create has done (`delete_undoes_create`).
-/

namespace CryptoLocker

open Lib

section
variable {M : Malloc Addr} {s s' : Store} {entryData : EntryData} {p : Ptr}

/-- The links of a list follow from its queue. -/
theorem Store.WF.nodes_eq (hwf : s.WF) (hwf' : s'.WF) (hq : s'.queue = s.queue) :
    s'.nodes = s.nodes := by
  cases hr : s.reservations with
  | none =>
    rw [Store.queue_null hr, Store.queue, queueOf, List.map_eq_nil_iff] at hq
    rw [hq, Store.nodes_null hr]
  | some r =>
    cases hr' : s'.reservations with
    | none =>
      rw [Store.queue_null hr', Store.queue, queueOf, eq_comm, List.map_eq_nil_iff] at hq
      rw [hq, Store.nodes_null hr']
    | some r' =>
      refine Chain.eq_of_map (f := UserReservation.entry) (fun b b' hn he => ?_) (hwf'.chain hr')
        (hwf.chain hr) hq
      cases b
      cases b'
      cases he
      cases hn
      rfl

/-- A search that finds nothing has seen the end of the list. -/
theorem searchLoop_none {h : Heap Addr UserReservation} {user : CStr} {n : Nat}
    (hs : searchLoop h user n p = .ok none) : ∃ l, Chain UserReservation.next h p l := by
  induction n generalizing p with
  | zero =>
    cases p with
    | none => exact ⟨[], rfl⟩
    | some a => cases hs
  | succ n ih =>
    cases p with
    | none => exact ⟨[], rfl⟩
    | some a =>
      obtain ⟨element, hd, hs⟩ := seq_ok.mp hs
      obtain ⟨_, ⟨⟩, hcell⟩ := deref_ok.mp hd
      split at hs
      · cases hs
      · obtain ⟨l, hl⟩ := ih hs
        exact ⟨(a, element) :: l, rfl, hcell, hl⟩

/-! ## What `create_reservation` returns -/

/-- NULL for a list that is as it was, else the node that is new and last. -/
structure Reports (s : Store) (p : Ptr) (s' : Store) : Prop where
  unchanged : p = none ↔ s'.reservations = s.reservations ∧ s'.nodes = s.nodes
  added : ∀ a, p = some a → a ∉ s.queue.map Prod.fst ∧ ∃ e, s'.queue = s.queue ++ [(a, e)]

/-- On any list, well-formed or not, a create that completes was refused or went
to the end of the whole list. -/
theorem create_some_ok {r : LockerReservations} (hr : s.reservations = some r)
    (h : createReservation M s entryData = .ok (p, s')) :
    (p = none ∧ s' = s) ∨ (s.WF ∧ p = some (M.pick s.heap.allocated) ∧
      s'.queue = s.queue ++ [(M.pick s.heap.allocated, appendEntry entryData)]) := by
  cases hf : searchReservation s (entryData 0) with
  | error f =>
    unfold createReservation at h
    simp only [hr, hf] at h
    cases h
  | ok found =>
    cases found with
    | some a =>
      unfold createReservation at h
      simp only [hr, hf] at h
      cases h
      exact .inl ⟨rfl, rfl⟩
    | none =>
      have hwf : s.WF := by
        intro r' hr'
        unfold searchReservation at hf
        rw [hr'] at hf
        exact searchLoop_none hf
      have hnew : entryData 0 ∉ s.users := by
        rw [search_spec hwf] at hf
        rwa [Except.ok.injEq, Option.map_eq_none_iff, Fcfs.find_eq_none,
          Store.map_owner_queue] at hf
      by_cases hq : s.queue = []
      · cases (create_emptied M entryData hr hwf hq).symm.trans h
      · obtain ⟨t, ht, -, -, htq, -⟩ := create_append M entryData hr hwf hq hnew
        cases ht.symm.trans h
        exact .inr ⟨hwf, rfl, htq⟩

theorem nodes_ne_of_queue {q : Queue} (hq : s'.queue = s.queue ++ q) (hne : q ≠ []) :
    s'.nodes ≠ s.nodes := by
  intro hn
  rw [Store.queue, Store.queue, hn] at hq
  exact hne (List.self_eq_append_right.mp hq)

end

/-- **The result of a create.** A create that completes reports what it did
exactly when there was a list already: for a first entry it returns NULL too. -/
theorem create_reports_iff (M : Malloc Addr) (s s' : Store) (rows : EntryData) (p : Ptr)
    (h : createReservation M s rows = .ok (p, s')) : Reports s p s' ↔ s.reservations ≠ none := by
  cases hr : s.reservations with
  | none =>
    obtain ⟨t, ht, -, htr, -⟩ := create_first M rows hr
    cases ht.symm.trans h
    refine iff_of_false (fun hrep => ?_) (fun hne => hne rfl)
    have hsame := (hrep.unchanged.mp rfl).1
    rw [htr, hr] at hsame
    cases hsame
  | some r =>
    refine iff_of_true ?_ nofun
    obtain ⟨rfl, rfl⟩ | ⟨hwf, rfl, hq⟩ := create_some_ok hr h
    · exact ⟨iff_of_true rfl ⟨rfl, rfl⟩, nofun⟩
    · refine ⟨iff_of_false nofun fun hsame => nodes_ne_of_queue hq nofun hsame.2, fun a ha => ?_⟩
      cases ha
      exact ⟨fun hm => M.fresh _ (hwf.allocated hm), _, hq⟩

/-- Bob's node is returned, Alice's is not. -/
theorem create_reports_second :
    ∃ s p s', runFrom (session Malloc.next) Store.init [rowsOf [CREATE, lit "alice"]] = .ok s ∧
      createReservation Malloc.next s (rowsOf [CREATE, lit "bob"]) = .ok (p, s') ∧ Reports s p s' := by
  obtain ⟨s, hs⟩ : ∃ s, runFrom (session Malloc.next) Store.init
      [rowsOf [CREATE, lit "alice"]] = .ok s := ⟨_, rfl⟩
  obtain ⟨p, s', h⟩ : ∃ p s', createReservation Malloc.next s (rowsOf [CREATE, lit "bob"]) =
      .ok (p, s') := by
    cases hs
    exact ⟨_, _, rfl⟩
  have hsome : s.reservations ≠ none := by
    cases hs
    nofun
  exact ⟨s, p, s', hs, h, (create_reports_iff Malloc.next s s' _ p h).mpr hsome⟩

/-- The first entry is added and NULL returned for it. -/
theorem create_reports_fails :
    ∃ s', createReservation Malloc.next Store.init (rowsOf [CREATE, lit "alice"]) = .ok (none, s') ∧
      s'.users = [lit "alice"] ∧ ¬ Reports Store.init none s' := by
  refine ⟨_, rfl, rfl, fun h => ?_⟩
  have hnodes := (h.unchanged.mp rfl).2
  cases hnodes

/-! ## The reservations of the others -/

/-- A search for `user` finds what it found before, with the same fields. -/
def SameSearch (s s' : Store) (user : CStr) : Prop :=
  ∃ p, searchReservation s user = .ok p ∧ searchReservation s' user = .ok p ∧
    ∀ a, p = some a → ∃ node node', deref s.heap p = .ok node ∧ deref s'.heap p = .ok node' ∧
      node'.entry = node.entry

section
variable {M : Malloc Addr} {s s' : Store} {entryData : EntryData} {p : Ptr} {user : CStr}

/-- A reservation of the queue is a node of the heap. -/
theorem Store.WF.deref_queue (hwf : s.WF) {x : Addr × Entry} (hx : x ∈ s.queue) :
    ∃ node, deref s.heap (some x.1) = .ok node ∧ node.entry = x.2 := by
  obtain ⟨⟨a, node⟩, hn, rfl⟩ := List.mem_map.mp hx
  cases hr : s.reservations with
  | none =>
    rw [Store.nodes_null hr] at hn
    cases hn
  | some r => exact ⟨node, deref_ok.mpr ⟨a, rfl, (hwf.chain hr).cell hn⟩, rfl⟩

theorem sameSearch_of_find (hwf : s.WF) (hwf' : s'.WF)
    (hfind : Fcfs.find owner s'.queue user = Fcfs.find owner s.queue user) :
    SameSearch s s' user := by
  refine ⟨_, search_spec hwf user, hfind ▸ search_spec hwf' user, fun a ha => ?_⟩
  obtain ⟨x, hx, rfl⟩ := Option.map_eq_some_iff.mp ha
  obtain ⟨node, hd, he⟩ := hwf.deref_queue (List.mem_of_find?_eq_some hx)
  obtain ⟨node', hd', he'⟩ := hwf'.deref_queue (List.mem_of_find?_eq_some (hfind.trans hx))
  rw [hx]
  exact ⟨node, node', hd, hd', he'.trans he.symm⟩

theorem delete_sameSearch (hwf : s.WF) {other : CStr} (hne : other ≠ user)
    (h : deleteReservation s other = .ok (p, s')) : SameSearch s s' user := by
  obtain ⟨hwf', -, hrem⟩ := delete_ok hwf h
  exact sameSearch_of_find hwf hwf' (hrem.queue ▸ Fcfs.find_cancel_ne hne)

theorem create_sameSearch (hwf : s.WF) (hne : entryData 1 ≠ user)
    (h : createReservation M s entryData = .ok (p, s')) : SameSearch s s' user := by
  obtain ⟨hwf', ⟨-, rfl, -⟩ | ⟨hadd, -⟩⟩ := create_ok hwf h
  · exact sameSearch_of_find hwf hwf rfl
  · obtain ⟨e, he, hq⟩ := hadd.queue
    have howner : owner (M.pick s.heap.allocated, e) ≠ user := fun hown => hne (he.symm.trans hown)
    exact sameSearch_of_find hwf hwf' (hq ▸ Fcfs.find_snoc_ne howner)

end

/-- **The others.** A deletion of `u`, or a create for `u`, that completes changes
nothing of what a search for another user finds. -/
theorem others_undisturbed (M : Malloc Addr) (s : Store) (hwf : s.WF) (u v : CStr) (huv : u ≠ v) :
    (∀ p s', deleteReservation s u = .ok (p, s') → SameSearch s s' v) ∧
      ∀ rows p s', rows 1 = u → createReservation M s rows = .ok (p, s') → SameSearch s s' v := by
  refine ⟨fun p s' h => delete_sameSearch hwf huv h, fun rows p s' hu h => ?_⟩
  exact create_sameSearch hwf (hu ▸ huv) h

/-- Alice's first node goes from in front of Bob's. -/
theorem others_undisturbed_bob :
    ∃ s p s', runFrom (session Malloc.next) Store.init
        [rowsOf [CREATE, lit "alice"], rowsOf [CREATE, lit "bob"], rowsOf [CREATE, lit "alice"]] =
          .ok s ∧
      deleteReservation s (lit "alice") = .ok (p, s') ∧ SameSearch s s' (lit "bob") := by
  obtain ⟨s, hs⟩ : ∃ s, runFrom (session Malloc.next) Store.init
      [rowsOf [CREATE, lit "alice"], rowsOf [CREATE, lit "bob"],
        rowsOf [CREATE, lit "alice"]] = .ok s := ⟨_, rfl⟩
  have hwf := (Store.Reachable.sessions hs).wf
  obtain ⟨s', h, -⟩ := delete_spec hwf (lit "alice")
  exact ⟨s, _, s', hs, h,
    (others_undisturbed Malloc.next s hwf (lit "alice") (lit "bob") (by decide)).1 _ _ h⟩

/-! ## A create and the deletion behind it -/

section
variable {M : Malloc Addr} {s s' : Store} {entryData : EntryData} {p : Ptr} {user : CStr}

/-- A refresh depends on the queue alone. -/
theorem update_same (hwf : s.WF) (hwf' : s'.WF) (hne : s.queue ≠ []) (hq : s'.queue = s.queue) :
    ∃ t t', updateReservation s = .ok t ∧ updateReservation s' = .ok t' ∧
      t'.reservations = t.reservations ∧ t'.nodes = s.nodes := by
  obtain ⟨x, q, hx⟩ := List.exists_cons_of_ne_nil hne
  have hx' : s'.queue = x :: q := hq.trans hx
  obtain ⟨r, hr⟩ := Option.isSome_iff_exists.mp (Store.isSome_of_queue hne)
  obtain ⟨r', hr'⟩ := Option.isSome_iff_exists.mp (Store.isSome_of_queue (hq ▸ hne))
  have hnodes := hwf.nodes_eq hwf' hq
  have hhead : r'.head = r.head := by
    rw [(hwf'.chain hr').start, (hwf.chain hr).start, hnodes]
  refine ⟨_, _, update_cons hr hwf hx, update_cons hr' hwf' hx', ?_, ?_⟩
  · show some (LockerReservations.mk r'.head _ _) = _
    rw [hhead]
  · rw [← hnodes]
    have hc : Chain UserReservation.next s'.heap r'.head s'.nodes := hwf'.chain hr'
    exact Store.nodes_of_chain rfl hc

/-- After a create for somebody new the deletion leaves the queue as it was. -/
theorem create_delete_queue (hwf : s.WF) (hne : s.queue ≠ []) (hu : entryData 1 ∉ s.users) :
    ∃ p s₁ q s₂, createReservation M s entryData = .ok (p, s₁) ∧
      deleteReservation s₁ (entryData 1) = .ok (q, s₂) ∧ s₂.WF ∧ s₂.queue = s.queue := by
  obtain ⟨r, hr⟩ := Option.isSome_iff_exists.mp (Store.isSome_of_queue hne)
  by_cases hf : entryData 0 ∈ s.users
  · -- refused, so there is nothing to delete
    exact ⟨_, s, _, s, create_refused M entryData hr hwf hf, delete_absent hwf hu, hwf, rfl⟩
  · obtain ⟨s₁, hs₁, hwf₁, -, hq₁, -⟩ := create_append M entryData hr hwf hne hf
    obtain ⟨s₂, hs₂, hwf₂, hq₂, -⟩ := delete_spec hwf₁ (entryData 1)
    refine ⟨_, s₁, _, s₂, hs₁, hs₂, hwf₂, ?_⟩
    rw [← Store.map_owner_queue] at hu
    rw [hq₂, hq₁]
    exact Fcfs.cancel_snoc_self rfl hu

end

/-- **DELETE undoes CREATE.** On a list that is not empty, for a user who is not on
it, a create, the deletion and the refresh give back the nodes, and the `USER`
and `LOCKED` of a refresh of the list itself. -/
theorem delete_undoes_create (M : Malloc Addr) (s : Store) (hwf : s.WF) (hne : s.nodes ≠ [])
    (rows : EntryData) (hu : rows 1 ∉ s.users) :
    ∃ p s₁ q s₂ t t₀, createReservation M s rows = .ok (p, s₁) ∧
      deleteReservation s₁ (rows 1) = .ok (q, s₂) ∧ updateReservation s₂ = .ok t ∧
      updateReservation s = .ok t₀ ∧ t.nodes = s.nodes ∧ t.reservations = t₀.reservations := by
  have hq : s.queue ≠ [] := fun h => hne (List.map_eq_nil_iff.mp h)
  obtain ⟨p, s₁, q, s₂, hcreate, hdelete, hwf₂, hq₂⟩ := create_delete_queue hwf hq hu
  obtain ⟨t₀, t, ht₀, ht, hres, hnodes⟩ := update_same hwf hwf₂ hq hq₂
  exact ⟨p, s₁, q, s₂, t, t₀, hcreate, hdelete, ht, ht₀, hnodes, hres⟩

/-- Bob comes and goes behind Alice. -/
theorem delete_undoes_create_bob :
    ∃ s, runFrom (session Malloc.next) Store.init [rowsOf [CREATE, lit "alice"]] = .ok s ∧
      ∃ p s₁ q s₂ t t₀, createReservation Malloc.next s (rowsOf [CREATE, lit "bob"]) = .ok (p, s₁) ∧
        deleteReservation s₁ (lit "bob") = .ok (q, s₂) ∧ updateReservation s₂ = .ok t ∧
        updateReservation s = .ok t₀ ∧ t.nodes = s.nodes ∧ t.reservations = t₀.reservations := by
  obtain ⟨s, hs⟩ : ∃ s, runFrom (session Malloc.next) Store.init
      [rowsOf [CREATE, lit "alice"]] = .ok s := ⟨_, rfl⟩
  have husers : s.users = [lit "alice"] := by cases hs; rfl
  refine ⟨s, hs, delete_undoes_create Malloc.next s (Store.Reachable.sessions hs).wf ?_
    (rowsOf [CREATE, lit "bob"]) ?_⟩
  · intro hnil
    rw [Store.users, hnil] at husers
    cases husers
  · rw [husers]
    decide

end CryptoLocker
