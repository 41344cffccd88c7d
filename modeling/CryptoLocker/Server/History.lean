import CryptoLocker.Server.Steps

/-!
# The list and its history

A run of calls keeps, next to the store, the nodes `delete_reservation` has
returned. The invariant `Hist.Inv` ties the list to that history: the nodes on
the list are those allocated and not yet returned, in order of allocation.
From it follow the shape of the list in every reachable state
(`list_of_history`) and the meaning of `USER` and `LOCKED` between sessions
(`holder_of_history`).
-/

namespace CryptoLocker

open Lib

/-- A store and the nodes `delete_reservation` has returned so far. -/
structure Hist where
  store : Store
  returned : List Addr

def Hist.init : Hist := ⟨Store.init, []⟩

/-- A call of one of the two functions that change the list. -/
inductive Call where
  | create (entryData : EntryData)
  | delete (user : CStr)

def Call.exec (M : Malloc Addr) (s : Store) : Call → Except Fault (Ptr × Store)
  | .create entryData => createReservation M s entryData
  | .delete user => deleteReservation s user

def Hist.call (M : Malloc Addr) (t : Hist) (c : Call) : Except Fault Hist := do
  let (p, s) ← c.exec M t.store
  match c with
  | .create _ => .ok ⟨s, t.returned⟩
  | .delete _ => .ok ⟨s, t.returned ++ p.toList⟩

/-- A session; only a DELETE returns a node. -/
def Hist.session (M : Malloc Addr) (t : Hist) (buffer : EntryData) : Except Fault Hist := do
  let (p, s) ← dispatch M t.store buffer
  let s ← updateReservation s
  .ok ⟨s, if buffer 0 = DELETE then t.returned ++ p.toList else t.returned⟩

/-- The head of the list; NULL without a list. -/
def Store.head (s : Store) : Ptr := s.reservations.bind LockerReservations.head

/-- The list holds the nodes allocated and not returned, oldest first. -/
structure Hist.Inv (t : Hist) : Prop where
  wf : t.store.WF
  waiting : t.store.queue.map Prod.fst = Fcfs.waiting t.store.heap.allocated t.returned
  returned : t.returned ⊆ t.store.heap.allocated

theorem Hist.inv_init : Hist.init.Inv := ⟨Store.wf_init, rfl, List.nil_subset _⟩

section
variable {M : Malloc Addr} {t t' : Hist} {s : Store} {entryData : EntryData}

theorem Store.WF.chain_head {s : Store} (hwf : s.WF) :
    Chain UserReservation.next s.heap s.head s.nodes := by
  cases hr : s.reservations with
  | none => rw [Store.nodes_null hr, Store.head, hr]; rfl
  | some r => rw [Store.head, hr]; exact hwf.chain hr

/-- A new node joins the history at the end. -/
theorem Hist.Inv.added (h : t.Inv) (hwf : s.WF) (hadd : Added M t.store entryData s) :
    Hist.Inv ⟨s, t.returned⟩ := by
  obtain ⟨e, -, hq⟩ := hadd.queue
  have hnew : M.pick t.store.heap.allocated ∉ t.returned := fun hm => M.fresh _ (h.returned hm)
  refine ⟨hwf, ?_, ?_⟩
  · show s.queue.map Prod.fst = Fcfs.waiting s.heap.allocated t.returned
    rw [hq, List.map_append, h.waiting, hadd.allocated, Fcfs.waiting_join hnew]
    rfl
  · show t.returned ⊆ s.heap.allocated
    rw [hadd.allocated]
    exact List.subset_append_of_subset_left _ h.returned

/-- The node returned leaves the history, wherever it stood. -/
theorem Hist.Inv.removed (h : t.Inv) (hwf : s.WF) {user : CStr} (hrem : Removed t.store user s) :
    Hist.Inv ⟨s, t.returned ++ ((Fcfs.find owner t.store.queue user).map Prod.fst).toList⟩ := by
  cases hf : Fcfs.find owner t.store.queue user with
  | none =>
    refine ⟨hwf, ?_, ?_⟩
    · show s.queue.map Prod.fst = Fcfs.waiting s.heap.allocated (t.returned ++ [])
      rw [hrem.queue, Fcfs.cancel_of_find_none hf, hrem.allocated, h.waiting, List.append_nil]
    · show t.returned ++ [] ⊆ s.heap.allocated
      rw [List.append_nil, hrem.allocated]
      exact h.returned
  | some x =>
    obtain ⟨a, e⟩ := x
    obtain ⟨hu, l, r, hq, hl⟩ := Fcfs.find_eq_some.mp hf
    have hnd := h.wf.nodup
    have hmem : a ∈ t.store.queue.map Prod.fst := by rw [hq]; simp
    refine ⟨hwf, ?_, ?_⟩
    · show s.queue.map Prod.fst = Fcfs.waiting s.heap.allocated (t.returned ++ [a])
      rw [hrem.allocated, Fcfs.waiting_leave t.store.heap.nodup, ← h.waiting, hrem.queue, hq,
        Fcfs.cancel_split hu hl]
      rw [hq] at hnd
      simp only [List.map_append, List.map_cons] at hnd ⊢
      have ha : a ∉ l.map Prod.fst := fun hm => (List.nodup_append.mp hnd).2.2 a hm a (by simp) rfl
      rw [List.erase_append_right _ ha, List.erase_cons_head]
    · show t.returned ++ [a] ⊆ s.heap.allocated
      rw [hrem.allocated]
      exact List.append_subset.mpr ⟨h.returned, by simpa using h.wf.allocated hmem⟩

theorem Hist.Inv.call {c : Call} (h : t.Inv) (hc : t.call M c = .ok t') : t'.Inv := by
  obtain ⟨⟨p, s⟩, hx, ht⟩ := seq_ok.mp hc
  cases c with
  | create entryData =>
    cases ht
    obtain ⟨hwf, ⟨-, rfl, -⟩ | ⟨hadd, -⟩⟩ := create_ok h.wf hx
    · exact h
    · exact h.added hwf hadd
  | delete user =>
    cases ht
    obtain ⟨hwf, rfl, hrem⟩ := delete_ok h.wf hx
    exact h.removed hwf hrem

/-- Nodes once returned stay returned. -/
theorem Hist.call_returned {c : Call} (hc : t.call M c = .ok t') : t.returned ⊆ t'.returned := by
  obtain ⟨⟨p, s⟩, -, ht⟩ := seq_ok.mp hc
  cases c with
  | create entryData => cases ht; exact List.Subset.refl _
  | delete user => cases ht; exact List.subset_append_left _ _

theorem Hist.session_ok :
    t.session M entryData = .ok t' ↔
      ∃ p s s', dispatch M t.store entryData = .ok (p, s) ∧ updateReservation s = .ok s' ∧
        t' = ⟨s', if entryData 0 = DELETE then t.returned ++ p.toList else t.returned⟩ := by
  unfold Hist.session
  rw [seq_ok]
  constructor
  · rintro ⟨⟨p, s⟩, hd, h⟩
    obtain ⟨s', hu, ht⟩ := seq_ok.mp h
    cases ht
    exact ⟨p, s, s', hd, hu, rfl⟩
  · rintro ⟨p, s, s', hd, hu, rfl⟩
    refine ⟨(p, s), hd, ?_⟩
    simp only [hu, ok_seq]

theorem Hist.Inv.session (h : t.Inv) (hc : t.session M entryData = .ok t') : t'.Inv := by
  obtain ⟨p, s, s', hd, hu, rfl⟩ := Hist.session_ok.mp hc
  have hmid : Hist.Inv
      ⟨s, if entryData 0 = DELETE then t.returned ++ p.toList else t.returned⟩ := by
    obtain ⟨hwf, ⟨hcmd, hadd, -⟩ | ⟨hcmd, rfl, hrem⟩ | ⟨hcmd, -, rfl, -⟩⟩ := dispatch_ok h.wf hd
    · rw [if_neg (by rw [hcmd]; decide)]
      exact h.added hwf hadd
    · rw [if_pos hcmd]
      exact h.removed hwf hrem
    · rw [if_neg hcmd]
      exact h
  obtain ⟨hwf', hq, hheap, -, -⟩ := update_ok hmid.wf hu
  refine ⟨hwf', ?_, ?_⟩
  · exact (congrArg (List.map Prod.fst) hq).trans (hheap ▸ hmid.waiting)
  · exact hheap ▸ hmid.returned

end

/-! ## The list in every reachable state -/

/-- **The list.** After any run of calls that dereferences no NULL pointer the
list is a finite chain of distinct nodes that ends in NULL: the nodes allocated
and not returned, in order of allocation. No node returned along the run is on
it, and every traversal ends. -/
theorem list_of_history (M : Malloc Addr) (calls : List Call) (t : Hist)
    (h : runFrom (Hist.call M) Hist.init calls = .ok t) :
    Chain UserReservation.next t.store.heap t.store.head t.store.nodes ∧
      (t.store.nodes.map Prod.fst).Nodup ∧
      t.store.nodes.map Prod.fst = t.store.heap.allocated.filter (· ∉ t.returned) ∧
      (∀ t₁, Reaches (Hist.call M) Hist.init calls t₁ →
        ∀ a ∈ t₁.returned, a ∉ t.store.nodes.map Prod.fst) ∧
      (∀ user, ∃ p, searchReservation t.store user = .ok p) ∧
      (∃ us, printReservations t.store = .ok us) ∧
      (∀ user, ∃ x, deleteReservation t.store user = .ok x) ∧
      (∀ entryData f, createReservation M t.store entryData = .error f → f = .nullDeref) := by
  have hstep : ∀ t c t', Hist.Inv t → Hist.call M t c = .ok t' → Hist.Inv t' :=
    fun t c t' => Hist.Inv.call
  have hinv : t.Inv := runFrom_inv hstep Hist.inv_init h
  have hwait := hinv.waiting
  rw [Store.map_fst_queue] at hwait
  refine ⟨hinv.wf.chain_head, hinv.wf.chain_head.nodup, hwait, ?_,
    fun user => ⟨_, search_spec hinv.wf user⟩,
    ⟨_, print_spec hinv.wf⟩, fun user => ?_, fun entryData f hf => ?_⟩
  · rintro t₁ ⟨pre, ⟨post, rfl⟩, h₁⟩ a ha hmem
    obtain ⟨t₂, h₂, hpost⟩ := runFrom_append_ok.mp h
    cases h₁.symm.trans h₂
    have hkeep : ∀ t' c t'', t₁.returned ⊆ t'.returned → Hist.call M t' c = .ok t'' →
        t₁.returned ⊆ t''.returned := fun t' c t'' hs hc => List.Subset.trans hs (Hist.call_returned hc)
    have hsub := runFrom_inv hkeep (List.Subset.refl _) hpost
    rw [hwait] at hmem
    exact (Fcfs.mem_waiting.mp hmem).2 (hsub ha)
  · obtain ⟨s', hs', -⟩ := delete_spec hinv.wf user
    exact ⟨_, hs'⟩
  · exact (create_error hinv.wf hf).1

/-- Two reservations, the first of them cancelled: the second node is left. -/
theorem list_of_history_run :
    ∃ t, runFrom (Hist.call Malloc.next) Hist.init
        [.create (rowsOf [CREATE, lit "alice"]), .create (rowsOf [CREATE, lit "bob"]),
          .delete (lit "alice")] = .ok t ∧
      t.returned = [1] ∧ t.store.nodes.map Prod.fst = [2] ∧
      t.store.nodes.map Prod.fst = t.store.heap.allocated.filter (· ∉ t.returned) := by
  obtain ⟨t, ht⟩ : ∃ t, runFrom (Hist.call Malloc.next) Hist.init
      [.create (rowsOf [CREATE, lit "alice"]), .create (rowsOf [CREATE, lit "bob"]),
        .delete (lit "alice")] = .ok t := ⟨_, rfl⟩
  have hlist := (list_of_history Malloc.next _ t ht).2.2.1
  refine ⟨t, ht, ?_, ?_, hlist⟩
  · cases ht; rfl
  · cases ht; rfl

/-! ## The holder between sessions -/

/-- `USER` and `LOCKED` show the head of the list. -/
structure Hist.Fresh (t : Hist) : Prop where
  inv : t.Inv
  shown : ∀ r, t.store.reservations = some r →
    ∃ x q, t.store.queue = x :: q ∧ r.LOCKED = some 1 ∧ r.USER = some (owner x)

theorem Hist.fresh_init : Hist.init.Fresh := ⟨Hist.inv_init, nofun⟩

/-- Every session that completes has refreshed them. -/
theorem Hist.session_fresh {M : Malloc Addr} {t t' : Hist} {entryData : EntryData} (h : t.Inv)
    (hc : t.session M entryData = .ok t') : t'.Fresh := by
  have hinv := h.session hc
  obtain ⟨p, s, s', hd, hu, rfl⟩ := Hist.session_ok.mp hc
  obtain ⟨-, hq, -, -, hshown⟩ := update_ok (dispatch_ok h.wf hd).1 hu
  refine ⟨hinv, fun r hr => ?_⟩
  obtain ⟨x, q, hx, hlock, huser⟩ := hshown r hr
  exact ⟨x, q, hq.trans hx, hlock, huser⟩

/-- **The holder.** At the end of every session that completes with a list,
`LOCKED` says whether the list holds anybody and `USER` is the user of the
oldest reservation that was not deleted since. -/
theorem holder_of_history (M : Malloc Addr) (l : List EntryData) (t : Hist) (r : LockerReservations)
    (h : runFrom (Hist.session M) Hist.init l = .ok t) (hr : t.store.reservations = some r) :
    (t.store.nodes = [] → r.LOCKED = some 0) ∧
      (t.store.nodes ≠ [] → r.LOCKED = some 1 ∧
        ∃ a node, (t.store.heap.allocated.filter (· ∉ t.returned)).head? = some a ∧
          t.store.heap.cell a = some node ∧ r.USER = some node.user) := by
  have hstep : ∀ t rows t', Hist.Fresh t → Hist.session M t rows = .ok t' → Hist.Fresh t' :=
    fun t rows t' ht => Hist.session_fresh ht.inv
  have hfresh : t.Fresh := runFrom_inv hstep Hist.fresh_init h
  obtain ⟨x, q, hq, hlock, huser⟩ := hfresh.shown r hr
  obtain ⟨⟨a, node⟩, rest, hn, rfl, rfl⟩ := List.map_eq_cons_iff.mp hq
  have hc := hfresh.inv.wf.chain_head
  have hwait := hfresh.inv.waiting
  rw [Store.map_fst_queue, hn, List.map_cons, Fcfs.waiting] at hwait
  refine ⟨fun hnil => ?_, fun _ => ⟨hlock, a, node, ?_, hc.cell (by rw [hn]; simp), huser⟩⟩
  · rw [hn] at hnil
    cases hnil
  · rw [← hwait]; rfl

/-- Alice, Bob, then Alice cancels: the locker passes to Bob. -/
theorem holder_of_history_run :
    ∃ t r, runFrom (Hist.session Malloc.next) Hist.init
        [rowsOf [CREATE, lit "alice"], rowsOf [CREATE, lit "bob"],
          rowsOf [DELETE, lit "alice"]] = .ok t ∧
      t.store.reservations = some r ∧ r.USER = some (lit "bob") ∧ r.LOCKED = some 1 := by
  obtain ⟨t, ht⟩ : ∃ t, runFrom (Hist.session Malloc.next) Hist.init
      [rowsOf [CREATE, lit "alice"], rowsOf [CREATE, lit "bob"],
        rowsOf [DELETE, lit "alice"]] = .ok t := ⟨_, rfl⟩
  obtain ⟨r, hr⟩ : ∃ r, t.store.reservations = some r := by cases ht; exact ⟨_, rfl⟩
  have hholder := holder_of_history Malloc.next _ t r ht hr
  have hnodes : t.store.nodes ≠ [] := by cases ht; decide
  refine ⟨t, r, ht, hr, ?_, (hholder.2 hnodes).1⟩
  cases ht
  cases hr
  rfl

end CryptoLocker
