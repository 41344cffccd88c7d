import CryptoLocker.Lib.Fcfs
import CryptoLocker.Lib.Runs
import CryptoLocker.Server.Reservations

/-!
# The list as a queue

`Store.queue` reads the abstract queue off a store: the entries on the list
with their addresses, from the head. `Store.WF` says the list ends in NULL.
Each function of the list has one lemma that says what it does to the queue
(`search_spec`, `print_spec`, the `create_…` lemmas, `delete_spec`,
`update_cons`); nothing above this module unfolds them.
-/

namespace CryptoLocker

open Lib

/-- What a reservation says, without its link. -/
structure Entry where
  user : CStr
  startTime : CStr
  endTime : CStr
  durationHours : Int
  deriving DecidableEq

def UserReservation.entry (n : UserReservation) : Entry :=
  ⟨n.user, n.startTime, n.endTime, n.durationHours⟩

/-- Reservations in list order, each with the address that identifies it. -/
abbrev Queue := List (Addr × Entry)

/-- The user a reservation belongs to. -/
def owner (x : Addr × Entry) : CStr := x.2.user

def queueOf (l : List (Addr × UserReservation)) : Queue := l.map fun x => (x.1, x.2.entry)

def Store.queue (s : Store) : Queue := queueOf s.nodes

/-- The list, if there is one, ends in NULL. -/
def Store.WF (s : Store) : Prop :=
  ∀ r, s.reservations = some r → ∃ l, Chain UserReservation.next s.heap r.head l

/-- The entry `create_reservation` stores first. -/
def firstEntry (entryData : EntryData) : Entry :=
  ⟨entryData 1, entryData 3, entryData 3, atoi (entryData 7)⟩

/-- The entry `create_reservation` appends. -/
def appendEntry (entryData : EntryData) : Entry :=
  ⟨entryData 1, entryData 2, entryData 3, atoi (entryData 7)⟩

@[simp] theorem queueOf_append (l₁ l₂ : List (Addr × UserReservation)) :
    queueOf (l₁ ++ l₂) = queueOf l₁ ++ queueOf l₂ := List.map_append

@[simp] theorem queueOf_cons (x : Addr × UserReservation) (l : List (Addr × UserReservation)) :
    queueOf (x :: l) = (x.1, x.2.entry) :: queueOf l := rfl

@[simp] theorem queueOf_nil : queueOf [] = [] := rfl

theorem Store.map_fst_queue (s : Store) : s.queue.map Prod.fst = s.nodes.map Prod.fst := by
  simp [Store.queue, queueOf]

theorem Store.map_owner_queue (s : Store) : s.queue.map owner = s.users := by
  simp [Store.queue, queueOf, Store.users, owner, UserReservation.entry]

theorem Store.nodes_null {s : Store} (hr : s.reservations = none) : s.nodes = [] := by
  simp [Store.nodes, hr]

theorem Store.queue_null {s : Store} (hr : s.reservations = none) : s.queue = [] := by
  rw [Store.queue, Store.nodes_null hr]; rfl

theorem Store.isSome_of_queue {s : Store} (hq : s.queue ≠ []) : s.reservations.isSome := by
  rw [← Option.ne_none_iff_isSome]
  exact fun hr => hq (Store.queue_null hr)

theorem Store.wf_null {s : Store} (hr : s.reservations = none) : s.WF :=
  fun _ h => absurd (hr.symm.trans h) nofun

theorem Store.wf_init : Store.init.WF := Store.wf_null rfl

/-- The chain of a store is its list of nodes. -/
theorem Store.nodes_of_chain {s : Store} {r : LockerReservations}
    {l : List (Addr × UserReservation)} (hr : s.reservations = some r)
    (hc : Chain UserReservation.next s.heap r.head l) : s.nodes = l := by
  simp only [Store.nodes, hr]
  exact hc.walk_eq hc.length_le

theorem Store.WF.chain {s : Store} (hwf : s.WF) {r : LockerReservations}
    (hr : s.reservations = some r) : Chain UserReservation.next s.heap r.head s.nodes := by
  obtain ⟨l, hc⟩ := hwf r hr
  rwa [Store.nodes_of_chain hr hc]

/-- A store put together from a heap and a chain in it. -/
theorem Store.mk_chain {h : Heap Addr UserReservation} (r : LockerReservations)
    {l : List (Addr × UserReservation)} (hc : Chain UserReservation.next h r.head l) :
    (Store.mk h (some r)).WF ∧ (Store.mk h (some r)).queue = queueOf l := by
  refine ⟨fun r' hr' => ?_, ?_⟩
  · cases hr'
    exact ⟨l, hc⟩
  · rw [Store.queue, Store.nodes_of_chain rfl hc]

theorem Store.WF.nodup {s : Store} (hwf : s.WF) : (s.queue.map Prod.fst).Nodup := by
  rw [Store.map_fst_queue]
  cases hr : s.reservations with
  | none => rw [Store.nodes_null hr]; exact List.nodup_nil
  | some r => exact (hwf.chain hr).nodup

theorem Store.WF.allocated {s : Store} (hwf : s.WF) {a : Addr} (ha : a ∈ s.queue.map Prod.fst) :
    a ∈ s.heap.allocated := by
  rw [Store.map_fst_queue] at ha
  cases hr : s.reservations with
  | none => rw [Store.nodes_null hr] at ha; cases ha
  | some r => exact (hwf.chain hr).allocated ha

/-! ## The loops along a chain -/

section
variable {h : Heap Addr UserReservation} {p : Ptr} {l : List (Addr × UserReservation)} {n : Nat}

theorem deref_chain {a : Addr} {node : UserReservation}
    (hc : Chain UserReservation.next h p ((a, node) :: l)) : deref h p = .ok node := by
  obtain ⟨rfl, hcell, -⟩ := hc
  simp only [deref, hcell]

theorem printLoop_chain (hc : Chain UserReservation.next h p l) (hn : l.length ≤ n) :
    printLoop h n p = .ok (l.map (·.2.user)) := by
  induction l generalizing p n with
  | nil =>
    obtain rfl : p = none := hc
    cases n <;> rfl
  | cons x l ih =>
    obtain ⟨a, node⟩ := x
    have hd := deref_chain hc
    obtain ⟨rfl, -, hl⟩ := hc
    rcases n with _ | n
    · exact absurd hn (by simp)
    · simp only [printLoop, hd, ok_seq, ih hl (Nat.le_of_succ_le_succ hn), List.map_cons]

theorem searchLoop_chain {user : CStr} (hc : Chain UserReservation.next h p l) (hn : l.length ≤ n) :
    searchLoop h user n p = .ok ((Fcfs.find owner (queueOf l) user).map Prod.fst) := by
  induction l generalizing p n with
  | nil =>
    obtain rfl : p = none := hc
    cases n <;> rfl
  | cons x l ih =>
    obtain ⟨a, node⟩ := x
    have hd := deref_chain hc
    obtain ⟨rfl, -, hl⟩ := hc
    rcases n with _ | n
    · exact absurd hn (by simp)
    · have hstep : searchLoop h user (n + 1) (some a) =
          if strcmp node.user user = 0 then .ok (some a) else searchLoop h user n node.next := by
        simp only [searchLoop, hd, ok_seq]
      rw [hstep, ih hl (Nat.le_of_succ_le_succ hn)]
      by_cases hu : node.user = user
      · simp [hu, Fcfs.find, owner, UserReservation.entry]
      · simp [hu, Fcfs.find, owner, UserReservation.entry]

theorem lastLoop_chain {a : Addr} {node : UserReservation}
    (hc : Chain UserReservation.next h p (l ++ [(a, node)])) (hn : l.length < n) :
    lastLoop h n p = .ok (some a) := by
  induction l generalizing p n with
  | nil =>
    have hd := deref_chain hc
    obtain ⟨rfl, -, hnext⟩ := hc
    obtain ⟨n, rfl⟩ : ∃ m, n = m + 1 := ⟨n - 1, by simp at hn; omega⟩
    replace hnext : node.next = none := hnext
    simp only [lastLoop, hd]
    exact if_pos hnext
  | cons x l ih =>
    obtain ⟨c, b⟩ := x
    have hd := deref_chain hc
    obtain ⟨rfl, -, hl⟩ := hc
    obtain ⟨n, rfl⟩ : ∃ m, n = m + 1 := ⟨n - 1, by omega⟩
    -- the link of `c` starts a chain that is not empty
    have hlink : b.next ≠ none := by
      rw [hl.start]; simp
    have hrec := ih hl (Nat.lt_of_succ_lt_succ hn)
    simp only [lastLoop, hd]
    exact (if_neg hlink).trans hrec

/-- The loop of `delete_reservation` stops at the first node of `user`, with
`prev` behind it and `next` past it. -/
theorem deleteLoop_chain {user : CStr} {pre post : List (Addr × UserReservation)} {prev : Ptr}
    {a c : Addr} {node b : UserReservation}
    (hl : (c, b) :: l = pre ++ (a, node) :: post)
    (hc : Chain UserReservation.next h (some c) ((c, b) :: l))
    (hpre : ∀ x ∈ pre, x.2.user ≠ user) (hu : node.user = user) (hn : pre.length < n) :
    deleteLoop h user n prev (some c) b.next =
      .ok ((pre.getLast?.map Prod.fst).or prev, some a, node.next) := by
  induction pre generalizing prev c b l n with
  | nil =>
    obtain ⟨n, rfl⟩ : ∃ m, n = m + 1 := ⟨n - 1, by simp at hn; omega⟩
    cases hl
    simp only [deleteLoop, deref_chain hc]
    exact if_neg fun hne => hne.1 (strcmp_eq_zero.mpr hu)
  | cons x pre ih =>
    obtain ⟨n, rfl⟩ : ∃ m, n = m + 1 := ⟨n - 1, by omega⟩
    obtain ⟨hx, rfl⟩ := List.cons.inj hl
    subst hx
    have hb : strcmp b.user user ≠ 0 := fun e => hpre _ List.mem_cons_self (strcmp_eq_zero.mp e)
    have hd := deref_chain hc
    -- the rest of the chain still holds the node searched for
    obtain ⟨⟨c', b'⟩, l', hl'⟩ : ∃ y l', pre ++ (a, node) :: post = y :: l' := by
      cases pre with
      | nil => exact ⟨_, _, rfl⟩
      | cons y pre => exact ⟨_, _, rfl⟩
    have hrest : Chain UserReservation.next h b.next ((c', b') :: l') := hl' ▸ hc.2.2
    have hnext : b.next = some c' := hrest.1
    have hrec : deleteLoop h user n (some c) (some c') b'.next =
        .ok ((pre.getLast?.map Prod.fst).or (some c), some a, node.next) :=
      ih hl'.symm (hnext ▸ hrest) (fun y hy => hpre y (List.mem_cons_of_mem _ hy))
        (Nat.lt_of_succ_lt_succ hn)
    have hd' := deref_chain hrest
    have hstep : deleteLoop h user (n + 1) prev (some c) b.next =
        deleteLoop h user n (some c) b.next b'.next := by
      simp only [deleteLoop, hd, hd', ok_seq]
      exact if_pos ⟨hb, nofun⟩
    have hlast : (pre.getLast?.map Prod.fst).or (some c) =
        (((c, b) :: pre).getLast?.map Prod.fst).or prev := by
      rcases List.eq_nil_or_concat' pre with rfl | ⟨pre', y, rfl⟩
      · rfl
      · simp [List.getLast?_cons]
    rw [hstep, hnext, hrec, hlast]

end

/-! ## What the functions do to the queue -/

section
variable {s : Store}

theorem search_spec (hwf : s.WF) (user : CStr) :
    searchReservation s user = .ok ((Fcfs.find owner s.queue user).map Prod.fst) := by
  unfold searchReservation
  split
  · next hr => rw [Store.queue_null hr]; rfl
  · next r hr =>
    have hc := hwf.chain hr
    exact searchLoop_chain hc hc.length_le

theorem print_spec (hwf : s.WF) : printReservations s = .ok s.users := by
  unfold printReservations
  split
  · next hr => rw [Store.users, Store.nodes_null hr]; rfl
  · next r hr =>
    have hc := hwf.chain hr
    exact printLoop_chain hc hc.length_le

variable (M : Malloc Addr) (entryData : EntryData) {r : LockerReservations}

/-- The first entry becomes the list; NULL is returned for it. -/
theorem create_first (hr : s.reservations = none) :
    ∃ s', createReservation M s entryData = .ok (none, s') ∧ s'.WF ∧
      s'.reservations = some ⟨some (M.pick s.heap.allocated), none, none⟩ ∧
      s'.queue = [(M.pick s.heap.allocated, firstEntry entryData)] ∧
      s'.heap.allocated = s.heap.allocated ++ [M.pick s.heap.allocated] := by
  let node : UserReservation :=
    ⟨entryData 1, entryData 3, entryData 3, atoi (entryData 7), none⟩
  have hc : Chain UserReservation.next (s.heap.alloc M node) (some (M.pick s.heap.allocated))
      [(M.pick s.heap.allocated, node)] := ⟨rfl, Heap.cell_alloc_self M s.heap node, rfl⟩
  obtain ⟨hwf, hq⟩ := Store.mk_chain ⟨_, none, none⟩ hc
  unfold createReservation
  simp only [hr]
  exact ⟨_, rfl, hwf, rfl, hq, rfl⟩

/-- On a list that was emptied the walk to the last node starts at NULL. -/
theorem create_emptied (hr : s.reservations = some r) (hwf : s.WF) (hq : s.queue = []) :
    createReservation M s entryData = .error .nullDeref := by
  have hhead : r.head = none := by
    have hn : s.nodes = [] := List.map_eq_nil_iff.mp hq
    rw [(hwf.chain hr).start, hn]; rfl
  unfold createReservation
  simp only [hr, search_spec hwf, hq, hhead, ok_seq]
  cases s.heap.allocated.length <;> rfl

/-- The search looks at row 0; where it finds a node nothing is stored. -/
theorem create_refused (hr : s.reservations = some r) (hwf : s.WF)
    (hf : entryData 0 ∈ s.users) : createReservation M s entryData = .ok (none, s) := by
  have hne : (Fcfs.find owner s.queue (entryData 0)).map Prod.fst ≠ none := by
    rw [Ne, Option.map_eq_none_iff, Fcfs.find_eq_none, Store.map_owner_queue]
    exact fun h => h hf
  unfold createReservation
  simp only [hr, search_spec hwf, ok_seq]
  exact if_neg hne

/-- The new node goes behind the last one. -/
theorem create_append (hr : s.reservations = some r) (hwf : s.WF) (hq : s.queue ≠ [])
    (hf : entryData 0 ∉ s.users) :
    ∃ s', createReservation M s entryData = .ok (some (M.pick s.heap.allocated), s') ∧ s'.WF ∧
      s'.reservations = some r ∧
      s'.queue = s.queue ++ [(M.pick s.heap.allocated, appendEntry entryData)] ∧
      s'.heap.allocated = s.heap.allocated ++ [M.pick s.heap.allocated] := by
  have hfind : (Fcfs.find owner s.queue (entryData 0)).map Prod.fst = none := by
    rwa [Option.map_eq_none_iff, Fcfs.find_eq_none, Store.map_owner_queue]
  have hnodes : s.nodes ≠ [] := fun h => hq (by rw [Store.queue, h]; rfl)
  obtain ⟨l, ⟨a, node⟩, hl⟩ := (List.eq_nil_or_concat' s.nodes).resolve_left hnodes
  have hc : Chain UserReservation.next s.heap r.head (l ++ [(a, node)]) := hl ▸ hwf.chain hr
  have hlen : l.length < s.heap.allocated.length := by
    have := hc.length_le
    simp only [List.length_append, List.length_cons, List.length_nil] at this
    omega
  unfold createReservation
  simp only [hr, search_spec hwf, hfind, ok_seq, if_true, lastLoop_chain hc hlen, setNext]
  refine ⟨_, rfl, ?_⟩
  have hnew := hc.append M ⟨entryData 1, entryData 2, entryData 3, atoi (entryData 7), none⟩
    (fun n => { n with next := some (M.pick s.heap.allocated) }) rfl rfl
  obtain ⟨hwf', hq'⟩ := Store.mk_chain r hnew
  refine ⟨hwf', rfl, hq'.trans ?_, rfl⟩
  rw [Store.queue, hl]
  simp [UserReservation.entry, appendEntry]

/-- The node a search finds, with no node of the user in front of it. -/
theorem find_nodes {user : CStr} {x : Addr × Entry} (hf : Fcfs.find owner s.queue user = some x) :
    ∃ pre a node post, s.nodes = pre ++ (a, node) :: post ∧ x = (a, node.entry) ∧
      node.user = user ∧ ∀ y ∈ pre, y.2.user ≠ user := by
  obtain ⟨hu, l, r, hl, hpre⟩ := Fcfs.find_eq_some.mp hf
  obtain ⟨pre, rest, hn, rfl, hrest⟩ := List.map_eq_append_iff.mp hl
  obtain ⟨⟨a, node⟩, post, rfl, rfl, rfl⟩ := List.map_eq_cons_iff.mp hrest
  exact ⟨pre, a, node, post, hn, rfl, hu, fun y hy => hpre _ (List.mem_map_of_mem hy)⟩

/-- Without a node of the user nothing is deleted. -/
theorem delete_absent (hwf : s.WF) {user : CStr} (hu : user ∉ s.users) :
    deleteReservation s user = .ok (none, s) := by
  have hf : Fcfs.find owner s.queue user = none := by
    rwa [Fcfs.find_eq_none, Store.map_owner_queue]
  unfold deleteReservation
  split
  · rfl
  · rw [search_spec hwf, hf]
    rfl

/-- The head is the one: the list starts behind it. -/
theorem delete_head (hr : s.reservations = some r) (hwf : s.WF) {user : CStr} {a : Addr}
    {node : UserReservation} {post : List (Addr × UserReservation)}
    (hf : Fcfs.find owner s.queue user = some (a, node.entry))
    (hl : s.nodes = (a, node) :: post) (hu : node.user = user) :
    ∃ s', deleteReservation s user = .ok (some a, s') ∧ s'.WF ∧ s'.queue = queueOf post ∧
      s'.reservations.isSome = s.reservations.isSome ∧
      s'.heap.allocated = s.heap.allocated := by
  have hc := hl ▸ hwf.chain hr
  obtain ⟨hwf', hq'⟩ := Store.mk_chain { r with head := node.next } hc.2.2
  unfold deleteReservation
  simp only [hr, search_spec hwf, hf, ok_seq, Option.map_some, reduceCtorEq, if_false]
  rw [deref_chain hc, ok_seq, if_pos (strcmp_eq_zero.mpr hu), hc.start]
  exact ⟨_, rfl, hwf', hq', rfl, rfl⟩

/-- The loop stops at the first node of the user; the one in front of it is linked past it. -/
theorem delete_behind (hr : s.reservations = some r) (hwf : s.WF) {user : CStr} {a b : Addr}
    {node before : UserReservation} {pre post : List (Addr × UserReservation)}
    (hf : Fcfs.find owner s.queue user = some (a, node.entry))
    (hl : s.nodes = pre ++ [(b, before)] ++ (a, node) :: post) (hu : node.user = user)
    (hpre : ∀ y ∈ pre ++ [(b, before)], y.2.user ≠ user) :
    ∃ s', deleteReservation s user = .ok (some a, s') ∧ s'.WF ∧
      s'.queue = queueOf (pre ++ [(b, before)] ++ post) ∧
      s'.reservations.isSome = s.reservations.isSome ∧
      s'.heap.allocated = s.heap.allocated := by
  have hc := hl ▸ hwf.chain hr
  obtain ⟨⟨c, first⟩, rest, hfirst, hmem⟩ :
      ∃ y rest, y :: rest = pre ++ [(b, before)] ++ (a, node) :: post ∧
        y ∈ pre ++ [(b, before)] := by
    cases pre with
    | nil => exact ⟨_, _, rfl, List.mem_cons_self⟩
    | cons y pre => exact ⟨_, _, rfl, List.mem_cons_self⟩
  have hne : strcmp first.user user ≠ 0 := fun e => hpre _ hmem (strcmp_eq_zero.mp e)
  have hlen := hc.length_le
  simp only [List.length_append, List.length_cons, List.length_nil] at hlen
  have hun := Chain.unlink (fun n => { n with next := node.next })
    (show Chain _ _ _ (pre ++ (b, before) :: (a, node) :: post) by simpa using hc) rfl
  obtain ⟨hwf', hq'⟩ := Store.mk_chain r hun
  rw [← hfirst] at hc
  have hhead : r.head = some c := hc.1
  have hloop : deleteLoop s.heap user s.heap.allocated.length none (some c) first.next =
      .ok (some b, some a, node.next) := by
    have hn : (pre ++ [(b, before)]).length < s.heap.allocated.length := by
      simp only [List.length_append, List.length_cons, List.length_nil]; omega
    rw [deleteLoop_chain hfirst (hhead ▸ hc) hpre hu hn]
    simp
  unfold deleteReservation
  simp only [hr, search_spec hwf, hf, ok_seq, Option.map_some, reduceCtorEq, if_false]
  rw [deref_chain hc, ok_seq, if_neg hne, hhead, hloop]
  refine ⟨_, rfl, hwf', ?_, rfl, rfl⟩
  rw [hq']
  simp [UserReservation.entry]

/-- `delete_reservation` takes out the first node of the user and returns it. -/
theorem delete_spec (hwf : s.WF) (user : CStr) :
    ∃ s', deleteReservation s user = .ok ((Fcfs.find owner s.queue user).map Prod.fst, s') ∧
      s'.WF ∧ s'.queue = Fcfs.cancel owner s.queue user ∧
      s'.reservations.isSome = s.reservations.isSome ∧
      s'.heap.allocated = s.heap.allocated := by
  cases hf : Fcfs.find owner s.queue user with
  | none =>
    have hu : user ∉ s.users := by
      rwa [Fcfs.find_eq_none, Store.map_owner_queue] at hf
    exact ⟨s, delete_absent hwf hu, hwf, (Fcfs.cancel_of_find_none hf).symm, rfl, rfl⟩
  | some x =>
    cases hr : s.reservations with
    | none =>
      rw [Store.queue_null hr] at hf
      cases hf
    | some r =>
      obtain ⟨pre, a, node, post, hl, rfl, hu, hpre⟩ := find_nodes hf
      have hpre' : ∀ y ∈ queueOf pre, owner y ≠ user := by
        intro y hy
        obtain ⟨z, hz, rfl⟩ := List.mem_map.mp hy
        exact hpre z hz
      have hcancel : Fcfs.cancel owner s.queue user = queueOf (pre ++ post) := by
        rw [Store.queue, hl, queueOf_append, queueOf_cons, queueOf_append]
        exact Fcfs.cancel_split hu hpre'
      rw [hcancel, ← hr]
      rcases List.eq_nil_or_concat' pre with rfl | ⟨pre, ⟨b, before⟩, rfl⟩
      · exact delete_head hr hwf hf hl hu
      · exact delete_behind hr hwf hf hl hu hpre

/-- Without a list there is nothing to refresh. -/
theorem update_null (hr : s.reservations = none) : updateReservation s = .ok s := by
  simp [updateReservation, hr]

/-- On an emptied list the refresh reads `head->user` through NULL. -/
theorem update_emptied (hr : s.reservations = some r) (hwf : s.WF) (hq : s.queue = []) :
    updateReservation s = .error .nullDeref := by
  have hhead : r.head = none := by
    have hn : s.nodes = [] := List.map_eq_nil_iff.mp hq
    rw [(hwf.chain hr).start, hn]; rfl
  simp [updateReservation, hr, hhead, deref]

/-- The refresh copies the head's user. -/
theorem update_cons {x : Addr × Entry} {q : Queue} (hr : s.reservations = some r) (hwf : s.WF)
    (hq : s.queue = x :: q) :
    updateReservation s =
      .ok { s with reservations := some { r with LOCKED := some 1, USER := some (owner x) } } := by
  have hc := hwf.chain hr
  obtain ⟨⟨a, node⟩, l, hl, hx⟩ : ∃ y l, s.nodes = y :: l ∧ (y.1, y.2.entry) = x := by
    rw [Store.queue, queueOf, List.map_eq_cons_iff] at hq
    obtain ⟨y, l, hl, hx, -⟩ := hq
    exact ⟨y, l, hl, hx⟩
  rw [hl] at hc
  have hhead : r.head ≠ none := by rw [hc.1]; nofun
  subst hx
  unfold updateReservation
  simp only [hr, deref_chain hc, ok_seq]
  exact if_neg hhead

end

end CryptoLocker
