import CryptoLocker.Server.Segments

/-!
# The reservations allocated

No `struct user_reservation` is ever freed, and what it says is written once.
Over every run, whatever is received, each stays allocated with its user, times
and duration, on the list or off it; only its link changes. At most one is
allocated for each CREATE served (`reservations_kept`). The strings and the list header,
which have blocks of their own, are values here.
-/

namespace CryptoLocker

open Lib

/-- The reservations allocated in `s` are so in `s'` and say the same, links apart. -/
def Store.Keeps (s s' : Store) : Prop := s.heap.Keeps UserReservation.entry s'.heap

/-- The number of `struct user_reservation` allocated. -/
def Store.structs (s : Store) : Nat := s.heap.allocated.length

/-- The CREATEs among the calls served. -/
def creates (served : List Served) : Nat := served.countP fun call => call.rows 0 = CREATE

section
variable {M : Malloc Addr} {s s' : Store} {rows : EntryData} {p : Ptr}

theorem setNext_keeps {h h' : Heap Addr UserReservation} {p q : Ptr} (hs : setNext h p q = .ok h') :
    h.Keeps UserReservation.entry h' ∧ h'.allocated = h.allocated := by
  cases p with
  | none => cases hs
  | some a =>
    cases hs
    exact ⟨Heap.keeps_modify h a fun _ => rfl, rfl⟩

/-- A create writes to its own reservation, and to the link of the last. -/
theorem createReservation_keeps (h : createReservation M s rows = .ok (p, s')) :
    s.Keeps s' ∧ s'.structs ≤ s.structs + 1 := by
  have hlen : ∀ node, (s.heap.alloc M node).allocated.length = s.structs + 1 := fun node =>
    List.length_append
  unfold createReservation at h
  cases hr : s.reservations with
  | none =>
    rw [hr] at h
    cases h
    exact ⟨Heap.keeps_alloc M _ _, (hlen _).le⟩
  | some r =>
    rw [hr] at h
    obtain ⟨found, -, h⟩ := seq_ok.mp h
    split at h
    · obtain ⟨cursor, -, h⟩ := seq_ok.mp h
      obtain ⟨heap, hset, h⟩ := seq_ok.mp h
      obtain ⟨hkeeps, halloc⟩ := setNext_keeps hset
      cases h
      exact ⟨(Heap.keeps_alloc M _ _).trans hkeeps, ((congrArg List.length halloc).trans (hlen _)).le⟩
    · cases h
      exact ⟨.refl _, Nat.le_succ _⟩

/-- A deletion writes to the link of one reservation. -/
theorem deleteReservation_keeps {user : CStr} (h : deleteReservation s user = .ok (p, s')) :
    s.Keeps s' ∧ s'.structs = s.structs := by
  unfold deleteReservation at h
  cases hr : s.reservations with
  | none =>
    rw [hr] at h
    cases h
    exact ⟨.refl _, rfl⟩
  | some r =>
    rw [hr] at h
    obtain ⟨found, -, h⟩ := seq_ok.mp h
    split at h
    · cases h
      exact ⟨.refl _, rfl⟩
    · obtain ⟨head, -, h⟩ := seq_ok.mp h
      split at h
      · cases h
        exact ⟨.refl _, rfl⟩
      · obtain ⟨⟨prev, curr, next⟩, -, h⟩ := seq_ok.mp h
        dsimp only at h
        split at h
        · cases h
          exact ⟨.refl _, rfl⟩
        · obtain ⟨heap, hset, h⟩ := seq_ok.mp h
          obtain ⟨hkeeps, halloc⟩ := setNext_keeps hset
          cases h
          exact ⟨hkeeps, congrArg List.length halloc⟩

theorem updateReservation_heap (h : updateReservation s = .ok s') : s'.heap = s.heap := by
  unfold updateReservation at h
  cases hr : s.reservations with
  | none =>
    rw [hr] at h
    cases h
    rfl
  | some r =>
    rw [hr] at h
    obtain ⟨head, -, h⟩ := seq_ok.mp h
    dsimp only at h
    split at h <;> cases h <;> rfl

theorem dispatch_keeps (h : dispatch M s rows = .ok (p, s')) :
    s.Keeps s' ∧ s'.structs ≤ s.structs + if rows 0 = CREATE then 1 else 0 := by
  unfold dispatch at h
  simp only [strcmp_eq_zero] at h
  by_cases hc : rows 0 = CREATE
  · rw [if_pos hc] at h ⊢
    exact createReservation_keeps h
  · rw [if_neg hc] at h ⊢
    by_cases hd : rows 0 = DELETE
    · rw [if_pos hd] at h
      exact (deleteReservation_keeps h).imp_right Eq.le
    · rw [if_neg hd] at h
      have hsame : s' = s := by
        split at h
        · obtain ⟨_, -, h⟩ := seq_ok.mp h
          cases h
          rfl
        · cases h
          rfl
      subst hsame
      exact ⟨.refl _, Nat.le_refl _⟩

theorem session_keeps (h : session M s rows = .ok s') :
    s.Keeps s' ∧ s'.structs ≤ s.structs + if rows 0 = CREATE then 1 else 0 := by
  obtain ⟨p, t, hd, hu⟩ := session_ok.mp h
  obtain ⟨hkeeps, hstructs⟩ := dispatch_keeps hd
  have hheap := updateReservation_heap hu
  exact ⟨by rw [Store.Keeps, hheap]; exact hkeeps, by rw [Store.structs, hheap]; exact hstructs⟩

end

/-- The machine has kept the reservations of `m` and allocated one at most for each CREATE served since. -/
structure Machine.Keeps (m m' : Machine) : Prop where
  reservations : m.server.store.Keeps m'.server.store
  growth : m'.server.store.structs + creates m.served ≤ m.server.store.structs + creates m'.served

section
variable {M : Malloc Addr} {m m' m'' : Machine}

theorem Machine.Keeps.refl (m : Machine) : m.Keeps m := ⟨.refl _, Nat.le_refl _⟩

theorem Machine.Keeps.trans (h : m.Keeps m') (h' : m'.Keeps m'') : m.Keeps m'' := by
  have hgrowth := h.growth
  have hgrowth' := h'.growth
  exact ⟨h.reservations.trans h'.reservations, by omega⟩

/-- A turn of the accept loop leaves the store alone. -/
theorem Machine.Keeps.of_store (hstore : m'.server.store = m.server.store) (hserved : m'.served = m.served) :
    m.Keeps m' := ⟨hstore ▸ .refl _, by rw [hstore, hserved]⟩

theorem Machine.endCall_keeps (m : Machine) {sv : Server} (buf : Buffer) (conns : List AcceptResult)
    (fd : Option Fd) (hstore : sv.store = m.server.store) :
    m.Keeps (Machine.endCall M m.served sv buf conns fd) := by
  have hcreates : ∀ call, creates (m.served ++ [call]) =
      creates m.served + if call.rows 0 = CREATE then 1 else 0 := fun call => by
    simp [creates, List.countP_append, List.countP_singleton]
  unfold Machine.endCall
  cases hfin : finishBuffer M sv buf fd with
  | error f => exact ⟨hstore ▸ .refl _, by
      show sv.store.structs + _ ≤ _ + creates (m.served ++ [⟨conns, buf.row⟩])
      rw [hcreates, hstore]
      omega⟩
  | ok sv' =>
    have hsession : session M sv.store buf.row = .ok sv'.store := by
      unfold finishBuffer at hfin
      split at hfin
      · exact (finish_ok hfin).1
      · cases hfin
    obtain ⟨hkeeps, hstructs⟩ := session_keeps hsession
    rw [hstore] at hkeeps hstructs
    refine ⟨hkeeps, ?_⟩
    show sv'.store.structs + _ ≤ _ + creates (m.served ++ [⟨conns, buf.row⟩])
    rw [hcreates]
    dsimp only
    omega

theorem Machine.keeps_step (m : Machine) (a : AcceptResult) : m.Keeps (m.step M a) := by
  cases hf : m.fault with
  | some f =>
    rw [show m.step M a = m from Machine.run_fault hf [a]]
    exact .refl m
  | none =>
    obtain ⟨r, f, -, -, hstep⟩ | ⟨r, sv, buf, -, hi, hstep⟩ | ⟨sv, buf, fd, hleaves, hstep⟩ :=
      Machine.step_cases M hf a
    · rw [hstep]
      exact .of_store rfl rfl
    · rw [hstep]
      exact .of_store ((iteration_store hi).trans (Server.accept_store _)) rfl
    · rw [hstep]
      exact Machine.endCall_keeps m buf _ fd hleaves.store

theorem Machine.keeps_run (m : Machine) (stream : List AcceptResult) : m.Keeps (m.run M stream) := by
  induction stream generalizing m with
  | nil => exact .refl m
  | cons a stream ih => exact (m.keeps_step a).trans (ih _)

end

/-- **Reservations are kept.** Between any two points of any run, from any store and whatever is received:
every `struct user_reservation` is still allocated and says what it said, links apart, and there is no
more than one more for each CREATE served in between. -/
theorem reservations_kept (M : Malloc Addr) (s : Store) (pre post : List AcceptResult) :
    ((Machine.start (Server.start s) []).run M pre).Keeps
      ((Machine.start (Server.start s) []).run M (pre ++ post)) := by
  rw [Machine.run_append]
  exact Machine.keeps_run _ post

end CryptoLocker
