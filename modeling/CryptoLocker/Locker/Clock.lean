import CryptoLocker.Locker.ReadResponse

/-!
# The timeout of `readResponse`

`millis()` counts milliseconds modulo 2^32. The difference of two ticks is the
time between them as long as that is below 2^32 ms, whether or not the counter
has wrapped (`millis_sub`), so the locker gives up at the first poll without data
after more than 5000 ms and not before (`timeout_across_wrap`).
-/

namespace CryptoLocker

/-- `millis()`, `t` milliseconds after the counter was zero. -/
def millis (t : Nat) : UInt32 := .ofNat t

/-- One test of the wait loop, `elapsed` milliseconds after the wait began. -/
structure Poll where
  available : Nat
  elapsed : Nat

/-- What the loop sees of a poll in a wait that began at time `start`. -/
def Poll.sample (start : Nat) (x : Poll) : Sample := ⟨x.available, millis (start + x.elapsed)⟩

/-- `readResponse` called at time `start`. -/
def respond (start : Nat) (polls : List Poll) (inbox : List UInt8) : Response :=
  readResponse (millis start) (polls.map (Poll.sample start)) inbox

/-- The locker waits through `pre` and stops the client at the poll `x`. -/
def TimesOutAt (start : Nat) (pre : List Poll) (x : Poll) (inbox : List UInt8) : Prop :=
  (respond start pre inbox).wait = .waiting ∧ respond start (pre ++ [x]) inbox = ⟨.timedOut, []⟩

section
variable {timeout : UInt32} {samples rest : List Sample} {start t e : Nat} {polls pre : List Poll}
  {x : Poll} {inbox : List UInt8}

/-- Ticks less than a full turn of the counter apart. -/
theorem millis_sub (he : e < 2 ^ 32) : (millis (t + e) - millis t).toNat = e := by
  have hsub : millis (t + e) - millis t = .ofNat e := by
    rw [millis, millis, Nat.add_comm, UInt32.ofNat_add, UInt32.add_sub_cancel]
  rw [hsub, UInt32.toNat_ofNat_of_lt' he]

theorem late_iff (he : x.elapsed < 2 ^ 32) :
    5000 < (x.sample start).now - millis start ↔ 5000 < x.elapsed := by
  rw [UInt32.lt_iff_toNat_lt, Poll.sample, millis_sub he]
  rfl

/-! ## The loop -/

theorem waitLoop_eq_waiting :
    waitLoop timeout samples = .waiting ↔
      ∀ y ∈ samples, y.available = 0 ∧ ¬ 5000 < y.now - timeout := by
  induction samples with
  | nil => exact iff_of_true rfl nofun
  | cons y samples ih =>
    rw [List.forall_mem_cons, ← ih, waitLoop_cons]
    by_cases hy : y.available = 0
    · by_cases ht : 5000 < y.now - timeout
      · rw [if_pos hy, if_pos ht]
        exact iff_of_false nofun fun h => h.1.2 ht
      · rw [if_pos hy, if_neg ht]
        exact ⟨fun h => ⟨⟨hy, ht⟩, h⟩, And.right⟩
    · rw [if_neg hy]
      exact iff_of_false nofun fun h => hy h.1.1

/-- A loop that waited through `samples` goes on with what follows. -/
theorem waitLoop_append (h : waitLoop timeout samples = .waiting) :
    waitLoop timeout (samples ++ rest) = waitLoop timeout rest := by
  rw [waitLoop_eq_waiting] at h
  induction samples with
  | nil => rfl
  | cons y samples ih =>
    obtain ⟨⟨hy, ht⟩, h⟩ := List.forall_mem_cons.mp h
    rw [List.cons_append, waitLoop_cons, if_pos hy, if_neg ht, ih h]

theorem respond_wait :
    (respond start polls inbox).wait = waitLoop (millis start) (polls.map (Poll.sample start)) := by
  unfold respond readResponse
  split
  · next h => exact h.symm
  · rfl

/-- The locker still waits when no poll saw data and none came after 5000 ms. -/
theorem respond_waiting (start : Nat) (inbox : List UInt8)
    (hturn : ∀ y ∈ polls, y.elapsed < 2 ^ 32) :
    (respond start polls inbox).wait = .waiting ↔
      ∀ y ∈ polls, y.available = 0 ∧ y.elapsed ≤ 5000 := by
  rw [respond_wait, waitLoop_eq_waiting, List.forall_mem_map]
  refine forall₂_congr fun y hy => ?_
  rw [late_iff (hturn y hy), Nat.not_lt]
  rfl

/-- The poll that ends the wait ends it by timeout when it finds no data. -/
theorem respond_snoc_timedOut (hturn : x.elapsed < 2 ^ 32)
    (hpre : (respond start pre inbox).wait = .waiting) :
    respond start (pre ++ [x]) inbox = ⟨.timedOut, []⟩ ↔ x.available = 0 ∧ 5000 < x.elapsed := by
  rw [respond_wait] at hpre
  have hloop : waitLoop (millis start) ((pre ++ [x]).map (Poll.sample start)) =
      if x.available = 0 then if 5000 < x.elapsed then .timedOut else .waiting else .data := by
    rw [List.map_append, waitLoop_append hpre, List.map_singleton, waitLoop_cons]
    simp only [late_iff hturn]
    rfl
  unfold respond readResponse
  rw [hloop]
  by_cases hx : x.available = 0
  · by_cases ht : 5000 < x.elapsed
    · rw [if_pos hx, if_pos ht]
      exact iff_of_true rfl ⟨hx, ht⟩
    · rw [if_pos hx, if_neg ht]
      exact iff_of_false nofun fun h => ht h.2
  · rw [if_neg hx]
    exact iff_of_false nofun fun h => hx h.1

end

/-- **The timeout.** Whatever the tick at the start, `readResponse` stops the client at
a poll exactly when that poll finds no data after more than 5000 ms and every poll
before it found none by 5000 ms; it returns once a poll shows data or comes later. -/
theorem timeout_across_wrap (start : Nat) (polls : List Poll) (inbox : List UInt8)
    (hturn : ∀ x ∈ polls, x.elapsed < 2 ^ 32) :
    (∀ pre x post, polls = pre ++ x :: post →
      (TimesOutAt start pre x inbox ↔
        (x.available = 0 ∧ 5000 < x.elapsed) ∧ ∀ y ∈ pre, y.available = 0 ∧ y.elapsed ≤ 5000)) ∧
      ((respond start polls inbox).wait ≠ .waiting ↔
        ∃ x ∈ polls, x.available ≠ 0 ∨ 5000 < x.elapsed) := by
  constructor
  · rintro pre x post rfl
    have hpre : ∀ y ∈ pre, y.elapsed < 2 ^ 32 := fun y hy => hturn y (List.mem_append_left _ hy)
    have hx : x.elapsed < 2 ^ 32 := hturn x (List.mem_append_right _ List.mem_cons_self)
    rw [TimesOutAt, and_comm, ← respond_waiting start inbox hpre]
    exact and_congr_left fun hwait => respond_snoc_timedOut hx hwait
  · rw [Ne, respond_waiting start inbox hturn]
    constructor
    · intro h
      by_contra hno
      refine h fun y hy => ⟨?_, ?_⟩
      · by_contra hdata
        exact hno ⟨y, hy, .inl hdata⟩
      · by_contra hlate
        exact hno ⟨y, hy, .inr (Nat.lt_of_not_le hlate)⟩
    · rintro ⟨y, hy, hdata | hlate⟩ h
      · exact hdata (h y hy).1
      · exact Nat.not_le_of_lt hlate (h y hy).2

/-- The counter wraps two seconds into the wait. -/
theorem timeout_across_wrap_turn :
    millis (2 ^ 32 - 2000 + 5001) < millis (2 ^ 32 - 2000) ∧
      TimesOutAt (2 ^ 32 - 2000) [⟨0, 0⟩, ⟨0, 5000⟩] ⟨0, 5001⟩ [] :=
  ⟨by decide, ((timeout_across_wrap (2 ^ 32 - 2000) ([⟨0, 0⟩, ⟨0, 5000⟩] ++ [⟨0, 5001⟩]) []
    (by decide)).1 _ _ [] rfl).mpr (by decide)⟩

end CryptoLocker
