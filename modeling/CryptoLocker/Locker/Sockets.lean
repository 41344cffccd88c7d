import CryptoLocker.Server.Listen
import Mathlib.Data.List.Perm.Subperm

/-!
# The sockets of the locker

`WiFiClient::connect` opens a socket, and closes it where it gives up, but not
when a `setsockopt` fails. A turn of `loop` (or of the retries of `setup`)
connects with a client of its own, whose destructor closes what `connect` has
returned. So each failed `setsockopt` costs the locker a socket for good, and
after as many as there are it never connects again (`sockets_run`).
-/

namespace CryptoLocker

/-- How the calls `connect` makes come out: `lwip_connect` (or it is in progress), the result of
`select`, `getsockopt`, the error it reads, and the `setsockopt` of the two timeouts. -/
structure Attempt where
  connect : Bool
  select : Int
  getsockopt : Bool
  sockerr : Int
  sndTimeo : Bool
  rcvTimeo : Bool

/-- The descriptors in use, of those below `limit`. -/
structure Sockets where
  limit : Nat
  inUse : List Fd

/-- `socket`; `none` is -1. -/
def Sockets.socket (t : Sockets) : Option Fd := (List.range t.limit).find? (· ∉ t.inUse)

def Sockets.take (t : Sockets) (fd : Fd) : Sockets := { t with inUse := t.inUse ++ [fd] }

def Sockets.close (t : Sockets) (fd : Fd) : Sockets := { t with inUse := t.inUse.filter (· ≠ fd) }

/-- `connect(ip, port, timeout_ms)`: the descriptor of the client, if it connects. -/
def connect (t : Sockets) (a : Attempt) : Option Fd × Sockets :=
  match t.socket with
  | none => (none, t)
  | some sockfd =>
    let t := t.take sockfd
    if ¬ a.connect then (none, t.close sockfd)
    else if a.select < 0 then (none, t.close sockfd)
    else if a.select = 0 then (none, t.close sockfd)
    else if ¬ a.getsockopt then (none, t.close sockfd)
    else if a.sockerr ≠ 0 then (none, t.close sockfd)
    -- ROE_WIFICLIENT returns without closing
    else if ¬ a.sndTimeo then (none, t)
    else if ¬ a.rcvTimeo then (none, t)
    else (some sockfd, t)

/-- A turn of `loop`: `~WiFiClient` closes the connection, if there is one. -/
def Sockets.turn (t : Sockets) (a : Attempt) : Sockets :=
  match connect t a with
  | (some fd, t) => t.close fd
  | (none, t) => t

def Sockets.run (t : Sockets) (as : List Attempt) : Sockets := as.foldl Sockets.turn t

/-- The connection is made. -/
def Attempt.Made (a : Attempt) : Prop := a.connect ∧ 0 < a.select ∧ a.getsockopt ∧ a.sockerr = 0

/-- The timeouts are set on it. -/
def Attempt.Set (a : Attempt) : Prop := a.sndTimeo ∧ a.rcvTimeo

instance (a : Attempt) : Decidable a.Made := inferInstanceAs (Decidable (_ ∧ _))
instance (a : Attempt) : Decidable a.Set := inferInstanceAs (Decidable (_ ∧ _))

/-- Made and given up, with the socket left open. -/
def Attempt.leaks (a : Attempt) : Bool := a.Made ∧ ¬ a.Set

/-- Descriptors are in use once. -/
structure Sockets.Inv (t : Sockets) : Prop where
  nodup : t.inUse.Nodup
  below : ∀ fd ∈ t.inUse, fd < t.limit

section
variable {t : Sockets} {a : Attempt} {fd : Fd}

theorem Sockets.Inv.length_le (h : t.Inv) : t.inUse.length ≤ t.limit := by
  have hsub : t.inUse ⊆ List.range t.limit := fun fd hfd => List.mem_range.mpr (h.below fd hfd)
  have hle := (h.nodup.subperm hsub).length_le
  rwa [List.length_range] at hle

theorem Sockets.socket_some (h : t.socket = some fd) : fd < t.limit ∧ fd ∉ t.inUse :=
  ⟨List.mem_range.mp (List.mem_of_find?_eq_some h), by simpa using List.find?_some h⟩

theorem Sockets.Inv.take (h : t.Inv) (hs : t.socket = some fd) : (t.take fd).Inv := by
  obtain ⟨hlt, hnew⟩ := Sockets.socket_some hs
  refine ⟨List.nodup_append.mpr ⟨h.nodup, List.nodup_singleton fd, fun x hx y hy => ?_⟩, fun x hx => ?_⟩
  · rintro rfl
    exact hnew (List.mem_singleton.mp hy ▸ hx)
  · rcases List.mem_append.mp hx with hx | hx
    · exact h.below x hx
    · exact List.mem_singleton.mp hx ▸ hlt

/-- There is a socket as long as not all are in use. -/
theorem Sockets.Inv.socket_isSome_iff (h : t.Inv) : t.socket.isSome ↔ t.inUse.length < t.limit := by
  cases hs : t.socket with
  | none =>
    refine iff_of_false nofun (Nat.not_lt_of_le ?_)
    have hsub : List.range t.limit ⊆ t.inUse := fun fd hfd => by
      simpa using List.find?_eq_none.mp hs fd hfd
    have hle := (List.nodup_range.subperm hsub).length_le
    rwa [List.length_range] at hle
  | some fd =>
    refine iff_of_true rfl ?_
    have hle : (t.inUse ++ [fd]).length ≤ t.limit := (h.take hs).length_le
    rw [List.length_append, List.length_singleton] at hle
    omega

theorem Sockets.close_take (h : fd ∉ t.inUse) : (t.take fd).close fd = t := by
  have hold : t.inUse.filter (· ≠ fd) = t.inUse := by
    refine List.filter_eq_self.mpr fun x hx => ?_
    have hne : x ≠ fd := fun he => h (he ▸ hx)
    simpa using hne
  unfold Sockets.take Sockets.close
  simp only [List.filter_append, hold]
  simp

/-- Everything `connect` does. -/
theorem connect_cases (t : Sockets) (a : Attempt) :
    (t.socket = none ∧ connect t a = (none, t)) ∨
      ∃ fd, t.socket = some fd ∧
        ((¬ a.Made ∧ connect t a = (none, t)) ∨
          (a.Made ∧ ¬ a.Set ∧ connect t a = (none, t.take fd)) ∨
          (a.Made ∧ a.Set ∧ connect t a = (some fd, t.take fd))) := by
  unfold connect
  cases hs : t.socket with
  | none => exact .inl ⟨rfl, rfl⟩
  | some fd =>
    have hclose := Sockets.close_take (Sockets.socket_some hs).2
    refine .inr ⟨fd, rfl, ?_⟩
    dsimp only
    rw [hclose]
    unfold Attempt.Made Attempt.Set
    by_cases hmade : a.connect ∧ 0 < a.select ∧ a.getsockopt ∧ a.sockerr = 0
    · obtain ⟨hc, hsel, hg, he⟩ := hmade
      rw [if_neg (not_not.mpr hc), if_neg (by omega), if_neg (by omega), if_neg (not_not.mpr hg),
        if_neg (not_not.mpr he)]
      refine .inr ?_
      by_cases hset : a.sndTimeo ∧ a.rcvTimeo
      · rw [if_neg (not_not.mpr hset.1), if_neg (not_not.mpr hset.2)]
        exact .inr ⟨⟨hc, hsel, hg, he⟩, hset, rfl⟩
      · refine .inl ⟨⟨hc, hsel, hg, he⟩, hset, ?_⟩
        split
        · rfl
        · next hsnd => exact if_pos fun hrcv => hset ⟨not_not.mp hsnd, hrcv⟩
    · refine .inl ⟨hmade, ?_⟩
      split
      · rfl
      split
      · rfl
      split
      · rfl
      split
      · rfl
      · next hc hneg hzero hg => exact if_pos fun he => hmade ⟨not_not.mp hc, by omega, not_not.mp hg, he⟩

/-- A turn costs a socket when it leaks one. -/
theorem Sockets.Inv.turn (h : t.Inv) (a : Attempt) :
    (t.turn a).Inv ∧ (t.turn a).limit = t.limit ∧
      (t.turn a).inUse.length = min t.limit (t.inUse.length + if a.leaks then 1 else 0) := by
  have hle := h.length_le
  have hroom := h.socket_isSome_iff
  unfold Sockets.turn
  obtain ⟨hs, hc⟩ | ⟨fd, hs, ⟨hmade, hc⟩ | ⟨hmade, hset, hc⟩ | ⟨hmade, hset, hc⟩⟩ := connect_cases t a
  · rw [hs] at hroom
    have hfull : ¬ t.inUse.length < t.limit := fun hlt => nomatch hroom.mpr hlt
    rw [hc]
    exact ⟨h, rfl, by dsimp only; omega⟩
  · have hno : a.leaks = false := by simp [Attempt.leaks, hmade]
    rw [hc, hno]
    exact ⟨h, rfl, by simp [hle]⟩
  · have hyes : a.leaks = true := by simp [Attempt.leaks, hmade, hset]
    rw [hs] at hroom
    have hlt := hroom.mp rfl
    rw [hc, hyes]
    refine ⟨h.take hs, rfl, ?_⟩
    simp only [Sockets.take, List.length_append, List.length_singleton, if_true]
    omega
  · have hno : a.leaks = false := by simp [Attempt.leaks, hset]
    rw [hc, hno]
    dsimp only
    rw [Sockets.close_take (Sockets.socket_some hs).2]
    exact ⟨h, rfl, by simp [hle]⟩

theorem Sockets.Inv.run (h : t.Inv) (as : List Attempt) :
    (t.run as).Inv ∧ (t.run as).limit = t.limit ∧
      (t.run as).inUse.length = min t.limit (t.inUse.length + as.countP Attempt.leaks) := by
  induction as generalizing t with
  | nil => exact ⟨h, rfl, (min_eq_right h.length_le).symm⟩
  | cons a as ih =>
    obtain ⟨hinv, hlimit, hlen⟩ := h.turn a
    obtain ⟨hinv', hlimit', hlen'⟩ := ih hinv
    refine ⟨hinv', hlimit'.trans hlimit, ?_⟩
    show ((t.turn a).run as).inUse.length = _
    rw [hlen', hlimit, hlen, List.countP_cons]
    omega

end

/-- **Sockets.** After any turns as many sockets are open as turns have leaked one, up to all of them, and
the next turn connects exactly when one is left, the connection is made and its timeouts are set. -/
theorem sockets_run (limit : Nat) (as : List Attempt) (a : Attempt) :
    (Sockets.run ⟨limit, []⟩ as).inUse.length = min limit (as.countP Attempt.leaks) ∧
      ((connect (Sockets.run ⟨limit, []⟩ as) a).1.isSome ↔
        as.countP Attempt.leaks < limit ∧ a.Made ∧ a.Set) := by
  have hstart : (⟨limit, []⟩ : Sockets).Inv := ⟨List.nodup_nil, nofun⟩
  obtain ⟨hinv, hlimit, hlen⟩ := hstart.run as
  rw [List.length_nil, Nat.zero_add] at hlen
  refine ⟨hlen, ?_⟩
  have hroom := hinv.socket_isSome_iff
  rw [hlimit, hlen, min_lt_iff, or_iff_right (Nat.lt_irrefl limit)] at hroom
  rw [← hroom]
  obtain ⟨hs, hc⟩ | ⟨fd, hs, ⟨hmade, hc⟩ | ⟨hmade, hset, hc⟩ | ⟨hmade, hset, hc⟩⟩ :=
    connect_cases (Sockets.run ⟨limit, []⟩ as) a
  · rw [hc, hs]
    exact iff_of_false nofun fun h => nomatch h.1
  · rw [hc]
    exact iff_of_false nofun fun h => hmade h.2.1
  · rw [hc]
    exact iff_of_false nofun fun h => hset h.2.2
  · rw [hc, hs]
    exact iff_of_true rfl ⟨rfl, hmade, hset⟩

end CryptoLocker
