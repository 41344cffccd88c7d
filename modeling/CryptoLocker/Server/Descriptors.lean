import CryptoLocker.Lib.Runs
import CryptoLocker.Server.Calls

/-!
# Descriptors that stay open

A call closes at most the descriptor of the connection that ended it, and not
that one when row 0 is "ESP32-LOCKER". `call_tidy_iff` says which calls leave
no descriptor behind but the one in `esp32_fd`, and `descriptors_iff` the same
of runs.
-/

namespace CryptoLocker

open Lib

/-- Every descriptor accepted so far is closed, but for the one in `esp32_fd`,
and with `server_fd` at most two are open. -/
structure Server.Tidy (sv : Server) : Prop where
  closed : ∀ fd < sv.accepted, sv.esp32Fd ≠ some fd → fd ∉ sv.openFds
  few : sv.openFds.length + 1 ≤ 2

/-- Descriptors are known only once they have been accepted. -/
structure Server.Numbered (sv : Server) : Prop where
  openFds : ∀ fd ∈ sv.openFds, fd < sv.accepted
  esp32Fd : ∀ fd, sv.esp32Fd = some fd → fd < sv.accepted

/-- A session of the one accept that ends it, or a poll and a failed accept while
no connection is open. -/
def Frees (sv : Server) (conns : List AcceptResult) : Prop :=
  conns.length = 1 ∨
    ((∃ r, conns = [.conn r, .error] ∧ (AcceptResult.conn r).row = ESP32_LOCKER) ∧ sv.openFds = [])

theorem Server.tidy_start (s : Store) : (Server.start s).Tidy :=
  ⟨fun _ h => absurd h (Nat.not_lt_zero _), Nat.le_succ 1⟩

theorem Server.numbered_start (s : Store) : (Server.start s).Numbered := ⟨nofun, nofun⟩

section
variable {M : Malloc Addr} {sv sv' sv₁ : Server} {m : Machine} {body conns : List AcceptResult}
  {a b : AcceptResult} {buf : Buffer} {fd : Option Fd}

theorem Server.poll_esp32Fd (sv : Server) (n : Fd) (row : CStr) :
    (sv.poll n row).esp32Fd = if row = ESP32_LOCKER then some n else sv.esp32Fd := by
  unfold Server.poll
  simp only [strcmp_eq_zero]
  split
  · split <;> rfl
  · rfl

/-- A turn of the loop sets `esp32_fd` to a poll. -/
theorem Machine.Stacked.poll_esp32Fd {r : ReadResult} (h : m.Stacked)
    (hi : CryptoLocker.iteration m.server.accept m.buffer m.conns.length m.server.accepted r =
      .ok (sv, buf, false)) :
    sv.esp32Fd = if buf.row m.conns.length = ESP32_LOCKER then some m.server.accepted
      else m.server.esp32Fd := by
  obtain ⟨-, -, hsv⟩ := h.iteration_ok hi
  rw [hsv, if_neg Bool.false_ne_true, Server.poll_esp32Fd]
  rfl

/-- The first connection of a call is a poll by its payload alone. -/
theorem Machine.Stacked.first_poll {r : ReadResult} {left : Bool} (h : m.Stacked) (hc : m.conns = [])
    (hi : CryptoLocker.iteration m.server.accept m.buffer m.conns.length m.server.accepted r =
      .ok (sv, buf, left)) :
    buf.row m.conns.length = ESP32_LOCKER ↔ (AcceptResult.conn r).row = ESP32_LOCKER := by
  obtain ⟨hbuf, -⟩ := h.iteration_ok hi
  rw [hbuf, h.received, hc]
  exact row_zero_stack (by decide) _ []

/-- `esp32_fd` is the descriptor of a poll of this call, or what it was before. -/
theorem InCall.esp32Fd (h : InCall M sv body m) (hnum : sv.Numbered) :
    (∀ n, m.server.esp32Fd = some n → n < m.server.accepted) ∧
      (m.server.esp32Fd = some sv.accepted → ∃ b rest, body = b :: rest ∧ b.row = ESP32_LOCKER) := by
  induction body using List.reverseRecOn generalizing m with
  | nil =>
    obtain rfl := h.run
    exact ⟨hnum.esp32Fd, fun he => absurd (hnum.esp32Fd _ he) (Nat.lt_irrefl _)⟩
  | append_singleton body a ih =>
    obtain ⟨m₀, r, sv₁, buf, h₀, rfl, hi, rfl⟩ := h.snoc
    obtain ⟨hlt, hfirst⟩ := ih h₀
    have hacc : sv₁.accepted = m₀.server.accepted + 1 := (iteration_fds hi).1
    have hesp := h₀.stacked.poll_esp32Fd hi
    refine ⟨fun n hn => ?_, fun hn => ?_⟩
    · have hn : sv₁.esp32Fd = some n := hn
      show n < sv₁.accepted
      rw [hesp] at hn
      split at hn
      · cases hn
        exact hacc ▸ Nat.lt_succ_self _
      · exact hacc ▸ Nat.lt_succ_of_lt (hlt n hn)
    · have hn : sv₁.esp32Fd = some sv.accepted := hn
      rw [hesp] at hn
      split at hn
      · next hrow =>
        -- the poll is the call's first connection
        have hlen := h₀.spec.accepted
        rw [Option.some.inj hn] at hlen
        obtain rfl : body = [] := List.eq_nil_of_length_eq_zero (Nat.left_eq_add.mp hlen)
        exact ⟨_, [], rfl, (h₀.stacked.first_poll h₀.spec.conns hi).mp hrow⟩
      · obtain ⟨b, rest, rfl, hb⟩ := hfirst hn
        exact ⟨b, rest ++ [.conn r], rfl, hb⟩

theorem InCall.esp32Fd_first (h : InCall M sv [b] m) (hb : b.row = ESP32_LOCKER) :
    m.server.esp32Fd = some sv.accepted := by
  have hsnoc : InCall M sv ([] ++ [b]) m := h
  obtain ⟨m₀, r, sv₁, buf, h₀, rfl, hi, rfl⟩ := hsnoc.snoc
  have hesp := h₀.stacked.poll_esp32Fd hi
  rw [if_pos ((h₀.stacked.first_poll h₀.spec.conns hi).mpr hb), h₀.spec.accepted] at hesp
  exact hesp

/-- What the end of a call does to the descriptors. -/
theorem finishBuffer_fds (h : finishBuffer M sv buf fd = .ok sv') :
    sv'.accepted = sv.accepted ∧ sv'.esp32Fd = sv.esp32Fd ∧
      sv'.openFds = if buf.row 0 = ESP32_LOCKER then sv.openFds else sv.openFds.filter (some · ≠ fd) := by
  unfold finishBuffer at h
  split at h
  · obtain ⟨s, -, h⟩ := seq_ok.mp h
    dsimp only at h
    simp only [ne_eq, strcmp_eq_zero] at h
    by_cases hrow : buf.row 0 = ESP32_LOCKER
    · rw [if_neg (not_not.mpr hrow)] at h
      cases h
      exact ⟨rfl, rfl, (if_pos hrow).symm⟩
    · rw [if_pos hrow] at h
      cases h
      exact ⟨rfl, rfl, (if_neg hrow).symm⟩
  · cases h

theorem filter_none (l : List Fd) : l.filter (some · ≠ none) = l :=
  List.filter_eq_self.mpr fun n _ => by simp

theorem InCall.openFds_lt (h : InCall M sv body m) (hnum : sv.Numbered) :
    ∀ n ∈ m.server.openFds, n < m.server.accepted := by
  intro n hn
  rw [h.spec.accepted]
  rw [h.spec.openFds, List.mem_append, List.mem_range'_1] at hn
  rcases hn with hn | ⟨-, hn⟩
  · exact (hnum.openFds n hn).trans_le (Nat.le_add_right _ _)
  · exact hn

/-- The descriptors behind a call: the last connection's is closed unless row 0 is
"ESP32-LOCKER", and no other of the call. -/
theorem call_fds (hnum : sv.Numbered) (h : sv.call M (body ++ [a]) = .ok sv') :
    ∃ m, InCall M sv body m ∧ sv'.esp32Fd = m.server.esp32Fd ∧
      ((a = .error ∧ sv'.accepted = m.server.accepted ∧ sv'.openFds = m.server.openFds) ∨
        (a ≠ .error ∧ sv'.accepted = m.server.accepted + 1 ∧
          ((∃ b rest, body = b :: rest ∧ b.row = ESP32_LOCKER ∧
              sv'.openFds = m.server.openFds ++ [m.server.accepted]) ∨
            ((∀ b rest, body = b :: rest → b.row ≠ ESP32_LOCKER) ∧
              sv'.openFds = m.server.openFds)))) := by
  obtain ⟨body', a', m, sv₁, buf, fd, hconns, hin, hleaves, hfin⟩ := call_ok h
  obtain ⟨rfl, hlast⟩ := List.append_inj' hconns rfl
  obtain rfl := (List.cons.inj hlast).1
  obtain ⟨hacc, hesp, hopen⟩ := finishBuffer_fds hfin
  have hrow : ∀ b rest, body = b :: rest → (buf.row 0 = ESP32_LOCKER ↔ b.row = ESP32_LOCKER) := by
    rintro b rest rfl
    exact hin.row_zero hleaves rfl (by decide)
  refine ⟨m, hin, ?_⟩
  cases a with
  | error =>
    obtain ⟨rfl, rfl, rfl⟩ := hleaves
    rw [filter_none, ite_self] at hopen
    exact ⟨hesp, .inl ⟨rfl, hacc, hopen⟩⟩
  | conn r =>
    obtain ⟨hi, rfl⟩ := hleaves
    obtain ⟨-, hempty, hsv⟩ := hin.stacked.iteration_ok hi
    rw [if_pos rfl] at hsv
    subst hsv
    refine ⟨hesp, .inr ⟨nofun, hacc, ?_⟩⟩
    have hkeep : (m.server.openFds ++ [m.server.accepted]).filter (some · ≠ some m.server.accepted) =
        m.server.openFds := by
      rw [List.filter_append, List.filter_eq_self.mpr, List.filter_eq_nil_iff.mpr, List.append_nil]
      · simp
      · intro n hn
        simpa using (hin.openFds_lt hnum n hn).ne
    by_cases hpoll : buf.row 0 = ESP32_LOCKER
    · rw [if_pos hpoll] at hopen
      cases body with
      | nil =>
        -- an empty row 0 is no poll
        rw [hin.spec.conns] at hempty
        exact absurd (hpoll.symm.trans (hempty.mp rfl)) (by decide)
      | cons b rest => exact .inl ⟨b, rest, rfl, (hrow b rest rfl).mp hpoll, hopen⟩
    · rw [if_neg hpoll] at hopen
      exact .inr ⟨fun b rest hb hrow' => hpoll ((hrow b rest hb).mpr hrow'), hopen.trans hkeep⟩

theorem call_numbered (hnum : sv.Numbered) (h : sv.call M conns = .ok sv') : sv'.Numbered := by
  obtain ⟨body, a, -, -, -, -, rfl, -⟩ := call_ok h
  obtain ⟨m, hin, hesp, hfds⟩ := call_fds hnum h
  have hle : m.server.accepted ≤ sv'.accepted := by
    rcases hfds with ⟨-, hacc, -⟩ | ⟨-, hacc, -⟩
    · exact hacc.ge
    · exact hacc ▸ Nat.le_succ _
  have hlt := hin.openFds_lt hnum
  refine ⟨fun n hn => ?_, fun n hn => ((hin.esp32Fd hnum).1 n (hesp ▸ hn)).trans_le hle⟩
  obtain ⟨-, -, hopen⟩ | ⟨-, hacc, ⟨-, -, -, -, hopen⟩ | ⟨-, hopen⟩⟩ := hfds
  · exact (hlt n (hopen ▸ hn)).trans_le hle
  · rw [hopen] at hn
    rcases List.mem_append.mp hn with hn | hn
    · exact (hlt n hn).trans_le hle
    · exact List.mem_singleton.mp hn ▸ hacc ▸ Nat.lt_succ_self _
  · exact (hlt n (hopen ▸ hn)).trans_le hle

/-- A call of one accept opens nothing that it does not close. -/
theorem tidy_of_single (hnum : sv.Numbered) (htidy : sv.Tidy) (h : sv.call M [a] = .ok sv') :
    sv'.Tidy := by
  obtain ⟨m, hin, hesp, hfds⟩ := call_fds hnum (show sv.call M ([] ++ [a]) = .ok sv' from h)
  obtain rfl := hin.run
  obtain ⟨-, hacc, hopen⟩ | ⟨-, hacc, ⟨b, rest, hnil, -⟩ | ⟨-, hopen⟩⟩ := hfds
  · exact ⟨by rw [hacc, hesp, hopen]; exact htidy.closed, by rw [hopen]; exact htidy.few⟩
  · cases hnil
  · refine ⟨fun n hn hne => ?_, by rw [hopen]; exact htidy.few⟩
    rw [hopen]
    rw [hacc] at hn
    rcases Nat.lt_succ_iff_lt_or_eq.mp hn with hn | rfl
    · exact htidy.closed n hn (hesp ▸ hne)
    · exact fun hm => Nat.lt_irrefl _ (hnum.openFds _ hm)

/-- A call that a connection ends behind others leaves a descriptor open: the first
connection's, or its own where the first was a poll. -/
theorem not_tidy_of_conn (hnum : sv.Numbered) (hne : a ≠ .error)
    (h : sv.call M (b :: conns ++ [a]) = .ok sv') : ¬ sv'.Tidy := by
  obtain ⟨m, hin, hesp, hfds⟩ := call_fds hnum h
  obtain ⟨hlt, hfirst⟩ := hin.esp32Fd hnum
  obtain ⟨rfl, -⟩ | ⟨-, hacc, ⟨-, -, -, -, hopen⟩ | ⟨hrow, hopen⟩⟩ := hfds
  · exact absurd rfl hne
  · intro htidy
    refine htidy.closed m.server.accepted (hacc ▸ Nat.lt_succ_self _) (fun he => ?_) (by rw [hopen]; simp)
    exact Nat.lt_irrefl _ (hlt _ (hesp ▸ he))
  · intro htidy
    have hmem : sv.accepted ∈ sv'.openFds := by
      rw [hopen, hin.spec.openFds]
      exact List.mem_append_right _ (List.mem_range'_1.mpr ⟨Nat.le_refl _, by simp⟩)
    have hle : sv.accepted ≤ m.server.accepted := hin.spec.accepted ▸ Nat.le_add_right _ _
    refine htidy.closed sv.accepted (hacc ▸ Nat.lt_succ_of_le hle) (fun he => ?_) hmem
    obtain ⟨b', rest, hb, hb'⟩ := hfirst (hesp ▸ he)
    exact hrow b' rest hb hb'

/-- A call that a failed accept ends leaves all its descriptors open. -/
theorem tidy_iff_of_error (hnum : sv.Numbered) (h : sv.call M (b :: conns ++ [.error]) = .ok sv') :
    sv'.Tidy ↔ conns = [] ∧ b.row = ESP32_LOCKER ∧ sv.openFds = [] := by
  obtain ⟨m, hin, hesp, hfds⟩ := call_fds hnum h
  obtain ⟨-, hacc, hopen⟩ | ⟨hne, -⟩ := hfds
  · have hfds : sv'.openFds = sv.openFds ++ List.range' sv.accepted (conns.length + 1) :=
      hopen.trans hin.spec.openFds
    constructor
    · intro htidy
      have hfew := htidy.few
      rw [hfds, List.length_append, List.length_range'] at hfew
      have hmem : sv.accepted ∈ sv'.openFds := by
        rw [hfds]
        exact List.mem_append_right _ (List.mem_range'_1.mpr ⟨Nat.le_refl _, by simp⟩)
      have hpoll : sv'.esp32Fd = some sv.accepted := by
        by_contra he
        refine htidy.closed sv.accepted ?_ he hmem
        rw [hacc, hin.spec.accepted]
        exact Nat.lt_add_of_pos_right (Nat.succ_pos _)
      obtain ⟨b', rest, hb, hb'⟩ := (hin.esp32Fd hnum).2 (hesp ▸ hpoll)
      cases hb
      exact ⟨List.eq_nil_of_length_eq_zero (by omega), hb', List.eq_nil_of_length_eq_zero (by omega)⟩
    · rintro ⟨rfl, hb, hnone⟩
      rw [hnone] at hfds
      have hone : sv'.openFds = [sv.accepted] := hfds
      refine ⟨fun n _ he hm => he ?_, by rw [hone]; exact Nat.le_refl 2⟩
      rw [hone] at hm
      rw [List.mem_singleton.mp hm, hesp]
      exact hin.esp32Fd_first hb
  · exact absurd rfl hne

/-- **A call** leaves no descriptor behind, but for the one in `esp32_fd`, when it
is a single accept, or a poll and a failed accept while nothing is open. -/
theorem call_tidy_iff (hnum : sv.Numbered) (htidy : sv.Tidy) (h : sv.call M conns = .ok sv') :
    sv'.Tidy ↔ Frees sv conns := by
  obtain ⟨body, a, m, -, -, -, rfl, hin, -⟩ := call_ok h
  cases body with
  | nil => exact iff_of_true (tidy_of_single hnum htidy h) (.inl rfl)
  | cons b rest =>
    have hlen : (b :: rest ++ [a]).length ≠ 1 := by simp
    cases a with
    | conn r =>
      refine iff_of_false (not_tidy_of_conn (a := .conn r) hnum nofun h) ?_
      rintro (hone | ⟨⟨r', hconns, -⟩, -⟩)
      · exact hlen hone
      · cases (List.append_inj' (show _ = [AcceptResult.conn r'] ++ [.error] from hconns) rfl).2
    | error =>
      rw [tidy_iff_of_error hnum h]
      constructor
      · rintro ⟨rfl, hrow, hopen⟩
        cases b with
        | conn r => exact .inr ⟨⟨r, rfl, hrow⟩, hopen⟩
        | error => exact absurd List.mem_cons_self hin.spec.connected
      · rintro (hone | ⟨⟨r, hconns, hrow⟩, hopen⟩)
        · exact absurd hone hlen
        · obtain ⟨rfl, hrest⟩ := List.cons.inj hconns
          exact ⟨(List.append_inj' (show _ = [] ++ [AcceptResult.error] from hrest) rfl).1, hrow, hopen⟩

end

/-- **Descriptors.** A run of sessions leaves no descriptor behind at the end of
any, but for the one in `esp32_fd`, exactly when each of them frees its own. -/
theorem descriptors_iff (M : Malloc Addr) (calls : List (List AcceptResult)) (sv : Server)
    (h : runFrom (Server.call M) (Server.start Store.init) calls = .ok sv) :
    (∀ sv, Reaches (Server.call M) (Server.start Store.init) calls sv → sv.Tidy) ↔
      Along (Server.call M) Frees (Server.start Store.init) calls :=
  forall_reaches_iff_along_of_ok (fun _ _ _ => call_numbered) (fun _ _ _ => call_tidy_iff)
    (Server.numbered_start _) (Server.tidy_start _) h

theorem descriptors_one_poll :
    ∃ sv, runFrom (Server.call Malloc.next) (Server.start Store.init)
        [[arrival []], [arrival ESP32_LOCKER.bytes, .error], [arrival [0]]] = .ok sv ∧
      ∀ sv, Reaches (Server.call Malloc.next) (Server.start Store.init)
        [[arrival []], [arrival ESP32_LOCKER.bytes, .error], [arrival [0]]] sv → sv.Tidy := by
  refine ⟨_, rfl, (descriptors_iff Malloc.next _ _ rfl).mpr ⟨.inl rfl, fun sv h => ?_⟩⟩
  cases (show Server.call Malloc.next (Server.start Store.init) [arrival []] = .ok _ from rfl).symm.trans h
  exact ⟨.inr ⟨⟨_, rfl, rfl⟩, rfl⟩, fun _ _ => ⟨.inl rfl, fun _ _ => trivial⟩⟩

/-- A create of three connections leaves the first two open. -/
theorem descriptors_fails :
    ∃ sv, Reaches (Server.call Malloc.next) (Server.start Store.init)
        [[arrival CREATE.bytes, arrival (lit "alice").bytes, arrival [0]]] sv ∧
      sv.openFds = [0, 1] ∧ sv.esp32Fd = none ∧ ¬ sv.Tidy := by
  refine ⟨_, ⟨_, List.prefix_rfl, rfl⟩, rfl, rfl, fun h => ?_⟩
  exact absurd h.few (by decide)

end CryptoLocker
