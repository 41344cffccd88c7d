import CryptoLocker.Locker.Quiet
import CryptoLocker.Locker.ReadResponse

/-!
# `readResponse` over the receive buffer

`readResponse` of `locker.ino` on a client that reads through its buffer.
`readStringUntil` is the Arduino core's: it reads byte by byte up to a
terminator, tries again when a `read()` gives nothing, and gives up at any such
`read()` when its time is over.

However the network behaves, a line read is a piece of the bytes that arrived
(`line_within`), and once the answer is there whole the lines are the ones of
`readResponse` on that inbox (`answers_iff`).
-/

namespace CryptoLocker

open Lib

/-- `readStringUntil(t)` on `c` can give `line` and leave the client `c'`. -/
inductive ReadsUntil (t : UInt8) : WiFiClient → List UInt8 → WiFiClient → Prop where
  | found {c c' : WiFiClient} {got : Got} :
      c.readByte = .ok (got, c') → got.res = t.toNat → ReadsUntil t c [] c'
  | byte {c c₁ c' : WiFiClient} {got : Got} {b : UInt8} {line : List UInt8} :
      c.readByte = .ok (got, c₁) → got.res = b.toNat → b ≠ t → ReadsUntil t c₁ line c' →
      ReadsUntil t c (b :: line) c'
  | again {c c₁ c' : WiFiClient} {got : Got} {line : List UInt8} :
      c.readByte = .ok (got, c₁) → got.res < 0 → ReadsUntil t c₁ line c' → ReadsUntil t c line c'
  | timeout {c c' : WiFiClient} {got : Got} :
      c.readByte = .ok (got, c') → got.res < 0 → ReadsUntil t c [] c'

/-- The loop `while (client->available())`, with the lines it reads. -/
inductive ReadsLines : WiFiClient → List (List UInt8) → WiFiClient → Prop where
  | done {c : WiFiClient} : c.available.1 = 0 → ReadsLines c [] c.available.2
  | line {c c₁ c' : WiFiClient} {line : List UInt8} {ls : List (List UInt8)} :
      c.available.1 ≠ 0 → ReadsUntil CR c.available.2 line c₁ → ReadsLines c₁ ls c' →
      ReadsLines c (line :: ls) c'

/-- `readResponse`, begun at the tick `timeout`; `now` is the clock at a test that finds nothing. -/
inductive Answers (timeout : UInt32) : WiFiClient → List (List UInt8) → WiFiClient → Prop where
  | timedOut {c : WiFiClient} {now : UInt32} :
      c.available.1 = 0 → 5000 < now - timeout → Answers timeout c [] c.available.2.stop
  | wait {c c' : WiFiClient} {now : UInt32} {ls : List (List UInt8)} :
      c.available.1 = 0 → ¬ 5000 < now - timeout → Answers timeout c.available.2 ls c' →
      Answers timeout c ls c'
  | data {c c' : WiFiClient} {ls : List (List UInt8)} :
      c.available.1 ≠ 0 → ReadsLines c.available.2 ls c' → Answers timeout c ls c'

/-- `bytes` are the lines one behind the other, each with its end or cut off before it. -/
inductive Joined : List (List UInt8) → List UInt8 → Prop where
  | nil : Joined [] []
  | ended {line bytes : List UInt8} {ls : List (List UInt8)} :
      Joined ls bytes → Joined (line :: ls) (line ++ [CR] ++ bytes)
  | cut {line bytes : List UInt8} {ls : List (List UInt8)} :
      Joined ls bytes → Joined (line :: ls) (line ++ bytes)

theorem Joined.within {ls : List (List UInt8)} {bytes line : List UInt8} (h : Joined ls bytes)
    (hl : line ∈ ls) : line <:+: bytes := by
  induction h with
  | nil => cases hl
  | @ended first rest ls _ ih =>
    rcases List.mem_cons.mp hl with rfl | hl
    · rw [List.append_assoc]
      exact (List.prefix_append _ _).isInfix
    · exact (ih hl).trans (List.suffix_append _ _).isInfix
  | @cut first rest ls _ ih =>
    rcases List.mem_cons.mp hl with rfl | hl
    · exact (List.prefix_append _ _).isInfix
    · exact (ih hl).trans (List.suffix_append _ _).isInfix

/-! ## Any network -/

section
variable {c c' : WiFiClient} {t : UInt8} {line : List UInt8} {ls : List (List UInt8)} {timeout : UInt32}

/-- One `read()`: nothing, or the next byte. -/
theorem WiFiClient.readByte_cases (h : c.Inv) {got : Got} (hr : c.readByte = .ok (got, c')) :
    c'.Inv ∧ ((got.res = -1 ∧ clientConduit.Passes c [] c') ∨
      ∃ b : UInt8, got.res = b.toNat ∧ clientConduit.Passes c [b] c') := by
  obtain ⟨got', c'', hread, hinv, hpass, hres⟩ := WiFiClient.readByte_spec h
  cases hread.symm.trans hr
  refine ⟨hinv, ?_⟩
  rcases hres with ⟨hone, hnil⟩ | ⟨b, hb, hdst⟩
  · exact .inl ⟨hone, hnil ▸ hpass⟩
  · exact .inr ⟨b, hb, hdst ▸ hpass⟩

theorem toNat_inj_of_res {got : Got} {b t : UInt8} (hb : got.res = b.toNat) (ht : got.res = t.toNat) :
    b = t := UInt8.toNat_inj.mp (Int.ofNat_inj.mp (hb.symm.trans ht))

/-- A line takes its bytes, and its end when that is found. -/
theorem ReadsUntil.passes (hr : ReadsUntil t c line c') (h : c.Inv) :
    c'.Inv ∧ (clientConduit.Passes c (line ++ [t]) c' ∨ clientConduit.Passes c line c') := by
  induction hr with
  | found hread hres =>
    obtain ⟨hinv, ⟨hneg, -⟩ | ⟨b, hb, hpass⟩⟩ := WiFiClient.readByte_cases h hread
    · omega
    · obtain rfl := toNat_inj_of_res hb hres
      exact ⟨hinv, .inl hpass⟩
  | byte hread hres _ _ ih =>
    obtain ⟨hinv, ⟨hneg, -⟩ | ⟨b, hb, hpass⟩⟩ := WiFiClient.readByte_cases h hread
    · omega
    · obtain rfl := toNat_inj_of_res hb hres
      obtain ⟨hinv', hrest⟩ := ih hinv
      exact ⟨hinv', hrest.imp hpass.trans hpass.trans⟩
  | again hread hneg _ ih =>
    obtain ⟨hinv, ⟨-, hpass⟩ | ⟨b, hb, -⟩⟩ := WiFiClient.readByte_cases h hread
    · obtain ⟨hinv', hrest⟩ := ih hinv
      exact ⟨hinv', hrest.imp hpass.trans hpass.trans⟩
    · omega
  | timeout hread hneg =>
    obtain ⟨hinv, ⟨-, hpass⟩ | ⟨b, hb, -⟩⟩ := WiFiClient.readByte_cases h hread
    · exact ⟨hinv, .inr hpass⟩
    · omega

theorem ReadsLines.passes (hr : ReadsLines c ls c') (h : c.Inv) :
    ∃ out, Joined ls out ∧ clientConduit.Passes c out c' := by
  induction hr with
  | done => exact ⟨[], .nil, (WiFiClient.available_spec h).2⟩
  | line _ hline _ ih =>
    obtain ⟨hinv, hpass⟩ := WiFiClient.available_spec h
    obtain ⟨hinv', hended | hcut⟩ := hline.passes hinv
    · obtain ⟨out, hjoin, hrest⟩ := ih hinv'
      exact ⟨_, hjoin.ended, (hpass.trans hended).trans hrest⟩
    · obtain ⟨out, hjoin, hrest⟩ := ih hinv'
      exact ⟨_, hjoin.cut, (hpass.trans hcut).trans hrest⟩

theorem Answers.passes (hr : Answers timeout c ls c') (h : c.Inv) :
    ∃ out, Joined ls out ∧ clientConduit.Passes c out c' := by
  induction hr with
  | @timedOut c =>
    have hstop : clientConduit.Passes c.available.2 [] c.available.2.stop := fun l _ =>
      ⟨[], l, (List.append_nil _).symm, nofun, List.append_nil _⟩
    exact ⟨[], .nil, (WiFiClient.available_spec h).2.trans hstop⟩
  | wait _ _ _ ih =>
    obtain ⟨hinv, hpass⟩ := WiFiClient.available_spec h
    obtain ⟨out, hjoin, hrest⟩ := ih hinv
    exact ⟨out, hjoin, hpass.trans hrest⟩
  | data _ hlines =>
    obtain ⟨hinv, hpass⟩ := WiFiClient.available_spec h
    obtain ⟨out, hjoin, hrest⟩ := hlines.passes hinv
    exact ⟨out, hjoin, hpass.trans hrest⟩

/-- **Soundness.** However the network behaves and whenever the reads time out,
a line is a piece of the bytes that arrived on the connection. -/
theorem line_within {network : Nat → Tick} (hr : Answers timeout (WiFiClient.connected network) ls c')
    (hl : line ∈ ls) : line <:+: c'.sock.arrived := by
  obtain ⟨out, hjoin, hpass⟩ := hr.passes (WiFiClient.inv_connected network)
  obtain ⟨l, -, heq⟩ := hpass.of_empty (by rintro rx ⟨⟩; rfl) rfl
  exact (hjoin.within hl).trans ⟨[], l, heq⟩

end

/-! ## An answer that is there whole -/

/-- The client is open, the bytes `l` are to be read and the network is quiet. -/
structure WiFiClient.Waiting (c : WiFiClient) (l : List UInt8) : Prop where
  inv : c.Inv
  quiet : c.sock.Quiet
  held : ∃ rx, c.rx = some rx ∧ l = rx.pending ++ c.sock.queue

section
variable {c c' : WiFiClient} {t : UInt8} {l line out : List UInt8} {ls : List (List UInt8)} {timeout : UInt32}

/-- What a call leaves to be read. -/
theorem WiFiClient.Waiting.passes (h : c.Waiting l) {rx : RxBuffer} {sock : Socket}
    (hinv : (⟨some rx, sock⟩ : WiFiClient).Inv) (hsince : sock.QuietSince c.sock)
    (hpass : clientConduit.Passes c out ⟨some rx, sock⟩) :
    ∃ l', l = out ++ l' ∧ (⟨some rx, sock⟩ : WiFiClient).Waiting l' := by
  obtain ⟨rx₀, hrx₀, hl⟩ := h.held
  obtain ⟨new, l', hfed, hl', heq⟩ := hpass l fun rx' hrx' => by cases hrx₀.symm.trans hrx'; exact hl
  have hnew : new = [] := List.self_eq_append_right.mp (hsince.arrived.symm.trans hfed)
  rw [hnew, List.append_nil] at heq
  exact ⟨l', heq, hinv, hsince.quiet, rx, rfl, hl' rx rfl⟩

theorem WiFiClient.Waiting.available (h : c.Waiting l) :
    c.available.1 = l.length ∧ c.available.2.Waiting l := by
  obtain ⟨rx, hrx, hl⟩ := h.held
  obtain ⟨hrxinv, hf⟩ := h.inv rx hrx
  obtain ⟨hqueue, hnext⟩ := h.quiet.next
  have heq : c.available = (rx.pending.length + c.sock.queue.length, ⟨some rx, c.sock.next⟩) := by
    unfold WiFiClient.available RxBuffer.available RxBuffer.rAvailable
    rw [hrx]
    simp only [if_pos (h.quiet 0).2.2.1, Socket.tick, hqueue, WiFiClient.check_open rx _ hf,
      hrxinv.length_pending]
  obtain ⟨hinv, hpass⟩ := WiFiClient.available_spec h.inv
  rw [heq] at hinv hpass ⊢
  obtain ⟨l', rfl, hwait⟩ := h.passes hinv hnext hpass
  exact ⟨by rw [hl, List.length_append], hwait⟩

theorem WiFiClient.Waiting.readByte (h : c.Waiting l) :
    ∃ got c', c.readByte = .ok (got, c') ∧ ((l = [] ∧ got.res = -1 ∧ c'.Waiting []) ∨
      ∃ b l', l = b :: l' ∧ got.res = b.toNat ∧ c'.Waiting l') := by
  obtain ⟨rx, hrx, hl⟩ := h.held
  have hshort : ¬ rx.Short 1 c.sock := fun hs =>
    hs.nonempty (List.eq_nil_of_length_eq_zero (by have := hs.few; omega))
  obtain ⟨rx', sock', hread, hsince⟩ := WiFiClient.read_quiet h.inv hrx h.quiet 1
  rw [if_neg hshort, ← hl] at hread
  obtain ⟨got, c₁, hread', hinv, hpass, -⟩ := WiFiClient.read_spec h.inv 1
  cases hread'.symm.trans hread
  obtain ⟨l', heq, hwait⟩ := h.passes hinv hsince hpass
  unfold WiFiClient.readByte
  rw [hread, ok_seq]
  cases l with
  | nil =>
    obtain rfl : l' = [] := (List.append_eq_nil_iff.mp heq.symm).2
    exact ⟨_, _, rfl, .inl ⟨rfl, rfl, hwait⟩⟩
  | cons b l =>
    obtain rfl : l' = l := (List.cons.inj heq).2.symm
    exact ⟨_, _, rfl, .inr ⟨b, l', rfl, rfl, hwait⟩⟩

theorem ReadsUntil.waiting (hr : ReadsUntil t c line c') (h : c.Waiting l) :
    line = l.takeWhile (· ≠ t) ∧ c'.Waiting ((l.dropWhile (· ≠ t)).drop 1) := by
  induction hr generalizing l with
  | found hread hres =>
    obtain ⟨got, c₁, hread', ⟨-, hneg, -⟩ | ⟨b, l', rfl, hb, hwait⟩⟩ := h.readByte
    · cases hread'.symm.trans hread
      omega
    · cases hread'.symm.trans hread
      obtain rfl := toNat_inj_of_res hb hres
      simpa using hwait
  | byte hread hres hne _ ih =>
    obtain ⟨got, c₁, hread', ⟨-, hneg, -⟩ | ⟨b, l', rfl, hb, hwait⟩⟩ := h.readByte
    · cases hread'.symm.trans hread
      omega
    · cases hread'.symm.trans hread
      obtain rfl := toNat_inj_of_res hb hres
      obtain ⟨hline, hrest⟩ := ih hwait
      rw [List.takeWhile_cons_of_pos (by simpa using hne), List.dropWhile_cons_of_pos (by simpa using hne)]
      exact ⟨by rw [hline], hrest⟩
  | again hread hneg _ ih =>
    obtain ⟨got, c₁, hread', ⟨rfl, -, hwait⟩ | ⟨b, l', -, hb, -⟩⟩ := h.readByte
    · cases hread'.symm.trans hread
      exact ih hwait
    · cases hread'.symm.trans hread
      omega
  | timeout hread hneg =>
    obtain ⟨got, c₁, hread', ⟨rfl, -, hwait⟩ | ⟨b, l', -, hb, -⟩⟩ := h.readByte
    · cases hread'.symm.trans hread
      exact ⟨rfl, hwait⟩
    · cases hread'.symm.trans hread
      omega

theorem WiFiClient.Waiting.readsUntil (h : c.Waiting l) (t : UInt8) : ∃ line c', ReadsUntil t c line c' := by
  induction l generalizing c with
  | nil =>
    obtain ⟨got, c', hread, ⟨-, hneg, -⟩ | ⟨b, l', hnil, -⟩⟩ := h.readByte
    · exact ⟨[], c', .timeout hread (by omega)⟩
    · cases hnil
  | cons b l ih =>
    obtain ⟨got, c₁, hread, ⟨hnil, -⟩ | ⟨b', l', hl, hb, hwait⟩⟩ := h.readByte
    · cases hnil
    · cases hl
      by_cases ht : b = t
      · exact ⟨[], c₁, .found hread (ht ▸ hb)⟩
      · obtain ⟨line, c', hrest⟩ := ih hwait
        exact ⟨b :: line, c', .byte hread hb ht hrest⟩

/-- A line read takes at least a byte. -/
theorem length_rest {n : Nat} (hl : l ≠ []) (hn : l.length ≤ n + 1) :
    ((l.dropWhile (· ≠ t)).drop 1).length ≤ n := by
  have hle := (List.dropWhile_suffix (· ≠ t) (l := l)).length_le
  have hpos := List.length_pos_iff.mpr hl
  rw [List.length_drop]
  omega

theorem lines_cons_of_ne {n : Nat} (hl : l ≠ []) :
    lines (n + 1) l = l.takeWhile (· ≠ CR) :: lines n ((l.dropWhile (· ≠ CR)).drop 1) := by
  cases l with
  | nil => exact absurd rfl hl
  | cons b l => rfl

theorem lines_nil (n : Nat) : lines n [] = [] := by
  cases n <;> rfl

theorem ReadsLines.waiting (hr : ReadsLines c ls c') (h : c.Waiting l) {n : Nat} (hn : l.length ≤ n) :
    ls = lines n l := by
  induction hr generalizing l n with
  | done hzero =>
    rw [h.available.1] at hzero
    rw [List.eq_nil_of_length_eq_zero hzero, lines_nil]
  | line hne hline _ ih =>
    rw [h.available.1] at hne
    obtain ⟨hfirst, hrest⟩ := hline.waiting h.available.2
    have hl : l ≠ [] := fun hnil => hne (by rw [hnil]; rfl)
    obtain ⟨n, rfl⟩ : ∃ m, n = m + 1 := ⟨n - 1, by omega⟩
    rw [lines_cons_of_ne hl, hfirst, ih hrest (length_rest hl hn)]

theorem WiFiClient.Waiting.readsLines (h : c.Waiting l) {n : Nat} (hn : l.length ≤ n) :
    ∃ c', ReadsLines c (lines n l) c' := by
  induction n generalizing c l with
  | zero =>
    obtain rfl := List.eq_nil_of_length_eq_zero (Nat.le_zero.mp hn)
    exact ⟨_, .done h.available.1⟩
  | succ n ih =>
    by_cases hl : l = []
    · subst hl
      exact ⟨_, .done h.available.1⟩
    · obtain ⟨line, c₁, hline⟩ := h.available.2.readsUntil CR
      obtain ⟨rfl, hrest⟩ := hline.waiting h.available.2
      obtain ⟨c', hlines⟩ := ih hrest (length_rest hl hn)
      rw [lines_cons_of_ne hl]
      refine ⟨c', .line (fun hzero => hl ?_) hline hlines⟩
      rw [h.available.1] at hzero
      exact List.eq_nil_of_length_eq_zero hzero

theorem Answers.waiting (hr : Answers timeout c ls c') (h : c.Waiting l) : ls = lines l.length l := by
  induction hr with
  | timedOut hzero =>
    rw [h.available.1] at hzero
    rw [List.eq_nil_of_length_eq_zero hzero]
    rfl
  | wait _ _ _ ih => exact ih h.available.2
  | data _ hlines => exact hlines.waiting h.available.2 (Nat.le_refl _)

theorem WiFiClient.Waiting.answers (h : c.Waiting l) (timeout : UInt32) :
    ∃ c', Answers timeout c (lines l.length l) c' := by
  by_cases hl : l = []
  · subst hl
    refine ⟨_, @Answers.timedOut timeout c (timeout + 5001) h.available.1 ?_⟩
    rw [UInt32.add_comm, UInt32.add_sub_cancel]
    decide
  · obtain ⟨c', hlines⟩ := h.available.2.readsLines (Nat.le_refl _)
    refine ⟨c', .data (fun hzero => hl ?_) hlines⟩
    rw [h.available.1] at hzero
    exact List.eq_nil_of_length_eq_zero hzero

/-- **The two levels agree.** When the bytes `l` are there whole, reading them through the buffer gives
their lines and nothing else. -/
theorem answers_iff (timeout : UInt32) (c : WiFiClient) (l : List UInt8) (ls : List (List UInt8))
    (h : c.Waiting l) : (∃ c', Answers timeout c ls c') ↔ ls = lines l.length l := by
  refine ⟨fun ⟨c', hr⟩ => hr.waiting h, ?_⟩
  rintro rfl
  exact h.answers timeout

end

/-- "cmd" arrives, and nothing else. -/
def cmdOnly : Nat → Tick
  | 0 => ⟨(lit "cmd").bytes, true, true, .upTo 9⟩
  | _ => ⟨[], true, true, .upTo 9⟩

theorem waiting_cmd : (WiFiClient.connected cmdOnly).available.2.Waiting (lit "cmd").bytes :=
  ⟨(WiFiClient.available_spec (WiFiClient.inv_connected cmdOnly)).1,
    fun _ => ⟨rfl, rfl, rfl, 9, rfl, by decide⟩, _, rfl, rfl⟩

theorem answers_cmd : ∃ c', Answers 0 (WiFiClient.connected cmdOnly).available.2 [(lit "cmd").bytes] c' :=
  (answers_iff 0 _ _ _ waiting_cmd).mpr (by decide)

end CryptoLocker
