import CryptoLocker.Client.Request
import CryptoLocker.Lib.Interleave

/-!
# Requests among the locker's polls

The locker sends "ESP32-LOCKER" on a connection of its own, over and over. A
poll takes the next row of whatever call is open, so a request is applied as
it was sent exactly when its terminator came before the first poll
(`polls_harmless_iff`).
-/

namespace CryptoLocker

open Lib

/-- A connection of `loop` in `locker.ino`. -/
def poll : AcceptResult := arrival ESP32_LOCKER.bytes

inductive Party where
  | client
  | locker
  deriving DecidableEq

/-- One request of the client and `n` polls of the locker. -/
def pollStreams (r : Request) (n : Nat) : Party → List AcceptResult
  | .client => r.conns
  | .locker => List.replicate n poll

theorem poll_ends : poll.ends = false := by decide

section
variable {r : Request} {n : Nat} {evs : List (Party × AcceptResult)} {M : Malloc Addr} {s : Store}

theorem perm_of_polls (h : Interleaves (pollStreams r n) evs) :
    (evs.map Prod.snd).Perm (r.conns ++ List.replicate n poll) := by
  have hseq : Interleaves (pollStreams r n)
      (r.conns.map (Party.client, ·) ++ (List.replicate n poll).map (Party.locker, ·)) := by
    intro c
    rw [part_append, part_block, part_block]
    cases c
    · exact List.append_nil _
    · rfl
  have hperm := (h.perm hseq).map Prod.snd
  rw [List.map_append, List.map_map, List.map_map] at hperm
  simpa [Function.comp_def] using hperm

/-- A terminated block within a stream that ends once lies before the end. -/
theorem sublist_before_end {body pre rest : List AcceptResult} {t e : AcceptResult} (ht : t.ends)
    (hpre : Open AcceptResult.ends pre) (hrest : Open AcceptResult.ends rest)
    (h : (body ++ [t]).Sublist (pre ++ e :: rest)) : body.Sublist pre := by
  obtain ⟨l₁, l₂, hl, h₁, h₂⟩ := List.sublist_append_iff.mp h
  have hclash : ∀ {l : List AcceptResult}, Open AcceptResult.ends l → t ∉ l := fun hl hm =>
    Bool.noConfusion (ht.symm.trans (hl t hm))
  rcases List.eq_nil_or_concat l₂ with rfl | ⟨l₂, u, rfl⟩
  · -- the terminator cannot lie before the end
    have hm : t ∈ l₁ := by rw [← List.append_nil l₁, ← hl]; simp
    exact absurd (h₁.subset hm) (hclash hpre)
  · simp only [List.concat_eq_append] at hl h₂
    rw [← List.append_assoc] at hl
    obtain ⟨rfl, hu⟩ := List.append_inj' hl rfl
    obtain rfl : t = u := (List.cons.inj hu).1
    cases l₂ with
    | nil => rwa [List.append_nil]
    | cons x l₂ =>
      -- nor behind it
      have hm : t ∈ rest := (List.Sublist.of_cons_cons h₂).subset (by simp)
      exact absurd hm (hclash hrest)

/-- Row 0 of a schedule is the client's command or a poll. -/
theorem first_row (h : Interleaves (pollStreams r n) evs) {a : AcceptResult} {l : List AcceptResult}
    (hl : evs.map Prod.snd = a :: l) : a.row = r.command.str ∨ a.row = ESP32_LOCKER := by
  obtain ⟨⟨c, b⟩, evs', rfl, rfl, -⟩ := List.map_eq_cons_iff.mp hl
  have hc := h c
  rw [part_cons_self] at hc
  cases c with
  | client =>
    refine .inl ?_
    rw [(List.cons.inj hc).1]
    exact cstr_bytes _
  | locker =>
    have hm : b ∈ List.replicate n poll := by
      show b ∈ pollStreams r n .locker
      rw [← hc]
      exact List.mem_cons_self
    refine .inr ?_
    rw [List.eq_of_mem_replicate hm]
    rfl

/-- The stream up to the terminator and behind it. -/
theorem polls_split (h : Interleaves (pollStreams r n) evs) :
    ∃ pre rest, evs.map Prod.snd = pre ++ arrival r.terminator :: rest ∧
      Open AcceptResult.ends pre ∧ Open AcceptResult.ends rest ∧ r.body.Sublist pre := by
  have hperm := perm_of_polls h
  obtain ⟨segs, rest, hl, hsegs, hrest⟩ := exists_segments AcceptResult.ends (evs.map Prod.snd)
  have hcount : segs.length = 1 := by
    rw [← countP_segments hsegs hrest, ← hl, hperm.countP_eq, List.countP_append, r.conns_closed.countP,
      List.countP_replicate, poll_ends]
    rfl
  obtain ⟨seg, rfl⟩ := List.length_eq_one_iff.mp hcount
  obtain ⟨pre, e, rfl, hpre, he⟩ := hsegs seg List.mem_cons_self
  have hmem : e ∈ r.conns ++ List.replicate n poll := hperm.subset (by simp [hl])
  have het : e = arrival r.terminator := by
    rcases List.mem_append.mp hmem with hm | hm
    · rcases List.mem_append.mp hm with hm | hm
      · exact Bool.noConfusion (he.symm.trans (r.body_open e hm))
      · exact List.mem_singleton.mp hm
    · rw [List.eq_of_mem_replicate hm] at he
      cases he
  subst het
  have hl' : evs.map Prod.snd = pre ++ arrival r.terminator :: rest := by simp [hl]
  have hclient : part .client evs = r.body ++ [arrival r.terminator] := h .client
  refine ⟨pre, rest, hl', hpre, hrest, sublist_before_end (e := arrival r.terminator) he hpre hrest ?_⟩
  rw [← hl', ← hclient]
  exact part_sublist

theorem polls_fit (h : Interleaves (pollStreams r n) evs) : ∀ a ∈ evs.map Prod.snd, a.Fits := by
  intro a ha
  rcases List.mem_append.mp ((perm_of_polls h).subset ha) with hm | hm
  · exact r.conns_fits a hm
  · rw [List.eq_of_mem_replicate hm]
    decide

/-- What the server applies of a stream that ends once. -/
theorem applied_once (pre rest : List AcceptResult) {l : List AcceptResult}
    (hl : l = pre ++ arrival r.terminator :: rest) (hfit : ∀ a ∈ l, a.Fits)
    (hpre : Open AcceptResult.ends pre) (hrest : Open AcceptResult.ends rest) :
    applied ((Machine.start (Server.start s) []).run M l).served =
      if pre.length < bufRows ∧ Changes (rowsOfConns pre) then [rowsOfConns pre] else [] := by
  have hserved : ((RowMachine.start s []).run M l).served =
      if pre.length < bufRows then [servedOf (pre ++ [arrival r.terminator])] else [] :=
    hl ▸ RowMachine.run_once hpre r.terminator_ends nofun hrest
  rw [← Machine.forget_served, run_forget M s hfit, hserved]
  by_cases hlen : pre.length < bufRows
  · simp only [hlen, if_true, true_and, applied, List.map_cons, List.map_nil, servedOf,
      rowsOfConns_ends r.terminator_ends, List.filter_cons, List.filter_nil, decide_eq_true_eq]
  · simp only [hlen, if_false, false_and]
    rfl

/-- The request's connections come first when nothing else is before its terminator. -/
theorem conns_prefix_iff {pre rest : List AcceptResult} (hpre : Open AcceptResult.ends pre) :
    r.conns <+: pre ++ arrival r.terminator :: rest ↔ pre = r.body := by
  constructor
  · rintro ⟨l, he⟩
    have hcut := congrArg (List.splitOnP AcceptResult.ends) he
    rw [Request.conns, ← List.append_cons,
      List.splitOnP_append_cons_of_forall_mem r.body_open _ r.terminator_ends,
      List.splitOnP_append_cons_of_forall_mem hpre _ r.terminator_ends] at hcut
    exact (List.cons.inj hcut).1.symm
  · rintro rfl
    exact ⟨rest, by simp [Request.conns]⟩

/-- Only the request's own connections give the request's rows. -/
theorem rows_eq_iff {pre : List AcceptResult} (hpre : Open AcceptResult.ends pre)
    (hsub : r.body.Sublist pre) : rowsOfConns pre = r.rows ↔ pre = r.body := by
  constructor
  · intro h
    have hstrings : pre.map AcceptResult.row = r.strings := by
      refine rowsOf_inj (fun t ht => ?_) r.strings_ne_empty h
      obtain ⟨a, ha, rfl⟩ := List.mem_map.mp ht
      exact AcceptResult.ends_eq_false.mp (hpre a ha)
    refine (hsub.eq_of_length ?_).symm
    have hlen := congrArg List.length hstrings
    rw [List.length_map] at hlen
    rw [hlen, r.length_body]
  · rintro rfl
    exact r.body_rows

/-- Polls make no command of a request that is none. -/
theorem not_changes_of_polls (h : Interleaves (pollStreams r n) evs) {pre rest : List AcceptResult}
    (hl : evs.map Prod.snd = pre ++ arrival r.terminator :: rest) (hsub : r.body.Sublist pre)
    (hc : ¬ Changes r.rows) : ¬ Changes (rowsOfConns pre) := by
  obtain ⟨a, l, rfl⟩ : ∃ a l, pre = a :: l := by
    cases pre with
    | nil => cases List.sublist_nil.mp hsub
    | cons a l => exact ⟨a, l, rfl⟩
  intro hp
  rcases first_row h hl with ha | ha
  · exact hc (by rwa [Changes, show rowsOfConns (a :: l) 0 = r.rows 0 from ha] at hp)
  · rw [Changes, show rowsOfConns (a :: l) 0 = ESP32_LOCKER from ha] at hp
    exact absurd hp (by decide)

/-- **Polls.** Among any polls the server applies what it applies of the request
alone exactly when the request changes nothing, does not fit the buffer, or is
received before the first poll. -/
theorem polls_harmless_iff (M : Malloc Addr) (s : Store) (r : Request) (n : Nat)
    (evs : List (Party × AcceptResult)) (h : Interleaves (pollStreams r n) evs) :
    applied ((Machine.start (Server.start s) []).run M (evs.map Prod.snd)).served =
        applied ((Machine.start (Server.start s) []).run M r.conns).served ↔
      ¬ Changes r.rows ∨ ¬ r.Fits ∨ r.conns <+: evs.map Prod.snd := by
  obtain ⟨pre, rest, hl, hpre, hrest, hsub⟩ := polls_split h
  have hlen := hsub.length_le
  rw [r.length_body] at hlen
  have halone := applied_once (M := M) (s := s) (r := r) (l := r.conns) r.body [] rfl r.conns_fits
    r.body_open open_nil
  rw [r.length_body, r.body_rows] at halone
  rw [applied_once pre rest hl (polls_fit h) hpre hrest, halone, hl, conns_prefix_iff hpre]
  by_cases hc : Changes r.rows
  · by_cases hf : r.strings.length < bufRows
    · have hr : r.Fits := hf
      rw [if_pos (c := r.strings.length < bufRows ∧ _) ⟨hf, hc⟩, ← rows_eq_iff hpre hsub]
      simp only [hc, hr, not_true_eq_false, false_or]
      refine ⟨fun he => ?_, fun he => ?_⟩
      · split at he
        · exact (List.cons.inj he).1
        · cases he
      · have hbody := (rows_eq_iff hpre hsub).mp he
        rw [he, if_pos ⟨by rw [hbody, r.length_body]; exact hf, hc⟩]
    · have hr : ¬ r.Fits := hf
      rw [if_neg fun hp => by omega, if_neg fun hp => hf hp.1]
      exact iff_of_true rfl (.inr (.inl hr))
  · have hnc := not_changes_of_polls h hl hsub hc
    rw [if_neg fun hp => hnc hp.2, if_neg fun hp => hc hp.2]
    exact iff_of_true rfl (.inl hc)

theorem polls_harmless_behind :
    applied ((Machine.start (Server.start Store.init) []).run Malloc.next
        ((createFor alice).conns ++ [poll])).served =
      applied ((Machine.start (Server.start Store.init) []).run Malloc.next
        (createFor alice).conns).served := by
  have h : Interleaves (pollStreams (createFor alice) 1)
      ((createFor alice).conns.map (Party.client, ·) ++ [(Party.locker, poll)]) := by
    intro c
    cases c <;> rfl
  exact (polls_harmless_iff Malloc.next Store.init _ 1 _ h).mpr (.inr (.inr ⟨[poll], rfl⟩))

/-- A poll before the request takes row 0, and the create is lost. -/
theorem polls_harmless_fails :
    ∃ evs, Interleaves (pollStreams (createFor alice) 1) evs ∧
      applied ((Machine.start (Server.start Store.init) []).run Malloc.next (evs.map Prod.snd)).served ≠
        applied ((Machine.start (Server.start Store.init) []).run Malloc.next
          (createFor alice).conns).served := by
  have h : Interleaves (pollStreams (createFor alice) 1)
      ((Party.locker, poll) :: (createFor alice).conns.map (Party.client, ·)) := by
    intro c
    cases c <;> rfl
  have hlost := (applied_once (M := Malloc.next) (s := Store.init) (r := createFor alice)
    (poll :: (createFor alice).body) [] rfl (polls_fit h) (by decide)
    open_nil).trans (if_neg (by decide))
  have hkept := (applied_once (M := Malloc.next) (s := Store.init) (r := createFor alice)
    (l := (createFor alice).conns) (createFor alice).body [] rfl (createFor alice).conns_fits
    (createFor alice).body_open open_nil).trans (if_pos (by decide))
  exact ⟨_, h, fun he => absurd (hlost.symm.trans (he.trans hkept)) nofun⟩

end

end CryptoLocker
