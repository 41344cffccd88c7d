import CryptoLocker.Server.Replies

/-!
# The fate of a connection

What becomes of a connection is decided by the step that accepts it: the server
leaves it waiting, answers it as a poll, or ends the call on it with an "ACK"
that it keeps open or closes. `Server.Shows F` says the log and the open
descriptors are those of the fates `F`, one for each connection accepted; a
step appends at most one (`Machine.fate_step`), so over every run fates are
only added (`fates`).
-/

namespace CryptoLocker

open Lib

inductive Fate where
  | waiting
  | polled
  | acknowledged
  | closed
  deriving DecidableEq

/-- The one message a connection gets, if any. -/
def Fate.reply : Fate → Option (List UInt8)
  | .waiting => none
  | .polled => some cmd
  | .acknowledged | .closed => some ACK

def Fate.isOpen : Fate → Bool
  | .closed => false
  | _ => true

/-- The messages of the fates, each with its connection. -/
def logOf (F : List Fate) : List (Fd × List UInt8) :=
  F.zipIdx.flatMap fun x => x.1.reply.toList.map (x.2, ·)

/-- The connections that are open. -/
def openOf (F : List Fate) : List Fd := (F.zipIdx.filter (·.1.isOpen)).map Prod.snd

/-- The server has accepted a connection for each fate, has sent their messages
in order and nothing else, and holds those open that are not closed. -/
structure Server.Shows (sv : Server) (F : List Fate) : Prop where
  accepted : sv.accepted = F.length
  sent : sv.sent = logOf F
  openFds : sv.openFds = openOf F

section
variable {M : Malloc Addr} {sv sv' : Server} {F : List Fate} {f : Fate} {fd : Fd}

theorem logOf_snoc (F : List Fate) (f : Fate) :
    logOf (F ++ [f]) = logOf F ++ f.reply.toList.map (F.length, ·) := by
  simp [logOf, List.zipIdx_append]

theorem openOf_snoc (F : List Fate) (f : Fate) :
    openOf (F ++ [f]) = openOf F ++ if f.isOpen then [F.length] else [] := by
  cases h : f.isOpen <;> simp [openOf, List.zipIdx_append, h]

theorem mem_openOf : fd ∈ openOf F ↔ ∃ f, F[fd]? = some f ∧ f.isOpen := by
  simp only [openOf, List.mem_map, List.mem_filter, Prod.exists, exists_eq_right,
    List.mk_mem_zipIdx_iff_getElem?]

theorem lt_of_mem_openOf (h : fd ∈ openOf F) : fd < F.length := by
  obtain ⟨f, hf, -⟩ := mem_openOf.mp h
  exact (List.getElem?_eq_some_iff.mp hf).1

theorem Server.shows_start (s : Store) : (Server.start s).Shows [] := ⟨rfl, rfl, rfl⟩

/-- Everything sent on a connection is the message of its fate. -/
theorem Server.Shows.sentOn (h : sv.Shows F) (fd : Fd) :
    sv.sentOn fd = ((F[fd]?).bind Fate.reply).getD [] := by
  unfold Server.sentOn
  rw [h.sent]
  clear h
  induction F using List.reverseRecOn with
  | nil => rfl
  | append_singleton F f ih =>
    rw [logOf_snoc, List.filter_append, List.flatMap_append, ih]
    by_cases hfd : fd < F.length
    · have hnone : (f.reply.toList.map (F.length, ·)).filter (·.1 = fd) = [] := by
        refine List.filter_eq_nil_iff.mpr fun x hx => ?_
        obtain ⟨b, -, rfl⟩ := List.mem_map.mp hx
        simpa using hfd.ne'
      rw [hnone, List.getElem?_append_left hfd]
      exact List.append_nil _
    · have hle := Nat.le_of_not_lt hfd
      rw [List.getElem?_eq_none (l := F) hle]
      by_cases heq : fd = F.length
      · subst heq
        cases hr : f.reply with
        | none => simp [hr]
        | some b => simp [hr]
      · have hnone : (f.reply.toList.map (F.length, ·)).filter (·.1 = fd) = [] := by
          refine List.filter_eq_nil_iff.mpr fun x hx => ?_
          obtain ⟨b, -, rfl⟩ := List.mem_map.mp hx
          simpa using Ne.symm heq
        rw [hnone, List.getElem?_eq_none
          (by rw [List.length_append]; exact Nat.lt_of_le_of_ne hle (Ne.symm heq))]
        rfl

/-- One more connection. -/
theorem Server.Shows.snoc (h : sv.Shows F) (hacc : sv'.accepted = sv.accepted + 1)
    (hsent : sv'.sent = sv.sent ++ f.reply.toList.map (sv.accepted, ·))
    (hopen : sv'.openFds = sv.openFds ++ if f.isOpen then [sv.accepted] else []) :
    sv'.Shows (F ++ [f]) := by
  refine ⟨by rw [hacc, h.accepted, List.length_append]; rfl, ?_, ?_⟩
  · rw [hsent, h.sent, h.accepted, logOf_snoc]
  · rw [hopen, h.openFds, h.accepted, openOf_snoc]

theorem Server.Shows.of_eq (h : sv.Shows F) (hacc : sv'.accepted = sv.accepted)
    (hsent : sv'.sent = sv.sent) (hopen : sv'.openFds = sv.openFds) : sv'.Shows F :=
  ⟨hacc.trans h.accepted, hsent.trans h.sent, hopen.trans h.openFds⟩

theorem Server.Shows.accept (h : sv.Shows F) : sv.accept.Shows (F ++ [.waiting]) :=
  h.snoc rfl (List.append_nil _).symm rfl

theorem Server.poll_openFds (sv : Server) (n : Fd) (row : CStr) : (sv.poll n row).openFds = sv.openFds := by
  unfold Server.poll
  split
  · dsimp only
    split <;> rfl
  · rfl

/-- A poll is answered when there is a list. -/
theorem Server.Shows.poll (h : sv.Shows F) (row : CStr) :
    (sv.accept.poll sv.accepted row).Shows
      (F ++ [if row = ESP32_LOCKER ∧ sv.store.reservations.isSome then .polled else .waiting]) := by
  have hsent := Server.poll_sent sv.accept sv.accepted row
  by_cases hpoll : row = ESP32_LOCKER ∧ sv.store.reservations.isSome
  · rw [if_pos hpoll]
    exact h.snoc (Server.poll_accepted ..) (hsent.trans (congrArg _ (if_pos hpoll)))
      (Server.poll_openFds ..)
  · rw [if_neg hpoll]
    exact h.snoc (Server.poll_accepted ..) (hsent.trans (congrArg _ (if_neg hpoll)))
      (Server.poll_openFds ..)

/-- The end of a call that was left on the connection just accepted. -/
theorem Server.Shows.finish (h : sv.Shows F) {rows : EntryData}
    (hf : sv.accept.finish M rows (some sv.accepted) = .ok sv') :
    ∃ f, (f = .acknowledged ∨ f = .closed) ∧ sv'.Shows (F ++ [f]) := by
  obtain ⟨s, -, hf⟩ := seq_ok.mp hf
  dsimp only at hf
  split at hf
  · cases hf
    refine ⟨.closed, .inr rfl, h.snoc rfl rfl ?_⟩
    have hold : sv.openFds.filter (some · ≠ some sv.accepted) = sv.openFds := by
      refine List.filter_eq_self.mpr fun n hn => ?_
      rw [h.openFds] at hn
      simpa using (h.accepted ▸ lt_of_mem_openOf hn).ne
    show (sv.openFds ++ [sv.accepted]).filter (some · ≠ some sv.accepted) = _
    rw [List.filter_append, hold]
    simp [Fate.isOpen]
  · cases hf
    exact ⟨.acknowledged, .inl rfl, h.snoc rfl rfl rfl⟩

/-- The end of a call after a failed accept changes no connection. -/
theorem Server.Shows.finish_none (h : sv.Shows F) {rows : EntryData}
    (hf : sv.finish M rows none = .ok sv') : sv'.Shows F := by
  obtain ⟨s, -, hf⟩ := seq_ok.mp hf
  dsimp only at hf
  split at hf
  · cases hf
    refine h.of_eq rfl (List.append_nil _) (List.filter_eq_self.mpr fun n _ => ?_)
    simp
  · cases hf
    exact h.of_eq rfl (List.append_nil _) rfl

end

/-! ## Runs -/

section
variable {M : Malloc Addr} {m : Machine} {F : List Fate}

/-- What a turn of the loop does to the server. -/
theorem iteration_ok_server {sv sv' : Server} {buf buf' : Buffer} {i : Nat} {fd : Fd} {r : ReadResult}
    {left : Bool} (hi : iteration sv buf i fd r = .ok (sv', buf', left)) :
    readRow buf i r = .ok buf' ∧
      ((left = true ∧ buf'.row i = CStr.empty ∧ sv' = sv) ∨
        (left = false ∧ buf'.row i ≠ CStr.empty ∧ sv' = sv.poll fd (buf'.row i))) := by
  obtain ⟨b', hread, hi⟩ := seq_ok.mp hi
  obtain ⟨row, hrow, hi⟩ := seq_ok.mp hi
  unfold readString at hrow
  split at hrow
  · cases hrow
    simp only [strcmp_eq_zero] at hi
    split at hi
    · next hempty =>
      cases hi
      exact ⟨hread, .inl ⟨rfl, hempty, rfl⟩⟩
    · next hne =>
      injection hi with hi
      obtain ⟨hsv, hrest⟩ := Prod.mk.inj hi
      obtain ⟨rfl, rfl⟩ := Prod.mk.inj hrest
      exact ⟨hread, .inr ⟨rfl, hne, hsv.symm⟩⟩
  · cases hrow

/-- The end of a call, from a server that shows `F` before the connection. -/
theorem Machine.endCall_fate {sv : Server} (h : sv.Shows F) (served : List Served) (buf : Buffer)
    (conns : List AcceptResult) :
    ∃ f, f ≠ .polled ∧
      (Machine.endCall M served sv.accept buf conns (some sv.accepted)).server.Shows (F ++ [f]) := by
  unfold Machine.endCall
  cases hfin : finishBuffer M sv.accept buf (some sv.accepted) with
  | error e => exact ⟨.waiting, nofun, h.accept⟩
  | ok sv' =>
    unfold finishBuffer at hfin
    split at hfin
    · obtain ⟨f, hf, hshows⟩ := h.finish hfin
      refine ⟨f, ?_, hshows⟩
      rcases hf with rfl | rfl <;> nofun
    · cases hfin

theorem Machine.endCall_none_fate {sv : Server} (h : sv.Shows F) (served : List Served) (buf : Buffer)
    (conns : List AcceptResult) : (Machine.endCall M served sv buf conns none).server.Shows F := by
  unfold Machine.endCall
  cases hfin : finishBuffer M sv buf none with
  | error e => exact h
  | ok sv' =>
    unfold finishBuffer at hfin
    split at hfin
    · exact h.finish_none hfin
    · cases hfin

/-- **One connection.** The step that accepts it decides its fate and no other; a poll is answered
only where a list exists. -/
theorem Machine.fate_conn (h : m.server.Shows F) (hf : m.fault = none) (r : ReadResult) :
    ∃ f, (m.step M (.conn r)).server.Shows (F ++ [f]) ∧
      (f = .polled → m.server.store.reservations.isSome) := by
  obtain ⟨r', e, -, -, hstep⟩ | ⟨r', sv, buf, he, hi, hstep⟩ | ⟨sv, buf, fd, hleaves, hstep⟩ :=
    Machine.step_cases M hf (.conn r)
  · rw [hstep]
    exact ⟨.waiting, h.accept, nofun⟩
  · rw [hstep]
    obtain ⟨-, ⟨hleft, -⟩ | ⟨-, -, rfl⟩⟩ := iteration_ok_server hi
    · cases hleft
    · refine ⟨_, h.poll _, fun hpolled => ?_⟩
      split at hpolled
      · next hp => exact hp.2
      · cases hpolled
  · rw [hstep]
    obtain ⟨hi, rfl⟩ := hleaves
    obtain ⟨-, ⟨-, -, rfl⟩ | ⟨hleft, -⟩⟩ := iteration_ok_server hi
    · obtain ⟨f, hne, hshows⟩ := Machine.endCall_fate (M := M) h m.served buf (m.conns ++ [.conn r])
      exact ⟨f, hshows, fun heq => absurd heq hne⟩
    · cases hleft

theorem Machine.fate_step (h : m.server.Shows F) (a : AcceptResult) :
    ∃ G, (m.step M a).server.Shows (F ++ G) := by
  cases hf : m.fault with
  | some f =>
    rw [show m.step M a = m from Machine.run_fault hf [a]]
    exact ⟨[], by rwa [List.append_nil]⟩
  | none =>
    cases a with
    | error =>
      rw [Machine.step_acceptError hf]
      exact ⟨[], by rw [List.append_nil]; exact Machine.endCall_none_fate h _ _ _⟩
    | conn r =>
      obtain ⟨f, hshows, -⟩ := Machine.fate_conn (M := M) h hf r
      exact ⟨[f], hshows⟩

theorem Machine.fate_run (h : m.server.Shows F) (stream : List AcceptResult) :
    ∃ G, (m.run M stream).server.Shows (F ++ G) := by
  induction stream generalizing m F with
  | nil => exact ⟨[], by rwa [List.append_nil]⟩
  | cons a stream ih =>
    obtain ⟨G, hG⟩ := Machine.fate_step (M := M) h a
    obtain ⟨G', hG'⟩ := ih hG
    exact ⟨G ++ G', by rw [← List.append_assoc]; exact hG'⟩

end

/-- **Fates.** At every point of every run, whatever was received, the log and the open descriptors
are those of one fate for each connection; what comes later only adds fates. -/
theorem fates (M : Malloc Addr) (s : Store) (pre post : List AcceptResult) :
    ∃ F G, ((Machine.start (Server.start s) []).run M pre).server.Shows F ∧
      ((Machine.start (Server.start s) []).run M (pre ++ post)).server.Shows (F ++ G) := by
  obtain ⟨F, hF⟩ := Machine.fate_run (M := M) (m := Machine.start (Server.start s) [])
    (Server.shows_start s) pre
  obtain ⟨G, hG⟩ := Machine.fate_run (M := M) hF post
  exact ⟨F, G, hF, by rw [Machine.run_append]; exact hG⟩

end CryptoLocker
