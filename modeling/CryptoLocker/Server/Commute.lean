import CryptoLocker.Server.Roster

/-!
# Requests of two users in either order

Which CREATEs and DELETEs of different users can be taken in either order
(`Roster.Independent`), first on rosters and then, by refinement, on every
reachable store (`either_order_iff`). With the refresh of a session behind each
request two DELETEs must also leave somebody on the list.
-/

namespace CryptoLocker

open Lib

namespace Roster

/-- The same reservations up to list order. -/
def Same (R S : Roster) : Prop := (R.getD []).Perm (S.getD [])

/-- A CREATE is decided the same before and after `user` is deleted. -/
structure Spares (R : Roster) (user : CStr) : Prop where
  inhabited : R.users.erase user ≠ []
  named : CREATE ∈ R.users.erase user ↔ CREATE ∈ R.users

/-- When CREATEs and DELETEs of different users commute. -/
structure Independent (R : Roster) (a b : EntryData) : Prop where
  first : R = none → a 0 = CREATE → b 0 = CREATE →
    (a 1 ≠ CREATE ∧ b 1 ≠ CREATE) ∧ a 2 = a 3 ∧ b 2 = b 3
  append : R ≠ none → a 0 = CREATE → b 0 = CREATE →
    R.users ≠ [] ∧ (CREATE ∈ R.users ∨ (a 1 ≠ CREATE ∧ b 1 ≠ CREATE))
  left : R ≠ none → a 0 = CREATE → b 0 = DELETE → R.Spares (b 1)
  right : R ≠ none → a 0 = DELETE → b 0 = CREATE → R.Spares (a 1)

/-- Two DELETEs that leave nobody on the list. -/
structure Drained (R : Roster) (a b : EntryData) : Prop where
  left : a 0 = DELETE
  right : b 0 = DELETE
  exist : R ≠ none
  users : R.users.Subperm [a 1, b 1]

section
variable {R S T : Roster} {es : List Entry} {a b : EntryData}

theorem Same.symm (h : R.Same S) : S.Same R := List.Perm.symm h

theorem create_some (hcmd : a 0 = CREATE) (hne : es ≠ []) :
    create a (some es) =
      .ok (some (if CREATE ∈ es.map Entry.user then es else es ++ [appendEntry a])) := by
  unfold create
  simp only [hcmd, if_neg hne]
  split <;> rfl

theorem dispatch_create (hcmd : a 0 = CREATE) : R.dispatch a = R.create a := if_pos hcmd

theorem dispatch_delete (hcmd : a 0 = DELETE) : R.dispatch a = .ok (R.delete (a 1)) := by
  unfold dispatch
  rw [if_neg (by rw [hcmd]; decide), if_pos hcmd]

/-! ## Two creates -/

/-- The second of two creates on NULL meets the first one's user. -/
theorem run_create_first (ha : a 0 = CREATE) (hb : b 0 = CREATE) :
    runFrom dispatch none [a, b] =
      .ok (some (if CREATE = a 1 then [firstEntry a] else [firstEntry a, appendEntry b])) := by
  have hcreate : create b (some [firstEntry a]) = _ := create_some hb (List.cons_ne_nil _ _)
  have hmem : CREATE ∈ [firstEntry a].map Entry.user ↔ CREATE = a 1 := List.mem_singleton
  simp only [hmem] at hcreate
  rw [runFrom_pair, dispatch_create ha]
  exact (dispatch_create hb).trans hcreate

theorem create_first_iff (ha : a 0 = CREATE) (hb : b 0 = CREATE) (hne : a 1 ≠ b 1) :
    EitherOrder dispatch Same none a b ↔ (a 1 ≠ CREATE ∧ b 1 ≠ CREATE) ∧ a 2 = a 3 ∧ b 2 = b 3 := by
  rw [eitherOrder_iff_of_ok (run_create_first ha hb) (run_create_first hb ha)]
  by_cases hac : CREATE = a 1
  · rw [if_pos hac, if_neg fun hbc => hne (hac.symm.trans hbc)]
    refine iff_of_false (fun h => ?_) fun h => h.1.1 hac.symm
    exact absurd h.length_eq (by simp)
  · by_cases hbc : CREATE = b 1
    · rw [if_neg hac, if_pos hbc]
      refine iff_of_false (fun h => ?_) fun h => h.1.2 hbc.symm
      exact absurd h.length_eq (by simp)
    · rw [if_neg hac, if_neg hbc]
      constructor
      · intro h
        have hmem_a : firstEntry a ∈ [firstEntry b, appendEntry a] := h.subset List.mem_cons_self
        have hmem_b : firstEntry b ∈ [firstEntry a, appendEntry b] := h.symm.subset List.mem_cons_self
        have ha' : firstEntry a = appendEntry a := by
          rcases List.mem_cons.mp hmem_a with he | he
          · exact absurd (congrArg Entry.user he) hne
          · exact List.mem_singleton.mp he
        have hb' : firstEntry b = appendEntry b := by
          rcases List.mem_cons.mp hmem_b with he | he
          · exact absurd (congrArg Entry.user he).symm hne
          · exact List.mem_singleton.mp he
        exact ⟨⟨Ne.symm hac, Ne.symm hbc⟩, (congrArg Entry.startTime ha').symm,
          (congrArg Entry.startTime hb').symm⟩
      · rintro ⟨-, ha', hb'⟩
        have hfirst : ∀ c : EntryData, c 2 = c 3 → firstEntry c = appendEntry c := fun c hc => by
          simp only [firstEntry, appendEntry, hc]
        rw [hfirst a ha', hfirst b hb']
        exact List.Perm.swap _ _ _

/-- Two creates on a list go behind it, if at all. -/
theorem run_create_append (ha : a 0 = CREATE) (hb : b 0 = CREATE) (hes : es ≠ []) :
    runFrom dispatch (some es) [a, b] =
      .ok (some (if CREATE ∈ es.map Entry.user then es
        else if CREATE = a 1 then es ++ [appendEntry a] else es ++ [appendEntry a, appendEntry b])) := by
  rw [runFrom_pair, dispatch_create ha, create_some ha hes, ok_seq, dispatch_create hb]
  by_cases hc : CREATE ∈ es.map Entry.user
  · rw [if_pos hc, if_pos hc, create_some hb hes, if_pos hc]
  · have hmem : CREATE ∈ (es ++ [appendEntry a]).map Entry.user ↔ CREATE = a 1 := by
      rw [List.map_append, List.mem_append, or_iff_right hc]
      exact List.mem_singleton
    rw [if_neg hc, if_neg hc, create_some hb (by simp)]
    simp only [hmem, List.append_assoc, List.cons_append, List.nil_append]

theorem create_append_iff (ha : a 0 = CREATE) (hb : b 0 = CREATE) (hne : a 1 ≠ b 1) :
    EitherOrder dispatch Same (some es) a b ↔
      es ≠ [] ∧ (CREATE ∈ es.map Entry.user ∨ (a 1 ≠ CREATE ∧ b 1 ≠ CREATE)) := by
  by_cases hes : es = []
  · refine iff_of_false ?_ fun h => h.1 hes
    rintro ⟨t, -, ht, -⟩
    rw [hes, runFrom_pair, dispatch_create ha] at ht
    cases ht
  rw [eitherOrder_iff_of_ok (run_create_append ha hb hes) (run_create_append hb ha hes)]
  by_cases hc : CREATE ∈ es.map Entry.user
  · rw [if_pos hc, if_pos hc]
    exact iff_of_true (List.Perm.refl es) ⟨hes, .inl hc⟩
  rw [if_neg hc, if_neg hc]
  by_cases hac : CREATE = a 1
  · rw [if_pos hac, if_neg fun hbc => hne (hac.symm.trans hbc)]
    refine iff_of_false (fun h => ?_) fun h => (h.2.resolve_left hc).1 hac.symm
    exact absurd h.length_eq (by simp)
  · by_cases hbc : CREATE = b 1
    · rw [if_neg hac, if_pos hbc]
      refine iff_of_false (fun h => ?_) fun h => (h.2.resolve_left hc).2 hbc.symm
      exact absurd h.length_eq (by simp)
    · rw [if_neg hac, if_neg hbc]
      exact iff_of_true ((List.Perm.swap _ _ []).append_left es)
        ⟨hes, .inr ⟨Ne.symm hac, Ne.symm hbc⟩⟩

/-! ## A create and a delete -/

/-- On NULL the delete finds nothing, before or after. -/
theorem create_delete_null (ha : a 0 = CREATE) (hb : b 0 = DELETE) (hne : a 1 ≠ b 1) :
    EitherOrder dispatch Same none a b := by
  have hkeep : Fcfs.cancel Entry.user [firstEntry a] (b 1) = [firstEntry a] := by
    refine Fcfs.cancel_of_find_none (Fcfs.find_eq_none.mpr ?_)
    exact fun h => hne (List.mem_singleton.mp h).symm
  refine ⟨some [firstEntry a], some [firstEntry a], ?_, ?_, List.Perm.refl _⟩
  · rw [runFrom_pair, dispatch_create ha]
    exact (dispatch_delete hb).trans (congrArg (fun l => Except.ok (some l)) hkeep)
  · rw [runFrom_pair, dispatch_delete hb]
    exact dispatch_create ha

theorem users_cancel (es : List Entry) (user : CStr) :
    (Fcfs.cancel Entry.user es user).map Entry.user = (users (some es)).erase user := Fcfs.map_cancel

/-- The entry of a create is of no interest to a later delete of another user. -/
theorem run_create_delete (ha : a 0 = CREATE) (hb : b 0 = DELETE) (hne : a 1 ≠ b 1) (hes : es ≠ []) :
    runFrom dispatch (some es) [a, b] =
      .ok (some (if CREATE ∈ es.map Entry.user then Fcfs.cancel Entry.user es (b 1)
        else Fcfs.cancel Entry.user es (b 1) ++ [appendEntry a])) := by
  rw [runFrom_pair, dispatch_create ha, create_some ha hes, ok_seq, dispatch_delete hb]
  by_cases hc : CREATE ∈ es.map Entry.user
  · rw [if_pos hc, if_pos hc]
    rfl
  · rw [if_neg hc, if_neg hc]
    exact congrArg (fun l => Except.ok (some l)) (Fcfs.cancel_snoc hne)

/-- The create meets what the delete has left. -/
theorem run_delete_create (ha : a 0 = CREATE) (hb : b 0 = DELETE)
    (hnil : Fcfs.cancel Entry.user es (b 1) ≠ []) :
    runFrom dispatch (some es) [b, a] =
      .ok (some (if CREATE ∈ (users (some es)).erase (b 1) then Fcfs.cancel Entry.user es (b 1)
        else Fcfs.cancel Entry.user es (b 1) ++ [appendEntry a])) := by
  rw [runFrom_pair, dispatch_delete hb, ok_seq, dispatch_create ha, ← users_cancel]
  exact create_some ha hnil

theorem create_delete_iff (ha : a 0 = CREATE) (hb : b 0 = DELETE) (hne : a 1 ≠ b 1) :
    EitherOrder dispatch Same (some es) a b ↔ Spares (some es) (b 1) := by
  by_cases hnil : Fcfs.cancel Entry.user es (b 1) = []
  · have husers := users_cancel es (b 1)
    rw [hnil] at husers
    refine iff_of_false ?_ fun h => h.inhabited husers.symm
    rintro ⟨-, u, -, hu, -⟩
    rw [runFrom_pair, dispatch_delete hb, ok_seq, dispatch_create ha] at hu
    cases (congrArg (fun l => create a (some l)) hnil).symm.trans hu
  have hes : es ≠ [] := by rintro rfl; exact hnil rfl
  have hinhabited : (users (some es)).erase (b 1) ≠ [] := by
    rwa [← users_cancel, Ne, List.map_eq_nil_iff]
  rw [eitherOrder_iff_of_ok (run_create_delete ha hb hne hes) (run_delete_create ha hb hnil)]
  by_cases hc : CREATE ∈ es.map Entry.user
  · by_cases hc' : CREATE ∈ (users (some es)).erase (b 1)
    · rw [if_pos hc, if_pos hc']
      exact iff_of_true (List.Perm.refl _) ⟨hinhabited, iff_of_true hc' hc⟩
    · rw [if_pos hc, if_neg hc']
      refine iff_of_false (fun h => ?_) fun h => hc' (h.named.mpr hc)
      exact absurd h.length_eq (by simp)
  · have hc' : CREATE ∉ (users (some es)).erase (b 1) := fun h => hc (List.mem_of_mem_erase h)
    rw [if_neg hc, if_neg hc']
    exact iff_of_true (List.Perm.refl _) ⟨hinhabited, iff_of_false hc' hc⟩

/-! ## Two deletes -/

theorem delete_delete (ha : a 0 = DELETE) (hb : b 0 = DELETE) (hne : a 1 ≠ b 1) :
    EitherOrder dispatch Same R a b := by
  have hrun : ∀ {a b : EntryData}, a 0 = DELETE → b 0 = DELETE →
      runFrom dispatch R [a, b] = .ok ((R.delete (a 1)).delete (b 1)) := fun ha hb => by
    rw [runFrom_pair, dispatch_delete ha]
    exact dispatch_delete hb
  have hcomm : (R.delete (a 1)).delete (b 1) = (R.delete (b 1)).delete (a 1) := by
    cases R with
    | none => rfl
    | some es => exact congrArg some (Fcfs.cancel_comm hne)
  exact ⟨_, _, hrun ha hb, hrun hb ha, hcomm ▸ List.Perm.refl _⟩

/-! ## Any two requests -/

theorem Independent.symm (h : R.Independent a b) : R.Independent b a where
  first hR hb ha := by
    obtain ⟨⟨ha', hb'⟩, ha, hb⟩ := h.first hR ha hb
    exact ⟨⟨hb', ha'⟩, hb, ha⟩
  append hR hb ha := by
    obtain ⟨hne, h⟩ := h.append hR ha hb
    exact ⟨hne, h.imp_right And.symm⟩
  left hR hb ha := h.right hR ha hb
  right hR hb ha := h.left hR ha hb

theorem not_create_of_delete (h : a 0 = DELETE) : a 0 ≠ CREATE := by
  rw [h]
  decide

/-- A create and a delete are independent when the create is decided the same. -/
theorem independent_create_delete (ha : a 0 = CREATE) (hb : b 0 = DELETE) :
    R.Independent a b ↔ (R ≠ none → R.Spares (b 1)) := by
  constructor
  · exact fun h hR => h.left hR ha hb
  · intro h
    exact ⟨fun _ _ hb' => absurd hb' (not_create_of_delete hb),
      fun _ _ hb' => absurd hb' (not_create_of_delete hb), fun hR _ _ => h hR,
      fun _ ha' => absurd ha (not_create_of_delete ha')⟩

theorem either_order_create_delete (ha : a 0 = CREATE) (hb : b 0 = DELETE) (hne : a 1 ≠ b 1) :
    EitherOrder dispatch Same R a b ↔ R.Independent a b := by
  rw [independent_create_delete ha hb]
  cases R with
  | none => exact iff_of_true (create_delete_null ha hb hne) fun h => absurd rfl h
  | some es =>
    rw [create_delete_iff ha hb hne]
    exact ⟨fun h _ => h, fun h => h nofun⟩

theorem either_order_create_create (ha : a 0 = CREATE) (hb : b 0 = CREATE) (hne : a 1 ≠ b 1) :
    EitherOrder dispatch Same R a b ↔ R.Independent a b := by
  have hdel : ∀ {c : EntryData}, c 0 = CREATE → c 0 ≠ DELETE := fun hc hd =>
    not_create_of_delete hd hc
  cases R with
  | none =>
    rw [create_first_iff ha hb hne]
    exact ⟨fun h => ⟨fun _ _ _ => h, fun hR => absurd rfl hR, fun hR => absurd rfl hR,
      fun hR => absurd rfl hR⟩, fun h => h.first rfl ha hb⟩
  | some es =>
    rw [create_append_iff ha hb hne]
    constructor
    · rintro ⟨hes, h⟩
      have husers : users (some es) ≠ [] := fun hnil => hes (List.map_eq_nil_iff.mp hnil)
      exact ⟨nofun, fun _ _ _ => ⟨husers, h⟩, fun _ _ hb' => absurd hb' (hdel hb),
        fun _ ha' => absurd ha' (hdel ha)⟩
    · intro h
      obtain ⟨husers, h⟩ := h.append nofun ha hb
      exact ⟨fun hes => husers (by rw [hes]; rfl), h⟩

theorem independent_delete_delete (ha : a 0 = DELETE) (hb : b 0 = DELETE) : R.Independent a b := by
  refine ⟨?_, ?_, ?_, ?_⟩
  · exact fun _ ha' => absurd ha' (not_create_of_delete ha)
  · exact fun _ ha' => absurd ha' (not_create_of_delete ha)
  · exact fun _ ha' => absurd ha' (not_create_of_delete ha)
  · exact fun _ _ hb' => absurd hb' (not_create_of_delete hb)

/-- **Either order on rosters.** -/
theorem either_order_iff (ha : a 0 = CREATE ∨ a 0 = DELETE) (hb : b 0 = CREATE ∨ b 0 = DELETE)
    (hne : a 1 ≠ b 1) : EitherOrder dispatch Same R a b ↔ R.Independent a b := by
  rcases ha with ha | ha
  · rcases hb with hb | hb
    · exact either_order_create_create ha hb hne
    · exact either_order_create_delete ha hb hne
  · rcases hb with hb | hb
    · rw [eitherOrder_comm fun _ _ => Same.symm, either_order_create_delete hb ha hne.symm]
      exact ⟨Independent.symm, Independent.symm⟩
    · exact iff_of_true (delete_delete ha hb hne) (independent_delete_delete ha hb)

/-! ## With the refresh -/

theorem session_ok : R.session a = .ok S ↔ R.dispatch a = .ok S ∧ S ≠ some [] := by
  unfold session
  rw [seq_ok]
  constructor
  · rintro ⟨T, hd, hu⟩
    unfold update at hu
    split at hu
    · cases hu
    · next hT =>
      cases hu
      exact ⟨hd, hT⟩
  · rintro ⟨hd, hS⟩
    exact ⟨S, hd, if_neg hS⟩

/-- A create that completes met no emptied list and leaves none. -/
theorem create_ok (h : R.create a = .ok S) : R ≠ some [] ∧ S.getD [] ≠ [] := by
  unfold create at h
  split at h
  · cases h
    exact ⟨nofun, nofun⟩
  · next es =>
    split at h
    · next hmem =>
      cases h
      have hes : es ≠ [] := by rintro rfl; cases hmem
      exact ⟨fun he => hes (Option.some.inj he), hes⟩
    · split at h
      · cases h
      · next hes =>
        cases h
        exact ⟨fun he => hes (Option.some.inj he), by simp⟩

theorem ne_some_nil_of_same (h : R.Same S) (hS : S.getD [] ≠ []) : R ≠ some [] := by
  rintro rfl
  exact hS (List.nil_perm.mp h)

theorem run_session_pair :
    runFrom session R [a, b] = .ok T ↔
      ∃ S, R.dispatch a = .ok S ∧ S ≠ some [] ∧ S.dispatch b = .ok T ∧ T ≠ some [] := by
  rw [runFrom_pair, seq_ok]
  refine exists_congr fun S => ?_
  rw [session_ok, session_ok, and_assoc]

theorem run_dispatch_pair :
    runFrom dispatch R [a, b] = .ok T ↔ ∃ S, R.dispatch a = .ok S ∧ S.dispatch b = .ok T := by
  rw [runFrom_pair, seq_ok]

theorem eitherOrder_of_session (h : EitherOrder session Same R a b) :
    EitherOrder dispatch Same R a b := by
  obtain ⟨t, u, ht, hu, htu⟩ := h
  obtain ⟨S, hS, -, ht, -⟩ := run_session_pair.mp ht
  obtain ⟨S', hS', -, hu, -⟩ := run_session_pair.mp hu
  exact ⟨t, u, run_dispatch_pair.mpr ⟨S, hS, ht⟩, run_dispatch_pair.mpr ⟨S', hS', hu⟩, htu⟩

/-- Next to a create no order leaves an emptied list behind. -/
theorem session_either_order_create (ha : a 0 = CREATE) :
    EitherOrder session Same R a b ↔ EitherOrder dispatch Same R a b := by
  refine ⟨eitherOrder_of_session, ?_⟩
  rintro ⟨t, u, ht, hu, htu⟩
  obtain ⟨S, hS, ht⟩ := run_dispatch_pair.mp ht
  obtain ⟨S', hS', hu⟩ := run_dispatch_pair.mp hu
  obtain ⟨-, hne⟩ := create_ok ((dispatch_create ha).symm.trans hS)
  obtain ⟨hne', hne''⟩ := create_ok ((dispatch_create ha).symm.trans hu)
  refine ⟨t, u, run_session_pair.mpr ⟨S, hS, ?_, ht, ne_some_nil_of_same htu hne''⟩,
    run_session_pair.mpr ⟨S', hS', hne', hu, ?_⟩, htu⟩
  · rintro rfl
    exact hne rfl
  · rintro rfl
    exact hne'' rfl

theorem delete_eq_nil {user : CStr} (h : R.delete user ≠ some []) : R ≠ some [] := by
  rintro rfl
  exact h rfl

/-- Two deletes empty the list they drain. -/
theorem delete_delete_eq_nil {k k' : CStr} :
    (R.delete k).delete k' = some [] ↔ R ≠ none ∧ R.users.Subperm [k, k'] := by
  cases R with
  | none => exact iff_of_false nofun fun h => h.1 rfl
  | some es =>
    have husers : (Fcfs.cancel Entry.user (Fcfs.cancel Entry.user es k) k').map Entry.user =
        ((users (some es)).erase k).erase k' := by
      rw [Fcfs.map_cancel, Fcfs.map_cancel]
      rfl
    rw [← Fcfs.erase_erase_eq_nil, ← husers, List.map_eq_nil_iff]
    exact ⟨fun h => ⟨nofun, Option.some.inj h⟩, fun h => congrArg some h.2⟩

theorem session_delete_delete (ha : a 0 = DELETE) (hb : b 0 = DELETE) (hne : a 1 ≠ b 1) :
    EitherOrder session Same R a b ↔ ¬ R.Drained a b := by
  constructor
  · rintro ⟨t, u, ht, hu, -⟩ hd
    obtain ⟨S, hS, -, ht, hne⟩ := run_session_pair.mp ht
    cases (dispatch_delete ha).symm.trans hS
    cases (dispatch_delete hb).symm.trans ht
    exact hne (delete_delete_eq_nil.mpr ⟨hd.exist, hd.users⟩)
  · intro hd
    obtain ⟨t, u, ht, hu, htu⟩ := delete_delete (R := R) ha hb hne
    have hrun : ∀ {a b : EntryData} {T : Roster}, a 0 = DELETE → b 0 = DELETE →
        runFrom dispatch R [a, b] = .ok T → ¬ (R ≠ none ∧ R.users.Subperm [a 1, b 1]) →
        runFrom session R [a, b] = .ok T := by
      intro a b T ha hb h hno
      obtain ⟨S, hS, hT⟩ := run_dispatch_pair.mp h
      cases (dispatch_delete ha).symm.trans hS
      cases (dispatch_delete hb).symm.trans hT
      rw [← delete_delete_eq_nil] at hno
      exact run_session_pair.mpr ⟨_, hS, delete_eq_nil hno, hT, hno⟩
    refine ⟨t, u, hrun ha hb ht fun h => ?_, hrun hb ha hu fun h => ?_, htu⟩
    · exact hd ⟨ha, hb, h.1, h.2⟩
    · exact hd ⟨ha, hb, h.1, h.2.trans (List.Perm.swap _ _ []).subperm⟩

/-- **Either order with the refresh.** -/
theorem session_either_order_iff (ha : a 0 = CREATE ∨ a 0 = DELETE) (hb : b 0 = CREATE ∨ b 0 = DELETE)
    (hne : a 1 ≠ b 1) :
    EitherOrder session Same R a b ↔ R.Independent a b ∧ ¬ R.Drained a b := by
  rw [← either_order_iff ha hb hne]
  rcases ha with ha | ha
  · rw [session_either_order_create ha]
    exact ⟨fun h => ⟨h, fun hd => not_create_of_delete hd.left ha⟩, And.left⟩
  · rcases hb with hb | hb
    · have hsymm : EitherOrder session Same R a b ↔ EitherOrder dispatch Same R a b := by
        rw [eitherOrder_comm fun _ _ => Same.symm, session_either_order_create hb,
          eitherOrder_comm fun _ _ => Same.symm]
      rw [hsymm]
      exact ⟨fun h => ⟨h, fun hd => not_create_of_delete hd.right hb⟩, And.left⟩
    · rw [session_delete_delete ha hb hne]
      exact ⟨fun h => ⟨delete_delete ha hb hne, h⟩, And.right⟩

end

end Roster

/-! ## On the list -/

/-- The same reservations, up to list order. -/
def SameReservations (s t : Store) : Prop := s.entries.Perm t.entries

/-- **Either order.** From every reachable store a CREATE or DELETE of one user and
one of another complete in either order and leave the same reservations exactly
when they are independent; as sessions, exactly when they also do not drain the list. -/
theorem requests_commute_iff (M : Malloc Addr) (s : Store) (a b : EntryData)
    (hs : Store.Reachable M s) (ha : a 0 = CREATE ∨ a 0 = DELETE) (hb : b 0 = CREATE ∨ b 0 = DELETE)
    (hne : a 1 ≠ b 1) :
    (EitherOrder (dispatched M) SameReservations s a b ↔ s.roster.Independent a b) ∧
      (EitherOrder (session M) SameReservations s a b ↔
        s.roster.Independent a b ∧ ¬ s.roster.Drained a b) := by
  have hsame : SameReservations = fun t u => t.roster.Same u.roster := by
    funext t u
    rw [SameReservations, Roster.Same, Store.entries_roster, Store.entries_roster]
  rw [hsame, dispatched_refines.eitherOrder_iff hs.wf, session_refines.eitherOrder_iff hs.wf]
  exact ⟨Roster.either_order_iff ha hb hne, Roster.session_either_order_iff ha hb hne⟩

/-- With Alice and Carol on the list Bob's reservation and Alice's cancellation commute. -/
theorem requests_commute_users :
    ∃ s, runFrom (session Malloc.next) Store.init
        [rowsOf [CREATE, lit "alice"], rowsOf [CREATE, lit "carol"]] = .ok s ∧
      EitherOrder (session Malloc.next) SameReservations s (rowsOf [CREATE, lit "bob"])
        (rowsOf [DELETE, lit "alice"]) := by
  obtain ⟨s, hs⟩ : ∃ s, runFrom (session Malloc.next) Store.init
      [rowsOf [CREATE, lit "alice"], rowsOf [CREATE, lit "carol"]] = .ok s := ⟨_, rfl⟩
  have husers : s.roster.users = [lit "alice", lit "carol"] := by
    rw [Store.users_roster]
    cases hs
    rfl
  refine ⟨s, hs, (requests_commute_iff Malloc.next s (rowsOf [CREATE, lit "bob"])
    (rowsOf [DELETE, lit "alice"]) (Store.Reachable.sessions hs) (.inl rfl) (.inr rfl)
    (by decide)).2.mpr ⟨⟨?_, ?_, ?_, ?_⟩, fun hd => ?_⟩⟩
  · exact fun _ _ h => absurd h (by decide)
  · exact fun _ _ h => absurd h (by decide)
  · exact fun _ _ _ => ⟨by rw [husers]; decide, by rw [husers]; decide⟩
  · exact fun _ h => absurd h (by decide)
  · exact absurd hd.left (by decide)

/-- With Alice alone on the list her cancellation in front of Bob's reservation
leaves `create_reservation` without a last node. -/
theorem requests_commute_fails :
    ∃ s, runFrom (session Malloc.next) Store.init [rowsOf [CREATE, lit "alice"]] = .ok s ∧
      (∃ t, runFrom (session Malloc.next) s [rowsOf [CREATE, lit "bob"], rowsOf [DELETE, lit "alice"]] =
        .ok t ∧ t.users = [lit "bob"]) ∧
      runFrom (dispatched Malloc.next) s [rowsOf [DELETE, lit "alice"], rowsOf [CREATE, lit "bob"]] =
        .error .nullDeref ∧
      ¬ EitherOrder (dispatched Malloc.next) SameReservations s (rowsOf [CREATE, lit "bob"])
        (rowsOf [DELETE, lit "alice"]) ∧
      ¬ EitherOrder (session Malloc.next) SameReservations s (rowsOf [CREATE, lit "bob"])
        (rowsOf [DELETE, lit "alice"]) := by
  refine ⟨_, rfl, ⟨_, rfl, rfl⟩, rfl, ?_, ?_⟩
  · rintro ⟨-, u, -, hu, -⟩
    cases hu
  · rintro ⟨-, u, -, hu, -⟩
    cases hu

end CryptoLocker
