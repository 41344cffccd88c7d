import Mathlib.Data.List.Basic

/-!
# Runs of fallible steps

`runFrom step s is` takes one step for each input of `is` and stops at the
first that fails. `Along step C s is` says every step meets `C` in the state
it is taken from. The rules are the invariant rule (`runFrom_inv`), a run
completes exactly when its steps meet the completion condition
(`completes_iff_along`), and a property holds in every state a run reaches
exactly when its steps keep it (`forall_reaches_iff_along`). A refinement of
steps is one of runs (`Refines.run`) and of inputs taken in either order
(`Refines.eitherOrder_iff`).
-/

namespace Lib

universe u

section
variable {ε : Type*} {σ τ : Type u}

@[simp] theorem ok_seq (s : σ) (k : σ → Except ε τ) : Except.ok s >>= k = k s := rfl

@[simp] theorem error_seq (e : ε) (k : σ → Except ε τ) : Except.error e >>= k = .error e := rfl

/-- A sequence of two fallible computations completes when both do. -/
theorem seq_ok {m : Except ε σ} {k : σ → Except ε τ} {t : τ} :
    m >>= k = .ok t ↔ ∃ s, m = .ok s ∧ k s = .ok t := by
  rcases m with e | s
  · exact ⟨nofun, nofun⟩
  · exact ⟨fun h => ⟨s, rfl, h⟩, fun ⟨_, h1, h2⟩ => by cases h1; exact h2⟩

end

section
variable {σ ι ε : Type*} (step : σ → ι → Except ε σ)

/-- One step for each input, in order, up to the first that fails. -/
def runFrom : σ → List ι → Except ε σ
  | s, [] => .ok s
  | s, i :: is => step s i >>= fun s' => runFrom s' is

/-- The run on `is` from `s` reaches `t` after some of its steps. -/
def Reaches (s : σ) (is : List ι) (t : σ) : Prop := ∃ pre, pre <+: is ∧ runFrom step s pre = .ok t

/-- Every step of the run from `s` meets `C` in the state it is taken from. -/
def Along (C : σ → ι → Prop) : σ → List ι → Prop
  | _, [] => True
  | s, i :: is => C s i ∧ ∀ s', step s i = .ok s' → Along C s' is

variable {step}

@[simp] theorem runFrom_nil (s : σ) : runFrom step s [] = .ok s := rfl

theorem runFrom_cons (s : σ) (i : ι) (is : List ι) :
    runFrom step s (i :: is) = step s i >>= fun s' => runFrom step s' is := rfl

theorem runFrom_cons_ok {s t : σ} {i : ι} {is : List ι} :
    runFrom step s (i :: is) = .ok t ↔ ∃ s', step s i = .ok s' ∧ runFrom step s' is = .ok t :=
  seq_ok

theorem runFrom_pair (s : σ) (i j : ι) :
    runFrom step s [i, j] = step s i >>= fun s' => step s' j := by
  rw [runFrom_cons]
  congr 1
  funext s'
  rw [runFrom_cons]
  cases step s' j <;> rfl

theorem runFrom_append {s : σ} {is js : List ι} :
    runFrom step s (is ++ js) = runFrom step s is >>= fun s' => runFrom step s' js := by
  induction is generalizing s with
  | nil => rfl
  | cons i is ih =>
    rw [List.cons_append, runFrom_cons, runFrom_cons]
    cases step s i with
    | error e => rfl
    | ok s' => exact ih

theorem runFrom_append_ok {s t : σ} {is js : List ι} :
    runFrom step s (is ++ js) = .ok t ↔
      ∃ s', runFrom step s is = .ok s' ∧ runFrom step s' js = .ok t := by
  rw [runFrom_append]; exact seq_ok

/-- Inputs that stand for several are steps of several. -/
theorem runFrom_flatMap {κ : Type*} (f : κ → List ι) {s : σ} {ks : List κ} :
    runFrom step s (ks.flatMap f) = runFrom (fun s k => runFrom step s (f k)) s ks := by
  induction ks generalizing s with
  | nil => rfl
  | cons k ks ih =>
    rw [List.flatMap_cons, runFrom_append, runFrom_cons]
    cases runFrom step s (f k) with
    | error e => rfl
    | ok s' => exact ih

theorem Reaches.start (s : σ) (is : List ι) : Reaches step s is s := ⟨[], List.nil_prefix, rfl⟩

theorem Reaches.cons {s s' t : σ} {i : ι} {is : List ι} (h : step s i = .ok s')
    (hr : Reaches step s' is t) : Reaches step s (i :: is) t := by
  obtain ⟨pre, hp, ht⟩ := hr
  exact ⟨i :: pre, List.cons_prefix_cons.mpr ⟨rfl, hp⟩, runFrom_cons_ok.mpr ⟨s', h, ht⟩⟩

/-- A state reached is the start, or is reached after the first step. -/
theorem Reaches.cases {s t : σ} {i : ι} {is : List ι} (h : Reaches step s (i :: is) t) :
    t = s ∨ ∃ s', step s i = .ok s' ∧ Reaches step s' is t := by
  obtain ⟨pre, hp, ht⟩ := h
  rcases pre with _ | ⟨j, pre⟩
  · exact .inl (by simpa using ht.symm)
  · obtain ⟨rfl, hpre⟩ := List.cons_prefix_cons.mp hp
    obtain ⟨s', h1, h2⟩ := runFrom_cons_ok.mp ht
    exact .inr ⟨s', h1, pre, hpre, h2⟩

/-- The invariant rule for the inputs of one run. -/
theorem runFrom_inv_of_mem {Inv : σ → Prop} {s t : σ} {is : List ι}
    (hstep : ∀ s, ∀ i ∈ is, ∀ s', Inv s → step s i = .ok s' → Inv s') (hs : Inv s)
    (h : runFrom step s is = .ok t) : Inv t := by
  induction is generalizing s with
  | nil => cases h; exact hs
  | cons i is ih =>
    obtain ⟨s', h1, h2⟩ := runFrom_cons_ok.mp h
    exact ih (fun s j hj => hstep s j (List.mem_cons_of_mem _ hj))
      (hstep s i List.mem_cons_self s' hs h1) h2

/-- **Invariant rule.** -/
theorem runFrom_inv {Inv : σ → Prop} (hstep : ∀ s i s', Inv s → step s i = .ok s' → Inv s')
    {s t : σ} {is : List ι} (hs : Inv s) (h : runFrom step s is = .ok t) : Inv t :=
  runFrom_inv_of_mem (fun s i _ s' => hstep s i s') hs h

/-- Where, under an invariant, a step fails only with errors in `E`, so does a run. -/
theorem runFrom_error {Inv : σ → Prop} {E : ε → Prop}
    (hstep : ∀ s i s', Inv s → step s i = .ok s' → Inv s')
    (herr : ∀ s i e, Inv s → step s i = .error e → E e) {s : σ} {is : List ι} {e : ε} (hs : Inv s)
    (h : runFrom step s is = .error e) : E e := by
  induction is generalizing s with
  | nil => cases h
  | cons i is ih =>
    rw [runFrom_cons] at h
    cases hi : step s i with
    | error e' => rw [hi] at h; cases h; exact herr s i e hs hi
    | ok s' => rw [hi] at h; exact ih (hstep s i s' hs hi) h

/-- **Completion rule.** Where, under an invariant, a step completes exactly
when it meets `C`, a run completes exactly when all its steps meet `C`. -/
theorem completes_iff_along {Inv : σ → Prop} {C : σ → ι → Prop}
    (hstep : ∀ s i s', Inv s → step s i = .ok s' → Inv s')
    (hok : ∀ s i, Inv s → ((∃ s', step s i = .ok s') ↔ C s i)) {s : σ} {is : List ι} (hs : Inv s) :
    (∃ t, runFrom step s is = .ok t) ↔ Along step C s is := by
  induction is generalizing s with
  | nil => exact ⟨fun _ => trivial, fun _ => ⟨s, rfl⟩⟩
  | cons i is ih =>
    constructor
    · rintro ⟨t, ht⟩
      obtain ⟨s', h1, h2⟩ := runFrom_cons_ok.mp ht
      refine ⟨(hok s i hs).mp ⟨s', h1⟩, fun s'' h'' => ?_⟩
      obtain rfl : s' = s'' := Except.ok.inj (h1.symm.trans h'')
      exact (ih (hstep s i s' hs h1)).mp ⟨t, h2⟩
    · rintro ⟨hC, hrest⟩
      obtain ⟨s', h1⟩ := (hok s i hs).mpr hC
      obtain ⟨t, ht⟩ := (ih (hstep s i s' hs h1)).mpr (hrest s' h1)
      exact ⟨t, runFrom_cons_ok.mpr ⟨s', h1, ht⟩⟩

/-- **Preservation rule.** Where, under an invariant, a step from a state with
`P` keeps `P` exactly when it meets `C`, every state a run reaches has `P`
exactly when all its steps meet `C`. -/
theorem forall_reaches_iff_along {Inv P : σ → Prop} {C : σ → ι → Prop}
    (hstep : ∀ s i s', Inv s → step s i = .ok s' → Inv s')
    (hP : ∀ s i, Inv s → P s → ((∀ s', step s i = .ok s' → P s') ↔ C s i))
    {s : σ} {is : List ι} (hs : Inv s) (hPs : P s) :
    (∀ t, Reaches step s is t → P t) ↔ Along step C s is := by
  induction is generalizing s with
  | nil =>
    refine ⟨fun _ => trivial, fun _ t ht => ?_⟩
    obtain ⟨pre, hp, ht⟩ := ht
    obtain rfl := List.prefix_nil.mp hp
    cases ht; exact hPs
  | cons i is ih =>
    constructor
    · intro h
      have hkeep : ∀ s', step s i = .ok s' → P s' := fun s' h' =>
        h s' (Reaches.cons h' (Reaches.start s' is))
      refine ⟨(hP s i hs hPs).mp hkeep, fun s' h' => ?_⟩
      exact (ih (hstep s i s' hs h') (hkeep s' h')).mp fun t ht => h t (Reaches.cons h' ht)
    · rintro ⟨hC, hrest⟩ t ht
      rcases ht.cases with rfl | ⟨s', h', ht⟩
      · exact hPs
      · exact (ih (hstep s i s' hs h') ((hP s i hs hPs).mpr hC s' h')).mpr (hrest s' h') t ht

/-- The preservation rule for a run that completes, where only steps that complete count. -/
theorem forall_reaches_iff_along_of_ok {Inv P : σ → Prop} {C : σ → ι → Prop}
    (hstep : ∀ s i s', Inv s → step s i = .ok s' → Inv s')
    (hP : ∀ s i s', Inv s → P s → step s i = .ok s' → (P s' ↔ C s i))
    {s t : σ} {is : List ι} (hs : Inv s) (hPs : P s) (hrun : runFrom step s is = .ok t) :
    (∀ t, Reaches step s is t → P t) ↔ Along step C s is := by
  induction is generalizing s with
  | nil =>
    refine ⟨fun _ => trivial, fun _ t ht => ?_⟩
    obtain ⟨pre, hp, ht⟩ := ht
    obtain rfl := List.prefix_nil.mp hp
    cases ht; exact hPs
  | cons i is ih =>
    obtain ⟨s', h', hrest⟩ := runFrom_cons_ok.mp hrun
    have hiff := hP s i s' hs hPs h'
    have hs' := hstep s i s' hs h'
    constructor
    · intro h
      have hPs' : P s' := h s' (Reaches.cons h' (Reaches.start s' is))
      refine ⟨hiff.mp hPs', fun s'' h'' => ?_⟩
      obtain rfl : s' = s'' := Except.ok.inj (h'.symm.trans h'')
      exact (ih hs' hPs' hrest).mp fun t ht => h t (Reaches.cons h' ht)
    · rintro ⟨hC, halong⟩ t ht
      rcases ht.cases with rfl | ⟨s'', h'', ht⟩
      · exact hPs
      · obtain rfl : s' = s'' := Except.ok.inj (h'.symm.trans h'')
        exact (ih hs' (hiff.mpr hC) hrest).mpr (halong s' h') t ht

end

/-! ## Refinement -/

section
variable {σ τ ι ε : Type*} {step : σ → ι → Except ε σ} {astep : τ → ι → Except ε τ} {abs : σ → τ}
  {Inv : σ → Prop}

/-- Seen through `abs`, a step from a state with `Inv` is the one of `astep`. -/
structure Refines (step : σ → ι → Except ε σ) (astep : τ → ι → Except ε τ) (abs : σ → τ)
    (Inv : σ → Prop) : Prop where
  inv : ∀ s i s', Inv s → step s i = .ok s' → Inv s'
  step : ∀ s i, Inv s → (step s i).map abs = astep (abs s) i

theorem Refines.run (h : Refines step astep abs Inv) {s : σ} (hs : Inv s) (is : List ι) :
    (runFrom step s is).map abs = runFrom astep (abs s) is := by
  induction is generalizing s with
  | nil => rfl
  | cons i is ih =>
    rw [runFrom_cons, runFrom_cons, ← h.step s i hs]
    cases hi : step s i with
    | error e => rfl
    | ok s' => exact ih (h.inv s i s' hs hi)

/-- From `s` the inputs `i` and `j` can be taken in either order and lead to
states related by `R`. -/
def EitherOrder (step : σ → ι → Except ε σ) (R : σ → σ → Prop) (s : σ) (i j : ι) : Prop :=
  ∃ t u, runFrom step s [i, j] = .ok t ∧ runFrom step s [j, i] = .ok u ∧ R t u

theorem eitherOrder_iff_of_ok {R : σ → σ → Prop} {s t u : σ} {i j : ι}
    (ht : runFrom step s [i, j] = .ok t) (hu : runFrom step s [j, i] = .ok u) :
    EitherOrder step R s i j ↔ R t u := by
  constructor
  · rintro ⟨t', u', ht', hu', hR⟩
    cases ht.symm.trans ht'
    cases hu.symm.trans hu'
    exact hR
  · exact fun hR => ⟨t, u, ht, hu, hR⟩

theorem EitherOrder.symm {R : σ → σ → Prop} (hR : ∀ t u, R t u → R u t) {s : σ} {i j : ι}
    (h : EitherOrder step R s i j) : EitherOrder step R s j i := by
  obtain ⟨t, u, ht, hu, htu⟩ := h
  exact ⟨u, t, hu, ht, hR t u htu⟩

theorem eitherOrder_comm {R : σ → σ → Prop} (hR : ∀ t u, R t u → R u t) {s : σ} {i j : ι} :
    EitherOrder step R s i j ↔ EitherOrder step R s j i := ⟨.symm hR, .symm hR⟩

/-- Whether inputs can be taken in either order shows on the refined steps. -/
theorem Refines.eitherOrder_iff (h : Refines step astep abs Inv) {R : τ → τ → Prop} {s : σ} {i j : ι}
    (hs : Inv s) :
    EitherOrder step (fun t u => R (abs t) (abs u)) s i j ↔ EitherOrder astep R (abs s) i j := by
  have hij := h.run hs [i, j]
  have hji := h.run hs [j, i]
  cases ht : runFrom step s [i, j] with
  | error e =>
    rw [ht] at hij
    refine iff_of_false ?_ ?_
    · rintro ⟨t, -, ht', -⟩
      cases ht.symm.trans ht'
    · rintro ⟨t, -, ht', -⟩
      cases hij.trans ht'
  | ok t =>
    cases hu : runFrom step s [j, i] with
    | error e =>
      rw [hu] at hji
      refine iff_of_false ?_ ?_
      · rintro ⟨-, u, -, hu', -⟩
        cases hu.symm.trans hu'
      · rintro ⟨-, u, -, hu', -⟩
        cases hji.trans hu'
    | ok u =>
      rw [ht] at hij
      rw [hu] at hji
      rw [eitherOrder_iff_of_ok ht hu, eitherOrder_iff_of_ok hij.symm hji.symm]

end

end Lib
