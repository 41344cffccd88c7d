import Mathlib.Data.List.Induction
import Mathlib.Data.List.TakeWhile
import Mathlib.Data.List.GetD

/-!
# Rows of fixed width in a flat memory

A memory is a function from offsets. `overwrite` stores a list at an offset,
over whatever is there. `layout w rows` is the zeroed memory with the lists
`rows` stored at the multiples of `w`; a list that fits its row extends a
layout by one row (`overwrite_layout`). `stringAt` reads the cells from an
offset up to the first zero.
-/

namespace Lib.Rows

variable {β : Type*} [Zero β]

/-- Store `bs` at `off`. -/
def overwrite (m : Nat → β) (off : Nat) (bs : List β) : Nat → β :=
  fun k => if off ≤ k ∧ k < off + bs.length then bs.getD (k - off) 0 else m k

/-- The lists `rows` at offsets `0`, `w`, `2 w` and so on, zeros elsewhere. -/
def layout (w : Nat) (rows : List (List β)) : Nat → β :=
  fun k => (rows.getD (k / w) []).getD (k % w) 0

variable {m m' : Nat → β} {off k w n : Nat} {bs : List β} {rows : List (List β)}

theorem overwrite_hit (h : k < bs.length) : overwrite m off bs (off + k) = bs[k] := by
  unfold overwrite
  rw [if_pos ⟨by omega, by omega⟩, Nat.add_sub_cancel_left, List.getD_eq_getElem _ _ h]

theorem overwrite_miss (h : k < off ∨ off + bs.length ≤ k) : overwrite m off bs k = m k := by
  unfold overwrite
  exact if_neg (by omega)

theorem overwrite_nil : overwrite m off [] = m := by
  funext k
  exact overwrite_miss (by simp only [List.length_nil]; omega)

theorem layout_cell {j c : Nat} (hc : c < w) :
    layout w rows (w * j + c) = (rows.getD j []).getD c 0 := by
  have hw : 0 < w := by omega
  simp only [layout, Nat.mul_add_div hw, Nat.div_eq_of_lt hc, Nat.add_zero, Nat.mul_add_mod,
    Nat.mod_eq_of_lt hc]

/-- Past the last row a layout is zero. -/
theorem layout_past {j c : Nat} (hc : c < w) (hj : rows.length ≤ j) : layout w rows (w * j + c) = 0 := by
  rw [layout_cell hc, List.getD_eq_default rows [] hj]
  rfl

/-- Cells read up to an offset and the list stored there. -/
theorem map_overwrite_end {p : Nat} (h : p ≤ off) :
    (List.range' p (off + bs.length - p)).map (overwrite m off bs) =
      (List.range' p (off - p)).map m ++ bs := by
  have hsplit : List.range' p (off + bs.length - p) =
      List.range' p (off - p) ++ List.range' off bs.length := by
    rw [show off + bs.length - p = off - p + bs.length by omega, ← List.range'_append_1,
      Nat.add_sub_cancel' h]
  rw [hsplit, List.map_append]
  congr 1
  · refine List.map_congr_left fun k hk => overwrite_miss (.inl ?_)
    rw [List.mem_range'_1] at hk
    omega
  · refine List.ext_getElem (by simp) fun k hk hk' => ?_
    rw [List.getElem_map, List.getElem_range', Nat.one_mul, overwrite_hit hk']

/-- A list that fits its row becomes the next row of a layout. -/
theorem overwrite_layout (hw : 0 < w) (hbs : bs.length ≤ w) :
    overwrite (layout w rows) (w * rows.length) bs = layout w (rows ++ [bs]) := by
  funext k
  obtain ⟨j, c, hc, rfl⟩ : ∃ j c, c < w ∧ w * j + c = k :=
    ⟨k / w, k % w, Nat.mod_lt k hw, Nat.div_add_mod k w⟩
  rcases Nat.lt_trichotomy j rows.length with hj | rfl | hj
  · -- an earlier row
    have hle := Nat.mul_le_mul_left w hj
    rw [Nat.mul_succ] at hle
    rw [overwrite_miss (.inl (by omega)), layout_cell hc, layout_cell hc, List.getD_append _ _ _ _ hj]
  · -- the new row
    have hnew : (rows ++ [bs]).getD rows.length [] = bs := by simp
    rw [layout_cell hc, hnew]
    by_cases hin : c < bs.length
    · rw [overwrite_hit hin, List.getD_eq_getElem bs 0 hin]
    · rw [overwrite_miss (.inr (by omega)), layout_past hc (Nat.le_refl _),
        List.getD_eq_default bs 0 (by omega)]
  · -- a later row
    have hle := Nat.mul_le_mul_left w hj
    rw [Nat.mul_succ] at hle
    rw [overwrite_miss (.inr (by omega)), layout_past hc (by omega),
      layout_past hc (by simp only [List.length_append, List.length_singleton]; omega)]

/-! ## Lists stored one after another -/

/-- Store the lists in order, each one row behind the one before, from row `i` on. -/
def stackFrom (w : Nat) : (Nat → β) → Nat → List (List β) → Nat → β
  | m, _, [] => m
  | m, i, bs :: rest => stackFrom w (overwrite m (w * i) bs) (i + 1) rest

/-- The zeroed memory with the lists stored from row 0 on, the later over the earlier. -/
def stack (w : Nat) (rows : List (List β)) : Nat → β := stackFrom w (fun _ => 0) 0 rows

theorem stackFrom_snoc (i : Nat) :
    stackFrom w m i (rows ++ [bs]) = overwrite (stackFrom w m i rows) (w * (i + rows.length)) bs := by
  induction rows generalizing m i with
  | nil => rfl
  | cons row rows ih =>
    simp only [List.cons_append, stackFrom, ih, List.length_cons]
    rw [show i + 1 + rows.length = i + (rows.length + 1) by omega]

theorem stack_snoc : stack w (rows ++ [bs]) = overwrite (stack w rows) (w * rows.length) bs := by
  rw [stack, stackFrom_snoc, Nat.zero_add]
  rfl

/-- Lists that fit their rows do not overlap. -/
theorem stack_eq_layout (hw : 0 < w) (h : ∀ row ∈ rows, row.length ≤ w) :
    stack w rows = layout w rows := by
  induction rows using List.reverseRecOn with
  | nil => rfl
  | append_singleton rows row ih =>
    rw [stack_snoc, ih fun r hr => h r (List.mem_append_left _ hr),
      overwrite_layout hw (h row (by simp))]

/-- List `i` stores into cell `k`. -/
def Hits (w : Nat) (rows : List (List β)) (i k : Nat) : Prop :=
  w * i ≤ k ∧ k < w * i + (rows.getD i []).length

omit [Zero β] in
theorem not_hits_of_le {i : Nat} (hi : rows.length ≤ i) : ¬ Hits w rows i k := by
  rintro ⟨h1, h2⟩
  rw [List.getD_eq_default _ _ hi] at h2
  exact absurd h2 (by simpa using h1)

omit [Zero β] in
theorem hits_append {i : Nat} (hi : i < rows.length) : Hits w (rows ++ [bs]) i k ↔ Hits w rows i k := by
  unfold Hits
  rw [List.getD_append _ _ _ _ hi]

/-- A cell shows the last list that stores into it. -/
theorem stack_of_last {i : Nat} (hi : Hits w rows i k) (hlast : ∀ j, i < j → ¬ Hits w rows j k) :
    stack w rows k = (rows.getD i []).getD (k - w * i) 0 := by
  induction rows using List.reverseRecOn with
  | nil => exact absurd hi (not_hits_of_le (Nat.zero_le i))
  | append_singleton rows row ih =>
    have hlt : i < rows.length + 1 := by
      by_contra hge
      exact not_hits_of_le (by simpa using hge) hi
    have hrow : (rows ++ [row]).getD rows.length [] = row := by simp
    rw [stack_snoc]
    rcases Nat.lt_succ_iff_lt_or_eq.mp hlt with hlt | rfl
    · have hmiss := hlast rows.length hlt
      unfold Hits at hmiss
      rw [hrow] at hmiss
      rw [overwrite_miss (by omega), List.getD_append _ _ _ _ hlt]
      refine ih ((hits_append hlt).mp hi) fun j hj hhit => ?_
      by_cases hjl : j < rows.length
      · exact hlast j hj ((hits_append hjl).mpr hhit)
      · exact not_hits_of_le (Nat.le_of_not_lt hjl) hhit
    · obtain ⟨h1, h2⟩ := hi
      rw [hrow] at h2 ⊢
      obtain ⟨c, rfl⟩ : ∃ c, k = w * rows.length + c := ⟨k - w * rows.length, by omega⟩
      rw [overwrite_hit (by omega), Nat.add_sub_cancel_left, List.getD_eq_getElem _ _ (by omega)]

/-- A cell no list stores into stays zero. -/
theorem stack_of_none (h : ∀ i, ¬ Hits w rows i k) : stack w rows k = 0 := by
  induction rows using List.reverseRecOn with
  | nil => rfl
  | append_singleton rows row ih =>
    have hmiss := h rows.length
    unfold Hits at hmiss
    rw [show (rows ++ [row]).getD rows.length [] = row by simp] at hmiss
    rw [stack_snoc, overwrite_miss (by omega)]
    refine ih fun i hhit => ?_
    by_cases hi : i < rows.length
    · exact h i ((hits_append hi).mpr hhit)
    · exact not_hits_of_le (Nat.le_of_not_lt hi) hhit

omit [Zero β] in
/-- Of the lists that store into a cell one is the last. -/
theorem exists_last {i : Nat} (hi : Hits w rows i k) :
    ∃ i, Hits w rows i k ∧ ∀ j, i < j → ¬ Hits w rows j k := by
  by_contra hno
  have hgrow : ∀ n, ∃ j, n ≤ j ∧ Hits w rows j k := by
    intro n
    induction n with
    | zero => exact ⟨i, Nat.zero_le i, hi⟩
    | succ n ih =>
      obtain ⟨j, hj, hhit⟩ := ih
      by_contra hstop
      exact hno ⟨j, hhit, fun j' hj' h' => hstop ⟨j', by omega, h'⟩⟩
  obtain ⟨j, hj, hhit⟩ := hgrow rows.length
  exact not_hits_of_le hj hhit

/-- A cell is zero when no list stores into it, or the last that does stores a zero. -/
theorem stack_eq_zero_iff :
    stack w rows k = 0 ↔ (∀ i, ¬ Hits w rows i k) ∨
      ∃ i, Hits w rows i k ∧ (∀ j, i < j → ¬ Hits w rows j k) ∧
        (rows.getD i []).getD (k - w * i) 0 = 0 := by
  constructor
  · intro h
    by_cases hnone : ∀ i, ¬ Hits w rows i k
    · exact .inl hnone
    · obtain ⟨i, hi⟩ := not_forall.mp hnone
      obtain ⟨i, hi, hlast⟩ := exists_last (not_not.mp hi)
      exact .inr ⟨i, hi, hlast, stack_of_last hi hlast ▸ h⟩
  · rintro (hnone | ⟨i, hi, hlast, h0⟩)
    · exact stack_of_none hnone
    · rw [stack_of_last hi hlast, h0]

/-- A cell is zero when no list reaches it. -/
theorem stack_eq_zero (h : ∀ row ∈ rows, (0 : β) ∉ row) :
    stack w rows k = 0 ↔ ∀ i (hi : i < rows.length), ¬ (w * i ≤ k ∧ k < w * i + rows[i].length) := by
  have hhits : (∀ i, ¬ Hits w rows i k) ↔
      ∀ i (hi : i < rows.length), ¬ (w * i ≤ k ∧ k < w * i + rows[i].length) := by
    constructor
    · intro hno i hi
      have := hno i
      unfold Hits at this
      rwa [List.getD_eq_getElem _ _ hi] at this
    · intro hno i hhit
      by_cases hi : i < rows.length
      · unfold Hits at hhit
        rw [List.getD_eq_getElem _ _ hi] at hhit
        exact hno i hi hhit
      · exact not_hits_of_le (Nat.le_of_not_lt hi) hhit
  rw [stack_eq_zero_iff, hhits]
  refine or_iff_left ?_
  rintro ⟨i, ⟨h1, h2⟩, -, h0⟩
  by_cases hi : i < rows.length
  · rw [List.getD_eq_getElem _ _ hi] at h2 h0
    rw [List.getD_eq_getElem _ _ (by omega)] at h0
    exact h _ (List.getElem_mem hi) (h0 ▸ List.getElem_mem _)
  · exact not_hits_of_le (Nat.le_of_not_lt hi) ⟨h1, h2⟩

/-- The first cell of a row holds the first element of its list. -/
theorem stack_first (hw : 0 < w) {j : Nat} (hj : j < rows.length) (hrow : 0 < rows[j].length) :
    stack w rows (w * j) = rows[j][0] := by
  have hget : rows.getD j [] = rows[j] := List.getD_eq_getElem _ _ hj
  have hlast : ∀ i, j < i → ¬ Hits w rows i (w * j) := fun i hi hhit =>
    absurd hhit.1 (Nat.not_le_of_lt (Nat.mul_lt_mul_of_pos_left hi hw))
  rw [stack_of_last ⟨Nat.le_refl _, by rw [hget]; omega⟩ hlast, hget, Nat.sub_self,
    List.getD_eq_getElem _ _ hrow]

/-! ## Strings -/

variable [DecidableEq β]

/-- The cells from `off` to the first zero, among the next `n`. -/
def stringAt (m : Nat → β) (off n : Nat) : List β :=
  ((List.range' off n).map m).takeWhile (· ≠ 0)

/-- A zero lies among the `n` cells from `off`. -/
def terminated (m : Nat → β) (off n : Nat) : Bool := (List.range' off n).any fun k => m k = 0

theorem terminated_iff : terminated m off n ↔ ∃ k < n, m (off + k) = 0 := by
  simp only [terminated, List.any_eq_true, List.mem_range'_1, decide_eq_true_eq]
  constructor
  · rintro ⟨k, ⟨h1, h2⟩, h⟩
    exact ⟨k - off, by omega, by rwa [Nat.add_sub_cancel' h1]⟩
  · rintro ⟨k, hk, h⟩
    exact ⟨off + k, ⟨by omega, by omega⟩, h⟩

/-- The cells before the first zero end at a zero or at the end of the list. -/
theorem getD_length_takeWhile (l : List β) : l.getD (l.takeWhile (· ≠ 0)).length 0 = 0 := by
  induction l with
  | nil => rfl
  | cons b l ih =>
    by_cases hb : b = 0
    · simp [hb]
    · simpa [hb] using ih

/-- What a list has before its first zero. -/
theorem takeWhile_eq_iff {l s : List β} :
    l.takeWhile (· ≠ 0) = s ↔
      (∀ k (h : k < s.length), l.getD k 0 = s[k]) ∧ 0 ∉ s ∧ l.getD s.length 0 = 0 := by
  constructor
  · rintro rfl
    have hpre : l.takeWhile (· ≠ 0) <+: l := List.takeWhile_prefix _
    refine ⟨fun k hk => ?_, fun h => ?_, getD_length_takeWhile l⟩
    · rw [List.getD_eq_getElem _ _ (hk.trans_le hpre.length_le)]
      exact (hpre.getElem hk).symm
    · simpa using List.mem_takeWhile_imp h
  · rintro ⟨hs, h0, hz⟩
    induction s generalizing l with
    | nil =>
      cases l with
      | nil => rfl
      | cons a l => simpa using hz
    | cons b s ih =>
      have hb : b ≠ 0 := fun e => h0 (e ▸ List.mem_cons_self)
      cases l with
      | nil => exact absurd (hs 0 (by simp)).symm hb
      | cons a l =>
        obtain rfl : a = b := hs 0 (by simp)
        rw [List.takeWhile_cons_of_pos (by simpa using hb)]
        exact congrArg _ (ih (fun k hk => hs (k + 1) (Nat.succ_lt_succ hk))
          (fun h => h0 (List.mem_cons_of_mem _ h)) hz)

/-- A string is the cells before its zero. -/
theorem stringAt_eq_iff {s : List β} (hn : s.length < n) :
    stringAt m off n = s ↔
      (∀ k (h : k < s.length), m (off + k) = s[k]) ∧ 0 ∉ s ∧ m (off + s.length) = 0 := by
  have hget : ∀ k, k < n → ((List.range' off n).map m).getD k 0 = m (off + k) := fun k hk => by
    rw [List.getD_eq_getElem _ _ (by simpa using hk)]
    simp
  unfold stringAt
  rw [takeWhile_eq_iff, hget _ hn]
  refine and_congr_left fun _ => forall₂_congr fun k hk => ?_
  rw [hget k (hk.trans hn)]

theorem stringAt_eq {s : List β} (hn : s.length < n) (hs : ∀ k (h : k < s.length), m (off + k) = s[k])
    (h0 : 0 ∉ s) (hz : m (off + s.length) = 0) : stringAt m off n = s :=
  (stringAt_eq_iff hn).mpr ⟨hs, h0, hz⟩

/-- The first row shows a string shorter than a row as its list does. -/
theorem stringAt_first {s : List β} (hs : s.length < w) (hn : s.length < n) :
    stringAt (stack w rows) 0 n = s ↔ (rows.headD []).takeWhile (· ≠ 0) = s := by
  have hcell : ∀ k, k < w → stack w rows k = (rows.headD []).getD k 0 := by
    intro k hk
    have hone : ∀ i, 0 < i → ¬ Hits w rows i k := fun i hi hhit =>
      absurd (hhit.1.trans_lt hk) (Nat.not_lt_of_le (Nat.le_mul_of_pos_right w hi))
    have hhead : rows.headD [] = rows.getD 0 [] := by cases rows <;> rfl
    rw [hhead]
    by_cases h0 : Hits w rows 0 k
    · rw [stack_of_last h0 hone, Nat.mul_zero, Nat.sub_zero]
    · have hnone : ∀ i, ¬ Hits w rows i k := fun i => by
        rcases Nat.eq_zero_or_pos i with rfl | hi
        · exact h0
        · exact hone i hi
      rw [stack_of_none hnone, List.getD_eq_default]
      simpa [Hits] using h0
  rw [stringAt_eq_iff hn, takeWhile_eq_iff]
  simp only [Nat.zero_add, hcell _ hs]
  refine and_congr_left fun _ => forall₂_congr fun k hk => ?_
  rw [hcell k (hk.trans hs)]

/-- A row shorter than its width reads as its cells before the first zero. -/
theorem stringAt_layout {j : Nat} (hrow : (rows.getD j []).length < w) (hn : w ≤ n) :
    stringAt (layout w rows) (w * j) n = (rows.getD j []).takeWhile (· ≠ 0) := by
  have hcell : ∀ c, c < w → layout w rows (w * j + c) = (rows.getD j []).getD c 0 :=
    fun c hc => layout_cell hc
  generalize rows.getD j [] = row at hrow hcell ⊢
  have hpre : row.takeWhile (· ≠ 0) <+: row := List.takeWhile_prefix _
  have hle := hpre.length_le
  refine stringAt_eq (by omega) (fun k hk => ?_) (fun h => ?_) ?_
  · rw [hcell k (by omega), List.getD_eq_getElem _ _ (by omega)]
    exact (hpre.getElem hk).symm
  · simpa using List.mem_takeWhile_imp h
  · rw [hcell _ (by omega)]
    exact getD_length_takeWhile row

/-- The last row may fill its width: the row behind it is zero. -/
theorem stringAt_layout_last {j : Nat} (hw : 0 < w) (hj : rows.length = j + 1)
    (hrow : (rows.getD j []).length ≤ w) (h0 : 0 ∉ rows.getD j []) (hn : w < n) :
    stringAt (layout w rows) (w * j) n = rows.getD j [] := by
  refine stringAt_eq (by omega) (fun k hk => ?_) h0 ?_
  · rw [layout_cell (by omega), List.getD_eq_getElem _ _ hk]
  · by_cases hlt : (rows.getD j []).length < w
    · rw [layout_cell hlt]
      exact List.getD_eq_default _ _ (Nat.le_refl _)
    · rw [show (rows.getD j []).length = w by omega, ← Nat.mul_succ, ← Nat.add_zero (w * (j + 1))]
      exact layout_past hw (by omega)

/-- A list shorter than its row shows as it is where no earlier list reaches behind its end. -/
theorem stringAt_stack {j : Nat} (hlen : (rows.getD j []).length < w) (h0 : 0 ∉ rows.getD j [])
    (hbefore : ∀ i < j, w * i + (rows.getD i []).length ≤ w * j + (rows.getD j []).length) (hn : w ≤ n) :
    stringAt (stack w rows) (w * j) n = rows.getD j [] := by
  have hafter : ∀ c < w, ∀ i, j < i → ¬ Hits w rows i (w * j + c) := by
    intro c hc i hi hhit
    have hle := Nat.mul_le_mul_left w hi
    rw [Nat.mul_succ] at hle
    have := hhit.1
    omega
  refine stringAt_eq (by omega) (fun k hk => ?_) h0 (stack_of_none fun i hhit => ?_)
  · rw [stack_of_last (i := j) ⟨Nat.le_add_right _ _, by omega⟩ (hafter k (by omega)),
      Nat.add_sub_cancel_left, List.getD_eq_getElem _ _ hk]
  · rcases Nat.lt_trichotomy i j with hi | rfl | hi
    · exact absurd hhit.2 (Nat.not_lt_of_le (hbefore i hi))
    · exact absurd hhit.2 (Nat.lt_irrefl _)
    · exact hafter _ hlen i hi hhit

/-- A list that fills its row shows the list behind it, whatever of its own lies there. -/
theorem stringAt_stack_over {j : Nat} (hfull : w ≤ (rows.getD j []).length)
    (hnext : (rows.getD (j + 1) []).length < w) (h0 : 0 ∉ rows.getD j []) (h1 : 0 ∉ rows.getD (j + 1) [])
    (hbefore : ∀ i ≤ j, w * i + (rows.getD i []).length ≤ w * (j + 1) + (rows.getD (j + 1) []).length)
    (hn : 2 * w ≤ n) :
    stringAt (stack w rows) (w * j) n = (rows.getD j []).take w ++ rows.getD (j + 1) [] := by
  have hafter : ∀ c < w, ∀ i, j + 1 < i → ¬ Hits w rows i (w * (j + 1) + c) := by
    intro c hc i hi hhit
    have hle := Nat.mul_le_mul_left w hi
    rw [Nat.mul_succ] at hle
    have := hhit.1
    omega
  have htake : ((rows.getD j []).take w).length = w := List.length_take_of_le hfull
  have hmul : w * (j + 1) = w * j + w := Nat.mul_succ w j
  refine stringAt_eq ?_ (fun k hk => ?_) (fun h => ?_) ?_
  · rw [List.length_append, htake]
    omega
  · rw [List.length_append, htake] at hk
    by_cases hrow : k < w
    · have hlast : ∀ i, j < i → ¬ Hits w rows i (w * j + k) := by
        intro i hi hhit
        have hle := Nat.mul_le_mul_left w hi
        rw [Nat.mul_succ] at hle
        have := hhit.1
        omega
      rw [stack_of_last (i := j) ⟨Nat.le_add_right _ _, by omega⟩ hlast, Nat.add_sub_cancel_left,
        List.getD_eq_getElem _ _ (by omega), List.getElem_append_left (by omega), List.getElem_take]
    · obtain ⟨c, rfl⟩ : ∃ c, k = w + c := ⟨k - w, by omega⟩
      rw [← Nat.add_assoc, ← hmul, stack_of_last (i := j + 1) ⟨Nat.le_add_right _ _, by omega⟩
          (hafter c (by omega)), Nat.add_sub_cancel_left, List.getD_eq_getElem _ _ (by omega),
        List.getElem_append_right (by omega)]
      simp only [htake, Nat.add_sub_cancel_left]
  · rcases List.mem_append.mp h with h | h
    · exact h0 (List.mem_of_mem_take h)
    · exact h1 h
  · rw [List.length_append, htake, ← Nat.add_assoc, ← hmul]
    refine stack_of_none fun i hhit => ?_
    rcases Nat.lt_trichotomy i (j + 1) with hi | rfl | hi
    · exact absurd hhit.2 (Nat.not_lt_of_le (hbefore i (Nat.le_of_lt_succ hi)))
    · exact absurd hhit.2 (Nat.lt_irrefl _)
    · exact hafter _ hnext i hi hhit

/-- As long as no cell is zero a string goes on. -/
theorem getElem?_stringAt {t : Nat} (h : ∀ c ≤ t, m (off + c) ≠ 0) (ht : t < n) :
    (stringAt m off n)[t]? = some (m (off + t)) := by
  induction t generalizing off n with
  | zero =>
    obtain ⟨n, rfl⟩ : ∃ j, n = j + 1 := ⟨n - 1, by omega⟩
    have h0 := h 0 (Nat.le_refl 0)
    simp [stringAt, List.range'_succ, show m off ≠ 0 from h0]
  | succ t ih =>
    obtain ⟨n, rfl⟩ : ∃ j, n = j + 1 := ⟨n - 1, by omega⟩
    have h0 : m off ≠ 0 := h 0 (Nat.zero_le _)
    have hrec : (stringAt m (off + 1) n)[t]? = some (m (off + 1 + t)) := by
      refine ih (fun c hc => ?_) (by omega)
      rw [Nat.add_assoc, Nat.add_comm 1]
      exact h (c + 1) (by omega)
    have hcons : stringAt m off (n + 1) = m off :: stringAt m (off + 1) n := by
      simp [stringAt, List.range'_succ, h0]
    rw [hcons, List.getElem?_cons_succ, hrec, Nat.add_assoc, Nat.add_comm 1]

/-- A list without zeros begins the string where it is stored. -/
theorem prefix_stringAt_overwrite (h0 : (0 : β) ∉ bs) (hn : bs.length ≤ n) :
    bs <+: stringAt (overwrite m off bs) off n := by
  obtain ⟨k, rfl⟩ := Nat.exists_eq_add_of_le hn
  have hcells : (List.range' off bs.length).map (overwrite m off bs) = bs := by
    have h := @map_overwrite_end _ _ m off bs off (Nat.le_refl off)
    rwa [Nat.add_sub_cancel_left, Nat.sub_self] at h
  have hall : ∀ x ∈ bs, decide (x ≠ 0) = true := fun x hx =>
    decide_eq_true fun hx0 => h0 (hx0 ▸ hx)
  unfold stringAt
  rw [← List.range'_append_1, List.map_append, hcells, List.takeWhile_append_of_pos hall]
  exact List.prefix_append _ _

end Lib.Rows
