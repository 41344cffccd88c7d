import Mathlib.Data.List.Nodup
import Mathlib.Data.List.Perm.Subperm
import Mathlib.Data.List.Basic

/-!
# Linked records in a heap

A heap maps addresses to records; `allocated` lists the blocks `alloc` has
returned, oldest first, and nothing is ever freed. `Chain link h p l` says that
following `link` from `p` visits the records `l` and then ends. A chain is
determined by its start (`Chain.unique`), so it never repeats an address
(`Chain.nodup`) and is no longer than the heap (`Chain.length_le`); every edit
of a list is an instance of `Chain.relink`.
-/

namespace Lib

/-- An allocator: any choice of an address no earlier block has. -/
structure Malloc (α : Type*) where
  pick : List α → α
  fresh : ∀ used, pick used ∉ used

/-- Hands out one more than the largest address in use. -/
def Malloc.next : Malloc Nat where
  pick used := used.foldr max 0 + 1
  fresh used := by
    have hle : ∀ l : List Nat, ∀ a ∈ l, a ≤ l.foldr max 0 := fun l => by
      induction l with
      | nil => nofun
      | cons b l ih =>
        intro a ha
        rcases List.mem_cons.mp ha with rfl | ha
        · exact Nat.le_max_left a _
        · exact Nat.le_trans (ih a ha) (Nat.le_max_right b _)
    intro h
    have := hle used _ h
    omega

/-- Records of `β` at addresses of `α`. -/
structure Heap (α β : Type*) where
  cell : α → Option β
  allocated : List α
  nodup : allocated.Nodup
  mem_allocated : ∀ a, a ∈ allocated ↔ (cell a).isSome

namespace Heap
variable {α β : Type*}

/-- The heap before the first allocation. -/
def empty : Heap α β := ⟨fun _ => none, [], List.nodup_nil, by simp⟩

theorem allocated_of_cell {h : Heap α β} {a : α} {b : β} (hc : h.cell a = some b) :
    a ∈ h.allocated := by
  rw [h.mem_allocated, hc]; rfl

variable [DecidableEq α]

/-- Put `b` in a block of the allocator's choice. -/
def alloc (M : Malloc α) (h : Heap α β) (b : β) : Heap α β where
  cell x := if x = M.pick h.allocated then some b else h.cell x
  allocated := h.allocated ++ [M.pick h.allocated]
  nodup := by
    have hfresh := M.fresh h.allocated
    simp only [List.nodup_append, List.nodup_singleton, List.mem_singleton]
    exact ⟨h.nodup, trivial, fun a ha b hb => by rintro rfl; exact hfresh (hb ▸ ha)⟩
  mem_allocated a := by
    by_cases ha : a = M.pick h.allocated
    · simp [ha]
    · simp [ha, h.mem_allocated]

/-- Rewrite the record at `a`. -/
def modify (h : Heap α β) (a : α) (f : β → β) : Heap α β where
  cell x := if x = a then (h.cell x).map f else h.cell x
  allocated := h.allocated
  nodup := h.nodup
  mem_allocated x := by
    rw [h.mem_allocated]
    split <;> simp

theorem cell_alloc_self (M : Malloc α) (h : Heap α β) (b : β) :
    (h.alloc M b).cell (M.pick h.allocated) = some b := by simp [alloc]

/-- Allocation leaves every earlier block alone. -/
theorem cell_alloc_of_mem (M : Malloc α) {h : Heap α β} (b : β) {a : α} (ha : a ∈ h.allocated) :
    (h.alloc M b).cell a = h.cell a :=
  if_neg (by rintro rfl; exact M.fresh _ ha)

theorem cell_modify_self {h : Heap α β} {a : α} {b : β} (hb : h.cell a = some b) (f : β → β) :
    (h.modify a f).cell a = some (f b) := by simp [modify, hb]

theorem cell_modify_ne (h : Heap α β) {a x : α} (hx : x ≠ a) (f : β → β) :
    (h.modify a f).cell x = h.cell x := if_neg hx

/-! ## Blocks kept -/

/-- The blocks of `h` are the oldest of `h'` and look the same through `f`. -/
structure Keeps {γ : Type*} (f : β → γ) (h h' : Heap α β) : Prop where
  allocated : h.allocated <+: h'.allocated
  cell : ∀ a b, h.cell a = some b → ∃ b', h'.cell a = some b' ∧ f b' = f b

section
variable {γ : Type*} {f : β → γ} {h h' h'' : Heap α β}

omit [DecidableEq α] in
theorem Keeps.refl (h : Heap α β) : h.Keeps f h := ⟨List.prefix_rfl, fun _ b hb => ⟨b, hb, rfl⟩⟩

omit [DecidableEq α] in
theorem Keeps.trans (h₁ : h.Keeps f h') (h₂ : h'.Keeps f h'') : h.Keeps f h'' := by
  refine ⟨h₁.allocated.trans h₂.allocated, fun a b hb => ?_⟩
  obtain ⟨b', hb', hf'⟩ := h₁.cell a b hb
  obtain ⟨b'', hb'', hf''⟩ := h₂.cell a b' hb'
  exact ⟨b'', hb'', hf''.trans hf'⟩

theorem keeps_alloc (M : Malloc α) (h : Heap α β) (b : β) : h.Keeps f (h.alloc M b) where
  allocated := List.prefix_append _ _
  cell _ b' hb' := ⟨b', (cell_alloc_of_mem M b (allocated_of_cell hb')).trans hb', rfl⟩

/-- A change that does not show through `f`. -/
theorem keeps_modify (h : Heap α β) (a : α) {g : β → β} (hg : ∀ b, f (g b) = f b) :
    h.Keeps f (h.modify a g) where
  allocated := List.prefix_rfl
  cell x b hb := by
    by_cases hx : x = a
    · subst hx
      exact ⟨g b, cell_modify_self hb g, hg b⟩
    · exact ⟨b, (cell_modify_ne h hx g).trans hb, rfl⟩

end

end Heap

/-! ## Chains -/

section
variable {α β : Type*} (link : β → Option α)

/-- Following `link` from `p` visits `l` and then ends. -/
def Chain (h : Heap α β) : Option α → List (α × β) → Prop
  | p, [] => p = none
  | p, (a, b) :: l => p = some a ∧ h.cell a = some b ∧ Chain h (link b) l

/-- The records met in at most `n` links from `p`. -/
def walk (h : Heap α β) : Nat → Option α → List (α × β)
  | n + 1, some a =>
    match h.cell a with
    | some b => (a, b) :: walk h n (link b)
    | none => []
  | _, _ => []

variable {link} {h h' : Heap α β} {p : Option α} {l : List (α × β)}

theorem Chain.start (hc : Chain link h p l) : p = l.head?.map Prod.fst := by
  cases l with
  | nil => exact hc
  | cons x l => exact hc.1

theorem Chain.cell {a : α} {b : β} (hc : Chain link h p l) (hx : (a, b) ∈ l) :
    h.cell a = some b := by
  induction l generalizing p with
  | nil => cases hx
  | cons x l ih =>
    rcases List.mem_cons.mp hx with rfl | hx
    · exact hc.2.1
    · exact ih hc.2.2 hx

theorem Chain.allocated {a : α} (hc : Chain link h p l) (ha : a ∈ l.map Prod.fst) :
    a ∈ h.allocated := by
  obtain ⟨⟨a, b⟩, hx, rfl⟩ := List.mem_map.mp ha
  exact Heap.allocated_of_cell (hc.cell hx)

/-- A chain is determined by its start. -/
theorem Chain.unique {l' : List (α × β)} (hc : Chain link h p l) (hc' : Chain link h p l') :
    l = l' := by
  induction l generalizing p l' with
  | nil =>
    cases l' with
    | nil => rfl
    | cons y l' => exact absurd (hc.symm.trans hc'.1) nofun
  | cons x l ih =>
    cases l' with
    | nil => exact absurd (hc'.symm.trans hc.1) nofun
    | cons y l' =>
      obtain ⟨a, b⟩ := x
      obtain ⟨a', b'⟩ := y
      obtain ⟨rfl, hb, hl⟩ := hc
      obtain ⟨ha', hb', hl'⟩ := hc'
      cases ha'
      cases hb.symm.trans hb'
      rw [ih hl hl']

/-- Chains with the same addresses and the same data next to the links are equal. -/
theorem Chain.eq_of_map {γ : Type*} {f : β → γ} {p' : Option α} {l' : List (α × β)}
    (hf : ∀ b b', link b = link b' → f b = f b' → b = b') (hc : Chain link h p l)
    (hc' : Chain link h' p' l')
    (hl : l.map (fun x => (x.1, f x.2)) = l'.map fun x => (x.1, f x.2)) : l = l' := by
  induction l generalizing p p' l' with
  | nil => exact (List.map_eq_nil_iff.mp hl.symm).symm
  | cons x l ih =>
    obtain ⟨⟨a', b'⟩, l', rfl, hx, hrest⟩ := List.map_eq_cons_iff.mp hl.symm
    obtain ⟨a, b⟩ := x
    obtain ⟨rfl, hb⟩ := Prod.mk.inj hx
    obtain ⟨-, -, hc⟩ := hc
    obtain ⟨-, -, hc'⟩ := hc'
    obtain rfl := ih hc hc' hrest.symm
    rw [hf b b' (hc.start.trans hc'.start.symm) hb.symm]

/-- The part of a chain from one of its records on is a chain. -/
theorem Chain.suffix {l₁ l₂ : List (α × β)} {a : α} {b : β}
    (hc : Chain link h p (l₁ ++ (a, b) :: l₂)) : Chain link h (some a) ((a, b) :: l₂) := by
  induction l₁ generalizing p with
  | nil => exact ⟨rfl, hc.2⟩
  | cons x l₁ ih => exact ih hc.2.2

/-- A chain never meets an address twice: the two suffixes would be equal. -/
theorem Chain.nodup (hc : Chain link h p l) : (l.map Prod.fst).Nodup := by
  induction l generalizing p with
  | nil => exact List.nodup_nil
  | cons x l ih =>
    obtain ⟨a, b⟩ := x
    refine List.nodup_cons.mpr ⟨fun ha => ?_, ih hc.2.2⟩
    obtain ⟨⟨a', b'⟩, hx, rfl⟩ := List.mem_map.mp ha
    obtain ⟨l₁, l₂, rfl⟩ := List.append_of_mem hx
    have hsuf : Chain link h (some a') ((a', b') :: l₂) := hc.2.2.suffix
    have hall : Chain link h (some a') ((a', b) :: (l₁ ++ (a', b') :: l₂)) := ⟨rfl, hc.2⟩
    have hlen := congrArg List.length (hsuf.unique hall)
    simp only [List.length_cons, List.length_append] at hlen
    omega

/-- A chain is no longer than the heap. -/
theorem Chain.length_le (hc : Chain link h p l) : l.length ≤ h.allocated.length := by
  have hsub : (l.map Prod.fst) ⊆ h.allocated := fun a ha => hc.allocated ha
  simpa using (List.subperm_of_subset hc.nodup hsub).length_le

/-- Enough steps walk the whole chain. -/
theorem Chain.walk_eq {n : Nat} (hc : Chain link h p l) (hn : l.length ≤ n) :
    walk link h n p = l := by
  induction l generalizing p n with
  | nil =>
    obtain rfl : p = none := hc
    cases n <;> rfl
  | cons x l ih =>
    obtain ⟨a, b⟩ := x
    obtain ⟨rfl, hb, hl⟩ := hc
    rcases n with _ | n
    · exact absurd hn (by simp)
    · simp only [walk, hb, ih hl (Nat.le_of_succ_le_succ hn)]

/-- A chain reads only its own records. -/
theorem Chain.frame (hc : Chain link h p l)
    (hag : ∀ a ∈ l.map Prod.fst, h'.cell a = h.cell a) : Chain link h' p l := by
  induction l generalizing p with
  | nil => exact hc
  | cons x l ih =>
    obtain ⟨a, b⟩ := x
    refine ⟨hc.1, (hag a List.mem_cons_self).trans hc.2.1, ?_⟩
    exact ih hc.2.2 fun y hy => hag y (List.mem_cons_of_mem _ hy)

/-- **Relink a record.** Rewriting the record at `a` so that it leads to the
chain `l₃` replaces everything behind `a` by `l₃`. -/
theorem Chain.relink {l₁ l₂ l₃ : List (α × β)} {a : α} {b b' : β}
    (hc : Chain link h p (l₁ ++ (a, b) :: l₂))
    (hag : ∀ x ∈ l₁.map Prod.fst, h'.cell x = h.cell x) (hb' : h'.cell a = some b')
    (h3 : Chain link h' (link b') l₃) : Chain link h' p (l₁ ++ (a, b') :: l₃) := by
  induction l₁ generalizing p with
  | nil => exact ⟨hc.1, hb', h3⟩
  | cons x l₁ ih =>
    obtain ⟨c, d⟩ := x
    refine ⟨hc.1, (hag c List.mem_cons_self).trans hc.2.1, ?_⟩
    exact ih hc.2.2 fun y hy => hag y (List.mem_cons_of_mem _ hy)

variable [DecidableEq α]

/-- **Append.** A new last record, linked in behind the old one. -/
theorem Chain.append (M : Malloc α) (d : β) (f : β → β) {l₁ : List (α × β)} {a : α} {b : β}
    (hc : Chain link h p (l₁ ++ [(a, b)])) (hd : link d = none)
    (hf : link (f b) = some (M.pick h.allocated)) :
    Chain link ((h.alloc M d).modify a f) p
      (l₁ ++ [(a, f b), (M.pick h.allocated, d)]) := by
  have hmem : ∀ x ∈ (l₁ ++ [(a, b)]).map Prod.fst, x ∈ h.allocated := fun x hx => hc.allocated hx
  have hnd := hc.nodup
  simp only [List.map_append, List.map_cons, List.map_nil] at hmem hnd
  have ha : a ∈ h.allocated := hmem a (by simp)
  have hne : M.pick h.allocated ≠ a := fun e => M.fresh h.allocated (e ▸ ha)
  refine hc.relink (fun x hx => ?_) ?_ ⟨hf, ?_, hd⟩
  · have hxa : x ≠ a := fun e => (List.nodup_append.mp hnd).2.2 x hx a (by simp) e
    rw [Heap.cell_modify_ne _ hxa, Heap.cell_alloc_of_mem M d (hmem x (by simp [hx]))]
  · refine Heap.cell_modify_self ?_ f
    rw [Heap.cell_alloc_of_mem M d ha]
    exact hc.cell (by simp)
  · rw [Heap.cell_modify_ne _ hne, Heap.cell_alloc_self]

/-- **Unlink.** The record behind `a` drops out when `a` takes over its link. -/
theorem Chain.unlink (f : β → β) {l₁ l₂ : List (α × β)} {a c : α} {b d : β}
    (hc : Chain link h p (l₁ ++ (a, b) :: (c, d) :: l₂)) (hf : link (f b) = link d) :
    Chain link (h.modify a f) p (l₁ ++ (a, f b) :: l₂) := by
  have hnd := hc.nodup
  simp only [List.map_append, List.map_cons] at hnd
  have hnd' := List.nodup_append.mp hnd
  refine hc.relink (fun x hx => ?_) (Heap.cell_modify_self (hc.cell (by simp)) f) ?_
  · exact Heap.cell_modify_ne h (fun e => hnd'.2.2 x hx a (by simp) e) f
  · rw [hf]
    have htail : Chain link h (link d) l₂ := hc.suffix.2.2.2.2
    refine htail.frame fun x hx => Heap.cell_modify_ne h ?_ f
    rintro rfl
    exact (List.nodup_cons.mp hnd'.2.1).1 (List.mem_cons_of_mem _ hx)

end

end Lib
