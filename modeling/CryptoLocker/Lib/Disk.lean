import Mathlib.Data.List.Basic

/-!
# File systems

A disk maps paths to contents; `seen` lists every content it has ever held, so a
content outside of `seen` is new. Each operation comes with what it does to the
file it names (`file_…_self`) and to all others (`file_…_ne`).
-/

namespace Lib

structure Disk (π κ : Type*) where
  file : π → Option κ
  seen : List κ
  mem_seen : ∀ p c, file p = some c → c ∈ seen

namespace Disk
variable {π κ α : Type*}

def empty : Disk π κ := ⟨fun _ => none, [], nofun⟩

variable [DecidableEq π] (d : Disk π κ) {p q : π}

def write (p : π) (c : κ) : Disk π κ where
  file q := if q = p then some c else d.file q
  seen := c :: d.seen
  mem_seen q c' h := by
    split at h
    · cases h; exact List.mem_cons_self
    · exact List.mem_cons_of_mem c (d.mem_seen q c' h)

def remove (p : π) : Disk π κ where
  file q := if q = p then none else d.file q
  seen := d.seen
  mem_seen q c h := by
    split at h
    · cases h
    · exact d.mem_seen q c h

/-- What a command leaves that writes a file `p`, or gives up before it has opened it. -/
def output (p : π) : Option κ → Disk π κ
  | some c => d.write p c
  | none => d

/-- Put `c` behind what `p` holds. -/
def append (d : Disk π (List α)) (p : π) (c : List α) : Disk π (List α) :=
  d.write p ((d.file p).getD [] ++ c)

/-- The disk that holds the files of `l`, the first of a path counting. -/
def ofList (l : List (π × κ)) : Disk π κ := l.foldr (fun x d => d.write x.1 x.2) empty

@[simp] theorem file_write_self (c : κ) : (d.write p c).file p = some c := if_pos rfl

@[simp] theorem file_write_ne (c : κ) (h : q ≠ p) : (d.write p c).file q = d.file q := if_neg h

@[simp] theorem file_remove_self : (d.remove p).file p = none := if_pos rfl

@[simp] theorem file_remove_ne (h : q ≠ p) : (d.remove p).file q = d.file q := if_neg h

@[simp] theorem file_output_self (c : Option κ) : (d.output p c).file p = c.or (d.file p) := by
  cases c with
  | none => rfl
  | some c => exact d.file_write_self c

@[simp] theorem file_output_ne (c : Option κ) (h : q ≠ p) : (d.output p c).file q = d.file q := by
  cases c with
  | none => rfl
  | some c => exact d.file_write_ne c h

@[simp] theorem file_append_self (d : Disk π (List α)) (c : List α) :
    (d.append p c).file p = some ((d.file p).getD [] ++ c) := d.file_write_self _

@[simp] theorem file_append_ne (d : Disk π (List α)) (c : List α) (h : q ≠ p) :
    (d.append p c).file q = d.file q := d.file_write_ne _ h

end Disk

end Lib
