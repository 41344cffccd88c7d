import CryptoLocker.Server.Segments

/-!
# The requests of a client

A client sends a request as one connection for each field and one more whose
payload is empty or NUL. As accepts of the server a request is a closed
segment, and its rows determine its strings (`rowsOf_inj`).
-/

namespace CryptoLocker

open Lib

/-- A non-empty string that fits a row. -/
structure RowText where
  str : CStr
  nonempty : str ≠ CStr.empty
  fits : str.bytes.length ≤ 15

/-- A command, its fields and the payload that ends them. -/
structure Request where
  command : RowText
  fields : List RowText
  terminator : List UInt8
  ending : terminator = [] ∨ terminator = [0]

def Request.strings (r : Request) : List CStr := (r.command :: r.fields).map RowText.str

/-- The rows the server is meant to see. -/
def Request.rows (r : Request) : EntryData := rowsOf r.strings

/-- The connections of the fields. -/
def Request.body (r : Request) : List AcceptResult := (r.strings.map CStr.bytes).map arrival

def Request.conns (r : Request) : List AcceptResult := r.body ++ [arrival r.terminator]

/-- The fields leave a row of the buffer for the terminator. -/
def Request.Fits (r : Request) : Prop := r.strings.length < bufRows

instance (r : Request) : Decidable r.Fits := inferInstanceAs (Decidable (_ < _))

/-- The rows hold a command that changes the list. -/
def Changes (rows : EntryData) : Prop := rows 0 = CREATE ∨ rows 0 = DELETE

instance (rows : EntryData) : Decidable (Changes rows) := inferInstanceAs (Decidable (_ ∨ _))

/-- The rows of the creates and deletes the calls dispatched, in order. -/
def applied (served : List Served) : List EntryData :=
  (served.map Served.rows).filter fun rows => Changes rows

/-- The request that only names a user to reserve for. -/
def createFor (user : RowText) : Request := ⟨⟨CREATE, by decide, by decide⟩, [user], [0], .inr rfl⟩

def alice : RowText := ⟨lit "alice", by decide, by decide⟩
def bob : RowText := ⟨lit "bob", by decide, by decide⟩

section
variable (r : Request)

theorem Request.strings_ne_empty : ∀ s ∈ r.strings, s ≠ CStr.empty := by
  intro s hs
  obtain ⟨f, -, rfl⟩ := List.mem_map.mp hs
  exact f.nonempty

theorem Request.body_row : r.body.map AcceptResult.row = r.strings := by
  unfold Request.body
  rw [List.map_map, List.map_map]
  exact List.map_id'' (fun s => cstr_bytes s) _

theorem Request.length_body : r.body.length = r.strings.length := by
  rw [← r.body_row, List.length_map]

theorem Request.body_rows : rowsOfConns r.body = r.rows := by
  rw [rowsOfConns, r.body_row]
  rfl

theorem Request.body_open : Open AcceptResult.ends r.body := by
  intro a ha
  refine AcceptResult.ends_eq_false.mpr (r.strings_ne_empty _ ?_)
  rw [← r.body_row]
  exact List.mem_map_of_mem ha

theorem Request.terminator_row : (arrival r.terminator).row = CStr.empty := by
  rcases r.ending with h | h <;> rw [h] <;> rfl

theorem Request.terminator_ends : (arrival r.terminator).ends = true :=
  AcceptResult.ends_iff.mpr r.terminator_row

theorem Request.conns_closed : Closed AcceptResult.ends r.conns := r.body_open.closed r.terminator_ends

theorem Request.conns_row : r.conns.map AcceptResult.row = r.strings ++ [CStr.empty] := by
  unfold Request.conns
  rw [List.map_append, r.body_row, List.map_singleton, r.terminator_row]

theorem Request.conns_fits : ∀ a ∈ r.conns, a.Fits := by
  intro a ha
  rcases List.mem_append.mp ha with ha | ha
  · obtain ⟨p, hp, rfl⟩ := List.mem_map.mp ha
    obtain ⟨s, hs, rfl⟩ := List.mem_map.mp hp
    obtain ⟨f, -, rfl⟩ := List.mem_map.mp hs
    exact Nat.lt_succ_of_le f.fits
  · obtain rfl := List.mem_singleton.mp ha
    rcases r.ending with h | h <;> rw [h] <;> decide

theorem Request.conns_conn : .error ∉ r.conns := by
  intro h
  rcases List.mem_append.mp h with h | h
  · obtain ⟨p, -, hp⟩ := List.mem_map.mp h
    cases hp
  · cases List.mem_singleton.mp h

end

/-- The rows of non-empty strings determine them. -/
theorem rowsOf_inj {l l' : List CStr} (hl : ∀ s ∈ l, s ≠ CStr.empty) (hl' : ∀ s ∈ l', s ≠ CStr.empty)
    (h : rowsOf l = rowsOf l') : l = l' := by
  have hget : ∀ {l : List CStr} {j : Nat} {s : CStr}, (∀ s ∈ l, s ≠ CStr.empty) → s ≠ CStr.empty →
      (rowsOf l j = s ↔ l[j]? = some s) := by
    intro l j s hl hs
    unfold rowsOf
    rw [List.getD_eq_getElem?_getD]
    cases l[j]? with
    | none => exact iff_of_false (Ne.symm hs) nofun
    | some t => simp
  refine List.ext_getElem? fun j => ?_
  cases hj : l[j]? with
  | some s =>
    have hs := hl s (List.mem_of_getElem? hj)
    exact ((hget hl' hs).mp (h ▸ (hget hl hs).mpr hj)).symm
  | none =>
    cases hj' : l'[j]? with
    | none => rfl
    | some s =>
      have hs := hl' s (List.mem_of_getElem? hj')
      rw [(hget hl hs).mp (h ▸ (hget hl' hs).mpr hj')] at hj
      cases hj

end CryptoLocker
