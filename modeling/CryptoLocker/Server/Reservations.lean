import CryptoLocker.Lib.Heap
import CryptoLocker.Server.CString

/-!
# The reservation list of the server

The linked list `reservations` of `locker/aws_server.c` and its functions, as
the code computes them over a heap of `user_reservation` blocks. A function
that dereferences NULL ends in the fault `nullDeref`; a traversal that would
visit more nodes than were ever allocated ends in `diverges`. Blocks are never
freed. The fields of the two structures that no function writes or reads are
left out, and `LOCKED` and `USER` are `none` while `malloc` has left them
indeterminate.
-/

namespace CryptoLocker

open Lib

abbrev Addr := Nat

/-- A pointer to a reservation; `none` is NULL. -/
abbrev Ptr := Option Addr

/-- Ways the server leaves the semantics of C. -/
inductive Fault where
  | nullDeref
  | badPointer
  | diverges
  | outOfBounds
  deriving DecidableEq, Repr

/-- `struct user_reservation`. -/
structure UserReservation where
  user : CStr
  startTime : CStr
  endTime : CStr
  durationHours : Int
  next : Ptr
  deriving DecidableEq

/-- `struct locker_reservations`. -/
structure LockerReservations where
  head : Ptr
  LOCKED : Option Int
  USER : Option CStr
  deriving DecidableEq

/-- The heap and the static `reservations` (`none` is NULL). -/
structure Store where
  heap : Heap Addr UserReservation
  reservations : Option LockerReservations

/-- The store at program start. -/
def Store.init : Store := ⟨Heap.empty, none⟩

/-- The rows of a session's buffer, each as the C string that starts there. -/
abbrev EntryData := Nat → CStr

/-- The rows that hold `l`, with empty strings behind. -/
def rowsOf (l : List CStr) : EntryData := fun j => l.getD j CStr.empty

def CREATE : CStr := lit "CREATE"
def DELETE : CStr := lit "DELETE"
def DISPLAY : CStr := lit "DISPLAY"
def ESP32_LOCKER : CStr := lit "ESP32-LOCKER"

/-- `*p`. -/
def deref (h : Heap Addr UserReservation) : Ptr → Except Fault UserReservation
  | none => .error .nullDeref
  | some a =>
    match h.cell a with
    | some node => .ok node
    | none => .error .badPointer

/-- `p->next = q`. -/
def setNext (h : Heap Addr UserReservation) (p q : Ptr) : Except Fault (Heap Addr UserReservation) :=
  match p with
  | none => .error .nullDeref
  | some a => .ok (h.modify a fun node => { node with next := q })

/-! ## The functions -/

section
variable (h : Heap Addr UserReservation)

def printLoop : Nat → Ptr → Except Fault (List CStr)
  | _, none => .ok []
  | 0, some _ => .error .diverges
  | n + 1, some a => do
    let element ← deref h (some a)
    let rest ← printLoop n element.next
    .ok (element.user :: rest)

def searchLoop (user : CStr) : Nat → Ptr → Except Fault Ptr
  | _, none => .ok none
  | 0, some _ => .error .diverges
  | n + 1, some a => do
    let element ← deref h (some a)
    if strcmp element.user user = 0 then .ok (some a) else searchLoop user n element.next

/-- `while (cursor->next != NULL) cursor = cursor->next`. -/
def lastLoop : Nat → Ptr → Except Fault Ptr
  | _, none => .error .nullDeref
  | 0, some _ => .error .diverges
  | n + 1, some a => do
    let cursor ← deref h (some a)
    if cursor.next = none then .ok (some a) else lastLoop n cursor.next

/-- The loop of `delete_reservation`, from `prev`, `curr` and `next`: `curr` is
read before it is tested, and `next` is read off `curr` after it has moved. -/
def deleteLoop (user : CStr) : Nat → Ptr → Ptr → Ptr → Except Fault (Ptr × Ptr × Ptr)
  | 0, _, _, _ => .error .diverges
  | n + 1, prev, curr, next => do
    let node ← deref h curr
    if strcmp node.user user ≠ 0 ∧ curr ≠ none then
      let following ← deref h next
      deleteLoop user n curr next following.next
    else .ok (prev, curr, next)

end

/-- The users printed. -/
def printReservations (s : Store) : Except Fault (List CStr) :=
  match s.reservations with
  | none => .ok []
  | some r => printLoop s.heap s.heap.allocated.length r.head

def searchReservation (s : Store) (user : CStr) : Except Fault Ptr :=
  match s.reservations with
  | none => .ok none
  | some r => searchLoop s.heap user s.heap.allocated.length r.head

/-- `create_reservation`: the result and the new store. The first entry is
stored as the head of a new list and NULL is returned for it. -/
def createReservation (M : Malloc Addr) (s : Store) (entryData : EntryData) :
    Except Fault (Ptr × Store) :=
  let a := M.pick s.heap.allocated
  match s.reservations with
  | none =>
    let node : UserReservation :=
      { user := entryData 1, startTime := entryData 3, endTime := entryData 3,
        durationHours := atoi (entryData 7), next := none }
    .ok (none, ⟨s.heap.alloc M node, some { head := some a, LOCKED := none, USER := none }⟩)
  | some r => do
    let found ← searchReservation s (entryData 0)
    if found = none then
      let cursor ← lastLoop s.heap s.heap.allocated.length r.head
      let newReservation : UserReservation :=
        { user := entryData 1, startTime := entryData 2, endTime := entryData 3,
          durationHours := atoi (entryData 7), next := none }
      let heap ← setNext (s.heap.alloc M newReservation) cursor (some a)
      .ok (some a, ⟨heap, some r⟩)
    else .ok (none, s)

/-- `delete_reservation`: the node removed, or NULL, and the new store. -/
def deleteReservation (s : Store) (user : CStr) : Except Fault (Ptr × Store) :=
  match s.reservations with
  | none => .ok (none, s)
  | some r => do
    let found ← searchReservation s user
    if found = none then .ok (none, s)
    else
      let head ← deref s.heap r.head
      if strcmp head.user user = 0 then
        .ok (r.head, ⟨s.heap, some { r with head := head.next }⟩)
      else
        let (prev, curr, next) ← deleteLoop s.heap user s.heap.allocated.length none r.head head.next
        if prev = none then .ok (curr, s)
        else
          let heap ← setNext s.heap prev next
          .ok (curr, ⟨heap, some r⟩)

/-- `update_reservation`: `head->user` is read before `head` is tested. -/
def updateReservation (s : Store) : Except Fault Store :=
  match s.reservations with
  | none => .ok s
  | some r => do
    let head ← deref s.heap r.head
    let r := { r with USER := some head.user }
    if r.head = none then .ok { s with reservations := some { r with LOCKED := some 0 } }
    else .ok { s with reservations := some { r with LOCKED := some 1 } }

/-! ## One session -/

/-- Lines 226–237 of `listen_aws`: the command in row 0, with the result of the
function it calls, which the source drops. -/
def dispatch (M : Malloc Addr) (s : Store) (buffer : EntryData) : Except Fault (Ptr × Store) :=
  if strcmp (buffer 0) CREATE = 0 then createReservation M s buffer
  else if strcmp (buffer 0) DELETE = 0 then deleteReservation s (buffer 1)
  else if strcmp (buffer 0) DISPLAY = 0 then do
    let _ ← printReservations s
    .ok (none, s)
  else .ok (none, s)

/-- What a session with the rows `buffer` does to the store. -/
def session (M : Malloc Addr) (s : Store) (buffer : EntryData) : Except Fault Store := do
  let (_, s) ← dispatch M s buffer
  updateReservation s

/-! ## Reading a store -/

/-- The nodes on the list, from the head. -/
def Store.nodes (s : Store) : List (Addr × UserReservation) :=
  match s.reservations with
  | none => []
  | some r => walk UserReservation.next s.heap s.heap.allocated.length r.head

/-- The users on the list, from the head. -/
def Store.users (s : Store) : List CStr := s.nodes.map (·.2.user)

end CryptoLocker
