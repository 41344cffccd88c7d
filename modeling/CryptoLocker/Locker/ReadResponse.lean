import CryptoLocker.Server.CString

/-!
# `readResponse` of the locker

The locker polls `available()` and gives up when `millis()`, a 32-bit counter,
has moved on by more than 5000. Then it reads lines up to `'\r'` and blinks on
each that equals "cmd". Printing and the LEDs are left out.
-/

namespace CryptoLocker

/-- One test of the wait loop: what `available()` returned, and `millis()` if
that was 0. -/
structure Sample where
  available : Nat
  now : UInt32

/-- How the wait ends on finitely many samples. -/
inductive Wait where
  | waiting
  | timedOut
  | data
  deriving DecidableEq

/-- `while (client->available() == 0)`, from the tick `timeout` it began at. -/
def waitLoop (timeout : UInt32) : List Sample → Wait
  | [] => .waiting
  | x :: rest =>
    if x.available = 0 then
      if 5000 < x.now - timeout then .timedOut else waitLoop timeout rest
    else .data

theorem waitLoop_cons (timeout : UInt32) (x : Sample) (rest : List Sample) :
    waitLoop timeout (x :: rest) =
      if x.available = 0 then
        if 5000 < x.now - timeout then .timedOut else waitLoop timeout rest
      else .data := rfl

/-- The character `'\r'`. -/
def CR : UInt8 := 13

/-- The lines of `while (client->available())`: each read takes at least a byte. -/
def lines : Nat → List UInt8 → List (List UInt8)
  | 0, _ => []
  | _, [] => []
  | n + 1, bytes => bytes.takeWhile (· ≠ CR) :: lines n ((bytes.dropWhile (· ≠ CR)).drop 1)

/-- The result of `readResponse`: how the wait ended and the lines read after it. -/
structure Response where
  wait : Wait
  lines : List (List UInt8)

/-- `readResponse` on a connection that delivers `inbox`. -/
def readResponse (timeout : UInt32) (samples : List Sample) (inbox : List UInt8) : Response :=
  match waitLoop timeout samples with
  | .data => ⟨.data, lines inbox.length inbox⟩
  | w => ⟨w, []⟩

/-- `line == "cmd"` on some line. -/
def Response.Blinks (r : Response) : Prop := ∃ line ∈ r.lines, strcmp (cstr line) (lit "cmd") = 0

/-- Whatever is sent is seen by a sample before the timeout. -/
def Delivered (timeout : UInt32) (samples : List Sample) (inbox : List UInt8) : Prop :=
  inbox ≠ [] → ∃ pre x post, samples = pre ++ x :: post ∧ x.available ≠ 0 ∧
    ∀ y ∈ pre, ¬ 5000 < y.now - timeout

section
variable {timeout : UInt32} {samples : List Sample} {inbox : List UInt8}

/-- Data seen in time ends the wait. -/
theorem waitLoop_data {pre post : List Sample} {x : Sample} (hx : x.available ≠ 0)
    (hpre : ∀ y ∈ pre, ¬ 5000 < y.now - timeout) : waitLoop timeout (pre ++ x :: post) = .data := by
  induction pre with
  | nil => exact if_neg hx
  | cons y pre ih =>
    have hrec := ih fun z hz => hpre z (List.mem_cons_of_mem _ hz)
    have hy := hpre y List.mem_cons_self
    rw [List.cons_append, waitLoop_cons, if_neg hy, hrec]
    exact ite_self _

/-- What is delivered is read, line by line. -/
theorem Delivered.lines (h : Delivered timeout samples inbox) :
    (readResponse timeout samples inbox).lines = lines inbox.length inbox := by
  unfold readResponse
  cases hw : waitLoop timeout samples with
  | data => rfl
  | waiting | timedOut =>
    by_cases hin : inbox = []
    · subst hin
      rfl
    · obtain ⟨pre, x, post, rfl, hx, hpre⟩ := h hin
      cases (waitLoop_data hx hpre).symm.trans hw

end

end CryptoLocker
