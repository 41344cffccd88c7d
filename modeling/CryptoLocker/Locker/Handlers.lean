import CryptoLocker.Lib.EraseLoop
import Mathlib.Algebra.Order.Group.Nat

/-!
# The event handlers

`onEvent` appends a handler and `removeEvent` erases in a loop by index, which
skips the entry behind an erased one: of a callback registered twice in a row
for an event, one handler stays (`removeEvent_rounds`). `_eventCallback` calls
the handlers in a loop by index as well, so a handler that removes itself hides
the next one from the event (`dispatch_reaches`).
-/

namespace CryptoLocker

open Lib

/-- A pointer to a function; a NULL is `none`. -/
abbrev Callback := Option Nat

/-- `arduino_event_id_t`. -/
abbrev EventId := Nat

def ARDUINO_EVENT_MAX : EventId := 40

/-- `WiFiEventCbList_t`. -/
structure Handler where
  id : UInt32
  cb : Callback
  fcb : Callback
  scb : Callback
  event : EventId
  deriving DecidableEq

/-- `current_id` and `cbEventList`. -/
structure Handlers where
  currentId : UInt32
  cbEventList : List Handler

def Handlers.init : Handlers := ⟨1, []⟩

/-- A `newEventHandler` takes `current_id++`. -/
def Handlers.push (s : Handlers) (cb fcb scb : Callback) (event : EventId) : UInt32 × Handlers :=
  (s.currentId, ⟨s.currentId + 1, s.cbEventList ++ [⟨s.currentId, cb, fcb, scb, event⟩]⟩)

/-- `onEvent` of a `WiFiEventCb`. -/
def Handlers.onEventCb (s : Handlers) (cbEvent : Callback) (event : EventId) : UInt32 × Handlers :=
  if cbEvent = none then (0, s) else s.push cbEvent none none event

/-- `onEvent` of a `WiFiEventFuncCb`. -/
def Handlers.onEventFuncCb (s : Handlers) (cbEvent : Callback) (event : EventId) : UInt32 × Handlers :=
  if cbEvent = none then (0, s) else s.push none cbEvent none event

/-- `onEvent` of a `WiFiEventSysCb`. -/
def Handlers.onEventSysCb (s : Handlers) (cbEvent : Callback) (event : EventId) : UInt32 × Handlers :=
  if cbEvent = none then (0, s) else s.push none none cbEvent event

/-- The loop of the `removeEvent`s. -/
def Handlers.eraseIf (s : Handlers) (p : Handler → Bool) : Handlers :=
  { s with cbEventList := eraseLoop p s.cbEventList.length 0 s.cbEventList }

/-- `removeEvent` of a `WiFiEventCb`. -/
def Handlers.removeEventCb (s : Handlers) (cbEvent : Callback) (event : EventId) : Handlers :=
  if cbEvent = none then s else s.eraseIf fun entry => entry.cb = cbEvent ∧ entry.event = event

/-- `removeEvent` of a `WiFiEventSysCb`. -/
def Handlers.removeEventSysCb (s : Handlers) (cbEvent : Callback) (event : EventId) : Handlers :=
  if cbEvent = none then s else s.eraseIf fun entry => entry.scb = cbEvent ∧ entry.event = event

/-- `removeEvent` of an id. -/
def Handlers.removeEventId (s : Handlers) (id : UInt32) : Handlers := s.eraseIf fun entry => entry.id = id

/-- The calls of a program, or of a handler. -/
inductive HandlerOp where
  | onEventCb (cbEvent : Callback) (event : EventId)
  | onEventFuncCb (cbEvent : Callback) (event : EventId)
  | onEventSysCb (cbEvent : Callback) (event : EventId)
  | removeEventCb (cbEvent : Callback) (event : EventId)
  | removeEventSysCb (cbEvent : Callback) (event : EventId)
  | removeEventId (id : UInt32)
  deriving DecidableEq

def Handlers.step (s : Handlers) : HandlerOp → Handlers
  | .onEventCb cbEvent event => (s.onEventCb cbEvent event).2
  | .onEventFuncCb cbEvent event => (s.onEventFuncCb cbEvent event).2
  | .onEventSysCb cbEvent event => (s.onEventSysCb cbEvent event).2
  | .removeEventCb cbEvent event => s.removeEventCb cbEvent event
  | .removeEventSysCb cbEvent event => s.removeEventSysCb cbEvent event
  | .removeEventId id => s.removeEventId id

def Handlers.run (s : Handlers) (ops : List HandlerOp) : Handlers := ops.foldl Handlers.step s

/-- `_eventCallback` calls the handler on the event. -/
def Handler.hears (entry : Handler) (event : EventId) : Bool :=
  (entry.cb.isSome || entry.fcb.isSome || entry.scb.isSome) &&
    (entry.event = event || entry.event = ARDUINO_EVENT_MAX)

/-- The loop of `_eventCallback` from `i` on: the handlers called, where each does what `act` says. -/
def Handlers.dispatch (act : Handler → List HandlerOp) (event : EventId) :
    Nat → Nat → Handlers → List Handler × Handlers
  | 0, _, s => ([], s)
  | fuel + 1, i, s =>
    match s.cbEventList[i]? with
    | none => ([], s)
    | some entry =>
      if entry.hears event then
        let (called, t) := Handlers.dispatch act event fuel (i + 1) (s.run (act entry))
        (entry :: called, t)
      else Handlers.dispatch act event fuel (i + 1) s

/-- The calls that register a handler. -/
def HandlerOp.registers : HandlerOp → Bool
  | .onEventCb cbEvent _ | .onEventFuncCb cbEvent _ | .onEventSysCb cbEvent _ => cbEvent.isSome
  | _ => false

/-- A handler that changes the handlers when it is called. -/
def acts (act : Handler → List HandlerOp) (event : EventId) (entry : Handler) : Bool :=
  entry.hears event && act entry ≠ []

/-- From handlers of `p` in a row `remove` takes the first, the third and so on, which is `eraseSkip`. It
leaves the others in their order, and `k` calls clear the list of `p` where fewer than 2^k are in a row. -/
structure HalvesRows (remove : Handlers → Handlers) (p : Handler → Bool) : Prop where
  skips : ∀ s, (remove s).cbEventList = eraseSkip p s.cbEventList
  clears : ∀ s k, (∀ entry ∈ (remove^[k] s).cbEventList, ¬ p entry) ↔ longest p s.cbEventList < 2 ^ k
  others : ∀ s k, (remove^[k] s).cbEventList.filter (! p ·) = s.cbEventList.filter (! p ·)

section
variable {s : Handlers} {p : Handler → Bool} {n : Nat} {act : Handler → List HandlerOp} {event : EventId}

theorem Handlers.eraseIf_list (s : Handlers) (p : Handler → Bool) :
    (s.eraseIf p).cbEventList = eraseSkip p s.cbEventList := by
  have h := eraseLoop_eq (p := p) s.cbEventList.length 0 s.cbEventList (Nat.le_add_left _ _)
  rwa [List.take_zero, List.nil_append, List.drop_zero] at h

theorem Handlers.iterate_eraseIf (s : Handlers) (p : Handler → Bool) (k : Nat) :
    ((Handlers.eraseIf · p)^[k] s).cbEventList = (eraseSkip p)^[k] s.cbEventList := by
  induction k generalizing s with
  | zero => rfl
  | succ k ih => rw [Function.iterate_succ_apply, Function.iterate_succ_apply, ih, Handlers.eraseIf_list]

/-- Ids are used once, below the next one, after `n` registrations. -/
structure Handlers.Inv (n : Nat) (s : Handlers) : Prop where
  next : s.currentId.toNat = n + 1
  below : ∀ entry ∈ s.cbEventList, 0 < entry.id.toNat ∧ entry.id.toNat ≤ n
  nodup : (s.cbEventList.map Handler.id).Nodup

theorem Handlers.Inv.push (h : s.Inv n) (hn : n + 2 < UInt32.size) (cb fcb scb : Callback)
    (event : EventId) : (s.push cb fcb scb event).2.Inv (n + 1) := by
  refine ⟨?_, fun entry he => ?_, ?_⟩
  · show (s.currentId + 1).toNat = n + 1 + 1
    rw [UInt32.toNat_add, h.next]
    exact Nat.mod_eq_of_lt hn
  · rcases List.mem_append.mp he with he | he
    · obtain ⟨hpos, hle⟩ := h.below entry he
      exact ⟨hpos, Nat.le_succ_of_le hle⟩
    · obtain rfl := List.mem_singleton.mp he
      show 0 < s.currentId.toNat ∧ s.currentId.toNat ≤ n + 1
      rw [h.next]
      exact ⟨Nat.succ_pos n, Nat.le_refl _⟩
  · show ((s.cbEventList ++ [_]).map Handler.id).Nodup
    rw [List.map_append]
    refine List.nodup_append.mpr ⟨h.nodup, List.nodup_singleton _, fun x hx y hy hxy => ?_⟩
    obtain ⟨entry, he, rfl⟩ := List.mem_map.mp hx
    obtain rfl := List.mem_singleton.mp hy
    have hle := (h.below entry he).2
    rw [show entry.id = s.currentId from hxy, h.next] at hle
    omega

theorem Handlers.Inv.eraseIf (h : s.Inv n) (p : Handler → Bool) : (s.eraseIf p).Inv n := by
  have hsub : (s.eraseIf p).cbEventList.Sublist s.cbEventList := by
    rw [Handlers.eraseIf_list]
    exact eraseSkip_sublist _
  exact ⟨h.next, fun entry he => h.below entry (hsub.subset he), h.nodup.sublist (hsub.map _)⟩

theorem Handlers.Inv.step (h : s.Inv n) (op : HandlerOp)
    (hn : n + (if op.registers then 1 else 0) + 1 < UInt32.size) :
    (s.step op).Inv (n + if op.registers then 1 else 0) := by
  cases op with
  | onEventCb cbEvent event =>
    cases cbEvent with
    | none => exact h
    | some f => exact h.push hn (some f) none none event
  | onEventFuncCb cbEvent event =>
    cases cbEvent with
    | none => exact h
    | some f => exact h.push hn none (some f) none event
  | onEventSysCb cbEvent event =>
    cases cbEvent with
    | none => exact h
    | some f => exact h.push hn none none (some f) event
  | removeEventCb cbEvent event =>
    cases cbEvent with
    | none => exact h
    | some f => exact h.eraseIf _
  | removeEventSysCb cbEvent event =>
    cases cbEvent with
    | none => exact h
    | some f => exact h.eraseIf _
  | removeEventId id => exact h.eraseIf _

theorem Handlers.Inv.run (h : s.Inv n) (ops : List HandlerOp)
    (hn : n + ops.countP HandlerOp.registers + 1 < UInt32.size) :
    (s.run ops).Inv (n + ops.countP HandlerOp.registers) := by
  induction ops generalizing s n with
  | nil => exact h
  | cons op ops ih =>
    rw [List.countP_cons] at hn ⊢
    have hrun := ih (h.step op (by omega)) (by omega)
    rwa [Nat.add_assoc, Nat.add_comm (ite _ _ _)] at hrun

theorem Handlers.Inv.list_nodup (h : s.Inv n) : s.cbEventList.Nodup := h.nodup.of_map _

/-- A handler that removes itself erases the entry at its index. -/
theorem Handlers.Inv.removeEventId_eq (h : s.Inv n) {i : Nat} {entry : Handler}
    (hi : s.cbEventList[i]? = some entry) :
    (s.removeEventId entry.id).cbEventList = s.cbEventList.eraseIdx i := by
  obtain ⟨hlt, rfl⟩ := List.getElem?_eq_some_iff.mp hi
  have hinj : ∀ x ∈ s.cbEventList, (x.id = s.cbEventList[i].id ↔ x = s.cbEventList[i]) := fun x hx =>
    ⟨fun hid => List.inj_on_of_nodup_map h.nodup hx (List.getElem_mem hlt) hid, congrArg Handler.id⟩
  have hchain : s.cbEventList.IsChain fun a b =>
      ¬ (decide (a.id = s.cbEventList[i].id) = true ∧ decide (b.id = s.cbEventList[i].id) = true) := by
    refine (List.Pairwise.imp ?_ (List.pairwise_map.mp h.nodup)).isChain
    intro a b hne hc
    exact hne ((of_decide_eq_true hc.1).trans (of_decide_eq_true hc.2).symm)
  unfold Handlers.removeEventId
  rw [Handlers.eraseIf_list, eraseSkip_of_longest (longest_le_one hchain), ← h.list_nodup.erase_getElem i hlt,
    h.list_nodup.erase_eq_filter]
  refine List.filter_congr fun x hx => ?_
  have hx := hinj x hx
  grind

/-- What an event does where handlers remove at most themselves. -/
theorem Handlers.Inv.dispatch_eq (h : s.Inv n) (hact : ∀ entry, act entry = [] ∨ act entry = [.removeEventId entry.id])
    (event : EventId) (fuel i : Nat) :
    (Handlers.dispatch act event fuel i s).1 =
        (seenLoop (acts act event) fuel i s.cbEventList).filter (·.hears event) ∧
      (Handlers.dispatch act event fuel i s).2.cbEventList =
        eraseLoop (acts act event) fuel i s.cbEventList := by
  induction fuel generalizing i s with
  | zero => exact ⟨rfl, rfl⟩
  | succ fuel ih =>
    unfold Handlers.dispatch seenLoop eraseLoop
    cases hi : s.cbEventList[i]? with
    | none => exact ⟨rfl, rfl⟩
    | some entry =>
      dsimp only
      by_cases hh : entry.hears event
      · rw [if_pos hh, List.filter_cons_of_pos (p := fun x : Handler => x.hears event) hh]
        rcases hact entry with ha | ha
        · have hacts : ¬ acts act event entry := by simp [acts, ha]
          rw [if_neg hacts, ha]
          obtain ⟨h1, h2⟩ := ih h (i + 1)
          exact ⟨congrArg (entry :: ·) h1, h2⟩
        · have hacts : acts act event entry := by simp [acts, ha, hh]
          rw [if_pos hacts, ha, ← h.removeEventId_eq hi]
          obtain ⟨h1, h2⟩ := ih (h.eraseIf fun x => x.id = entry.id) (i + 1)
          exact ⟨congrArg (entry :: ·) h1, h2⟩
      · have hacts : ¬ acts act event entry := by simp [acts, hh]
        rw [if_neg hh, if_neg hacts, List.filter_cons_of_neg (p := fun x : Handler => x.hears event) hh]
        exact ih h (i + 1)

theorem Handlers.eraseIf_halves (p : Handler → Bool) : HalvesRows (Handlers.eraseIf · p) p where
  skips s := s.eraseIf_list p
  clears s k := by
    rw [Handlers.iterate_eraseIf]
    exact iterate_eraseSkip_iff k s.cbEventList
  others s k := by
    rw [Handlers.iterate_eraseIf]
    generalize s.cbEventList = v
    induction k generalizing v with
    | zero => rfl
    | succ k ih => rw [Function.iterate_succ_apply, ih, filter_eraseSkip]

end

/-- **Removing handlers.** Each `removeEvent` takes every other one of the handlers in a row it is for, the
first among them, and no others. -/
theorem removeEvent_halves (f : Nat) (event : EventId) (id : UInt32) :
    HalvesRows (·.removeEventCb (some f) event) (fun entry => entry.cb = some f ∧ entry.event = event) ∧
      HalvesRows (·.removeEventSysCb (some f) event) (fun entry => entry.scb = some f ∧ entry.event = event) ∧
      HalvesRows (·.removeEventId id) (fun entry => entry.id = id) :=
  ⟨Handlers.eraseIf_halves _, Handlers.eraseIf_halves _, Handlers.eraseIf_halves _⟩

/-- **Calling handlers.** After any calls that register fewer than 2^32 - 1 handlers, where a handler
removes at most itself, an event leaves all but those it has called that remove themselves. It is heard
by all it is for exactly when none of them is directly behind one that removes itself. -/
theorem dispatch_reaches (ops : List HandlerOp) (hcount : ops.countP HandlerOp.registers + 1 < UInt32.size)
    (act : Handler → List HandlerOp) (hact : ∀ entry, act entry = [] ∨ act entry = [.removeEventId entry.id])
    (event : EventId) (fuel : Nat) (hfuel : (Handlers.init.run ops).cbEventList.length ≤ fuel) :
    let s := Handlers.init.run ops
    let called := (Handlers.dispatch act event fuel 0 s).1
    (Handlers.dispatch act event fuel 0 s).2.cbEventList =
        s.cbEventList.filter (fun entry => ¬ (entry ∈ called ∧ act entry ≠ [])) ∧
      (called = s.cbEventList.filter (·.hears event) ↔
        s.cbEventList.IsChain fun a b => ¬ ((a.hears event ∧ act a ≠ []) ∧ b.hears event)) := by
  have hstart : Handlers.init.Inv 0 := ⟨rfl, nofun, List.nodup_nil⟩
  have hinv := hstart.run ops (by omega)
  obtain ⟨hcalled, hleft⟩ := hinv.dispatch_eq hact event fuel 0
  rw [seenLoop_eq fuel 0 _ (by omega), List.drop_zero] at hcalled
  rw [eraseLoop_eq fuel 0 _ (by omega), List.take_zero, List.nil_append, List.drop_zero,
    eraseSkip_eq_filter hinv.list_nodup] at hleft
  have hacts : ∀ entry, (acts act event entry = true ↔ entry.hears event = true ∧ act entry ≠ []) := fun entry =>
    (Bool.and_eq_true_iff.trans (and_congr_right' decide_eq_true_iff))
  dsimp only
  rw [hcalled, hleft]
  constructor
  · refine List.filter_congr fun entry _ => ?_
    rw [decide_eq_decide, hacts, List.mem_filter]
    tauto
  · rw [filter_seen_iff fun entry h => ((hacts entry).mp h).1]
    simp only [hacts]

/-- A handler that removes itself hides the next one. -/
theorem dispatch_reaches_first :
    let act := fun entry : Handler => if entry.id = 1 then [HandlerOp.removeEventId entry.id] else []
    let s := Handlers.init.run [.onEventCb (some 7) ARDUINO_EVENT_MAX, .onEventSysCb (some 8) 3]
    (Handlers.dispatch act 3 2 0 s).1 ≠ s.cbEventList.filter (·.hears 3) := by
  intro act s heq
  have hact : ∀ entry, act entry = [] ∨ act entry = [.removeEventId entry.id] := by
    intro entry
    by_cases h : entry.id = 1
    · exact .inr (if_pos h)
    · exact .inl (if_neg h)
  have h := dispatch_reaches [.onEventCb (some 7) ARDUINO_EVENT_MAX, .onEventSysCb (some 8) 3] (by decide)
    act hact 3 2 (by decide)
  exact absurd (h.2.mp heq) (by decide)

end CryptoLocker
