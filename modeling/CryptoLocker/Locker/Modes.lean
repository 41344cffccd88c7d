import CryptoLocker.Lib.Outputs

/-!
# Modes

The WiFi driver is initialised, set to a mode, started, stopped and taken down
by `mode`, on the way of which each call may fail. What the last call that
concerned an interface said is what holds, whatever is done to the other one:
as it was asked if the call returned true, else so or as before
(`interface_last`). Logging and the events of the driver are left out, and
`esp_wifi_get_mode` succeeds on a driver that is initialised.
-/

namespace CryptoLocker

open Lib

inductive Interface where
  | sta
  | ap
  deriving DecidableEq

/-- `wifi_mode_t`, by its bits. -/
structure Mode where
  sta : Bool
  ap : Bool
  deriving DecidableEq

/-- `WIFI_MODE_NULL`. -/
def Mode.null : Mode := ⟨false, false⟩

def Mode.has (m : Mode) : Interface → Bool
  | .sta => m.sta
  | .ap => m.ap

def Mode.with (m : Mode) (i : Interface) (on : Bool) : Mode :=
  match i with
  | .sta => { m with sta := on }
  | .ap => { m with ap := on }

/-- The statics, and the mode of the driver. -/
structure Wifi where
  lowLevelInitDone : Bool
  espWifiStarted : Bool
  longRange : Bool
  isPersistent : Bool
  driverMode : Mode

def Wifi.init : Wifi := ⟨false, false, false, true, .null⟩

/-- How the calls of `mode` come out. -/
structure ModeCalls where
  tcpipInit : Bool
  wifiInit : Bool
  setStorage : Bool
  setHostname : Bool
  setMode : Bool
  setProtocolSta : Bool
  setProtocolAp : Bool
  wifiStart : Bool
  wifiStop : Bool
  wifiDeinit : Bool

/-- `wifiLowLevelInit`. -/
def Wifi.lowLevelInit (s : Wifi) (d : ModeCalls) : Bool × Wifi :=
  if s.lowLevelInitDone then (true, s)
  else if ¬ d.tcpipInit then (false, s)
  else if ¬ d.wifiInit then (false, s)
  else
    let done := if s.isPersistent then true else d.setStorage
    (done, { s with lowLevelInitDone := done })

/-- `espWiFiStart`. -/
def Wifi.start (s : Wifi) (d : ModeCalls) : Bool × Wifi :=
  if s.espWifiStarted then (true, s)
  else if ¬ d.wifiStart then (false, s)
  else (true, { s with espWifiStarted := true })

/-- `espWiFiStop`, with `wifiLowLevelDeinit`. -/
def Wifi.stop (s : Wifi) (d : ModeCalls) : Bool × Wifi :=
  if ¬ s.espWifiStarted then (true, s)
  else if ¬ d.wifiStop then (false, s)
  else
    let s := { s with espWifiStarted := false }
    if s.lowLevelInitDone then (d.wifiDeinit, { s with lowLevelInitDone := ! d.wifiDeinit }) else (true, s)

/-- `getMode`. -/
def Wifi.getMode (s : Wifi) : Mode :=
  if ¬ s.lowLevelInitDone ∨ ¬ s.espWifiStarted then .null else s.driverMode

/-- `mode` behind the initialisation. -/
def Wifi.switch (s : Wifi) (d : ModeCalls) (m : Mode) : Bool × Wifi :=
  if m.sta ∧ ¬ d.setHostname then (false, s)
  else if ¬ d.setMode then (false, s)
  else
    let s := { s with driverMode := m }
    if s.longRange ∧ m.sta ∧ ¬ d.setProtocolSta then (false, s)
    else if s.longRange ∧ m.ap ∧ ¬ d.setProtocolAp then (false, s)
    else s.start d

/-- `mode`. -/
def Wifi.mode (s : Wifi) (d : ModeCalls) (m : Mode) : Bool × Wifi :=
  let cm := s.getMode
  if cm = m then (true, s)
  else if cm = .null ∧ m ≠ .null then
    let (ok, s) := s.lowLevelInit d
    if ¬ ok then (false, s) else s.switch d m
  else if cm ≠ .null ∧ m = .null then s.stop d
  else s.switch d m

/-- `enableSTA` and `enableAP`, by their interface. -/
def Wifi.enable (i : Interface) (s : Wifi) (d : ModeCalls) (on : Bool) : Bool × Wifi :=
  let currentMode := s.getMode
  if currentMode.has i ≠ on then s.mode d (currentMode.with i on) else (true, s)

def Wifi.enableSTA : Wifi → ModeCalls → Bool → Bool × Wifi := Wifi.enable .sta

def Wifi.enableAP : Wifi → ModeCalls → Bool → Bool × Wifi := Wifi.enable .ap

inductive ModeInput where
  | mode (d : ModeCalls) (m : Mode)
  | enableSTA (d : ModeCalls) (on : Bool)
  | enableAP (d : ModeCalls) (on : Bool)
  | persistent (on : Bool)
  | enableLongRange (on : Bool)

/-- A call, with what it returns. -/
def Wifi.step (s : Wifi) : ModeInput → Bool × Wifi
  | .mode d m => s.mode d m
  | .enableSTA d on => s.enableSTA d on
  | .enableAP d on => s.enableAP d on
  | .persistent on => (true, { s with isPersistent := on })
  | .enableLongRange on => (true, { s with longRange := on })

/-- What a call asks of an interface. -/
def ModeInput.asks (i : Interface) : ModeInput → Option Bool
  | .mode _ m => some (m.has i)
  | .enableSTA _ on => if i = .sta then some on else none
  | .enableAP _ on => if i = .ap then some on else none
  | .persistent _ | .enableLongRange _ => none

/-! ## The mode there is -/

/-- What is started is initialised, and has a mode. -/
structure Wifi.Inv (s : Wifi) : Prop where
  done : s.espWifiStarted = true → s.lowLevelInitDone = true
  mode : s.espWifiStarted = true → s.driverMode ≠ .null

section
variable {s : Wifi} {d : ModeCalls} {m : Mode} {i : Interface} {on : Bool}

theorem Wifi.Inv.getMode_on (h : s.Inv) (hs : s.espWifiStarted = true) : s.getMode = s.driverMode := by
  unfold Wifi.getMode
  rw [if_neg]
  simp [hs, h.done hs]

theorem Wifi.getMode_off (hs : s.espWifiStarted = false) : s.getMode = .null :=
  if_pos (.inr (ne_true_of_eq_false hs))

/-- A call that was to bring about `m`. -/
structure Wifi.To (s : Wifi) (m : Mode) (r : Bool × Wifi) : Prop where
  inv : r.2.Inv
  done : r.1 = true → r.2.getMode = m
  mode : r.2.getMode = m ∨ r.2.getMode = s.getMode

/-- A call that does nothing. -/
theorem Wifi.Inv.to_self (h : s.Inv) {ok : Bool} (hok : ok = true → s.getMode = m) : s.To m (ok, s) :=
  ⟨h, hok, .inr rfl⟩

/-- A driver that is not started is in order, and has no mode. -/
theorem Wifi.inv_off (hs : s.espWifiStarted = false) : s.Inv :=
  ⟨fun hon => absurd (hs.symm.trans hon) Bool.false_ne_true, fun hon => absurd (hs.symm.trans hon) Bool.false_ne_true⟩

theorem Wifi.to_off {r : Bool × Wifi} (hr : r.2.espWifiStarted = false) (hnull : m = .null ∨ (r.1 = false ∧ s.getMode = .null)) :
    s.To m r := by
  have hoff := Wifi.getMode_off hr
  rcases hnull with rfl | ⟨hfalse, hs⟩
  · exact ⟨Wifi.inv_off hr, fun _ => hoff, .inl hoff⟩
  · exact ⟨Wifi.inv_off hr, fun hok => absurd (hfalse.symm.trans hok) Bool.false_ne_true, .inr (hoff.trans hs.symm)⟩

theorem Wifi.Inv.stop (h : s.Inv) (d : ModeCalls) : s.To .null (s.stop d) := by
  unfold Wifi.stop
  split
  · next hs =>
    have hoff := eq_false_of_ne_true hs
    exact h.to_self fun _ => Wifi.getMode_off hoff
  split
  · exact h.to_self nofun
  dsimp only
  split
  · exact Wifi.to_off rfl (.inl rfl)
  · exact Wifi.to_off rfl (.inl rfl)

/-- Initialising starts nothing. -/
theorem Wifi.lowLevelInit_spec (s : Wifi) (d : ModeCalls) :
    (s.lowLevelInit d).2.espWifiStarted = s.espWifiStarted ∧
      ((s.lowLevelInit d).1 = true → (s.lowLevelInit d).2.lowLevelInitDone = true) := by
  unfold Wifi.lowLevelInit
  split
  · next hs => exact ⟨rfl, fun _ => hs⟩
  split
  · exact ⟨rfl, nofun⟩
  split
  · exact ⟨rfl, nofun⟩
  · exact ⟨rfl, id⟩

/-- A driver with the mode `m` that is then started, if it is not yet. -/
theorem Wifi.start_to {t : Wifi} (hinit : t.lowLevelInitDone = true) (hm : t.driverMode ≠ .null)
    (hs : t.espWifiStarted = s.espWifiStarted) (d : ModeCalls) : s.To t.driverMode (t.start d) := by
  unfold Wifi.start
  split
  · next hon =>
    have hinv : t.Inv := ⟨fun _ => hinit, fun _ => hm⟩
    exact ⟨hinv, fun _ => hinv.getMode_on hon, .inl (hinv.getMode_on hon)⟩
  · next hoff =>
    have hfalse := eq_false_of_ne_true hoff
    split
    · exact Wifi.to_off hfalse (.inr ⟨rfl, Wifi.getMode_off (hs.symm.trans hfalse)⟩)
    · have hinv : ({ t with espWifiStarted := true } : Wifi).Inv := ⟨fun _ => hinit, fun _ => hm⟩
      exact ⟨hinv, fun _ => hinv.getMode_on rfl, .inl (hinv.getMode_on rfl)⟩

/-- A driver left with the mode `m` by a call that gives up. -/
theorem Wifi.give_up {t : Wifi} (hinit : t.lowLevelInitDone = true) (hm : t.driverMode ≠ .null)
    (hs : t.espWifiStarted = s.espWifiStarted) : s.To t.driverMode (false, t) := by
  have hinv : t.Inv := ⟨fun _ => hinit, fun _ => hm⟩
  by_cases hon : t.espWifiStarted = true
  · exact ⟨hinv, nofun, .inl (hinv.getMode_on hon)⟩
  · have hfalse := eq_false_of_ne_true hon
    exact Wifi.to_off hfalse (.inr ⟨rfl, Wifi.getMode_off (hs.symm.trans hfalse)⟩)

theorem Wifi.Inv.switch (h : s.Inv) (hinit : s.lowLevelInitDone = true) (hm : m ≠ .null) (d : ModeCalls) :
    s.To m (s.switch d m) := by
  unfold Wifi.switch
  split
  · exact h.to_self nofun
  split
  · exact h.to_self nofun
  dsimp only
  split
  · exact Wifi.give_up (t := { s with driverMode := m }) hinit hm rfl
  split
  · exact Wifi.give_up (t := { s with driverMode := m }) hinit hm rfl
  · exact Wifi.start_to (s := s) (t := { s with driverMode := m }) hinit hm rfl d

theorem Wifi.Inv.to_mode (h : s.Inv) (d : ModeCalls) (m : Mode) : s.To m (s.mode d m) := by
  unfold Wifi.mode
  dsimp only
  split
  · next heq => exact h.to_self fun _ => heq
  split
  · next hne hnull =>
    -- without a mode nothing is started
    have hoff : s.espWifiStarted = false := by
      by_contra hon
      have hon := eq_true_of_ne_false hon
      exact h.mode hon ((h.getMode_on hon).symm.trans hnull.1)
    obtain ⟨hstarted, hdone⟩ := s.lowLevelInit_spec d
    generalize s.lowLevelInit d = r at hstarted hdone
    obtain ⟨ok, t⟩ := r
    have htoff : t.espWifiStarted = false := hstarted.trans hoff
    cases ok with
    | false => exact Wifi.to_off htoff (.inr ⟨rfl, hnull.1⟩)
    | true =>
      have ht := (Wifi.inv_off htoff).switch (hdone rfl) hnull.2 d
      exact ⟨ht.inv, ht.done, ht.mode.imp_right fun hmode => hmode.trans ((Wifi.getMode_off htoff).trans hnull.1.symm)⟩
  split
  · next hstop =>
    rw [hstop.2]
    exact h.stop d
  · next hne hn1 hn2 =>
    have hcm : s.getMode ≠ .null := fun hc => hn1 ⟨hc, fun hm => hne (hc.trans hm.symm)⟩
    have hm : m ≠ .null := fun hm => hn2 ⟨hcm, hm⟩
    have hon : s.espWifiStarted = true := by
      by_contra hoff
      exact hcm (Wifi.getMode_off (eq_false_of_ne_true hoff))
    exact h.switch (h.done hon) hm d

@[simp] theorem Mode.has_with (m : Mode) (i j : Interface) (on : Bool) :
    (m.with i on).has j = if j = i then on else m.has j := by
  cases i <;> cases j <;> rfl

theorem Wifi.Inv.enable (h : s.Inv) (i : Interface) (d : ModeCalls) (on : Bool) :
    s.To (s.getMode.with i on) (Wifi.enable i s d on) := by
  unfold Wifi.enable
  dsimp only
  split
  · exact h.to_mode d _
  · next hsame =>
    have hwith : s.getMode.with i on = s.getMode := by
      have hon : s.getMode.has i = on := not_not.mp hsame
      subst hon
      cases i <;> rfl
    exact h.to_self fun _ => hwith.symm

end

/-! ## Runs -/

/-- A call that asked for `on` leaves the interface so or as it was, and so if it returns true. -/
structure Wifi.Answers (s : Wifi) (i : Interface) (on : Bool) (r : Bool × Wifi) : Prop where
  inv : r.2.Inv
  done : r.1 = true → r.2.getMode.has i = on
  kept : r.2.getMode.has i = on ∨ r.2.getMode.has i = s.getMode.has i

section
variable {s : Wifi} {i j : Interface} {on : Bool} {m : Mode} {r : Bool × Wifi} {op : ModeInput}

theorem Wifi.To.answers (h : s.To m r) (i : Interface) : s.Answers i (m.has i) r :=
  ⟨h.inv, fun hok => congrArg (Mode.has · i) (h.done hok),
    h.mode.imp (congrArg (Mode.has · i)) (congrArg (Mode.has · i))⟩

/-- Enabling an interface leaves the other. -/
theorem Wifi.To.other (h : s.To (s.getMode.with i on) r) (hij : j ≠ i) : r.2.getMode.has j = s.getMode.has j := by
  rcases h.mode with hmode | hmode
  · rw [hmode, Mode.has_with, if_neg hij]
  · rw [hmode]

theorem Wifi.Inv.asked (h : s.Inv) (hop : op.asks i = some on) : s.Answers i on (s.step op) := by
  have hone : ∀ (j : Interface) (d : ModeCalls) (on' : Bool), (if i = j then some on' else none) = some on →
      s.Answers i on (Wifi.enable j s d on') := by
    intro j d on' heq
    obtain ⟨rfl, hon⟩ := Option.ite_none_right_eq_some.mp heq
    have hans := (h.enable i d on').answers i
    rw [Mode.has_with, if_pos rfl, Option.some.inj hon] at hans
    rw [Option.some.inj hon]
    exact hans
  cases op with
  | mode d m =>
    obtain rfl := Option.some.inj hop
    exact (h.to_mode d m).answers i
  | enableSTA d on' => exact hone .sta d on' hop
  | enableAP d on' => exact hone .ap d on' hop
  | persistent on' => cases hop
  | enableLongRange on' => cases hop

theorem Wifi.Inv.not_asked (h : s.Inv) (hop : op.asks i = none) :
    (s.step op).2.Inv ∧ (s.step op).2.getMode.has i = s.getMode.has i := by
  have hone : ∀ (j : Interface) (d : ModeCalls) (on : Bool), (if i = j then some on else none) = none →
      (Wifi.enable j s d on).2.Inv ∧ (Wifi.enable j s d on).2.getMode.has i = s.getMode.has i := by
    intro j d on heq
    have hij : i ≠ j := by
      rintro rfl
      cases (if_pos rfl).symm.trans heq
    have hto := h.enable j d on
    exact ⟨hto.inv, hto.other hij⟩
  cases op with
  | mode d m => cases hop
  | enableSTA d on => exact hone .sta d on hop
  | enableAP d on => exact hone .ap d on hop
  | persistent on => exact ⟨⟨h.done, h.mode⟩, rfl⟩
  | enableLongRange on => exact ⟨⟨h.done, h.mode⟩, rfl⟩

theorem Wifi.Inv.step (h : s.Inv) (op : ModeInput) : (s.step op).2.Inv := by
  cases hop : op.asks .sta with
  | none => exact (h.not_asked hop).1
  | some on => exact (h.asked hop).inv

end

/-- **Interfaces.** After any run, be there failures or not: if the last call that concerned an
interface asked for `on`, the interface is so if the call returned true, and else so or as it was
before the call. -/
theorem interface_last (pre post : List ModeInput) (op : ModeInput) (i : Interface) (on : Bool)
    (hop : op.asks i = some on) (hpost : ∀ o ∈ post, o.asks i = none) :
    let before := final Wifi.step .init pre
    let after := final Wifi.step .init (pre ++ op :: post)
    ((before.step op).1 = true → after.getMode.has i = on) ∧
      (after.getMode.has i = on ∨ after.getMode.has i = before.getMode.has i) := by
  intro before after
  have hstart : Wifi.init.Inv := Wifi.inv_off rfl
  have hinv : before.Inv := final_inv Wifi.Inv (fun s o _ hs => hs.step o) hstart
  have hans := hinv.asked hop
  have hafter : after = final Wifi.step (before.step op).2 post := final_append Wifi.step .init pre (op :: post)
  have hrest : after.Inv ∧ after.getMode.has i = (before.step op).2.getMode.has i := by
    rw [hafter]
    refine final_inv (fun s : Wifi => s.Inv ∧ s.getMode.has i = (before.step op).2.getMode.has i) ?_ ⟨hans.inv, rfl⟩
    rintro s o ho ⟨hs, heq⟩
    obtain ⟨hs', heq'⟩ := hs.not_asked (hpost o ho)
    exact ⟨hs', heq'.trans heq⟩
  rw [hrest.2]
  exact ⟨hans.done, hans.kept⟩

/-- The station is on, though the access point behind it fails. -/
theorem interface_last_sta :
    let ok : ModeCalls := ⟨true, true, true, true, true, true, true, true, true, true⟩
    (final Wifi.step .init [.enableSTA ok true, .enableAP { ok with setMode := false } true]).getMode.sta = true := by
  intro ok
  exact (interface_last [] [.enableAP { ok with setMode := false } true] (.enableSTA ok true) .sta true rfl
    (by simp [ModeInput.asks])).1 (by decide)

end CryptoLocker
