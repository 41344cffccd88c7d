import CryptoLocker.Lib.Registers

/-!
# The station of the locker

`setup` waits until `WiFi.status()` is `WL_CONNECTED`, which `_eventCallback`
sets, with the status bits, on the events of the driver. A disconnect makes it
reconnect: once whatever the reason, and then for some. After an expired
authentication the status stays as it was, so that `begin()` takes the station
for connected (`stale_iff`, `reconnects_iff`). Logging, the results of a scan
and the credentials of SmartConfig are left out.
-/

namespace CryptoLocker

open Lib

/-- `wl_status_t`. -/
inductive WlStatus where
  | noShield
  | idleStatus
  | noSsidAvail
  | scanCompleted
  | connected
  | connectFailed
  | connectionLost
  | disconnected
  deriving DecidableEq, Repr

/-- The status bits. -/
inductive Bit where
  | apStarted | apHasIp6 | apHasClient
  | staStarted | staConnected | staHasIp | staHasIp6
  | ethStarted | ethConnected | ethHasIp | ethHasIp6
  | wifiScanning | wifiScanDone | wifiDnsIdle | wifiDnsDone
  deriving DecidableEq, Repr

/-- The reasons of a disconnect the source names, and 0. -/
inductive Reason where
  | zero
  | unspecified
  | authExpire | fourWayHandshakeTimeout | groupKeyUpdateTimeout | ieee8021xAuthFailed | handshakeTimeout
  | authLeave | assocExpire | assocToomany | notAuthed | notAssoced | assocNotAuthed | micFailure
  | ieIn4wayDiffers | invalidPmkid | beaconTimeout | noApFound | assocFail | connectionFail
  | apTsfReset | roaming
  | authFail
  | assocLeave
  | other (code : Nat)
  deriving DecidableEq, Repr

/-- `_isReconnectableReason`. -/
def isReconnectableReason : Reason → Bool
  | .unspecified
  | .authExpire | .fourWayHandshakeTimeout | .groupKeyUpdateTimeout | .ieee8021xAuthFailed | .handshakeTimeout
  | .authLeave | .assocExpire | .assocToomany | .notAuthed | .notAssoced | .assocNotAuthed | .micFailure
  | .ieIn4wayDiffers | .invalidPmkid | .beaconTimeout | .noApFound | .assocFail | .connectionFail
  | .apTsfReset | .roaming => true
  | _ => false

/-- Reason 0 is taken for `unspecified`. -/
def Reason.orUnspecified (reason : Reason) : Reason := if reason = .zero then .unspecified else reason

/-- The events `_eventCallback` tells apart. `apStadisconnected` has the clients left
(`esp_wifi_ap_get_sta_list`, `none` if it fails). -/
inductive Event where
  | scanDone
  | staStart
  | staStop
  | staConnected
  | staDisconnected (reason : Reason)
  | staGotIp
  | staLostIp
  | apStart
  | apStop
  | apStaconnected
  | apStadisconnected (clients : Option Nat)
  | ethStart
  | ethStop
  | ethConnected
  | ethDisconnected
  | ethGotIp
  | staGotIp6
  | apGotIp6
  | ethGotIp6
  | other
  deriving DecidableEq, Repr

/-- How the calls `disconnect()` and `begin()` make come out. -/
structure Driver where
  /-- `getMode() & WIFI_MODE_STA` -/
  staMode : Bool
  enableSta : Bool
  config : Bool
  ip : Bool
  connect : Bool

/-- What the driver is told. -/
inductive DriverCall where
  | disconnect
  | connect
  deriving DecidableEq, Repr

structure Station where
  status : WlStatus
  bits : Bit → Bool
  firstConnect : Bool
  autoReconnect : Bool

/-- The statics as they are initialised. -/
def Station.init : Station := ⟨.noShield, fun _ => false, true, true⟩

def Station.setStatus (s : Station) (status : WlStatus) : Station := { s with status }

def Station.setStatusBits (s : Station) (bits : List Bit) : Station :=
  { s with bits := fun b => bits.contains b || s.bits b }

def Station.clearStatusBits (s : Station) (bits : List Bit) : Station :=
  { s with bits := fun b => !bits.contains b && s.bits b }

def Station.setAutoReconnect (s : Station) (on : Bool) : Station := { s with autoReconnect := on }

/-- `disconnect(false, false)`. -/
def disconnectCalls (d : Driver) : List DriverCall := if d.staMode then [.disconnect] else []

/-- `begin()`: the status it returns and what it tells the driver. -/
def Station.begin (s : Station) (d : Driver) : WlStatus × List DriverCall :=
  if ¬ d.enableSta then (.connectFailed, [])
  else if ¬ d.config then (.connectFailed, [])
  else if ¬ d.ip then (.connectFailed, [])
  else if s.status ≠ .connected then
    if ¬ d.connect then (.connectFailed, [.connect]) else (s.status, [.connect])
  else (s.status, [])

/-- The status and the bits a disconnect leaves. -/
def Station.lose (s : Station) (reason : Reason) : Station :=
  let s :=
    if reason = .noApFound then s.setStatus .noSsidAvail
    else if reason = .authFail ∧ ¬ s.firstConnect then s.setStatus .connectFailed
    else if reason = .beaconTimeout ∨ reason = .handshakeTimeout then s.setStatus .connectionLost
    else if reason = .authExpire then s
    else s.setStatus .disconnected
  s.clearStatusBits [.staConnected, .staHasIp, .staHasIp6]

/-- The branch of `ARDUINO_EVENT_WIFI_STA_DISCONNECTED`. -/
def Station.disconnected (s : Station) (d : Driver) (reason : Reason) : Station × List DriverCall :=
  let reason := reason.orUnspecified
  let s := s.lose reason
  if reason = .assocLeave then (s, [])
  else if s.firstConnect then
    let s := { s with firstConnect := false }
    (s, disconnectCalls d ++ (s.begin d).2)
  else if s.autoReconnect ∧ isReconnectableReason reason then (s, disconnectCalls d ++ (s.begin d).2)
  else if reason = .assocFail then (s.setStatus .connectFailed, [])
  else (s, [])

/-- `_eventCallback`, up to the handlers. -/
def eventCallback (s : Station) (d : Driver) : Event → Station × List DriverCall
  | .scanDone => ((s.setStatusBits [.wifiScanDone]).clearStatusBits [.wifiScanning], [])
  | .staStart => ((s.setStatus .disconnected).setStatusBits [.staStarted], [])
  | .staStop =>
    ((s.setStatus .noShield).clearStatusBits [.staStarted, .staConnected, .staHasIp, .staHasIp6], [])
  | .staConnected => ((s.setStatus .idleStatus).setStatusBits [.staConnected], [])
  | .staDisconnected reason => s.disconnected d reason
  | .staGotIp => ((s.setStatus .connected).setStatusBits [.staHasIp, .staConnected], [])
  | .staLostIp => ((s.setStatus .idleStatus).clearStatusBits [.staHasIp], [])
  | .apStart => (s.setStatusBits [.apStarted], [])
  | .apStop => (s.clearStatusBits [.apStarted, .apHasClient], [])
  | .apStaconnected => (s.setStatusBits [.apHasClient], [])
  | .apStadisconnected clients =>
    if clients = none ∨ clients = some 0 then (s.clearStatusBits [.apHasClient], []) else (s, [])
  | .ethStart => (s.setStatusBits [.ethStarted], [])
  | .ethStop => (s.clearStatusBits [.ethStarted, .ethConnected, .ethHasIp, .ethHasIp6], [])
  | .ethConnected => (s.setStatusBits [.ethConnected], [])
  | .ethDisconnected => (s.clearStatusBits [.ethConnected, .ethHasIp, .ethHasIp6], [])
  | .ethGotIp => (s.setStatusBits [.ethConnected, .ethHasIp], [])
  | .staGotIp6 => (s.setStatusBits [.staConnected, .staHasIp6], [])
  | .apGotIp6 => (s.setStatusBits [.apHasIp6], [])
  | .ethGotIp6 => (s.setStatusBits [.ethConnected, .ethHasIp6], [])
  | .other => (s, [])

/-! ## Runs -/

/-- What happens to the station: an event, with the driver it meets, or a call of `setAutoReconnect`. -/
inductive StationInput where
  | event (d : Driver) (e : Event)
  | setAutoReconnect (on : Bool)

def Station.step (s : Station) : StationInput → Station
  | .event d e => (eventCallback s d e).1
  | .setAutoReconnect on => s.setAutoReconnect on

def Station.run (s : Station) (is : List StationInput) : Station := is.foldl Station.step s

/-- What `status = WL_CONNECTED` becomes, where it is set. -/
def StationInput.connected : StationInput → Option Bool
  | .event _ .staGotIp => some true
  | .event _ .staStart | .event _ .staStop | .event _ .staConnected | .event _ .staLostIp => some false
  | .event _ (.staDisconnected reason) => if reason = .authExpire then none else some false
  | _ => none

/-- What `STA_HAS_IP_BIT` becomes, where it is set or cleared. -/
def StationInput.hasIp : StationInput → Option Bool
  | .event _ .staGotIp => some true
  | .event _ .staStop | .event _ .staLostIp | .event _ (.staDisconnected _) => some false
  | _ => none

/-- A disconnect that was not asked for. -/
def StationInput.fails : StationInput → Bool
  | .event _ (.staDisconnected reason) => reason ≠ .assocLeave
  | _ => false

def connectedRegister : Register Station StationInput Bool :=
  ⟨fun s => s.status = .connected, StationInput.connected⟩

def hasIpRegister : Register Station StationInput Bool := ⟨fun s => s.bits .staHasIp, StationInput.hasIp⟩

def firstRegister : Register Station StationInput Bool :=
  ⟨Station.firstConnect, fun i => if i.fails then some false else none⟩

section
variable {s : Station} {d : Driver} {reason : Reason} {bits : List Bit} {b : Bit} {status : WlStatus}

@[simp] theorem Station.setStatus_first : (s.setStatus status).firstConnect = s.firstConnect := rfl

@[simp] theorem Station.setStatusBits_bits :
    (s.setStatusBits bits).bits b = (bits.contains b || s.bits b) := rfl

@[simp] theorem Station.clearStatusBits_bits :
    (s.clearStatusBits bits).bits b = (!bits.contains b && s.bits b) := rfl

theorem Reason.orUnspecified_eq {x : Reason} (h0 : x ≠ .zero) (h1 : x ≠ .unspecified) :
    reason.orUnspecified = x ↔ reason = x := by
  unfold Reason.orUnspecified
  split
  · next hz =>
    subst hz
    exact iff_of_false (Ne.symm h1) (Ne.symm h0)
  · rfl

@[simp] theorem Station.lose_hasIp : (s.lose reason).bits .staHasIp = false := rfl

@[simp] theorem Station.lose_first : (s.lose reason).firstConnect = s.firstConnect := by
  unfold Station.lose
  dsimp only
  split_ifs <;> rfl

@[simp] theorem Station.lose_auto : (s.lose reason).autoReconnect = s.autoReconnect := by
  unfold Station.lose
  dsimp only
  split_ifs <;> rfl

/-- Only an expired authentication leaves the station its status. -/
theorem Station.lose_connected :
    (s.lose reason).status = .connected ↔ reason = .authExpire ∧ s.status = .connected := by
  unfold Station.lose
  dsimp only [Station.clearStatusBits]
  split_ifs with h1 h2 h3 h4
  · subst h1
    exact iff_of_false nofun fun h => nomatch h.1
  · exact iff_of_false nofun fun h => nomatch h2.1.symm.trans h.1
  · exact iff_of_false nofun fun h => by rcases h3 with h3 | h3 <;> cases h3.symm.trans h.1
  · exact (and_iff_right h4).symm
  · exact iff_of_false nofun fun h => h4 h.1

/-- Everything a disconnect does. -/
theorem Station.disconnected_cases (s : Station) (d : Driver) (reason : Reason) :
    let t := s.lose reason.orUnspecified
    (reason = .assocLeave ∧ s.disconnected d reason = (t, [])) ∨
      (reason ≠ .assocLeave ∧ s.firstConnect ∧
        s.disconnected d reason = ({ t with firstConnect := false }, disconnectCalls d ++ (t.begin d).2)) ∨
      (reason ≠ .assocLeave ∧ ¬ s.firstConnect ∧ s.autoReconnect ∧
        isReconnectableReason reason.orUnspecified ∧
        s.disconnected d reason = (t, disconnectCalls d ++ (t.begin d).2)) ∨
      (reason ≠ .assocLeave ∧ ¬ s.firstConnect ∧
        ¬ (s.autoReconnect ∧ isReconnectableReason reason.orUnspecified) ∧
        ((reason = .assocFail ∧ s.disconnected d reason = (t.setStatus .connectFailed, [])) ∨
          (reason ≠ .assocFail ∧ s.disconnected d reason = (t, [])))) := by
  have hleave : reason.orUnspecified = .assocLeave ↔ reason = .assocLeave :=
    Reason.orUnspecified_eq nofun nofun
  have hfail : reason.orUnspecified = .assocFail ↔ reason = .assocFail :=
    Reason.orUnspecified_eq nofun nofun
  unfold Station.disconnected
  simp only [hleave, hfail, Station.lose_first, Station.lose_auto]
  by_cases h1 : reason = .assocLeave
  · exact .inl ⟨h1, if_pos h1⟩
  rw [if_neg h1]
  by_cases h2 : s.firstConnect
  · exact .inr (.inl ⟨h1, h2, if_pos h2⟩)
  rw [if_neg h2]
  by_cases h3 : s.autoReconnect ∧ isReconnectableReason reason.orUnspecified
  · exact .inr (.inr (.inl ⟨h1, h2, h3.1, h3.2, if_pos h3⟩))
  rw [if_neg h3]
  refine .inr (.inr (.inr ⟨h1, h2, h3, ?_⟩))
  by_cases h4 : reason = .assocFail
  · exact .inl ⟨h4, if_pos h4⟩
  · exact .inr ⟨h4, if_neg h4⟩

/-- The station behind a disconnect. -/
theorem Station.disconnected_spec (s : Station) (d : Driver) (reason : Reason) :
    ((s.disconnected d reason).1.status = .connected ↔ reason = .authExpire ∧ s.status = .connected) ∧
      (s.disconnected d reason).1.bits .staHasIp = false ∧
      (s.disconnected d reason).1.firstConnect = (decide (reason = .assocLeave) && s.firstConnect) := by
  have hlose : (s.lose reason.orUnspecified).status = .connected ↔
      reason = .authExpire ∧ s.status = .connected := by
    have hexp : reason.orUnspecified = .authExpire ↔ reason = .authExpire :=
      Reason.orUnspecified_eq nofun nofun
    rw [Station.lose_connected, hexp]
  obtain ⟨h1, h⟩ | ⟨h1, h2, h⟩ | ⟨h1, h2, -, -, h⟩ | ⟨h1, h2, -, ⟨h4, h⟩ | ⟨-, h⟩⟩ :=
    s.disconnected_cases d reason
  · rw [h]
    exact ⟨hlose, rfl, by simp [h1]⟩
  · rw [h]
    exact ⟨hlose, rfl, by simp [h1]⟩
  · rw [h]
    exact ⟨hlose, rfl, by simp [h2]⟩
  · rw [h]
    exact ⟨iff_of_false nofun fun he => (nomatch h4.symm.trans he.1), rfl, by simp [h2]⟩
  · rw [h]
    exact ⟨hlose, rfl, by simp [h2]⟩

end

/-! ## The registers of the station -/

theorem connectedRegister_of : connectedRegister.Of Station.step := by
  rintro s (⟨d, e⟩ | on)
  · cases e with
    | staDisconnected reason =>
      have hconn := (s.disconnected_spec d reason).1
      simp only [connectedRegister, StationInput.connected, Station.step, eventCallback, hconn]
      split <;> simp [*]
    | apStadisconnected clients =>
      simp only [connectedRegister, StationInput.connected, Station.step, eventCallback]
      split <;> rfl
    | _ => rfl
  · rfl

theorem hasIpRegister_of : hasIpRegister.Of Station.step := by
  rintro s (⟨d, e⟩ | on)
  · cases e with
    | staDisconnected reason => exact (s.disconnected_spec d reason).2.1
    | apStadisconnected clients =>
      simp only [hasIpRegister, StationInput.hasIp, Station.step, eventCallback]
      split <;> simp
    | _ => rfl
  · rfl

theorem firstRegister_of : firstRegister.Of Station.step := by
  rintro s (⟨d, e⟩ | on)
  · cases e with
    | staDisconnected reason =>
      have hfirst := (s.disconnected_spec d reason).2.2
      simp only [firstRegister, StationInput.fails, Station.step, eventCallback, hfirst]
      by_cases hr : reason = .assocLeave <;> simp [hr]
    | apStadisconnected clients =>
      simp only [firstRegister, StationInput.fails, Station.step, eventCallback]
      split <;> rfl
    | _ => rfl
  · rfl

section
variable {s : Station} {d : Driver} {i : StationInput} {is js : List StationInput}

theorem Station.run_append (s : Station) (is js : List StationInput) :
    s.run (is ++ js) = (s.run is).run js := List.foldl_append

theorem StationInput.connected_true : i.connected = some true ↔ ∃ d, i = .event d .staGotIp := by
  constructor
  · intro h
    unfold StationInput.connected at h
    split at h
    · next d => exact ⟨d, rfl⟩
    · cases h
    · cases h
    · cases h
    · cases h
    · split at h <;> cases h
    · cases h
  · rintro ⟨d, rfl⟩
    rfl

theorem StationInput.hasIp_true : i.hasIp = some true ↔ ∃ d, i = .event d .staGotIp := by
  constructor
  · intro h
    unfold StationInput.hasIp at h
    split at h
    · next d => exact ⟨d, rfl⟩
    · cases h
    · cases h
    · cases h
    · cases h
  · rintro ⟨d, rfl⟩
    rfl

/-- What leaves the status alone takes the address only if an authentication expires. -/
theorem StationInput.hasIp_of_connected (h : i.connected = none) :
    i.hasIp = none ∨ ∃ d, i = .event d (.staDisconnected .authExpire) := by
  unfold StationInput.connected at h
  split at h
  · cases h
  · cases h
  · cases h
  · cases h
  · cases h
  · next d reason =>
    split at h
    · next hr => exact .inr ⟨d, by rw [hr]⟩
    · cases h
  · next h1 h2 h3 h4 h5 h6 =>
    refine .inl ?_
    unfold StationInput.hasIp
    split
    · exact absurd rfl (h1 _)
    · exact absurd rfl (h3 _)
    · exact absurd rfl (h5 _)
    · exact absurd rfl (h6 _ _)
    · rfl

theorem Station.connected_iff (is : List StationInput) :
    (Station.init.run is).status = .connected ↔
      ∃ pre d post, is = pre ++ .event d .staGotIp :: post ∧ ∀ i ∈ post, i.connected = none := by
  have h := connectedRegister_of.read_run (a := true) Station.init is
  rw [show connectedRegister.read Station.init = false from rfl] at h
  have hread : connectedRegister.read (Station.init.run is) = true ↔
      (Station.init.run is).status = .connected := decide_eq_true_iff
  rw [← hread]
  refine h.trans ⟨?_, ?_⟩
  · rintro (⟨pre, i, post, rfl, hi, hpost⟩ | ⟨-, hfalse⟩)
    · obtain ⟨d, rfl⟩ := StationInput.connected_true.mp hi
      exact ⟨pre, d, post, rfl, hpost⟩
    · cases hfalse
  · rintro ⟨pre, d, post, rfl, hpost⟩
    exact .inl ⟨pre, _, post, rfl, rfl, hpost⟩

theorem Station.first_iff (is : List StationInput) :
    (Station.init.run is).firstConnect ↔ ∀ i ∈ is, i.fails = false := by
  have h := firstRegister_of.read_run (a := true) Station.init is
  refine h.trans ⟨?_, fun his => .inr ⟨fun i hi => ?_, rfl⟩⟩
  · rintro (⟨pre, i, post, -, hi, -⟩ | ⟨his, -⟩) i' hi'
    · unfold firstRegister at hi
      dsimp only at hi
      split at hi <;> cases hi
    · have hnone := his i' hi'
      unfold firstRegister at hnone
      dsimp only at hnone
      split at hnone
      · cases hnone
      · next hf => exact Bool.eq_false_iff.mpr hf
  · unfold firstRegister
    dsimp only
    rw [his i hi]
    rfl

theorem not_connect_disconnectCalls : .connect ∉ disconnectCalls d := by
  unfold disconnectCalls
  split <;> simp

/-- `begin()` takes a station whose status is `WL_CONNECTED` for connected. -/
theorem Station.connect_begin :
    .connect ∈ (s.begin d).2 ↔ (d.enableSta ∧ d.config ∧ d.ip) ∧ s.status ≠ .connected := by
  unfold Station.begin
  split_ifs with h1 h2 h3 h4 h5 <;> simp_all

end

/-- **The status of the station.** After any run it is `WL_CONNECTED` when an address has come and
nothing has set the status since, and it is so without an address when an authentication has
expired since. -/
theorem stale_iff (is : List StationInput) :
    ((Station.init.run is).status = .connected ∧ (Station.init.run is).bits .staHasIp = false) ↔
      ∃ pre d post, is = pre ++ .event d .staGotIp :: post ∧ (∀ i ∈ post, i.connected = none) ∧
        ∃ d', .event d' (.staDisconnected .authExpire) ∈ post := by
  -- what the run has left of the address after the last event that brought one
  have hbit : ∀ pre d post, (∀ i ∈ post, StationInput.connected i = none) →
      ((Station.init.run (pre ++ .event d .staGotIp :: post)).bits .staHasIp = true ↔
        ∀ i ∈ post, StationInput.hasIp i = none) := by
    intro pre d post hpost
    rw [Station.run_append]
    have h := hasIpRegister_of.read_run (a := true) ((Station.init.run pre).step (.event d .staGotIp)) post
    refine h.trans ⟨?_, fun hnone => .inr ⟨hnone, rfl⟩⟩
    rintro (⟨p, i, q, rfl, hi, -⟩ | ⟨hnone, -⟩)
    · obtain ⟨d', rfl⟩ := StationInput.hasIp_true.mp hi
      cases hpost (.event d' .staGotIp) (List.mem_append_right p List.mem_cons_self)
    · exact hnone
  rw [Station.connected_iff]
  constructor
  · rintro ⟨⟨pre, d, post, rfl, hpost⟩, hip⟩
    refine ⟨pre, d, post, rfl, hpost, ?_⟩
    by_contra hno
    refine Bool.eq_false_iff.mp hip ((hbit pre d post hpost).mpr fun i hi => ?_)
    rcases StationInput.hasIp_of_connected (hpost i hi) with hnone | ⟨d', rfl⟩
    · exact hnone
    · exact absurd ⟨d', hi⟩ hno
  · rintro ⟨pre, d, post, rfl, hpost, d', hd'⟩
    refine ⟨⟨pre, d, post, rfl, hpost⟩, Bool.eq_false_iff.mpr fun hip => ?_⟩
    cases (hbit pre d post hpost).mp hip _ hd'

/-- **Reconnecting.** After any run, a disconnect has the driver connect again if nobody asked for
it, it is the first such or one to retry, `begin()` finds no fault, and the authentication
has not expired on a station that is connected. -/
theorem reconnects_iff (is : List StationInput) (d : Driver) (reason : Reason) :
    .connect ∈ (eventCallback (Station.init.run is) d (.staDisconnected reason)).2 ↔
      reason ≠ .assocLeave ∧
        ((∀ i ∈ is, i.fails = false) ∨
          ((Station.init.run is).autoReconnect ∧ isReconnectableReason reason.orUnspecified)) ∧
        (d.enableSta ∧ d.config ∧ d.ip) ∧
        ¬ (reason = .authExpire ∧ (Station.init.run is).status = .connected) := by
  have hexp : reason.orUnspecified = .authExpire ↔ reason = .authExpire :=
    Reason.orUnspecified_eq nofun nofun
  have hlose : ((Station.init.run is).lose reason.orUnspecified).status = .connected ↔
      reason = .authExpire ∧ (Station.init.run is).status = .connected := by
    rw [Station.lose_connected, hexp]
  rw [← Station.first_iff]
  show .connect ∈ ((Station.init.run is).disconnected d reason).2 ↔ _
  obtain ⟨h1, h⟩ | ⟨h1, h2, h⟩ | ⟨h1, h2, h3, h4, h⟩ | ⟨h1, h2, h3, h⟩ :=
    (Station.init.run is).disconnected_cases d reason
  · rw [h]
    exact iff_of_false nofun fun hc => hc.1 h1
  · rw [h, List.mem_append, or_iff_right not_connect_disconnectCalls, Station.connect_begin, ne_eq, hlose]
    exact ⟨fun ⟨hd, hs⟩ => ⟨h1, .inl h2, hd, hs⟩, fun ⟨_, _, hd, hs⟩ => ⟨hd, hs⟩⟩
  · rw [h, List.mem_append, or_iff_right not_connect_disconnectCalls, Station.connect_begin, ne_eq, hlose]
    exact ⟨fun ⟨hd, hs⟩ => ⟨h1, .inr ⟨h3, h4⟩, hd, hs⟩, fun ⟨_, _, hd, hs⟩ => ⟨hd, hs⟩⟩
  · refine iff_of_false (fun hc => ?_) fun hc => hc.2.1.elim h2 h3
    rcases h with ⟨-, h⟩ | ⟨-, h⟩ <;> rw [h] at hc <;> cases hc

/-! ## `setup` -/

/-- `while (WiFi.status() != WL_CONNECTED)`: how often it waits, given what happens before each reading;
`none` if it is waiting still. -/
def Station.await (s : Station) : List (List StationInput) → Option Nat
  | [] => none
  | is :: rest =>
    if (s.run is).status ≠ .connected then ((s.run is).await rest).map (· + 1) else some 0

theorem Station.await_isSome (s : Station) (batches : List (List StationInput)) :
    (s.await batches).isSome ↔
      ∃ pre is post, batches = pre ++ is :: post ∧ (s.run (pre.flatten ++ is)).status = .connected := by
  induction batches generalizing s with
  | nil => exact iff_of_false nofun fun ⟨pre, is, post, h, _⟩ => by cases pre <;> cases h
  | cons js rest ih =>
    unfold Station.await
    by_cases hs : (s.run js).status = .connected
    · rw [if_neg (not_not.mpr hs)]
      exact iff_of_true rfl ⟨[], js, rest, rfl, hs⟩
    · rw [if_pos hs, Option.isSome_map, ih]
      constructor
      · rintro ⟨pre, is, post, rfl, h⟩
        refine ⟨js :: pre, is, post, rfl, ?_⟩
        rw [List.flatten_cons, List.append_assoc, Station.run_append]
        exact h
      · rintro ⟨pre, is, post, heq, h⟩
        cases pre with
        | nil =>
          obtain ⟨rfl, rfl⟩ := List.cons.inj heq
          exact absurd h hs
        | cons x pre =>
          obtain ⟨rfl, rfl⟩ := List.cons.inj heq
          rw [List.flatten_cons, List.append_assoc, Station.run_append] at h
          exact ⟨pre, is, post, rfl, h⟩

/-- **The wait of `setup`** ends when at a reading an address has come and nothing has set the status
since, be the address there still or not. -/
theorem setup_ends (batches : List (List StationInput)) :
    (Station.init.await batches).isSome ↔
      ∃ pre is post, batches = pre ++ is :: post ∧
        ∃ before d after, pre.flatten ++ is = before ++ .event d .staGotIp :: after ∧
          ∀ i ∈ after, i.connected = none := by
  rw [Station.await_isSome]
  simp only [Station.connected_iff]

end CryptoLocker
