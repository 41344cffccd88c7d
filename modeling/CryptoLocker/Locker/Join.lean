import CryptoLocker.Locker.Station
import CryptoLocker.Server.CString

/-!
# Joining a network

`WiFi.begin(ssid, ...)` fills a configuration of fixed fields and gives it to
the driver, unless the driver has it already and the station is connected. Two
configurations are equal exactly when what was asked for is, the channel up to
256 (`staConfig_eq_iff`). So after any calls `begin`, where nothing fails, leaves
the driver alone exactly when the station is connected and asked for what the
driver was told last (`join_idle`).
-/

namespace CryptoLocker

open Lib

/-- `_wifi_strncpy(dst, src, dst_len)`, on a field of `dst_len` bytes. -/
def wifiStrncpy (dst : List UInt8) (src : CStr) : List UInt8 :=
  let srcLen := if dst.length ≤ src.bytes.length then dst.length else src.bytes.length + 1
  (src.bytes ++ [0]).take srcLen ++ dst.drop srcLen

/-- `wifi_auth_mode_t`. -/
inductive AuthMode where
  | openMode
  | wpa2Psk
  | other (mode : Nat)
  deriving DecidableEq

/-- `wifi_scan_method_t`. -/
inductive ScanMethod where
  | fast
  | allChannel
  deriving DecidableEq

/-- `wifi_sort_method_t`. -/
inductive SortMethod where
  | bySignal
  | bySecurity
  deriving DecidableEq

/-- The station's part of `wifi_config_t`. -/
structure StaConfig where
  ssid : List UInt8
  password : List UInt8
  scanMethod : ScanMethod
  bssidSet : Bool
  bssid : Vector UInt8 6
  channel : UInt8
  listenInterval : UInt16
  sortMethod : SortMethod
  rssi : Int8
  authmode : AuthMode
  pmfCapable : Bool
  pmfRequired : Bool
  deriving DecidableEq

/-- `memset(&conf, 0, sizeof(wifi_config_t))`. -/
def StaConfig.zero : StaConfig where
  ssid := List.replicate 32 0
  password := List.replicate 64 0
  scanMethod := .fast
  bssidSet := false
  bssid := Vector.replicate 6 0
  channel := 0
  listenInterval := 0
  sortMethod := .bySignal
  rssi := 0
  authmode := .openMode
  pmfCapable := false
  pmfRequired := false

/-- The arguments of `wifi_sta_config` that are ever passed. -/
structure Wanted where
  ssid : Option CStr := none
  password : Option CStr := none
  bssid : Option (Vector UInt8 6) := none
  channel : UInt8 := 0
  minSecurity : AuthMode := .wpa2Psk
  scanMethod : ScanMethod := .allChannel
  sortMethod : SortMethod := .bySignal

/-- `s != NULL && s[0] != 0`. -/
def given (s : Option CStr) : Option CStr := s.filter (·.bytes ≠ [])

/-- `wifi_sta_config`. -/
def wifiStaConfig (conf : StaConfig) (w : Wanted) : StaConfig :=
  let conf := { conf with
    channel := w.channel
    listenInterval := 0
    scanMethod := w.scanMethod
    sortMethod := w.sortMethod
    rssi := -127
    pmfCapable := true
    pmfRequired := false
    bssidSet := false
    bssid := Vector.replicate 6 0
    authmode := .openMode
    ssid := conf.ssid.set 0 0
    password := conf.password.set 0 0 }
  match given w.ssid with
  | none => conf
  | some ssid =>
    let conf := { conf with ssid := wifiStrncpy conf.ssid ssid }
    let conf := match given w.password with
      | none => conf
      | some password =>
        { conf with authmode := w.minSecurity, password := wifiStrncpy conf.password password }
    match w.bssid with
    | none => conf
    | some bssid => { conf with bssidSet := true, bssid }

/-- The arguments of `begin`, and the settings of the class it passes on. -/
structure JoinArgs where
  ssid : Option CStr
  passphrase : Option CStr
  channel : Int32
  bssid : Option (Vector UInt8 6)
  connect : Bool
  minSecurity : AuthMode
  scanMethod : ScanMethod
  sortMethod : SortMethod
  useStaticIp : Bool

/-- What `begin` asks of `wifi_sta_config`, its channel cut to a byte. -/
def JoinArgs.wanted (a : JoinArgs) : Wanted where
  ssid := a.ssid
  password := a.passphrase
  bssid := a.bssid
  channel := a.channel.toUInt32.toUInt8
  minSecurity := a.minSecurity
  scanMethod := a.scanMethod
  sortMethod := a.sortMethod

/-- How the calls of `begin` come out. -/
structure JoinCalls where
  enableSta : Bool
  getConfig : Bool
  disconnect : Bool
  setConfig : Bool
  ip : Bool
  connect : Bool

/-- What `begin` has the driver do. -/
inductive JoinCall where
  | disconnect
  | setConfig
  | connect
  deriving DecidableEq

/-- `begin` goes on past the checks of its arguments. -/
def JoinArgs.Valid (a : JoinArgs) : Prop :=
  (∃ ssid ∈ given a.ssid, ssid.bytes.length ≤ 32) ∧ ∀ p ∈ a.passphrase, p.bytes.length ≤ 64

instance (a : JoinArgs) : Decidable a.Valid := by
  unfold JoinArgs.Valid
  infer_instance

/-- `begin` from the configuration set: to an address, and to the access point. -/
def joinLink (a : JoinArgs) (status : WlStatus) (d : JoinCalls) : WlStatus × List JoinCall :=
  if ¬ a.useStaticIp ∧ ¬ d.ip then (.connectFailed, [])
  else if a.connect then
    if d.connect then (status, [.connect]) else (.connectFailed, [.connect])
  else (status, [])

/-- `begin(ssid, passphrase, channel, bssid, connect)`: what the driver is left with, what is
returned and what the driver was told. -/
def joinBegin (current : StaConfig) (status : WlStatus) (d : JoinCalls) (a : JoinArgs) :
    StaConfig × WlStatus × List JoinCall :=
  if ¬ d.enableSta then (current, .connectFailed, [])
  else if ¬ a.Valid then (current, .connectFailed, [])
  else
    let conf := wifiStaConfig .zero a.wanted
    if ¬ d.getConfig then (current, .connectFailed, [])
    else if current ≠ conf then
      if ¬ d.disconnect then (current, .connectFailed, [.disconnect])
      else if ¬ d.setConfig then (current, .connectFailed, [.disconnect, .setConfig])
      else
        let (status, calls) := joinLink a status d
        (conf, status, .disconnect :: .setConfig :: calls)
    else if status = .connected then (current, .connected, [])
    else if ¬ d.setConfig then (current, .connectFailed, [.setConfig])
    else
      let (status, calls) := joinLink a status d
      (conf, status, .setConfig :: calls)

/-! ## Configurations -/

section
variable {n : Nat} {s t : CStr}

/-- The field of `n` bytes that `wifi_sta_config` makes of a string. -/
def field (n : Nat) (s : CStr) : List UInt8 := wifiStrncpy ((List.replicate n 0).set 0 0) s

theorem set_zeros (n : Nat) : (List.replicate n (0 : UInt8)).set 0 0 = List.replicate n 0 := by
  cases n <;> rfl

/-- A string that fits is padded. -/
theorem field_eq (hs : s.bytes.length ≤ n) : field n s = s.bytes ++ List.replicate (n - s.bytes.length) 0 := by
  unfold field wifiStrncpy
  dsimp only
  rw [set_zeros, List.length_replicate, List.drop_replicate]
  split
  · next hn =>
    have heq : s.bytes.length = n := Nat.le_antisymm hs hn
    rw [Nat.sub_self, List.take_append_of_le_length hn, ← heq, List.take_length, Nat.sub_self]
  · next hn =>
    have hlt : s.bytes.length < n := Nat.not_le.mp hn
    have hall : (s.bytes ++ [0]).length ≤ s.bytes.length + 1 := Nat.le_of_eq List.length_append
    rw [List.take_of_length_le hall, List.append_assoc,
      show n - s.bytes.length = (n - (s.bytes.length + 1)) + 1 by omega]
    rfl

theorem cstr_zeros (n : Nat) : cstr (List.replicate n 0) = CStr.empty := by
  cases n <;> rfl

/-- The string is in the field. -/
theorem cstr_field (hs : s.bytes.length ≤ n) : cstr (field n s) = s := by
  rw [field_eq hs]
  apply CStr.ext
  have hall : ∀ b ∈ s.bytes, decide (b ≠ 0) = true := fun b hb =>
    decide_eq_true fun h0 => s.nulFree (h0 ▸ hb)
  rw [bytes_cstr, List.takeWhile_append_of_pos hall, ← bytes_cstr, cstr_zeros]
  exact List.append_nil _

theorem field_inj (hs : s.bytes.length ≤ n) (ht : t.bytes.length ≤ n) : field n s = field n t ↔ s = t := by
  refine ⟨fun h => ?_, fun h => h ▸ rfl⟩
  rw [← cstr_field hs, ← cstr_field ht, h]

theorem given_eq_some {s : Option CStr} : given s = some t ↔ s = some t ∧ t.bytes ≠ [] := by
  simp [given, Option.filter_eq_some_iff]

end

/-- The field a passphrase leaves, if there is one. -/
def passField (p : Option CStr) : List UInt8 :=
  match given p with
  | none => List.replicate 64 0
  | some p => field 64 p

theorem passField_inj {p q : Option CStr} (hp : ∀ s ∈ p, s.bytes.length ≤ 64)
    (hq : ∀ s ∈ q, s.bytes.length ≤ 64) : passField p = passField q ↔ given p = given q := by
  -- the field says whether there is a passphrase, and which
  have hread : ∀ {p : Option CStr}, (∀ s ∈ p, s.bytes.length ≤ 64) →
      given p = given (some (cstr (passField p))) := by
    intro p hp
    unfold passField
    cases hg : given p with
    | none =>
      dsimp only
      rw [cstr_zeros]
      rfl
    | some s =>
      obtain ⟨hs, hne⟩ := given_eq_some.mp hg
      dsimp only
      rw [cstr_field (hp s hs)]
      exact (given_eq_some.mpr ⟨rfl, hne⟩).symm
  refine ⟨fun h => ?_, fun h => ?_⟩
  · rw [hread hp, hread hq, h]
  · unfold passField
    rw [h]

/-- What two calls of `begin` have in common that ask for the same. -/
structure JoinArgs.Same (a b : JoinArgs) : Prop where
  ssid : a.ssid = b.ssid
  passphrase : given a.passphrase = given b.passphrase
  bssid : a.bssid = b.bssid
  channel : a.channel.toUInt32.toUInt8 = b.channel.toUInt32.toUInt8
  scanMethod : a.scanMethod = b.scanMethod
  sortMethod : a.sortMethod = b.sortMethod
  minSecurity : (given a.passphrase).isSome → a.minSecurity = b.minSecurity

/-- The configuration of a valid call. -/
theorem JoinArgs.conf_eq {a : JoinArgs} {ssid : CStr} (hs : given a.ssid = some ssid) :
    wifiStaConfig .zero a.wanted =
      { ssid := field 32 ssid
        password := passField a.passphrase
        scanMethod := a.scanMethod
        bssidSet := a.bssid.isSome
        bssid := a.bssid.getD (Vector.replicate 6 0)
        channel := a.channel.toUInt32.toUInt8
        listenInterval := 0
        sortMethod := a.sortMethod
        rssi := -127
        authmode := if (given a.passphrase).isSome then a.minSecurity else .openMode
        pmfCapable := true
        pmfRequired := false } := by
  unfold wifiStaConfig JoinArgs.wanted passField
  dsimp only
  rw [hs]
  cases given a.passphrase <;> cases a.bssid <;> rfl

theorem staConfig_eq_iff {a b : JoinArgs} (ha : a.Valid) (hb : b.Valid) :
    wifiStaConfig .zero a.wanted = wifiStaConfig .zero b.wanted ↔ a.Same b := by
  obtain ⟨⟨s, hs, hslen⟩, hap⟩ := ha
  obtain ⟨⟨t, ht, htlen⟩, hbp⟩ := hb
  rw [JoinArgs.conf_eq hs, JoinArgs.conf_eq ht, StaConfig.mk.injEq]
  obtain ⟨hsa, -⟩ := given_eq_some.mp hs
  obtain ⟨htb, -⟩ := given_eq_some.mp ht
  constructor
  · rintro ⟨hssid, hpass, hscan, hset, hbssid, hchan, -, hsort, -, hauth, -, -⟩
    have hgiven := (passField_inj hap hbp).mp hpass
    refine ⟨?_, hgiven, ?_, hchan, hscan, hsort, fun hsome => ?_⟩
    · rw [hsa, htb, (field_inj hslen htlen).mp hssid]
    · cases ha : a.bssid <;> cases hb : b.bssid <;> simp_all
    · rwa [← hgiven, if_pos hsome, if_pos hsome] at hauth
  · rintro ⟨hssid, hpass, hbssid, hchan, hscan, hsort, hauth⟩
    obtain rfl : s = t := Option.some.inj (hsa.symm.trans (hssid.trans htb))
    refine ⟨rfl, (passField_inj hap hbp).mpr hpass, hscan, by rw [hbssid], by rw [hbssid], hchan, rfl, hsort,
      rfl, ?_, rfl, rfl⟩
    rw [← hpass]
    split
    · next hsome => exact hauth hsome
    · rfl

/-! ## Runs -/

/-- What happens to a station that joins: events, calls of `begin`, and calls of `disconnect` that
erase the configuration, with what they find on the stack. -/
inductive JoinInput where
  | station (i : StationInput)
  | join (d : JoinCalls) (a : JoinArgs)
  | erase (staMode : Bool) (setConfig : Bool) (stack : StaConfig)

structure Joining where
  station : Station
  current : StaConfig

def Joining.step (s : Joining) : JoinInput → Joining
  | .station i => { s with station := s.station.step i }
  | .join d a => { s with current := (joinBegin s.current s.station.status d a).1 }
  | .erase staMode setConfig stack =>
    if staMode ∧ setConfig then { s with current := wifiStaConfig stack {} } else s

def Joining.run (s : Joining) (is : List JoinInput) : Joining := is.foldl Joining.step s

/-- `begin` has the driver take its configuration. -/
def JoinCalls.Takes (d : JoinCalls) (a : JoinArgs) : Prop :=
  d.enableSta ∧ a.Valid ∧ d.getConfig ∧ d.disconnect ∧ d.setConfig

instance (d : JoinCalls) (a : JoinArgs) : Decidable (d.Takes a) := by
  unfold JoinCalls.Takes
  infer_instance

/-- What the driver is given, if anything. -/
def JoinInput.conf : JoinInput → Option StaConfig
  | .station _ => none
  | .join d a => if d.Takes a then some (wifiStaConfig .zero a.wanted) else none
  | .erase staMode setConfig stack => if staMode ∧ setConfig then some (wifiStaConfig stack {}) else none

def JoinInput.event : JoinInput → Option StationInput
  | .station i => some i
  | _ => none

def confRegister : Register Joining JoinInput StaConfig := ⟨Joining.current, JoinInput.conf⟩

section
variable {s : Joining} {current : StaConfig} {status : WlStatus} {d : JoinCalls} {a : JoinArgs}

/-- The configuration `begin` leaves does not depend on the status. -/
theorem joinBegin_conf :
    (joinBegin current status d a).1 =
      if d.Takes a then wifiStaConfig .zero a.wanted else current := by
  unfold joinBegin JoinCalls.Takes
  by_cases heq : current = wifiStaConfig .zero a.wanted
  · subst heq
    split_ifs <;> simp_all
  · split_ifs <;> simp_all

theorem confRegister_of : confRegister.Of Joining.step := by
  rintro s (i | ⟨d, a⟩ | ⟨staMode, setConfig, stack⟩)
  · rfl
  · show (joinBegin s.current s.station.status d a).1 = (JoinInput.conf (.join d a)).getD s.current
    rw [joinBegin_conf, JoinInput.conf]
    split <;> rfl
  · show (Joining.step s (.erase staMode setConfig stack)).current =
      (JoinInput.conf (.erase staMode setConfig stack)).getD s.current
    unfold Joining.step JoinInput.conf
    dsimp only
    split <;> rfl

/-- The station runs as its events have it. -/
theorem Joining.run_station (s : Joining) (is : List JoinInput) :
    (s.run is).station = s.station.run (is.filterMap JoinInput.event) := by
  induction is generalizing s with
  | nil => rfl
  | cons i is ih =>
    refine (ih (s.step i)).trans ?_
    cases i with
    | station j => rfl
    | join d a => rfl
    | erase staMode setConfig stack =>
      have hkeep : (s.step (.erase staMode setConfig stack)).station = s.station := by
        unfold Joining.step
        dsimp only
        split <;> rfl
      rw [hkeep]
      rfl

/-- What `begin` does when it asks nothing of the driver and takes the station for connected. -/
theorem joinBegin_idle :
    (joinBegin current status d a).2 = (.connected, []) ↔
      (d.enableSta ∧ a.Valid ∧ d.getConfig) ∧ status = .connected ∧
        current = wifiStaConfig .zero a.wanted := by
  unfold joinBegin
  by_cases heq : current = wifiStaConfig .zero a.wanted
  · split_ifs <;> simp_all
  · split_ifs <;> simp_all

/-- An erased configuration is no call's. -/
theorem erased_ne {stack : StaConfig} (ha : a.Valid) : wifiStaConfig stack {} ≠ wifiStaConfig .zero a.wanted := by
  obtain ⟨⟨ssid, hs, hlen⟩, -⟩ := ha
  rw [JoinArgs.conf_eq hs]
  intro h
  have hfield : stack.ssid.set 0 0 = field 32 ssid := congrArg StaConfig.ssid h
  have hcstr : cstr (stack.ssid.set 0 0) = CStr.empty := by cases stack.ssid <;> rfl
  rw [hfield, cstr_field hlen] at hcstr
  exact (given_eq_some.mp hs).2 (congrArg CStr.bytes hcstr)

end

/-- **Joining again.** After any run, `begin` leaves the driver alone and returns `WL_CONNECTED`
exactly when its arguments pass, `enableSTA` and `esp_wifi_get_config` succeed, the station is
connected, and the last the driver was given came from a call that asked for the same, or nothing
was given and it had that configuration from the start. -/
theorem join_idle (current : StaConfig) (is : List JoinInput) (d : JoinCalls) (a : JoinArgs) :
    let s := Joining.run ⟨.init, current⟩ is
    (joinBegin s.current s.station.status d a).2 = (.connected, []) ↔
      (d.enableSta ∧ a.Valid ∧ d.getConfig) ∧
        (Station.init.run (is.filterMap JoinInput.event)).status = .connected ∧
        ((∃ pre d' b post, is = pre ++ .join d' b :: post ∧ d'.Takes b ∧ b.Same a ∧
            ∀ i ∈ post, i.conf = none) ∨
          ((∀ i ∈ is, i.conf = none) ∧ current = wifiStaConfig .zero a.wanted)) := by
  intro s
  rw [joinBegin_idle, Joining.run_station]
  refine and_congr_right fun ⟨_, ha, _⟩ => and_congr_right fun _ => ?_
  have h := confRegister_of.read_run (a := wifiStaConfig .zero a.wanted) ⟨.init, current⟩ is
  refine h.trans (or_congr ?_ Iff.rfl)
  constructor
  · rintro ⟨pre, i, post, heq, hi, hpost⟩
    cases i with
    | station i => cases hi
    | join d' b =>
      obtain ⟨htakes, hconf⟩ := Option.ite_none_right_eq_some.mp hi
      have hb : b.Valid := htakes.2.1
      exact ⟨pre, d', b, post, heq, htakes, (staConfig_eq_iff hb ha).mp (Option.some.inj hconf), hpost⟩
    | erase staMode setConfig stack =>
      obtain ⟨-, hconf⟩ := Option.ite_none_right_eq_some.mp hi
      exact absurd (Option.some.inj hconf) (erased_ne ha)
  · rintro ⟨pre, d', b, post, heq, htakes, hsame, hpost⟩
    refine ⟨pre, .join d' b, post, heq, ?_, hpost⟩
    have hconf : wifiStaConfig .zero b.wanted = wifiStaConfig .zero a.wanted :=
      (staConfig_eq_iff htakes.2.1 ha).mpr hsame
    show (if d'.Takes b then some (wifiStaConfig .zero b.wanted) else none) = _
    rw [if_pos htakes, hconf]

end CryptoLocker
