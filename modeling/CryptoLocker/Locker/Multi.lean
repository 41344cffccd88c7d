import CryptoLocker.Locker.Station
import CryptoLocker.Server.CString
import Mathlib.Data.Int.ConditionallyCompleteOrder
import Mathlib.Data.List.MinMax
import Mathlib.Order.ConditionallyCompleteLattice.Basic

/-!
# Choosing an access point

`WiFiMulti::run` goes through the networks of a scan, and for each through the
access points that were added, from the last on. It begins with the strongest
network whose access point, the last added for its SSID, has a passphrase or
which is open (`multi_begins`). The number of networks is kept in an `int8_t`,
so that of 128 to 255 it looks at none. Logging is left out, and `strdup` does
not fail.
-/

namespace CryptoLocker

/-- `WifiAPlist_t`, as `addAP` fills it. -/
structure AccessPoint where
  ssid : CStr
  passphrase : Option CStr
  ssid_length : 0 < ssid.bytes.length ∧ ssid.bytes.length ≤ 31
  passphrase_length : ∀ p ∈ passphrase, 0 < p.bytes.length ∧ p.bytes.length ≤ 64
  deriving DecidableEq

/-- `addAP`; a NULL is `none`. -/
def addAP (aps : List AccessPoint) (ssid passphrase : Option CStr) : Bool × List AccessPoint :=
  match ssid with
  | none => (false, aps)
  | some ssid =>
    if hs : 0 < ssid.bytes.length ∧ ssid.bytes.length ≤ 31 then
      match passphrase with
      | none => (true, aps ++ [⟨ssid, none, hs, nofun⟩])
      | some p =>
        if hp : p.bytes.length ≤ 64 then
          if hne : 0 < p.bytes.length then
            (true, aps ++ [⟨ssid, some p, hs, fun _ hq => Option.some.inj hq ▸ ⟨hne, hp⟩⟩])
          else (true, aps ++ [⟨ssid, none, hs, nofun⟩])
        else (false, aps)
    else (false, aps)

/-- What `getNetworkInfo` gives of a scanned network. -/
structure Network where
  ssid : CStr
  isOpen : Bool
  rssi : Int8
  bssid : List UInt8
  channel : UInt8
  deriving DecidableEq

def INT_MIN : Int := -2147483648

/-- `bestNetworkDb`, and `bestNetwork` with the network `bestBSSID` and `bestChannel` are of. -/
structure Best where
  db : Int
  chosen : Option (AccessPoint × Network)

/-- The loop over `APlist` from `x` down. -/
def matchLoop (aps : List AccessPoint) (net : Network) : Nat → Best → Best
  | 0, best => best
  | x + 1, best =>
    match aps[x]? with
    | none => best
    | some entry =>
      if net.ssid = entry.ssid then
        if best.db < net.rssi.toInt then
          if net.isOpen ∨ entry.passphrase.isSome then ⟨net.rssi.toInt, some (entry, net)⟩ else best
        else best
      else matchLoop aps net x best

/-- The loop over the networks. -/
def scanLoop (aps : List AccessPoint) (networks : List Network) (best : Best) : Best :=
  networks.foldl (fun best net => matchLoop aps net aps.length best) best

/-- What `scanNetworks` returns. -/
inductive Scan where
  | running
  | failed
  | done (networks : List Network)

/-- `scanResult`, cut to an `int8_t`. -/
def Scan.result : Scan → Int8
  | .running => -1
  | .failed => -2
  | .done networks => Int8.ofNat networks.length

def Scan.networks : Scan → List Network
  | .done networks => networks
  | _ => []

/-- What `run` meets: the status and the SSID it finds, the status after `disconnect`, the scan, the
status after `begin`, and at each test of the wait the time since and the status after the delay. -/
structure MultiEnv where
  status : WlStatus
  ssid : CStr
  afterDisconnect : WlStatus
  scan : Scan
  afterBegin : WlStatus
  waits : List (UInt32 × WlStatus)

inductive MultiCall where
  | disconnect
  | begin (ssid : CStr) (passphrase : Option CStr) (channel : UInt8) (bssid : List UInt8)
  | scanAsync
  deriving DecidableEq

/-- The wait for the connection; `none` is waiting still. -/
def connectLoop (connectTimeout : UInt32) (status : WlStatus) : List (UInt32 × WlStatus) → Option WlStatus
  | [] => if status = .connected ∨ status = .noSsidAvail ∨ status = .connectFailed then some status else none
  | (elapsed, next) :: waits =>
    if status = .connected ∨ status = .noSsidAvail ∨ status = .connectFailed then some status
    else if connectTimeout < elapsed then some status
    else connectLoop connectTimeout next waits

/-- `run`: the status it returns, and its calls. -/
def multiRun (aps : List AccessPoint) (connectTimeout : UInt32) (env : MultiEnv) :
    Option WlStatus × List MultiCall :=
  if env.status = .connected ∧ aps.any (env.ssid = ·.ssid) then (some env.status, [])
  else
    let status := if env.status = .connected then env.afterDisconnect else env.status
    let calls := if env.status = .connected then [MultiCall.disconnect] else []
    if env.scan.result = -1 then (some .noSsidAvail, calls)
    else if 0 ≤ env.scan.result then
      match (scanLoop aps (env.scan.networks.take env.scan.result.toInt.toNat) ⟨INT_MIN, none⟩).chosen with
      | some (entry, net) =>
        (connectLoop connectTimeout env.afterBegin env.waits,
          calls ++ [.begin entry.ssid entry.passphrase net.channel net.bssid])
      | none => (some status, calls)
    else (some status, calls ++ [.disconnect, .scanAsync])

/-- The access point for a network, if it can be begun: the last one added for the SSID. -/
def usable (aps : List AccessPoint) (net : Network) : Option (AccessPoint × Network) :=
  match aps.reverse.find? (net.ssid = ·.ssid) with
  | none => none
  | some entry => if net.isOpen ∨ entry.passphrase.isSome then some (entry, net) else none

/-- The database entry is that of the network chosen, if any. -/
structure Best.Inv (best : Best) : Prop where
  idle : best.chosen = none → best.db = INT_MIN
  held : ∀ c ∈ best.chosen, best.db = c.2.rssi.toInt

section
variable {aps : List AccessPoint} {net : Network} {best : Best} {networks : List Network}

theorem INT_MIN_lt (x : Int8) : INT_MIN < x.toInt := by
  have h := x.le_toInt
  unfold INT_MIN
  omega

/-- Going down from `x` the loop meets the last access point of the first `x` for the SSID. -/
theorem matchLoop_eq (x : Nat) (hx : x ≤ aps.length) :
    matchLoop aps net x best =
      match usable (aps.take x) net with
      | none => best
      | some c => if best.db < net.rssi.toInt then ⟨net.rssi.toInt, some c⟩ else best := by
  induction x with
  | zero => rfl
  | succ x ih =>
    have hlt : x < aps.length := hx
    unfold matchLoop usable
    rw [List.getElem?_eq_getElem hlt, List.take_succ_eq_append_getElem hlt, List.reverse_append,
      List.reverse_singleton, List.singleton_append, List.find?_cons]
    dsimp only
    by_cases hs : net.ssid = aps[x].ssid
    · rw [if_pos hs, decide_eq_true hs]
      dsimp only
      by_cases hu : net.isOpen = true ∨ aps[x].passphrase.isSome = true
      · rw [if_pos hu, if_pos hu]
      · rw [if_neg hu, if_neg hu]
        exact ite_self _
    · rw [if_neg hs, decide_eq_false hs, ih (Nat.le_of_lt hlt)]
      rfl

theorem usable_net {c : AccessPoint × Network} (h : usable aps net = some c) : c.2 = net := by
  unfold usable at h
  split at h
  · cases h
  · split at h
    · cases h
      rfl
    · cases h

/-- One network of the scan. -/
theorem Best.Inv.matched (h : best.Inv) (aps : List AccessPoint) (net : Network) :
    (matchLoop aps net aps.length best).Inv ∧
      (matchLoop aps net aps.length best).chosen =
        match usable aps net with
        | none => best.chosen
        | some c => List.argAux (fun b c => c.2.rssi.toInt < b.2.rssi.toInt) best.chosen c := by
  rw [matchLoop_eq aps.length (Nat.le_refl _), List.take_length]
  cases hu : usable aps net with
  | none => exact ⟨h, rfl⟩
  | some c =>
    have hc := usable_net hu
    dsimp only
    cases hb : best.chosen with
    | none =>
      rw [h.idle hb, if_pos (INT_MIN_lt _)]
      exact ⟨⟨nofun, fun c' hc' => by cases hc'; rw [hc]⟩, rfl⟩
    | some b =>
      rw [h.held b hb, ← hc]
      show Best.Inv (if _ then _ else _) ∧ (if _ then _ else _ : Best).chosen = if _ then _ else _
      by_cases hlt : b.2.rssi.toInt < c.2.rssi.toInt
      · rw [if_pos hlt, if_pos hlt]
        exact ⟨⟨nofun, fun c' hc' => by cases hc'; rfl⟩, rfl⟩
      · rw [if_neg hlt, if_neg hlt]
        exact ⟨h, hb⟩

/-- The scan chooses the strongest network that can be begun, the first of them. -/
theorem Best.Inv.scanned (h : best.Inv) (aps : List AccessPoint) (networks : List Network) :
    (scanLoop aps networks best).chosen =
      (networks.filterMap (usable aps)).foldl (List.argAux fun b c => c.2.rssi.toInt < b.2.rssi.toInt)
        best.chosen := by
  induction networks generalizing best with
  | nil => rfl
  | cons net networks ih =>
    obtain ⟨hinv, hchosen⟩ := h.matched aps net
    refine (ih hinv).trans ?_
    rw [hchosen, List.filterMap_cons]
    cases usable aps net with
    | none => rfl
    | some c => rfl

theorem scanLoop_chosen (aps : List AccessPoint) (networks : List Network) :
    (scanLoop aps networks ⟨INT_MIN, none⟩).chosen =
      (networks.filterMap (usable aps)).argmax (·.2.rssi.toInt) := by
  have hstart : Best.Inv ⟨INT_MIN, none⟩ := ⟨fun _ => rfl, fun _ hc => by cases hc⟩
  exact hstart.scanned aps networks

/-- How many networks the loop is to look at, if it runs at all. -/
theorem Scan.result_done (networks : List Network) :
    (0 ≤ (Scan.done networks).result ↔ networks.length % 256 < 128) ∧
      (networks.length % 256 < 128 → (Scan.done networks).result.toInt.toNat = networks.length % 256) := by
  have hint : (Scan.done networks).result.toInt = (networks.length : Int).bmod 256 := Int8.toInt_ofNat'
  have hmod : (networks.length : Int).bmod 256 =
      if networks.length % 256 < 128 then ((networks.length % 256 : Nat) : Int)
      else ((networks.length % 256 : Nat) : Int) - 256 := by
    unfold Int.bmod
    dsimp only
    split_ifs <;> omega
  rw [Int8.le_iff_toInt_le, hint, hmod]
  have hlt := Nat.mod_lt networks.length (show 0 < 256 by decide)
  split_ifs with h
  · exact ⟨iff_of_true (Int.natCast_nonneg _) h, fun _ => rfl⟩
  · exact ⟨iff_of_false (by show ¬ (0 : Int) ≤ _; omega) h, fun hc => absurd hc h⟩

end

/-- **Choosing.** `run` begins with an access point and a network exactly when the station is not connected
to one of the access points and the network is the strongest of those looked at that can be begun, and
the first of them. Of `n` networks it looks at `n % 256`, or at none if that is 128 or more. -/
theorem multi_begins (aps : List AccessPoint) (connectTimeout : UInt32) (env : MultiEnv) (ssid : CStr)
    (passphrase : Option CStr) (channel : UInt8) (bssid : List UInt8) :
    .begin ssid passphrase channel bssid ∈ (multiRun aps connectTimeout env).2 ↔
      ¬ (env.status = .connected ∧ ∃ ap ∈ aps, env.ssid = ap.ssid) ∧
        env.scan.networks.length % 256 < 128 ∧
        ∃ entry net, ((env.scan.networks.take (env.scan.networks.length % 256)).filterMap
            (usable aps)).argmax (·.2.rssi.toInt) = some (entry, net) ∧
          ssid = entry.ssid ∧ passphrase = entry.passphrase ∧ channel = net.channel ∧ bssid = net.bssid := by
  have hcalls : MultiCall.begin ssid passphrase channel bssid ∉
      if env.status = .connected then [MultiCall.disconnect] else [] := by split <;> simp
  have hany : (aps.any (env.ssid = ·.ssid)) = true ↔ ∃ ap ∈ aps, env.ssid = ap.ssid := by simp
  rw [← hany]
  unfold multiRun
  dsimp only
  generalize (if env.status = .connected then [MultiCall.disconnect] else []) = calls at hcalls ⊢
  generalize (if env.status = .connected then env.afterDisconnect else env.status) = status
  split_ifs with hknown hrun hpos
  · exact iff_of_false nofun fun h => h.1 hknown
  · -- of 255 networks `scanResult` says that the scan is running
    refine iff_of_false hcalls fun ⟨_, hlen, entry, net, hbest, _⟩ => ?_
    cases hscan : env.scan with
    | running | failed => rw [hscan] at hbest; cases hbest
    | done networks =>
      rw [hscan] at hrun hlen
      have hpos := (Scan.result_done networks).1.mpr hlen
      rw [hrun] at hpos
      exact absurd hpos (by decide)
  · cases hscan : env.scan with
    | running | failed => rw [hscan] at hpos; exact absurd hpos (by decide)
    | done networks =>
      rw [hscan] at hpos
      obtain ⟨hiff, hcount⟩ := Scan.result_done networks
      have hlen := hiff.mp hpos
      rw [hcount hlen, scanLoop_chosen]
      dsimp only [Scan.networks]
      generalize ((networks.take (networks.length % 256)).filterMap (usable aps)).argmax
        (fun c => c.2.rssi.toInt) = best
      cases best with
      | none => exact iff_of_false hcalls fun ⟨_, _, _, _, h, _⟩ => nomatch h
      | some c =>
        obtain ⟨entry, net⟩ := c
        dsimp only
        rw [List.mem_append, or_iff_right hcalls, List.mem_singleton, MultiCall.begin.injEq]
        constructor
        · exact fun h => ⟨hknown, hlen, entry, net, rfl, h⟩
        · rintro ⟨-, -, entry', net', heq, h⟩
          cases heq
          exact h
  · refine iff_of_false ?_ fun ⟨_, hlen, entry, net, hbest, _⟩ => ?_
    · rw [List.mem_append, not_or]
      exact ⟨hcalls, by simp⟩
    · cases hscan : env.scan with
      | running | failed => rw [hscan] at hbest; cases hbest
      | done networks =>
        rw [hscan] at hpos hlen
        exact hpos ((Scan.result_done networks).1.mpr hlen)

end CryptoLocker
