import CryptoLocker.Lib.Outputs
import CryptoLocker.Lib.Registers
import CryptoLocker.Locker.Multi

/-!
# Scanning for networks

The scan class keeps two status bits, the time a scan was started, its timeout,
a count and a block of results. Behind them are three phases: no scan, a scan
that runs, and the networks of the last that came to an end
(`scanner_refines`). So a scan that has timed out counts for nothing until it
ends all the same, and no network is read that the last scan did not find.

A sync scan is its start and, when the wait is over, `waited`; what other tasks
do comes in between. Logging and the scan configuration are left out.
-/

namespace CryptoLocker

open Lib

def WIFI_SCAN_RUNNING : Int16 := -1

def WIFI_SCAN_FAILED : Int16 := -2

/-- The statics of `WiFiScanClass`, and the bits `WIFI_SCANNING_BIT` and `WIFI_SCAN_DONE_BIT`. -/
structure Scanner where
  scanning : Bool
  done : Bool
  scanStarted : UInt32
  scanTimeout : UInt32
  scanCount : UInt16
  /-- the networks written to the block, `none` if there is no block -/
  scanResult : Option (List Network)

def Scanner.init : Scanner := ⟨false, false, 0, 10000, 0, none⟩

/-- `scanDelete`. -/
def Scanner.scanDelete (s : Scanner) : Scanner :=
  let s := { s with done := false }
  match s.scanResult with
  | none => s
  | some _ => { s with scanResult := none, scanCount := 0 }

/-- What a call returns. -/
inductive ScanOutput where
  | nothing
  /-- `scanNetworks` has come to `waitStatusBits` -/
  | waits
  | value (n : Int16)
  | info (net : Option Network)
  deriving DecidableEq

/-- What `scanNetworks` notes of a scan that has started. -/
def Scanner.start (s : Scanner) (now : UInt32) : Scanner :=
  let s := { s with scanStarted := now }
  let s := if s.scanStarted = 0 then { s with scanStarted := s.scanStarted + 1 } else s
  { s with done := false, scanning := true }

/-- `scanNetworks`, up to its wait; `ok` and `now` are of `esp_wifi_scan_start` and `millis`. -/
def Scanner.scanNetworks (s : Scanner) (async : Bool) (maxMsPerChan : UInt32) (ok : Bool) (now : UInt32) :
    ScanOutput × Scanner :=
  if s.scanning then (.value WIFI_SCAN_RUNNING, s)
  else
    let s := { s with scanTimeout := maxMsPerChan * 20 }
    let s := s.scanDelete
    if ok then (if async then .value WIFI_SCAN_RUNNING else .waits, s.start now)
    else (.value WIFI_SCAN_FAILED, s)

/-- The end of `scanNetworks`, behind its wait. -/
def Scanner.waited (s : Scanner) : Int16 :=
  if s.done then Int16.ofNat s.scanCount.toNat else WIFI_SCAN_FAILED

/-- `_scanDone`: the driver has found `apNum` networks, and gives of `records` as many as there is room
for; `none` if it fails to. -/
def Scanner.scanDone (s : Scanner) (apNum : UInt16) (records : Option (List Network)) : Scanner :=
  let s := { s with scanCount := apNum }
  let s :=
    if s.scanCount ≠ 0 then
      match records with
      | none => { s with scanResult := some [], scanCount := 0 }
      | some records =>
        let written := records.take s.scanCount.toNat
        { s with scanResult := some written, scanCount := UInt16.ofNat written.length }
    else s
  { s with scanStarted := 0, done := true, scanning := false }

/-- `_getScanInfoByIndex`, as `getNetworkInfo` calls it. -/
def Scanner.getNetworkInfo (s : Scanner) (i : UInt8) : Option Network :=
  match s.scanResult with
  | none => none
  | some block => if s.scanCount.toNat ≤ i.toNat then none else block[i.toNat]?

/-- `scanComplete`. -/
def Scanner.scanComplete (s : Scanner) (now : UInt32) : Int16 × Scanner :=
  if s.scanStarted ≠ 0 ∧ s.scanTimeout < now - s.scanStarted then
    (WIFI_SCAN_FAILED, { s with scanning := false })
  else if s.done then (Int16.ofNat s.scanCount.toNat, s)
  else if s.scanning then (WIFI_SCAN_RUNNING, s)
  else (WIFI_SCAN_FAILED, s)

inductive ScanInput where
  | scanNetworks (async : Bool) (maxMsPerChan : UInt32) (ok : Bool) (now : UInt32)
  | waited
  | scanDone (apNum : UInt16) (records : Option (List Network))
  | getNetworkInfo (i : UInt8)
  | scanComplete (now : UInt32)
  | scanDelete

def Scanner.step (s : Scanner) : ScanInput → ScanOutput × Scanner
  | .scanNetworks async maxMsPerChan ok now => s.scanNetworks async maxMsPerChan ok now
  | .waited => (.value s.waited, s)
  | .scanDone apNum records => (.nothing, s.scanDone apNum records)
  | .getNetworkInfo i => (.info (s.getNetworkInfo i), s)
  | .scanComplete now => ((.value (s.scanComplete now).1), (s.scanComplete now).2)
  | .scanDelete => (.nothing, s.scanDelete)

/-! ## Phases -/

/-- What there is of a scan. -/
inductive Phase where
  | idle
  | running (started timeout : UInt32)
  | found (networks : List Network)

/-- The networks a scan has brought. -/
def Phase.networks : Phase → List Network
  | .found networks => networks
  | _ => []

/-- The networks at the end of a scan. -/
def taken (apNum : UInt16) (records : Option (List Network)) : List Network :=
  (records.getD []).take apNum.toNat

/-- A scan starts only where none runs, ends whenever the driver says so, and is given up by a
`scanComplete` behind its timeout. -/
def Phase.step (p : Phase) : ScanInput → ScanOutput × Phase
  | .scanNetworks async maxMsPerChan ok now =>
    match p with
    | .running _ _ => (.value WIFI_SCAN_RUNNING, p)
    | _ =>
      if ok then
        (if async then .value WIFI_SCAN_RUNNING else .waits,
          .running (if now = 0 then 1 else now) (maxMsPerChan * 20))
      else (.value WIFI_SCAN_FAILED, .idle)
  | .waited =>
    match p with
    | .found networks => (.value (Int16.ofNat networks.length), p)
    | _ => (.value WIFI_SCAN_FAILED, p)
  | .scanDone apNum records => (.nothing, .found (taken apNum records))
  | .getNetworkInfo i => (.info p.networks[i.toNat]?, p)
  | .scanComplete now =>
    match p with
    | .idle => (.value WIFI_SCAN_FAILED, p)
    | .running started timeout =>
      if timeout < now - started then (.value WIFI_SCAN_FAILED, .idle) else (.value WIFI_SCAN_RUNNING, p)
    | .found networks => (.value (Int16.ofNat networks.length), p)
  | .scanDelete =>
    match p with
    | .found _ => (.nothing, .idle)
    | _ => (.nothing, p)

/-- The scanner is in the phase. -/
def Scanner.In (s : Scanner) : Phase → Prop
  | .idle => s.scanning = false ∧ s.done = false ∧ s.scanCount = 0
  | .running started timeout =>
    s.scanning = true ∧ s.done = false ∧ s.scanCount = 0 ∧ started ≠ 0 ∧ s.scanStarted = started ∧
      s.scanTimeout = timeout
  | .found networks =>
    s.scanning = false ∧ s.done = true ∧ s.scanStarted = 0 ∧ s.scanCount.toNat = networks.length ∧
      (networks ≠ [] → s.scanResult = some networks)

section
variable {s : Scanner} {p : Phase}

theorem Scanner.scanDelete_scanning : s.scanDelete.scanning = s.scanning := by
  unfold Scanner.scanDelete
  cases s.scanResult <;> rfl

theorem Scanner.scanDelete_done : s.scanDelete.done = false := by
  unfold Scanner.scanDelete
  cases s.scanResult <;> rfl

theorem Scanner.scanDelete_times :
    s.scanDelete.scanStarted = s.scanStarted ∧ s.scanDelete.scanTimeout = s.scanTimeout := by
  unfold Scanner.scanDelete
  cases s.scanResult <;> exact ⟨rfl, rfl⟩

theorem taken_length (apNum : UInt16) (records : Option (List Network)) :
    (taken apNum records).length < UInt16.size := by
  exact Nat.lt_of_le_of_lt (List.length_take_le _ _) apNum.toNat_lt

/-- Without a block nothing is counted. -/
theorem Scanner.In.count (h : s.In p) (hr : s.scanResult = none) : s.scanCount = 0 := by
  cases p with
  | idle => exact h.2.2
  | running started timeout => exact h.2.2.1
  | found networks =>
    obtain ⟨-, -, -, hcount, hblock⟩ := h
    have hnil : networks = [] := by
      by_contra hne
      cases hr.symm.trans (hblock hne)
    exact UInt16.toNat_inj.mp (by rw [hcount, hnil]; rfl)

theorem Scanner.scanDelete_count (h : s.scanResult = none → s.scanCount = 0) : s.scanDelete.scanCount = 0 := by
  unfold Scanner.scanDelete
  cases hr : s.scanResult with
  | none => exact h hr
  | some block => rfl

/-- What is read is among the networks counted. -/
theorem Scanner.In.getNetworkInfo (h : s.In p) (i : UInt8) : s.getNetworkInfo i = p.networks[i.toNat]? := by
  have hzero : s.scanCount = 0 → s.getNetworkInfo i = none := by
    intro h0
    unfold Scanner.getNetworkInfo
    rw [h0]
    cases s.scanResult with
    | none => rfl
    | some block => exact if_pos (Nat.zero_le _)
  cases p with
  | idle => exact hzero h.2.2
  | running started timeout => exact hzero h.2.2.1
  | found networks =>
    obtain ⟨-, -, -, hcount, hblock⟩ := h
    by_cases hnil : networks = []
    · subst hnil
      exact hzero (UInt16.toNat_inj.mp hcount)
    · unfold Scanner.getNetworkInfo
      rw [hblock hnil, hcount]
      dsimp only [Phase.networks]
      split
      · next hle => exact (List.getElem?_eq_none hle).symm
      · rfl

theorem Scanner.In.scanDone (apNum : UInt16) (records : Option (List Network)) :
    (s.scanDone apNum records).In (.found (taken apNum records)) := by
  have hlen := taken_length apNum records
  unfold Scanner.scanDone
  by_cases h0 : apNum = 0
  · subst h0
    dsimp only
    rw [if_neg (not_not.mpr rfl)]
    exact ⟨rfl, rfl, rfl, rfl, fun hne => absurd rfl hne⟩
  · dsimp only
    rw [if_pos h0]
    cases records with
    | none =>
      have hnil : taken apNum none = [] := List.take_nil
      rw [hnil]
      exact ⟨rfl, rfl, rfl, rfl, fun _ => rfl⟩
    | some records => exact ⟨rfl, rfl, rfl, UInt16.toNat_ofNat_of_lt hlen, fun _ => rfl⟩

theorem Scanner.start_in {now timeout : UInt32} (hcount : s.scanCount = 0) (ht : s.scanTimeout = timeout) :
    (s.start now).In (.running (if now = 0 then 1 else now) timeout) := by
  unfold Scanner.start
  dsimp only
  by_cases h0 : now = 0
  · subst h0
    exact ⟨rfl, rfl, hcount, by decide, rfl, ht⟩
  · rw [if_neg h0, if_neg h0]
    exact ⟨rfl, rfl, hcount, h0, rfl, ht⟩

/-- A scan is started where none runs. -/
theorem Scanner.In.scanNetworks (h : s.In p) (hs : s.scanning = false) (async : Bool) (maxMsPerChan : UInt32)
    (ok : Bool) (now : UInt32) :
    let next := s.scanNetworks async maxMsPerChan ok now
    if ok then
      next.1 = (if async then .value WIFI_SCAN_RUNNING else .waits) ∧
        next.2.In (.running (if now = 0 then 1 else now) (maxMsPerChan * 20))
    else next.1 = .value WIFI_SCAN_FAILED ∧ next.2.In .idle := by
  let d := ({ s with scanTimeout := maxMsPerChan * 20 } : Scanner).scanDelete
  have hgo : s.scanNetworks async maxMsPerChan ok now =
      if ok then (if async then .value WIFI_SCAN_RUNNING else .waits, d.start now)
      else (.value WIFI_SCAN_FAILED, d) := if_neg (by rw [hs]; exact Bool.false_ne_true)
  have hcount : d.scanCount = 0 := Scanner.scanDelete_count h.count
  have hscan : d.scanning = false := Scanner.scanDelete_scanning.trans hs
  rw [hgo]
  cases ok with
  | true => exact ⟨rfl, Scanner.start_in hcount Scanner.scanDelete_times.2⟩
  | false => exact ⟨rfl, hscan, Scanner.scanDelete_done, hcount⟩

/-- A call in a phase does what the phase has it do. -/
theorem Scanner.simulates : Simulates Scanner.In Scanner.step Phase.step := by
  intro s p i h
  cases i with
  | scanNetworks async maxMsPerChan ok now =>
    cases p with
    | idle | found networks =>
      have hnext := Scanner.In.scanNetworks h h.1 async maxMsPerChan ok now
      cases ok with
      | true => exact hnext
      | false => exact hnext
    | running started timeout =>
      have hstay : s.scanNetworks async maxMsPerChan ok now = (.value WIFI_SCAN_RUNNING, s) := if_pos h.1
      exact ⟨congrArg Prod.fst hstay, (congrArg Prod.snd hstay).symm ▸ h⟩
  | waited =>
    refine ⟨?_, by cases p <;> exact h⟩
    show ScanOutput.value s.waited = _
    unfold Scanner.waited
    cases p with
    | idle => rw [h.2.1]; rfl
    | running started timeout => rw [h.2.1]; rfl
    | found networks => rw [h.2.1, h.2.2.2.1]; rfl
  | scanDone apNum records => exact ⟨rfl, .scanDone apNum records⟩
  | getNetworkInfo i => exact ⟨congrArg ScanOutput.info (h.getNetworkInfo i), h⟩
  | scanComplete now =>
    show ScanOutput.value (s.scanComplete now).1 = _ ∧ (s.scanComplete now).2.In _
    unfold Scanner.scanComplete
    cases p with
    | idle =>
      obtain ⟨hscan, hdone, hcount⟩ := h
      have hnd : ¬ s.done = true := ne_true_of_eq_false hdone
      have hns : ¬ s.scanning = true := ne_true_of_eq_false hscan
      by_cases hlate : s.scanStarted ≠ 0 ∧ s.scanTimeout < now - s.scanStarted
      · rw [if_pos hlate]
        exact ⟨rfl, rfl, hdone, hcount⟩
      · rw [if_neg hlate, if_neg hnd, if_neg hns]
        exact ⟨rfl, hscan, hdone, hcount⟩
    | running started timeout =>
      obtain ⟨hscan, hdone, hcount, hne, rfl, rfl⟩ := h
      have hnd : ¬ s.done = true := ne_true_of_eq_false hdone
      dsimp only [Phase.step]
      by_cases hlate : s.scanTimeout < now - s.scanStarted
      · rw [if_pos ⟨hne, hlate⟩, if_pos hlate]
        exact ⟨rfl, rfl, hdone, hcount⟩
      · have hin : ¬ (s.scanStarted ≠ 0 ∧ s.scanTimeout < now - s.scanStarted) := fun hc => hlate hc.2
        rw [if_neg hin, if_neg hnd, if_pos hscan, if_neg hlate]
        exact ⟨rfl, hscan, hdone, hcount, hne, rfl, rfl⟩
    | found networks =>
      obtain ⟨hscan, hdone, hstarted, hcount, hblock⟩ := h
      have hin : ¬ (s.scanStarted ≠ 0 ∧ s.scanTimeout < now - s.scanStarted) := fun hc => hc.1 hstarted
      rw [if_neg hin, if_pos hdone, hcount]
      exact ⟨rfl, hscan, hdone, hstarted, hcount, hblock⟩
  | scanDelete =>
    have hcount : s.scanDelete.scanCount = 0 := Scanner.scanDelete_count h.count
    have hdone : s.scanDelete.done = false := Scanner.scanDelete_done
    have hscan := Scanner.scanDelete_scanning (s := s)
    have htimes := Scanner.scanDelete_times (s := s)
    cases p with
    | idle => exact ⟨rfl, hscan.trans h.1, hdone, hcount⟩
    | running started timeout =>
      obtain ⟨h1, -, -, hne, h2, h3⟩ := h
      exact ⟨rfl, hscan.trans h1, hdone, hcount, hne, htimes.1.trans h2, htimes.2.trans h3⟩
    | found networks => exact ⟨rfl, hscan.trans h.1, hdone, hcount⟩

end

theorem Scanner.init_in : Scanner.init.In .idle := ⟨rfl, rfl, rfl⟩

/-- **Scanning.** Over any calls, events and times, what is returned is what the phases have it be. -/
theorem scanner_refines (is : List ScanInput) :
    outputs Scanner.step .init is = outputs Phase.step .idle is :=
  Scanner.simulates.outputs_eq Scanner.init_in is

/-! ## The networks there are -/

/-- What the networks become, where a call or an event has a say in it. -/
def ScanInput.networks : ScanInput → Option (List Network)
  | .scanNetworks _ _ _ _ | .scanDelete => some []
  | .scanDone apNum records => some (taken apNum records)
  | _ => none

def networksRegister : Register Phase ScanInput (List Network) := ⟨Phase.networks, ScanInput.networks⟩

theorem networksRegister_of : networksRegister.Of fun p i => (p.step i).2 := by
  intro p i
  show (p.step i).2.networks = i.networks.getD p.networks
  cases i with
  | scanNetworks async maxMsPerChan ok now => cases p <;> cases ok <;> rfl
  | waited => cases p <;> rfl
  | scanDone apNum records => rfl
  | getNetworkInfo i => rfl
  | scanComplete now =>
    cases p with
    | running started timeout =>
      dsimp only [Phase.step]
      split <;> rfl
    | idle | found networks => rfl
  | scanDelete => cases p <;> rfl

/-- **Networks.** After any run a network is read at an index exactly when it stands there among those
the last scan to end has found, and since then no scan was asked for and nothing deleted. -/
theorem scanner_networks (is : List ScanInput) (i : UInt8) (net : Network) :
    (final Scanner.step .init is).getNetworkInfo i = some net ↔
      ∃ pre apNum records post, is = pre ++ .scanDone apNum records :: post ∧
        (taken apNum records)[i.toNat]? = some net ∧
        ∀ j ∈ post, j.networks = none := by
  have hin := Scanner.simulates.final Scanner.init_in is
  rw [hin.getNetworkInfo]
  have hread : ∀ l, (final Phase.step .idle is).networks = l ↔ _ :=
    fun l => networksRegister_of.read_run .idle is
  constructor
  · intro hnet
    rcases (hread _).mp rfl with ⟨pre, j, post, heq, hj, hpost⟩ | ⟨-, hl⟩
    · cases j with
      | scanDone apNum records =>
        rw [← Option.some.inj hj] at hnet
        exact ⟨pre, apNum, records, post, heq, hnet, hpost⟩
      | scanNetworks async maxMsPerChan ok now | scanDelete =>
        rw [← Option.some.inj hj] at hnet
        cases hnet
      | waited | getNetworkInfo j | scanComplete now => cases hj
    · rw [← hl] at hnet
      cases hnet
  · rintro ⟨pre, apNum, records, post, heq, hnet, hpost⟩
    rw [(hread (taken apNum records)).mpr (.inl ⟨pre, _, post, heq, rfl, hpost⟩)]
    exact hnet

end CryptoLocker
