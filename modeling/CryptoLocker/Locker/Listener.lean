import CryptoLocker.Lib.Outputs
import Mathlib.Data.UInt

/-!
# The listening socket

`WiFiServer::hasClient` accepts a connection and keeps it for the next
`available`. Every connection that has come is handed out, given up, kept or
waiting, each once and in order (`connections_kept`). What `hasClient` says is
true of the next `available` exactly while the server listens
(`hasClient_kept`): `end` leaves a kept connection behind. Connections are
what `lwip_accept` gives of them.
-/

namespace CryptoLocker

open Lib

section
variable {κ : Type*}

/-- The server, and what the network has for it: the connections that wait on the socket, and all that
have come. -/
structure WiFiServer (κ : Type*) where
  sockfd : Option Nat
  acceptedSockfd : Option κ
  port : UInt16
  maxClients : UInt8
  listening : Bool
  noDelay : Bool
  backlog : List κ
  arrived : List κ

/-- `WiFiServer(port, max_clients)`. -/
def WiFiServer.new (port : UInt16) (maxClients : UInt8) : WiFiServer κ where
  sockfd := none
  acceptedSockfd := none
  port := port
  maxClients := maxClients
  listening := false
  noDelay := false
  backlog := []
  arrived := []

/-- What becomes of a connection. -/
inductive ConnFate (κ : Type*) where
  /-- `available` returns a client for it -/
  | client (c : κ)
  /-- a `setsockopt` of `available` fails -/
  | dropped (c : κ)
  /-- it is kept for `available` when the server stops -/
  | stranded (c : κ)
  /-- it waits on a socket that is closed -/
  | reset (c : κ)

def ConnFate.conn : ConnFate κ → κ
  | .client c | .dropped c | .stranded c | .reset c => c

/-- `lwip_accept`, on a socket that does not block. -/
def WiFiServer.accept (s : WiFiServer κ) : Option κ × WiFiServer κ :=
  match s.sockfd, s.backlog with
  | some _, c :: backlog => (some c, { s with backlog })
  | _, _ => (none, s)

/-- How the calls of `begin` come out. -/
structure BeginCalls where
  socket : Option Nat
  bind : Bool
  listen : Bool

/-- `begin(port, enable)`. -/
def WiFiServer.begin (s : WiFiServer κ) (port : UInt16) (d : BeginCalls) : WiFiServer κ :=
  if s.listening then s
  else
    let s := if port ≠ 0 then { s with port } else s
    let s := { s with sockfd := d.socket }
    if s.sockfd = none then s
    else if ¬ d.bind then s
    else if ¬ d.listen then s
    else { s with listening := true, noDelay := false, acceptedSockfd := none }

/-- `hasClient`. -/
def WiFiServer.hasClient (s : WiFiServer κ) : Bool × WiFiServer κ :=
  if s.acceptedSockfd.isSome then (true, s)
  else
    let (accepted, s) := s.accept
    (accepted.isSome, { s with acceptedSockfd := accepted })

/-- `available`, with how its two `setsockopt` come out. -/
def WiFiServer.available (s : WiFiServer κ) (keepAlive noDelay : Bool) : List (ConnFate κ) × WiFiServer κ :=
  if ¬ s.listening then ([], s)
  else
    let (clientSock, s) :=
      match s.acceptedSockfd with
      | some c => (some c, { s with acceptedSockfd := none })
      | none => s.accept
    match clientSock with
    | none => ([], s)
    | some c => if keepAlive then if noDelay then ([.client c], s) else ([.dropped c], s) else ([.dropped c], s)

/-- `end`. -/
def WiFiServer.close (s : WiFiServer κ) : WiFiServer κ :=
  { s with sockfd := none, listening := false, backlog := [] }

/-- What becomes of the connections of a server that stops. -/
def WiFiServer.closed (s : WiFiServer κ) : List (ConnFate κ) :=
  if s.listening then s.acceptedSockfd.toList.map .stranded ++ s.backlog.map .reset else []

/-- A connection comes in, if the server listens and there is room for it. -/
def WiFiServer.arrive (s : WiFiServer κ) (c : κ) : WiFiServer κ :=
  if s.listening ∧ s.backlog.length < s.maxClients.toNat then
    { s with backlog := s.backlog ++ [c], arrived := s.arrived ++ [c] }
  else s

inductive ServerInput (κ : Type*) where
  | begin (port : UInt16) (d : BeginCalls)
  | setNoDelay (on : Bool)
  | hasClient
  | available (keepAlive noDelay : Bool)
  | close
  | arrive (c : κ)

def WiFiServer.step (s : WiFiServer κ) : ServerInput κ → List (ConnFate κ) × WiFiServer κ
  | .begin port d => ([], s.begin port d)
  | .setNoDelay on => ([], { s with noDelay := on })
  | .hasClient => ([], s.hasClient.2)
  | .available keepAlive noDelay => s.available keepAlive noDelay
  | .close => (s.closed, s.close)
  | .arrive c => ([], s.arrive c)

/-! ## Connections -/

/-- Connections wait only where the server listens, and it listens on a socket. -/
structure WiFiServer.Inv (s : WiFiServer κ) : Prop where
  waits : s.listening = false → s.backlog = []
  socket : s.listening = true → s.sockfd.isSome

/-- The connections a server that listens may still hand out. -/
def WiFiServer.live (s : WiFiServer κ) : List κ :=
  if s.listening then s.acceptedSockfd.toList ++ s.backlog else []

/-- The server as a conduit of connections. -/
def serverConduit : Conduit (WiFiServer κ) κ where
  fed := WiFiServer.arrived
  Holds s l := l = s.live

variable {s : WiFiServer κ}

theorem serverConduit_passes {s' : WiFiServer κ} {out : List κ} (harr : s'.arrived = s.arrived)
    (hlive : s.live = out ++ s'.live) : serverConduit.Passes s out s' := by
  rintro l rfl
  refine ⟨[], s'.live, ?_, rfl, ?_⟩
  · exact harr.trans (List.append_nil _).symm
  · rw [hlive, List.append_nil]

theorem WiFiServer.live_pos (hl : s.listening = true) : s.live = s.acceptedSockfd.toList ++ s.backlog :=
  if_pos hl

theorem WiFiServer.live_neg (hl : s.listening = false) : s.live = [] :=
  if_neg (ne_true_of_eq_false hl)

theorem WiFiServer.Inv.quiet (h : s.Inv) (hl : s.listening = false) : s.accept = (none, s) := by
  unfold WiFiServer.accept
  rw [h.waits hl]
  cases s.sockfd <;> rfl

/-- A server that listens accepts what waits. -/
theorem WiFiServer.Inv.accept (h : s.Inv) (hl : s.listening = true) :
    (s.backlog = [] ∧ s.accept = (none, s)) ∨
      ∃ c rest, s.backlog = c :: rest ∧ s.accept = (some c, { s with backlog := rest }) := by
  obtain ⟨fd, hfd⟩ := Option.isSome_iff_exists.mp (h.socket hl)
  unfold WiFiServer.accept
  rw [hfd]
  cases s.backlog with
  | nil => exact .inl ⟨rfl, rfl⟩
  | cons c rest => exact .inr ⟨c, rest, rfl, rfl⟩

/-- `begin` does nothing to a server that listens, and leaves one that has nothing to hand out. -/
theorem WiFiServer.begin_cases (s : WiFiServer κ) (port : UInt16) (d : BeginCalls) :
    (s.listening = true ∧ s.begin port d = s) ∨
      (s.listening = false ∧ (s.begin port d).arrived = s.arrived ∧ (s.begin port d).backlog = s.backlog ∧
        ((s.begin port d).listening = true →
          (s.begin port d).sockfd.isSome ∧ (s.begin port d).acceptedSockfd = none)) := by
  by_cases hl : s.listening = true
  · exact .inl ⟨hl, if_pos hl⟩
  · have hfalse : s.listening = false := Bool.eq_false_of_not_eq_true hl
    refine .inr ⟨hfalse, ?_⟩
    unfold WiFiServer.begin
    rw [if_neg hl]
    dsimp only
    have hport : ∀ t : WiFiServer κ, t = (if port ≠ 0 then { s with port } else s) →
        t.arrived = s.arrived ∧ t.backlog = s.backlog ∧ t.listening = false := by
      rintro t rfl
      split <;> exact ⟨rfl, rfl, hfalse⟩
    generalize (if port ≠ 0 then { s with port } else s) = t at hport
    obtain ⟨harr, hback, hlis⟩ := hport t rfl
    have hoff : t.listening = true → False := fun hon => Bool.true_eq_false.mp (hon.symm.trans hlis)
    split
    · exact ⟨harr, hback, fun hon => (hoff hon).elim⟩
    split
    · exact ⟨harr, hback, fun hon => (hoff hon).elim⟩
    split
    · exact ⟨harr, hback, fun hon => (hoff hon).elim⟩
    · next hsock _ _ => exact ⟨harr, hback, fun _ => ⟨Option.isSome_iff_ne_none.mpr hsock, rfl⟩⟩

theorem WiFiServer.Inv.begin (h : s.Inv) (port : UInt16) (d : BeginCalls) :
    (s.begin port d).Inv ∧ serverConduit.Passes s [] (s.begin port d) := by
  obtain ⟨-, heq⟩ | ⟨hl, harr, hback, hnew⟩ := s.begin_cases port d
  · rw [heq]
    exact ⟨h, .refl s⟩
  · have hnil : (s.begin port d).backlog = [] := hback.trans (h.waits hl)
    refine ⟨⟨fun _ => hnil, fun hon => (hnew hon).1⟩, serverConduit_passes harr ?_⟩
    rw [WiFiServer.live_neg hl]
    unfold WiFiServer.live
    split
    · next hon => rw [(hnew hon).2, hnil]; rfl
    · rfl

/-- `hasClient` finds the connection kept, keeps the first that waits, or there is none. -/
theorem WiFiServer.Inv.hasClient_cases (h : s.Inv) :
    (s.acceptedSockfd.isSome ∧ s.hasClient = (true, s)) ∨
      (s.acceptedSockfd = none ∧ s.live = [] ∧ s.hasClient = (false, s)) ∨
      ∃ c rest, s.listening = true ∧ s.acceptedSockfd = none ∧ s.backlog = c :: rest ∧
        s.hasClient = (true, { s with acceptedSockfd := some c, backlog := rest }) := by
  unfold WiFiServer.hasClient
  rcases Option.eq_none_or_eq_some s.acceptedSockfd with ha | ⟨c, ha⟩
  · have hsame : { s with acceptedSockfd := none } = s := by
      cases s
      cases ha
      rfl
    have hnot : ¬ s.acceptedSockfd.isSome = true := by simp [ha]
    refine .inr ?_
    rw [if_neg hnot]
    by_cases hl : s.listening = true
    · obtain ⟨hback, heq⟩ | ⟨c, rest, hback, heq⟩ := h.accept hl
      · rw [heq]
        refine .inl ⟨ha, ?_, congrArg (Prod.mk false) hsame⟩
        rw [WiFiServer.live_pos hl, ha, hback]
        rfl
      · rw [heq]
        exact .inr ⟨c, rest, hl, ha, hback, rfl⟩
    · have hoff := Bool.eq_false_of_not_eq_true hl
      rw [h.quiet hoff]
      exact .inl ⟨ha, WiFiServer.live_neg hoff, congrArg (Prod.mk false) hsame⟩
  · have hsome : s.acceptedSockfd.isSome = true := by simp [ha]
    exact .inl ⟨hsome, if_pos hsome⟩

theorem WiFiServer.Inv.hasClient (h : s.Inv) :
    s.hasClient.2.Inv ∧ serverConduit.Passes s [] s.hasClient.2 := by
  obtain ⟨-, heq⟩ | ⟨-, -, heq⟩ | ⟨c, rest, hl, ha, hback, heq⟩ := h.hasClient_cases
  · rw [heq]
    exact ⟨h, .refl s⟩
  · rw [heq]
    exact ⟨h, .refl s⟩
  · have hlive : ({ s with acceptedSockfd := some c, backlog := rest } : WiFiServer κ).live = c :: rest :=
      WiFiServer.live_pos (s := { s with acceptedSockfd := some c, backlog := rest }) hl
    rw [heq]
    refine ⟨⟨fun hoff => absurd (hoff.symm.trans hl) Bool.false_ne_true, h.socket⟩, serverConduit_passes rfl ?_⟩
    rw [hlive, WiFiServer.live_pos hl, ha, hback]
    rfl

/-- The first connection that is left is the one `available` takes. -/
theorem WiFiServer.Inv.available_cases (h : s.Inv) (keepAlive noDelay : Bool) :
    (s.live = [] ∧ (s.available keepAlive noDelay).1 = [] ∧ (s.available keepAlive noDelay).2 = s) ∨
      ∃ c, s.live = c :: (s.available keepAlive noDelay).2.live ∧
        (s.available keepAlive noDelay).1 = [if keepAlive ∧ noDelay then .client c else .dropped c] ∧
        (s.available keepAlive noDelay).2.arrived = s.arrived ∧
        (s.available keepAlive noDelay).2.listening = s.listening ∧
        (s.available keepAlive noDelay).2.sockfd = s.sockfd := by
  unfold WiFiServer.available
  by_cases hl : s.listening = true
  · rw [if_neg (not_not.mpr hl)]
    have hgive : ∀ (c : κ) (t : WiFiServer κ), s.live = c :: t.live → t.arrived = s.arrived →
        t.listening = s.listening → t.sockfd = s.sockfd →
        let got := if keepAlive then if noDelay then ([.client c], t) else ([.dropped c], t)
          else ([ConnFate.dropped c], t)
        ∃ c, s.live = c :: got.2.live ∧ got.1 = [if keepAlive ∧ noDelay then .client c else .dropped c] ∧
          got.2.arrived = s.arrived ∧ got.2.listening = s.listening ∧ got.2.sockfd = s.sockfd := by
      intro c t hlive harr hlis hsock
      refine ⟨c, ?_⟩
      cases keepAlive <;> cases noDelay <;> exact ⟨hlive, rfl, harr, hlis, hsock⟩
    rcases Option.eq_none_or_eq_some s.acceptedSockfd with ha | ⟨c, ha⟩
    · rw [ha]
      obtain ⟨hback, heq⟩ | ⟨c, rest, hback, heq⟩ := h.accept hl
      · refine .inl ?_
        dsimp only
        rw [heq, WiFiServer.live_pos hl, ha, hback]
        exact ⟨rfl, rfl, rfl⟩
      · have hrest : ({ s with backlog := rest } : WiFiServer κ).live = s.acceptedSockfd.toList ++ rest :=
          WiFiServer.live_pos (s := { s with backlog := rest }) hl
        dsimp only
        rw [heq]
        refine .inr (hgive c { s with backlog := rest } ?_ rfl rfl rfl)
        rw [hrest, WiFiServer.live_pos hl, ha, hback]
        rfl
    · have hrest : ({ s with acceptedSockfd := none } : WiFiServer κ).live = s.backlog :=
        WiFiServer.live_pos (s := { s with acceptedSockfd := none }) hl
      rw [ha]
      refine .inr (hgive c { s with acceptedSockfd := none } ?_ rfl rfl rfl)
      rw [hrest, WiFiServer.live_pos hl, ha]
      rfl
  · rw [if_pos hl]
    exact .inl ⟨WiFiServer.live_neg (Bool.eq_false_of_not_eq_true hl), rfl, rfl⟩

theorem WiFiServer.Inv.available (h : s.Inv) (keepAlive noDelay : Bool) :
    (s.available keepAlive noDelay).2.Inv ∧
      serverConduit.Passes s ((s.available keepAlive noDelay).1.map ConnFate.conn)
        (s.available keepAlive noDelay).2 := by
  obtain ⟨-, hout, heq⟩ | ⟨c, hlive, hout, harr, hlis, hsock⟩ := h.available_cases keepAlive noDelay
  · rw [hout, heq]
    exact ⟨h, .refl s⟩
  · have hon : s.listening = true := by
      by_contra hoff
      cases (WiFiServer.live_neg (Bool.eq_false_of_not_eq_true hoff)).symm.trans hlive
    refine ⟨⟨fun hoff => absurd (hoff.symm.trans (hlis.trans hon)) Bool.false_ne_true, fun _ => hsock ▸ h.socket hon⟩,
      serverConduit_passes harr ?_⟩
    rw [hout, hlive]
    split <;> rfl

theorem WiFiServer.Inv.close : s.close.Inv ∧ serverConduit.Passes s (s.closed.map ConnFate.conn) s.close := by
  refine ⟨⟨fun _ => rfl, nofun⟩, serverConduit_passes rfl ?_⟩
  have hnil : s.close.live = [] := WiFiServer.live_neg rfl
  rw [hnil, List.append_nil]
  unfold WiFiServer.closed WiFiServer.live
  split
  · simp [List.map_append, Function.comp_def, ConnFate.conn]
  · rfl

theorem WiFiServer.Inv.arrive (h : s.Inv) (c : κ) :
    (s.arrive c).Inv ∧ serverConduit.Passes s [] (s.arrive c) := by
  unfold WiFiServer.arrive
  split
  · next hroom =>
    refine ⟨⟨fun hoff => absurd (hoff.symm.trans hroom.1) Bool.false_ne_true, h.socket⟩, ?_⟩
    rintro l rfl
    refine ⟨[c], _, rfl, rfl, ?_⟩
    have hlive := WiFiServer.live_pos
      (s := { s with backlog := s.backlog ++ [c], arrived := s.arrived ++ [c] }) hroom.1
    rw [hlive, WiFiServer.live_pos hroom.1, List.append_assoc]
    rfl
  · exact ⟨h, .refl s⟩

/-- The steps, with the connections they put out. -/
def WiFiServer.pass (s : WiFiServer κ) (i : ServerInput κ) : Except Empty (List κ × WiFiServer κ) :=
  .ok ((s.step i).1.map ConnFate.conn, (s.step i).2)

theorem serverConduit_steady : (serverConduit (κ := κ)).Steady WiFiServer.pass WiFiServer.Inv where
  step s i h := by
    cases i with
    | begin port d => exact ⟨_, _, rfl, h.begin port d⟩
    | setNoDelay on => exact ⟨_, _, rfl, ⟨h.waits, h.socket⟩, serverConduit_passes rfl rfl⟩
    | hasClient => exact ⟨_, _, rfl, h.hasClient⟩
    | available keepAlive noDelay => exact ⟨_, _, rfl, h.available keepAlive noDelay⟩
    | close => exact ⟨_, _, rfl, WiFiServer.Inv.close⟩
    | arrive c => exact ⟨_, _, rfl, h.arrive c⟩

theorem WiFiServer.inv_new (port : UInt16) (maxClients : UInt8) : (WiFiServer.new (κ := κ) port maxClients).Inv :=
  ⟨fun _ => rfl, nofun⟩

/-- A run keeps the server in order, and loses no connection. -/
theorem WiFiServer.Inv.run (h : s.Inv) (is : List (ServerInput κ)) :
    (final WiFiServer.step s is).Inv ∧
      serverConduit.Passes s ((outputs WiFiServer.step s is).flatMap (·.map ConnFate.conn))
        (final WiFiServer.step s is) := by
  obtain ⟨out, t, hrun, ht, hpass⟩ := serverConduit_steady.run h is
  obtain ⟨rfl, rfl⟩ := Prod.mk.inj (Except.ok.inj ((runOut_outputs WiFiServer.step _ s is).symm.trans hrun))
  exact ⟨ht, hpass⟩

/-- **Connections.** After any run the connections that have come are those that met their fate, then
those that a listening server may still hand out, each once and in the order they came. -/
theorem connections_kept (port : UInt16) (maxClients : UInt8) (is : List (ServerInput κ)) :
    let start := WiFiServer.new (κ := κ) port maxClients
    (outputs WiFiServer.step start is).flatten.map ConnFate.conn ++ (final WiFiServer.step start is).live =
      (final WiFiServer.step start is).arrived := by
  obtain ⟨-, hpass⟩ := (WiFiServer.inv_new (κ := κ) port maxClients).run is
  obtain ⟨l, rfl, heq⟩ := hpass.of_empty rfl rfl
  intro start
  rw [List.map_flatten, ← List.flatMap_def]
  exact heq

/-! ## The promise of `hasClient` -/

/-- Calls that leave a kept connection where it is. -/
def ServerInput.keeps : ServerInput κ → Bool
  | .available _ _ | .close => false
  | _ => true

/-- A connection kept by a server that listens. -/
structure WiFiServer.Keeps (s : WiFiServer κ) (c : κ) : Prop where
  inv : s.Inv
  listening : s.listening = true
  kept : s.acceptedSockfd = some c

theorem WiFiServer.Keeps.step {c : κ} {i : ServerInput κ} (h : s.Keeps c) (hi : i.keeps) :
    (s.step i).2.Keeps c := by
  cases i with
  | begin port d =>
    have hsame : (s.step (.begin port d)).2 = s := if_pos h.listening
    rw [hsame]
    exact h
  | setNoDelay on => exact ⟨⟨h.inv.waits, h.inv.socket⟩, h.listening, h.kept⟩
  | hasClient =>
    have hsome : s.acceptedSockfd.isSome = true := by rw [h.kept]; rfl
    have hsame : s.hasClient = (true, s) := if_pos hsome
    show s.hasClient.2.Keeps c
    rw [hsame]
    exact h
  | available keepAlive noDelay => cases hi
  | close => cases hi
  | arrive c' =>
    refine ⟨(h.inv.arrive c').1, ?_, ?_⟩
    · show (s.arrive c').listening = true
      unfold WiFiServer.arrive
      split <;> exact h.listening
    · show (s.arrive c').acceptedSockfd = some c
      unfold WiFiServer.arrive
      split <;> exact h.kept

theorem WiFiServer.Keeps.available {c : κ} (h : s.Keeps c) : (s.available true true).1 = [.client c] := by
  have hlive : s.live = c :: s.backlog := by
    rw [WiFiServer.live_pos h.listening, h.kept]
    rfl
  obtain ⟨hnil, -⟩ | ⟨c', hcons, hout, -⟩ := h.inv.available_cases true true
  · cases hnil.symm.trans hlive
  · obtain ⟨rfl, -⟩ := List.cons.inj (hcons.symm.trans hlive)
    rw [hout, if_pos ⟨rfl, rfl⟩]

/-- **The promise of `hasClient`.** After any run: it says yes on a server that listens exactly when
there is a connection that the next `available` hands out, whatever comes in between but an `end`. -/
theorem hasClient_kept (port : UInt16) (maxClients : UInt8) (is : List (ServerInput κ)) :
    let s := final WiFiServer.step (WiFiServer.new (κ := κ) port maxClients) is
    (s.hasClient.1 = true ∧ s.listening = true) ↔
      ∃ c, ∀ more : List (ServerInput κ), (∀ i ∈ more, i.keeps) →
        ((final WiFiServer.step s.hasClient.2 more).available true true).1 = [.client c] := by
  intro s
  have hinv : s.Inv := ((WiFiServer.inv_new port maxClients).run is).1
  have hkept : ∀ c, s.hasClient.2.Keeps c → ∀ more : List (ServerInput κ), (∀ i ∈ more, i.keeps) →
      ((final WiFiServer.step s.hasClient.2 more).available true true).1 = [.client c] := by
    intro c hc more hmore
    have hfinal : (final WiFiServer.step s.hasClient.2 more).Keeps c :=
      final_inv (fun t : WiFiServer κ => t.Keeps c) (fun t i hi ht => ht.step (hmore i hi)) hc
    exact hfinal.available
  constructor
  · rintro ⟨hyes, hl⟩
    obtain ⟨hsome, heq⟩ | ⟨-, -, heq⟩ | ⟨c, rest, -, -, -, heq⟩ := hinv.hasClient_cases
    · obtain ⟨c, hc⟩ := Option.isSome_iff_exists.mp hsome
      exact ⟨c, hkept c ⟨hinv.hasClient.1, by rw [heq]; exact hl, by rw [heq]; exact hc⟩⟩
    · rw [heq] at hyes
      cases hyes
    · exact ⟨c, hkept c ⟨hinv.hasClient.1, by rw [heq]; exact hl, by rw [heq]⟩⟩
  · rintro ⟨c, hgives⟩
    -- what is handed out at once was live, so that the server listens and `hasClient` found it
    have hnow : (s.hasClient.2.available true true).1 = [.client c] := hgives [] nofun
    have hlive : s.hasClient.2.live ≠ [] := by
      intro hnil
      obtain ⟨-, hout, -⟩ | ⟨c', hcons, -⟩ := hinv.hasClient.1.available_cases true true
      · cases hout.symm.trans hnow
      · cases hnil.symm.trans hcons
    have hl : s.hasClient.2.listening = true := by
      by_contra hoff
      exact hlive (WiFiServer.live_neg (Bool.eq_false_of_not_eq_true hoff))
    obtain ⟨-, heq⟩ | ⟨-, hnil, heq⟩ | ⟨c, rest, hon, -, -, heq⟩ := hinv.hasClient_cases
    · rw [heq] at hl ⊢
      exact ⟨rfl, hl⟩
    · rw [heq] at hlive
      exact absurd hnil hlive
    · rw [heq]
      exact ⟨rfl, hon⟩

end

end CryptoLocker
