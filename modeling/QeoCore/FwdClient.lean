import QeoCore.Trace
/-!
# FwdClient — a device that uses the forwarder of another one (forwarder.c)

The location service and the Forwarder topic both tell a client where forwarders are.
-/
namespace Qeo.FwdClient

open Trace

inductive State where
  | init | wait | waitReader | ready
  deriving DecidableEq

/-- A locator as it is received. -/
structure Locator where
  type : Int
  address : List Char
  port : Int
  deriving DecidableEq

/-- `factory->fwd.locator`: without memory for a copy its address is NULL. -/
structure Stored where
  type : Int
  address : Option (List Char)
  port : Int
  deriving DecidableEq

/-- What a device offers (`flags_t`). -/
structure Flags where
  forwarding : Bool
  bgns : Bool
  deriving DecidableEq

structure Config extends Flags where
  /-- `TCP_SERVER` is set. -/
  preconfigured : Bool
  locationService : Bool
  /-- `TDDS_TCP_SERVER` and `TDDS_BGNS_SERVER` are in the environment. -/
  tcpOverridden : Bool
  bgnsOverridden : Bool

/-- `latest`, `viaData` and `serves` are not in the code: the last locator received for each device, whether the client
has become ready through data, and whether its last configuration was to set `TCP_SERVER`. -/
structure Client where
  state : State
  locator : Option Stored
  deviceId : Int
  timer : Bool
  tcpServer : Option (List Char)
  bgnsServer : Option (List Char)
  latest : Int → Option Locator
  viaData : Bool
  serves : Bool

/-- What the calls of `fwd_client_reconfig` come to: there is memory for a locator and for its address, and the two
parameters can be set. -/
structure Calls where
  created : Bool
  copied : Bool
  tcp : Bool
  bgns : Bool
  deriving DecidableEq

/-- A timer starts or not. -/
inductive Event where
  | start (timer : Bool)
  | timeout (timer : Bool)
  | locSrv (loc : Locator) (id : Int) (calls : Calls)
  | data (loc : Locator) (id : Int) (flags : Flags) (calls : Calls)
  | removed (id : Int) (timer : Bool)

def contactLocationService (cfg : Config) (timer : Bool) (s : Client) : Client :=
  { s with state := .wait, timer := if cfg.locationService then timer else s.timer }

def Locator.stored (loc : Locator) : Stored := ⟨loc.type, some loc.address, loc.port⟩

/-- The text `%s:%d`, in an array of 128 characters. -/
def Locator.server (loc : Locator) : List Char := (loc.address ++ ':' :: (toString loc.port).toList).take 127

def flagText (b : Bool) : List Char := (toString (100 + b.toNat)).toList

/-- Neither of the two is wanted and offered: the flags as a text. -/
def noServer (cfg : Config) (flags : Flags) : List Char :=
  flagText cfg.forwarding ++ '.' :: flagText flags.forwarding ++ '.' :: flagText cfg.bgns ++ '.' :: flagText flags.bgns

def setServers (cfg : Config) (loc : Locator) (flags : Flags) (calls : Calls) (s : Client) : Client :=
  let fwd := cfg.forwarding && flags.forwarding
  let bgns := cfg.bgns && flags.bgns
  let bgnsServer :=
    if fwd then if bgns then some ['@'] else none else if bgns then some loc.server else noServer cfg flags
  { s with
    tcpServer := if fwd && !cfg.tcpOverridden && calls.tcp then some loc.server else s.tcpServer
    bgnsServer := if cfg.bgnsOverridden || !calls.bgns then s.bgnsServer else bgnsServer <|> s.bgnsServer
    serves := fwd && !cfg.tcpOverridden }

/-- `fwd_locator_create` -/
def locatorCreate (created : Bool) (s : Client) : Option Stored :=
  if s.locator.isNone && created then some ⟨0, none, 0⟩ else s.locator

/-- `fwd_locator_update`: a port of -1 leaves the port as it is. -/
def locatorUpdate (loc : Locator) (copied : Bool) (l : Stored) : Stored :=
  ⟨loc.type, if copied then some loc.address else none, if loc.port = -1 then l.port else loc.port⟩

/-- `fwd_client_reconfig` -/
def reconfig (cfg : Config) (loc : Locator) (id : Int) (flags : Flags) (calls : Calls) (s : Client) : Client :=
  match locatorCreate calls.created s with
  | none => { s with deviceId := id }
  | some l =>
    let s := { s with locator := some (locatorUpdate loc calls.copied l), deviceId := id }
    if calls.copied then setServers cfg loc flags calls s else s

def hear (loc : Locator) (id : Int) (s : Client) : Client :=
  { s with latest := fun i => if i = id then some loc else s.latest i }

def toReady (s : Client) : Client := { s with state := .ready, timer := false, viaData := true }

def stateMachineEval (cfg : Config) (s : Client) : Event → Option Client
  | .start timer => some <|
    if s.state ≠ .init then s
    else if !(cfg.forwarding || cfg.preconfigured) && !cfg.bgns then { s with state := .ready, viaData := false }
    else if cfg.forwarding && !cfg.preconfigured then contactLocationService cfg timer s
    else { s with state := .wait }
  | .timeout timer => some <|
    let s := { s with timer := false }
    if s.state = .wait ∨ s.state = .waitReader then contactLocationService cfg timer s else s
  | .locSrv loc id calls => some <|
    let s := hear loc id s
    if s.state = .wait then { reconfig cfg loc id ⟨true, false⟩ calls s with state := .waitReader } else s
  | .data loc id flags calls => some <|
    let s := hear loc id s
    if s.state = .wait then toReady (reconfig cfg loc id flags calls s)
    else if s.state = .waitReader then
      toReady (if s.deviceId ≠ id ∨ flags.bgns then reconfig cfg loc id flags calls s else s)
    else s
  | .removed _ timer => some <| if s.state = .ready then contactLocationService cfg timer s else s

/-- The client is configured with `loc`. -/
def Client.Uses (s : Client) (loc : Locator) : Prop :=
  s.locator = some loc.stored ∧ (s.serves = true → s.tcpServer = some loc.server)

instance (s : Client) (loc : Locator) : Decidable (s.Uses loc) := inferInstanceAs (Decidable (_ ∧ _))

@[mk_iff] structure Follows (cfg : Config) (s : Client) : Prop where
  current : s.state = .ready → s.viaData = true → ∃ loc, s.latest s.deviceId = some loc ∧ s.Uses loc
  waiting : s.state = .wait ∨ s.state = .waitReader → cfg.locationService = true → cfg.preconfigured = false →
    s.timer = true

def Stays (s s' : Client) (e : Event) : Prop :=
  s.state = .ready → s'.state ≠ .ready → ∃ timer, e = .removed s.deviceId timer

/-- Memory for the locator and its address, a port, and `TCP_SERVER` takes its value or has it already. -/
def Configures (cfg : Config) (s : Client) (loc : Locator) (flags : Flags) (calls : Calls) : Prop :=
  (s.locator = none → calls.created = true) ∧ calls.copied = true ∧ loc.port ≠ -1 ∧
    (cfg.forwarding = true → flags.forwarding = true → cfg.tcpOverridden = false → calls.tcp = false →
      s.tcpServer = some loc.server)

/-- The device in use is not heard of with another locator once the client is ready, or when it becomes so without being
configured; no other device is removed then; a timer starts where one is needed; and a configuration succeeds. -/
def Keeps (cfg : Config) (s : Client) : Event → Prop
  | .start timer => s.state = .init → cfg.locationService = true → cfg.preconfigured = false →
      cfg.forwarding = true ∨ cfg.bgns = true → (if cfg.forwarding then timer else s.timer) = true
  | .timeout timer => s.state = .wait ∨ s.state = .waitReader → cfg.locationService = true →
      cfg.preconfigured = false → timer = true
  | .locSrv loc id _ => s.state = .ready → s.viaData = true → s.deviceId = id → s.Uses loc
  | .data loc id flags calls =>
    if s.state = .wait ∨ s.state = .waitReader ∧ (s.deviceId ≠ id ∨ flags.bgns = true)
    then Configures cfg s loc flags calls
    else s.state = .waitReader ∨ s.state = .ready ∧ s.viaData = true ∧ s.deviceId = id → s.Uses loc
  | .removed id timer => s.state = .ready → id = s.deviceId ∧
      (cfg.locationService = true → cfg.preconfigured = false → timer = true)

/-! ## One step -/

section
variable (cfg : Config) (loc : Locator) (id : Int) (flags : Flags) (calls : Calls) (s : Client)

@[simp] theorem reconfig_state : (reconfig cfg loc id flags calls s).state = s.state := by
  unfold reconfig; split; rfl; dsimp only; split <;> rfl
@[simp] theorem reconfig_timer : (reconfig cfg loc id flags calls s).timer = s.timer := by
  unfold reconfig; split; rfl; dsimp only; split <;> rfl
@[simp] theorem reconfig_latest : (reconfig cfg loc id flags calls s).latest = s.latest := by
  unfold reconfig; split; rfl; dsimp only; split <;> rfl
@[simp] theorem reconfig_deviceId : (reconfig cfg loc id flags calls s).deviceId = id := by
  unfold reconfig; split; rfl; dsimp only; split <;> rfl

end

def Ported (s : Client) : Prop := ∀ l ∈ s.locator, l.port ≠ -1

theorem locatorCreate_port (created : Bool) (h : Ported s) : ∀ l ∈ locatorCreate created s, l.port ≠ -1 := by
  unfold locatorCreate
  split
  · rintro l ⟨⟩
    decide
  · exact h

theorem locatorUpdate_port (h : l.port ≠ -1) : (locatorUpdate loc copied l).port ≠ -1 := by
  simp only [locatorUpdate]
  split <;> assumption

theorem Ported.reconfig {id : Int} (h : Ported s) : Ported (reconfig cfg loc id flags calls s) := by
  have hport := locatorCreate_port calls.created h
  unfold FwdClient.reconfig
  split
  · exact h
  · rename_i l hl
    have hnew : ∀ l' ∈ some (locatorUpdate loc calls.copied l), l'.port ≠ -1 := by
      rintro l' ⟨⟩
      exact locatorUpdate_port (hport l hl)
    dsimp only
    split <;> exact hnew

theorem Ported.step (h : Ported s) (hs : stateMachineEval cfg s e = some s') : Ported s' := by
  cases e <;> cases hs
  case locSrv loc id calls =>
    dsimp only
    split
    · exact (show Ported (hear loc id s) from h).reconfig
    · exact h
  case data loc id flags calls =>
    have hr : Ported (FwdClient.reconfig cfg loc id flags calls (hear loc id s)) :=
      (show Ported (hear loc id s) from h).reconfig
    dsimp only
    split
    · exact hr
    · split
      · split
        · exact hr
        · exact h
      · exact h
  all_goals
    simp only [contactLocationService]
    repeat' split
    all_goals exact h

theorem locatorUpdate_eq (loc : Locator) (copied : Bool) (h : l.port ≠ -1) :
    locatorUpdate loc copied l = loc.stored ↔ copied = true ∧ loc.port ≠ -1 := by
  unfold locatorUpdate Locator.stored
  by_cases hp : loc.port = -1 <;> cases copied <;> simp [hp, h]

/-- **A client is configured with what it is told exactly if memory, port and parameter allow.** -/
theorem reconfig_uses {id : Int} (h : Ported s) :
    (reconfig cfg loc id flags calls s).Uses loc ↔ Configures cfg s loc flags calls := by
  have hport := locatorCreate_port calls.created h
  have hcreate : locatorCreate calls.created s = none ↔ s.locator = none ∧ calls.created = false := by
    unfold locatorCreate
    cases s.locator <;> cases calls.created <;> simp
  unfold reconfig Configures Client.Uses
  split
  · rename_i hnone
    have := hcreate.1 hnone
    simp [this]
  · rename_i l hl
    have hsome : s.locator = none → calls.created = true := by
      intro hn
      cases hc : calls.created with
      | true => rfl
      | false => rw [hcreate.2 ⟨hn, hc⟩] at hl; cases hl
    have heq := locatorUpdate_eq loc calls.copied (hport l hl)
    dsimp only
    split <;> simp only [setServers, Option.some.injEq, heq] <;> grind

@[simp] theorem hear_state (loc : Locator) (id : Int) (s : Client) : (hear loc id s).state = s.state := rfl
@[simp] theorem hear_latest (loc : Locator) (id : Int) (s : Client) : (hear loc id s).latest id = some loc := if_pos rfl

@[simp] theorem hear_timer (loc : Locator) (id : Int) (s : Client) : (hear loc id s).timer = s.timer := rfl
@[simp] theorem hear_deviceId (loc : Locator) (id : Int) (s : Client) : (hear loc id s).deviceId = s.deviceId := rfl

theorem Follows.hear_iff {id : Int} (h : Follows cfg s) (hst : s.state = .ready) :
    Follows cfg (hear loc id s) ↔ (s.viaData = true → s.deviceId = id → s.Uses loc) := by
  rw [follows_iff]
  simp only [hear_state, hst, reduceCtorEq, or_self, false_implies, and_true, forall_const]
  by_cases hid : s.deviceId = id
  · subst hid
    simp [hear, Client.Uses]
  · have hsame : (hear loc id s).latest s.deviceId = s.latest s.deviceId := if_neg hid
    exact iff_of_true (fun hv => hsame ▸ h.current hst hv) fun _ h' => absurd h' hid

theorem follows_toReady (hl : s.latest s.deviceId = some loc) : Follows cfg (toReady s) ↔ s.Uses loc := by
  rw [follows_iff]
  simp [toReady, Client.Uses, hl]

theorem Follows.data_iff {id : Int} (h : Follows cfg s) (hp : Ported s)
    (hs : stateMachineEval cfg s (.data loc id flags calls) = some s') :
    Follows cfg s' ∧ Stays s s' (.data loc id flags calls) ↔ Keeps cfg s (.data loc id flags calls) := by
  cases hs
  have hr : Follows cfg (toReady (reconfig cfg loc id flags calls (hear loc id s))) ↔
    Configures cfg s loc flags calls :=
    (follows_toReady (by simp)).trans (reconfig_uses (show Ported (hear loc id s) from hp))
  unfold Keeps Stays
  cases hstate : s.state with
  | init => simp [hear, hstate, follows_iff]
  | wait => simp [hstate, hr]
  | waitReader =>
    by_cases hc : s.deviceId ≠ id ∨ flags.bgns = true
    · simp [hstate, hc, hr]
    · obtain ⟨hid, -⟩ := not_or.1 hc
      have hu : Follows cfg (toReady (hear loc id s)) ↔ s.Uses loc :=
        follows_toReady (by rw [show (hear loc id s).deviceId = id from not_not.1 hid]; simp)
      simp [hstate, hc, hu]
  | ready => simp [hstate, h.hear_iff hstate]

theorem Follows.step_iff (h : Follows cfg s) (hp : Ported s) (hs : stateMachineEval cfg s e = some s') :
    Follows cfg s' ∧ Stays s s' e ↔ Keeps cfg s e := by
  obtain ⟨hc, hw⟩ := id h
  cases e with
  | start timer | timeout timer =>
    cases hs
    rw [follows_iff]
    unfold Keeps Stays
    cases hstate : s.state <;> grind [contactLocationService, Client.Uses]
  | removed id timer =>
    cases hs
    have hown : (∃ t, Event.removed id timer = .removed s.deviceId t) ↔ id = s.deviceId := by simp
    rw [follows_iff]
    unfold Keeps Stays
    rw [hown]
    cases hstate : s.state <;> grind [contactLocationService, Client.Uses]
  | locSrv loc id calls =>
    cases hs
    unfold Keeps Stays
    cases hstate : s.state with
    | ready => simp [hstate, h.hear_iff hstate]
    | init => simp [hear, hstate, follows_iff]
    | waitReader | wait => simpa [hstate, follows_iff] using hw
  | data loc id flags calls => exact h.data_iff hp hs

def Client.start : Client where
  state := .init
  locator := none
  deviceId := 0
  timer := false
  tcpServer := none
  bgnsServer := none
  latest _ := none
  viaData := false
  serves := false

/-- **A client follows its forwarder exactly while each step keeps to it.** -/
theorem follows_of_run (hr : Run (stateMachineEval cfg) (Keeps cfg) .start es s) : Follows cfg s ∧
    ∀ e s', stateMachineEval cfg s e = some s' → (Follows cfg s' ∧ Stays s s' e ↔ Keeps cfg s e) := by
  have hf : Follows cfg s ∧ Ported s := hr.invariant (fun _ s => Follows cfg s ∧ Ported s)
    ⟨⟨by simp [Client.start], by simp [Client.start]⟩, by simp [Ported, Client.start]⟩
    fun _ _ _ _ h hk hs => ⟨((h.1.step_iff h.2 hs).2 hk).1, h.2.step hs⟩
  exact ⟨hf.1, fun _ _ => hf.1.step_iff hf.2⟩

instance (cfg : Config) (s : Client) (e : Event) : Decidable (Keeps cfg s e) := by
  cases e <;> unfold Keeps <;> try unfold Configures
  all_goals infer_instance

def forwards : Config := ⟨⟨true, false⟩, false, true, false, false⟩

def allGood : Calls := ⟨true, true, true, true⟩

def found (port : Int) : List Event :=
  [.start true, .locSrv ⟨1, ['a'], 7⟩ 1 allGood, .data ⟨1, ['a'], port⟩ 1 ⟨true, false⟩ allGood]

theorem follows_found : ∃ s, Run (stateMachineEval forwards) (Keeps forwards) .start (found 7) s ∧
    s.state = .ready ∧ Follows forwards s :=
  ⟨_, Run.of_isSome, rfl, (follows_of_run Run.of_isSome).1⟩

/-- **The forwarder has moved** by the time its instance arrives, and once more later; then another forwarder goes. -/
theorem not_follows : ∃ s s' s'', Run (stateMachineEval forwards) (fun _ _ => True) .start (found 8) s ∧
    s.state = .ready ∧ s.deviceId = 1 ∧ s.locator = some ⟨1, some ['a'], 7⟩ ∧ s.latest 1 = some ⟨1, ['a'], 8⟩ ∧
    stateMachineEval forwards s (.data ⟨1, ['b'], 9⟩ 1 ⟨true, true⟩ allGood) = some s' ∧ s'.locator = s.locator ∧
    stateMachineEval forwards s' (.removed 2 true) = some s'' ∧ s''.state = .wait :=
  ⟨_, _, _, Run.of_isSome, rfl, rfl, rfl, rfl, rfl, rfl, rfl, rfl⟩

end Qeo.FwdClient
