import QeoCore.Trace
/-!
# FwdServer — a device that may forward for others (forwarder.c)

A server advertises itself by an instance of the Forwarder topic, and counts those it sees, its own among them.
-/
namespace Qeo.FwdServer

open Trace

inductive State where
  | init | waitLocal | starting | enabled | disabled
  deriving DecidableEq

structure Server where
  state : State
  /-- The device's own instance is in the topic. -/
  published : Bool
  deriving DecidableEq

/-- What the calls give: the timer and the reader, `TCP_PUBLIC`, the write, and the location service. -/
structure Calls where
  ready : Bool
  param : Bool
  publish : Bool
  register : Bool
  deriving DecidableEq

inductive Cause where
  | start
  | count (others : Nat)
  | timeout
  | publicLocator
  deriving DecidableEq

def startForwarding (s : Server) (c : Calls) : Server :=
  if c.param && c.publish then ⟨if c.register then .enabled else .disabled, true⟩ else { s with state := .disabled }

def numLocal (s : Server) : Cause → Int
  | .count others => others + if s.published then 1 else 0
  | _ => -1

def stateMachineEval (s : Server) (e : Cause × Calls) : Option Server :=
  some <| match s.state with
    | .init => if e.2.ready then { s with state := .waitLocal } else s
    | .waitLocal =>
      if e.1 = .timeout then { s with state := .starting }
      else if 0 < numLocal s e.1 then { s with state := .disabled } else s
    | .starting =>
      if 0 < numLocal s e.1 then { s with state := .disabled }
      else if e.1 = .publicLocator then startForwarding s e.2 else s
    | .enabled => if e.1 = .publicLocator then startForwarding s e.2 else s
    | .disabled => if numLocal s e.1 = 0 then { s with state := .starting } else s

structure Advertises (s : Server) : Prop where
  published : s.published = true ↔ s.state = .enabled
  wakes : s.state = .disabled → ∀ c, (stateMachineEval s (.count 0, c)).map Server.state = some .starting

/-- A start that fails has not published, and an enabled server does not fail to start again. -/
def StartsWhole (s : Server) (e : Cause × Calls) : Prop :=
  e.1 = .publicLocator → (s.state = .starting → e.2.param = true → e.2.publish = true → e.2.register = true) ∧
    (s.state = .enabled → e.2.param = true ∧ e.2.publish = true ∧ e.2.register = true)

instance (s : Server) (e : Cause × Calls) : Decidable (StartsWhole s e) := by
  unfold StartsWhole
  infer_instance

theorem advertises_iff (s : Server) : Advertises s ↔ (s.published = true ↔ s.state = .enabled) := by
  refine ⟨fun h => h.published, fun h => ⟨h, fun hd c => ?_⟩⟩
  have hp : s.published = false := by
    rw [← Bool.not_eq_true, h, hd]
    decide
  simp [stateMachineEval, numLocal, hd, hp]

theorem step_iff (h : Advertises s) (hs : stateMachineEval s e = some s') : Advertises s' ↔ StartsWhole s e := by
  obtain ⟨state, published⟩ := s
  obtain ⟨cause, ready, param, publish, register⟩ := e
  rw [advertises_iff] at h ⊢
  obtain rfl : published = decide (state = .enabled) := Bool.eq_iff_iff.2 (h.trans decide_eq_true_iff.symm)
  cases hs
  unfold StartsWhole startForwarding
  cases state with
  | init | waitLocal | enabled | disabled => grind
  | starting => grind [numLocal]

/-- **A server is advertised exactly while it forwards as long as starts are whole, and no longer.** -/
theorem advertises_of_run (hr : Run stateMachineEval StartsWhole ⟨.init, false⟩ es s) :
    Advertises s ∧ ∀ e s', stateMachineEval s e = some s' → (Advertises s' ↔ StartsWhole s e) := by
  have h : Advertises s := by
    refine hr.invariant (fun _ s => Advertises s) ?_ fun _ _ _ _ h hok hs => (step_iff h hs).2 hok
    exact (advertises_iff _).2 (by decide)
  exact ⟨h, fun _ _ => step_iff h⟩

def toLocator (registered : Bool) : List (Cause × Calls) :=
  let well : Calls := ⟨true, true, true, true⟩
  [(.start, well), (.timeout, well), (.publicLocator, { well with register := registered })]

theorem advertises_registered : ∃ s, Run stateMachineEval StartsWhole ⟨.init, false⟩ (toLocator true) s ∧
    s = ⟨.enabled, true⟩ ∧ Advertises s :=
  ⟨_, Run.of_isSome, rfl, (advertises_of_run Run.of_isSome).1⟩

/-- **The location service refuses a server that has published**: it does not forward, is advertised, and counts itself
for ever. -/
theorem not_advertises : ∃ s, Run stateMachineEval (fun _ _ => True) ⟨.init, false⟩ (toLocator false) s ∧
    s = ⟨.disabled, true⟩ ∧ ∀ c, stateMachineEval s (.count 0, c) = some s :=
  ⟨_, Run.of_isSome, rfl, fun _ => rfl⟩

end Qeo.FwdServer
