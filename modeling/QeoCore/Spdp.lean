import Mathlib.Data.List.Perm.Subperm
import QeoCore.Trace
/-!
# Spdp — the record of a peer and its announcements

A record is made by the first announcement of a peer and updated by every other.  It does not follow them if the relay
value changes from one to another, or if there is user data as long as it was: it is taken if it is the same, and left
if it is not.
-/
namespace Qeo.Spdp

open List Option Trace

variable {α : Type} [DecidableEq α]

/-- A locator is stored once for all lists, so that references are compared; no list has a locator twice. -/
abbrev LocatorList (α : Type) := { l : List α // l.Nodup }

inductive Place where
  | defUcast | defMcast | metaUcast | metaMcast

/-- What an announcement says of the peer, and what is stored of it. -/
structure Proxy (α : Type) where
  locators : Place → LocatorList α
  secLocs : LocatorList α
  forward : Nat
  manualLiveliness : Nat
  noMcast : Nat
  userData : Option (List UInt8)

/-- `noMcast` is `locator_list_no_mcast` in the domain. -/
structure Domain (α : Type) where
  security : Bool
  noMcast : LocatorList α → Bool

def locatorListEqual (l1 l2 : LocatorList α) : Bool := l1.1.length = l2.1.length && l1.1.all (· ∈ l2.1)

def updateLocators (dlp slp : LocatorList α) : LocatorList α × Bool :=
  if locatorListEqual dlp slp then (dlp, false) else (slp, true)

def userDataChanged : Option (List UInt8) → Option (List UInt8) → Bool
  | none, none => false
  | some old, some new => old.length ≠ new.length || old = new
  | _, _ => true

/-- For a peer that is authorized, of the own vendor. -/
def discRemoteParticipantAdd (dp : Domain α) (info : Proxy α) : Proxy α :=
  { info with noMcast := if dp.noMcast (info.locators .defUcast) then 1 else info.noMcast }

/-- The record afterwards, and whether the user's reader is notified. -/
def spdpUpdateParticipant (dp : Domain α) (pp info : Proxy α) : Proxy α × Bool :=
  let n place := updateLocators (pp.locators place) (info.locators place)
  let ns := if dp.security then updateLocators pp.secLocs info.secLocs else (pp.secLocs, false)
  let locatorsUpdate := [Place.defUcast, .defMcast, .metaUcast, .metaMcast].any (n · |>.2) || ns.2
  let relayUpdate := pp.forward ≠ info.forward ∨ pp.forward ≠ 0 ∧ locatorsUpdate
  let changed := userDataChanged pp.userData info.userData
  ({ locators := (n · |>.1)
     secLocs := ns.1
     -- from one relay value to another only `rtps_relay_update` is called
     forward := if relayUpdate ∧ (pp.forward = 0 ↔ info.forward ≠ 0) then info.forward else pp.forward
     manualLiveliness := info.manualLiveliness
     noMcast := info.noMcast
     userData := if changed then info.userData else pp.userData }, changed)

/-- The record of the peer, with its last announcement. -/
structure Peer (α : Type) where
  pp : Proxy α
  last : Proxy α
  notified : Bool

def announce (dp : Domain α) (s : Option (Peer α)) (info : Proxy α) : Peer α where
  pp := s.elim (discRemoteParticipantAdd dp info) fun p => (spdpUpdateParticipant dp p.pp info).1
  last := info
  notified := s.any fun p => (spdpUpdateParticipant dp p.pp info).2

def step (dp : Domain α) (s : Option (Peer α)) (info : Proxy α) : Option (Option (Peer α)) := some (announce dp s info)

/-! ## The law -/

structure Agrees (dp : Domain α) (pp info : Proxy α) : Prop where
  locators : ∀ place, (pp.locators place).1.Perm (info.locators place).1
  secLocs : dp.security → pp.secLocs.1.Perm info.secLocs.1
  forward : pp.forward = info.forward
  manualLiveliness : pp.manualLiveliness = info.manualLiveliness
  noMcast : pp.noMcast = info.noMcast
  userData : pp.userData = info.userData

def Follows (dp : Domain α) (s : Option (Peer α)) (info : Proxy α) : Prop :=
  Agrees dp (announce dp s info).pp info ∧
    ∀ p, s = some p → ((announce dp s info).notified ↔ p.last.userData ≠ info.userData)

/-- The announcements that are followed. -/
def Fits (dp : Domain α) : Option (Peer α) → Proxy α → Prop
  | none, info => dp.noMcast (info.locators .defUcast) → info.noMcast = 1
  | some p, info => (p.last.forward = info.forward ∨ p.last.forward = 0 ∨ info.forward = 0) ∧
      ∀ old new, p.last.userData = some old → info.userData = some new → old.length ≠ new.length

theorem updateLocators_perm (dlp slp : LocatorList α) : (updateLocators dlp slp).1.1.Perm slp.1 := by
  unfold updateLocators locatorListEqual
  split
  · rename_i h
    simp only [Bool.and_eq_true, decide_eq_true_eq, List.all_eq_true] at h
    exact (subperm_of_subset dlp.2 h.2).perm_of_length_le (Nat.le_of_eq h.1.symm)
  · exact .refl _

theorem userDataChanged_iff {old new : Option (List UInt8)} :
    (userDataChanged old new ↔ old ≠ new) ↔ ∀ o n, old = some o → new = some n → o.length ≠ n.length := by
  cases old <;> cases new <;> simp [userDataChanged]
  grind

theorem follows_update (h : Agrees dp p.pp p.last) (info : Proxy α) :
    Follows dp (some p) info ↔ Fits dp (some p) info := by
  have hud : (announce dp (some p) info).notified = userDataChanged p.last.userData info.userData :=
    congrArg (userDataChanged · _) h.userData
  rw [Fits, ← userDataChanged_iff, ← hud, ← h.forward]
  constructor
  · intro hf
    have := hf.1.forward
    simp only [announce, spdpUpdateParticipant] at this
    exact ⟨by grind, hf.2 p rfl⟩
  · rintro ⟨hfwd, hn⟩
    refine ⟨⟨fun _ => updateLocators_perm .., fun hs => ?_, ?_, rfl, rfl, ?_⟩, fun _ hp => ?_⟩
    · simp only [announce, spdpUpdateParticipant, hs, if_true]
      exact updateLocators_perm ..
    · simp only [announce, spdpUpdateParticipant]
      grind
    · rw [hud, ← h.userData] at hn
      simp only [announce, spdpUpdateParticipant, elim_some]
      grind
    · cases hp
      exact hn

theorem follows_iff (h : ∀ p, s = some p → Agrees dp p.pp p.last) (info : Proxy α) :
    Follows dp s info ↔ Fits dp s info := by
  cases s with
  | some p => exact follows_update (h p rfl) info
  | none =>
    unfold Follows Fits announce discRemoteParticipantAdd
    constructor
    · intro hf hm
      simpa [hm, eq_comm] using hf.1.noMcast
    · intro hf
      refine ⟨⟨fun _ => .refl _, fun _ => .refl _, rfl, rfl, ?_, rfl⟩, nofun⟩
      exact ite_eq_right_iff.2 fun hm => (hf hm).symm

/-- **After every announcement the record is that announcement's, and a notification tells of other user data, exactly
as long as they fit.** -/
theorem record_follows_iff {dp : Domain α} (hr : Run (step dp) (Fits dp) none es s) (info : Proxy α) :
    Follows dp s info ↔ Fits dp s info := by
  refine follows_iff (hr.invariant (fun _ s => ∀ p, s = some p → Agrees dp p.pp p.last) nofun ?_) info
  intro _ s info s' h hok hs p hp
  cases hs
  cases hp
  exact ((follows_iff h info).2 hok).1

abbrev secured : Domain Nat := ⟨true, fun _ => false⟩

def saying (ucast : List Nat) (h : ucast.Nodup) (forward : Nat) (userData : Option (List UInt8)) : Proxy Nat where
  locators
    | .defUcast | .metaUcast => ⟨ucast, h⟩
    | _ => ⟨[], nodup_nil⟩
  secLocs := ⟨[], nodup_nil⟩
  forward := forward
  manualLiveliness := 0
  noMcast := 0
  userData := userData

abbrev first : Proxy Nat := saying [1, 2] (by decide) 0 none

/-- A peer that moves, becomes a relay and gives its user data. -/
theorem record_follows_relay : ∃ s, Run (step secured) (Fits secured) none [first] s ∧
    Follows secured s (saying [3] (by decide) 1 (some [7])) := by
  have hr : Run (step secured) (Fits secured) none [first] _ := .snoc .nil nofun rfl
  exact ⟨_, hr, (record_follows_iff hr _).2 ⟨.inr (.inl rfl), nofun⟩⟩

/-- **User data `8` that comes after `7` is not stored.** -/
theorem user_data_kept :
    ∃ s, Run (step secured) (fun _ _ => True) none [{ first with userData := some [7] }] s ∧
      ¬ Follows secured s { first with userData := some [8] } := by
  refine ⟨_, .snoc .nil trivial rfl, fun h => ?_⟩
  cases h.1.userData

end Qeo.Spdp
