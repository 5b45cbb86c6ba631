import QeoCore.Trace
/-!
# PeerEnd — what a peer participant holds, until it is deleted

`spdp_end_participant` runs for a peer that is ignored, and again when the same peer is removed.  What is left to
release it sees by the record, where the user data and the identity are still named after they were released.
-/
namespace Qeo.Peers

open Trace

/-- The security of the domain; `transport` is security without `SECC_NATIVE_SEC`. -/
inductive Level where
  | plain | transport | native
  deriving DecidableEq

inductive Resource where
  | idTokens | permTokens | entityName | userData | identity | crypto | ucLocs
  | defUcast | defMcast | metaUcast | metaMcast | srcLocators | secLocs
  deriving DecidableEq

/-- A field names one reference or none, a list one for each entry; `held` counts those taken and not released, and
`released` says that what the field names has been released.  The identity's record has `others` users beside. -/
structure Peer where
  present : Bool
  ignored : Bool
  field : Resource → Nat
  held : Resource → Int
  released : Resource → Bool
  others : Nat

/-- `share`: handshakes that use the identity begin and end.  `revalidate`: `sec_validate_remote_id` is called again and
has the handle that the peer names, or another one. -/
inductive Event where
  | replace (r : Resource) (n : Nat)
  | enable (registered : Bool)
  | share (others : Nat)
  | revalidate (same : Bool)
  | endParticipant (ignore : Bool)

/-- What `spdp_end_participant` releases. -/
def freed (lv : Level) (ignore : Bool) : Resource → Bool
  | .identity | .crypto => lv = .native
  | .ucLocs => lv = .native || ignore
  | _ => true

/-- The fields that it resets as well. -/
def cleared : Resource → Bool
  | .identity | .userData => false
  | _ => true

/-- A new peer has no crypto handle, and neither an identity nor reply locators in a plain domain. -/
def created (lv : Level) (rejected : Bool) (info : Resource → Nat) : Peer :=
  let field r := if r = .crypto ∨ lv = .plain ∧ ¬ freed lv false r then 0 else info r
  ⟨true, rejected, field, (field ·), fun _ => false, 0⟩

/-- `n` new references are taken for a field, and `out` of the old ones released. -/
def Peer.take (p : Peer) (r : Resource) (n out : Nat) : Peer :=
  { p with
    field := fun r' => if r' = r then n else p.field r'
    held := fun r' => if r' = r then p.held r + n - out else p.held r'
    released := fun r' => if r' = r then false else p.released r' }

/-- The resources that an announcement or other reply locators replace. -/
def replaces (lv : Level) (p : Peer) : Resource → Bool
  | .idTokens | .permTokens | .entityName | .identity | .crypto => false
  | .ucLocs => lv ≠ .plain
  | _ => !p.ignored

def replace (lv : Level) (p : Peer) (r : Resource) (n : Nat) : Peer :=
  if replaces lv p r then p.take r n (p.field r) else p

def spdpRemoteParticipantEnable (lv : Level) (p : Peer) (registered : Bool) : Peer :=
  let p := { p with ignored := false }
  -- the handle of an earlier handshake is overwritten
  if lv = .native then p.take .crypto registered.toNat 0 else p

/-- `id_lookup` finds no record: its last user has released it. -/
def gone (p : Peer) : Bool := p.held .identity + p.others ≤ 0

def share (p : Peer) (others : Nat) : Peer := if gone p then p else { p with others }

/-- The identity of a peer that is validated again has a record already, or gets a new one. -/
def revalidate (lv : Level) (p : Peer) (same : Bool) : Peer :=
  if lv = .native ∧ gone p then
    { p with
      held := fun r => if r = .identity then p.held r + 1 else p.held r
      released := fun r => if r = .identity ∧ same then false else p.released r }
  else p

/-- The references released for `r`; `sec_release_identity` does nothing without a record. -/
def releases (lv : Level) (p : Peer) (ignore : Bool) (r : Resource) : Nat :=
  if freed lv ignore r ∧ ¬ (r = .identity ∧ gone p) then p.field r else 0

def spdpEndParticipant (lv : Level) (p : Peer) (ignore : Bool) : Peer :=
  if ignore ∧ p.ignored then p else
  let held r := p.held r - releases lv p ignore r
  if ignore then
    { p with
      ignored := true
      field := fun r => if freed lv true r ∧ cleared r then 0 else p.field r
      held
      released := fun r => freed lv true r && !cleared r }
  else ⟨false, true, fun _ => 0, held, fun _ => false, p.others⟩

def after (lv : Level) (p : Peer) (e : Event) : Peer :=
  if p.present then
    match e with
    | .replace r n => replace lv p r n
    | .enable registered => spdpRemoteParticipantEnable lv p registered
    | .share others => share p others
    | .revalidate same => revalidate lv p same
    | .endParticipant ignore => spdpEndParticipant lv p ignore
  else p

def step (lv : Level) (p : Peer) (e : Event) : Option Peer := some (after lv p e)

/-! ## The law -/

/-- Each reference that is named and not released is held once, and no other; after the deletion none is named. -/
def Balanced (p : Peer) : Prop := ∀ r, p.held r = if p.released r then 0 else (p.field r : Int)

/-- No field is released a second time, but for an identity without a record; no handle and no new record is lost; and
nothing that only native security releases is named when the peer is deleted without it. -/
def Fits (lv : Level) (p : Peer) (e : Event) : Prop := p.present →
  match e with
  | .replace r _ => replaces lv p r → p.released r → p.field r = 0
  | .enable _ => lv = .native → p.field .crypto = 0
  | .share _ => True
  | .revalidate same => lv = .native → gone p → same ∧ p.field .identity = 1
  | .endParticipant ignore => (ignore ∧ p.ignored) ∨
      (∀ r, p.released r → ¬ (r = .identity ∧ gone p) → p.field r = 0) ∧
        (¬ ignore → ∀ r, ¬ freed lv false r → p.field r = 0)

/-- Only what is released by an ignore and not reset is named after its release. -/
def Stale (lv : Level) (p : Peer) : Prop := ∀ r, p.released r → freed lv false r ∧ ¬ cleared r

theorem take_balanced (h : Balanced p) : Balanced (p.take r n out) ↔ p.held r = out := by
  constructor
  · intro hb
    have := hb r
    simp [Peer.take] at this
    omega
  · intro hr r'
    have := h r'
    simp only [Peer.take]
    split
    · simp only [Bool.false_eq_true, if_false]
      omega
    · exact this

theorem replace_balanced (h : Balanced p) (r : Resource) (n : Nat) :
    Balanced (replace lv p r n) ↔ (replaces lv p r → p.released r → p.field r = 0) := by
  unfold replace
  split
  · have hr := h r
    rw [take_balanced h]
    grind
  · simp [*]

theorem enable_balanced (h : Balanced p) (hs : Stale lv p) (registered : Bool) :
    Balanced (spdpRemoteParticipantEnable lv p registered) ↔ (lv = .native → p.field .crypto = 0) := by
  unfold spdpRemoteParticipantEnable
  dsimp only
  split
  · have hc := h .crypto
    have := hs .crypto
    rw [take_balanced (show Balanced { p with ignored := false } from h)]
    grind [cleared]
  · exact iff_of_true h (by simp [*])

theorem share_balanced (h : Balanced p) (n : Nat) : Balanced (share p n) := by
  unfold share
  split <;> exact h

theorem revalidate_balanced (h : Balanced p) (same : Bool) :
    Balanced (revalidate lv p same) ↔ (lv = .native → gone p → same ∧ p.field .identity = 1) := by
  have hi := h .identity
  have hg : gone p ↔ p.held .identity + p.others ≤ 0 := by simp [gone]
  unfold revalidate
  split
  · rename_i hn
    constructor
    · intro hb _ _
      have := hb .identity
      grind
    · intro hf r
      have := h r
      grind
  · exact iff_of_true h (by grind)

theorem end_balanced (h : Balanced p) (hs : Stale lv p) (ignore : Bool) :
    Balanced (spdpEndParticipant lv p ignore) ↔ (ignore ∧ p.ignored) ∨
      (∀ r, p.released r → ¬ (r = .identity ∧ gone p) → p.field r = 0) ∧
        (¬ ignore → ∀ r, ¬ freed lv false r → p.field r = 0) := by
  have hg : gone p ↔ p.held .identity + p.others ≤ 0 := by simp [gone]
  have hfree : ∀ r, freed lv false r → freed lv ignore r := by
    intro r
    cases ignore <;> cases r <;> simp [freed]
  unfold spdpEndParticipant
  split
  · simp [*]
  rw [or_iff_right ‹_›]
  constructor
  · intro hb
    refine ⟨fun r hrel hno => ?_, fun hi r hf => ?_⟩ <;>
    · have := h r
      have := hb r
      have := hs r
      cases ignore <;> grind [releases]
  · rintro ⟨hrel, hf⟩ r
    have := h r
    have := hs r
    cases ignore <;> grind [releases]

theorem after_balanced (h : Balanced p) (hs : Stale lv p) (e : Event) : Balanced (after lv p e) ↔ Fits lv p e := by
  unfold after Fits
  by_cases hp : p.present
  · simp only [hp, if_true, true_imp_iff]
    cases e with
    | replace r n => exact replace_balanced h r n
    | enable registered => exact enable_balanced h hs registered
    | share n => exact iff_true_intro (share_balanced h n)
    | revalidate same => exact revalidate_balanced h same
    | endParticipant ignore => exact end_balanced h hs ignore
  · simp [hp, h]

theorem Stale.take {p : Peer} (hs : Stale lv p) : Stale lv (p.take r n out) := by
  intro r' h
  simp only [Peer.take] at h
  split at h
  · cases h
  · exact hs r' h

theorem end_stale (hs : Stale lv p) (ignore : Bool) : Stale lv (spdpEndParticipant lv p ignore) := by
  intro r hr
  unfold spdpEndParticipant at hr
  split at hr
  · exact hs r hr
  cases ignore with
  | false => cases hr
  | true =>
    have hkept : freed lv true r = true ∧ cleared r = false := by simpa using hr
    cases r <;> simp_all [freed, cleared]

theorem after_stale (hs : Stale lv p) (e : Event) : Stale lv (after lv p e) := by
  unfold after
  split
  swap
  · exact hs
  cases e with
  | replace r n =>
    dsimp only [replace]
    split
    · exact hs.take
    · exact hs
  | enable registered =>
    dsimp only [spdpRemoteParticipantEnable]
    split
    · exact Stale.take hs
    · exact hs
  | share n =>
    dsimp only [share]
    split <;> exact hs
  | revalidate same =>
    dsimp only [revalidate]
    split
    · intro r h
      dsimp only at h
      split at h
      · cases h
      · exact hs r h
    · exact hs
  | endParticipant ignore => exact end_stale hs ignore

end Qeo.Peers
