import Mathlib.Data.List.Nodup
import Mathlib.Data.List.Pairwise
import Mathlib.Data.List.TakeWhile
import QeoCore.Guards
/-!
# GuardLease — when a reader's guard changes to not alive

A guard that waits without a timer is served by the nearest guard of its kind before it that holds one (`Served`).  Two
events break this: a guard that is put between the two, and the removal of a guard that others wait for.
-/
namespace Qeo.Guards

open List Option Nat Function Trace

variable {m m' now prev : Nat} {k : Kind} {q q' : Prop} {g x : Guard} {l l' : List Guard} {s s' : State}

/-! ## Who is served -/

/-- What a guard needs of `q`: that the nearest timer before it is exact. -/
def Needs (m : Nat) (k : Kind) (q : Prop) (g : Guard) : Prop :=
  g.kind = k → g.alive = true → (g.timer = none → q) ∧ ∀ d, g.timer = some d → g.heard = true → d = m + g.period

def lead (m : Nat) (k : Kind) (q : Prop) (g : Guard) : Prop :=
  if g.kind = k ∧ g.timer.isSome then g.timer = some (m + g.period) else q

/-- Every guard of the kind that is alive is served by a timer, where `m` was the last message. -/
def Served (m : Nat) (k : Kind) : Prop → List Guard → Prop
  | _, [] => True
  | q, g :: l => Needs m k q g ∧ Served m k (lead m k q g) l

theorem Needs.mono (h : q → q') (hn : Needs m k q g) : Needs m k q' g := by
  intro hk ha
  exact ⟨fun ht => h ((hn hk ha).1 ht), (hn hk ha).2⟩

theorem lead_mono (h : q → q') (hl : lead m k q g) : lead m k q' g := by
  unfold lead at *
  split at hl
  · rwa [if_pos ‹_›]
  · rw [if_neg ‹_›]
    exact h hl

theorem lead_other (h : g.kind ≠ k) : lead m k q g = q := if_neg fun hc => h hc.1

theorem lead_none (h : g.timer = none) : lead m k q g = q := if_neg fun hc => by simp [h] at hc

theorem lead_holder (hk : g.kind = k) (h : g.timer = some d) : lead m k q g = (d = m + g.period) := by
  unfold lead
  rw [if_pos ⟨hk, by rw [h]; rfl⟩, h]
  exact propext some_inj

theorem Served.mono : ∀ {l : List Guard} {q q' : Prop}, (q → q') → Served m k q l → Served m k q' l
  | [], _, _, _, _ => trivial
  | _ :: _, _, _, h, hs => ⟨hs.1.mono h, hs.2.mono (lead_mono h)⟩

theorem served_append : ∀ {a b : List Guard} {q : Prop},
    Served m k q (a ++ b) ↔ Served m k q a ∧ Served m k (a.foldl (lead m k) q) b
  | [], _, _ => ⟨fun h => ⟨trivial, h⟩, fun h => h.2⟩
  | g :: a, b, q => by rw [cons_append, Served, Served, served_append, and_assoc, foldl_cons]

theorem foldl_lead_other : ∀ {a : List Guard} {q : Prop}, (∀ x ∈ a, x.kind ≠ k) → a.foldl (lead m k) q = q
  | [], _, _ => rfl
  | x :: a, q, h => by
    rw [foldl_cons, lead_other (h x mem_cons_self)]
    exact foldl_lead_other (forall_mem_cons.1 h).2

theorem served_other : ∀ {a : List Guard} {q : Prop}, (∀ x ∈ a, x.kind ≠ k) → Served m k q a
  | [], _, _ => trivial
  | x :: _, _, h => ⟨fun hk => absurd hk (h x mem_cons_self), served_other (forall_mem_cons.1 h).2⟩

theorem exists_of_foldl_lead : ∀ {a : List Guard} {q : Prop}, a.foldl (lead m k) q →
    q ∨ ∃ h ∈ a, h.timer = some (m + h.period)
  | [], _, hq => .inl hq
  | x :: a, q, hq => by
    rw [foldl_cons] at hq
    rcases exists_of_foldl_lead hq with h | ⟨h, hm, hd⟩
    · unfold lead at h
      split at h
      · exact .inr ⟨x, mem_cons_self, h⟩
      · exact .inl h
    · exact .inr ⟨h, mem_cons_of_mem x hm, hd⟩

def Guard.counts (k : Kind) (x : Guard) : Bool := x.kind = k && (x.alive || x.timer.isSome)

def Relies (k : Kind) (l : List Guard) : Prop :=
  ∃ x, l.find? (Guard.counts k) = some x ∧ x.timer = none

instance (k : Kind) (l : List Guard) : Decidable (Relies k l) :=
  match h : l.find? (Guard.counts k) with
  | none => isFalse fun ⟨_, hx, _⟩ => by rw [h] at hx; cases hx
  | some x => decidable_of_iff (x.timer = none)
      ⟨fun ht => ⟨x, h, ht⟩, fun ⟨_, hy, ht⟩ => by rw [h] at hy; cases hy; exact ht⟩

theorem Served.of_not_relies : ∀ {l : List Guard} {q q' : Prop}, ¬ Relies k l → Served m k q l → Served m k q' l
  | [], _, _, _, _ => trivial
  | g :: l, q, q', hr, hs => by
    unfold Relies at hr
    by_cases hp : Guard.counts k g = true
    · rw [find?_cons_of_pos hp] at hr
      simp only [Guard.counts, Bool.and_eq_true, decide_eq_true_eq] at hp
      cases ht : g.timer with
      | none => exact absurd ⟨g, rfl, ht⟩ hr
      | some d =>
        refine ⟨fun hk ha => ⟨fun hn => ?_, (hs.1 hk ha).2⟩, ?_⟩
        · rw [ht] at hn
          cases hn
        · rw [lead_holder hp.1 ht]
          exact (lead_holder hp.1 ht : lead m k q g = _) ▸ hs.2
    · rw [find?_cons_of_neg hp] at hr
      simp only [Guard.counts, Bool.and_eq_true, decide_eq_true_eq, Bool.or_eq_true, not_and, not_or] at hp
      refine ⟨fun hk ha => absurd ha (hp hk).1, ?_⟩
      have h2 := hs.2
      exact h2.of_not_relies hr

/-! ## Guards that are changed in place -/

structure Alike (k : Kind) (x x' : Guard) : Prop where
  gp : x'.gp = x.gp
  kind : x'.kind = x.kind
  period : x'.period = x.period
  mode : x'.mode = x.mode
  other : x.kind ≠ k → x' = x

theorem Alike.refl (k : Kind) (x : Guard) : Alike k x x := ⟨rfl, rfl, rfl, rfl, fun _ => rfl⟩

theorem alike_refl (k : Kind) : ∀ l, List.Forall₂ (Alike k) l l
  | [] => .nil
  | x :: l => .cons (.refl k x) (alike_refl k l)

theorem Served.of_alike (hne : k' ≠ k) :
    ∀ {l l' : List Guard} {q : Prop}, List.Forall₂ (Alike k) l l' → Served m k' q l → Served m k' q l'
  | _, _, _, .nil, _ => trivial
  | _, _, q, @List.Forall₂.cons _ _ _ x x' l l' hx hl, hs => by
    by_cases hk : x.kind = k'
    · rw [hx.other (hk ▸ hne)]
      exact ⟨hs.1, hs.2.of_alike hne hl⟩
    have hk' : x'.kind ≠ k' := hx.kind ▸ hk
    refine ⟨fun h => absurd h hk', ?_⟩
    have h2 := hs.2
    rw [lead_other hk] at h2
    rw [lead_other hk']
    exact h2.of_alike hne hl

/-! ## The invariant -/

/-- What is known of every guard by itself: no timer is early, and no guard has been given up early. -/
structure Sound (now m : Nat) (g : Guard) : Prop where
  mode : g.mode = .progressive
  period : g.period < 2 ^ 32
  due : ∀ d, g.timer = some d → now ≤ d ∧ m + g.period ≤ d
  dead : g.alive = false → m + g.period ≤ now

structure Base (s : State) : Prop where
  nodup : (s.list.map (·.gp)).Nodup
  fresh : ∀ g ∈ s.list, g.gp < s.next
  sorted : s.list.Pairwise fun x y => x.period ≤ y.period
  sound : ∀ g ∈ s.list, Sound s.now (s.last g.kind) g
  strays : s.strays = []
  past : ∀ k, s.last k ≤ s.now

structure Inv (s : State) : Prop extends Base s where
  served : ∀ k, Served (s.last k) k False s.list

theorem Inv.init : Inv State.init where
  nodup := nodup_nil
  fresh := nofun
  sorted := .nil
  sound := nofun
  strays := rfl
  past := fun _ => le_refl 0
  served := fun _ => trivial

theorem map_gp_alike : ∀ {l l' : List Guard}, List.Forall₂ (Alike k) l l' → l'.map (·.gp) = l.map (·.gp)
  | _, _, .nil => rfl
  | _, _, .cons hx hl => by rw [map_cons, map_cons, hx.gp, map_gp_alike hl]

theorem alike_mem : ∀ {l l' : List Guard}, List.Forall₂ (Alike k) l l' → ∀ x' ∈ l', ∃ x ∈ l, Alike k x x'
  | _, _, .nil, _, h => absurd h not_mem_nil
  | _, _, @List.Forall₂.cons _ _ _ x _ _ _ hx hl, y, hy => by
    rcases mem_cons.1 hy with rfl | hy
    · exact ⟨x, mem_cons_self, hx⟩
    · obtain ⟨z, hz, ha⟩ := alike_mem hl y hy
      exact ⟨z, mem_cons_of_mem x hz, ha⟩

theorem sorted_alike : ∀ {l l' : List Guard}, List.Forall₂ (Alike k) l l' →
    l.Pairwise (fun x y => x.period ≤ y.period) → l'.Pairwise fun x y => x.period ≤ y.period
  | _, _, .nil, _ => .nil
  | _, _, .cons hx hl, hs => by
    obtain ⟨h1, h2⟩ := pairwise_cons.1 hs
    refine pairwise_cons.2 ⟨fun y hy => ?_, sorted_alike hl h2⟩
    obtain ⟨z, hz, ha⟩ := alike_mem hl y hy
    rw [hx.period, ha.period]
    exact h1 z hz

/-- An operation on one kind that changes guards in place keeps the invariant if it keeps what is particular to the
kind. -/
theorem Base.of_alike (hi : Base s) (hother : ∀ k', k' ≠ k → Served (s.last k') k' False s.list)
    (ha : List.Forall₂ (Alike k) s.list l') (hlast : ∀ k', k' ≠ k → last k' = s.last k') (hle : last k ≤ s.now)
    (hsound : ∀ x ∈ l', x.kind = k → Sound s.now (last k) x) (hserved : Served (last k) k False l') :
    Inv { s with list := l', last } where
  nodup := show (l'.map (·.gp)).Nodup by rw [map_gp_alike ha]; exact hi.nodup
  fresh := by
    intro x hx
    obtain ⟨y, hy, hay⟩ := alike_mem ha x hx
    rw [hay.gp]
    exact hi.fresh y hy
  sorted := sorted_alike ha hi.sorted
  sound := by
    intro x hx
    show Sound s.now (last x.kind) x
    by_cases hk : x.kind = k
    · rw [hk]
      exact hsound x hx hk
    obtain ⟨y, hy, hay⟩ := alike_mem ha x hx
    rw [hlast _ hk]
    obtain rfl := hay.other (hay.kind ▸ hk)
    exact hi.sound _ hy
  strays := hi.strays
  past := by
    intro k'
    show last k' ≤ s.now
    by_cases hk : k' = k
    · exact hk ▸ hle
    · rw [hlast k' hk]
      exact hi.past k'
  served := by
    intro k'
    show Served (last k') k' False l'
    by_cases hk : k' = k
    · exact hk ▸ hserved
    · rw [hlast k' hk]
      exact (hother k' hk).of_alike hk ha

/-! ## Timeouts -/

inductive Walk (k : Kind) (now : Nat) : Nat → List Guard → List Guard → Prop
  | done {prev : Nat} : Walk k now prev [] []
  | pass {prev : Nat} {x : Guard} {l l' : List Guard} : x.kind ≠ k → Walk k now prev l l' →
    Walk k now prev (x :: l) (x :: l')
  | meets {prev : Nat} {x : Guard} {l : List Guard} : x.kind = k → prev < x.period → x.timer.isSome →
    Walk k now prev (x :: l) (x :: l)
  | hands {prev : Nat} {x : Guard} {l : List Guard} : x.kind = k → prev < x.period → x.timer = none →
    Walk k now prev (x :: l) ({ x with timer := some (now + (x.period - prev)) } :: l)
  | kills {prev : Nat} {x : Guard} {l l' : List Guard} : x.kind = k → x.period ≤ prev → Walk k now x.period l l' →
    Walk k now prev (x :: l) ({ x with alive := false } :: l')

/-- **The timer that has elapsed always finds an end**: a guard to go to, one that has a timer of its own, or none. -/
theorem exists_walk (k : Kind) (now : Nat) : ∀ (prev : Nat) (l : List Guard), (∀ x ∈ l, x.mode = .progressive) →
    ∃ l', timeoutWalk rlLivelinessTimeout k .elapsed now prev l = some l' ∧ Walk k now prev l l'
  | prev, [], _ => ⟨[], rfl, .done⟩
  | prev, x :: l, hm => by
    have hml := (forall_mem_cons.1 hm).2
    have hmx := hm x mem_cons_self
    unfold timeoutWalk
    by_cases hk : x.kind = k
    · rw [if_neg (not_not.2 hk)]
      by_cases hp : prev < x.period
      · rw [if_pos hp]
        cases ht : x.timer with
        | some d => exact ⟨_, by simp [hmx], .meets hk hp (by rw [ht]; rfl)⟩
        | none => exact ⟨_, by simp, .hands hk hp ht⟩
      · obtain ⟨r, hr, hw⟩ := exists_walk k now x.period l hml
        rw [if_neg hp, hr]
        exact ⟨_, rfl, .kills hk (Nat.le_of_not_lt hp) hw⟩
    · obtain ⟨r, hr, hw⟩ := exists_walk k now prev l hml
      rw [if_pos hk, hr]
      exact ⟨_, rfl, .pass hk hw⟩

theorem Walk.alike (h : Walk k now prev l l') : List.Forall₂ (Alike k) l l' := by
  induction h with
  | done => exact .nil
  | pass hk _ ih => exact .cons (.refl k _) ih
  | meets hk hp ht => exact alike_refl k _
  | hands hk hp ht => exact .cons ⟨rfl, rfl, rfl, rfl, fun hne => absurd hk hne⟩ (alike_refl k _)
  | kills hk hp _ ih => exact .cons ⟨rfl, rfl, rfl, rfl, fun hne => absurd hk hne⟩ ih

theorem Walk.sound (h : Walk k now prev l l') (hlow : m + prev ≤ now)
    (hs : ∀ x ∈ l, x.kind = k → Sound now m x) : ∀ x ∈ l', x.kind = k → Sound now m x := by
  induction h with
  | done => exact hs
  | pass hk _ ih =>
    intro x hx hxk
    rcases mem_cons.1 hx with rfl | hx
    · exact absurd hxk hk
    · exact ih hlow (forall_mem_cons.1 hs).2 x hx hxk
  | meets hk hp ht => exact hs
  | @hands prev y l hk hp ht =>
    intro x hx hxk
    rcases mem_cons.1 hx with rfl | hx
    · obtain ⟨h1, h2, -, h4⟩ := hs y mem_cons_self hk
      refine ⟨h1, h2, fun d hd => ?_, h4⟩
      cases hd
      show now ≤ now + (y.period - prev) ∧ m + y.period ≤ now + (y.period - prev)
      omega
    · exact hs x (mem_cons_of_mem _ hx) hxk
  | @kills prev y l l' hk hp _ ih =>
    intro x hx hxk
    rcases mem_cons.1 hx with rfl | hx
    · obtain ⟨h1, h2, h3, -⟩ := hs y mem_cons_self hk
      exact ⟨h1, h2, h3, fun _ => show m + y.period ≤ now by omega⟩
    · exact ih (by omega) (forall_mem_cons.1 hs).2 x hx hxk

/-- Whoever was served by the timer that has elapsed is served afterwards, whatever there is before. -/
theorem Walk.served (h : Walk k now prev l l') (hlow : m + prev ≤ now)
    (hge : ∀ x ∈ l, prev ≤ x.period) (hs : ∀ x ∈ l, x.kind = k → Sound now m x) :
    Served m k (now = m + prev) l → ∀ q, Served m k q l' := by
  induction h with
  | done => exact fun _ _ => trivial
  | @pass prev x l l' hk _ ih =>
    rintro ⟨-, h2⟩ q
    rw [lead_other hk] at h2
    refine ⟨fun hxk => absurd hxk hk, ?_⟩
    rw [lead_other hk]
    exact ih hlow (forall_mem_cons.1 hge).2 (forall_mem_cons.1 hs).2 h2 q
  | @meets prev x l hk hp ht =>
    obtain ⟨d, hd⟩ := isSome_iff_exists.1 ht
    rintro ⟨h1, h2⟩ q
    rw [lead_holder hk hd] at h2
    refine ⟨fun hxk ha => ⟨fun hn => ?_, (h1 hxk ha).2⟩, ?_⟩
    · rw [hd] at hn
      cases hn
    · rw [lead_holder hk hd]
      exact h2
  | @hands prev x l hk hp ht =>
    rintro ⟨h1, h2⟩ q
    rw [lead_none ht] at h2
    -- The timer is handed on for the difference of the periods, so it stays exact if it was.
    have hex : now = m + prev → now + (x.period - prev) = m + x.period := by omega
    refine ⟨fun _ ha => ⟨fun hn => ?_, fun d hd _ => ?_⟩, ?_⟩
    · cases hn
    · cases hd
      exact hex ((h1 hk ha).1 ht)
    · rw [lead_holder (g := { x with timer := some (now + (x.period - prev)) }) hk rfl]
      exact h2.mono hex
  | @kills prev x l l' hk hp _ ih =>
    have hpx : x.period = prev := le_antisymm hp (hge x mem_cons_self)
    rintro ⟨-, h2⟩ q
    have h3 : Served m k (now = m + x.period) l := by
      cases ht : x.timer with
      | none =>
        rw [lead_none ht] at h2
        exact hpx ▸ h2
      | some d =>
        rw [lead_holder hk ht] at h2
        -- A timer of the same period that is exact is due now, too.
        refine h2.mono fun hd => ?_
        have := ((hs x mem_cons_self hk).due d ht).1
        omega
    refine ⟨fun _ ha => ?_, ih (by omega) (fun y hy => hpx ▸ hge y (mem_cons_of_mem x hy))
      (forall_mem_cons.1 hs).2 h3 _⟩
    cases ha

theorem Inv.eq_of_gp (hi : Inv s) (hx : x ∈ s.list) (hy : y ∈ s.list) (h : x.gp = y.gp) : x = y :=
  inj_on_of_nodup_map hi.nodup hx hy h

theorem split_at (hm : x ∈ s.list) :
    ∃ g post, s.list.dropWhile (fun y => y.gp ≠ x.gp) = g :: post ∧ g.gp = x.gp ∧
      s.list = s.list.takeWhile (fun y => y.gp ≠ x.gp) ++ g :: post := by
  have hsplit := takeWhile_append_dropWhile (p := fun y : Guard => decide (y.gp ≠ x.gp)) (l := s.list)
  cases hd : s.list.dropWhile fun y => y.gp ≠ x.gp with
  | nil =>
    rw [dropWhile_eq_nil_iff] at hd
    exact absurd rfl (of_decide_eq_true (hd x hm))
  | cons g post =>
    have hg := head?_dropWhile_not (fun y : Guard => decide (y.gp ≠ x.gp)) s.list
    rw [hd] at hsplit
    simp only [hd, head?_cons, decide_eq_false_iff_not, not_not] at hg
    exact ⟨g, post, rfl, hg, hsplit.symm⟩

theorem rlTimeout_spec (hi : Inv s) (hm : x ∈ s.list) :
    ∃ pre post post', s.list = pre ++ x :: post ∧ Walk x.kind s.now x.period post post' ∧
      rlTimeout s x.gp .elapsed = some { s with list := pre ++ { x with alive := false, timer := none } :: post' } := by
  obtain ⟨g, post, hd, hg, hl⟩ := split_at hm
  obtain rfl : g = x := hi.eq_of_gp (hl ▸ mem_append_right _ mem_cons_self) hm hg
  have hmode : ∀ y ∈ s.list, y.mode = .progressive := fun y hy => (hi.sound y hy).mode
  have hpost : ∀ y ∈ post, y.mode = .progressive := by
    intro y hy
    apply hmode
    rw [hl]
    exact mem_append_right _ (mem_cons_of_mem g hy)
  obtain ⟨post', hw, hwalk⟩ := exists_walk g.kind s.now g.period post hpost
  refine ⟨_, post, post', hl, hwalk, ?_⟩
  unfold rlTimeout guardTimeout
  have h1 : g.mode ≠ .periodic := by simp [hmode g hm]
  have h2 : g.mode ≠ .oneShot := by simp [hmode g hm]
  rw [hd]
  simp only [if_neg h1, if_neg h2, hw, map_some]
  rfl

theorem Inv.expire (hi : Inv s) (hm : x ∈ s.list) (ht : x.timer = some s.now)
    (h : rlTimeout s x.gp .elapsed = some s') : Inv s' := by
  obtain ⟨pre, post, post', hl, hw, hr⟩ := rlTimeout_spec hi hm
  obtain rfl := some.inj (hr.symm.trans h)
  have hsound : ∀ y ∈ pre ++ x :: post, Sound s.now (s.last y.kind) y := hl ▸ hi.sound
  have hlow := ((hi.sound x hm).due s.now ht).2
  have hpost : ∀ y ∈ post, y.kind = x.kind → Sound s.now (s.last x.kind) y := fun y hy hk =>
    hk ▸ hsound y (mem_append_right _ (mem_cons_of_mem x hy))
  have hge : ∀ y ∈ post, x.period ≤ y.period := by
    have := hi.sorted
    rw [hl, pairwise_append, pairwise_cons] at this
    exact this.2.1.1
  have halike : List.Forall₂ (Alike x.kind) s.list (pre ++ { x with alive := false, timer := none } :: post') := by
    rw [hl]
    exact rel_append (alike_refl _ pre) (.cons ⟨rfl, rfl, rfl, rfl, fun hne => absurd rfl hne⟩ hw.alike)
  refine hi.toBase.of_alike (fun k' _ => hi.served k') halike (fun _ _ => rfl) (hi.past x.kind) ?_ ?_
  · intro y hy hk
    rcases mem_append.1 hy with hy | hy
    · exact hk ▸ hsound y (mem_append_left _ hy)
    rcases mem_cons.1 hy with rfl | hy
    · obtain ⟨h1, h2, -, -⟩ := hi.sound x hm
      exact ⟨h1, h2, nofun, fun _ => hlow⟩
    · exact hw.sound hlow hpost y hy hk
  · have hs := hi.served x.kind
    rw [hl, served_append] at hs
    obtain ⟨hpre, -, hrest⟩ := hs
    rw [lead_holder rfl ht] at hrest
    refine served_append.2 ⟨hpre, fun _ ha => ?_, hw.served hlow hge hpost hrest _⟩
    cases ha

/-! ## Messages, matches and the clock -/

theorem Inv.tick (hi : Inv s) (h : step s .tick = some s') : Inv s' := by
  simp only [step] at h
  split at h
  · rename_i hq
    cases h
    refine ⟨⟨hi.nodup, hi.fresh, hi.sorted, fun g hg => ?_, hi.strays, fun k => le_succ_of_le (hi.past k)⟩, hi.served⟩
    obtain ⟨h1, h2, h3, h4⟩ := hi.sound g hg
    refine ⟨h1, h2, fun d hd => ⟨?_, (h3 d hd).2⟩, fun ha => le_succ_of_le (h4 ha)⟩
    have hne : d ≠ s.now := fun hdn => hq.1 g hg (hdn ▸ hd)
    exact lt_of_le_of_ne (h3 d hd).1 hne.symm
  · cases h

def heardList (k : Kind) (now : Nat) (seen : Bool) (l : List Guard) : List Guard :=
  (restartWalk rlRestart k 0 now seen l).map fun g => if g.kind = k then { g with heard := true } else g

theorem heardList_cons_other (seen : Bool) (hk : x.kind ≠ k) :
    heardList k now seen (x :: l) = x :: heardList k now seen l := by
  simp [heardList, restartWalk, hk]

theorem heardList_cons (seen : Bool) (hk : x.kind = k) :
    heardList k now seen (x :: l) =
      { x with alive := true, timer := if seen then none else some (now + x.period), heard := true } ::
        heardList k now true l := by
  simp [heardList, restartWalk, hk, rlRestart]

theorem heardList_alike : ∀ (seen : Bool) (l : List Guard), List.Forall₂ (Alike k) l (heardList k now seen l)
  | _, [] => .nil
  | seen, x :: l => by
    by_cases hk : x.kind = k
    · rw [heardList_cons seen hk]
      exact .cons ⟨rfl, rfl, rfl, rfl, fun hne => absurd hk hne⟩ (heardList_alike true l)
    · rw [heardList_cons_other seen hk]
      exact .cons (.refl k x) (heardList_alike seen l)

theorem heardList_sound : ∀ (seen : Bool) (l : List Guard), (∀ x ∈ l, x.mode = .progressive ∧ x.period < 2 ^ 32) →
      ∀ x ∈ heardList k now seen l, x.kind = k → Sound now now x
  | _, [], _, _, hx, _ => absurd hx not_mem_nil
  | seen, y :: l, hs, x, hx, hxk => by
    have hl := (forall_mem_cons.1 hs).2
    by_cases hk : y.kind = k
    · rw [heardList_cons seen hk] at hx
      rcases mem_cons.1 hx with rfl | hx
      · obtain ⟨h1, h2⟩ := hs y mem_cons_self
        refine ⟨h1, h2, fun d hd => ?_, nofun⟩
        cases seen with
        | true => cases hd
        | false =>
          cases hd
          exact ⟨le_add_right _ _, le_refl _⟩
      · exact heardList_sound true l hl x hx hxk
    · rw [heardList_cons_other seen hk] at hx
      rcases mem_cons.1 hx with rfl | hx
      · exact absurd hxk hk
      · exact heardList_sound seen l hl x hx hxk

theorem heardList_served : ∀ (seen : Bool) (l : List Guard), Served now k (seen = true) (heardList k now seen l)
  | _, [] => trivial
  | seen, x :: l => by
    by_cases hk : x.kind = k
    · rw [heardList_cons seen hk]
      cases seen with
      | true =>
        refine ⟨fun _ _ => ⟨fun _ => rfl, nofun⟩, ?_⟩
        rw [lead_none rfl]
        exact heardList_served true l
      | false =>
        refine ⟨fun _ _ => ⟨nofun, fun d hd _ => (some.inj hd).symm⟩, ?_⟩
        show Served now k (lead now k _ { x with alive := true, timer := some (now + x.period), heard := true }) _
        rw [lead_holder (g := { x with alive := true, timer := some (now + x.period), heard := true }) hk rfl]
        exact (heardList_served true l).mono fun _ => rfl
    · rw [heardList_cons_other seen hk]
      refine ⟨fun h => absurd h hk, ?_⟩
      rw [lead_other hk]
      exact heardList_served seen l

theorem Inv.message (hi : Inv s) (k : Kind) : Inv (s.hear k) := by
  refine hi.toBase.of_alike (fun k' _ => hi.served k') (heardList_alike false s.list) (k := k)
    (fun k' hk => update_of_ne hk _ _) ?_ ?_ ?_
  · rw [update_self]
  · rw [update_self]
    exact heardList_sound false s.list fun x hx => ⟨(hi.sound x hx).mode, (hi.sound x hx).period⟩
  · rw [update_self]
    exact (heardList_served false s.list).mono (by simp)

theorem lt_of_mem_dropWhile : ∀ {l : List Guard}, l.Pairwise (fun x y => x.period ≤ y.period) →
    ∀ x ∈ l.dropWhile (fun y => y.period ≤ p), p < x.period
  | [], _, _, hx => absurd hx not_mem_nil
  | y :: l, hs, x, hx => by
    obtain ⟨h1, h2⟩ := pairwise_cons.1 hs
    by_cases hy : y.period ≤ p
    · rw [dropWhile_cons_of_pos (by simpa using hy)] at hx
      exact lt_of_mem_dropWhile h2 x hx
    rw [dropWhile_cons_of_neg (by simpa using hy)] at hx
    rcases mem_cons.1 hx with rfl | hx
    · exact Nat.lt_of_not_le hy
    · exact Nat.lt_of_lt_of_le (Nat.lt_of_not_le hy) (h1 x hx)

theorem le_of_mem_takeWhile (hx : x ∈ l.takeWhile fun y => y.period ≤ p) : x.period ≤ p := by
  have h := mem_takeWhile_imp hx
  exact of_decide_eq_true h

theorem guardAdd_perm (l : List Guard) (g : Guard) : (guardAdd l g).Perm (g :: l) :=
  perm_middle.trans (.cons _ (.of_eq takeWhile_append_dropWhile))

theorem guardAdd_sorted (hs : l.Pairwise fun x y => x.period ≤ y.period) :
    (guardAdd l g).Pairwise fun x y => x.period ≤ y.period := by
  have hs' := hs
  rw [← takeWhile_append_dropWhile (p := fun x : Guard => decide (x.period ≤ g.period)) (l := l),
    pairwise_append] at hs'
  refine pairwise_append.2 ⟨hs'.1, pairwise_cons.2 ⟨fun y hy => ?_, hs'.2.1⟩, fun x hx y hy => ?_⟩
  · exact le_of_lt (lt_of_mem_dropWhile hs y hy)
  · rcases mem_cons.1 hy with rfl | hy
    · exact le_of_mem_takeWhile hx
    · exact hs'.2.2 x hx y hy

def newGuard (s : State) (k : Kind) (p wep rep : Nat) : Guard :=
  ⟨s.next, k, .progressive, p, wep, rep, true, some (s.now + p), false⟩

theorem Inv.add (hi : Inv s) (hp : p < 2 ^ 32) (wep rep : Nat)
    (hr : ¬ Relies k (s.list.dropWhile fun x => x.period ≤ p)) : Inv (rlAddPart s k p rep wep) := by
  have hins : rlAddPart s k p rep wep = { s with
      next := s.next + 1
      list := guardAdd s.list (newGuard s k p wep rep) } := by
    unfold rlAddPart guardInsert
    simp only [reduceCtorEq, if_false, or_true, if_true]
    split <;> rfl
  have hsplit : s.list.takeWhile (fun x => x.period ≤ p) ++ s.list.dropWhile (fun x => x.period ≤ p) = s.list :=
    takeWhile_append_dropWhile
  have hperm := guardAdd_perm s.list (newGuard s k p wep rep)
  have hmem : ∀ x ∈ guardAdd s.list (newGuard s k p wep rep), x = newGuard s k p wep rep ∨ x ∈ s.list :=
    fun x hx => mem_cons.1 (hperm.mem_iff.1 hx)
  rw [hins]
  refine ⟨⟨?_, ?_, ?_, ?_, hi.strays, hi.past⟩, ?_⟩
  · refine ((hperm.map (·.gp)).nodup_iff).2 (nodup_cons.2 ⟨fun hm => ?_, hi.nodup⟩)
    obtain ⟨x, hx, hxg⟩ := mem_map.1 hm
    exact absurd hxg (Nat.ne_of_lt (hi.fresh x hx))
  · intro x hx
    rcases hmem x hx with rfl | hx
    · exact lt_succ_self _
    · exact lt_succ_of_lt (hi.fresh x hx)
  · exact guardAdd_sorted hi.sorted
  · intro x hx
    rcases (hmem x hx).symm with hx | rfl
    · exact hi.sound x hx
    · refine ⟨rfl, hp, fun d hd => ?_, nofun⟩
      cases hd
      exact ⟨Nat.le_add_right _ _, Nat.add_le_add_right (hi.past k) p⟩
  intro k'
  have hs := hi.served k'
  rw [← hsplit, served_append] at hs
  refine served_append.2 ⟨hs.1, fun _ _ => ⟨nofun, nofun⟩, ?_⟩
  by_cases hk : k = k'
  · subst hk
    exact hs.2.of_not_relies hr
  · rw [lead_other (g := newGuard s k p wep rep) hk]
    exact hs.2

/-! ## Unmatches -/

theorem setTimer_split (hn : ((a ++ x :: b).map (·.gp)).Nodup) (t : Option Nat) :
    setTimer (a ++ x :: b) x.gp t = a ++ { x with timer := t } :: b := by
  rw [map_append, map_cons, nodup_append, nodup_cons] at hn
  obtain ⟨-, ⟨hb, -⟩, ha⟩ := hn
  have hsame : ∀ l : List Guard, x.gp ∉ l.map (·.gp) → setTimer l x.gp t = l := by
    intro l hl
    refine (map_congr_left fun y hy => ?_).trans (map_id l)
    have hne : y.gp ≠ x.gp := fun h => hl (h ▸ mem_map_of_mem hy)
    rw [if_neg hne]
    rfl
  have hna : x.gp ∉ a.map (·.gp) := fun hm => ha _ hm _ mem_cons_self rfl
  unfold setTimer at *
  rw [map_append, map_cons, hsame a hna, hsame b hb, if_pos rfl]

theorem Base.remove (hi : Base s) (hl : s.list = pre ++ g :: post) : Base { s with list := pre ++ post } := by
  have hsub : (pre ++ post).Sublist s.list := hl ▸ List.Sublist.append_left (sublist_cons_self g post) pre
  exact ⟨hi.nodup.sublist (hsub.map _), fun x hx => hi.fresh x (hsub.mem hx), hi.sorted.sublist hsub,
    fun x hx => hi.sound x (hsub.mem hx), hi.strays, hi.past⟩

theorem served_remove (hg : ∀ q, lead m k q g = q) (h : Served m k q (pre ++ g :: post)) :
    Served m k q (pre ++ post) := by
  obtain ⟨h1, -, h3⟩ := served_append.1 h
  rw [hg] at h3
  exact served_append.2 ⟨h1, h3⟩

theorem ticks32_of_lt {n : Nat} (h : n < 2 ^ 32) : ticks32 n = n := by
  unfold ticks32
  omega

theorem Base.give (hb : Base { s with list := a ++ x :: b })
    (hother : ∀ k', k' ≠ k → Served (s.last k') k' False (a ++ x :: b)) (ha : ∀ y ∈ a, y.kind ≠ k) (hk : x.kind = k)
    (hd : s.now ≤ d) (hex : x.alive = true → d = s.last k + x.period)
    (hs : Served (s.last k) k (d = s.last k + x.period) b) :
    Inv { s with list := setTimer (a ++ x :: b) x.gp (some d) } := by
  have hsound : ∀ y ∈ a ++ x :: b, Sound s.now (s.last y.kind) y := hb.sound
  rw [setTimer_split hb.nodup]
  have halike : List.Forall₂ (Alike k) (a ++ x :: b) (a ++ { x with timer := some d } :: b) :=
    rel_append (alike_refl k a) (.cons ⟨rfl, rfl, rfl, rfl, fun hne => absurd hk hne⟩ (alike_refl k b))
  refine hb.of_alike hother halike (fun _ _ => rfl) (hb.past k) ?_ ?_
  · intro y hy hyk
    rcases mem_append.1 hy with hy | hy
    · exact absurd hyk (ha y hy)
    rcases mem_cons.1 hy with rfl | hy
    · obtain ⟨h1, h2, -, h4⟩ := hsound x (mem_append_right a mem_cons_self)
      rw [hk] at h4
      refine ⟨h1, h2, fun d' hd' => ?_, h4⟩
      cases hd'
      refine ⟨hd, ?_⟩
      cases hal : x.alive with
      | true => exact (hex hal).ge
      | false => exact (h4 hal).trans hd
    · exact hyk ▸ hsound y (mem_append_right a (mem_cons_of_mem x hy))
  · refine served_append.2 ⟨served_other ha, ?_⟩
    refine ⟨fun _ hal => ⟨nofun, fun d' hd' _ => ?_⟩, ?_⟩
    · cases hd'
      exact hex hal
    · rw [lead_holder (g := { x with timer := some d }) hk rfl]
      exact hs

theorem Inv.pass {pre post : List Guard} {due : Nat} (hi : Inv s) (hl : s.list = pre ++ g :: post) (hg : g.kind = k)
    (hd : g.timer = some due) (hx : guardFirst (pre ++ post) k = some x) (ht : x.timer = none)
    (hok : (∀ y ∈ pre, y.kind ≠ k) ∨ ¬ Relies k post) :
    Inv { s with
      list := setTimer (pre ++ post) x.gp (some (s.now + ticks32 (x.period - g.period + (due - s.now)))) } := by
  have hb := hi.toBase.remove hl
  have hother : ∀ k', k' ≠ k → Served (s.last k') k' False (pre ++ post) := fun k' hk =>
    served_remove (fun _ => lead_other fun h => hk (h.symm.trans hg)) (hl ▸ hi.served k')
  have hs := hi.served k
  rw [hl, served_append] at hs
  obtain ⟨hpre, -, hpost⟩ := hs
  rw [lead_holder hg hd] at hpost
  unfold guardFirst at hx
  rw [find?_append] at hx
  by_cases hnone : ∀ y ∈ pre, y.kind ≠ k
  · -- `g` was the first of the kind, and `x` the next: the time that is left counts on to the period of `x`.
    rw [find?_eq_none.2 (by simpa using hnone), none_or] at hx
    obtain ⟨hxk, a, b, rfl, ha⟩ := find?_eq_some_iff_append.1 hx
    replace hxk : x.kind = k := of_decide_eq_true hxk
    replace ha : ∀ y ∈ a, y.kind ≠ k := fun y hy => by simpa using ha y hy
    obtain ⟨-, hnx, hserved⟩ := served_append.1 hpost
    rw [foldl_lead_other ha] at hnx hserved
    rw [lead_none ht] at hserved
    have hsg := hi.sound g (hl ▸ mem_append_right pre mem_cons_self)
    have hsx := hi.sound x (hl ▸ by simp)
    have hle : g.period ≤ x.period := by
      have := hi.sorted
      rw [hl, pairwise_append, pairwise_cons] at this
      exact this.2.1.1 x (by simp)
    have hexact : due = s.last k + g.period →
        s.now + ticks32 (x.period - g.period + (due - s.now)) = s.last k + x.period := by
      intro hE
      have h1 := (hsg.due due hd).1
      have h2 := hi.past k
      have h3 := hsx.period
      have h4 : (x.period - g.period + (due - s.now) : Int) = ((s.last k + x.period - s.now : Nat) : Int) := by omega
      rw [h4, ticks32_of_lt (by omega)]
      omega
    rw [← append_assoc] at hb hother ⊢
    refine hb.give hother ?_ hxk (le_add_right _ _) (fun hal => hexact ((hnx hxk hal).1 ht)) (hserved.mono hexact)
    intro y hy
    exact (mem_append.1 hy).elim (hnone y) (ha y)
  -- `x` stands before `g`: it has been given up, and nobody relies on `g`.
  have hr := hok.resolve_left hnone
  obtain ⟨y, hy⟩ : ∃ y, pre.find? (fun g => g.kind = k) = some y := by
    rw [← isSome_iff_exists]
    simpa using hnone
  rw [hy] at hx
  obtain rfl := some.inj hx
  obtain ⟨hxk, a, b, rfl, ha⟩ := find?_eq_some_iff_append.1 hy
  replace hxk : y.kind = k := of_decide_eq_true hxk
  replace ha : ∀ z ∈ a, z.kind ≠ k := fun z hz => by simpa using ha z hz
  obtain ⟨-, hny, hserved⟩ := served_append.1 hpre
  rw [foldl_lead_other ha] at hny hserved
  rw [lead_none ht] at hserved
  rw [append_assoc, cons_append] at hb hother ⊢
  refine hb.give hother ha hxk (le_add_right _ _) (fun hal => ((hny hxk hal).1 ht).elim)
    (served_append.2 ⟨hserved.mono False.elim, hpost.of_not_relies hr⟩)

/-! ## Runs -/

/-- The events that keep leases exact.  A new guard comes where nobody behind waits for a timer before it; a guard with
a timer goes if it was first and the next of its kind holds none, or nobody waits for it. -/
def Orderly (s : State) : Event → Prop
  | .matched k p _ _ => ¬ Relies k (s.list.dropWhile fun x => x.period ≤ p.toNat)
  | .unmatched k rep wep =>
    match s.list.dropWhile fun g => !g.joins k wep rep with
    | [] => True
    | gp :: post =>
      let pre := s.list.takeWhile fun g => !g.joins k wep rep
      gp.timer = none ∨ ∀ nx, guardFirst (pre ++ post) k = some nx →
        nx.timer = none ∧ ((∀ y ∈ pre, y.kind ≠ k) ∨ ¬ Relies k post)
  | _ => True

theorem Inv.extract (hi : Inv s) (hok : Orderly s (.unmatched k rep wep)) : Inv (rlRemPart s k rep wep) := by
  have hsplit := takeWhile_append_dropWhile (p := fun g : Guard => !g.joins k wep rep) (l := s.list)
  unfold rlRemPart guardExtract
  simp only [Orderly] at hok
  cases hdw : s.list.dropWhile fun g => !g.joins k wep rep with
  | nil => exact hi
  | cons gp post =>
    rw [hdw] at hok hsplit
    have hj := head?_dropWhile_not (fun g : Guard => !g.joins k wep rep) s.list
    rw [hdw] at hj
    simp only [head?_cons, Bool.not_eq_eq_eq_not, Bool.not_false, Guard.joins, decide_eq_true_eq] at hj
    have hmode := (hi.sound gp (hsplit ▸ mem_append_right _ mem_cons_self)).mode
    cases ht : gp.timer with
    | none =>
      simp only [ht]
      exact ⟨hi.toBase.remove hsplit.symm, fun k' => served_remove (fun _ => lead_none ht) (hsplit.symm ▸ hi.served k')⟩
    | some due =>
      replace hok := hok.resolve_left (by rw [ht]; exact some_ne_none due)
      simp only [ht, hmode, or_true, if_true]
      cases hf : guardFirst (s.list.takeWhile (fun g => !g.joins k wep rep) ++ post) k with
      | none =>
        refine ⟨hi.toBase.remove hsplit.symm, fun k' => ?_⟩
        by_cases hk : k' = k
        · subst hk
          exact served_other fun y hy => by simpa using find?_eq_none.1 hf y hy
        · exact served_remove (fun _ => lead_other fun h => hk (h.symm.trans hj.1)) (hsplit.symm ▸ hi.served k')
      | some nx =>
        obtain ⟨hnt, hor⟩ := hok nx hf
        have := hi.pass hsplit.symm hj.1 ht hf hnt hor
        simp only [hnt, map_none, toList_none, nil_append]
        exact this

theorem Inv.keeps (hi : Inv s) (hok : Orderly s e) (h : step s e = some s') : Inv s' := by
  cases e with
  | tick => exact hi.tick h
  | expire addr =>
    simp only [step] at h
    split at h
    · rename_i hx
      obtain ⟨x, hm, rfl, ht⟩ := hx
      exact hi.expire hm ht h
    · cases h
  | stray due addr =>
    simp only [step] at h
    split at h
    · rename_i hm
      rw [hi.strays] at hm
      exact absurd hm.1 not_mem_nil
    · cases h
  | matched k p rep wep =>
    cases h
    exact hi.add p.toNat_lt wep rep hok
  | unmatched k rep wep =>
    cases h
    exact hi.extract hok
  | message k =>
    cases h
    exact hi.message k

theorem Inv.of_run (hr : Run step Orderly State.init es s) : Inv s :=
  hr.invariant (fun _ s => Inv s) .init fun _ _ _ _ hi hok h => hi.keeps hok h

theorem Inv.not_overdue (hi : Inv s) (hg : g ∈ s.list) (ha : g.alive = true) (hh : g.heard = true) :
    s.now ≤ s.last g.kind + g.period := by
  obtain ⟨pre, post, hl⟩ := append_of_mem hg
  have hs := hi.served g.kind
  rw [hl, served_append] at hs
  obtain ⟨-, hn, -⟩ := hs
  cases ht : g.timer with
  | some d =>
    rw [← (hn rfl ha).2 d ht hh]
    exact ((hi.sound g hg).due d ht).1
  | none =>
    obtain hf | ⟨h, hm, hd⟩ := exists_of_foldl_lead ((hn rfl ha).1 ht)
    · exact hf.elim
    have hmem : h ∈ s.list := hl ▸ mem_append_left _ hm
    have hle : h.period ≤ g.period := by
      have := hi.sorted
      rw [hl, pairwise_append] at this
      exact this.2.2 h hm g mem_cons_self
    have hnow := ((hi.sound h hmem).due _ hd).1
    omega

def dueNow (now : Nat) (l : List Guard) : Nat := l.countP fun g => g.timer = some now

theorem Walk.dueNow_le (h : Walk k now prev l l') : dueNow now l' ≤ dueNow now l := by
  unfold dueNow
  induction h with
  | done => exact le_refl _
  | pass hk _ ih =>
    rw [countP_cons, countP_cons]
    exact Nat.add_le_add_right ih _
  | meets hk hp ht => exact le_refl _
  | @hands prev x l hk hp ht =>
    have hne : some (now + (x.period - prev)) ≠ some now := fun h => by
      have := some.inj h
      omega
    rw [countP_cons_of_neg (by simpa using hne), countP_cons_of_neg (by simp [ht])]
  | kills hk hp _ ih =>
    rw [countP_cons, countP_cons]
    exact Nat.add_le_add_right ih _

/-- **Time goes on**: the timers that are due call back one after the other until none is left. -/
theorem time_goes_on : ∀ (n : Nat) {es : List Event} {s : State}, dueNow s.now s.list ≤ n →
    Run step Orderly State.init es s →
    ∃ more s', (∀ e ∈ more, ∃ addr, e = .expire addr) ∧ Run step Orderly State.init (es ++ more) s' ∧ s'.now = s.now ∧
      (step s' .tick).isSome := by
  intro n es s hn hr
  have hi := Inv.of_run hr
  by_cases hdue : ∃ x ∈ s.list, x.timer = some s.now
  · obtain ⟨x, hm, ht⟩ := hdue
    obtain ⟨pre, post, post', hl, hw, hs⟩ := rlTimeout_spec hi hm
    have hstep : step s (.expire x.gp) =
        some { s with list := pre ++ { x with alive := false, timer := none } :: post' } := by
      simp only [step]
      rw [if_pos ⟨x, hm, rfl, ht⟩, hs]
    have hlt : dueNow s.now (pre ++ { x with alive := false, timer := none } :: post') < dueNow s.now s.list := by
      have hle := hw.dueNow_le
      unfold dueNow at *
      rw [hl, countP_append, countP_append, countP_cons, countP_cons]
      simp only [ht, decide_true, if_true, reduceCtorEq, decide_false, Bool.false_eq_true, if_false]
      omega
    match n with
    | 0 => exact absurd hlt (by omega)
    | n + 1 =>
      obtain ⟨more, s', hmore, hrun, hnow, htick⟩ := time_goes_on n (le_of_lt_succ (lt_of_lt_of_le hlt hn))
        (hr.snoc (show Orderly s (.expire x.gp) from trivial) hstep)
      refine ⟨.expire x.gp :: more, s', fun e he => ?_, ?_, hnow, htick⟩
      · rcases mem_cons.1 he with rfl | he
        · exact ⟨x.gp, rfl⟩
        · exact hmore e he
      · rwa [append_assoc] at hrun
  · refine ⟨[], s, nofun, by rwa [append_nil], rfl, ?_⟩
    simp only [step]
    rw [if_pos ⟨fun g hg ht => hdue ⟨g, hg, ht⟩, fun t ht => absurd (hi.strays ▸ ht) not_mem_nil⟩]
    rfl

/-- **In an orderly run a guard that was there at the last message of its kind is alive until its period has passed, and
changes at that very tick**; and no timer stops the clock. -/
theorem lease_kept {es : List Event} {s : State} (hr : Run step Orderly State.init es s) :
    (∀ g ∈ s.list, g.heard = true →
      (s.now < s.last g.kind + g.period → g.alive = true) ∧ (s.last g.kind + g.period < s.now → g.alive = false)) ∧
    ∃ more s', (∀ e ∈ more, ∃ addr, e = .expire addr) ∧ Run step Orderly State.init (es ++ more) s' ∧ s'.now = s.now ∧
      (step s' .tick).isSome := by
  have hi := Inv.of_run hr
  refine ⟨fun g hg hh => ⟨fun hlt => ?_, fun hlt => ?_⟩, time_goes_on _ (le_refl _) hr⟩
  · cases ha : g.alive with
    | true => rfl
    | false => exact absurd ((hi.sound g hg).dead ha) (Nat.not_le_of_lt hlt)
  · cases ha : g.alive with
    | true => exact absurd (hi.not_overdue hg ha hh) (Nat.not_le_of_lt hlt)
    | false => rfl

instance (s : State) : (e : Event) → Decidable (Orderly s e)
  | .matched k p _ _ => inferInstanceAs (Decidable (¬ Relies k (s.list.dropWhile fun x => x.period ≤ p.toNat)))
  | .unmatched k rep wep =>
    match h : s.list.dropWhile fun g => !g.joins k wep rep with
    | [] => isTrue (by simp only [Orderly, h])
    | gp :: post =>
      decidable_of_iff (gp.timer = none ∨
          ∀ nx ∈ guardFirst (s.list.takeWhile (fun g => !g.joins k wep rep) ++ post) k,
            nx.timer = none ∧ ((∀ y ∈ s.list.takeWhile (fun g : Guard => !g.joins k wep rep), y.kind ≠ k) ∨
              ¬ Relies k post))
        (by simp only [Orderly, h]; rfl)
  | .tick | .expire _ | .stray _ _ | .message _ => isTrue trivial

/-- Four guards hear a message.  The first expires and hands its timer to the second, both are unmatched, which hands
the timer to the third, and that expires too. -/
def handedOn : List Event :=
  [.matched .automatic 2 1 1, .matched .automatic 4 2 1, .matched .automatic 6 3 1, .matched .automatic 8 4 1,
    .message .automatic, .tick, .tick, .expire 0, .tick, .unmatched .automatic 1 1, .unmatched .automatic 2 1, .tick,
    .tick, .tick, .expire 2, .tick]

theorem lease_kept_handed_on : ∃ s, Run step Orderly State.init handedOn s ∧
    s.list.map (fun g => (g.period, g.heard)) = [(6, true), (8, true)] ∧ s.now = 7 ∧ s.last .automatic = 0 ∧
      ∀ g ∈ s.list, g.heard = true → (s.now < s.last g.kind + g.period → g.alive = true) ∧
        (s.last g.kind + g.period < s.now → g.alive = false) :=
  ⟨_, Run.of_isSome, by decide, by decide, by decide, (lease_kept Run.of_isSome).1⟩

/-- **A reader with period 6 is still alive 7 ticks after the last message**: the guard with period 4 was unmatched
while it held the timer, which went back to one that had timed out already, for 2 ^ 32 - 1 ticks. -/
theorem lease_lost_by_unmatch :
    ∃ es s, Run step (fun _ _ => True) State.init es s ∧
      ∃ g ∈ s.list, g.heard = true ∧ g.alive = true ∧ s.last g.kind + g.period < s.now := by
  refine ⟨[.matched .automatic 2 1 1, .matched .automatic 4 2 1, .matched .automatic 6 3 1, .message .automatic, .tick,
    .tick, .expire 0, .tick, .unmatched .automatic 2 1, .tick, .tick, .tick, .tick], _,
    Run.of_isSome, ?_⟩
  decide

end Qeo.Guards
