import Mathlib.Algebra.BigOperators.Group.Finset.Piecewise
import QeoCore.CacheMoves
/-!
# CacheAcks — outstanding acknowledgements (`hc_unacked`)

`c_wack`, a field of 11 bits, says how many acknowledgements a change waits for, and `hc_unacked` how many all of them
do.  A transfer that a local reader refuses is counted in the change alone.

The cache counts changes and acknowledgements as its lists do: each function of the cache on a state that `Acks` tracks
is a step of `Acks`.
-/
namespace Qeo.Cache

open Function

structure Acks where
  cached : Finset Nat
  wack : Nat → Fin 2048
  unacked : Int

/-- A change is added, with what the monitor makes of `c_wack` and how many local readers refuse it; it is acknowledged,
replayed, sent to a newly matched local reader that may refuse it, to be removed, or its lifespan is over; its instance
is freed.  `skipped` says that `hc_wait_acked` does not wait: in a listener, or as `hc_wait_add` gives no waiter. -/
inductive AckEvent where
  | add (u : Nat) (monitored refused : Fin 2048)
  | acknowledged (u : Nat) (sole : Bool)
  | replay (u : Nat) (wack : Fin 2048)
  | matched (u : Nat) (refused : Bool)
  | remove (u : Nat) (skipped : Bool)
  | expire (u : Nat)
  | free (u : Nat)

namespace Acks

def init : Acks := ⟨∅, fun _ => 0, 0⟩

variable (cfg : Config) (s : Acks)

def owed : Int := ∑ u ∈ s.cached, ((s.wack u).val : Int)

def Balanced : Prop := s.unacked = s.owed

def set (u : Nat) (w : Fin 2048) (unacked : Int) : Acks := { s with wack := Function.update s.wack u w, unacked }

def drop (u : Nat) : Acks := { s with cached := s.cached.erase u }

def force (u : Nat) : Acks := { s.drop u with unacked := s.unacked - (s.wack u).val }

def step : AckEvent → Acks
  | .add u monitored refused =>
    if u ∈ s.cached then s
    else
      let w := monitored + refused
      { cached := if cfg.durability || w ≠ 0 then insert u s.cached else s.cached
        wack := Function.update s.wack u w
        unacked := s.unacked + monitored.val }
  | .acknowledged u sole =>
    if u ∈ s.cached then
      let s' := s.set u (s.wack u - 1) (s.unacked - 1)
      if s.wack u - 1 = 0 ∧ (!cfg.durability || sole) then s'.drop u else s'
    else s
  | .replay u w => if u ∈ s.cached then s.set u w (s.unacked + w.val - (s.wack u).val) else s
  | .matched u refused => if u ∈ s.cached ∧ refused then s.set u (s.wack u + 1) s.unacked else s
  | .remove u skipped =>
    if u ∉ s.cached then s
    else if cfg.mustAck then if s.wack u = 0 ∨ skipped then s.drop u else s
    else s.force u
  | .expire u => if u ∉ s.cached ∨ cfg.mustAck ∧ s.wack u ≠ 0 then s else s.force u
  | .free u => if u ∈ s.cached then s.force u else s

/-- The condition on a step: no local reader refuses the change, nothing is acknowledged that is not waited for, and
where nothing is waited for nothing is removed that still has to be acknowledged. -/
def Keeps : AckEvent → Prop
  | .add u _ refused => u ∉ s.cached → refused = 0
  | .acknowledged u _ => u ∈ s.cached → s.wack u ≠ 0
  | .matched u refused => u ∈ s.cached → refused = false
  | .remove u skipped => u ∈ s.cached → cfg.mustAck → skipped → s.wack u = 0
  | _ => True

variable {cfg s} {e : AckEvent} {u : Nat}

theorem owed_of_not_mem (hu : u ∉ s.cached) (w : Fin 2048) :
    ∑ v ∈ s.cached, ((Function.update s.wack u w v).val : Int) = s.owed :=
  Finset.sum_congr rfl fun v hv => by rw [update_of_ne (ne_of_mem_of_not_mem hv hu)]

theorem owed_drop (hu : u ∈ s.cached) : (s.drop u).owed = s.owed - (s.wack u).val := by
  unfold owed
  rw [← Finset.add_sum_erase _ _ hu]
  show ∑ v ∈ s.cached.erase u, ((s.wack v).val : Int) = _
  omega

theorem owed_set (hu : u ∈ s.cached) (w : Fin 2048) (unacked : Int) :
    (s.set u w unacked).owed = s.owed + w.val - (s.wack u).val := by
  have hrest := owed_of_not_mem (s := s.drop u) (Finset.notMem_erase u s.cached) w
  have hdrop := owed_drop hu
  show ∑ v ∈ s.cached, ((Function.update s.wack u w v).val : Int) = _
  rw [← Finset.add_sum_erase _ _ hu, update_self]
  refine (congrArg ((w.val : Int) + ·) hrest).trans ?_
  omega

theorem balanced_set (hb : s.Balanced) (hu : u ∈ s.cached) (w : Fin 2048) (unacked : Int) :
    (s.set u w unacked).Balanced ↔ unacked = s.unacked + w.val - (s.wack u).val := by
  have := owed_set hu w unacked
  unfold Balanced at *
  show unacked = (s.set u w unacked).owed ↔ _
  omega

theorem balanced_drop (hu : u ∈ s.cached) (h0 : s.wack u = 0) : (s.drop u).Balanced ↔ s.Balanced := by
  have := owed_drop hu
  rw [h0] at this
  unfold Balanced
  show s.unacked = (s.drop u).owed ↔ _
  rw [this]
  exact iff_of_eq (congrArg _ (Int.sub_zero _))

theorem not_balanced_drop (hb : s.Balanced) (hu : u ∈ s.cached) (h0 : s.wack u ≠ 0) : ¬ (s.drop u).Balanced := by
  have := owed_drop hu
  have h0 : (s.wack u).val ≠ 0 := fun h => h0 (Fin.ext h)
  unfold Balanced at *
  show ¬ s.unacked = (s.drop u).owed
  omega

theorem balanced_force (hu : u ∈ s.cached) : (s.force u).Balanced ↔ s.Balanced := by
  have := owed_drop hu
  unfold Balanced
  show s.unacked - (s.wack u).val = (s.drop u).owed ↔ _
  omega

theorem balanced_add (hb : s.Balanced) (hu : u ∉ s.cached) (monitored refused : Fin 2048) (kept : Prop) [Decidable kept]
    (hk : ¬ kept → monitored + refused = 0) :
    Balanced ⟨if kept then insert u s.cached else s.cached, Function.update s.wack u (monitored + refused),
      s.unacked + monitored.val⟩ ↔ refused = 0 := by
  have howed : ∑ v ∈ (if kept then insert u s.cached else s.cached),
      ((Function.update s.wack u (monitored + refused) v).val : Int) = s.owed + (monitored + refused).val := by
    split
    · rw [Finset.sum_insert hu, owed_of_not_mem hu, update_self]
      exact Int.add_comm _ _
    · rename_i hno
      rw [owed_of_not_mem hu, hk hno]
      exact (Int.add_zero _).symm
  unfold Balanced at *
  show s.unacked + monitored.val = (∑ v ∈ _, _ : Int) ↔ _
  rw [howed, Fin.val_add, Fin.ext_iff]
  show _ ↔ refused.val = 0
  omega

/-- **A step from balanced counters leaves them balanced exactly under the condition.** -/
theorem balanced_step_iff (hb : s.Balanced) : (s.step cfg e).Balanced ↔ Keeps cfg s e := by
  unfold step Keeps
  cases e with
  | add u monitored refused =>
    dsimp only
    split
    · exact iff_of_true hb fun h => absurd ‹_› h
    · rename_i hu
      rw [imp_iff_right hu]
      exact balanced_add hb hu monitored refused _ (by simp)
  | acknowledged u sole =>
    dsimp only
    split
    · rename_i hu
      have hiff : (s.set u (s.wack u - 1) (s.unacked - 1)).Balanced ↔ s.wack u ≠ 0 := by
        have hval : (s.wack u - 1).val = (2047 + (s.wack u).val) % 2048 := rfl
        rw [balanced_set hb hu, hval, Ne, Fin.ext_iff]
        show _ ↔ ¬ (s.wack u).val = 0
        omega
      rw [imp_iff_right hu, ← hiff]
      split
      · rename_i hz
        exact balanced_drop (s := s.set u _ _) hu ((update_self ..).trans hz.1)
      · rfl
    · exact iff_of_true hb fun h => absurd h ‹_›
  | replay u w =>
    refine iff_of_true ?_ trivial
    dsimp only
    split
    · exact (balanced_set hb ‹_› w _).2 rfl
    · exact hb
  | matched u refused =>
    dsimp only
    split
    · rename_i hu
      have hval : (s.wack u + 1).val = ((s.wack u).val + 1) % 2048 := rfl
      refine iff_of_false ?_ fun h => absurd hu.2 (by simp [h hu.1])
      rw [balanced_set hb hu.1, hval]
      omega
    · rename_i hu
      exact iff_of_true hb fun hc => Bool.eq_false_iff.2 fun hr => hu ⟨hc, hr⟩
  | remove u skipped =>
    dsimp only
    split
    · exact iff_of_true hb fun h => absurd h ‹_›
    rename_i hu
    rw [not_not] at hu
    rw [imp_iff_right hu]
    split
    · rename_i hm
      rw [imp_iff_right hm]
      split
      · rename_i hl
        by_cases h0 : s.wack u = 0
        · exact iff_of_true ((balanced_drop hu h0).2 hb) fun _ => h0
        · exact iff_of_false (not_balanced_drop hb hu h0) fun h => h0 (h (hl.resolve_left h0))
      · rename_i hl
        exact iff_of_true hb fun h => absurd (.inr h) hl
    · exact iff_of_true ((balanced_force hu).2 hb) fun h => absurd h ‹_›
  | expire u =>
    refine iff_of_true ?_ trivial
    dsimp only
    split
    · exact hb
    · rename_i hu
      exact (balanced_force (not_not.1 (not_or.1 hu).1)).2 hb
  | free u =>
    refine iff_of_true ?_ trivial
    dsimp only
    split
    · exact (balanced_force ‹_›).2 hb
    · exact hb

end Acks

/-- **The counters are balanced in every state of a run exactly if every step meets the condition.** -/
theorem acks_balanced_iff (cfg : Config) (es : List AckEvent) :
    (∀ pre post, es = pre ++ post → (pre.foldl (Acks.step cfg) Acks.init).Balanced) ↔
      ∀ pre e post, es = pre ++ e :: post → Acks.Keeps cfg (pre.foldl (Acks.step cfg) Acks.init) e := by
  constructor
  · intro hall pre e post heq
    have hnext := hall (pre ++ [e]) post (by simp [heq])
    rw [List.foldl_concat] at hnext
    exact (Acks.balanced_step_iff (hall pre _ heq)).1 hnext
  intro hkeep pre
  induction pre using List.reverseRecOn with
  | nil => exact fun _ _ => rfl
  | append_singleton pre e ih =>
    intro post heq
    rw [List.append_assoc] at heq
    rw [List.foldl_concat]
    exact (Acks.balanced_step_iff (ih _ heq)).2 (hkeep pre e post heq)

def keepAllWriter : Config :=
  hcNew { Qos.keepLast with keepAll := true, durability := true, autoDisp := false } true false true false

/-- **A change that a local reader refuses waits for an acknowledgement that is not counted.** -/
theorem refused_not_counted : ¬ ([AckEvent.add 0 0 1].foldl (Acks.step keepAllWriter) Acks.init).Balanced :=
  fun h => absurd (show (0 : Int) = 1 from h) (by decide)

/-! ## The cache itself -/

/-- The counters are about the changes of the cache, each with its `c_wack`. -/
structure Tracks (s : State) (a : Acks) : Prop where
  cached : ∀ u, u ∈ a.cached ↔ ∃ c ∈ s.changes, c.uid = u
  wack : ∀ u ∈ a.cached, (a.wack u).val = s.wack u

theorem ackTarget_mem (h : ackTarget l sn = some c) : c ∈ l := by
  unfold ackTarget at h
  split at h
  · rename_i hf _
    split at h
    · split at h
      · exact Option.some.inj h ▸ List.mem_of_mem_head? hf
      · cases h
    · split at h
      · cases h
      · exact List.mem_of_find?_eq_some h
  · cases h

theorem inst?_modify (s : State) (h : Nat) (f : Instance → Instance) (hf : ∀ i, (f i).handle = i.handle) :
    (s.modify h f).inst? h = (s.inst? h).map f := by
  have hp : (fun i : Instance => decide (i.handle = h)) ∘ (fun i => if i.handle = h then f i else i) =
      fun i => decide (i.handle = h) := by
    funext i
    by_cases hi : i.handle = h <;> simp [hi, hf]
  unfold State.inst? State.modify
  dsimp only
  rw [List.find?_map, hp]
  cases hi : s.instances.find? fun i => decide (i.handle = h) with
  | none => rfl
  | some i => exact congrArg some (if_pos (by simpa using List.find?_some hi))

theorem listOf_setWait (s : State) (ip : Option Nat) (b : Bool) : (s.setWait ip b).listOf ip = s.listOf ip := by
  cases ip with
  | none => rfl
  | some h =>
    have hi := inst?_modify s h (fun i => { i with wait := b }) fun _ => rfl
    unfold State.setWait State.listOf
    dsimp only
    rw [hi]
    cases s.inst? h <;> rfl

theorem mem_listOf_enqueue (hip : ∀ h, ip = some h → (s.inst? h).isSome) : c ∈ (enqueue cfg env s ip c).listOf ip := by
  cases ip with
  | none => exact mem_ccrefAdd.2 (.inl rfl)
  | some h =>
    obtain ⟨i, hi⟩ := Option.isSome_iff_exists.1 (hip h rfl)
    let f (i : Instance) : Instance := { i with list := ccrefAdd cfg.srcTime i.list c }
    have hj : (enqueue cfg env s (some h) c).inst? h = some (f i) :=
      (inst?_modify _ h f fun _ => rfl).trans (congrArg (Option.map f) hi)
    rw [listOf_some hj]
    exact mem_ccrefAdd.2 (.inl rfl)

namespace Tracks

variable {cfg : Config} {s t : State} {a b : Acks} {ip : Option Nat} {c : Change}

/-- One change has left both, and the others have kept what they wait for. -/
theorem of_drop (h : Tracks s a) (hc : t.changes = dropRef c.uid s.changes) (hw : ∀ u, u ≠ c.uid → t.wack u = s.wack u)
    (hb : b.cached = a.cached.erase c.uid) (hv : ∀ u, u ≠ c.uid → b.wack u = a.wack u) : Tracks t b := by
  constructor
  · intro u
    rw [hb, Finset.mem_erase, h.cached, hc]
    constructor
    · rintro ⟨hne, d, hd, rfl⟩
      exact ⟨d, List.mem_filter.2 ⟨hd, decide_eq_true hne⟩, rfl⟩
    · rintro ⟨d, hd, rfl⟩
      obtain ⟨hd, hne⟩ := List.mem_filter.1 hd
      exact ⟨of_decide_eq_true hne, d, hd, rfl⟩
  · intro u hu
    rw [hb, Finset.mem_erase] at hu
    rw [hv u hu.1, hw u hu.1]
    exact h.wack u hu.2

theorem congr (h : Tracks s a) (hc : ∀ c, c ∈ t.changes ↔ c ∈ s.changes) (hw : t.wack = s.wack) : Tracks t a := by
  refine ⟨fun u => (h.cached u).trans ?_, fun u hu => (h.wack u hu).trans (congrFun hw u).symm⟩
  exact exists_congr fun c => and_congr_left fun _ => (hc c).symm

theorem set (h : Tracks s a) (hv : w.val = n) (unacked : Int) :
    Tracks { s with wack := Function.update s.wack u n } (a.set u w unacked) := by
  refine ⟨h.cached, fun v hx => ?_⟩
  show (Function.update a.wack u w v).val = Function.update s.wack u n v
  by_cases hvu : v = u
  · rw [hvu, update_self, update_self, hv]
  · rw [update_of_ne hvu, update_of_ne hvu, h.wack v hx]

theorem unlink (h : Tracks s a) (hc : c ∈ s.listOf ip) (hb : b.cached = a.cached.erase c.uid) (hv : b.wack = a.wack) :
    Tracks (s.unlink ip c) b := by
  unfold State.unlink
  cases ip with
  | none => exact h.of_drop rfl (fun _ _ => rfl) hb fun u _ => congrFun hv u
  | some n =>
    dsimp only
    rw [if_pos (List.any_eq_true.2 ⟨c, hc, decide_eq_true rfl⟩)]
    exact h.of_drop rfl (fun _ _ => rfl) hb fun u _ => congrFun hv u

/-- An instance without changes takes none with it. -/
theorem freeEmpty (h : Tracks s a) (hi : s.inst? x = some i) (hl : i.list = []) : Tracks (hcFreeInstance s x) a := by
  unfold hcFreeInstance
  rw [hi]
  exact h.congr (fun c => by simp [hl]) rfl

theorem sweep (h : Tracks s a) (ip : Option Nat) : Tracks (s.sweep ip) a := by
  unfold State.sweep
  split
  · exact h
  split
  · rename_i hi
    split
    · rename_i hx
      simp only [Bool.and_eq_true, List.isEmpty_iff] at hx
      exact h.freeEmpty hi hx.1.1.2
    · exact h
  · exact h

theorem remove (h : Tracks s a) (hw : cfg.writer = true) (hc : c ∈ s.listOf ip) (hm : c ∈ s.changes) (rel : Bool) :
    Tracks (hcRemoveI cfg ⟨[], false⟩ s ip c rel).1 (a.step cfg (.remove c.uid true)) := by
  have hu : c.uid ∈ a.cached := (h.cached _).2 ⟨c, hm, rfl⟩
  have hdrop : (a.step cfg (.remove c.uid true)).cached = a.cached.erase c.uid ∧
      (a.step cfg (.remove c.uid true)).wack = a.wack := by
    rw [Acks.step, if_neg (not_not.2 hu)]
    split
    · rw [if_pos (.inr rfl)]
      exact ⟨rfl, rfl⟩
    · exact ⟨rfl, rfl⟩
  unfold hcRemoveI
  split
  · split
    · have hs : Tracks ((s.setWait ip true).setWait ip false) a := h.congr (fun c => by cases ip <;> rfl)
        (by cases ip <;> rfl)
      exact hs.unlink (by rwa [listOf_setWait, listOf_setWait]) hdrop.1 hdrop.2
    · rw [hw]
      exact h.unlink hc hdrop.1 hdrop.2
  · exact h.unlink hc hdrop.1 hdrop.2

theorem acknowledged (h : Tracks s a) (hl : ∀ c ∈ s.listOf ip, c ∈ s.changes)
    (hc : ackTarget (s.listOf ip) sn = some c) :
    Tracks (hcAcknowledged cfg s ip sn)
      (a.step cfg (.acknowledged c.uid (c.kind.unregistered && (s.listOf ip).length == 1))) := by
  have hmem : c ∈ s.listOf ip := ackTarget_mem hc
  have hu : c.uid ∈ a.cached := (h.cached _).2 ⟨c, hl c hmem, rfl⟩
  have hdec : (a.wack c.uid - 1).val = decWack (s.wack c.uid) := by
    rw [← h.wack _ hu, decWack, Nat.add_comm]
    rfl
  have hset := h.set (u := c.uid) hdec (a.unacked - 1)
  unfold hcAcknowledged
  rw [hc, Acks.step, if_pos hu]
  dsimp only
  split
  · rename_i hne
    rw [if_neg fun hz => hne (hdec.symm.trans (congrArg Fin.val hz.1))]
    exact hset
  · rename_i hz
    rw [not_not, ← hdec] at hz
    refine Tracks.sweep ?_ ip
    split
    · rename_i hd
      rw [if_pos ⟨Fin.ext hz, hd⟩]
      exact hset.unlink hmem rfl rfl
    · rename_i hd
      rw [if_neg fun hx => hd hx.2]
      exact hset

theorem add (h : Tracks s a) (hw : cfg.writer = true) (hnew : ∀ d ∈ s.changes, d.uid ≠ c.uid)
    (hip : ∀ h, ip = some h → (s.inst? h).isSome)
    (hacks : (monitored + refused : Fin 2048).val = if s.monitor || s.readers then env.acks % 2048 else 0) :
    Tracks (hcAddI cfg env s ip c) (a.step cfg (.add c.uid monitored refused)) := by
  have hu : c.uid ∉ a.cached := fun hu => by
    obtain ⟨d, hd, he⟩ := (h.cached _).1 hu
    exact hnew d hd he
  have hchanges : (enqueue cfg env s ip c).changes = ccrefAdd cfg.srcTime s.changes c := by cases ip <;> rfl
  have hwack : (enqueue cfg env s ip c).wack = Function.update s.wack c.uid (monitored + refused).val := by
    rw [hacks]
    cases ip <;> rfl
  have henq : Tracks (enqueue cfg env s ip c)
      ⟨insert c.uid a.cached, Function.update a.wack c.uid (monitored + refused), a.unacked + monitored.val⟩ := by
    constructor
    · intro u
      rw [Finset.mem_insert, h.cached, hchanges]
      simp [mem_ccrefAdd, eq_comm]
    · intro u hx
      rw [hwack]
      by_cases huc : u = c.uid
      · simp [huc]
      · simpa [huc] using h.wack u ((Finset.mem_insert.1 hx).resolve_left huc)
  rw [Acks.step, if_neg hu]
  unfold hcAddI
  dsimp only
  rw [hwack, update_self, hw]
  split
  · rename_i hk
    simp only [Bool.true_and, Bool.and_eq_true, Bool.not_eq_true', beq_iff_eq] at hk
    have hz : monitored + refused = 0 := Fin.ext hk.2
    rw [if_neg (by simp [hk.1, hz])]
    have hun := henq.unlink (mem_listOf_enqueue hip)
      (b := ⟨a.cached, Function.update a.wack c.uid (monitored + refused), a.unacked + monitored.val⟩)
      (Finset.erase_insert hu).symm rfl
    split
    · split
      · split
        · rename_i hi hx
          simp only [Bool.and_eq_true, List.isEmpty_iff] at hx
          exact hun.freeEmpty hi hx.2
        · exact hun
      · exact hun
    · exact hun
  · rename_i hk
    have hkept : (cfg.durability || decide (monitored + refused ≠ 0)) = true := by
      by_contra hn
      simp only [Bool.or_eq_true, decide_eq_true_eq, not_or, not_not, Bool.not_eq_true] at hn
      exact hk (by rw [hn.1, hn.2]; rfl)
    rw [if_pos hkept]
    exact henq

end Tracks

end Qeo.Cache
