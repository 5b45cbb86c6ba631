import QeoCore.DirectoryLookup
import QeoCore.Trace
/-!
# DirectoryRun — the directory is a map in every run

While every addition fits (`Fits`) the directory is a map from keys and from handles to live instances.  Otherwise a
lookup may hand out the instance of another key: the head of a chain of colliding hashes (`lookup_other_key`).
-/
namespace Qeo.Directory

open Option Trace

def Fits (cfg : Config) (s : State) (e : Event cfg) : Prop :=
  match e.request? with
  | none => True
  | some (k, m) => RequestFits cfg s k m

instance (cfg : Config) (s : State) (e : Event cfg) : Decidable (Fits cfg s e) :=
  match h : e.request? with
  | none => .isTrue (by rw [Fits, h]; trivial)
  | some (k, m) => decidable_of_iff (RequestFits cfg s k m) (by rw [Fits, h])

def Tuned (mem mem' : Mem) : Prop :=
  ∀ a, (mem' a).map (fun ip => (ip.next, ip.entry)) = (mem a).map fun ip => (ip.next, ip.entry)

def SameAnswer (m : Mode) (a b : Answer) : Prop :=
  a.inst = b.inst ∧ a.handle = b.handle ∧ (m.adds = true → a.cause = b.cause)

section
variable {cfg : Config} {s : State}

/-! ## Steps -/

theorem tuned_update (a : Nat) (hn : ∀ ip, (f ip).next = ip.next)
    (he : ∀ ip, (f ip).entry = ip.entry) : Tuned mem (Function.update mem a ((mem a).map f)) := by
  intro b
  by_cases hb : b = a
  · subst hb
    rw [Function.update_self, map_map]
    congr 1
    funext ip
    rw [Function.comp_apply, hn, he]
  · rw [Function.update_of_ne hb]

theorem Tuned.view_eq (h : Tuned mem mem') : view mem' = view mem := by
  funext a
  have := congrArg (Option.map Prod.snd) (h a)
  rw [map_map, map_map] at this
  exact this

theorem Tuned.next_eq (h : Tuned mem mem') (a : Nat) : (mem' a).map links.next = (mem a).map links.next := by
  have := congrArg (Option.map Prod.fst) (h a)
  rw [map_map, map_map] at this
  exact this

theorem Holds.tuned (ht : Tuned mem mem') (h : Holds mem nodes n rep) : Holds mem' nodes n rep := by
  cases rep with
  | list head tail =>
    obtain ⟨l, hC, hl, hn⟩ := h
    refine ⟨l, ⟨hC.seg.frame fun a _ => ht.next_eq a, hC.tail, hC.nodup⟩, ?_, hn⟩
    rw [ht.view_eq]
    exact hl
  | skip hashes handles =>
    obtain ⟨hI, hU, hn⟩ := h
    refine ⟨?_, fun a ip ha hip => ?_, hn⟩
    · rw [ht.view_eq]
      exact hI
    have hnext := ht.next_eq a
    rw [hip] at hnext
    obtain ⟨jp, hjp, heq⟩ := map_eq_some_iff.1 hnext.symm
    rw [ht.view_eq] at ha
    exact heq.symm.trans (hU a jp ha hjp)

theorem WF.tuned (hW : WF cfg s) (ht : Tuned s.mem mem') (n d : Nat) :
    WF cfg { s with mem := mem', nchanges := n, ndata := d } where
  map := by
    rw [ht.view_eq]
    exact hW.map
  holds := hW.holds.tuned ht

theorem tuned_markRegistered (s : State) (a : Option Nat) : Tuned s.mem (s.markRegistered a).mem := by
  cases a with
  | none => exact fun _ => rfl
  | some a => exact tuned_update a (fun _ => rfl) fun _ => rfl

theorem WF.markRegistered (hW : WF cfg s) (a : Option Nat) : WF cfg (s.markRegistered a) := by
  have ht := tuned_markRegistered s a
  cases a with
  | none => exact hW
  | some a => exact hW.tuned ht s.nchanges s.ndata

theorem WF.call_request (hW : WF cfg s) (he : e.request? = some (k, m)) (hF : Fits cfg s e) :
    ∃ s' ans, call cfg s e = some (s', some ans) ∧ WF cfg s' ∧ Served cfg s k m (view s'.mem) ans := by
  have hF' : RequestFits cfg s k m := by
    rw [Fits, he] at hF
    exact hF
  obtain ⟨t, ans, ht, hWt, hS⟩ := hW.getInstanceKey hF'
  cases e with
  | register k' =>
    cases he
    refine ⟨t.markRegistered ans.inst, ans, ?_, hWt.markRegistered _, ?_⟩
    · rw [call, ht, map_some]
    · rw [(tuned_markRegistered t ans.inst).view_eq]
      exact hS
  | lookupKey k' | lookupHash k' m' =>
    cases he
    exact ⟨t, ans, by rw [call, ht, map_some], hWt, hS⟩
  | instFree x => cases he
  | samples a info n d => cases he
  | enterWalk => cases he
  | leaveWalk => cases he

/-- **Every event that fits keeps the directory well-formed.** -/
theorem WF.step (hW : WF cfg s) (hF : Fits cfg s e) (h : step cfg s e = some s') : WF cfg s' := by
  obtain ⟨r, hr, rfl⟩ := map_eq_some_iff.1 h
  cases hreq : e.request? with
  | some p =>
    obtain ⟨t, ans, ht, hWt, _⟩ := hW.call_request (k := p.1) (m := p.2) hreq hF
    rw [hr] at ht
    cases ht
    exact hWt
  | none =>
    cases e with
    | register k => cases hreq
    | lookupKey k => cases hreq
    | lookupHash k m => cases hreq
    | instFree x =>
      obtain ⟨t, ht, hf⟩ := hW.instFree x
      rw [call, ht] at hr
      cases hr
      exact hf.1
    | samples a info n d =>
      cases hr
      exact hW.tuned (tuned_update a (f := fun ip => { ip with info := info }) (fun _ => rfl) fun _ => rfl) n d
    | enterWalk =>
      rw [call] at hr
      split at hr
      · cases hr
        exact hW
      split at hr
      · cases hr
      · cases hr
        exact ⟨hW.map, hW.holds⟩
    | leaveWalk =>
      rw [call] at hr
      split at hr
      · cases hr
        exact hW
      rename_i hashes handles hrep
      split at hr
      · cases hr
        exact hW
      have hW' : WF cfg { s with slWalk := s.slWalk - 1 } := ⟨hW.map, hW.holds⟩
      dsimp only at hr
      split at hr
      · obtain ⟨t, ht, hWt, _⟩ := hW'.convertToShort hrep
        rw [ht] at hr
        cases hr
        exact hWt
      · cases hr
        exact hW'

theorem wf_of_run (h : Run (step cfg) (Fits cfg) State.init es s) : WF cfg s :=
  Run.invariant (fun _ s => WF cfg s) (wf_init cfg) (fun _ _ _ _ hW hF hs => hW.step hF hs) h

/-! ## Answers -/

theorem WF.same_answer (hW : WF cfg s) (ha : Served cfg s k m d a) (hb : Served cfg s k m d' b)
    (hnext : Absent cfg (view s.mem) k → m.add = .newH → s.recycle = false ∧ s.lastHandle < maxInstHandle) :
    SameAnswer m a b := by
  have hpresent : ∀ {a ip}, s.mem a = some ip → cfg.keyBytes ip = k.bytes → ¬ Absent cfg (view s.mem) k :=
    fun h hk habs => habs _ _ (view_some h) hk
  cases ha with
  | found h1 hk1 =>
    cases hb with
    | found h2 hk2 =>
      obtain rfl := hW.map.one_key k.bytes _ _ _ _ h1 h2 (beq_iff_eq.2 hk1) (beq_iff_eq.2 hk2)
      rw [h1] at h2
      cases h2
      exact ⟨rfl, rfl, fun _ => rfl⟩
    | missing hk | limit hk | full hk | created hk => exact absurd hk (hpresent h1 hk1)
  | missing hk1 hm1 hi1 hh1 =>
    cases hb with
    | found h2 hk2 => exact absurd hk1 (hpresent h2 hk2)
    | missing _ _ hi2 hh2 => exact ⟨hi1.trans hi2.symm, hh1.trans hh2.symm, fun hm => absurd (hm1.symm.trans hm)
        (by simp)⟩
    | limit _ hm | full _ hm | created _ hm => exact absurd (hm1.symm.trans hm) (by simp)
  | limit hk1 hm1 hl1 =>
    cases hb with
    | found h2 hk2 => exact absurd hk1 (hpresent h2 hk2)
    | missing _ hm => exact absurd (hm.symm.trans hm1) (by simp)
    | limit => exact ⟨rfl, rfl, fun _ => rfl⟩
    | full _ _ hl | created _ _ hl => exact absurd (hl.symm.trans hl1) (by simp)
  | full hk1 hm1 hl1 hf1 =>
    cases hb with
    | found h2 hk2 => exact absurd hk1 (hpresent h2 hk2)
    | missing _ hm => exact absurd (hm.symm.trans hm1) (by simp)
    | limit _ _ hl => exact absurd (hl1.symm.trans hl) (by simp)
    | full => exact ⟨rfl, rfl, fun _ => rfl⟩
    | created _ _ _ hf => exact absurd (hf.symm.trans hf1) (by simp)
  | created hk1 hm1 hl1 hf1 _ _ hx1 =>
    cases hb with
    | found h2 hk2 => exact absurd hk1 (hpresent h2 hk2)
    | missing _ hm => exact absurd (hm.symm.trans hm1) (by simp)
    | limit _ _ hl => exact absurd (hl1.symm.trans hl) (by simp)
    | full _ _ _ hf => exact absurd (hf1.symm.trans hf) (by simp)
    | created _ _ _ _ _ _ hx2 =>
      refine ⟨rfl, ?_, fun _ => rfl⟩
      cases hadd : m.add with
      | lookup => exact absurd hadd (adds_iff.1 hm1)
      | setH y => exact (hx1.set y hadd).trans (hx2.set y hadd).symm
      | newH =>
        obtain ⟨hrec, hlt⟩ := hnext hk1 hadd
        exact (hx1.next hadd hrec hlt).trans (hx2.next hadd hrec hlt).symm

theorem WF.counts (hW : WF cfg s) (hF : RequestFits cfg s k m) (hs : s.rep.isSkip = true)
    (hk : Absent cfg (view s.mem) k) (hn : m.add = .newH) : s.recycle = false ∧ s.lastHandle < maxInstHandle := by
  have hm : m.adds = true := adds_iff.2 (by rw [hn]; exact Add.noConfusion)
  have hl : s.long = true := by rw [State.long, hs, Bool.true_or]
  have hh := (hF hm).resolve_left (by
    rintro ⟨ip, hip, heq⟩
    obtain ⟨a, ha⟩ := hW.mem_insts.1 hip
    exact hk a ip.entry (view_some ha) heq)
  obtain ⟨hrec, hlt⟩ := (small_of_fits hh.1 hl).next hn
  refine ⟨hrec, UInt32.lt_iff_toNat_lt.2 ?_⟩
  show s.lastHandle.toNat < 4294967295
  omega

theorem WF.alike_answer (hs : WF cfg s) (ht : WF cfg t) (hA : Alike s t) (hrep : s.rep.isSkip ≠ t.rep.isSkip)
    (he : e.request? = some (k, m)) (hFs : Fits cfg s e) (hFt : Fits cfg t e)
    (ha : call cfg s e = some (s', some a)) (hb : call cfg t e = some (t', some b)) :
    SameAnswer m a b := by
  obtain ⟨s1, a1, hcs, _, hSs⟩ := hs.call_request he hFs
  obtain ⟨t1, b1, hct, _, hSt⟩ := ht.call_request he hFt
  rw [ha] at hcs
  cases hcs
  rw [hb] at hct
  cases hct
  rw [Fits, he] at hFs hFt
  apply hs.same_answer hSs (hA.served hSt)
  intro hk hn
  cases hskip : s.rep.isSkip with
  | true => exact hs.counts hFs hskip hk hn
  | false =>
    rw [hskip] at hrep
    have hskip' : t.rep.isSkip = true := Bool.not_eq_false _ ▸ hrep.symm
    obtain ⟨hrec, hlt⟩ := ht.counts hFt hskip' (hA.view_eq.symm ▸ hk) hn
    exact ⟨hA.recycle.symm.trans hrec, hA.lastHandle ▸ hlt⟩

/-- **In every run whose additions fit, the directory is a map**: keys and handles are not shared, requests are served
from the live instances, a freed handle takes out its instance alone, and a list answers as skiplists do. -/
theorem isMap_of_run {cfg : Config} {es : List (Event cfg)} {s : State}
    (h : Run (step cfg) (Fits cfg) State.init es s) :
    IsMap cfg (view s.mem) s.fresh ∧
    (∀ (e : Event cfg) (k : Key cfg) (m : Mode), e.request? = some (k, m) → Fits cfg s e →
      ∃ s' ans, call cfg s e = some (s', some ans) ∧ Served cfg s k m (view s'.mem) ans) ∧
    (∀ x : Handle, ∃ s', call cfg s (.instFree x) = some (s', none) ∧ view s'.mem = (view s.mem).free x) ∧
    ∀ (es' : List (Event cfg)) (t : State), Run (step cfg) (Fits cfg) State.init es' t → Alike s t →
      s.rep.isSkip ≠ t.rep.isSkip → ∀ (e : Event cfg) (k : Key cfg) (m : Mode), e.request? = some (k, m) →
      Fits cfg s e → Fits cfg t e → ∀ (s' t' : State) (a b : Answer), call cfg s e = some (s', some a) →
      call cfg t e = some (t', some b) → SameAnswer m a b := by
  have hW := wf_of_run h
  refine ⟨hW.map, fun e k m he hF => ?_, fun x => ?_, fun es' t ht hA hrep e k m he hFs hFt s' t' a b ha hb => ?_⟩
  · obtain ⟨s', ans, hcall, _, hS⟩ := hW.call_request he hF
    exact ⟨s', ans, hcall, hS⟩
  · obtain ⟨s', hs', hf⟩ := hW.instFree x
    exact ⟨s', by rw [call, hs', map_some], hf.2.1⟩
  · exact hW.alike_answer (wf_of_run ht) hA hrep he hFs hFt ha hb

end

/-! ## Thirteen keys -/

def longKeys (hash : List Octet → KeyHash) : Config where
  keySize := 0
  secureH := false
  writer := true
  mustAck := false
  maxDepth := 1
  maxSamples := 100
  maxInst := 100
  hash := hash
  level := fun n => n % 3

def oneOctet (hash : List Octet → KeyHash) (n : Octet) : Key (longKeys hash) where
  bytes := [n]
  nonempty := List.cons_ne_nil _ _
  sized := fun h => Bool.noConfusion (show false = true from h)

def registrations (hash : List Octet → KeyHash) (n : Nat) : List (Event (longKeys hash)) :=
  (List.range n).map fun i => .register (oneOctet hash (UInt8.ofNat i).toFin)

def padded (key : List Octet) : KeyHash := (key ++ List.replicate 16 Octet.zero).take 16

def constant (_ : List Octet) : KeyHash := List.replicate 16 Octet.zero

def collideAll : Config := longKeys constant

theorem thirteen_fit :
    (exec (step (longKeys padded)) (Fits (longKeys padded)) State.init (registrations padded 13)).isSome := by
  decide +kernel

theorem isMap_thirteen_keys :
    ∃ s, Run (step (longKeys padded)) (Fits (longKeys padded)) State.init (registrations padded 13) s ∧
      s.rep.isSkip = true ∧ IsMap (longKeys padded) (view s.mem) s.fresh :=
  ⟨_, Run.of_isSome thirteen_fit, by decide +kernel, (isMap_of_run (Run.of_isSome thirteen_fit)).1⟩

theorem thirteen_collide :
    (exec (step collideAll) (fun _ _ => True) State.init (registrations constant 13)).isSome := by
  decide +kernel

/-- Thirteen keys with one hash: the lookup of the first one answers with the instance of the last. -/
theorem lookup_other_key :
    ∃ es s a b, Run (step collideAll) (fun _ _ => True) State.init es s ∧
      (s.mem a).map collideAll.keyBytes = some (oneOctet constant 0).bytes ∧ b ≠ a ∧
      (s.getInstanceKey collideAll (oneOctet constant 0) lookupMode).map (fun r => r.2.inst) = some (some b) :=
  ⟨registrations constant 13, _, 0, 12, Run.of_isSome thirteen_collide, by decide +kernel, by decide,
    by decide +kernel⟩

end Qeo.Directory
