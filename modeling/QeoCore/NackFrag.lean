import QeoCore.Frag
import QeoCore.Sfrr
import QeoCore.StateAt
/-!
# NackFrag — the fragments a reader asks for (rtps_sfrr.c)

`sfr_rel_hbfrag` answers a HEARTBEATFRAG with NACKFRAGs, 256 fragments to a message.  The message after the loop counts
fragments from 1, those within the loop from 0 and without their last bit.
-/
namespace Qeo.Rtps

open List Nat Ccref

structure HeartbeatFragSMsg where
  writerSn : Int
  lastFrag : Nat
  count : Nat

structure NackFrag where
  base : Nat
  numbits : Nat
  bitmap : List Bool

structure NackBits where
  ofs : Nat
  last : Nat
  bits : List Bool

def NackBits.next (st : Option NackBits) (i : Nat) (clear : Bool) : Option NackBits :=
  match st, clear with
  | none, true => some ⟨i, 0, [true]⟩
  | none, false => none
  | some b, true => some ⟨b.ofs, b.bits.length, b.bits ++ [true]⟩
  | some b, false => some { b with bits := b.bits ++ [false] }

def nackLoop (clear : Nat → Bool) : Nat → Nat → Option NackBits → List NackFrag
  | 0, _, st => (st.map fun b => ⟨b.ofs + 1, b.last + 1, b.bits⟩).toList
  | n + 1, i, st =>
    match NackBits.next st i (clear i) with
    | none => nackLoop clear n (i + 1) none
    | some b =>
      -- Max. set size reached!
      if 256 ≤ b.bits.length then ⟨b.ofs, b.last, b.bits⟩ :: nackLoop clear n (i + 1) none
      else nackLoop clear n (i + 1) (some b)

def hbfragNode (sn : Int) : Int → List RwRef → Option RwRef
  | _, [] => none
  | snr, rp :: rest =>
    if snr < sn then
      match rp.u with
      | .sample _ => hbfragNode sn (snr + 1) rest
      | .range _ b => if b < sn then hbfragNode sn (b + 1) rest else some rp
    else some rp

structure Wanted where
  clear : Nat → Bool
  first : Nat
  total : Nat

def wantedOf (ctx : Int → FragInfo) (lastFrag : Nat) (rp : Option RwRef) : Wanted :=
  match rp with
  | some rp =>
    if rp.relevant && rp.state == .received && rp.fragments then
      ⟨fun i => !(ctx rp.first).bitmap i, (ctx rp.first).firstNa, (ctx rp.first).total⟩
    else ⟨fun _ => true, 0, lastFrag⟩
  | none => ⟨fun _ => true, 0, lastFrag⟩

def RemWriter.hbfragLook (p : RemWriter) (sn : Int) : Option RwRef :=
  hbfragNode sn ((p.changes.nodes.head?.map first).getD 0) p.changes.nodes

def Wanted.nacks (w : Wanted) : List NackFrag := nackLoop w.clear (w.total - w.first) w.first none

def RemWriter.sfrRelHbfrag (p : RemWriter) (lastHbfrag : Nat) (ctx : Int → FragInfo) (hp : HeartbeatFragSMsg) :
    List NackFrag :=
  if hp.count = lastHbfrag ∨ hp.writerSn < p.seqnrNext then []
  else (wantedOf ctx hp.lastFrag (p.hbfragLook hp.writerSn)).nacks

/-! ## The loop -/

def Wanted.Lacks (w : Wanted) (k : Nat) : Prop := ∃ i, k = i + 1 ∧ i < w.total ∧ w.clear i = true

def NackFrag.Requests (m : NackFrag) (k : Nat) : Prop := ∃ j < m.numbits, k = m.base + j ∧ m.bitmap[j]? = some true

structure NacksExact (lacks : Nat → Prop) (msgs : List NackFrag) : Prop where
  exact : ∀ k, (∃ m ∈ msgs, m.Requests k) ↔ lacks k
  covers : ∀ m ∈ msgs, ∀ j, m.bitmap[j]? = some true → j < m.numbits

def Wanted.Short (w : Wanted) : Prop := ∀ i < w.total, w.clear i = true → w.total < i + 256

structure NackBits.Ok (b : NackBits) : Prop where
  last : b.bits[b.last]? = some true
  max : ∀ j, b.bits[j]? = some true → j ≤ b.last

variable {clear : Nat → Bool}

theorem NackBits.Ok.snoc (h : b.Ok) (c : Bool) (i : Nat) :
    ∃ b', NackBits.next (some b) i c = some b' ∧ b'.Ok ∧ b'.ofs = b.ofs ∧ b'.bits = b.bits ++ [c] := by
  have hlt : b.last < b.bits.length := (List.getElem?_eq_some_iff.1 h.last).1
  have hold : ∀ j c, (b.bits ++ [c])[j]? = some true → j < b.bits.length → j ≤ b.last := by
    intro j c hj hj'
    exact h.max j (by rwa [getElem?_append_left hj'] at hj)
  cases c with
  | true =>
    refine ⟨_, rfl, ⟨getElem?_concat_length, fun j hj => ?_⟩, rfl, rfl⟩
    have := (List.getElem?_eq_some_iff.1 hj).1
    simp only [length_append, length_singleton] at this
    show j ≤ b.bits.length
    omega
  | false =>
    refine ⟨_, rfl, ⟨(getElem?_append_left hlt).trans h.last, fun j hj => ?_⟩, rfl, rfl⟩
    rcases lt_or_ge j b.bits.length with hj' | hj'
    · exact hold j false hj hj'
    have := (List.getElem?_eq_some_iff.1 hj).1
    simp only [length_append, length_singleton] at this
    obtain rfl : j = b.bits.length := by omega
    rw [getElem?_concat_length] at hj
    cases hj

theorem nackLoop_short (clear : Nat → Bool) : ∀ {n i : Nat} {b : NackBits}, b.Ok → b.bits.length + n < 256 →
    ∃ b' : NackBits, nackLoop clear n i (some b) = [⟨b'.ofs + 1, b'.last + 1, b'.bits⟩] ∧ b'.Ok ∧ b'.ofs = b.ofs ∧
      b'.bits = b.bits ++ (range' i n).map clear
  | 0, i, b, h, _ => ⟨b, rfl, h, rfl, by simp⟩
  | n + 1, i, b, h, hlen => by
    obtain ⟨b1, he, h₁, ho, hb⟩ := h.snoc (clear i) i
    have hlen1 : b1.bits.length = b.bits.length + 1 := by simp [hb]
    obtain ⟨b', hr, h', ho', hb'⟩ := nackLoop_short clear (n := n) (i := i + 1) h₁ (by omega)
    refine ⟨b', ?_, h', ho'.trans ho, by rw [hb', hb, append_assoc]; rfl⟩
    rw [nackLoop, he]
    dsimp only
    rw [if_neg (by omega), hr]

theorem nackLoop_long : ∀ {n i : Nat} {b : NackBits}, b.Ok → b.bits.length < 256 → 256 ≤ b.bits.length + n →
    ∃ m ∈ nackLoop clear n i (some b), m.bitmap[m.numbits]? = some true
  | 0, _, _, _, h1, h2 => by omega
  | n + 1, i, b, h, h1, h2 => by
    obtain ⟨b1, he, h₁, _, hb⟩ := h.snoc (clear i) i
    have hlen1 : b1.bits.length = b.bits.length + 1 := by simp [hb]
    rw [nackLoop, he]
    dsimp only
    split
    · exact ⟨⟨b1.ofs, b1.last, b1.bits⟩, by simp, h₁.last⟩
    · exact nackLoop_long h₁ (by omega) (by omega)

theorem nackBits_new (i : Nat) : NackBits.Ok ⟨i, 0, [true]⟩ :=
  ⟨rfl, fun j hj => by have := (List.getElem?_eq_some_iff.1 hj).1; simpa using this⟩

theorem nackLoop_exact (clear : Nat → Bool) : ∀ {n i : Nat}, (∀ j, i ≤ j → j < i + n → clear j = true →
    i + n < j + 256) →
    NacksExact (fun k => ∃ j, k = j + 1 ∧ i ≤ j ∧ j < i + n ∧ clear j = true) (nackLoop clear n i none)
  | 0, i, _ => ⟨fun k => by simp [nackLoop]; omega, by simp [nackLoop]⟩
  | n + 1, i, h => by
    cases hi : clear i with
    | false =>
      have ih := nackLoop_exact clear (n := n) (i := i + 1) fun j h1 h2 hj => by
        have := h j (by omega) (by omega) hj
        omega
      have he : nackLoop clear (n + 1) i none = nackLoop clear n (i + 1) none := by rw [nackLoop, hi]; rfl
      rw [he]
      refine ⟨fun k => (ih.exact k).trans ⟨?_, ?_⟩, ih.covers⟩
      · rintro ⟨j, hk, h1, h2, hj⟩
        exact ⟨j, hk, by omega, by omega, hj⟩
      rintro ⟨j, hk, h1, h2, hj⟩
      have : j ≠ i := by
        rintro rfl
        rw [hi] at hj
        cases hj
      exact ⟨j, hk, by omega, by omega, hj⟩
    | true =>
      have hn := h i (le_refl i) (by omega) hi
      obtain ⟨b, hr, hb, ho, hbits⟩ := nackLoop_short clear (n := n) (i := i + 1) (nackBits_new i)
        (by simp only [length_singleton]; omega)
      have he : nackLoop clear (n + 1) i none = nackLoop clear n (i + 1) (some ⟨i, 0, [true]⟩) := by
        rw [nackLoop, hi]
        rfl
      have hbit : ∀ j, b.bits[j]? = some true ↔ j < n + 1 ∧ clear (i + j) = true := by
        intro j
        rw [hbits, show [true] ++ (range' (i + 1) n).map clear = (range' i (n + 1)).map clear by
          rw [range'_succ, map_cons, hi]; rfl, getElem?_map, Option.map_eq_some_iff]
        constructor
        · rintro ⟨x, hx, hc⟩
          obtain ⟨hlt, hx⟩ := List.getElem?_eq_some_iff.1 hx
          rw [getElem_range', one_mul] at hx
          rw [length_range'] at hlt
          exact ⟨hlt, hx ▸ hc⟩
        · rintro ⟨hlt, hc⟩
          exact ⟨i + j, by rw [getElem?_range' hlt, one_mul], hc⟩
      rw [he, hr]
      refine ⟨fun k => ?_, ?_⟩
      · simp only [mem_singleton, exists_eq_left, NackFrag.Requests, ho]
        constructor
        · rintro ⟨j, _, hk, hj⟩
          obtain ⟨hlt, hc⟩ := (hbit j).1 hj
          exact ⟨i + j, by omega, by omega, by omega, hc⟩
        · rintro ⟨j, hk, h1, h2, hj⟩
          have hj' := (hbit (j - i)).2 ⟨by omega, by rwa [Nat.add_sub_cancel' h1]⟩
          exact ⟨j - i, lt_succ_of_le (hb.max _ hj'), by omega, hj'⟩
      · intro m hm j hj
        obtain rfl := mem_singleton.1 hm
        exact lt_succ_of_le (hb.max j hj)

theorem nackLoop_cut (clear : Nat → Bool) : ∀ {n i : Nat}, (∃ j, i ≤ j ∧ j < i + n ∧ clear j = true ∧ j + 256 ≤ i + n) →
    ∃ m ∈ nackLoop clear n i none, m.bitmap[m.numbits]? = some true
  | 0, i, ⟨j, h1, h2, _⟩ => by omega
  | n + 1, i, ⟨j, h1, h2, hj, h3⟩ => by
    rw [nackLoop]
    cases hi : clear i with
    | false =>
      have : j ≠ i := by
        rintro rfl
        rw [hi] at hj
        cases hj
      exact nackLoop_cut clear (n := n) ⟨j, by omega, by omega, hj, by omega⟩
    | true => exact nackLoop_long (nackBits_new i) (by simp) (by simp only [length_singleton]; omega)

/-- **What is wanted is requested exactly if and only if it is short.** -/
theorem Wanted.nacks_exact_iff {w : Wanted} (hfirst : ∀ i < w.first, w.clear i = false) (lacks : Nat → Prop) :
    NacksExact lacks w.nacks ↔ w.Short ∧ ∀ k, w.Lacks k ↔ lacks k := by
  have hge : ∀ {i}, w.clear i = true → w.first ≤ i := by
    intro i hi
    by_contra hlt
    rw [hfirst i (by omega)] at hi
    cases hi
  by_cases hs : w.Short
  · have hex := nackLoop_exact w.clear (n := w.total - w.first) (i := w.first) fun j _ h2 hj => by
      have := hs j (by omega) hj
      omega
    have hlacks : ∀ k, (∃ m ∈ w.nacks, m.Requests k) ↔ w.Lacks k := fun k =>
      (hex.exact k).trans ⟨fun ⟨j, hk, _, h2, hj⟩ => ⟨j, hk, by omega, hj⟩, fun ⟨j, hk, h2, hj⟩ =>
        ⟨j, hk, hge hj, by omega, hj⟩⟩
    refine ⟨fun h => ⟨hs, fun k => (hlacks k).symm.trans (h.exact k)⟩, fun h =>
      ⟨fun k => (hlacks k).trans (h.2 k), hex.covers⟩⟩
  · refine iff_of_false (fun h => ?_) fun h => hs h.1
    simp only [Wanted.Short, not_forall] at hs
    obtain ⟨j, hlt, hj, hge'⟩ := hs
    obtain ⟨m, hm, hbit⟩ := nackLoop_cut w.clear (n := w.total - w.first) (i := w.first)
      ⟨j, hge hj, by omega, hj, by omega⟩
    exact lt_irrefl _ (h.covers m hm _ hbit)

/-! ## The result -/

variable {p : RemWriter} {a b : Int} {ctx : Int → FragInfo} {hp : HeartbeatFragSMsg} {lastHbfrag : Nat}

def RemWriter.missing (p : RemWriter) (ctx : Int → FragInfo) (hp : HeartbeatFragSMsg) : Wanted :=
  wantedOf ctx hp.lastFrag (p.changes.nodes.find? fun rp => rp.Holds hp.writerSn)

def RemWriter.nodeFor (p : RemWriter) (sn : Int) : Option RwRef :=
  match p.changes.nodes with
  | [] => none
  | head :: rest => if sn < head.first then some head else (head :: rest).find? fun rp => rp.Holds sn

theorem hbfragNode_find? (sn : Int) : ∀ {nodes : List RwRef} {a : Int}, Contiguous a nodes b → a ≤ sn →
    hbfragNode sn a nodes = nodes.find? fun rp => rp.Holds sn
  | [], _, _, _ => rfl
  | rp :: rest, a, ⟨hf, hup, h⟩, ha => by
    rw [hbfragNode, find?_cons]
    by_cases hs : rp.Holds sn
    · rw [decide_eq_true hs]
      have := hs.2
      split
      · cases hu : rp.u with
        | sample c =>
          rw [first_of_sample hu] at hf
          rw [last_of_sample hu] at this
          omega
        | range x y =>
          rw [last_of_range hu] at this
          exact if_neg (by omega)
      · rfl
    rw [decide_eq_false hs]
    have hlt : rp.last < sn := by omega
    have ih := hbfragNode_find? sn h (by omega)
    rw [if_pos (by omega)]
    cases hu : rp.u with
    | sample c =>
      rw [last_of_sample hu] at ih
      rw [first_of_sample hu] at hf
      rw [← hf]
      exact ih
    | range x y =>
      rw [last_of_range hu] at ih hlt
      dsimp only
      rw [if_pos hlt]
      exact ih

theorem hbfragLook_eq (h : Contiguous a p.changes.nodes b) (sn : Int) : p.hbfragLook sn = p.nodeFor sn := by
  unfold RemWriter.hbfragLook RemWriter.nodeFor
  cases hn : p.changes.nodes with
  | nil => rfl
  | cons head rest =>
    rw [hn] at h
    rw [head?_cons, Option.map_some, Option.getD_some]
    by_cases hlt : sn < head.first
    · rw [hbfragNode, if_neg (by omega)]
      exact (if_pos hlt).symm
    · rw [hbfragNode_find? sn (h.1 ▸ h) (by omega)]
      exact (if_neg hlt).symm

theorem wantedOf_first (hctx : ∀ s, ∀ i < (ctx s).firstNa, (ctx s).bitmap i = true) (n : Nat) (rp : Option RwRef) :
    ∀ i < (wantedOf ctx n rp).first, (wantedOf ctx n rp).clear i = false := by
  cases rp with
  | none => exact nofun
  | some rp =>
    unfold wantedOf
    dsimp only
    split
    · intro i hi
      simpa using hctx _ i hi
    · exact nofun

/-- **A new HEARTBEATFRAG for a sample still expected is answered exactly if and only if** the context looked at, not
always the sample's own, lacks the same fragments, less than 256 of them from the first one on. -/
theorem nackfrag_exact_iff (h : Contiguous a p.changes.nodes b)
    (hctx : ∀ s, ∀ i < (ctx s).firstNa, (ctx s).bitmap i = true)
    (hnew : hp.count ≠ lastHbfrag) (hneed : p.seqnrNext ≤ hp.writerSn) :
    NacksExact (p.missing ctx hp).Lacks (p.sfrRelHbfrag lastHbfrag ctx hp) ↔
      (wantedOf ctx hp.lastFrag (p.nodeFor hp.writerSn)).Short ∧
      ∀ k, (wantedOf ctx hp.lastFrag (p.nodeFor hp.writerSn)).Lacks k ↔ (p.missing ctx hp).Lacks k := by
  rw [RemWriter.sfrRelHbfrag, if_neg (by omega), hbfragLook_eq h]
  exact Wanted.nacks_exact_iff (wantedOf_first hctx _ _) _

def noFragments : Int → FragInfo := fun _ => ⟨2, 0, 2, fun _ => false, 0, fun _ => 0⟩

theorem nackfrag_exact_two : let p := RemWriter.sfrRelStart false 0
    NacksExact (p.missing noFragments ⟨1, 2, 1⟩).Lacks (p.sfrRelHbfrag 0 noFragments ⟨1, 2, 1⟩) := by
  intro p
  have hc : Contiguous 0 p.changes.nodes 0 := rfl
  refine (nackfrag_exact_iff hc (by simp [noFragments]) (by decide) (by decide)).2 ⟨?_, fun k => Iff.rfl⟩
  intro i hi _
  show 2 < i + 256
  omega

/-- Of 256 missing fragments the one message requests 0 to 254. -/
theorem nackfrag_cut : let p := RemWriter.sfrRelStart false 0
    ¬ NacksExact (p.missing noFragments ⟨1, 256, 1⟩).Lacks (p.sfrRelHbfrag 0 noFragments ⟨1, 256, 1⟩) := by
  intro p h
  rw [RemWriter.sfrRelHbfrag, if_neg (by decide)] at h
  have hs := ((Wanted.nacks_exact_iff (wantedOf_first (by simp [noFragments]) _ _) _).1 h).1 0 (by decide) rfl
  exact absurd hs (by decide)

end Qeo.Rtps
