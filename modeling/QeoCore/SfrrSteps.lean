import QeoCore.SfrrCover
/-!
# SfrrSteps — what one message does to the change list

`Edited p q`: `q` is `p` with its list edited and nothing delivered.  Each handler is an edit that `sfr_process_samples`
may follow, but for a DATA that goes straight to the cache and a HEARTBEAT.
-/
namespace Qeo.Rtps

open List Option Tiles RemWriter

variable {ok : NodeOk} {fits : Int → Int → Prop} {irr lost : Int → Prop} {a b : Int} {list : Cclist Unit} {ooo : Bool}
  {p p' q : RemWriter} {add : Int → AddRes} {d : DataSMsg} {gp : GapSMsg}

/-- `q` is `p` after edits of its change list, which started at `a`; at most refusals of the cache have been noted. -/
structure Edited (ok : NodeOk) (a : Int) (p q : RemWriter) : Prop where
  next : q.seqnrNext = p.seqnrNext
  handed : ∃ refused : List Int, q.handed = p.handed ++ refused.map (·, .noData)
  acknacks : q.acknacks = p.acknacks
  cacheAcks : q.cacheAcks = p.cacheAcks
  counted : p.changes.Counted → q.changes.Counted
  cover : ∃ a' b', min a p.seqnrNext ≤ a' ∧ Cover ok a' q.changes.nodes b'

/-! ## Becoming alive -/

section
variable (p : RemWriter)

@[simp] theorem alive_seqnrNext : p.alive.seqnrNext = p.seqnrNext := by unfold alive; split <;> rfl
@[simp] theorem alive_changes : p.alive.changes = p.changes := by unfold alive; split <;> rfl
@[simp] theorem alive_handed : p.alive.handed = p.handed := by unfold alive; split <;> rfl
@[simp] theorem alive_acknacks : p.alive.acknacks = p.acknacks := by unfold alive; split <;> rfl
@[simp] theorem alive_cacheAcks : p.alive.cacheAcks = p.cacheAcks := by unfold alive; split <;> rfl
@[simp] theorem alive_blocked : p.alive.blocked = p.blocked := by unfold alive; split <;> rfl
@[simp] theorem alive_lastHb : p.alive.lastHb = p.lastHb := by unfold alive; split <;> rfl

end

theorem Edited.of_list {blocked : Bool} (hcov : Cover ok a' l.nodes b')
    (ha : min a p.seqnrNext ≤ a') (hcount : p.changes.Counted → l.Counted) :
    Edited ok a p { p with changes := l, blocked } :=
  ⟨rfl, ⟨[], by simp⟩, rfl, rfl, hcount, a', b', ha, hcov⟩

theorem Edited.of_alive (h : Edited ok a p.alive q) : Edited ok a p q :=
  ⟨by simpa using h.next, by simpa using h.handed, by simpa using h.acknacks, by simpa using h.cacheAcks,
    by simpa using h.counted, by simpa using h.cover⟩

theorem Edited.refl (hcov : Cover ok a p.changes.nodes b) : Edited ok a p p :=
  ⟨rfl, ⟨[], by simp⟩, rfl, rfl, id, a, b, Int.min_le_left _ _, hcov⟩

/-! ## The number of nodes -/

theorem missingTail_counted (h : list.Counted) (x y : Int) : (missingTail list x y).Counted := by
  by_cases hn : list.nodes = []
  · simpa [missingTail, hn] using h
  · rw [missingTail_eq hn]
    exact addGapTail_counted h x y _

theorem missingHead_counted (h : list.Counted) (x y : Int) (g : Bool) : (missingHead list x y g).Counted := by
  unfold missingHead
  split
  · rename_i hn
    split
    · unfold Cclist.Counted at h ⊢
      rw [h, hn]
      simp
    · exact addGapHead_counted h x y _
  · exact h

theorem dataAfter_counted (h : list.Counted) (l snr : Int) (ignore : Bool) :
    (dataAfter list l snr ignore).Counted := by
  unfold dataAfter
  have hgap : (if l + 1 = snr then list else missingTail list (l + 1) (snr - 1)).Counted := by
    split
    · exact h
    · exact missingTail_counted h _ _
  dsimp only
  split
  · exact addGapTail_counted hgap _ _ _
  · unfold Cclist.Counted at hgap ⊢
    simp [hgap]

theorem dataBefore_counted (h : list.Counted) (l snr : Int) (ignore : Bool) :
    (dataBefore list l snr ignore).Counted := by
  unfold dataBefore
  have hgap : (if l - 1 = snr then list else missingHead list (snr + 1) (l - 1) (tailMissing list)).Counted := by
    split
    · exact h
    · exact missingHead_counted h _ _ _
  dsimp only
  split
  · exact addGapHead_counted hgap _ _ _
  · unfold Cclist.Counted at hgap ⊢
    simp [hgap]

/-! ## DATA -/

def queues (p : RemWriter) (d : DataSMsg) : Prop :=
  p.seqnrNext ≤ d.writerSn ∧ (d.ignore = true ∨ d.frag.isSome = true ∨ d.accepts = true)

instance (p : RemWriter) (d : DataSMsg) : Decidable (queues p d) := by unfold queues; infer_instance

/-- The node for `d` is a new one, or one that has been missing: `sfr_fragment` then looks for a context. -/
def opensContext (p : RemWriter) (d : DataSMsg) : Bool :=
  match p.changes.nodes, p.changes.nodes.getLast? with
  | head :: _, some tail =>
    if head.first ≤ d.writerSn ∧ d.writerSn ≤ tail.last then
      (findSnr d.writerSn p.changes.nodes).any fun (_, rp, _) => rp.state == .missing && !rp.fragments
    else true
  | _, _ => true

/-- `sfr_fragment` ends at `no_frag_mem` for `d`. -/
def freesChange (p : RemWriter) (d : DataSMsg) : Prop :=
  p.seqnrNext ≤ d.writerSn ∧ d.ignore = false ∧ (∃ f ∈ d.frag, f.ctx = false) ∧ opensContext p d = true

instance (p : RemWriter) (d : DataSMsg) : Decidable (freesChange p d) := by unfold freesChange; infer_instance

theorem ctx_of_not_freesChange (h : ¬ freesChange p d) (hnext : p.seqnrNext ≤ d.writerSn)
    (hopen : opensContext p d = true) (hig : d.ignore = false) : ∀ f ∈ d.frag, f.ctx = true := by
  intro f hf
  by_contra hno
  exact h ⟨hnext, hig, ⟨f, hf, by simpa using hno⟩, hopen⟩

def Ends (add : Int → AddRes) (q p' : RemWriter) : Prop := p' = q ∨ p' = q.sfrProcessSamples add

theorem sfrFragment_spec (hc : Closed ok fits irr lost)
    (h : sfrFragment add p pre refp post d ooo = some p') (hcov : Cover ok a (pre ++ refp :: post) b)
    (hst : refp.state = .received) (hi : d.ignore = true → ∀ s, refp.u = .sample s → irr s)
    (hctx : refp.relevant = true → refp.fragments = false → ∀ f ∈ d.frag, f.ctx = true) :
    ∃ nodes blocked, Cover ok a nodes b ∧ nodes.length = (pre ++ refp :: post).length ∧
      Ends add { p with changes := ⟨nodes, p.changes.nchanges⟩, blocked } p' := by
  unfold sfrFragment at h
  split at h
  · cases h
  rename_i refp' e hnode
  obtain ⟨c, hpre, hf, hok, hpost⟩ := tiled_append.1 hcov
  obtain ⟨hf', hl', hok'⟩ := sfrFragmentNode_ok hc hok hst hi hctx hnode
  have hcov' : Cover ok a (pre ++ refp' :: post) b :=
    tiled_append.2 ⟨c, hpre, by rw [hf', hf], hok', by rw [hl']; exact hpost⟩
  have hlen : (pre ++ refp' :: post).length = (pre ++ refp :: post).length := by simp
  split at h
  · cases h
    exact ⟨_, p.blocked, hcov', hlen, .inl rfl⟩
  · cases h
    cases ooo with
    | true => exact ⟨_, p.blocked, hcov', hlen, .inl rfl⟩
    | false => exact ⟨_, true, hcov', hlen, .inl rfl⟩
  · cases h
    exact ⟨_, p.blocked, hcov', hlen, .inr rfl⟩

theorem dataProcess_ends (add : Int → AddRes) (p : RemWriter) : Ends add p (p.dataProcess add) := by
  unfold dataProcess
  split
  · split
    · exact .inr rfl
    · exact .inl rfl
  · exact .inl rfl

theorem dataAfter_tail (list : Cclist Unit) (l snr : Int) (ignore : Bool) :
    ∃ init x, (dataAfter list l snr ignore).nodes = init ++ [x] ∧ x.state = .received ∧
      (x.relevant = true → ignore = false) := by
  unfold dataAfter
  generalize (if l + 1 = snr then list else missingTail list (l + 1) (snr - 1)) = l'
  cases ignore with
  | false => exact ⟨l'.nodes, received snr, rfl, rfl, fun _ => rfl⟩
  | true =>
    simp only [if_true, Cclist.ccrefAddGap]
    rcases l'.addGapTail_cases () snr snr .received with ⟨init, x, c, e, hn, hu, hs, he⟩ | he
    · exact ⟨init, { x with u := .range c snr }, by rw [he], hs, nofun⟩
    · exact ⟨l'.nodes, .gap () snr snr .received, by rw [he], rfl, nofun⟩

theorem dataBefore_head (list : Cclist Unit) (l snr : Int) (ignore : Bool) :
    ∃ x rest, (dataBefore list l snr ignore).nodes = x :: rest ∧ x.state = .received ∧
      (x.relevant = true → ignore = false) := by
  unfold dataBefore
  generalize (if l - 1 = snr then list else missingHead list (snr + 1) (l - 1) (tailMissing list)) = l'
  cases ignore with
  | false => exact ⟨received snr, l'.nodes, rfl, rfl, fun _ => rfl⟩
  | true =>
    simp only [if_true, Cclist.ccrefAddGap]
    rcases l'.addGapHead_cases () snr snr .received with ⟨x, rest, c, e, hn, hu, hs, he⟩ | he
    · exact ⟨{ x with u := .range snr e }, rest, by simp [he], hs, nofun⟩
    · exact ⟨.gap () snr snr .received, l'.nodes, by simp [he], rfl, nofun⟩

theorem irrelevant_of_ignored {x : RwRef} (h : x.relevant = true → ignore = false) (hig : ignore = true) (s : Int)
    (hs : x.u = .sample s) : irr s := by
  have := h (Ccref.relevant_of_sample hs)
  rw [hig] at this
  cases this

theorem dataLast_spec (hc : Closed ok fits irr lost) (hcov : Cover ok a p.changes.nodes b)
    (hne : p.changes.nodes ≠ []) (hs : b ≤ d.writerSn) (hi : d.ignore = true → irr d.writerSn)
    (hctx : d.ignore = false → ∀ f ∈ d.frag, f.ctx = true)
    (h : p.dataLast add d ooo (b - 1) = some p') : ∃ q, Edited ok a p q ∧ Ends add q p' := by
  have hcov' := dataAfter_cover hc hcov hne hs hi
  have hcount := fun hcnt : p.changes.Counted => dataAfter_counted hcnt (b - 1) d.writerSn d.ignore
  obtain ⟨init, x, hx, hst, hxs⟩ := dataAfter_tail p.changes (b - 1) d.writerSn d.ignore
  unfold Cclist.Counted at hcount
  rw [hx] at hcov' hcount
  unfold dataLast at h
  dsimp only at h
  split at h
  · rename_i rp _ hrp
    rw [hx, getLast?_concat] at hrp
    cases hrp
    rw [hx, dropLast_concat] at h
    obtain ⟨nodes, blocked, hcv, hlen, he⟩ := sfrFragment_spec hc h hcov' hst (irrelevant_of_ignored hxs)
      fun hrel _ => hctx (hxs hrel)
    exact ⟨_, .of_list hcv (Int.min_le_left _ _) fun hcnt => by rw [Cclist.Counted, hcount hcnt, hlen], he⟩
  · cases h
    exact ⟨_, .of_list (hx ▸ hcov') (Int.min_le_left _ _) fun hcnt => dataAfter_counted hcnt _ _ _,
      dataProcess_ends _ _⟩

def WidensOk (ok : NodeOk) (p : RemWriter) (d : DataSMsg) : Prop :=
  ∀ head rest x y, p.changes.nodes = head :: rest → head.u = .range x y → d.writerSn + 1 < x →
    tailMissing p.changes = true → ok head.state false (.range x y) → ok head.state false (.range (d.writerSn + 1) y)

theorem dataFirst_spec (hc : Closed ok fits irr lost) (hcov : Cover ok a p.changes.nodes b)
    (hne : p.changes.nodes ≠ []) (hs : d.writerSn < a) (hnext : p.seqnrNext ≤ d.writerSn)
    (hi : d.ignore = true → irr d.writerSn) (hctx : d.ignore = false → ∀ f ∈ d.frag, f.ctx = true)
    (hw : WidensOk ok p d) (h : p.dataFirst add d ooo a = some p') : ∃ q, Edited ok a p q ∧ Ends add q p' := by
  have hcov' := dataBefore_cover hc hcov hne hs hi
    fun hlt ht hd r y hnodes hu hok => hw hd r _ y hnodes hu hlt ht hok
  have hcount := fun hcnt : p.changes.Counted => dataBefore_counted hcnt a d.writerSn d.ignore
  obtain ⟨x, rest, hx, hst, hxs⟩ := dataBefore_head p.changes a d.writerSn d.ignore
  unfold Cclist.Counted at hcount
  rw [hx] at hcov' hcount
  have hmin : min a p.seqnrNext ≤ d.writerSn := by omega
  unfold dataFirst at h
  dsimp only at h
  split at h
  · rename_i rp r _ hrp
    rw [hx] at hrp
    cases hrp
    obtain ⟨nodes, blocked, hcv, hlen, he⟩ := sfrFragment_spec hc h hcov' hst (irrelevant_of_ignored hxs)
      fun hrel _ => hctx (hxs hrel)
    exact ⟨_, .of_list hcv hmin fun hcnt => by rw [Cclist.Counted, hlen, hcount hcnt]; rfl, he⟩
  · cases h
    exact ⟨_, .of_list (hx ▸ hcov') hmin fun hcnt => dataBefore_counted hcnt _ _ _, dataProcess_ends _ _⟩

theorem splitGap_relevant {before after : List RwRef} {node : RwRef}
    (h : splitGap rp snr ignore = (before, node, after))
    (hrel : node.relevant = true) : ignore = false := by
  cases ignore with
  | false => rfl
  | true =>
    obtain rfl := congrArg (·.2.1) h
    cases hrel

theorem dataInside_spec (hc : Closed ok fits irr lost) (hcov : Cover ok a p.changes.nodes b)
    (hi : d.ignore = true → irr d.writerSn)
    (hctx : (findSnr d.writerSn p.changes.nodes).any (fun (_, rp, _) => rp.state == .missing && !rp.fragments) = true →
      d.ignore = false → ∀ f ∈ d.frag, f.ctx = true) (h : p.dataInside add d ooo = some p') :
    ∃ q, Edited ok a p q ∧ Ends add q p' := by
  unfold dataInside at h
  split at h
  · cases h
    exact ⟨p, .refl hcov, .inl rfl⟩
  rename_i pre rp post hfind
  obtain ⟨hnodes, hb⟩ := findSnr_some hfind
  have hcov0 := hcov
  rw [hnodes] at hcov
  obtain ⟨c, hpre, hf, hok, hpost⟩ := tiled_append.1 hcov
  split at h
  · -- A sample that has a context: its number is that of the message.
    rename_i hfr
    have hok' := hok
    unfold Ccref.Ok at hok'
    rw [hfr] at hok'
    obtain ⟨hst, s, hu⟩ := hc.fragmented hok'
    obtain rfl : s = d.writerSn := by
      have h1 := Ccref.first_of_sample hu
      have h2 := Ccref.last_of_sample hu
      omega
    obtain ⟨nodes, blocked, hcv, hlen, he⟩ := sfrFragment_spec hc h hcov hst
      (fun hig t ht => by rw [hu] at ht; cases ht; exact hi hig) fun _ hno => by rw [hfr] at hno; cases hno
    exact ⟨_, .of_list hcv (Int.min_le_left _ _) fun hcnt => by rw [Cclist.Counted, hlen, ← hnodes]; exact hcnt, he⟩
  split at h
  · cases h
    exact ⟨p, .refl hcov0, .inl rfl⟩
  rename_i hfr hmiss
  have hctx' := hctx (by rw [hfind]; simpa using ⟨not_not.1 hmiss, by simpa using hfr⟩)
  generalize hsplit : splitGap rp d.writerSn d.ignore = sp at h
  obtain ⟨before, node, after⟩ := sp
  obtain ⟨hbef, hnst, hnf, hnl, hnok, haft⟩ := splitGap_cover hc hb hi hsplit
  have hcov' : Cover ok a (pre ++ before ++ node :: (after ++ post)) b := by
    rw [append_assoc]
    refine tiled_append.2 ⟨c, hpre, tiled_append.2 ⟨d.writerSn, hf ▸ hbef, hnf, hnok, ?_⟩⟩
    rw [hnl]
    exact haft.append hpost
  have hlen' : p.changes.Counted → p.changes.nchanges + before.length + after.length =
      (pre ++ before ++ node :: (after ++ post)).length := by
    intro hcnt
    rw [hcnt, hnodes]
    simp only [length_append, length_cons]
    omega
  dsimp only at h
  split at h
  · have hrel : node.relevant = true → d.ignore = false := splitGap_relevant hsplit
    obtain ⟨nodes, blocked, hcv, hlen, he⟩ := sfrFragment_spec hc h hcov' hnst (irrelevant_of_ignored hrel)
      fun hr _ => hctx' (hrel hr)
    exact ⟨_, .of_list hcv (Int.min_le_left _ _) fun hcnt => by rw [Cclist.Counted, hlen]; exact hlen' hcnt, he⟩
  · cases h
    exact ⟨_, .of_list (l := ⟨_, _⟩) hcov' (Int.min_le_left _ _) hlen', dataProcess_ends _ _⟩

theorem addFirstNode_spec (hc : Closed ok fits irr lost) (hn : p.changes.nodes = [])
    (hnext : p.seqnrNext ≤ d.writerSn) (hi : d.ignore = true → irr d.writerSn)
    (hctx : d.ignore = false → ∀ f ∈ d.frag, f.ctx = true)
    (h : p.addFirstNode add d ooo = some p') : ∃ q, Edited ok a p q ∧ Ends add q p' := by
  have hmin : min a p.seqnrNext ≤ d.writerSn := by omega
  have hcov : Cover ok d.writerSn [dataNode d.writerSn d.ignore] (d.writerSn + 1) := by
    cases hig : d.ignore with
    | true => exact ⟨rfl, hc.irrelevantOne (hi hig), rfl⟩
    | false => exact ⟨rfl, hc.sample d.writerSn false, rfl⟩
  have hcount : p.changes.Counted → p.changes.nchanges + 1 = 1 := by
    intro hcnt
    rw [hcnt, hn]
    rfl
  unfold addFirstNode at h
  split at h
  · rename_i hf
    simp only [Bool.and_eq_true, Bool.not_eq_true'] at hf
    have hst : (dataNode d.writerSn d.ignore).state = .received := by rw [hf.2]; rfl
    obtain ⟨nodes, blocked, hcv, hlen, he⟩ := sfrFragment_spec hc h hcov hst
      (fun hig => by rw [hf.2] at hig; cases hig) fun _ _ => hctx hf.2
    exact ⟨_, .of_list hcv hmin fun hcnt => by rw [Cclist.Counted, hlen]; exact hcount hcnt, he⟩
  · cases h
    exact ⟨_, .of_list (l := ⟨_, _⟩) hcov hmin hcount, .inl rfl⟩

structure Direct (add : Int → AddRes) (p : RemWriter) (d : DataSMsg) (p' : RemWriter) : Prop where
  nodes : p.changes.nodes = []
  snr : d.writerSn = p.seqnrNext
  next : p'.seqnrNext = p.seqnrNext + 1
  changes : p'.changes = p.changes
  acknacks : p'.acknacks = p.acknacks
  cacheAcks : p'.cacheAcks = p.cacheAcks
  handed : d.ignore = true ∧ p'.handed = p.handed ∨
    add d.writerSn ≠ .noData ∧ p'.handed = p.handed ++ [(d.writerSn, add d.writerSn)]

theorem dataDirect_spec (hc : Closed ok fits irr lost) (hn : p.changes.nodes = []) (hnext : p.seqnrNext ≤ d.writerSn)
    (hi : d.ignore = true → irr d.writerSn) (hctx : d.ignore = false → ∀ f ∈ d.frag, f.ctx = true)
    (h : p.dataDirect add d (d.writerSn != p.seqnrNext) = some p') :
    Direct add p d p' ∨ ∃ q, Edited ok a p q ∧ Ends add q p' := by
  unfold dataDirect at h
  split at h
  · rename_i hooo
    simp only [Bool.and_eq_true, Bool.not_eq_true', bne_eq_false_iff_eq] at hooo
    split at h
    · cases h
      exact .inl ⟨hn, hooo.1, rfl, rfl, rfl, rfl, .inl ⟨‹_›, rfl⟩⟩
    split at h
    · -- The cache is full: the sample waits in the list.
      rename_i hno
      obtain ⟨q, hq, he⟩ := addFirstNode_spec (a := a) hc
        (p := { p with handed := p.handed ++ [(d.writerSn, add d.writerSn)] }) hn hnext hi hctx h
      obtain ⟨refused, hr⟩ := hq.handed
      refine .inr ⟨q, ⟨hq.next, ⟨d.writerSn :: refused, ?_⟩, hq.acknacks, hq.cacheAcks, hq.counted, hq.cover⟩, he⟩
      rw [hr, hno]
      simp
    · cases h
      exact .inl ⟨hn, hooo.1, rfl, rfl, rfl, rfl, .inr ⟨‹_›, rfl⟩⟩
  · exact .inr (addFirstNode_spec hc hn hnext hi hctx h)

theorem nodes_eq_nil {nodes : List RwRef}
    (h : ∀ head rest tail, nodes = head :: rest → nodes.getLast? = some tail → False) : nodes = [] := by
  by_contra hne
  obtain ⟨head, rest, hn⟩ := exists_cons_of_ne_nil hne
  obtain ⟨tail, ht⟩ := isSome_iff_exists.1 (getLast?_isSome.2 hne)
  exact h head rest tail hn ht

/-- **DATA.**  A DATA that is not turned away edits the list, and what is in order may be handed on, or goes straight to
the cache. -/
theorem sfrRelData_spec (hc : Closed ok fits irr lost) (hcov : Cover ok a p.changes.nodes b)
    (hi : d.ignore = true → irr d.writerSn) (hw : queues p d → WidensOk ok p d) (hfree : ¬ freesChange p d)
    (h : p.sfrRelData add d = some p') :
    Direct add p d p' ∨ ∃ q, Edited ok a p q ∧ Ends add q p' := by
  have hcov' : Cover ok a p.alive.changes.nodes b := by rw [alive_changes]; exact hcov
  have key : Direct add p.alive d p' ∨ ∃ q, Edited ok a p.alive q ∧ Ends add q p' := by
    unfold sfrRelData at h
    dsimp only at h
    split at h
    · cases h
      exact .inr ⟨_, .refl hcov', .inl rfl⟩
    rename_i hlt
    split at h
    · cases h
      split
      · exact .inr ⟨_, .refl hcov', .inl rfl⟩
      · exact .inr ⟨_, .of_list hcov' (Int.min_le_left _ _) id, .inl rfl⟩
    rename_i hrej
    have hq : queues p d := by
      refine ⟨by simpa using hlt, ?_⟩
      revert hrej
      cases d.ignore <;> cases d.accepts <;> cases d.frag <;> simp
    have hnext : p.alive.seqnrNext ≤ d.writerSn := by omega
    have hw' : WidensOk ok p.alive d := by
      have := hw hq
      unfold WidensOk at this ⊢
      rwa [alive_changes]
    have hctx := ctx_of_not_freesChange hfree hq.1
    unfold opensContext at hctx
    split at h
    · rename_i head rest tail hn htail
      have hlast := hcov'.tail_last htail
      have hne : p.alive.changes.nodes ≠ [] := by rw [hn]; simp
      obtain rfl : head.first = a := by rw [hn] at hcov'; exact hcov'.1
      rw [show tail.last = b - 1 by omega] at h
      simp only [← alive_changes p, hn, hn ▸ htail] at hctx
      unfold dataQueued at h
      split at h
      · exact .inr (dataLast_spec hc hcov' hne (by omega) hi (hctx (if_neg (by omega))) h)
      · split at h
        · exact .inr (dataFirst_spec hc hcov' hne ‹_› hnext hi (hctx (if_neg (by omega))) hw' h)
        · rw [if_pos (by omega), ← hn] at hctx
          exact .inr (dataInside_spec hc hcov' hi hctx h)
    · rename_i hno
      have hnil := nodes_eq_nil hno
      rw [alive_changes] at hnil
      simp only [hnil] at hctx
      exact dataDirect_spec hc (nodes_eq_nil hno) hnext hi (hctx trivial) h
  rcases key with hd | ⟨q, hq, he⟩
  · refine .inl ⟨?_, ?_, ?_, ?_, ?_, ?_, ?_⟩
    · simpa using hd.nodes
    · simpa using hd.snr
    · simpa using hd.next
    · simpa using hd.changes
    · simpa using hd.acknacks
    · simpa using hd.cacheAcks
    · simpa using hd.handed
  · exact .inr ⟨q, hq.of_alive, he⟩

/-! ## GAP -/

def GapSMsg.Covers (gp : GapSMsg) (s : Int) : Prop :=
  gp.gapStart ≤ s ∧ s < gp.base ∨ gp.base ≤ s ∧ gp.bitmap[(s - gp.base).toNat]? = some true

def GapSMsg.ranges (gp : GapSMsg) : List (Int × Int) :=
  (if gp.gapStart < gp.base then [(gp.gapStart, gp.base - 1)] else []) ++ bitRuns none gp.base gp.bitmap

theorem bitRuns_mem : ∀ {bits : List Bool} (run : Option Int) {snr : Int}, (∀ s ∈ run, s < snr) →
    ∀ r ∈ bitRuns run snr bits, run.getD snr ≤ r.1 ∧ r.1 ≤ r.2 ∧
      ∀ s, r.1 ≤ s → s ≤ r.2 → s < snr ∨ snr ≤ s ∧ bits[(s - snr).toNat]? = some true
  | [], none, snr, _, r, hr => by simp [bitRuns] at hr
  | [], some s0, snr, hlt, r, hr => by
    have h0 := hlt s0 rfl
    simp only [bitRuns, mem_singleton] at hr
    subst hr
    exact ⟨Int.le_refl s0, by omega, fun s h1 h2 => .inl (by omega)⟩
  | bit :: bits, run, snr, hlt, r, hr => by
    have shift : ∀ s, snr + 1 ≤ s → (s - snr).toNat = (s - (snr + 1)).toNat + 1 := fun s hs => by omega
    have lift : ∀ s ≠ snr, s < snr + 1 ∨ snr + 1 ≤ s ∧ bits[(s - (snr + 1)).toNat]? = some true →
        s < snr ∨ snr ≤ s ∧ (bit :: bits)[(s - snr).toNat]? = some true := by
      rintro s hs (h | ⟨h, hb⟩)
      · omega
      · exact .inr ⟨by omega, by rw [shift s h]; exact hb⟩
    cases bit with
    | true =>
      have hr' : r ∈ bitRuns (some (run.getD snr)) (snr + 1) bits := by
        cases run <;> simpa [bitRuns] using hr
      have hlt' : ∀ s ∈ some (run.getD snr), s < snr + 1 := by
        intro s hs
        cases hs
        cases run with
        | none => simp only [getD_none]; omega
        | some s0 => have := hlt s0 rfl; simp only [getD_some]; omega
      obtain ⟨h1, h2, h3⟩ := bitRuns_mem _ hlt' r hr'
      refine ⟨by simpa using h1, h2, fun s hs1 hs2 => ?_⟩
      by_cases hs : s = snr
      · exact .inr ⟨by omega, by simp [hs]⟩
      · exact lift s hs (h3 s hs1 hs2)
    | false =>
      have next : ∀ r ∈ bitRuns none (snr + 1) bits, snr + 1 ≤ r.1 ∧ r.1 ≤ r.2 ∧
          ∀ s, r.1 ≤ s → s ≤ r.2 → s < snr ∨ snr ≤ s ∧ (false :: bits)[(s - snr).toNat]? = some true := by
        intro r hr
        obtain ⟨h1, h2, h3⟩ := bitRuns_mem none (by simp) r hr
        simp only [getD_none] at h1
        exact ⟨h1, h2, fun s hs1 hs2 => lift s (by omega) (h3 s hs1 hs2)⟩
      cases run with
      | none =>
        obtain ⟨h1, h2, h3⟩ := next r (by simpa [bitRuns] using hr)
        exact ⟨by simp; omega, h2, h3⟩
      | some s0 =>
        have h0 := hlt s0 rfl
        simp only [bitRuns, mem_cons] at hr
        rcases hr with rfl | hr
        · exact ⟨Int.le_refl s0, by omega, fun s _ h2 => .inl (by omega)⟩
        · obtain ⟨h1, h2, h3⟩ := next r hr
          exact ⟨by simp; omega, h2, h3⟩

theorem bitRuns_pairwise : ∀ (bits : List Bool) {run : Option Int} {snr : Int},
    (bitRuns run snr bits).Pairwise fun r r' => r.2 < r'.1
  | [], none, _ => .nil
  | [], some _, _ => pairwise_singleton _ _
  | true :: bits, none, snr => bitRuns_pairwise bits
  | true :: bits, some s, snr => bitRuns_pairwise bits
  | false :: bits, none, snr => bitRuns_pairwise bits
  | false :: bits, some s, snr => by
    refine List.Pairwise.cons (fun r hr => ?_) (bitRuns_pairwise bits)
    have := (bitRuns_mem none (by simp) r hr).1
    simp only [getD_none] at this
    omega

theorem ranges_mem (hr : r ∈ gp.ranges) : r.1 ≤ r.2 ∧ ∀ s, r.1 ≤ s → s ≤ r.2 → gp.Covers s := by
  rcases mem_append.1 hr with hr | hr
  · split at hr
    · simp only [mem_singleton] at hr
      subst hr
      exact ⟨by omega, fun s h1 h2 => .inl ⟨h1, by omega⟩⟩
    · simp at hr
  · obtain ⟨h1, h2, h3⟩ := bitRuns_mem none (by simp) r hr
    simp only [getD_none] at h1
    refine ⟨h2, fun s hs1 hs2 => ?_⟩
    rcases h3 s hs1 hs2 with h | h
    · omega
    · exact .inr h

theorem ranges_pairwise (gp : GapSMsg) : gp.ranges.Pairwise fun r r' => r.2 < r'.1 := by
  refine pairwise_append.2 ⟨?_, bitRuns_pairwise _, fun r hr r' hr' => ?_⟩
  · split
    · exact pairwise_singleton _ _
    · exact .nil
  have := (bitRuns_mem none (by simp) r' hr').1
  simp only [getD_none] at this
  split at hr
  · simp only [mem_singleton] at hr
    subst hr
    omega
  · simp at hr

theorem Edited.trans (h1 : Edited ok a p q) (ha : min a p.seqnrNext ≤ a')
    (h2 : Edited ok a' q r) : Edited ok a p r := by
  obtain ⟨l1, hl1⟩ := h1.handed
  obtain ⟨l2, hl2⟩ := h2.handed
  obtain ⟨a'', b'', ha'', hcov⟩ := h2.cover
  have hn := h1.next
  exact ⟨h2.next.trans hn, ⟨l1 ++ l2, by rw [hl2, hl1]; simp⟩, h2.acknacks.trans h1.acknacks,
    h2.cacheAcks.trans h1.cacheAcks, h2.counted ∘ h1.counted, a'', b'', by omega, hcov⟩

theorem fits_of_forall (h : ∀ x y, fits x y) : ∀ {nodes : List RwRef} {first : Int}, Fits fits last first nodes
  | [], _ => trivial
  | rp :: rest, first => by
    unfold Fits
    split
    · exact .inr (.inr (fits_of_forall h))
    · exact .inr (.inr (.inr (h _ _)))

theorem Cover.le_of_upright (hup : ∀ {st f x y}, ok st f (.range x y) → x ≤ y + 1)
    (h : Cover ok a nodes b) : a ≤ b := by
  refine Tiled.le (fun rp hok => ?_) h
  unfold Ccref.first Ccref.last
  unfold Ccref.Ok at hok
  split
  · omega
  · rename_i x y hu
    rw [hu] at hok
    exact hup hok

/-- `sfr_rel_gap_range` comes to its loop over the changes that overlap with `r`. -/
def RemWriter.overlapsGap (p : RemWriter) (r : Int × Int) : Prop :=
  (∀ tail ∈ p.changes.nodes.getLast?, max r.1 p.seqnrNext ≤ tail.last) ∧ ∀ head ∈ p.changes.nodes.head?,
    head.first ≤ r.2

theorem sfrRelGapRange_spec (hc : Closed ok fits irr lost) (hcov : Cover ok a p.changes.nodes b)
    (hfl : first ≤ last) (hi : ∀ s, first ≤ s → s ≤ last → irr s)
    (hfit : p.seqnrNext ≤ last → a ≤ max first p.seqnrNext ∨
      (p.overlapsGap (first, last) → Fits fits last (max first p.seqnrNext) p.changes.nodes)) :
    ∃ a' b', min a p.seqnrNext ≤ a' ∧ Cover ok a' (p.sfrRelGapRange first last).1.changes.nodes b' ∧
      Edited ok a p (p.sfrRelGapRange first last).1 ∧
      (p.seqnrNext ≤ last → a' ≤ last + 1 ∨ ∀ x y, fits x y) ∧ (last < p.seqnrNext → a' = a) := by
  unfold sfrRelGapRange
  split
  · exact ⟨a, b, Int.min_le_left _ _, hcov, .refl hcov, fun h => by omega, fun _ => rfl⟩
  have hfit := hfit (by omega)
  have hmax : (if first < p.seqnrNext then p.seqnrNext else first) = max first p.seqnrNext := by split <;> omega
  rw [hmax]
  generalize hf : max first p.seqnrNext = f at hfit
  have hfl' : f ≤ last := by omega
  have hi' : ∀ s, f ≤ s → s ≤ last → irr s := fun s h1 h2 => hi s (by omega) h2
  dsimp only
  split
  · rename_i head rest tail hn htail
    have htl := hcov.tail_last htail
    obtain rfl : head.first = a := by rw [hn] at hcov; exact hcov.1
    split
    · -- Behind the tail.
      have hup : head.first ≤ last + 1 ∨ ∀ x y, fits x y := by
        rcases hc.upright with hup | hall
        · have := hcov.le_of_upright hup
          exact .inl (by omega)
        · exact .inr hall
      have hgap : Cover ok head.first (if tail.last + 1 < f
          then p.changes.ccrefAddGap () (tail.last + 1) (f - 1) true .missing else p.changes).nodes f := by
        split
        · rw [htl]
          have := addGapTail_missing hc hcov (show b ≤ f - 1 by omega)
          rwa [Int.sub_add_cancel] at this
        · obtain rfl : b = f := by omega
          exact hcov
      have hcv := addGapTail_received hc hgap hfl' hi'
      refine ⟨_, _, Int.min_le_left _ _, hcv, .of_list hcv (Int.min_le_left _ _) fun hcnt => ?_, fun _ => hup,
        fun h => by omega⟩
      refine addGapTail_counted ?_ _ _ _
      split
      · exact addGapTail_counted hcnt _ _ _
      · exact hcnt
    split
    · -- Before the head.
      have hgap : Cover ok (last + 1) (if last < head.first - 1
          then p.changes.ccrefAddGap () (last + 1) (head.first - 1) false .missing else p.changes).nodes b := by
        split
        · exact addGapHead_missing hc hcov (by omega)
        · rw [show last + 1 = head.first by omega]
          exact hcov
      have hcv := addGapHead_received hc hgap (show f < last + 1 by omega) fun s h1 h2 => hi' s h1 (by omega)
      rw [show last + 1 - 1 = last by omega] at hcv
      refine ⟨f, b, by omega, hcv, .of_list hcv (by omega) fun hcnt => ?_, fun _ => .inl (by omega),
        fun h => by omega⟩
      refine addGapHead_counted ?_ _ _ _
      split
      · exact addGapHead_counted hcnt _ _ _
      · exact hcnt
    · have hover : p.overlapsGap (first, last) := by
        refine ⟨fun t ht => ?_, fun hd hhd => ?_⟩
        · cases htail.symm.trans ht
          dsimp only
          omega
        · rw [hn] at hhd
          cases hhd
          dsimp only
          omega
      have hcv := gapOverlap_cover hc hcov hfl' (hfit.imp_right (· hover)) hi'
      refine ⟨head.first, b, Int.min_le_left _ _, hcv, .of_list (l := ⟨_, _⟩) hcv (Int.min_le_left _ _)
        fun hcnt => ?_, fun _ => .inl (by omega), fun h => by omega⟩
      unfold Cclist.Counted at hcnt ⊢
      rw [gapOverlap_length _ hfl', hcnt]
  · -- The gap is the only range.
    rename_i hno
    have hn := nodes_eq_nil hno
    have hcv : Cover ok f (p.changes.ccrefAddGap () f last true .received).nodes (last + 1) :=
      addGapTail_received hc (by rw [hn]; rfl) hfl' hi'
    exact ⟨f, last + 1, by omega, hcv, .of_list hcv (by omega) fun hcnt => addGapTail_counted hcnt _ _ _,
      fun _ => .inl (by omega), fun h => by omega⟩

/-- The first range of the GAP that reaches `rw_seqnr_next` cuts no range of the list that does not fit. -/
def CutsFit (fits : Int → Int → Prop) (p : RemWriter) (gp : GapSMsg) : Prop :=
  ∀ r ∈ gp.ranges.find? (fun r => decide (p.seqnrNext ≤ r.2)), p.overlapsGap r →
    Fits fits r.2 (max r.1 p.seqnrNext) p.changes.nodes

instance {fits : Int → Int → Prop} [∀ a b, Decidable (fits a b)] (p : RemWriter) (gp : GapSMsg) :
    Decidable (CutsFit fits p gp) := by unfold CutsFit overlapsGap; infer_instance

/-- The ranges of a GAP, by induction on them.  `hfit` is about the first that takes effect; from then on the list
starts below what is left (`hlow`). -/
theorem foldGap_spec (hc : Closed ok fits irr lost) : ∀ {ranges : List (Int × Int)} {p : RemWriter} {a b : Int},
    Cover ok a p.changes.nodes b → (ranges.Pairwise fun r r' => r.2 < r'.1) →
    (∀ r ∈ ranges, r.1 ≤ r.2 ∧ ∀ s, r.1 ≤ s → s ≤ r.2 → irr s) →
    ((∀ r ∈ ranges, a ≤ r.1) ∨ ∀ r, ranges.find? (fun r => decide (p.seqnrNext ≤ r.2)) = some r → p.overlapsGap r →
      Fits fits r.2 (max r.1 p.seqnrNext) p.changes.nodes) →
    Edited ok a p (ranges.foldl (fun p r => (p.sfrRelGapRange r.1 r.2).1) p)
  | [], p, a, b, hcov, _, _, _ => .refl hcov
  | r :: ranges, p, a, b, hcov, hpw, hr, hfit => by
    obtain ⟨hlt, hpw'⟩ := pairwise_cons.1 hpw
    have hr' := fun r' h' => hr r' (mem_cons_of_mem r h')
    obtain ⟨hfl, hi⟩ := hr r (by simp)
    have hfit1 : p.seqnrNext ≤ r.2 → a ≤ max r.1 p.seqnrNext ∨
        (p.overlapsGap r → Fits fits r.2 (max r.1 p.seqnrNext) p.changes.nodes) := by
      intro hle
      rcases hfit with h | h
      · have := h r (by simp)
        exact .inl (by omega)
      · exact .inr (h r (by simp [List.find?, hle]))
    obtain ⟨a', b', ha', hcov', hed, hup, hsame⟩ := sfrRelGapRange_spec hc hcov hfl hi hfit1
    refine hed.trans ha' (foldGap_spec hc hcov' hpw' hr' ?_)
    by_cases hle : p.seqnrNext ≤ r.2
    · rcases hup hle with h | hall
      · refine .inl fun r' h' => ?_
        have := hlt r' h'
        omega
      · exact .inr fun r' _ _ => fits_of_forall hall
    -- The range was below `rw_seqnr_next`: nothing has happened yet.
    have heq : (p.sfrRelGapRange r.1 r.2).1 = p := by
      unfold sfrRelGapRange
      rw [if_pos (by omega)]
    rw [heq, hsame (by omega)]
    rcases hfit with h | h
    · exact .inl fun r' h' => h r' (mem_cons_of_mem r h')
    · refine .inr fun r' h' => h r' ?_
      simpa [List.find?, hle] using h'

/-- **GAP.**  A GAP edits the list, and what is in order may be handed on. -/
theorem sfrRelGap_spec (add : Int → AddRes) (hc : Closed ok fits irr lost) (hcov : Cover ok a p.changes.nodes b)
    (hi : ∀ s, gp.Covers s → irr s) (hfit : CutsFit fits p gp) :
    ∃ q, Edited ok a p q ∧ Ends add q (p.sfrRelGap add gp).1 := by
  have hfold : (bitRuns none gp.base gp.bitmap).foldl (fun p r => (p.sfrRelGapRange r.1 r.2).1)
      (if gp.gapStart < gp.base then p.alive.sfrRelGapRange gp.gapStart (gp.base - 1)
        else (p.alive, gp.gapStart)).1 = gp.ranges.foldl (fun p r => (p.sfrRelGapRange r.1 r.2).1) p.alive := by
    unfold GapSMsg.ranges
    split <;> rfl
  have hcov' : Cover ok a p.alive.changes.nodes b := by rw [alive_changes]; exact hcov
  have hfit' : CutsFit fits p.alive gp := by
    unfold CutsFit overlapsGap at hfit ⊢
    rwa [alive_changes, alive_seqnrNext]
  have hed := foldGap_spec hc hcov' (ranges_pairwise gp)
    (fun r hr => ⟨(ranges_mem hr).1, fun s h1 h2 => hi s ((ranges_mem hr).2 s h1 h2)⟩) (.inr hfit')
  unfold sfrRelGap
  dsimp only
  rw [hfold]
  generalize gp.ranges.foldl (fun p r => (p.sfrRelGapRange r.1 r.2).1) p.alive = q at hed ⊢
  refine ⟨q, hed.of_alive, ?_⟩
  split
  · split
    · exact .inr rfl
    · exact .inl rfl
  · exact .inl rfl

end Qeo.Rtps
