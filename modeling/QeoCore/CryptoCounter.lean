import Mathlib.Data.List.Nodup
import QeoCore.CryptoRound
/-!
# CryptoCounter — the counter blocks of a sender

Every 16 bytes of a payload take one counter block, and a block must not be used twice in a session.  A payload in a
chain that is not ended where it ends leaves the counter where it was (`not_nodup_used`).
-/
namespace Qeo.Crypto

open List Option TxState CtrMode Octets Trace

variable {used : List (UInt32 × Nat)} {s : AesData} {t : TxState} {lk : Locking} {keyLen : Nat}

/-! ## Counter blocks -/

def IsBlock (iv n b : Nat) : Prop := b = (iv + n) % 2 ^ 128 ∨ ∃ m, m + 2 ^ 40 = iv + n ∧ b = m % 2 ^ 128

theorem counterBlock_eq (salt : Bytes) (counter : UInt32) :
    counterBlock salt counter = beNat salt + counter.toNat ∨
      counterBlock salt counter + 2 ^ 40 = beNat salt + counter.toNat := by
  have hc : counter.toNat < 2 ^ 32 := counter.toNat_lt
  unfold counterBlock
  dsimp only
  split <;> omega

theorem isBlock_start (key salt : Bytes) (keyLen i : Nat) (counter : UInt32) :
    IsBlock (beNat salt) (counter.toNat + i) ((AesCtx.start key keyLen salt counter).block i) := by
  show IsBlock _ _ ((counterBlock salt counter + i) % 2 ^ 128)
  rcases counterBlock_eq salt counter with h | h
  · exact .inl (by rw [h, Nat.add_assoc])
  · exact .inr ⟨counterBlock salt counter + i, by omega, rfl⟩

theorem IsBlock.inj (h : IsBlock iv n b) (h' : IsBlock iv n' b) (hn : n < 2 ^ 39) (hn' : n' < 2 ^ 39) : n = n' := by
  rcases h with h | ⟨m, hm, h⟩
  all_goals
    rcases h' with h' | ⟨m', hm', h'⟩
    · omega
    · omega

/-! ## What a payload does to the counter -/

variable {P : Primitives} {h : Host} {alloc : Allocator}

theorem spSysAesCtrUpdate_take (src mem : Bytes) (off : Nat) (pl : Plugin) :
    spSysAesCtrUpdate P (src.take (src.length % 2 ^ 32)) mem off pl = spSysAesCtrUpdate P src mem off pl := by
  have hn : (src.take (src.length % 2 ^ 32)).length % 2 ^ 32 = src.length % 2 ^ 32 := by
    rw [length_take]
    omega
  unfold spSysAesCtrUpdate
  cases pl.aes with
  | none => rfl
  | some c =>
    dsimp only
    rw [hn, take_take, Nat.min_self]

theorem aesReq_full_take (hreq : aesReq P lk key keyLen salt .cryptFull d s = some (.ok, s')) :
    ∃ s'', aesReq P lk key keyLen salt .cryptFull (d.take (d.length % 2 ^ 32)) s = some (.ok, s'') ∧
      s''.secure = s'.secure ∧ s''.plugin = s'.plugin := by
  obtain ⟨s1, hbegin, hfinish⟩ := andThen_ok.1 hreq
  obtain ⟨s2, hupdate, hend⟩ := andThen_ok.1 hfinish
  obtain ⟨⟨rc, mem, pl⟩, hsys, heq⟩ := map_eq_some_iff.1 hupdate
  obtain ⟨⟨counter, pl'⟩, hsysEnd, heqEnd⟩ := map_eq_some_iff.1 hend
  cases heq
  cases heqEnd
  have hsys' := spSysAesCtrUpdate_take (P := P) d s1.mem s1.rdata s1.plugin
  rw [hsys] at hsys'
  refine ⟨⟨mem, s1.rdata + (d.take (d.length % 2 ^ 32)).length, counter, pl'⟩, ?_, rfl, rfl⟩
  apply andThen_ok.2
  refine ⟨s1, hbegin, andThen_ok.2 ⟨⟨mem, s1.rdata + (d.take (d.length % 2 ^ 32)).length, s1.secure, pl⟩, ?_, ?_⟩⟩
  · rw [AesData.update, hsys']
    rfl
  · rw [hsysEnd]
    rfl

theorem aesReq_unblocked (hact : act = .cryptFull ∨ act = .cryptBegin)
    (hreq : aesReq P lk key keyLen salt act d s = some r) : (s.plugin.aesHeld && lk.waits) = false := by
  by_contra hheld
  rw [Bool.not_eq_false] at hheld
  have hbegin : spSysAesCtrBegin lk salt key (keyLen * 8) s.secure s.plugin = none := by
    rw [spSysAesCtrBegin, if_pos hheld]
  rcases hact with rfl | rfl <;> rw [aesReq, hbegin] at hreq <;> cases hreq

theorem cryptInto_unblocked (hc : c.cipher ≠ .none) (hcrypt : cryptInto P h c data len s = some r) :
    (s.plugin.aesHeld && h.locking.waits) = false := by
  rw [cryptInto, if_neg hc] at hcrypt
  split at hcrypt
  · exact aesReq_unblocked (.inl rfl) hcrypt
  rename_i hle
  rw [secAesCtrCryptDbw, if_neg hle, dbwLoop] at hcrypt
  cases hreq : aesReq P h.locking c.session.key c.cipher.keySize c.session.salt .cryptBegin data.cur
      { s with rdata := len } with
  | none =>
    rw [hreq] at hcrypt
    cases hcrypt
  | some r' => exact aesReq_unblocked (s := { s with rdata := len }) (.inr rfl) hreq

/-- **A payload uses the blocks from the counter on**, and the counter is moved on behind them, or the text was not
ended and the lock is not released. -/
theorem cryptInto_blocks
    (hc : c.cipher ≠ .none) (hone : data.length ≤ data.cur.length ∨ data.length < 2 ^ 32) (hmem : len ≤ mem.length)
    (h24 : 24 ≤ len) (hcrypt : cryptInto P h c data len ⟨mem, 24, c.session.counter, pl⟩ = some (.ok, s)) :
    ∃ k, k ≤ 2 ^ 28 ∧ (pl.aesHeld && h.locking.waits) = false ∧ s.plugin.blocks = pl.blocks
        ++ (range k).map (AesCtx.start c.session.key c.cipher.keySize c.session.salt c.session.counter).block ∧
      (s.secure = c.session.counter + UInt32.ofNat k ∨
        (s.plugin.aesHeld = true ∧ data.cur.length < data.length ∧ data.closed = false)) := by
  have hroom : AesData.Room ⟨mem, 24, c.session.counter, pl⟩ [] := by
    show 24 + 0 ≤ mem.length
    omega
  rw [cryptInto, if_neg hc] at hcrypt
  split at hcrypt
  · -- in one buffer
    obtain ⟨s', hreq, hsecure, hplugin⟩ := aesReq_full_take hcrypt
    generalize hx : (data.cur.take data.length).take ((data.cur.take data.length).length % 2 ^ 32) = x at hreq
    have hlt : x.length < 2 ^ 32 := by
      rw [← hx, length_take]
      omega
    obtain ⟨hheld, ⟨h31, _⟩, rfl⟩ := (aesReq_full c.cipher.keySize_cases hroom hlt).1 hreq
    refine ⟨blockCount x.length, ?_, hheld, ?_, .inl hsecure.symm⟩
    · unfold blockCount
      omega
    · rw [← hplugin, ← CtrMode.started_zero]
      rfl
  rename_i hle
  have hlen := hone.resolve_left hle
  have htext := @Dbw.length_text_le data
  obtain ⟨hheld, _, _, rfl⟩ := @secAesCtrCryptDbw_ok P h.locking c.session.key c.session.salt c.cipher.keySize data
    ⟨mem, len, c.session.counter, pl⟩ s c.cipher.keySize_cases hlen (show len + 0 ≤ mem.length by omega) hcrypt
  refine ⟨blockCount data.text.length, ?_, hheld, ?_, ?_⟩
  · unfold blockCount
    omega
  · rw [← CtrMode.started_zero]
    split
    · rfl
    · rfl
  · split
    · exact .inl rfl
    · rename_i hcl
      exact .inr ⟨rfl, by omega, by simpa using hcl⟩

/-! ## The sender -/

structure Sealing where
  tx : TxState
  used : List (UInt32 × Nat)

inductive SealEvent
  | encrypt (data : Chain) (alloc : Allocator)
  /-- Ids drawn for something else. -/
  | draw (n : UInt32)

def Sealing.step (P : Primitives) (h : Host) (s : Sealing) : SealEvent → Option Sealing
  | .encrypt data alloc =>
    (cpsEncryptPayload P h alloc data.toDbw s.tx).map fun
      | (.ok _, tx) =>
        { tx := tx
          used := s.used ++ (tx.plugin.blocks.drop s.tx.plugin.blocks.length).map fun b => (tx.ctx.session.id, b) }
      | (.error _, tx) => { s with tx := tx }
  | .draw n => some { s with tx := { s.tx with nextId := s.tx.nextId + n } }

def Sealing.start (P : Primitives) (mode : Mode) (mp : Master) (n : UInt32) : Sealing where
  tx := ⟨n + 1, .local P mode mp n, .init⟩
  used := []

def Sealing.NoWrap (s : Sealing) : SealEvent → Prop
  | .encrypt _ _ => s.tx.nextId.toNat + 1 < 2 ^ 32
  | .draw n => s.tx.nextId.toNat + n.toNat < 2 ^ 32

def SealEvent.Ok (h : Host) : SealEvent → Prop
  | .encrypt data _ =>
    data.length ≤ data.cur.length ∨ (data.length < 2 ^ 32 ∧ (h.locking.waits = true ∨ data.closed = true))
  | .draw _ => True

instance (s : Sealing) : (e : SealEvent) → Decidable (s.NoWrap e)
  | .encrypt _ _ => inferInstanceAs (Decidable (_ < _))
  | .draw _ => inferInstanceAs (Decidable (_ < _))

instance (h : Host) : (e : SealEvent) → Decidable (e.Ok h)
  | .encrypt _ _ => inferInstanceAs (Decidable (_ ∨ _))
  | .draw _ => .isTrue trivial

structure SealInv (lk : Locking) (s : Sealing) : Prop where
  fresh : s.tx.ctx.session.id.toNat < s.tx.nextId.toNat
  ids : ∀ p ∈ s.used, p.1.toNat ≤ s.tx.ctx.session.id.toNat
  below : (s.tx.plugin.aesHeld && lk.waits) = true ∨ ∀ p ∈ s.used, p.1 = s.tx.ctx.session.id →
    ∃ n < s.tx.ctx.session.counter.toNat, IsBlock (beNat s.tx.ctx.session.salt) n p.2
  plain : s.tx.ctx.cipher = .none → s.used = []
  nodup : s.used.Nodup

theorem sealInv_start (hn : n.toNat + 1 < 2 ^ 32) : SealInv lk (.start P mode mp n) where
  fresh := by
    show ((Session.zero _).derive P _ _ mp n true).id.toNat < (n + 1).toNat
    rw [Session.derive_id]
    show n.toNat < (n.toNat + 1) % 2 ^ 32
    omega
  ids := nofun
  below := .inr nofun
  plain := fun _ => rfl
  nodup := nodup_nil

structure Ready (t : TxState) (used : List (UInt32 × Nat)) : Prop where
  fresh : t.ctx.session.id.toNat < t.nextId.toNat
  ids : ∀ p ∈ used, p.1.toNat ≤ t.ctx.session.id.toNat
  below : ∀ p ∈ used, p.1 = t.ctx.session.id →
    ∃ n < t.ctx.session.counter.toNat, IsBlock (beNat t.ctx.session.salt) n p.2

theorem Ready.renew (hready : Ready t used)
    (hwrap : t.nextId.toNat + 1 < 2 ^ 32) (hr : t.renew P h = some t1) : Ready t1 used := by
  obtain ⟨_, _, ⟨_, rfl⟩ | ⟨_, hnext, hsp⟩⟩ := renew_some hr
  · exact hready
  have hid : t1.ctx.session.id = t.nextId := by rw [hsp, Session.derive_id]
  have hfresh := hready.fresh
  refine ⟨?_, ?_, ?_⟩
  · rw [hid, hnext]
    show t.nextId.toNat < (t.nextId.toNat + 1) % 2 ^ 32
    omega
  · intro p hp
    have := hready.ids p hp
    rw [hid]
    omega
  · intro p hp heq
    have := hready.ids p hp
    rw [heq, hid] at this
    omega

theorem renew_counter (hc : t.ctx.cipher ≠ .none) (hr : t.renew P h = some t1) :
    t1.ctx.session.counter.toNat < maxBlocksPerSession := by
  obtain ⟨_, _, ⟨hren, rfl⟩ | ⟨_, _, hsp⟩⟩ := renew_some hr
  · rw [renews, decide_eq_true hc, Bool.true_and, Bool.or_eq_false_iff] at hren
    simpa using hren.2
  · rw [hsp, Session.derive_counter hc]
    decide

theorem cpsEncryptPayload_cases (henc : cpsEncryptPayload P h alloc data t = some (res, t')) :
    (∃ rc, res = .error rc ∧ t' = t) ∨ ∃ t1 s rc, t.renew P h = some t1 ∧
        cryptInto P h t1.ctx data (alignUp data.length + 32 + t.ctx.hash.sha.size)
          ⟨alloc.mem (alignUp data.length + 32 + t.ctx.hash.sha.size), 24, t1.ctx.session.counter, t1.plugin⟩
            = some (rc, s) ∧ t'.nextId = t1.nextId ∧ t'.plugin = s.plugin ∧
        (rc ≠ .ok ∧ res = .error rc ∧ t'.ctx = t1.ctx ∨ rc = .ok ∧ (∃ e, res = .ok e) ∧
            t'.ctx = { t1.ctx with session := { t1.ctx.session with counter := s.secure } }) := by
  unfold cpsEncryptPayload at henc
  split at henc
  · cases henc
    exact .inl ⟨_, rfl, rfl⟩
  obtain ⟨t1, hr, henc⟩ := bind_eq_some_iff.1 henc
  obtain ⟨⟨rc, s⟩, hcrypt, henc⟩ := bind_eq_some_iff.1 henc
  refine .inr ⟨t1, s, rc, hr, hcrypt, ?_⟩
  cases rc with
  | ok =>
    obtain ⟨⟨rc, digest, pl⟩, hmac, henc⟩ := map_eq_some_iff.1 henc
    obtain rfl : rc = .ok := by
      refine secHmac_code ?_ t.ctx.hash.sha.keySize_pos hmac
      intro hnil
      have hlen := congrArg length (append_eq_nil_iff.1 hnil).1
      rw [length_header] at hlen
      cases hlen
    cases henc
    exact ⟨rfl, rfl, .inr ⟨rfl, ⟨_, rfl⟩, rfl⟩⟩
  | _ =>
    cases henc
    exact ⟨rfl, rfl, .inl ⟨by decide, rfl, rfl⟩⟩

theorem cryptInto_plain (hc : c.cipher = .none)
    (hcrypt : cryptInto P h c data len s = some (rc, s')) : s'.plugin = s.plugin := by
  rw [cryptInto, if_pos hc] at hcrypt
  cases hcrypt
  rfl

theorem Ready.nodup (hready : Ready t used)
    (hused : used.Nodup) (hcount : t.ctx.session.counter.toNat < maxBlocksPerSession) (hk : k ≤ 2 ^ 28) :
    (used ++ ((List.range k).map (AesCtx.start key keyLen t.ctx.session.salt t.ctx.session.counter).block).map
      fun b => (t.ctx.session.id, b)).Nodup := by
  have hmax : maxBlocksPerSession = 2000 := rfl
  have hblock := isBlock_start key t.ctx.session.salt keyLen
  apply List.Nodup.append hused
  · rw [List.map_map]
    apply List.Nodup.map_on
    · intro i hi j hj hij
      rw [mem_range] at hi hj
      have hi' := hblock i t.ctx.session.counter
      rw [(Prod.mk.inj hij).2] at hi'
      have := hi'.inj (hblock j t.ctx.session.counter) (by omega) (by omega)
      omega
    · exact nodup_range
  · intro p hp hp'
    obtain ⟨b, hb, rfl⟩ := mem_map.1 hp'
    obtain ⟨i, hi, rfl⟩ := mem_map.1 hb
    rw [mem_range] at hi
    obtain ⟨n, hn, hisn⟩ := hready.below _ hp rfl
    have := hisn.inj (hblock i t.ctx.session.counter) (by omega) (by omega)
    omega

theorem Ready.below_next
    (hready : Ready t used) (hcount : t.ctx.session.counter.toNat < maxBlocksPerSession) (hk : k ≤ 2 ^ 28)
    (hnext : counter = t.ctx.session.counter + UInt32.ofNat k) :
    ∀ p ∈ used ++ ((range k).map (AesCtx.start key keyLen t.ctx.session.salt t.ctx.session.counter).block).map
      (fun b => (t.ctx.session.id, b)), p.1 = t.ctx.session.id →
        ∃ n < counter.toNat, IsBlock (beNat t.ctx.session.salt) n p.2 := by
  have hmax : maxBlocksPerSession = 2000 := rfl
  have hto : counter.toNat = t.ctx.session.counter.toNat + k := by
    rw [hnext, UInt32.toNat_add, UInt32.toNat_ofNat']
    omega
  intro p hp heq
  rcases mem_append.1 hp with hp | hp
  · obtain ⟨n, hn, hisn⟩ := hready.below p hp heq
    exact ⟨n, by omega, hisn⟩
  obtain ⟨b, hb, rfl⟩ := mem_map.1 hp
  obtain ⟨i, hi, rfl⟩ := mem_map.1 hb
  rw [mem_range] at hi
  exact ⟨t.ctx.session.counter.toNat + i, by omega, isBlock_start key t.ctx.session.salt keyLen i _⟩

theorem encrypt_inv {s s' : Sealing} (hi : SealInv h.locking s) (hwrap : s.NoWrap (.encrypt data alloc))
    (hok : SealEvent.Ok h (.encrypt data alloc)) (hstep : s.step P h (.encrypt data alloc) = some s') :
    SealInv h.locking s' := by
  obtain ⟨⟨res, t'⟩, henc, heq⟩ := map_eq_some_iff.1 hstep
  obtain ⟨rc, rfl, rfl⟩ | ⟨t1, d, rc, hr, hcrypt, hnext, hpl, hres⟩ := cpsEncryptPayload_cases henc
  · cases heq
    exact hi
  obtain ⟨hpl1, hctx1, _⟩ := renew_some hr
  have hcipher : t1.ctx.cipher = s.tx.ctx.cipher := by rw [hctx1]
  by_cases hc : s.tx.ctx.cipher = .none
  · -- nothing has been encrypted, and nothing is
    have hused := hi.plain hc
    have hready : Ready t1 s.used := by
      refine Ready.renew ⟨hi.fresh, hi.ids, ?_⟩ hwrap hr
      rw [hused]
      exact nofun
    have hsame : t'.plugin = s.tx.plugin := by rw [hpl, cryptInto_plain (hcipher.trans hc) hcrypt, hpl1]
    have hs' : s' = { s with tx := t' } := by
      obtain ⟨_, rfl, _⟩ | ⟨_, ⟨e, rfl⟩, _⟩ := hres
      · exact heq.symm
      · rw [← heq]
        simp [hsame, drop_length]
    have hsession : t'.ctx.session.id = t1.ctx.session.id ∧ t'.ctx.cipher = t1.ctx.cipher := by
      obtain ⟨_, _, hctx⟩ | ⟨_, _, hctx⟩ := hres <;>
      · rw [hctx]
        exact ⟨rfl, rfl⟩
    subst hs'
    refine ⟨?_, ?_, .inr ?_, fun _ => hused, hi.nodup⟩
    · rw [hsession.1, hnext]
      exact hready.fresh
    all_goals
      rw [hused]
      exact nofun
  have hfree := cryptInto_unblocked (hcipher ▸ hc) hcrypt
  have hready : Ready t1 s.used := by
    refine Ready.renew ⟨hi.fresh, hi.ids, hi.below.resolve_left ?_⟩ hwrap hr
    rw [← hpl1, hfree]
    exact Bool.false_ne_true
  obtain ⟨_, rfl, hctx⟩ | ⟨rfl, ⟨e, rfl⟩, hctx⟩ := hres
  · cases heq
    refine ⟨?_, ?_, .inr ?_, fun hplain => absurd ?_ hc, hi.nodup⟩
    · show t'.ctx.session.id.toNat < t'.nextId.toNat
      rw [hctx, hnext]
      exact hready.fresh
    · show ∀ p ∈ s.used, p.1.toNat ≤ t'.ctx.session.id.toNat
      rw [hctx]
      exact hready.ids
    · rw [hctx]
      exact hready.below
    · rw [← hcipher, ← hctx]
      exact hplain
  have hcount := renew_counter hc hr
  have henough := alloc.enough (alignUp data.length + 32 + s.tx.ctx.hash.sha.size)
  obtain ⟨k, hk, _, hblocks, hcounter⟩ := cryptInto_blocks (hcipher ▸ hc) (hok.imp id And.left) henough
    (by omega) hcrypt
  have hnew : t'.plugin.blocks.drop s.tx.plugin.blocks.length = (range k).map
      (AesCtx.start t1.ctx.session.key t1.ctx.cipher.keySize t1.ctx.session.salt t1.ctx.session.counter).block := by
    rw [hpl, hblocks, hpl1, drop_left]
  have hid : t'.ctx.session.id = t1.ctx.session.id := by rw [hctx]
  subst heq
  refine ⟨?_, ?_, ?_, fun hplain => absurd ?_ hc, ?_⟩
  · rw [hid, hnext]
    exact hready.fresh
  · intro p hp
    rw [hid]
    rcases mem_append.1 hp with hp | hp
    · exact hready.ids p hp
    · obtain ⟨b, _, rfl⟩ := mem_map.1 hp
      exact Nat.le_of_eq (congrArg UInt32.toNat hid)
  · rcases hcounter with hcounter | ⟨hheld, hmore, hopen⟩
    · right
      dsimp only
      rw [hnew, hctx]
      exact hready.below_next hcount hk hcounter
    -- the text was not ended: the lock waits, for otherwise it would have been closed
    left
    obtain hle | ⟨_, hwaits | hclosed⟩ := hok
    · omega
    · dsimp only
      rw [hpl, hheld, hwaits]
      rfl
    · rw [hopen] at hclosed
      cases hclosed
  · rw [← hcipher]
    have := hctx ▸ hplain
    exact this
  · dsimp only
    rw [hnew, hid]
    exact hready.nodup hi.nodup hcount hk

theorem draw_inv {s : Sealing} (hi : SealInv lk s) (hwrap : s.NoWrap (.draw n)) :
    SealInv lk { s with tx := { s.tx with nextId := s.tx.nextId + n } } where
  fresh := by
    have hfresh := hi.fresh
    show s.tx.ctx.session.id.toNat < (s.tx.nextId + n).toNat
    rw [UInt32.toNat_add]
    have : s.tx.nextId.toNat + n.toNat < 2 ^ 32 := hwrap
    omega
  ids := hi.ids
  below := hi.below
  plain := hi.plain
  nodup := hi.nodup

/-- **Key stream is not reused**: in every run in which the session ids do not wrap around and the chains are ended, or
the lock waits, session ids and counter blocks of encrypted payloads are all different. -/
theorem nodup_used {mode : Mode} {mp : Master} {n : UInt32} {es : List SealEvent} {s : Sealing}
    (hn : n.toNat + 1 < 2 ^ 32)
    (hrun : Run (Sealing.step P h) (fun s e => s.NoWrap e ∧ e.Ok h) (.start P mode mp n) es s) : s.used.Nodup := by
  refine (hrun.invariant (fun _ s => SealInv h.locking s) (sealInv_start hn) ?_).nodup
  intro es s e s' hi hok hstep
  cases e with
  | encrypt data alloc => exact encrypt_inv hi hok.1 hok.2 hstep
  | draw n =>
    cases hstep
    exact draw_inv hi hok.1

def oneThenTwo : Chain where
  cur := [7]
  next := [[8, 9]]
  length := 3
  filled := by decide
  holds := by decide

def threeSealed : List SealEvent :=
  [.encrypt (.single twentyBytes) roomy, .draw 3,
    .encrypt { cur := twentyBytes, next := [[8, 9]], length := 22, filled := by decide, holds := by decide } roomy,
    .encrypt (.single [7]) roomy]

theorem nodup_used_three :
    let s := (exec (Sealing.step sumPrimitives ⟨.little, .win32⟩) (fun s e => s.NoWrap e ∧ e.Ok ⟨.little, .win32⟩)
      (Sealing.start sumPrimitives .aes128HmacSha1 (someMaster 16) 1) threeSealed).get (by decide +kernel)
    s.used.length = 5 ∧ s.used.Nodup :=
  ⟨by decide +kernel, nodup_used (by decide) (Run.of_isSome _)⟩

/-- Where the lock does not wait, a chain that is not ended and sent twice is encrypted twice with the same block. -/
theorem not_nodup_used :
    ∃ s, Run (Sealing.step sumPrimitives ⟨.little, .win32⟩) Sealing.NoWrap
        (.start sumPrimitives .aes128HmacSha1 (someMaster 16) 1)
          [.encrypt oneThenTwo roomy, .encrypt oneThenTwo roomy] s ∧
      ¬ s.used.Nodup := by
  refine ⟨_, Run.of_isSome (by decide +kernel), ?_⟩
  decide +kernel

end Qeo.Crypto
