import QeoCore.CryptoSeal
import QeoCore.Trace
/-!
# CryptoRound — a sender and a receiver with the same master keys

The receiver gets what was sent in any order, any number of times and in any chain of buffers.  With SHA256 nothing
comes back: the sender takes a key of 32 bytes for the digest and the receiver the first 16 of them.
-/
namespace Qeo.Crypto

open List Session Trace Octets

structure Chain extends Dbw where
  filled : ∀ b ∈ next, b ≠ []
  holds : length ≤ toDbw.bytes.length

def Chain.single (x : Bytes) : Chain where
  cur := x
  next := []
  length := x.length
  filled := fun _ hb => absurd hb not_mem_nil
  holds := by simp [Dbw.bytes]

inductive Outcome
  | returned (data : Bytes)
  | refused (rc : ReturnCode)
  | stuck
  deriving DecidableEq

structure Link where
  tx : TxState
  rx : RxState
  wire : List (Bytes × Bytes)
  came : List (Bytes × Outcome)

open Link

inductive LinkEvent
  | send (data : Chain) (alloc : Allocator)
  | receive (k : Nat) (encoded : Chain) (alloc : Allocator) (stale : Bytes)

def Link.step (P : Primitives) (src dst : Host) (s : Link) : LinkEvent → Option Link
  | .send data alloc =>
    match cpsEncryptPayload P src alloc data.toDbw s.tx with
    | some (.ok e, tx) => some { s with tx := tx, wire := s.wire ++ [(data.text, e)] }
    | some (.error rc, tx) => some { s with tx := tx, came := s.came ++ [(data.text, .refused rc)] }
    | none => some { s with came := s.came ++ [(data.text, .stuck)] }
  | .receive k encoded alloc stale =>
    match s.wire[k]? with
    | none => none
    | some (x, e) =>
      if encoded.text = e then
        match cpsDecryptPayload P dst alloc stale encoded.toDbw s.rx with
        | some (.ok d, rx) => some { s with rx := rx, came := s.came ++ [(x, .returned d)] }
        | some (.error rc, rx) => some { s with rx := rx, came := s.came ++ [(x, .refused rc)] }
        | none => some { s with came := s.came ++ [(x, .stuck)] }
      else none

def Context.local (P : Primitives) (mode : Mode) (mp : Master) (id : UInt32) : Context where
  cipher := (cpsModeGet mode).1
  hash := (cpsModeGet mode).2
  master := mp
  session := (zero (cpsModeGet mode).2.sha.keySize).derive P (cpsModeGet mode).2.sha (cpsModeGet mode).1 mp id true

def Context.remote (mode : Mode) (mp : Master) : Context where
  cipher := (cpsModeGet mode).1
  hash := (cpsModeGet mode).2
  master := mp
  session := .zero (cpsModeGet mode).2.sha.keySize

def Link.start (P : Primitives) (mode : Mode) (mp : Master) (id nextId : UInt32) : Link where
  tx := ⟨nextId, .local P mode mp id, .init⟩
  rx := ⟨.remote mode mp, .init⟩
  wire := []
  came := []

def Link.Ok (dst : Host) (s : Link) : LinkEvent → Prop
  | .send data _ =>
    s.tx.ctx.hash = .sha1 ∧ data.length + 32 < 2 ^ 32 ∧
      (s.tx.ctx.cipher ≠ .none → data.length ≤ data.cur.length ∧ data.length < 2 ^ 31)
  | .receive _ encoded _ _ =>
    (s.rx.ctx.session.id ≠ 0 ∨ (encoded.head dst.order).sessionId ≠ 0) ∧
      encoded.readable s.rx.ctx.cipher (encoded.head dst.order).dlen.toNat 20

instance (dst : Host) (s : Link) (e : LinkEvent) : Decidable (Ok dst s e) := by
  cases e <;> unfold Ok <;> infer_instance

/-! ## The invariant -/

variable {P : Primitives} {src dst : Host} {mode : Mode} {mp : Master}

structure Context.IsFor (mode : Mode) (mp : Master) (c : Context) : Prop where
  cipher : c.cipher = (cpsModeGet mode).1
  hash : c.hash = (cpsModeGet mode).2
  master : c.master = mp

def Context.Keyed (P : Primitives) (c : Context) : Prop := c.session.Derived P c.hash.sha c.cipher c.master

def SentFor (P : Primitives) (o : Endian) (mode : Mode) (mp : Master) (x e : Bytes) : Prop :=
  x.length + 32 < 2 ^ 32 ∧ ((cpsModeGet mode).1 ≠ .none → x.length < 2 ^ 31) ∧ (cpsModeGet mode).2 = .sha1 ∧
    ∃ c : Context, ∃ type, c.IsFor mode mp ∧ c.Keyed P ∧ c.expected = some (type, 20) ∧ e = c.sealed P o type x

structure LinkInv (P : Primitives) (src : Host) (mode : Mode) (mp : Master) (s : Link) : Prop where
  txFor : s.tx.ctx.IsFor mode mp
  txKeyed : s.tx.ctx.Keyed P
  txIdle : s.tx.plugin.Idle
  rxFor : s.rx.ctx.IsFor mode mp
  rxKeyed : s.rx.ctx.session.id ≠ 0 → s.rx.ctx.Keyed P
  rxIdle : s.rx.plugin.Idle
  wire : ∀ p ∈ s.wire, SentFor P src.order mode mp p.1 p.2
  came : ∀ p ∈ s.came, p.2 = .returned p.1

theorem linkInv_start (id nextId : UInt32) : LinkInv P src mode mp (.start P mode mp id nextId) where
  txFor := ⟨rfl, rfl, rfl⟩
  txKeyed := derived_derive
  txIdle := ⟨rfl, rfl, rfl, rfl⟩
  rxFor := ⟨rfl, rfl, rfl⟩
  rxKeyed := fun h => absurd rfl h
  rxIdle := ⟨rfl, rfl, rfl, rfl⟩
  wire := nofun
  came := nofun

theorem expected_of_sha1 {c : Context} (hfor : c.IsFor mode mp) (hsha : (cpsModeGet mode).2 = .sha1) :
    ∃ type, c.expected = some (type, 20) := by
  unfold Context.expected
  rw [hfor.cipher, hfor.hash]
  cases mode with
  | none => cases hsha
  | hmacSha1 => exact ⟨_, rfl⟩
  | hmacSha256 => cases hsha
  | aes128HmacSha1 => exact ⟨_, rfl⟩
  | aes256HmacSha256 => cases hsha

theorem renew_keyed {t t1 : TxState} (hr : t.renew P src = some t1) (hk : t.ctx.Keyed P) : t1.ctx.Keyed P := by
  obtain ⟨_, hctx, ⟨_, rfl⟩ | ⟨_, _, hsp⟩⟩ := TxState.renew_some hr
  · exact hk
  · rw [hctx, hsp]
    exact derived_derive

theorem send_inv (hi : LinkInv P src mode mp s)
    (hok : Ok dst s (.send data alloc)) (hstep : step P src dst s (.send data alloc) = some s') :
    LinkInv P src mode mp s' := by
  obtain ⟨hsha, hlen, hone⟩ := hok
  have hmode : (cpsModeGet mode).2 = .sha1 := by rw [← hi.txFor.hash, hsha]
  obtain ⟨type, hexp⟩ := expected_of_sha1 hi.txFor hmode
  obtain ⟨t1, hr1⟩ := @TxState.renew_of_idle P src s.tx hi.txIdle
  obtain ⟨_, hctx, _⟩ := TxState.renew_some hr1
  have hfor1 : t1.ctx.IsFor mode mp := by
    rw [hctx]
    exact ⟨hi.txFor.cipher, hi.txFor.hash, hi.txFor.master⟩
  have hkeyed1 := renew_keyed hr1 hi.txKeyed
  obtain ⟨t', henc, hidle', _, hctx'⟩ := @cpsEncryptPayload_sealed P src alloc data.toDbw s.tx t1 type 20 hexp hi.txIdle
    hr1 data.holds hone
  have htext : data.text.length = data.length := by
    rw [Dbw.text, length_take]
    exact Nat.min_eq_left data.holds
  rw [step, henc] at hstep
  cases hstep
  refine ⟨?_, ?_, hidle', hi.rxFor, hi.rxKeyed, hi.rxIdle, ?_, hi.came⟩
  · rw [hctx']
    exact ⟨hfor1.cipher, hfor1.hash, hfor1.master⟩
  · -- the counter is no part of the keys
    rw [hctx']
    exact ⟨hkeyed1.hmac, hkeyed1.key, hkeyed1.salt⟩
  intro p hp
  rcases mem_append.1 hp with hp | hp
  · exact hi.wire p hp
  obtain rfl := mem_singleton.1 hp
  refine ⟨by rw [htext]; exact hlen, fun hc => ?_, hmode, t1.ctx, type, hfor1, hkeyed1, ?_, rfl⟩
  · rw [htext]
    exact (hone (by rwa [hi.txFor.cipher])).2
  · rw [← hexp]
    exact expected_congr (by rw [hfor1.cipher, hi.txFor.cipher]) (by rw [hfor1.hash, hi.txFor.hash])

theorem sessionFor_keyed {r : RxState} (hfor : r.ctx.IsFor mode mp) (hkeyed : r.ctx.session.id ≠ 0 → r.ctx.Keyed P)
    (hidle : r.plugin.Idle) {id : UInt32} (hid : r.ctx.session.id ≠ 0 ∨ id ≠ 0) :
    ∃ sp, r.sessionFor P dst id = some sp ∧ sp.id = id ∧ sp.Derived P r.ctx.hash.sha r.ctx.cipher mp := by
  unfold RxState.sessionFor
  by_cases heq : r.ctx.session.id = id
  · have hne : r.ctx.session.id ≠ 0 := by
      rcases hid with h | h
      · exact h
      · rwa [heq]
    have hd := hkeyed hne
    rw [Context.Keyed, hfor.master] at hd
    rw [if_pos heq]
    exact ⟨_, rfl, heq, hd⟩
  · rw [if_neg heq, cpsInitSession_of_free hidle.hmacHeld, hfor.master]
    exact ⟨_, rfl, derive_id, derived_derive⟩

theorem receive_inv (hi : LinkInv P src mode mp s) (hok : Ok dst s (.receive k enc alloc stale))
    (hstep : step P src dst s (.receive k enc alloc stale) = some s') : LinkInv P src mode mp s' := by
  obtain ⟨hid, hread⟩ := hok
  rw [step] at hstep
  split at hstep
  · cases hstep
  rename_i x e hwire
  split at hstep
  · rename_i htext
    have hsent : SentFor P src.order mode mp x e := hi.wire (x, e) (mem_of_getElem? hwire)
    obtain ⟨hx, hx', hsha, c, type, hfor, hkeyed, hexp, rfl⟩ := hsent
    have hcipher : s.rx.ctx.cipher = c.cipher := by rw [hi.rxFor.cipher, hfor.cipher]
    have hhash : s.rx.ctx.hash = c.hash := by rw [hi.rxFor.hash, hfor.hash]
    -- the header that the condition speaks of is the one that was written
    have hhd : enc.head dst.order = ⟨src.order, type, c.session.id,
        if c.cipher = .none then 0 else c.session.counter, UInt32.ofNat x.length⟩ := by
      rw [Dbw.head, (laid_of_sealed htext).head]
      exact readHeader_header _ _ (expected_mem hexp) _ _ _
    have hdlen : (UInt32.ofNat x.length).toNat = x.length := by
      rw [UInt32.toNat_ofNat']
      omega
    rw [hhd] at hid hread
    rw [hdlen, hcipher] at hread
    obtain ⟨sp, hsp, hspid, hder⟩ := @sessionFor_keyed P dst mode mp s.rx hi.rxFor hi.rxKeyed hi.rxIdle c.session.id hid
    rw [hhash, hcipher] at hder
    have hkeyed' : c.session.Derived P c.hash.sha c.cipher mp := by
      have := hkeyed
      rwa [Context.Keyed, hfor.master] at this
    obtain ⟨pl, hdec, hidle⟩ := @cpsDecryptPayload_sealed P dst alloc c s.rx enc.toDbw src.order type x stale sp hexp
      (by rw [hfor.hash, hsha]) hcipher hhash htext enc.holds hx (by rwa [hfor.cipher]) hsp (hder.agrees hkeyed' hspid)
      hread hi.rxIdle
    rw [hdec] at hstep
    cases hstep
    refine ⟨hi.txFor, hi.txKeyed, hi.txIdle, ⟨hi.rxFor.cipher, hi.rxFor.hash, hi.rxFor.master⟩, fun _ => ?_, hidle,
      hi.wire, ?_⟩
    · rw [← hhash, ← hcipher, ← hi.rxFor.master] at hder
      exact hder
    intro p hp
    rcases mem_append.1 hp with hp | hp
    · exact hi.came p hp
    · obtain rfl := mem_singleton.1 hp
      rfl
  · cases hstep

/-- **Protected payloads come back**: in every run whose steps go well, whatever the mode, the master keys, the session
ids and the two byte orders, each payload that is sent and received is returned as it was. -/
theorem returned_of_run {id nextId : UInt32} {es : List LinkEvent} {s : Link}
    (hrun : Run (Link.step P src dst) (Link.Ok dst) (.start P mode mp id nextId) es s) :
    ∀ p ∈ s.came, p.2 = .returned p.1 := by
  refine (hrun.invariant (fun _ s => LinkInv P src mode mp s) (linkInv_start id nextId) ?_).came
  intro es s e s' hi hok hstep
  cases e with
  | send data alloc => exact send_inv hi hok hstep
  | receive k enc alloc stale => exact receive_inv hi hok hstep

def bigHost : Host := ⟨.big, .pthreads⟩

def littleHost : Host := ⟨.little, .pthreads⟩

def someMaster (n : Nat) : Master := ⟨5, replicate n 1, replicate n 2, replicate n 3⟩

def roomy : Allocator where
  mem := fun n => replicate (n + 100) 0
  enough := fun n => by
    rw [length_replicate]
    omega

def twentyBytes : Bytes := replicate 20 7

def twentySealed : Bytes :=
  (Context.local sumPrimitives .aes128HmacSha1 (someMaster 16) 1).sealed sumPrimitives .big 0x200 twentyBytes

def twentyCut : Chain where
  cur := twentySealed.take 40
  next := [twentySealed.drop 40]
  length := 72
  filled := by decide
  holds := by decide

def twiceReceived : List LinkEvent :=
  [.send (.single twentyBytes) roomy, .receive 0 twentyCut roomy [], .receive 0 (.single twentySealed) roomy []]

theorem returned_twice :
    let s := (exec (Link.step sumPrimitives bigHost littleHost) (Link.Ok littleHost)
      (.start sumPrimitives .aes128HmacSha1 (someMaster 16) 1 2) twiceReceived).get (by decide +kernel)
    s.came.length = 2 ∧ ∀ p ∈ s.came, p.2 = .returned p.1 :=
  ⟨by decide +kernel, returned_of_run (Run.of_isSome _)⟩

/-- With SHA256 a payload of one byte, sent and received in one buffer, is refused. -/
theorem not_returned :
    ∃ s, Run (Link.step sumPrimitives littleHost littleHost) (fun _ _ => True)
        (.start sumPrimitives .hmacSha256 (someMaster 32) 1 2)
        [.send (.single [7]) roomy, .receive 0 (.single ((Context.local sumPrimitives .hmacSha256 (someMaster 32)
          1).sealed sumPrimitives .little 0x101 [7])) roomy []] s ∧
      s.came = [([7], .refused .badParameter)] := by
  refine ⟨_, Run.of_isSome (by decide +kernel), ?_⟩
  decide +kernel

end Qeo.Crypto
