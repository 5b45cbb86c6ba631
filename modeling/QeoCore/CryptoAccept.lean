import QeoCore.CryptoTokens
/-!
# CryptoAccept — the payloads that a receiver accepts

What a receiver accepts is genuine (`genuine_of_run`) if it is hashed with SHA1, in fragments whose end is found, and if
the session keys at hand are those of the id in the header.  They are not when a payload says it is of session 0 before
there was any session (`not_genuine`), nor when the keys of the writer have been replaced by others of the same kinds.
-/
namespace Qeo.Crypto

open List Option AesCtx CtrMode Trace

/-! ## The keys of a remote writer -/

structure EpKeys where
  known : Bool
  ctx : Context
  signHash : HashKind
  deriving DecidableEq

def cpsSetMaster (mp : Master) (m : KeyMaterial) : Master :=
  let n := if m.hashKind = .sha256 then 32 else 16
  { id := m.masterKeyId
    masterKey := m.masterKey.take n
    hmacKeyId := m.hmacKeyId.take n
    initVector := if m.cipherKind = .none then mp.initVector else m.initializationVector.take n }

def EpKeys.same (e : EpKeys) (dkm skm : KeyMaterial) : Bool :=
  e.known && decide (e.ctx.cipher = dkm.cipherKind) && decide (e.ctx.hash = dkm.hashKind) &&
    decide (e.signHash = skm.hashKind)

/-- `cps_add_ep_keys`.  Without signing keys, the master key for them is written behind the memory that was asked
for. -/
def cpsAddEpKeys (e : EpKeys) (dkm skm : KeyMaterial) : Option EpKeys :=
  if skm.hashKind = .none then none
  else
    let session := if e.same dkm skm then e.ctx.session else .zero dkm.hashKind.sha.keySize
    some ⟨true, ⟨dkm.cipherKind, dkm.hashKind, cpsSetMaster e.ctx.master dkm, session⟩, skm.hashKind⟩

structure Receiver where
  kk : KxKeys
  tokenRx : Session
  ep : EpKeys
  plugin : Plugin
  deriving DecidableEq

variable (P : Primitives) (h : Host)

def dataFirst (t1 t2 : KeyMaterial) : KeyMaterial × KeyMaterial :=
  if t1.cipherKind = .none ∧ t2.cipherKind ≠ .none then (t2, t1) else (t1, t2)

def cpsSetRemEpTokens (buffer : Bytes) (t1 t2 : KeyMaterial) (tokens : List Token) (s : Receiver) :
    Option (ReturnCode × Receiver) :=
  (cpsParseTokens P h buffer tokens t1 t2 s.kk s.tokenRx s.plugin).bind fun
    | (.error rc, rx, pl) => some (rc, { s with tokenRx := rx, plugin := pl })
    | (.ok (t1, t2), rx, pl) =>
      (cpsAddEpKeys s.ep (dataFirst t1 t2).1 (dataFirst t1 t2).2).map fun ep =>
        (.ok, { s with tokenRx := rx, ep := ep, plugin := pl })

inductive RecvEvent
  | tokens (buffer : Bytes) (t1 t2 : KeyMaterial) (tokens : List Token)
  | payload (encoded : Chain) (alloc : Allocator) (stale : Bytes)

def Receiver.rx (s : Receiver) : RxState := ⟨s.ep.ctx, s.plugin⟩

def Receiver.step (s : Receiver) : RecvEvent → Option Receiver
  | .tokens buffer t1 t2 tokens => (cpsSetRemEpTokens P h buffer t1 t2 tokens s).map Prod.snd
  | .payload encoded alloc stale =>
    (cpsDecryptPayload P h alloc stale encoded.toDbw s.rx).map fun (_, r) =>
      { s with ep := { s.ep with ctx := r.ctx }, plugin := r.plugin }

def Receiver.start (kk : KxKeys) (rxId : Option UInt32) (mp : Master) : Receiver :=
  ⟨kk, Crypto.tokenRx P kk rxId, ⟨false, ⟨.none, .none, mp, .zero 0⟩, .none⟩, .init⟩

/-- The payload in `encoded` is from the holder of the master keys: its digest is the HMAC of header and data under the
HMAC key of the session in the header, and `data` is decrypted with its key and salt. -/
structure Genuine (c : Context) (encoded : Dbw) (data : Bytes) : Prop where
  digest : ∃ type hlen, c.expected = some (type, hlen) ∧
    (encoded.bytes.drop (24 + alignUp (encoded.head h.order).dlen.toNat + 4)).take hlen
      = (P.hmac c.hash.sha (sessionHmac P c.hash.sha c.master (encoded.head h.order).sessionId)
          (encoded.bytes.take (24 + (encoded.head h.order).dlen.toNat))).take hlen
  data : data = if c.cipher = .none then (encoded.bytes.drop 24).take (encoded.head h.order).dlen.toNat
    else xorFrom ((start (sessionKey P c.hash.sha c.master (encoded.head h.order).sessionId) c.cipher.keySize
      (sessionSalt P c.hash.sha c.master (encoded.head h.order).sessionId) (encoded.head h.order).counter).stream P) 0
        ((encoded.bytes.drop 24).take (encoded.head h.order).dlen.toNat)

/-- The steps that go well: SHA1, a session id that tells whether its keys are at hand, a length that does not wrap
around, a chain whose end is found, and no other keys of the same kinds in a session. -/
def Receiver.Ok (s : Receiver) : RecvEvent → Prop
  | .payload encoded _ _ =>
    s.ep.ctx.hash = .sha1 ∧ (s.ep.ctx.session.id ≠ 0 ∨ (encoded.head h.order).sessionId ≠ 0) ∧
      (encoded.head h.order).dlen.toNat + 32 < 2 ^ 32 ∧
      ({ encoded.toDbw with length := (encoded.head h.order).dlen.toNat + 24 } : Dbw).closed
  | .tokens buffer t1 t2 tokens =>
    ∀ km km' r, cpsParseTokens P h buffer tokens t1 t2 s.kk s.tokenRx s.plugin = some (.ok (km, km'), r) →
      s.ep.same (dataFirst km km').1 (dataFirst km km').2 → s.ep.ctx.session.id = 0 ∨
        cpsSetMaster s.ep.ctx.master (dataFirst km km').1 = s.ep.ctx.master

variable {P h}

def Receiver.Inv (P : Primitives) (s : Receiver) : Prop :=
  s.ep.ctx.session.id ≠ 0 → s.ep.ctx.session.Derived P s.ep.ctx.hash.sha s.ep.ctx.cipher s.ep.ctx.master

theorem tokens_inv {s s' : Receiver} (hi : s.Inv P)
    (hok : s.Ok P h (.tokens buffer t1 t2 tokens)) (hstep : s.step P h (.tokens buffer t1 t2 tokens) = some s') :
    s'.Inv P := by
  obtain ⟨⟨rc, s1⟩, hset, rfl⟩ := map_eq_some_iff.1 hstep
  obtain ⟨⟨res, rx, pl⟩, hparse, hset⟩ := bind_eq_some_iff.1 hset
  cases res with
  | error rc =>
    cases hset
    exact hi
  | ok kms =>
    obtain ⟨km, km'⟩ := kms
    obtain ⟨ep, hadd, heq⟩ := map_eq_some_iff.1 hset
    cases heq
    unfold cpsAddEpKeys at hadd
    split at hadd
    · cases hadd
    cases hadd
    intro hid
    by_cases hsame : s.ep.same (dataFirst km km').1 (dataFirst km km').2 = true
    · rw [if_pos hsame] at hid ⊢
      obtain h0 | hmaster := hok km km' _ hparse hsame
      · exact absurd h0 hid
      rw [hmaster]
      have hkinds := hsame
      unfold EpKeys.same at hkinds
      simp only [Bool.and_eq_true, decide_eq_true_eq] at hkinds
      obtain ⟨⟨⟨_, hcipher⟩, hhash⟩, _⟩ := hkinds
      rw [← hcipher, ← hhash]
      exact hi hid
    · rw [if_neg hsame] at hid
      exact absurd rfl hid

theorem sessionFor_derived {r : RxState} {sp : Session} {id : UInt32}
    (hi : r.ctx.session.id ≠ 0 → r.ctx.session.Derived P r.ctx.hash.sha r.ctx.cipher r.ctx.master)
    (hid : r.ctx.session.id ≠ 0 ∨ id ≠ 0) (hsp : r.sessionFor P h id = some sp) :
    sp.id = id ∧ sp.Derived P r.ctx.hash.sha r.ctx.cipher r.ctx.master := by
  unfold RxState.sessionFor at hsp
  split at hsp
  · rename_i heq
    cases hsp
    refine ⟨heq, hi ?_⟩
    rcases hid with hid | hid
    · exact hid
    · rwa [heq]
  · obtain rfl := cpsInitSession_some hsp
    exact ⟨Session.derive_id, Session.derived_derive⟩

theorem payload_inv {s s' : Receiver} (hi : s.Inv P)
    (hok : s.Ok P h (.payload encoded alloc stale)) (hstep : s.step P h (.payload encoded alloc stale) = some s') :
    s'.Inv P := by
  obtain ⟨⟨res, r⟩, hdec, rfl⟩ := map_eq_some_iff.1 hstep
  obtain hctx | ⟨sp, hsp, hctx⟩ := cpsDecryptPayload_ctx hdec
  · intro hid
    dsimp only at hid ⊢
    rw [hctx] at hid ⊢
    exact hi hid
  · intro _
    dsimp only
    rw [hctx]
    exact (@sessionFor_derived P h s.rx sp _ hi hok.2.1 hsp).2

theorem cryptOut_data (hout : cryptOut P h alloc c hd w pl = some (.ok, (data, pl'))) :
    data = if c.cipher = .none then w.bytes.take hd.dlen.toNat
      else xorFrom ((start c.session.key c.cipher.keySize c.session.salt hd.counter).stream P) 0
        (w.bytes.take hd.dlen.toNat) := by
  unfold cryptOut at hout
  split at hout
  · rename_i hc
    cases hout
    rw [if_pos hc]
  rename_i hc
  obtain ⟨⟨rc, d⟩, hcrypt, heq⟩ := map_eq_some_iff.1 hout
  cases heq
  rw [if_neg hc]
  generalize hx : xorFrom _ 0 (w.bytes.take hd.dlen.toNat) = out
  have hroom : AesData.Room ⟨alloc.mem hd.dlen.toNat, 0, hd.counter, pl⟩ [] := Nat.zero_le _
  obtain ⟨_, hall, _, hd'⟩ := secAesCtrCryptDbw_ok c.cipher.keySize_cases hd.dlen.toNat_lt hroom hcrypt
  have hlen : out.length = hd.dlen.toNat := by
    rw [← hx, CtrMode.length_xorFrom, length_take]
    exact Nat.min_eq_left hall
  have hmem : d.mem = Octets.overwrite (alloc.mem hd.dlen.toNat) 0 out := by
    rw [hd', ← hx]
    split <;> rfl
  have hread := @Octets.take_drop_overwrite _ (alloc.mem hd.dlen.toNat) 0 out (Nat.zero_le _)
  rw [hlen, ← hmem] at hread
  exact hread

theorem take_sessionHmac (mp : Master) (id : UInt32) :
    (sessionHmac P .sha1 mp id).take 16 = sessionHmac P .sha1 mp id := by
  rw [sessionHmac, take_take]
  rfl

/-- **What is accepted is genuine** if the session keys at hand are those of their id. -/
theorem genuine_of_inv {s : Receiver} (hi : s.Inv P) (hok : s.Ok P h (.payload encoded alloc stale))
    (hacc : cpsDecryptPayload P h alloc stale encoded.toDbw s.rx = some (.ok data, r)) :
    Genuine P h s.ep.ctx encoded.toDbw data := by
  obtain ⟨hsha, hid, hwrap, hclosed⟩ := hok
  obtain ⟨herr, _⟩ | ⟨type, hlen, sp, hexp, _, hfits, hsp, hver⟩ := cpsDecryptPayload_cases hacc
  · cases herr
  obtain ⟨hspid, hder⟩ := @sessionFor_derived P h s.rx sp _ hi hid hsp
  obtain ⟨hash, pl, dp, hhash, hout, hdp, hcmp⟩ := verifyPayload_ok hver
  have hholds := encoded.holds
  generalize hhd : encoded.head h.order = hd at hid hwrap hclosed hfits hsp hver hspid hhash hout hdp
  have hsha' : s.rx.ctx.hash = .sha1 := hsha
  have hhlen : hlen ≤ 32 := by
    unfold Context.expected at hexp
    split at hexp <;> cases hexp <;> decide
  have hal : alignUp hd.dlen.toNat ≤ hd.dlen.toNat + 3 := by
    unfold alignUp
    omega
  have hmod : (hd.dlen.toNat + 24) % 2 ^ 32 = hd.dlen.toNat + 24 := Nat.mod_eq_of_lt (by omega)
  have halmod : alignUp hd.dlen.toNat % 2 ^ 32 = alignUp hd.dlen.toNat := Nat.mod_eq_of_lt (by omega)
  rw [hmod] at hhash
  rw [halmod] at hdp
  have hinc : (encoded.inc 24).bytes = encoded.bytes.drop 24 := Dbw.inc_bytes (by omega)
  have hinc' : ((encoded.inc 24).inc (alignUp hd.dlen.toNat)).bytes
      = encoded.bytes.drop (24 + alignUp hd.dlen.toNat) := by
    rw [Dbw.inc_bytes, hinc, drop_drop]
    rw [hinc, length_drop]
    omega
  refine ⟨⟨type, hlen, hexp, ?_⟩, ?_⟩
  · have hdigest := secHmacDbw_ok hhash hclosed
    have hread := cpsGetData_some (by omega) (by omega) hdp
    rw [hinc'] at hread
    rw [hread, drop_take, Nat.add_sub_cancel_left, drop_drop, take_take, Nat.min_self] at hcmp
    rw [hhd, hcmp, hdigest]
    rw [hder.hmac, hspid, hsha']
    show (P.hmac .sha1 ((sessionHmac P .sha1 _ _).take 16) _).take hlen = _
    rw [take_sessionHmac, Nat.add_comm, hsha]
    rfl
  have hdata := cryptOut_data hout
  rw [hinc] at hdata
  rw [hhd, hdata]
  show (if s.ep.ctx.cipher = .none then _ else xorFrom ((start sp.key _ sp.salt _).stream P) 0 _) = _
  by_cases hc : s.ep.ctx.cipher = .none
  · rw [if_pos hc, if_pos hc]
  · rw [if_neg hc, if_neg hc, hder.key hc, hder.salt hc, hspid]
    rfl

/-- **Only the key holder's payloads are accepted**: after every run whose steps go well, a payload that goes well and
is accepted is genuine. -/
theorem genuine_of_run {kk : KxKeys} {rxId : Option UInt32} {mp : Master} {es : List RecvEvent} {s : Receiver}
    (hrun : Run (Receiver.step P h) (Receiver.Ok P h) (.start P kk rxId mp) es s) {encoded : Chain} {alloc : Allocator}
    {stale data : Bytes} {r : RxState} (hok : s.Ok P h (.payload encoded alloc stale))
    (hacc : cpsDecryptPayload P h alloc stale encoded.toDbw s.rx = some (.ok data, r)) :
    Genuine P h s.ep.ctx encoded.toDbw data := by
  refine genuine_of_inv (hrun.invariant (fun _ s => s.Inv P) (fun h0 => absurd rfl h0) ?_) hok hacc
  intro es s e s' hi hok hstep
  cases e with
  | tokens buffer t1 t2 tokens => exact tokens_inv hi hok hstep
  | payload encoded alloc stale => exact payload_inv hi hok hstep

def signedTokens : List Token :=
  [madeToken sumPrimitives .little (keyText .little .none .sha1 (someMaster 16)) (tokenTx sumPrimitives someKx 7 0),
    madeToken sumPrimitives .little (keyText .little .none .sha1 (someMaster 16)) (tokenTx sumPrimitives someKx 7 5)]

def withTokens : List RecvEvent := [.tokens (List.replicate 128 0) freshKeys freshKeys signedTokens]

def hashedByte (id : UInt32) (key : Bytes) : Chain :=
  .single (packet .little (header .little 0x100 id 0 1) [7] 1 .sha1
    (sumPrimitives.hmac .sha1 key (header .little 0x100 id 0 1 ++ [7])))

def keylessReceiver : Receiver := .start sumPrimitives someKx none (someMaster 0)

def keyedReceiver : Receiver :=
  ((exec (Receiver.step sumPrimitives littleHost) (fun _ _ => True) keylessReceiver withTokens).getD keylessReceiver)

theorem run_withTokens :
    Run (Receiver.step sumPrimitives littleHost) (Receiver.Ok sumPrimitives littleHost) keylessReceiver withTokens
      keyedReceiver := by
  refine Run.snoc Run.nil ?_ (by decide +kernel)
  intro km km' r _ hsame
  cases hsame

/-- A payload in session 9, hashed with the key of that session, is accepted. -/
theorem genuine_session9 :
    ∃ data r, cpsDecryptPayload sumPrimitives littleHost roomy [] (hashedByte 9 (sessionHmac sumPrimitives .sha1
        keyedReceiver.ep.ctx.master 9)).toDbw keyedReceiver.rx = some (.ok data, r) ∧
      Genuine sumPrimitives littleHost keyedReceiver.ep.ctx (hashedByte 9 (sessionHmac sumPrimitives .sha1
        keyedReceiver.ep.ctx.master 9)).toDbw data := by
  obtain ⟨r, hr⟩ : ∃ r, cpsDecryptPayload sumPrimitives littleHost roomy []
    (hashedByte 9 (sessionHmac sumPrimitives .sha1
      keyedReceiver.ep.ctx.master 9)).toDbw keyedReceiver.rx = some (.ok [7], r) := by
    refine ⟨((cpsDecryptPayload sumPrimitives littleHost roomy [] (hashedByte 9 (sessionHmac sumPrimitives .sha1
      keyedReceiver.ep.ctx.master 9)).toDbw keyedReceiver.rx).get (by decide +kernel)).2, ?_⟩
    decide +kernel
  refine ⟨[7], r, hr, @genuine_of_run sumPrimitives littleHost someKx none (someMaster 0) withTokens keyedReceiver
    run_withTokens _ roomy [] [7] r ?_ hr⟩
  refine ⟨?_, ?_, ?_, ?_⟩ <;> decide +kernel

/-- A payload of session 0, hashed with a key of zeros, is accepted from anyone. -/
theorem not_genuine :
    Run (Receiver.step sumPrimitives littleHost) (fun _ _ => True) keylessReceiver withTokens keyedReceiver ∧
      ((cpsDecryptPayload sumPrimitives littleHost roomy []
        (hashedByte 0 (List.replicate 16 0)).toDbw keyedReceiver.rx).map
        Prod.fst) = some (.ok [7]) ∧
      ¬ Genuine sumPrimitives littleHost keyedReceiver.ep.ctx (hashedByte 0 (List.replicate 16 0)).toDbw [7] := by
  refine ⟨Run.snoc Run.nil trivial (by decide +kernel), by decide +kernel, ?_⟩
  rintro ⟨⟨type, hlen, hexp, hdigest⟩, _⟩
  have hexp' : keyedReceiver.ep.ctx.expected = some (0x100, 20) := by decide +kernel
  rw [hexp'] at hexp
  cases hexp
  revert hdigest
  decide +kernel

end Qeo.Crypto
