import QeoCore.CryptoPayload
/-!
# CryptoSeal — what is sent of a payload, and what is made of it

`Context.sealed` is a payload as it leaves a sender: in one buffer where it is encrypted, and with nobody else at the
plugin.  A receiver whose session keys agree returns the payload (`cpsDecryptPayload_sealed`).
-/
namespace Qeo.Crypto

open List Option Octets CtrMode

structure Plugin.Idle (pl : Plugin) : Prop where
  hmacHeld : pl.hmacHeld = false
  hmac : pl.hmac = none
  aesHeld : pl.aesHeld = false
  aes : pl.aes = none

variable {P : Primitives} {h : Host} {alloc : Allocator}

def Context.stream (P : Primitives) (c : Context) (counter : UInt32) : Nat → UInt8 :=
  (AesCtx.start c.session.key c.cipher.keySize c.session.salt counter).stream P

open Context

def Context.crypt (P : Primitives) (c : Context) (x : Bytes) : Bytes :=
  if c.cipher = .none then x else xorFrom (c.stream P c.session.counter) 0 x

theorem Context.length_crypt (c : Context) (x : Bytes) : (c.crypt P x).length = x.length := by
  unfold crypt
  split
  · rfl
  · exact CtrMode.length_xorFrom 0 x

def Context.headFor (c : Context) (o : Endian) (type : UInt32) (x : Bytes) : Bytes :=
  header o type c.session.id (if c.cipher = .none then 0 else c.session.counter) (UInt32.ofNat x.length)

def Context.digest (P : Primitives) (c : Context) (msg : Bytes) : Bytes :=
  P.hmac c.hash.sha (c.session.hmac.take c.hash.sha.keySize) msg

def Context.sealed (P : Primitives) (c : Context) (o : Endian) (type : UInt32) (x : Bytes) : Bytes :=
  packet o (c.headFor o type x) (c.crypt P x) x.length c.hash.sha (c.digest P (c.headFor o type x ++ c.crypt P x))

/-! ## The sender -/

theorem TxState.renew_some {t t1 : TxState} (hr : t.renew P h = some t1) :
    t1.plugin = t.plugin ∧ t1.ctx = { t.ctx with session := t1.ctx.session } ∧
      ((t.renews = false ∧ t1 = t) ∨ (t.renews = true ∧ t1.nextId = t.nextId + 1 ∧ t1.ctx.session
        = t.ctx.session.derive P t.ctx.hash.sha t.ctx.cipher t.ctx.master t.nextId true)) := by
  unfold renew at hr
  split at hr
  · rename_i hren
    obtain ⟨sp, hsp, rfl⟩ := map_eq_some_iff.1 hr
    exact ⟨rfl, rfl, .inr ⟨hren, rfl, cpsInitSession_some hsp⟩⟩
  · rename_i hren
    cases hr
    exact ⟨rfl, rfl, .inl ⟨by simpa using hren, rfl⟩⟩

theorem TxState.renew_of_idle {t : TxState} (hidle : t.plugin.Idle) : ∃ t1, t.renew P h = some t1 := by
  unfold renew
  split
  · rw [cpsInitSession_of_free hidle.hmacHeld]
    exact ⟨_, rfl⟩
  · exact ⟨_, rfl⟩

theorem cryptInto_ok {c : Context} {data : Dbw} {len : Nat} {mem : Bytes} {pl : Plugin}
    (hholds : data.length ≤ data.bytes.length)
    (hone : c.cipher ≠ .none → data.length ≤ data.cur.length ∧ data.length < 2 ^ 31)
    (hmem : 24 + data.length ≤ mem.length) (hidle : pl.Idle) :
    ∃ s, cryptInto P h c data len ⟨mem, 24, c.session.counter, pl⟩ = some (.ok, s) ∧
      (s.mem.drop 24).take data.length = c.crypt P data.text ∧ s.plugin.Idle := by
  have htext : data.text.length = data.length := by
    rw [Dbw.text, length_take]
    omega
  unfold cryptInto crypt
  by_cases hc : c.cipher = .none
  · rw [if_pos hc, if_pos hc, dbGetData_eq]
    refine ⟨_, rfl, ?_, hidle⟩
    have hread := @Octets.take_drop_overwrite _ mem 24 data.text (by omega)
    rwa [htext] at hread
  obtain ⟨hle, h31⟩ := hone hc
  have hcur : (data.cur.take data.length).length = data.length := by
    rw [length_take]
    omega
  rw [if_neg hc, if_neg hc, if_pos hle]
  refine ⟨_, (aesReq_full c.cipher.keySize_cases ?_ (by omega)).2 ⟨?_, ⟨by omega, ?_⟩, rfl⟩, ?_, ?_⟩
  · show 24 + 0 ≤ mem.length
    omega
  · rw [hidle.aesHeld, Bool.false_and]
  · show 24 + (data.cur.take data.length).length ≤ mem.length
    omega
  · rw [← Dbw.text_of_le hle]
    have hread := @Octets.take_drop_overwrite _ mem 24
      (xorFrom (c.stream P c.session.counter) 0 data.text) (by omega)
    rwa [CtrMode.length_xorFrom, htext] at hread
  · exact ⟨hidle.hmacHeld, hidle.hmac, rfl, rfl⟩

/-- **What the sender sends**: the payload sealed with the session it is in after a renewal. -/
theorem cpsEncryptPayload_sealed {data : Dbw} {t t1 : TxState} {type : UInt32} {hlen : Nat}
    (hexp : t.ctx.expected = some (type, hlen)) (hidle : t.plugin.Idle) (hr : t.renew P h = some t1)
    (hholds : data.length ≤ data.bytes.length)
    (hone : t.ctx.cipher ≠ .none → data.length ≤ data.cur.length ∧ data.length < 2 ^ 31) :
    ∃ t', cpsEncryptPayload P h alloc data t = some (.ok (t1.ctx.sealed P h.order type data.text), t') ∧
      t'.plugin.Idle ∧ t'.nextId = t1.nextId ∧
      t'.ctx = { t1.ctx with session := { t1.ctx.session with counter := t'.ctx.session.counter } } := by
  have hlen' := alloc.enough (alignUp data.length + 32 + t.ctx.hash.sha.size)
  have hup : data.length ≤ alignUp data.length := by
    unfold alignUp
    omega
  have htext : data.text.length = data.length := by
    rw [Dbw.text, length_take]
    omega
  obtain ⟨hpl, hctx, _⟩ := TxState.renew_some hr
  have hcipher : t1.ctx.cipher = t.ctx.cipher := by rw [hctx]
  have hhash : t1.ctx.hash = t.ctx.hash := by rw [hctx]
  obtain ⟨s, hs, hregion, hsidle⟩ := @cryptInto_ok P h t1.ctx data (alignUp data.length + 32 + t.ctx.hash.sha.size)
    (alloc.mem (alignUp data.length + 32 + t.ctx.hash.sha.size)) t1.plugin hholds (by rwa [hcipher]) (by omega)
    (by rwa [hpl])
  have hhead : t1.ctx.headFor h.order type data.text ++ t1.ctx.crypt P data.text ≠ [] := by
    intro hnil
    have := congrArg length (append_eq_nil_iff.1 hnil).1
    rw [headFor, length_header] at this
    cases this
  refine ⟨{ t1 with ctx := { t1.ctx with session := { t1.ctx.session with counter := s.secure } }, plugin := s.plugin },
    ?_, hsidle, rfl, rfl⟩
  unfold cpsEncryptPayload
  rw [hexp]
  simp only [hr, bind_some]
  rw [hs, bind_some]
  dsimp only
  rw [hregion, ← htext]
  have hdig := @secHmac_of_free P h.locking t.ctx.hash.sha t1.ctx.session.hmac t.ctx.hash.sha.keySize []
    (t1.ctx.headFor h.order type data.text ++ t1.ctx.crypt P data.text) s.plugin hhead
    t.ctx.hash.sha.keySize_pos hsidle.hmacHeld
  unfold headFor at hdig
  rw [hdig, map_some, ← hhash]
  rfl

/-! ## The receiver -/

/-- Whether the fragments of a payload of `n` bytes are of the kind that can be read: the header and the digest each lie
in one buffer, and the texts for the HMAC and for the cipher are ended where they end. -/
def Dbw.readable (w : Dbw) (cipher : CipherKind) (n hlen : Nat) : Bool :=
  w.whole 24 && ({ w with length := n + 24 } : Dbw).closed &&
    (decide (cipher = .none) || ({ w.inc 24 with length := n } : Dbw).closed) &&
    ((w.inc 24).inc (alignUp n)).whole (4 + hlen)

theorem expected_congr {c c' : Context} (hcipher : c'.cipher = c.cipher) (hhash : c'.hash = c.hash) :
    c'.expected = c.expected := by
  unfold expected
  rw [hcipher, hhash]

theorem sealed_append (c : Context) (o : Endian) (type : UInt32) (x rest : Bytes) :
    c.sealed P o type x ++ rest = c.headFor o type x ++ (c.crypt P x ++ (replicate (alignUp x.length - x.length) 0
      ++ ((put32 o (UInt32.ofNat c.hash.sha.size) ++ c.digest P (c.headFor o type x ++ c.crypt P x))
        ++ (put32 o 0 ++ rest)))) := by
  simp [sealed, packet]

theorem length_sealed (c : Context) (o : Endian) (type : UInt32) (x : Bytes) :
    (c.sealed P o type x).length = alignUp x.length + 32 + c.hash.sha.size := by
  have hup : x.length ≤ alignUp x.length := by
    unfold alignUp
    omega
  simp only [sealed, packet, length_append, headFor, length_header, length_crypt,
    length_replicate, length_put32, digest, P.length_hmac]
  omega

section
variable {c : Context} {r : RxState} {enc : Dbw} {o : Endian} {type : UInt32} {x rest : Bytes} {pl : Plugin}

theorem cryptOut_sealed (hidle : pl.Idle) (hag : r.ctx.session.Agrees c.cipher c.session)
    (hcipher : r.ctx.cipher = c.cipher) (hx : c.cipher ≠ .none → x.length < 2 ^ 31) {w : Dbw} {hd : Header}
    (hw : w.bytes = c.crypt P x ++ rest) (hdlen : hd.dlen.toNat = x.length)
    (hcounter : c.cipher ≠ .none → hd.counter = c.session.counter)
    (hclosed : c.cipher = .none ∨ ({ w with length := x.length } : Dbw).closed) :
    ∃ pl', cryptOut P h alloc r.ctx hd w pl = some (.ok, (x, pl')) ∧ pl'.Idle := by
  have htext : ({ w with length := x.length } : Dbw).text = c.crypt P x := by
    show w.bytes.take x.length = _
    rw [hw, take_left' (c.length_crypt x)]
  unfold cryptOut
  dsimp only
  rw [hcipher, hdlen]
  by_cases hc : c.cipher = .none
  · rw [if_pos hc, hw, take_left' (c.length_crypt x), crypt, if_pos hc]
    exact ⟨pl, rfl, hidle⟩
  obtain ⟨hkey, hsalt⟩ := hag.2 hc
  have hstream : xorFrom ((AesCtx.start r.ctx.session.key c.cipher.keySize r.ctx.session.salt hd.counter).stream P) 0
      (c.crypt P x) = x := by
    rw [hkey, hsalt, hcounter hc, crypt, if_neg hc]
    exact CtrMode.xorFrom_xorFrom 0 x
  have hroom := alloc.enough x.length
  rw [if_neg hc, secAesCtrCryptDbw_of_closed c.cipher.keySize_cases (hx hc) (hclosed.resolve_left hc)
    (by show 0 + x.length ≤ (alloc.mem x.length).length; omega) hidle.aesHeld, map_some, htext]
  have hread := @Octets.take_drop_overwrite _ (alloc.mem x.length) 0 x (by omega)
  rw [drop_zero] at hread
  generalize hs : AesData.done P _ _ (c.crypt P x) = s
  have hmem : s.mem.take x.length = x := by
    rw [← hs]
    show (overwrite (alloc.mem x.length) 0 (xorFrom _ 0 (c.crypt P x))).take x.length = x
    rw [hstream, hread]
  have hsidle : s.plugin.Idle := by
    rw [← hs]
    exact ⟨hidle.hmacHeld, hidle.hmac, rfl, rfl⟩
  refine ⟨s.plugin, ?_, hsidle⟩
  rw [hmem]

structure Laid (P : Primitives) (c : Context) (o : Endian) (type : UInt32) (x : Bytes) (enc : Dbw) : Prop where
  head : enc.bytes.take 24 = c.headFor o type x
  hashed : enc.bytes.take (x.length + 24) = c.headFor o type x ++ c.crypt P x
  region : ∃ rest, (enc.inc 24).bytes = c.crypt P x ++ rest
  digest : ∃ rest, ((enc.inc 24).inc (alignUp x.length)).bytes
    = (put32 o (UInt32.ofNat c.hash.sha.size) ++ c.digest P (c.headFor o type x ++ c.crypt P x)) ++ rest

theorem laid_of_sealed (henc : enc.text = c.sealed P o type x) : Laid P c o type x enc := by
  have hup : x.length ≤ alignUp x.length := by
    unfold alignUp
    omega
  have hbytes : enc.bytes = c.sealed P o type x ++ enc.bytes.drop enc.length := by
    rw [← henc, Dbw.text, take_append_drop]
  rw [sealed_append] at hbytes
  have hheadlen : (c.headFor o type x).length = 24 := length_header _ _ _ _ _
  have hboth : (c.headFor o type x ++ c.crypt P x).length = x.length + 24 := by
    rw [length_append, hheadlen, length_crypt, Nat.add_comm]
  have hskip : (c.crypt P x ++ replicate (alignUp x.length - x.length) (0 : UInt8)).length = alignUp x.length := by
    rw [length_append, length_crypt, length_replicate]
    omega
  have hregion : (enc.inc 24).bytes = enc.bytes.drop 24 := by
    apply Dbw.inc_bytes
    rw [hbytes, length_append]
    omega
  rw [hbytes, drop_left' hheadlen] at hregion
  have hbehind : ((enc.inc 24).inc (alignUp x.length)).bytes = (enc.inc 24).bytes.drop (alignUp x.length) := by
    apply Dbw.inc_bytes
    rw [hregion, ← append_assoc, length_append]
    omega
  rw [hregion, ← append_assoc, drop_left' hskip] at hbehind
  refine ⟨?_, ?_, ⟨_, hregion⟩, ⟨_, hbehind⟩⟩
  · rw [hbytes, take_left' hheadlen]
  · rw [hbytes, ← append_assoc, take_left' hboth]

theorem secHmacDbw_sealed {sp : Session} (hsha : c.hash = .sha1) (hlaid : Laid P c o type x enc)
    (hhmac : sp.hmac = c.session.hmac) (hclosed : ({ enc with length := x.length + 24 } : Dbw).closed)
    (hidle : pl.Idle) :
    secHmacDbw P h.locking c.hash.sha sp.hmac 16 { enc with length := x.length + 24 } (stale, pl)
      = some (.ok, (c.digest P (c.headFor o type x ++ c.crypt P x), pl)) := by
  have htext : ({ enc with length := x.length + 24 } : Dbw).text = c.headFor o type x ++ c.crypt P x := hlaid.hashed
  have hne : ({ enc with length := x.length + 24 } : Dbw).text ≠ [] := by
    rw [htext]
    intro hnil
    have hlen := congrArg length (append_eq_nil_iff.1 hnil).1
    rw [headFor, length_header] at hlen
    cases hlen
  rw [secHmacDbw_of_closed hclosed hne (by decide) hidle.hmacHeld hidle.hmac, htext, hhmac, digest, hsha]
  rfl

/-- **A sealed payload comes back**, with SHA1 and in fragments that can be read, to a receiver whose session keys for
its session agree. -/
theorem cpsDecryptPayload_sealed {stale : Bytes} {sp : Session} (hexp : c.expected = some (type, 20))
    (hsha : c.hash = .sha1) (hcipher : r.ctx.cipher = c.cipher) (hhash : r.ctx.hash = c.hash)
    (henc : enc.text = c.sealed P o type x) (hlen : enc.length ≤ enc.bytes.length)
    (hx : x.length + 32 < 2 ^ 32) (hx' : c.cipher ≠ .none → x.length < 2 ^ 31)
    (hsp : r.sessionFor P h c.session.id = some sp) (hag : sp.Agrees c.cipher c.session)
    (hread : enc.readable c.cipher x.length 20) (hidle : r.plugin.Idle) :
    ∃ pl, cpsDecryptPayload P h alloc stale enc r = some (.ok x, ⟨{ r.ctx with session := sp }, pl⟩) ∧ pl.Idle := by
  have hup : x.length ≤ alignUp x.length ∧ alignUp x.length ≤ x.length + 3 := by
    unfold alignUp
    omega
  have hlength : enc.length = alignUp x.length + 32 + 20 := by
    have htl : enc.text.length = enc.length := by
      rw [Dbw.text, length_take]
      omega
    rw [← htl, henc, length_sealed, hsha]
    rfl
  have hlaid := laid_of_sealed henc
  have hhd : readHeader h.order (enc.bytes.take 24) = ⟨o, type, c.session.id,
      if c.cipher = .none then 0 else c.session.counter, UInt32.ofNat x.length⟩ := by
    rw [hlaid.head]
    exact readHeader_header _ _ (expected_mem hexp) _ _ _
  have hdlen : (UInt32.ofNat x.length).toNat = x.length := by
    rw [UInt32.toNat_ofNat']
    omega
  rw [Dbw.readable, Bool.and_eq_true, Bool.and_eq_true, Bool.and_eq_true, Bool.or_eq_true, decide_eq_true_eq] at hread
  obtain ⟨⟨⟨hwhole, hclosed⟩, hdata⟩, hdigest⟩ := hread
  obtain ⟨_, hregion⟩ := hlaid.region
  obtain ⟨pl, hout, hpl⟩ := @cryptOut_sealed P h alloc c { r with ctx := { r.ctx with session := sp } } x _ r.plugin
    hidle hag hcipher hx' (enc.inc 24) ⟨o, type, c.session.id, if c.cipher = .none then 0 else c.session.counter,
      UInt32.ofNat x.length⟩ hregion hdlen (fun hc => if_neg hc) hdata
  have hdig : (c.digest P (c.headFor o type x ++ c.crypt P x)).length = 20 := by
    rw [digest, P.length_hmac, hsha]
    rfl
  have hget : cpsGetData ((enc.inc 24).inc (alignUp x.length)) 24
      = some (put32 o (UInt32.ofNat c.hash.sha.size) ++ c.digest P (c.headFor o type x ++ c.crypt P x)) := by
    obtain ⟨_, hbehind⟩ := hlaid.digest
    rw [cpsGetData_of_whole (by decide) (by decide) hdigest, hbehind]
    congr 1
    apply take_left'
    rw [length_append, length_put32, hdig]
  have hhash' : r.ctx.hash.sha = c.hash.sha := by rw [hhash]
  have h24 : (x.length + 24) % 2 ^ 32 = x.length + 24 := Nat.mod_eq_of_lt (by omega)
  have hal : alignUp x.length % 2 ^ 32 = alignUp x.length := Nat.mod_eq_of_lt (by omega)
  have hchk : ¬ (type ≠ type ∨ enc.length < (x.length + 32) % 2 ^ 32 + 20) := by
    rw [not_or]
    exact ⟨fun hne => hne rfl, by omega⟩
  refine ⟨pl, ?_, hpl⟩
  -- the function, step by step
  rw [cpsDecryptPayload, if_neg (by omega), cpsGetData_of_whole (by decide) (by decide) hwhole, bind_some, hhd,
    expected_congr hcipher hhash, hexp]
  dsimp only
  rw [hdlen, if_neg hchk, hsp, bind_some, verifyPayload]
  rw [hdlen, h24, hal, hhash', secHmacDbw_sealed hsha hlaid hag.1 hclosed hidle, bind_some]
  dsimp only
  rw [hout, bind_some]
  dsimp only
  rw [hget, map_some, get32_put32, drop_left' (length_put32 _ _), hsha, if_neg]
  rintro (hne | hne)
  · exact hne rfl
  · exact hne rfl

end

end Qeo.Crypto
