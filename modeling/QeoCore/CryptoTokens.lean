import QeoCore.CryptoToken
import QeoCore.CryptoRound
/-!
# CryptoTokens — the keys that a peer reads out of a pair of tokens

The text of the keys is read back (`readKeys_keyText`) if the kinds in it fit together.  Two things go wrong: a
participant that signs sends the kind of hash in the place of the cipher, and a session with the id 0 is never made by a
peer that has not had another one before.
-/
namespace Qeo.Crypto

open List Option Octets AesData CtrMode

/-! ## The text of the keys -/

theorem drop_behind {bp a rest : Bytes} (h : bp.drop ofs = a ++ rest) (hn : a.length = n) :
    bp.drop (ofs + n) = rest := by
  rw [← drop_drop, h, drop_left' hn]

theorem cpsGet4_at {bp rest : Bytes} {ofs max : Nat} (h : bp.drop ofs = put32 o w ++ rest)
    (hmax : ofs + 4 ≤ max) : cpsGet4 o bp ofs max = .ok w := by
  rw [cpsGet4, if_neg (Nat.not_lt.2 hmax), h, get32_put32]

structure Master.Sized (mp : Master) (cipher : CipherKind) (hash : HashKind) : Prop where
  masterKey : hash ≠ .none → mp.masterKey.length = hash.sha.keySize
  hmacKeyId : hash ≠ .none → mp.hmacKeyId.length = hash.sha.keySize
  initVector : cipher ≠ .none → mp.initVector.length = hash.sha.keySize

structure KeyMaterial.Carries (km : KeyMaterial) (cipher : CipherKind) (hash : HashKind) (mp : Master) : Prop where
  cipherKind : km.cipherKind = cipher
  hashKind : km.hashKind = hash
  masterKeyId : hash ≠ .none → km.masterKeyId = mp.id
  masterKey : hash ≠ .none → km.masterKey.take hash.sha.keySize = mp.masterKey
  hmacKeyId : hash ≠ .none → km.hmacKeyId.take hash.sha.keySize = mp.hmacKeyId
  initVector : cipher ≠ .none → km.initializationVector.take hash.sha.keySize = mp.initVector

variable {P : Primitives} {src dst : Host} {alloc : Allocator} {cipher : CipherKind} {hash : HashKind} {mp : Master}

def keysIn (hash : HashKind) : Nat := if hash = .none then 0 else hash.sha.keySize

def vectorIn (cipher : CipherKind) (hash : HashKind) : Nat := if cipher = .none then 0 else keysIn hash

theorem keyText_eq (o : Endian) :
    keyText o cipher hash mp = [0, endianCpu o, 0, 0] ++ (put32 o cipher.code ++ (put32 o hash.code ++
      (put32 o (if hash = .none then 0 else mp.id) ++ (sizedKey o (keysIn hash) mp.masterKey ++
        (sizedKey o (vectorIn cipher hash) mp.initVector ++ sizedKey o (keysIn hash) mp.hmacKeyId))))) := by
  unfold keyText vectorIn keysIn
  by_cases hh : hash = .none
  · simp [hh, sizedKey]
  rw [if_neg hh]
  split
  · rw [sizedKey, sizedKey, sizedKey, take_zero, append_nil]
    rfl
  · rfl

theorem preamble_keyText (o o' : Endian) (rest : Bytes) :
    ¬ ((keyText o' cipher hash mp ++ rest)[0]?.getD 0 ≠ 0 ∨
        ((keyText o' cipher hash mp ++ rest)[1]?.getD 0 ≠ 0 ∧ (keyText o' cipher hash mp ++ rest)[1]?.getD 0 ≠ 1) ∨
        (keyText o' cipher hash mp ++ rest)[2]?.getD 0 ≠ 0 ∨ (keyText o' cipher hash mp ++ rest)[3]?.getD 0 ≠ 0) ∧
      (if (keyText o' cipher hash mp ++ rest)[1]?.getD 0 ≠ endianCpu o then o.other else o) = o' := by
  have h0 : (keyText o' cipher hash mp ++ rest)[0]?.getD 0 = 0 := rfl
  have h1 : (keyText o' cipher hash mp ++ rest)[1]?.getD 0 = endianCpu o' := rfl
  have h2 : (keyText o' cipher hash mp ++ rest)[2]?.getD 0 = 0 := rfl
  have h3 : (keyText o' cipher hash mp ++ rest)[3]?.getD 0 = 0 := rfl
  rw [h0, h1, h2, h3]
  cases o <;> cases o' <;> decide

theorem length_sizedKey (hkey : (key.take n).length = n) : (sizedKey o n key).length = 4 + n := by
  rw [sizedKey, length_append, length_put32, hkey]

theorem Master.Sized.lengths (hsized : mp.Sized cipher hash) :
    (mp.masterKey.take (keysIn hash)).length = keysIn hash ∧
      (mp.initVector.take (vectorIn cipher hash)).length = vectorIn cipher hash ∧
      (mp.hmacKeyId.take (keysIn hash)).length = keysIn hash := by
  simp only [length_take, vectorIn, keysIn]
  refine ⟨?_, ?_, ?_⟩
  · split
    · exact Nat.zero_min _
    · rename_i hh
      rw [hsized.masterKey hh, Nat.min_self]
  · split
    · exact Nat.zero_min _
    · rename_i hc
      have hiv := hsized.initVector hc
      split <;> omega
  · split
    · exact Nat.zero_min _
    · rename_i hh
      rw [hsized.hmacKeyId hh, Nat.min_self]

theorem length_keyText (hsized : mp.Sized cipher hash) (o : Endian) :
    (keyText o cipher hash mp).length = 28 + 2 * keysIn hash + vectorIn cipher hash := by
  obtain ⟨hk, hv, hm⟩ := hsized.lengths
  have hpreamble : [0, endianCpu o, 0, 0].length = 4 := rfl
  rw [keyText_eq]
  simp only [length_append, length_put32, length_sizedKey hk, length_sizedKey hv, length_sizedKey hm,
    hpreamble]
  omega

theorem keysIn_cases (hash : HashKind) :
    keysIn hash = 0 ∧ hash = .none ∨ (keysIn hash = 16 ∨ keysIn hash = 32) ∧ hash ≠ .none := by
  cases hash
  · exact .inl ⟨rfl, rfl⟩
  · exact .inr ⟨.inl rfl, by decide⟩
  · exact .inr ⟨.inr rfl, by decide⟩

theorem vectorIn_cases (cipher : CipherKind) (hash : HashKind) :
    vectorIn cipher hash = 0 ∧ cipher = .none ∨ vectorIn cipher hash = keysIn hash ∧ cipher ≠ .none := by
  unfold vectorIn
  split
  · exact .inl ⟨rfl, by assumption⟩
  · exact .inr ⟨rfl, by assumption⟩

theorem take_overwrite_key {mem key : Bytes} (hkey : key.length = n) : (overwrite mem 0 key).take n = key := by
  rw [overwrite, take_zero, nil_append, take_left' hkey]

theorem CipherKind.code_eq_zero {c : CipherKind} : c.code = 0 ↔ c = .none := by cases c <;> decide

theorem CipherKind.code_le (c : CipherKind) : ¬ 2 < c.code := by cases c <;> decide

theorem HashKind.code_le (hk : HashKind) : ¬ 2 < hk.code := by cases hk <;> decide

theorem readKeys_of_words {o order : Endian} {buffer : Bytes} {max : Nat} {km : KeyMaterial}
    {c hk id klen vlen mlen : UInt32}
    (hpre : ¬ (buffer[0]?.getD 0 ≠ 0 ∨ (buffer[1]?.getD 0 ≠ 0 ∧ buffer[1]?.getD 0 ≠ 1) ∨ buffer[2]?.getD 0 ≠ 0 ∨
      buffer[3]?.getD 0 ≠ 0)) (horder : (if buffer[1]?.getD 0 ≠ endianCpu o then o.other else o) = order)
    (hc : cpsGet4 order buffer 4 max = .ok c) (hh : cpsGet4 order buffer 8 max = .ok hk)
    (hkinds : ¬ (2 < c ∨ 2 < hk ∨ (c ≠ 0 ∧ hk ≠ c))) (hid : cpsGet4 order buffer 12 max = .ok id)
    (hkey : cpsGet4 order buffer 16 max = .ok klen) (hklen : ¬ (hk ≠ 0 ∧ klen ≠ 16 ∧ klen ≠ 32 ∨ hk = 0 ∧ klen ≠ 0))
    (hvector : cpsGet4 order buffer (20 + klen.toNat) max = .ok vlen) (hvlen : ¬ (c ≠ 0 ∧ vlen ≠ klen))
    (hmac : cpsGet4 order buffer (20 + klen.toNat + 4 + if c ≠ 0 then vlen.toNat else 0) max = .ok mlen)
    (hmlen : ¬ (hk ≠ 0 ∧ mlen ≠ klen)) :
    readKeys o buffer max km = .ok
      { cipherKind := .ofCode c
        hashKind := .ofCode hk
        masterKeyId := id
        masterKey := overwrite km.masterKey 0 ((buffer.drop 20).take klen.toNat)
        initializationVector := overwrite km.initializationVector 0
          ((buffer.drop (20 + klen.toNat + 4)).take (if c ≠ 0 then vlen.toNat else 0))
        hmacKeyId := overwrite km.hmacKeyId 0
          ((buffer.drop (20 + klen.toNat + 4 + (if c ≠ 0 then vlen.toNat else 0) + 4)).take
            (if hk ≠ 0 then mlen.toNat else 0)) } := by
  unfold readKeys
  rw [if_neg hpre]
  simp only [horder, hc, hh, bind, Except.bind]
  rw [if_neg hkinds]
  simp only [hid, hkey, pure, Except.pure]
  rw [if_neg hklen]
  simp only [hvector]
  rw [if_neg hvlen]
  simp only [hmac]
  rw [if_neg hmlen]

/-- **The keys are read back**, if the kind of cipher, where there is one, has the number of the kind of hash. -/
theorem readKeys_keyText (hsized : mp.Sized cipher hash) (hpair : cipher = .none ∨ hash.code = cipher.code)
    (o o' : Endian) (rest : Bytes) (km : KeyMaterial) :
    ∃ km', readKeys o (keyText o' cipher hash mp ++ rest) (keyText o' cipher hash mp).length km = .ok km' ∧
      km'.Carries cipher hash mp := by
  have hpair' : cipher = .none ∨ hash ≠ .none := by
    by_cases hc : cipher = .none
    · exact .inl hc
    right
    intro hh
    rw [hh] at hpair
    exact hc (CipherKind.code_eq_zero.1 (hpair.resolve_left hc).symm)
  obtain ⟨hk, hv, hm⟩ := hsized.lengths
  obtain ⟨hpre, horder⟩ := @preamble_keyText cipher hash mp o o' rest
  have hmax := length_keyText hsized o'
  have htext := @keyText_eq cipher hash mp o'
  have hdrop : (keyText o' cipher hash mp ++ rest).drop 4 = put32 o' cipher.code ++ (put32 o' hash.code ++
      (put32 o' (if hash = .none then 0 else mp.id) ++ (put32 o' (UInt32.ofNat (keysIn hash)) ++
        (mp.masterKey.take (keysIn hash) ++ (put32 o' (UInt32.ofNat (vectorIn cipher hash)) ++
          (mp.initVector.take (vectorIn cipher hash) ++ (put32 o' (UInt32.ofNat (keysIn hash)) ++
            (mp.hmacKeyId.take (keysIn hash) ++ rest)))))))) := by
    rw [htext]
    simp only [sizedKey, append_assoc]
    rfl
  generalize keyText o' cipher hash mp ++ rest = buf at hpre horder hdrop
  generalize (keyText o' cipher hash mp).length = max at hmax
  have h4 := length_put32 o'
  have hdrop8 : buf.drop 8 = _ := drop_behind hdrop (h4 _)
  have hdrop12 : buf.drop 12 = _ := drop_behind hdrop8 (h4 _)
  have hdrop16 : buf.drop 16 = _ := drop_behind hdrop12 (h4 _)
  have hdrop20 : buf.drop 20 = _ := drop_behind hdrop16 (h4 _)
  have hdropV := drop_behind hdrop20 hk
  have hdropV4 := drop_behind hdropV (h4 _)
  have hdropM := drop_behind hdropV4 hv
  have hdropM4 := drop_behind hdropM (h4 _)
  have hkinds : ¬ (2 < cipher.code ∨ 2 < hash.code ∨ (cipher.code ≠ 0 ∧ hash.code ≠ cipher.code)) := by
    rintro (hc | hh | ⟨hne, hcode⟩)
    · exact cipher.code_le hc
    · exact hash.code_le hh
    · exact hpair.elim (fun hc => hne (CipherKind.code_eq_zero.2 hc)) hcode
  have hkn : (UInt32.ofNat (keysIn hash)).toNat = keysIn hash := by cases hash <;> rfl
  have hvn : (if cipher.code ≠ 0 then (UInt32.ofNat (vectorIn cipher hash)).toNat else 0) = vectorIn cipher hash := by
    cases cipher <;> cases hash <;> rfl
  have hmn : (if hash.code ≠ 0 then (UInt32.ofNat (keysIn hash)).toNat else 0) = keysIn hash := by cases hash <;> rfl
  have hread := @readKeys_of_words o o' buf max km cipher.code hash.code _ _ _ _ hpre horder
    (cpsGet4_at hdrop (by omega)) (cpsGet4_at hdrop8 (by omega)) hkinds (cpsGet4_at hdrop12 (by omega))
    (cpsGet4_at hdrop16 (by omega)) (by cases hash <;> decide) (by rw [hkn]; exact cpsGet4_at hdropV (by omega))
    (by cases cipher <;> cases hash <;> decide) (by rw [hkn, hvn]; exact cpsGet4_at hdropM (by omega))
      (fun hne => hne.2 rfl)
  rw [hmn, hkn, hvn, hdrop20, hdropV4, hdropM4, take_left' hk, take_left' hv, take_left' hm] at hread
  have hkeys : hash ≠ .none → keysIn hash = hash.sha.keySize := fun hh => if_neg hh
  refine ⟨_, hread, cipher.ofCode_code, hash.ofCode_code, fun hh => if_neg hh, fun hh => ?_, fun hh => ?_, fun hc => ?_⟩
  · rw [hkeys hh] at hk ⊢
    rw [take_overwrite_key hk, ← hsized.masterKey hh, take_length]
  · rw [hkeys hh] at hm ⊢
    rw [take_overwrite_key hm, ← hsized.hmacKeyId hh, take_length]
  · rw [vectorIn, if_neg hc, hkeys (hpair'.resolve_left hc)] at hv ⊢
    rw [take_overwrite_key hv, ← hsized.initVector hc, take_length]

theorem readKeys_of_swapped (hc : cipher ≠ .none) (o o' : Endian) (rest : Bytes) (km : KeyMaterial) :
    readKeys o (keyText o' cipher .none mp ++ rest) (keyText o' cipher .none mp).length km
      = .error .preconditionNotMet := by
  obtain ⟨hpre, horder⟩ := @preamble_keyText cipher .none mp o o' rest
  have hdrop : (keyText o' cipher .none mp ++ rest).drop 4 = put32 o' cipher.code ++ (put32 o' HashKind.none.code ++
      (put32 o' 0 ++ (put32 o' 0 ++ (put32 o' 0 ++ (put32 o' 0 ++ rest))))) := by
    rw [keyText, if_pos rfl]
    simp only [append_assoc]
    rfl
  have hmax : (keyText o' cipher .none mp).length = 28 := by cases o' <;> rfl
  have hdrop8 := drop_behind hdrop (length_put32 o' _)
  have hcode := cpsGet4_at hdrop (show 4 + 4 ≤ (keyText o' cipher .none mp).length by omega)
  have hhash := cpsGet4_at hdrop8 (show 8 + 4 ≤ (keyText o' cipher .none mp).length by omega)
  have hkinds : 2 < cipher.code ∨ 2 < HashKind.none.code ∨ (cipher.code ≠ 0 ∧ HashKind.none.code ≠ cipher.code) := by
    cases cipher
    · exact absurd rfl hc
    · decide
    · decide
  unfold readKeys
  rw [if_neg hpre]
  simp only [horder, hcode, hhash, bind, Except.bind]
  rw [if_pos hkinds]
  rfl

/-! ## A token -/

def sealedText (P : Primitives) (o : Endian) (text : Bytes) (sp : Session) : Bytes :=
  header o 0x201 sp.id sp.counter (UInt32.ofNat text.length)
    ++ xorFrom ((AesCtx.start sp.key 32 sp.salt sp.counter).stream P) 0 text ++ put32 o 0 ++ put32 o 0

def madeToken (P : Primitives) (o : Endian) (text : Bytes) (sp : Session) : Token :=
  ⟨sealedText P o text sp, P.hmac .sha256 (sp.hmac.take 32) (sealedText P o text sp)⟩

section
variable (o : Endian) (text : Bytes) (sp : Session)

theorem sealedText_eq :
    sealedText P o text sp = put32 o 0x201 ++ (put32 o (sp.id * 9812345) ++ (put32 o sp.id ++ (put32 o sp.id ++
      (put32 o sp.counter ++ (put32 o (UInt32.ofNat text.length) ++
        (xorFrom ((AesCtx.start sp.key 32 sp.salt sp.counter).stream P) 0 text ++ (put32 o 0 ++ put32 o 0))))))) := by
  simp [sealedText, header]

theorem length_sealedText : (sealedText P o text sp).length = text.length + 32 := by
  simp only [sealedText, length_append, length_header, CtrMode.length_xorFrom, length_put32]
  omega

theorem sealedText_ne_nil : sealedText P o text sp ≠ [] := by
  intro hnil
  have hlen := @length_sealedText P o text sp
  rw [hnil, length_nil] at hlen
  omega

end

theorem cpsMakeToken_made (hsized : (keyText src.order cipher hash mp).length ≤ 124) {sp : Session} {pl : Plugin}
    (hidle : pl.Idle) : ∃ counter pl', cpsMakeToken P src alloc cipher hash mp sp pl
        = some (.ok (madeToken P src.order (keyText src.order cipher hash mp) sp), { sp with counter := counter },
          pl') ∧
      pl'.Idle := by
  unfold cpsMakeToken
  dsimp only
  generalize keyText src.order cipher hash mp = text at hsized
  have henough := alloc.enough (text.length + 32)
  have hroom : Room ⟨alloc.mem (text.length + 32), 24, sp.counter, pl⟩ text := by
    show 24 + text.length ≤ (alloc.mem _).length
    omega
  have hroom0 : Room ⟨alloc.mem (text.length + 32), 24, sp.counter, pl⟩ [] := by
    show 24 + 0 ≤ (alloc.mem _).length
    omega
  have hcrypt : aesReq P src.locking sp.key 32 sp.salt .cryptFull text ⟨alloc.mem (text.length + 32), 24,
    sp.counter, pl⟩
      = some (.ok, done P ⟨alloc.mem (text.length + 32), 24, sp.counter, pl⟩
        (.start sp.key 32 sp.salt sp.counter) text) :=
    (aesReq_full (.inr rfl) hroom0 (by omega)).2 ⟨by rw [hidle.aesHeld, Bool.false_and], ⟨by omega, hroom⟩, rfl⟩
  have hread := @Octets.take_drop_overwrite _ (alloc.mem (text.length + 32)) 24
    (xorFrom ((AesCtx.start sp.key 32 sp.salt sp.counter).stream P) 0 text) (by omega)
  rw [CtrMode.length_xorFrom] at hread
  rw [secAesCtrCrypt, hcrypt, bind_some]
  dsimp only
  rw [show (done P _ _ text).mem = overwrite (alloc.mem (text.length + 32)) 24 _ from rfl, hread]
  have hmac := @secHmac_of_free P src.locking .sha256 sp.hmac 32 [] (sealedText P src.order text sp)
    (done P ⟨alloc.mem (text.length + 32), 24, sp.counter, pl⟩ (.start sp.key 32 sp.salt sp.counter) text).plugin
    (sealedText_ne_nil src.order text sp) (by decide) hidle.hmacHeld
  unfold sealedText at hmac
  rw [hmac]
  exact ⟨_, _, rfl, hidle.hmacHeld, hidle.hmac, rfl, rfl⟩

theorem tokenHead_sealed (o o' : Endian) (text : Bytes) (sp : Session) :
    tokenHead o (sealedText P o' text sp) = .ok (o', sp.id, sp.counter) := by
  have hlen := @length_sealedText P o' text sp
  have htext := @sealedText_eq P o' text sp
  generalize sealedText P o' text sp = dp at hlen htext
  have h4 := length_put32 o'
  have hdrop0 : dp.drop 0 = _ := htext
  have hdrop4 : dp.drop 4 = _ := drop_behind hdrop0 (h4 _)
  have hdrop8 : dp.drop 8 = _ := drop_behind hdrop4 (h4 _)
  have hdrop12 : dp.drop 12 = _ := drop_behind hdrop8 (h4 _)
  have hdrop16 : dp.drop 16 = _ := drop_behind hdrop12 (h4 _)
  obtain ⟨type, htype, horder⟩ : ∃ type, cpsGet4 o dp 0 dp.length = .ok type ∧ tokenOrder o type = .ok o' := by
    rw [cpsGet4, if_neg (by omega), hdrop0]
    refine ⟨_, rfl, ?_⟩
    cases o <;> cases o' <;> rfl
  have hids : ¬ (sp.id * 9812345 ≠ sp.id * 9812345 ∨ sp.id ≠ sp.id) := by simp
  unfold tokenHead
  simp only [htype, bind, Except.bind, horder, cpsGet4_at hdrop4 (show 4 + 4 ≤ dp.length by omega),
    cpsGet4_at hdrop8 (show 8 + 4 ≤ dp.length by omega), cpsGet4_at hdrop12 (show 12 + 4 ≤ dp.length by omega),
    cpsGet4_at hdrop16 (show 16 + 4 ≤ dp.length by omega)]
  rw [if_neg hids]
  rfl

theorem textLength_sealed (o : Endian) {text : Bytes} (htext : text.length ≤ 124) (sp : Session) :
    cpsGet4 o (sealedText P o text sp) 20 (sealedText P o text sp).length = .ok (UInt32.ofNat text.length) ∧
      ¬ (UInt32.ofNat text.length + 32 ≠ UInt32.ofNat (sealedText P o text sp).length) := by
  have hlen := @length_sealedText P o text sp
  have hmade := @sealedText_eq P o text sp
  generalize sealedText P o text sp = dp at hlen hmade
  have h4 := length_put32 o
  have hdrop4 : dp.drop (0 + 4) = _ := drop_behind hmade (h4 _)
  have hdrop8 : dp.drop 8 = _ := drop_behind hdrop4 (h4 _)
  have hdrop12 : dp.drop 12 = _ := drop_behind hdrop8 (h4 _)
  have hdrop16 : dp.drop 16 = _ := drop_behind hdrop12 (h4 _)
  have hdrop20 : dp.drop 20 = _ := drop_behind hdrop16 (h4 _)
  refine ⟨cpsGet4_at hdrop20 (by omega), not_not.2 ?_⟩
  apply UInt32.toNat_inj.1
  rw [UInt32.toNat_add, UInt32.toNat_ofNat', UInt32.toNat_ofNat']
  show (text.length % 2 ^ 32 + 32) % 2 ^ 32 = _
  omega

/-- **A token is opened** in a session that agrees with that of the sender, and the keys are read out of its text. -/
theorem openToken_made {text buffer : Bytes} (htext : text.length ≤ 124) (hbuf : buffer.length = 128)
    {sp decrypt : Session}
    (hag : decrypt.Agrees .aes256 sp) {pl : Plugin} (hidle : pl.Idle) (o : Endian) (km : KeyMaterial) :
    ∃ rest pl', openToken P dst buffer km (madeToken P o text sp) o sp.counter decrypt pl
        = some (readKeys dst.order (text ++ rest) text.length km, decrypt, pl') ∧ pl'.Idle := by
  obtain ⟨hhmac, hcrypted⟩ := hag
  obtain ⟨hkey, hsalt⟩ := hcrypted (by decide)
  have hlen := @length_sealedText P o text sp
  have hmade := @sealedText_eq P o text sp
  have hne := @sealedText_ne_nil P o text sp
  have htlen : (UInt32.ofNat text.length).toNat = text.length := by
    rw [UInt32.toNat_ofNat']
    omega
  obtain ⟨hget, hsum⟩ := @textLength_sealed P o text htext sp
  unfold openToken madeToken
  dsimp only
  generalize sealedText P o text sp = dp at hlen hmade hne hget hsum
  have h4 := length_put32 o
  have hn := @CtrMode.length_xorFrom ((AesCtx.start sp.key 32 sp.salt sp.counter).stream P) 0 text
  obtain ⟨x, hx⟩ : ∃ x, xorFrom ((AesCtx.start sp.key 32 sp.salt sp.counter).stream P) 0 text = x := ⟨_, rfl⟩
  rw [hx] at hmade hn
  have hdrop24 : dp.drop 24 = x ++ (put32 o 0 ++ put32 o 0) := by
    rw [hmade, drop_put32 o _ 20, drop_put32 o _ 16, drop_put32 o _ 12, drop_put32 o _ 8, drop_put32 o _ 4,
      drop_put32 o _ 0, drop_zero]
  have hdropD := drop_behind hdrop24 hn
  have hdropE := drop_behind hdropD (h4 _)
  have hdropE' : dp.drop (28 + text.length) = put32 o 0 ++ [] := by
    rw [append_nil, ← hdropE]
    congr 1
    omega
  have hcheck : ¬ (ReturnCode.ok ≠ .ok ∨ (P.hmac .sha256 (sp.hmac.take 32) dp).length ≠ 32 ∨
      P.hmac .sha256 (decrypt.hmac.take 32) dp ≠ P.hmac .sha256 (sp.hmac.take 32) dp) := by
    rw [hhmac, P.length_hmac]
    simp [Sha.size]
  generalize hmem : overwrite buffer 0 (P.hmac .sha256 (decrypt.hmac.take 32) dp) = mem
  have hmemlen : mem.length = 128 := by
    rw [← hmem, length_overwrite, hbuf]
    rw [P.length_hmac, hbuf]
    decide
  have hcrypt : aesReq P dst.locking decrypt.key 32 decrypt.salt .cryptFull x ⟨mem, 0, sp.counter, pl⟩
      = some (.ok, done P ⟨mem, 0, sp.counter, pl⟩ (.start decrypt.key 32 decrypt.salt sp.counter) x) := by
    refine (aesReq_full (.inr rfl) ?_ (by omega)).2 ⟨by rw [hidle.aesHeld, Bool.false_and], ⟨by omega, ?_⟩, rfl⟩
    · show 0 + 0 ≤ mem.length
      omega
    · show 0 + _ ≤ mem.length
      omega
  rw [hget]
  dsimp only
  rw [if_neg hsum, hlen, secHmac_of_free hne (by decide) hidle.hmacHeld, bind_some]
  dsimp only
  rw [if_neg hcheck, htlen, if_neg (by omega), hdrop24, take_left' hn, secAesCtrCrypt,
    hmem, hcrypt, map_some]
  dsimp only
  have hopened : (done P ⟨mem, 0, sp.counter, pl⟩ (.start decrypt.key 32 decrypt.salt sp.counter) x).mem =
      text ++ mem.drop text.length := by
    show overwrite mem 0 (xorFrom _ 0 x) = _
    rw [← hx, hkey, hsalt, CtrMode.xorFrom_xorFrom, overwrite, take_zero, nil_append, Nat.zero_add]
  have hnone : ¬ ((0 : UInt32) ≠ 0 ∨ (0 : UInt32) ≠ 0) := by decide
  rw [cpsGet4_at hdropD (by omega), cpsGet4_at hdropE' (by omega), hopened]
  exact ⟨_, _, rfl, hidle.hmacHeld, hidle.hmac, rfl, rfl⟩

/-! ## The session of a token -/

def tokenRx (P : Primitives) (kk : KxKeys) : Option UInt32 → Session
  | none => .zero 32
  | some id => (Session.zero 32).derive P .sha256 .aes256 kk.master id false

def tokenTx (P : Primitives) (kk : KxKeys) (id counter : UInt32) : Session :=
  { (Session.zero 32).derive P .sha256 .aes256 kk.master id true with counter := counter }

theorem tokenTx_derived (kk : KxKeys) (id counter : UInt32) :
    (tokenTx P kk id counter).Derived P .sha256 .aes256 kk.master :=
  ⟨rfl, fun _ => rfl, fun _ => rfl⟩

theorem cpsGetToken_made {kk : KxKeys} {text buffer : Bytes} (htext : text.length ≤ 124) (hbuf : buffer.length = 128)
    {id counter : UInt32} {rx : Session} (hrx : rx.Derived P .sha256 .aes256 kk.master ∨ rx.id ≠ id) {pl : Plugin}
    (hidle : pl.Idle) (o : Endian) (km : KeyMaterial) :
    ∃ rest rx' pl', cpsGetToken P dst buffer km (madeToken P o text (tokenTx P kk id counter)) kk rx pl
        = some (readKeys dst.order (text ++ rest) text.length km, rx', pl') ∧
      rx'.Derived P .sha256 .aes256 kk.master ∧ pl'.Idle := by
  have hhead : tokenHead dst.order (madeToken P o text (tokenTx P kk id counter)).value1 = .ok (o, id, counter) :=
    tokenHead_sealed dst.order o text _
  unfold cpsGetToken
  rw [hhead]
  dsimp only
  by_cases hid : rx.id = id
  · have hder := hrx.resolve_right fun hne => hne hid
    obtain ⟨rest, pl', hopen, hidle'⟩ := @openToken_made P dst text buffer htext hbuf (tokenTx P kk id counter) rx
      (hder.agrees (tokenTx_derived kk id counter) hid) pl hidle o km
    rw [if_neg (not_not.2 hid), bind_some]
    exact ⟨rest, rx, pl', hopen, hder, hidle'⟩
  · have hder := @Session.derived_derive P .sha256 .aes256 kk.master rx id false
    obtain ⟨rest, pl', hopen, hidle'⟩ := @openToken_made P dst text buffer htext hbuf (tokenTx P kk id counter) _
      (hder.agrees (tokenTx_derived kk id counter) Session.derive_id) pl hidle o km
    rw [if_pos hid, cpsInitSession_of_free hidle.hmacHeld]
    exact ⟨rest, _, pl', hopen, hder, hidle'⟩

theorem openToken_refused
    (hne : P.hmac .sha256 (decrypt.hmac.take 32) (sealedText P o text sp)
      ≠ P.hmac .sha256 (sp.hmac.take 32) (sealedText P o text sp)) (htext : text.length ≤ 124) (hidle : pl.Idle)
    (km : KeyMaterial) :
    openToken P dst buffer km (madeToken P o text sp) o sp.counter decrypt pl =
      some (.error .badParameter, decrypt, pl) := by
  obtain ⟨hget, hsum⟩ := @textLength_sealed P o text htext sp
  unfold openToken madeToken
  dsimp only
  rw [hget]
  dsimp only
  rw [if_neg hsum, secHmac_of_free (sealedText_ne_nil o text sp) (by decide) hidle.hmacHeld]
  exact if_pos (.inr (.inr hne))

/-! ## The pair of tokens -/

inductive Route
  | participant
  | endpoint
  deriving DecidableEq

open Route

def Route.create (P : Primitives) (h : Host) (alloc : Allocator) :
    Route → TokenKeys → Session → Plugin → Option (Except ReturnCode (Token × Token) × Session × Plugin)
  | .participant => cpsCreateLocPartTokens P h alloc
  | .endpoint => cpsCreateLocalEpTokens P h alloc

def Route.signKinds (k : TokenKeys) : Route → CipherKind × HashKind
  | .participant => (.ofCode k.signHash.code, .none)
  | .endpoint => (.none, k.signHash)

def modeKeys (data sign : Mode) (dataM signTxM : Master) : TokenKeys :=
  ⟨(cpsModeGet data).1, (cpsModeGet data).2, dataM, (cpsModeGet sign).2, signTxM⟩

structure TokenKeys.Sized (k : TokenKeys) : Prop where
  dataM : k.dataM.Sized k.dataCipher k.dataHash
  signTxM : k.signTxM.Sized .none k.signHash

def Carried (P : Primitives) (src dst : Host) (alloc : Allocator) (route : Route) (k : TokenKeys) (kk : KxKeys)
    (id counter : UInt32) (rxId : Option UInt32) (buffer : Bytes) (t1 t2 : KeyMaterial) (pl pl' : Plugin) : Prop :=
  ∃ tok tok' s, route.create P src alloc k (tokenTx P kk id counter) pl = some (.ok (tok, tok'), s) ∧
    ∃ km km' s', cpsParseTokens P dst buffer [tok, tok'] t1 t2 kk (tokenRx P kk rxId) pl' = some (.ok (km, km'), s') ∧
      km.Carries k.dataCipher k.dataHash k.dataM ∧ km'.Carries .none k.signHash k.signTxM

variable {k : TokenKeys} {kk : KxKeys} {id counter : UInt32} {buffer : Bytes} {t1 t2 : KeyMaterial} {pl pl' : Plugin}

theorem Route.create_eq (route : Route) :
    route.create P src alloc k = makeTokens P src alloc k.dataCipher k.dataHash k.dataM (route.signKinds k).1
      (route.signKinds k).2 k.signTxM := by
  cases route <;> rfl

theorem Route.create_made (route : Route) (hdata : (keyText src.order k.dataCipher k.dataHash k.dataM).length ≤ 124)
    (hsign : (keyText src.order (route.signKinds k).1 (route.signKinds k).2 k.signTxM).length ≤ 124) (hidle : pl.Idle) :
    ∃ counter' s, route.create P src alloc k (tokenTx P kk id counter) pl = some (.ok
      (madeToken P src.order (keyText src.order k.dataCipher k.dataHash k.dataM) (tokenTx P kk id counter),
        madeToken P src.order (keyText src.order (route.signKinds k).1 (route.signKinds k).2 k.signTxM)
          (tokenTx P kk id counter')), s) := by
  obtain ⟨counter', pl1, hmake, hidle1⟩ := @cpsMakeToken_made P src alloc k.dataCipher k.dataHash k.dataM hdata
    (tokenTx P kk id counter) pl hidle
  obtain ⟨counter'', pl2, hmake', _⟩ := @cpsMakeToken_made P src alloc (route.signKinds k).1 (route.signKinds k).2
    k.signTxM hsign (tokenTx P kk id counter') pl1 hidle1
  refine ⟨counter', ({ tokenTx P kk id counter' with counter := counter'' }, pl2), ?_⟩
  have hnext : { tokenTx P kk id counter with counter := counter' } = tokenTx P kk id counter' := rfl
  rw [hnext] at hmake
  rw [route.create_eq, makeTokens, hmake, bind_some]
  dsimp only
  rw [hmake', map_some]

theorem cpsParseTokens_made {text text' : Bytes} {o : Endian} {counter' : UInt32} {rx : Session}
    (htext : text.length ≤ 124) (htext' : text'.length ≤ 124) (hbuf : buffer.length = 128)
    (hrx : rx.Derived P .sha256 .aes256 kk.master ∨ rx.id ≠ id) (hidle : pl.Idle) :
    ∃ rest rest' s s', cpsParseTokens P dst buffer [madeToken P o text (tokenTx P kk id counter),
        madeToken P o text' (tokenTx P kk id counter')] t1 t2 kk rx pl
      = match readKeys dst.order (text ++ rest) text.length t1 with
        | .error rc => some (.error rc, s)
        | .ok km => match readKeys dst.order (text' ++ rest') text'.length t2 with
          | .error rc => some (.error rc, s')
          | .ok km' => some (if km.cipherKind ≠ .none ∧ km'.cipherKind ≠ .none then (.error .preconditionNotMet, s')
            else (.ok (km, km'), s')) := by
  obtain ⟨rest, rx1, pl1, hget, hder, hidle1⟩ := @cpsGetToken_made P dst kk text buffer htext hbuf id counter rx hrx pl
    hidle o t1
  obtain ⟨rest', rx2, pl2, hget', _, _⟩ := @cpsGetToken_made P dst kk text' buffer htext' hbuf id counter' rx1
    (.inl hder) pl1 hidle1 o t2
  refine ⟨rest, rest', (rx1, pl1), (rx2, pl2), ?_⟩
  unfold cpsParseTokens
  dsimp only
  rw [hget, bind_some]
  cases readKeys dst.order (text ++ rest) text.length t1 with
  | error rc => rfl
  | ok km =>
    dsimp only
    rw [hget']
    cases readKeys dst.order (text' ++ rest') text'.length t2 with
    | error rc => rfl
    | ok km' => rfl

theorem cpsModeGet_pair (mode : Mode) :
    (cpsModeGet mode).1 = .none ∨ (cpsModeGet mode).2.code = (cpsModeGet mode).1.code := by
  cases mode <;> decide

theorem Route.signKinds_of_right {route : Route} (hright : route = .endpoint ∨ k.signHash = .none) :
    route.signKinds k = (.none, k.signHash) := by
  cases route with
  | endpoint => rfl
  | participant =>
    have hh : k.signHash = .none := hright.resolve_left (by decide)
    rw [signKinds, hh]
    rfl

theorem tokenRx_ready (hid : id ≠ 0 ∨ rxId ≠ none) :
    (tokenRx P kk rxId).Derived P .sha256 .aes256 kk.master ∨ (tokenRx P kk rxId).id ≠ id := by
  cases rxId with
  | none => exact .inr fun h0 => hid.elim (fun hne => hne h0.symm) fun hne => hne rfl
  | some i => exact .inl Session.derived_derive

theorem length_keyText_le (hsized : mp.Sized cipher hash) (o : Endian) :
    (keyText o cipher hash mp).length ≤ 124 := by
  rw [length_keyText hsized]
  have := keysIn_cases hash
  have := vectorIn_cases cipher hash
  omega

def markPrimitives : Primitives where
  hmac := fun sha key msg => replicate sha.size (if msg.head? = some 83 then 1 else key.headD 0)
  aes := fun _ _ _ => 0
  length_hmac := fun _ _ _ => length_replicate

theorem cpsGetToken_of_zero (htext : text.length ≤ 124) (hidle : pl.Idle) (o : Endian) (km : KeyMaterial) :
    cpsGetToken markPrimitives dst buffer km (madeToken markPrimitives o text (tokenTx markPrimitives kk 0 counter)) kk
      (tokenRx markPrimitives kk none) pl = some (.error .badParameter, .zero 32, pl) := by
  have hhead : tokenHead dst.order (madeToken markPrimitives o text (tokenTx markPrimitives kk 0 counter)).value1
      = .ok (o, 0, counter) := tokenHead_sealed dst.order o text _
  have hmsg : (sealedText markPrimitives o text (tokenTx markPrimitives kk 0 counter)).head? ≠ some 83 := by
    cases o
    · exact (by decide : some (0 : UInt8) ≠ some 83)
    · exact (by decide : some (1 : UInt8) ≠ some 83)
  unfold cpsGetToken
  rw [hhead]
  refine openToken_refused ?_ htext hidle km
  show replicate 32 (if _ then _ else _) ≠ replicate 32 (if _ then _ else _)
  rw [if_neg hmsg, if_neg hmsg]
  exact (by decide : replicate 32 (0 : UInt8) ≠ replicate 32 1)

def TokenKeys.Paired (k : TokenKeys) : Prop := k.dataCipher = .none ∨ k.dataHash.code = k.dataCipher.code

theorem TokenKeys.Sized.length_sign (hsized : k.Sized) (route : Route) (o : Endian) :
    (keyText o (route.signKinds k).1 (route.signKinds k).2 k.signTxM).length ≤ 124 := by
  cases route with
  | endpoint => exact length_keyText_le hsized.signTxM o
  | participant => cases o <;> exact (by decide : 28 ≤ 124)

section
variable {route : Route} {rxId : Option UInt32} (hsized : k.Sized) (hidle : pl.Idle) (hidle' : pl'.Idle)
include hsized hidle hidle'

theorem carried_of_right (hpair : k.Paired) (hbuf : buffer.length = 128)
    (hright : route = .endpoint ∨ k.signHash = .none) (hid : id ≠ 0 ∨ rxId ≠ none) :
    Carried P src dst alloc route k kk id counter rxId buffer t1 t2 pl pl' := by
  have hdata := length_keyText_le hsized.dataM src.order
  have hsign := hsized.length_sign route src.order
  obtain ⟨counter', s, hmade⟩ := @Route.create_made P src alloc k kk id counter pl route hdata hsign hidle
  obtain ⟨rest, rest', s1, s2, hparse⟩ := @cpsParseTokens_made P dst kk id counter buffer t1 t2 pl' _ _ src.order
    counter'
    (tokenRx P kk rxId) hdata hsign hbuf (tokenRx_ready hid) hidle'
  obtain ⟨km, hkm, hcarries⟩ := readKeys_keyText hsized.dataM hpair dst.order src.order rest t1
  obtain ⟨km', hkm', hcarries'⟩ := readKeys_keyText hsized.signTxM (.inl rfl) dst.order src.order rest' t2
  refine ⟨_, _, s, hmade, km, km', s2, ?_, hcarries, hcarries'⟩
  rw [signKinds_of_right hright] at hparse ⊢
  rw [hkm, hkm'] at hparse
  dsimp only at hparse
  rw [hparse, if_neg fun hboth => hboth.2 hcarries'.cipherKind]

theorem not_carried_of_zero :
    ¬ Carried markPrimitives src dst alloc route k kk 0 counter none buffer t1 t2 pl pl' := by
  rintro ⟨tok, tok', s, hcreate, km, km', s', hparse, _⟩
  have hdata := length_keyText_le hsized.dataM src.order
  obtain ⟨counter', s1, hmade⟩ := @Route.create_made markPrimitives src alloc k kk 0 counter pl route hdata
    (hsized.length_sign route src.order) hidle
  rw [hmade] at hcreate
  cases hcreate
  rw [cpsParseTokens, cpsGetToken_of_zero hdata hidle'] at hparse
  cases hparse

theorem not_carried_of_swapped (hbuf : buffer.length = 128) (hsignHash : k.signHash ≠ .none)
    (hid : id ≠ 0 ∨ rxId ≠ none) : ¬ Carried P src dst alloc .participant k kk id counter rxId buffer t1 t2 pl pl' := by
  rintro ⟨tok, tok', s, hcreate, km, km', s', hparse, _⟩
  have hdata := length_keyText_le hsized.dataM src.order
  have hsign := hsized.length_sign .participant src.order
  obtain ⟨counter', s1, hmade⟩ := @Route.create_made P src alloc k kk id counter pl .participant hdata hsign hidle
  rw [hmade] at hcreate
  cases hcreate
  obtain ⟨rest, rest', s1, s2, hparse'⟩ := @cpsParseTokens_made P dst kk id counter buffer t1 t2 pl' _ _ src.order
    counter'
    (tokenRx P kk rxId) hdata hsign hbuf (tokenRx_ready hid) hidle'
  have hcipher : CipherKind.ofCode k.signHash.code ≠ .none := by
    intro hc
    cases hh : k.signHash with
    | none => exact hsignHash hh
    | sha1 => rw [hh] at hc; cases hc
    | sha256 => rw [hh] at hc; cases hc
  have hswapped : readKeys dst.order (keyText src.order (participant.signKinds k).1
      (participant.signKinds k).2 k.signTxM ++ rest') (keyText src.order (participant.signKinds k).1
      (participant.signKinds k).2 k.signTxM).length t2 = .error .preconditionNotMet :=
    readKeys_of_swapped hcipher dst.order src.order rest' t2
  rw [hparse', hswapped] at hparse
  split at hparse <;> cases hparse

end

/-- **Key tokens carry the keys over** exactly if they are those of an endpoint, or of a participant that does not sign,
and the id of their session is not that of no session, or the peer has had a session before. -/
theorem carried_iff (data sign : Mode) (src dst : Host) (alloc : Allocator) (route : Route) {dataM signTxM : Master}
    (kk : KxKeys) (id counter : UInt32) (rxId : Option UInt32) {buffer : Bytes} (t1 t2 : KeyMaterial) {pl pl' : Plugin}
    (hsized : (modeKeys data sign dataM signTxM).Sized) (hbuf : buffer.length = 128) (hidle : pl.Idle)
    (hidle' : pl'.Idle) :
    (∀ P, Carried P src dst alloc route (modeKeys data sign dataM signTxM) kk id counter rxId buffer t1 t2 pl pl') ↔
      (route = .endpoint ∨ (cpsModeGet sign).2 = .none) ∧ (id ≠ 0 ∨ rxId ≠ none) := by
  have hpair : (modeKeys data sign dataM signTxM).Paired := cpsModeGet_pair data
  constructor
  · intro hall
    have hid : id ≠ 0 ∨ rxId ≠ none := by
      by_contra hzero
      rw [not_or, not_not, not_not] at hzero
      obtain ⟨rfl, rfl⟩ := hzero
      exact not_carried_of_zero hsized hidle hidle' (hall markPrimitives)
    refine ⟨?_, hid⟩
    cases route with
    | endpoint => exact .inl rfl
    | participant =>
      right
      by_contra hsign
      exact not_carried_of_swapped hsized hidle hidle' hbuf hsign hid (hall sumPrimitives)
  · rintro ⟨hright, hid⟩ P
    exact carried_of_right hsized hidle hidle' hpair hbuf hright hid

def someKx : KxKeys := ⟨replicate 32 4, replicate 32 5⟩

def freshKeys : KeyMaterial := ⟨.none, .none, 0, replicate 32 0, replicate 32 0, replicate 32 0⟩

/-- The tokens of an endpoint that encrypts and signs, read by a machine of the other byte order. -/
theorem carried_endpoint :
    Carried sumPrimitives bigHost littleHost roomy .endpoint (modeKeys .aes128HmacSha1 .aes128HmacSha1 (someMaster 16)
      (someMaster 16)) someKx 7 0 none (replicate 128 0) freshKeys freshKeys .init .init :=
  (carried_iff .aes128HmacSha1 .aes128HmacSha1 bigHost littleHost roomy .endpoint someKx 7 0 none freshKeys freshKeys
    ⟨⟨fun _ => rfl, fun _ => rfl, fun _ => rfl⟩, ⟨fun _ => rfl, fun _ => rfl, fun hne => absurd rfl hne⟩⟩ rfl
    ⟨rfl, rfl, rfl, rfl⟩ ⟨rfl, rfl, rfl, rfl⟩).2 ⟨.inl rfl, .inl (by decide)⟩ sumPrimitives

/-- A participant that only signs makes its tokens, and the peer refuses them. -/
theorem refused_participant :
    ((cpsCreateLocPartTokens sumPrimitives littleHost roomy (modeKeys .hmacSha1 .hmacSha1 (someMaster 16)
    (someMaster 16))
        (tokenTx sumPrimitives someKx 7 0) .init).bind fun
      | (.ok (tok, tok'), _) => (cpsParseTokens sumPrimitives littleHost (replicate 128 0) [tok, tok'] freshKeys
          freshKeys someKx (tokenRx sumPrimitives someKx none) .init).map Prod.fst
      | _ => none) = some (.error .preconditionNotMet) := by
  decide +kernel

end Qeo.Crypto
