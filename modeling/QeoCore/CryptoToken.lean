import QeoCore.CryptoSeal
/-!
# CryptoToken — key tokens (sec_c_std.c)

The master keys are sent to a peer in two tokens, one for the data keys and one for the signing keys.  A token is the
CDR text of the keys, encrypted in a session of the exchange keys; its second value is the HMAC of the first.
-/
namespace Qeo.Crypto

open Octets

def CipherKind.ofCode (n : UInt32) : CipherKind :=
  if n = 0 then .none else if n = 1 then .aes128 else .aes256

def HashKind.ofCode (n : UInt32) : HashKind :=
  if n = 0 then .none else if n = 1 then .sha1 else .sha256

@[simp] theorem CipherKind.ofCode_code (c : CipherKind) : ofCode c.code = c := by cases c <;> rfl

@[simp] theorem HashKind.ofCode_code (hk : HashKind) : ofCode hk.code = hk := by cases hk <;> rfl

structure Token where
  value1 : Bytes
  value2 : Bytes

structure KxKeys where
  kxKey : Bytes
  kxMacKey : Bytes
  deriving DecidableEq

def KxKeys.master (kk : KxKeys) : Master := ⟨0, kk.kxKey, kk.kxMacKey, List.replicate 32 0⟩

structure KeyMaterial where
  cipherKind : CipherKind
  hashKind : HashKind
  masterKeyId : UInt32
  masterKey : Bytes
  initializationVector : Bytes
  hmacKeyId : Bytes
  deriving DecidableEq

def endianCpu : Endian → UInt8
  | .big => 0
  | .little => 1

variable (P : Primitives) (h : Host) (alloc : Allocator)

/-! ## Making tokens -/

def sizedKey (o : Endian) (n : Nat) (key : Bytes) : Bytes := put32 o (UInt32.ofNat n) ++ key.take n

def keyText (o : Endian) (cipher : CipherKind) (hash : HashKind) (mp : Master) : Bytes :=
  [0, endianCpu o, 0, 0] ++ (put32 o cipher.code ++ (put32 o hash.code ++
    if hash = .none then put32 o 0 ++ (put32 o 0 ++ (put32 o 0 ++ put32 o 0))
    else
      put32 o mp.id ++ (sizedKey o hash.sha.keySize mp.masterKey ++
        ((if cipher = .none then put32 o 0 else sizedKey o hash.sha.keySize mp.initVector) ++
          sizedKey o hash.sha.keySize mp.hmacKeyId))))

def cpsMakeToken (cipher : CipherKind) (hash : HashKind) (mp : Master) (encrypt : Session) (pl : Plugin) :
    Option (Except ReturnCode Token × Session × Plugin) :=
  let text := keyText h.order cipher hash mp
  let head := header h.order 0x201 encrypt.id encrypt.counter (UInt32.ofNat text.length)
  (secAesCtrCrypt P h.locking encrypt.key 32 encrypt.salt text
      ⟨alloc.mem (text.length + 32), 24, encrypt.counter, pl⟩).bind fun
    | (.ok, s) =>
      let value1 := head ++ (s.mem.drop 24).take text.length ++ put32 h.order 0 ++ put32 h.order 0
      let encrypt := { encrypt with counter := s.secure }
      (secHmac P h.locking .sha256 encrypt.hmac 32 value1 ([], s.plugin)).map fun
        | (.ok, digest, pl) => (.ok ⟨value1, digest⟩, encrypt, pl)
        | (rc, _, pl) => (.error rc, encrypt, pl)
    | (rc, s) => some (.error rc, encrypt, s.plugin)

def makeTokens (cipher : CipherKind) (hash : HashKind) (mp : Master) (cipher' : CipherKind) (hash' : HashKind)
    (mp' : Master) (encrypt : Session) (pl : Plugin) : Option (Except ReturnCode (Token × Token) × Session × Plugin) :=
  (cpsMakeToken P h alloc cipher hash mp encrypt pl).bind fun
    | (.ok t, encrypt, pl) =>
      (cpsMakeToken P h alloc cipher' hash' mp' encrypt pl).map fun
        | (.ok t', s) => (.ok (t, t'), s)
        | (.error rc, s) => (.error rc, s)
    | (.error rc, s) => some (.error rc, s)

structure TokenKeys where
  dataCipher : CipherKind
  dataHash : HashKind
  dataM : Master
  signHash : HashKind
  signTxM : Master

/-- `cps_create_loc_part_tokens`.  The kind of hash is passed for the cipher of the signing keys, and `CK_NONE` for
their hash. -/
def cpsCreateLocPartTokens (k : TokenKeys) : Session → Plugin →
    Option (Except ReturnCode (Token × Token) × Session × Plugin) :=
  makeTokens P h alloc k.dataCipher k.dataHash k.dataM (.ofCode k.signHash.code)
    (.ofCode CipherKind.none.code) k.signTxM

def cpsCreateLocalEpTokens (k : TokenKeys) : Session → Plugin →
    Option (Except ReturnCode (Token × Token) × Session × Plugin) :=
  makeTokens P h alloc k.dataCipher k.dataHash k.dataM .none k.signHash k.signTxM

/-! ## Reading tokens -/

def cpsGet4 (o : Endian) (bp : Bytes) (ofs max : Nat) : Except ReturnCode UInt32 :=
  if max < ofs + 4 then .error .badParameter else .ok (get32 o (bp.drop ofs))

def tokenOrder (o : Endian) (type : UInt32) : Except ReturnCode Endian :=
  if type = 0x201 then .ok o else if type = 0x01020000 then .ok o.other else .error .preconditionNotMet

def tokenHead (o : Endian) (dp : Bytes) : Except ReturnCode (Endian × UInt32 × UInt32) := do
  let max := dp.length
  let type ← cpsGet4 o dp 0 max
  let order ← tokenOrder o type
  let id1 ← cpsGet4 order dp 4 max
  let id2 ← cpsGet4 order dp 8 max
  let id3 ← cpsGet4 order dp 12 max
  let counter ← cpsGet4 order dp 16 max
  if id1 ≠ id2 * 9812345 ∨ id2 ≠ id3 then throw .preconditionNotMet
  return (order, id3, counter)

/-- The keys in the buffer of 128 bytes that a token has been decrypted into, `max` of them from the token.  A key is
copied over what the array for it held before. -/
def readKeys (o : Endian) (buffer : Bytes) (max : Nat) (kmp : KeyMaterial) : Except ReturnCode KeyMaterial := do
  if buffer[0]?.getD 0 ≠ 0 ∨ (buffer[1]?.getD 0 ≠ 0 ∧ buffer[1]?.getD 0 ≠ 1) ∨ buffer[2]?.getD 0 ≠ 0 ∨
      buffer[3]?.getD 0 ≠ 0 then throw .preconditionNotMet
  let order := if buffer[1]?.getD 0 ≠ endianCpu o then o.other else o
  let c ← cpsGet4 order buffer 4 max
  let hk ← cpsGet4 order buffer 8 max
  if 2 < c ∨ 2 < hk ∨ (c ≠ 0 ∧ hk ≠ c) then throw .preconditionNotMet
  let id1 ← cpsGet4 order buffer 12 max
  let tlen ← cpsGet4 order buffer 16 max
  if hk ≠ 0 ∧ tlen ≠ 16 ∧ tlen ≠ 32 ∨ hk = 0 ∧ tlen ≠ 0 then throw .badParameter
  let id2 := tlen
  let len := 20 + tlen.toNat
  let kmp := { kmp with
    cipherKind := .ofCode c
    hashKind := .ofCode hk
    masterKeyId := id1
    masterKey := overwrite kmp.masterKey 0 ((buffer.drop 20).take tlen.toNat) }
  let tlen ← cpsGet4 order buffer len max
  if c ≠ 0 ∧ tlen ≠ id2 then throw .badParameter
  let vlen := if c ≠ 0 then tlen.toNat else 0
  let kmp := { kmp with
    initializationVector := overwrite kmp.initializationVector 0 ((buffer.drop (len + 4)).take vlen) }
  let len := len + 4 + vlen
  let tlen ← cpsGet4 order buffer len max
  if hk ≠ 0 ∧ tlen ≠ id2 then throw .badParameter
  let klen := if hk ≠ 0 then tlen.toNat else 0
  return { kmp with hmacKeyId := overwrite kmp.hmacKeyId 0 ((buffer.drop (len + 4)).take klen) }

/-- The second half of `cps_get_token`, in the session of the token.  `buffer` is what the 128 bytes on the stack held
before. -/
def openToken (buffer : Bytes) (kmp : KeyMaterial) (token : Token) (order : Endian) (counter : UInt32)
    (decrypt : Session) (pl : Plugin) : Option (Except ReturnCode KeyMaterial × Session × Plugin) :=
  let dp := token.value1
  let max := dp.length
  match cpsGet4 order dp 20 max with
  | .error rc => some (.error rc, decrypt, pl)
  | .ok tlen =>
    if tlen + 32 ≠ UInt32.ofNat max then some (.error .preconditionNotMet, decrypt, pl)
    else
      (secHmac P h.locking .sha256 decrypt.hmac 32 dp (buffer.take 32, pl)).bind fun (rc, digest, pl) =>
        if rc ≠ .ok ∨ token.value2.length ≠ 32 ∨ digest ≠ token.value2 then some (.error .badParameter, decrypt, pl)
        else if max < 24 + tlen.toNat then none
        else
          (secAesCtrCrypt P h.locking decrypt.key 32 decrypt.salt ((dp.drop 24).take tlen.toNat)
              ⟨overwrite buffer 0 digest, 0, counter, pl⟩).map fun
            | (.ok, s) =>
              (do
                let id2 ← cpsGet4 order dp (24 + tlen.toNat) max
                let id3 ← cpsGet4 order dp (28 + tlen.toNat) max
                if id2 ≠ 0 ∨ id3 ≠ 0 then throw .preconditionNotMet
                readKeys h.order s.mem tlen.toNat kmp, decrypt, s.plugin)
            | (_, s) => (.error .badParameter, decrypt, s.plugin)

/-- `cps_get_token`.  The session is that for tokens of the peer; it is made anew for another id. -/
def cpsGetToken (buffer : Bytes) (kmp : KeyMaterial) (token : Token) (kk : KxKeys) (decrypt : Session) (pl : Plugin) :
    Option (Except ReturnCode KeyMaterial × Session × Plugin) :=
  match tokenHead h.order token.value1 with
  | .error rc => some (.error rc, decrypt, pl)
  | .ok (order, id3, counter) =>
    (if decrypt.id ≠ id3 then cpsInitSession P h.locking .sha256 .aes256 kk.master decrypt id3 false pl
      else some decrypt).bind fun decrypt => openToken P h buffer kmp token order counter decrypt pl

def cpsParseTokens (buffer : Bytes) (tokens : List Token) (t1 t2 : KeyMaterial) (kk : KxKeys) (decrypt : Session)
    (pl : Plugin) : Option (Except ReturnCode (KeyMaterial × KeyMaterial) × Session × Plugin) :=
  match tokens with
  | token :: token' :: _ =>
    (cpsGetToken P h buffer t1 token kk decrypt pl).bind fun
      | (.ok t1, decrypt, pl) =>
        (cpsGetToken P h buffer t2 token' kk decrypt pl).map fun
          | (.ok t2, s) =>
            if t1.cipherKind ≠ .none ∧ t2.cipherKind ≠ .none then (.error .preconditionNotMet, s) else (.ok (t1, t2), s)
          | (.error rc, s) => (.error rc, s)
      | (.error rc, s) => some (.error rc, s)
  | _ => some (.error .preconditionNotMet, decrypt, pl)

end Qeo.Crypto
