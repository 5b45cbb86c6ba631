import QeoCore.CryptoStream
/-!
# CryptoPayload — master keys and the session keys derived from them (sec_c_std.c)

Session keys are made of a master key and of a session id that the sender draws from a counter of its own (`next_id`);
the receiver makes new ones only for an id other than the last.
-/
namespace Qeo.Crypto

open Octets

inductive CipherKind
  | none
  | aes128
  | aes256
  deriving DecidableEq

inductive HashKind
  | none
  | sha1
  | sha256
  deriving DecidableEq

inductive Mode
  | none
  | hmacSha1
  | hmacSha256
  | aes128HmacSha1
  | aes256HmacSha256

def cpsModeGet : Mode → CipherKind × HashKind
  | .none => (.none, .none)
  | .hmacSha1 => (.none, .sha1)
  | .hmacSha256 => (.none, .sha256)
  | .aes128HmacSha1 => (.aes128, .sha1)
  | .aes256HmacSha256 => (.aes256, .sha256)

def CipherKind.code : CipherKind → UInt32
  | .none => 0
  | .aes128 => 1
  | .aes256 => 2

def HashKind.code : HashKind → UInt32
  | .none => 0
  | .sha1 => 1
  | .sha256 => 2

def HashKind.sha : HashKind → Sha
  | .sha1 => .sha1
  | _ => .sha256

def Sha.keySize : Sha → Nat
  | .sha1 => 16
  | .sha256 => 32

def CipherKind.keySize : CipherKind → Nat
  | .aes128 => 16
  | _ => 32

theorem CipherKind.keySize_cases (c : CipherKind) : c.keySize = 16 ∨ c.keySize = 32 := by
  cases c
  · exact .inr rfl
  · exact .inl rfl
  · exact .inr rfl

theorem Sha.keySize_pos (sha : Sha) : 0 < sha.keySize := by cases sha <;> decide

/-- Master keys. -/
structure Master where
  id : UInt32
  masterKey : Bytes
  hmacKeyId : Bytes
  initVector : Bytes
  deriving DecidableEq

structure Session where
  id : UInt32
  hmac : Bytes
  key : Bytes
  salt : Bytes
  counter : UInt32
  deriving DecidableEq

def Session.zero (n : Nat) : Session :=
  ⟨0, List.replicate n 0, List.replicate n 0, List.replicate 16 0, 0⟩

/-- One direction of a handle. -/
structure Context where
  cipher : CipherKind
  hash : HashKind
  master : Master
  session : Session
  deriving DecidableEq

structure Host where
  order : Endian
  locking : Locking

/-! ## Session keys -/

variable (P : Primitives) (lk : Locking)

def label (cs : List Char) : Bytes := cs.map fun c => UInt8.ofNat c.toNat

section
variable (sha : Sha) (mp : Master) (id : UInt32)

def sessionHmac : Bytes :=
  (P.hmac sha (mp.masterKey.take sha.keySize)
    (label ['S', 'e', 's', 's', 'i', 'o', 'n', 'H', 'M', 'A', 'C', 'K', 'e', 'y'] ++ mp.hmacKeyId
      ++ put32 .big id)).take sha.keySize

/-- Only nine characters of the label are copied. -/
def sessionKey : Bytes :=
  (P.hmac sha (mp.masterKey.take sha.keySize)
    (label ['S', 'e', 's', 's', 'i', 'o', 'n', 'K', 'e'] ++ mp.initVector ++ put32 .big id ++ [1])).take sha.keySize

/-- Only ten characters of the label are copied. -/
def sessionSalt : Bytes :=
  (P.hmac sha (mp.masterKey.take sha.keySize)
    (label ['S', 'e', 's', 's', 'i', 'o', 'n', 'S', 'a', 'l'] ++ mp.initVector ++ put32 .big id ++ [0])).take 16

end

/-- The keys of a session, and for a sender a new counter. -/
def Session.derive (sha : Sha) (cipher : CipherKind) (mp : Master) (id : UInt32) (tx : Bool) (sp : Session) : Session :=
  if cipher = .none then { sp with id := id, hmac := sessionHmac P sha mp id }
  else
    { id := id
      hmac := sessionHmac P sha mp id
      key := sessionKey P sha mp id
      salt := sessionSalt P sha mp id
      counter := if tx then 0 else sp.counter }

def cpsInitSession (sha : Sha) (cipher : CipherKind) (mp : Master) (sp : Session) (id : UInt32) (tx : Bool)
    (pl : Plugin) : Option Session :=
  if pl.hmacHeld && lk.waits then none else some (sp.derive P sha cipher mp id tx)

structure Session.Derived (sha : Sha) (cipher : CipherKind) (mp : Master) (sp : Session) : Prop where
  hmac : sp.hmac = sessionHmac P sha mp sp.id
  key : cipher ≠ .none → sp.key = sessionKey P sha mp sp.id
  salt : cipher ≠ .none → sp.salt = sessionSalt P sha mp sp.id

variable {P lk} {sha : Sha} {cipher : CipherKind} {mp : Master} {sp sp' : Session} {id : UInt32} {tx : Bool}
    {pl : Plugin}

theorem cpsInitSession_of_free (hfree : pl.hmacHeld = false) :
    cpsInitSession P lk sha cipher mp sp id tx pl = some (sp.derive P sha cipher mp id tx) := by
  rw [cpsInitSession, hfree, Bool.false_and, if_neg Bool.false_ne_true]

theorem cpsInitSession_some (h : cpsInitSession P lk sha cipher mp sp id tx pl = some sp') :
    sp' = sp.derive P sha cipher mp id tx := by
  unfold cpsInitSession at h
  split at h
  · cases h
  · exact (Option.some.inj h).symm

theorem Session.derive_id : (sp.derive P sha cipher mp id tx).id = id := by
  unfold derive
  split <;> rfl

theorem Session.derived_derive : (sp.derive P sha cipher mp id tx).Derived P sha cipher mp := by
  unfold derive
  split
  · rename_i hc
    exact ⟨rfl, fun hne => absurd hc hne, fun hne => absurd hc hne⟩
  · exact ⟨rfl, fun _ => rfl, fun _ => rfl⟩

theorem Session.derive_counter (hc : cipher ≠ .none) : (sp.derive P sha cipher mp id true).counter = 0 := by
  rw [derive, if_neg hc]
  rfl

def Session.Agrees (cipher : CipherKind) (a b : Session) : Prop :=
  a.hmac = b.hmac ∧ (cipher ≠ .none → a.key = b.key ∧ a.salt = b.salt)

theorem Session.Derived.agrees (h : sp.Derived P sha cipher mp) (h' : sp'.Derived P sha cipher mp)
    (hid : sp.id = sp'.id) : sp.Agrees cipher sp' := by
  refine ⟨by rw [h.hmac, h'.hmac, hid], fun hc => ⟨?_, ?_⟩⟩
  · rw [h.key hc, h'.key hc, hid]
  · rw [h.salt hc, h'.salt hc, hid]

/-! ## Protecting and unprotecting payloads (sec_c_std.c)

A protected payload is a header of 24 bytes in the byte order of its sender, the payload, plain or encrypted, padding up
to a multiple of four, the size of the digest and the digest, and an empty list of further digests.
-/

open List Option Octets

structure Allocator where
  mem : Nat → Bytes
  enough : ∀ n, n ≤ (mem n).length

def alignUp (n : Nat) : Nat := (n + 3) / 4 * 4

def Context.expected (c : Context) : Option (UInt32 × Nat) :=
  match c.cipher, c.hash with
  | .aes256, _ => some (0x201, 32)
  | .aes128, _ => some (0x200, 20)
  | .none, .sha256 => some (0x101, 32)
  | .none, .sha1 => some (0x100, 20)
  | .none, .none => none

/-! ## cps_encrypt_payload -/

structure TxState where
  nextId : UInt32
  ctx : Context
  plugin : Plugin
  deriving DecidableEq

def maxBlocksPerSession : Nat := 2000

/-- Is the session unused or worn out? -/
def TxState.renews (t : TxState) : Bool :=
  decide (t.ctx.cipher ≠ .none) &&
    (decide (t.ctx.session.id = 0) || decide (maxBlocksPerSession ≤ t.ctx.session.counter.toNat))

variable (P : Primitives) (h : Host) (alloc : Allocator) {res : Except ReturnCode Bytes}

def TxState.renew (t : TxState) : Option TxState :=
  if t.renews then
    (cpsInitSession P h.locking t.ctx.hash.sha t.ctx.cipher t.ctx.master t.ctx.session t.nextId true t.plugin).map
      fun sp => { t with nextId := t.nextId + 1, ctx := { t.ctx with session := sp } }
  else some t

def header (o : Endian) (type id counter len : UInt32) : Bytes :=
  put32 o type ++ (put32 o (id * 9812345) ++ (put32 o id ++ (put32 o id ++ (put32 o counter ++ put32 o len))))

/-- The payload is put behind the header, encrypted if there is a cipher.  A payload in a chain of buffers is encrypted
to `dp + len`, where the buffer that was asked for ends, and not to `dp + dlen`. -/
def cryptInto (c : Context) (data : Dbw) (len : Nat) (s : AesData) : Option (ReturnCode × AesData) :=
  if c.cipher = .none then
    some (.ok, { s with mem := overwrite s.mem s.rdata (dbGetData data.cur data.next data.length) })
  else if data.length ≤ data.cur.length then
    secAesCtrCrypt P h.locking c.session.key c.cipher.keySize c.session.salt (data.cur.take data.length) s
  else secAesCtrCryptDbw P h.locking c.session.key c.cipher.keySize c.session.salt data { s with rdata := len }

def packet (o : Endian) (head region : Bytes) (len : Nat) (sha : Sha) (digest : Bytes) : Bytes :=
  head ++ region ++ List.replicate (alignUp len - len) 0 ++ put32 o (UInt32.ofNat sha.size) ++ digest ++ put32 o 0

def cpsEncryptPayload (data : Dbw) (t : TxState) : Option (Except ReturnCode Bytes × TxState) :=
  let sha := t.ctx.hash.sha
  let len := alignUp data.length + 32 + sha.size
  match t.ctx.expected with
  | none => some (.error .badParameter, t)
  | some (type, _) =>
    (t.renew P h).bind fun t =>
      let sp := t.ctx.session
      let head := header h.order type sp.id (if t.ctx.cipher = .none then 0 else sp.counter) (UInt32.ofNat data.length)
      (cryptInto P h t.ctx data len ⟨alloc.mem len, 24, sp.counter, t.plugin⟩).bind fun
        | (.ok, s) =>
          let region := (s.mem.drop 24).take data.length
          let t := { t with ctx := { t.ctx with session := { sp with counter := s.secure } }, plugin := s.plugin }
          (secHmac P h.locking sha sp.hmac sha.keySize (head ++ region) ([], s.plugin)).map fun
            | (.ok, digest, _) => (.ok (packet h.order head region data.length sha digest), t)
            | (rc, _, _) => (.error rc, t)
        | (rc, s) => some (.error rc, { t with plugin := s.plugin })

/-! ## cps_decrypt_payload -/

/-- One pass of the loop of `cps_get_data` over the fragment `dp`, with `dlen` (a `size_t`) still to copy and `dbuf` in
the 36 bytes of `buf`.  The last fragment is copied with `len` in place of `dlen`. -/
def getDataStep (len dlen : Nat) (dp dbuf : Bytes) : Option (Nat × Bytes) :=
  let n := if dp.length < dlen then dp.length else len
  if dp.length < n ∨ 36 < dbuf.length + n then none
  else some ((dlen + 2 ^ 64 - n) % 2 ^ 64, dbuf ++ dp.take n)

def getDataLoop (len : Nat) : Nat → Bytes → List Bytes → Bytes → Option Bytes
  | dlen, dp, rest, dbuf =>
    (getDataStep len dlen dp dbuf).bind fun (dlen, dbuf) =>
      if dlen = 0 then some dbuf
      else match rest with
        | [] => none
        | b :: rest => getDataLoop len dlen b rest dbuf

def cpsGetData (w : Dbw) (len : Nat) : Option Bytes :=
  if len ≤ w.cur.length then some (w.cur.take len) else getDataLoop len len w.cur w.next []

structure Header where
  order : Endian
  type : UInt32
  sessionId : UInt32
  counter : UInt32
  dlen : UInt32

def readHeader (o : Endian) (dp : Bytes) : Header :=
  let order := if get32 o dp ≤ 0x201 then o else o.other
  { order := order
    type := get32 order dp
    sessionId := get32 order (dp.drop 12)
    counter := get32 order (dp.drop 16)
    dlen := get32 order (dp.drop 20) }

structure RxState where
  ctx : Context
  plugin : Plugin
  deriving DecidableEq

def RxState.sessionFor (r : RxState) (id : UInt32) : Option Session :=
  if r.ctx.session.id = id then some r.ctx.session
  else cpsInitSession P h.locking r.ctx.hash.sha r.ctx.cipher r.ctx.master r.ctx.session id false r.plugin

/-- The payload, decrypted where there is a cipher. -/
def cryptOut (c : Context) (hd : Header) (w : Dbw) (pl : Plugin) : Option (ReturnCode × (Bytes × Plugin)) :=
  let n := hd.dlen.toNat
  if c.cipher = .none then some (.ok, (w.bytes.take n, pl))
  else (secAesCtrCryptDbw P h.locking c.session.key c.cipher.keySize c.session.salt { w with length := n }
    ⟨alloc.mem n, 0, hd.counter, pl⟩).map fun (rc, s) => (rc, (s.mem.take n, s.plugin))

/-- The second half of `cps_decrypt_payload`, from the digest on.  `stale` is what the memory for the digest holds
before.  The HMAC is given 16 bytes of the key, whatever the hash. -/
def verifyPayload (stale : Bytes) (encoded : Dbw) (hd : Header) (hlen : Nat) (r : RxState) :
    Option (Except ReturnCode Bytes × RxState) :=
  let hashed := { encoded with length := (hd.dlen.toNat + 24) % 2 ^ 32 }
  (secHmacDbw P h.locking r.ctx.hash.sha r.ctx.session.hmac 16 hashed (stale, r.plugin)).bind fun
    | (.ok, hash, pl) =>
      let w := encoded.inc 24
      (cryptOut P h alloc r.ctx hd w pl).bind fun
        | (.ok, data, pl) =>
          (cpsGetData (w.inc (alignUp hd.dlen.toNat % 2 ^ 32)) (4 + hlen)).map fun dp =>
            if get32 hd.order dp ≠ UInt32.ofNat hlen ∨ (dp.drop 4).take hlen ≠ hash.take hlen then
              (.error .badParameter, { r with plugin := pl })
            else (.ok data, { r with plugin := pl })
        | (rc, _, pl) => some (.error rc, { r with plugin := pl })
    | (rc, _, pl) => some (.error rc, { r with plugin := pl })

/-- `cps_decrypt_payload`.  Lengths are added up in 32 bits. -/
def cpsDecryptPayload (stale : Bytes) (encoded : Dbw) (r : RxState) : Option (Except ReturnCode Bytes × RxState) :=
  if encoded.length < 33 then some (.error .badParameter, r)
  else
    (cpsGetData encoded 24).bind fun dp =>
      let hd := readHeader h.order dp
      match r.ctx.expected with
      | none => some (.error .badParameter, r)
      | some (type, hlen) =>
        if hd.type ≠ type ∨ encoded.length < (hd.dlen.toNat + 32) % 2 ^ 32 + hlen then some (.error .badParameter, r)
        else
          (r.sessionFor P h hd.sessionId).bind fun sp =>
            verifyPayload P h alloc stale encoded hd hlen { r with ctx := { r.ctx with session := sp } }

/-! ## Fragments -/

def Dbw.whole (w : Dbw) (n : Nat) : Bool :=
  decide (n ≤ w.cur.length) || (w.cur.isEmpty && (w.next.head?.any fun b => decide (n ≤ b.length)))

theorem getDataStep_some (hlen : 0 < len) (h36 : len ≤ 36)
    (hd : dlen < 2 ^ 64) (hinv : (dlen + dbuf.length) % 2 ^ 64 = len)
    (h : getDataStep len dlen dp dbuf = some (dlen', dbuf')) :
    dlen' < 2 ^ 64 ∧ (dlen' + dbuf'.length) % 2 ^ 64 = len ∧
      (dlen' = 0 → dbuf = [] ∧ len ≤ dp.length ∧ dbuf' = dp.take len) ∧
      (dlen' ≠ 0 → dbuf' = [] → dbuf = [] ∧ dp = []) := by
  unfold getDataStep at h
  dsimp only at h
  by_cases hdp : dp.length < dlen
  · rw [if_pos hdp] at h
    split at h
    · cases h
    cases h
    rw [take_length]
    refine ⟨Nat.mod_lt _ (by decide), ?_, fun h0 => ?_, fun _ hnil => append_eq_nil_iff.1 hnil⟩
    · rw [length_append]
      omega
    · omega
  rw [if_neg hdp] at h
  split at h
  · cases h
  cases h
  have hpiece : (dp.take len).length = len := by rw [length_take]; omega
  refine ⟨Nat.mod_lt _ (by decide), ?_, fun h0 => ?_, fun _ hnil => ?_⟩
  · rw [length_append]
    omega
  · have hnil : dbuf = [] := length_eq_zero_iff.1 (by omega)
    rw [hnil]
    exact ⟨rfl, by omega, rfl⟩
  · rw [(append_eq_nil_iff.1 hnil).2, length_nil] at hpiece
    omega

/-- Whatever is copied from a chain of fragments comes from one of them: with anything copied before, the loop does not
find its end. -/
theorem getDataLoop_some (hlen : 0 < len) (h36 : len ≤ 36) :
    ∀ {rest : List Bytes} {dlen : Nat} {dp dbuf res : Bytes}, dlen < 2 ^ 64 → (dlen + dbuf.length) % 2 ^ 64 = len →
      getDataLoop len dlen dp rest dbuf = some res → dbuf = [] ∧ res = (dp ++ rest.flatten).take len
  | rest, dlen, dp, dbuf, res, hd, hinv, hr => by
    rw [getDataLoop, bind_eq_some_iff] at hr
    obtain ⟨⟨dlen', dbuf'⟩, hstep, hr⟩ := hr
    obtain ⟨hd', hinv', hend, hon⟩ := getDataStep_some hlen h36 hd hinv hstep
    dsimp only at hr
    split at hr
    · rename_i h0
      obtain ⟨rfl, hle, rfl⟩ := hend h0
      cases hr
      exact ⟨rfl, (take_append_of_le_length hle).symm⟩
    · rename_i h0
      cases rest with
      | nil => cases hr
      | cons b rest =>
        obtain ⟨hnil, rfl⟩ := getDataLoop_some hlen h36 hd' hinv' hr
        obtain ⟨rfl, rfl⟩ := hon h0 hnil
        exact ⟨rfl, rfl⟩

theorem cpsGetData_some (hlen : 0 < len) (h36 : len ≤ 36) (h : cpsGetData w len = some dp) : dp = w.bytes.take len := by
  unfold cpsGetData at h
  split at h
  · rename_i hle
    cases h
    exact (take_append_of_le_length hle).symm
  have hinv : (len + ([] : Bytes).length) % 2 ^ 64 = len := by
    rw [length_nil]
    omega
  exact (getDataLoop_some hlen h36 (by omega) hinv h).2

theorem cpsGetData_of_whole (hlen : 0 < len) (h36 : len ≤ 36) (h : w.whole len) :
    cpsGetData w len = some (w.bytes.take len) := by
  obtain ⟨cur, next, length⟩ := w
  unfold cpsGetData
  split
  · rename_i hle
    rw [Dbw.bytes, take_append_of_le_length hle]
  rename_i hle
  rw [Dbw.whole, decide_eq_false hle, Bool.false_or, Bool.and_eq_true, List.isEmpty_iff] at h
  obtain ⟨rfl, hnext⟩ := h
  cases next with
  | nil => cases hnext
  | cons b rest =>
    have hb : len ≤ b.length := by simpa using hnext
    have hfirst : getDataStep len len [] [] = some (len, []) := by
      have hrest : (len + 2 ^ 64 - 0) % 2 ^ 64 = len := by omega
      rw [getDataStep, length_nil, if_pos hlen, if_neg (by omega), take_nil, append_nil, hrest]
    have hsecond : getDataStep len len b [] = some (0, b.take len) := by
      have hrest : (len + 2 ^ 64 - len) % 2 ^ 64 = 0 := by omega
      rw [getDataStep, if_neg (Nat.not_lt.2 hb), length_nil, if_neg (by omega), nil_append, hrest]
    rw [getDataLoop, hfirst, bind_some]
    dsimp only
    rw [if_neg (by omega), getDataLoop, hsecond, bind_some]
    dsimp only
    rw [if_pos rfl, Dbw.bytes, nil_append, flatten_cons, take_append_of_le_length hb]

/-! ## Headers -/

theorem length_header (o : Endian) (type id counter len : UInt32) : (header o type id counter len).length = 24 := by
  simp [header, length_put32]

theorem drop_put32 (o : Endian) (w : UInt32) (n : Nat) (rest : Bytes) :
    (put32 o w ++ rest).drop (n + 4) = rest.drop n := by
  rw [Nat.add_comm, ← drop_drop, drop_left' (length_put32 o w)]

def cryptoTypes : List UInt32 := [0x100, 0x101, 0x200, 0x201]

theorem expected_mem {c : Context} (h : c.expected = some (type, hlen)) : type ∈ cryptoTypes := by
  unfold Context.expected at h
  split at h
  · cases h
    decide
  · cases h
    decide
  · cases h
    decide
  · cases h
    decide
  · cases h

theorem order_of_type (htype : type ∈ cryptoTypes) (rest : Bytes) :
    (if get32 o (put32 o' type ++ rest) ≤ 0x201 then o else o.other) = o' := by
  have hcases : type = 0x100 ∨ type = 0x101 ∨ type = 0x200 ∨ type = 0x201 := by simpa [cryptoTypes] using htype
  rcases hcases with rfl | rfl | rfl | rfl <;> cases o <;> cases o' <;> rfl

/-- **A header is read back as it was written**, by a machine of either byte order. -/
theorem readHeader_header (o o' : Endian) (htype : type ∈ cryptoTypes) (id counter len : UInt32) :
    readHeader o (header o' type id counter len) = ⟨o', type, id, counter, len⟩ := by
  have h12 : (header o' type id counter len).drop 12 = put32 o' id ++ (put32 o' counter ++ put32 o' len) := by
    rw [header, drop_put32 o' _ 8, drop_put32 o' _ 4, drop_put32 o' _ 0, drop_zero]
  have h16 : (header o' type id counter len).drop 16 = put32 o' counter ++ put32 o' len := by
    rw [header, drop_put32 o' _ 12, drop_put32 o' _ 8, drop_put32 o' _ 4, drop_put32 o' _ 0, drop_zero]
  have h20 : (header o' type id counter len).drop 20 = put32 o' len := by
    rw [header, drop_put32 o' _ 16, drop_put32 o' _ 12, drop_put32 o' _ 8, drop_put32 o' _ 4, drop_put32 o' _ 0,
      drop_zero]
  unfold readHeader
  dsimp only
  rw [h12, h16, h20]
  unfold header
  rw [order_of_type htype, get32_put32, get32_put32, get32_put32, get32_put32']

/-! ## What an accepted payload has passed -/

variable {P h alloc} {stale data : Bytes} {encoded : Dbw} {r r' : RxState}

def Dbw.head (w : Dbw) (o : Endian) : Header := readHeader o (w.bytes.take 24)

theorem cpsDecryptPayload_cases (hres : cpsDecryptPayload P h alloc stale encoded r = some (res, r')) :
    (res = .error .badParameter ∧ r' = r) ∨
      ∃ type hlen sp, r.ctx.expected = some (type, hlen) ∧ (encoded.head h.order).type = type ∧
        ((encoded.head h.order).dlen.toNat + 32) % 2 ^ 32 + hlen ≤ encoded.length ∧
        r.sessionFor P h (encoded.head h.order).sessionId = some sp ∧
        verifyPayload P h alloc stale encoded (encoded.head h.order) hlen { r with ctx := { r.ctx with session := sp } }
          = some (res, r') := by
  unfold cpsDecryptPayload at hres
  split at hres
  · cases hres
    exact .inl ⟨rfl, rfl⟩
  obtain ⟨dp, hdp, hres⟩ := bind_eq_some_iff.1 hres
  obtain rfl := cpsGetData_some (by decide) (by decide) hdp
  dsimp only at hres
  split at hres
  · cases hres
    exact .inl ⟨rfl, rfl⟩
  rename_i type hlen hexp
  split at hres
  · cases hres
    exact .inl ⟨rfl, rfl⟩
  rename_i hchk
  rw [not_or, not_not, Nat.not_lt] at hchk
  obtain ⟨sp, hsp, hres⟩ := bind_eq_some_iff.1 hres
  exact .inr ⟨type, hlen, sp, hexp, hchk.1, hchk.2, hsp, hres⟩

theorem verifyPayload_ok (hacc : verifyPayload P h alloc stale encoded hd hlen r = some (.ok data, r')) :
    ∃ hash pl dp, secHmacDbw P h.locking r.ctx.hash.sha r.ctx.session.hmac 16
        { encoded with length := (hd.dlen.toNat + 24) % 2 ^ 32 } (stale, r.plugin) = some (.ok, (hash, pl)) ∧
      cryptOut P h alloc r.ctx hd (encoded.inc 24) pl = some (.ok, (data, r'.plugin)) ∧
      cpsGetData ((encoded.inc 24).inc (alignUp hd.dlen.toNat % 2 ^ 32)) (4 + hlen) = some dp ∧
      (dp.drop 4).take hlen = hash.take hlen := by
  obtain ⟨⟨rc, hash, pl⟩, hhash, hacc⟩ := bind_eq_some_iff.1 hacc
  cases rc with
  | ok =>
    obtain ⟨⟨rc, out, pl'⟩, hout, hacc⟩ := bind_eq_some_iff.1 hacc
    cases rc with
    | ok =>
      obtain ⟨dp, hdp, hacc⟩ := map_eq_some_iff.1 hacc
      split at hacc
      · cases hacc
      rename_i hcmp
      rw [not_or, not_not, not_not] at hcmp
      cases hacc
      exact ⟨hash, pl, dp, hhash, hout, hdp, hcmp.2⟩
    | _ => cases hacc
  | _ => cases hacc

theorem verifyPayload_ctx
    (hres : verifyPayload P h alloc stale encoded hd hlen r = some (res, r')) : r'.ctx = r.ctx := by
  obtain ⟨⟨rc, hash, pl⟩, -, hres⟩ := bind_eq_some_iff.1 hres
  cases rc with
  | ok =>
    obtain ⟨⟨rc, out, pl'⟩, -, hres⟩ := bind_eq_some_iff.1 hres
    cases rc with
    | ok =>
      obtain ⟨dp, -, hres⟩ := map_eq_some_iff.1 hres
      split at hres <;> cases hres <;> rfl
    | _ => cases hres; rfl
  | _ => cases hres; rfl

theorem cpsDecryptPayload_ctx (hres : cpsDecryptPayload P h alloc stale encoded r = some (res, r')) :
    r'.ctx = r.ctx ∨ ∃ sp, r.sessionFor P h (encoded.head h.order).sessionId = some sp ∧
      r'.ctx = { r.ctx with session := sp } := by
  obtain ⟨_, rfl⟩ | ⟨_, _, sp, _, _, _, hsp, hres⟩ := cpsDecryptPayload_cases hres
  · exact .inl rfl
  · exact .inr ⟨sp, hsp, verifyPayload_ctx hres⟩

end Qeo.Crypto
