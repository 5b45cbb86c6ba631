import QeoCore.Octets
import QeoCore.CtrMode
/-!
# CryptoPlugin — HMAC and AES counter mode requests (sp_main.c, sp_sys_crypto.c)

The plugin has one HMAC context and one AES context, each with a lock that is taken when a text is begun and released
when it is ended.  A request is for a whole text, the first piece, a further piece or the last one.

HMAC and the AES block function are ideal functions of the key bytes and the data.  `none` means that the call does not
return: it waits for a lock that nobody will release, or works on a context or on memory that is not there.
-/
namespace Qeo.Crypto

open List

open CtrMode Octets

abbrev Bytes := List UInt8

inductive Sha
  | sha1
  | sha256
  deriving DecidableEq

def Sha.size : Sha → Nat
  | .sha1 => 20
  | .sha256 => 32

/-- HMAC and AES, of which nothing is assumed. -/
structure Primitives where
  hmac : Sha → Bytes → Bytes → Bytes
  /-- The byte at a place of the block that AES makes of a counter block under a key. -/
  aes : Bytes → Nat → Nat → UInt8
  length_hmac : ∀ sha key msg, (hmac sha key msg).length = sha.size

def sumPrimitives : Primitives where
  hmac := fun sha key msg => replicate sha.size (UInt8.ofNat ((key ++ msg).foldl (fun n b => n + b.toNat) key.length))
  aes := fun key block i => UInt8.ofNat (key.length + block + i)
  length_hmac := fun _ _ _ => length_replicate

inductive ReturnCode
  | ok
  | error
  | badParameter
  | preconditionNotMet
  | outOfResources
  deriving DecidableEq

def andThen {σ : Type} (r : Option (ReturnCode × σ)) (f : σ → Option (ReturnCode × σ)) : Option (ReturnCode × σ) :=
  match r with
  | some (.ok, s) => f s
  | r => r

theorem andThen_ok {r : Option (ReturnCode × σ)} {f : σ → Option (ReturnCode × σ)} {t : σ} :
    andThen r f = some (.ok, t) ↔ ∃ s, r = some (.ok, s) ∧ f s = some (.ok, t) := by
  unfold andThen
  split
  · simp
  rename_i hne
  constructor
  · intro h
    exact absurd h (hne t)
  · rintro ⟨s, h, _⟩
    exact absurd h (hne s)

inductive Locking
  | win32
  | pthreads
  | noLocks
  | flags
  deriving DecidableEq

def Locking.waits : Locking → Bool
  | .win32 => false
  | .pthreads => true
  | .noLocks => false
  | .flags => true

inductive Action
  | cryptFull
  | cryptBegin
  | cryptUpdate
  | cryptEnd

structure HmacCtx where
  sha : Sha
  key : Bytes
  fed : Bytes
  deriving DecidableEq

structure AesCtx where
  key : Bytes
  iv : Nat
  total : Nat
  ctr : UInt32
  deriving DecidableEq

/-- The contexts of the library, of which there is one each. -/
structure Plugin where
  hmacHeld : Bool
  hmac : Option HmacCtx
  aesHeld : Bool
  aes : Option AesCtx
  blocks : List Nat
  deriving DecidableEq

def Plugin.init : Plugin := ⟨false, none, false, none, []⟩

variable (P : Primitives) (lk : Locking)

/-! ## HMAC -/

def spSysHmac (sha : Sha) (data key : Bytes) (keyLen : Nat) (pl : Plugin) : Option (Except ReturnCode Bytes) :=
  if data.length = 0 ∨ keyLen = 0 then some (.error .badParameter)
  else if pl.hmacHeld && lk.waits then none
  else some (.ok (P.hmac sha (key.take keyLen) data))

def spHmacBegin (sha : Sha) (key : Bytes) (keyLen : Nat) (pl : Plugin) : Option Plugin :=
  if pl.hmacHeld && lk.waits then none
  else some { pl with hmacHeld := true, hmac := some ⟨sha, key.take keyLen, []⟩ }

/-- `sp_hmac_continue`.  After `sp_hmac_end` there is no context left to work on. -/
def spHmacContinue (data : Bytes) (pl : Plugin) : Option Plugin :=
  pl.hmac.map fun c => { pl with hmac := some { c with fed := c.fed ++ data } }

def spHmacEnd (pl : Plugin) : Option (Bytes × Plugin) :=
  pl.hmac.map fun c => (P.hmac c.sha c.key c.fed, { pl with hmacHeld := false, hmac := none })

def hmacReq (sha : Sha) (key : Bytes) (keyLen : Nat) (act : Action) (data : Bytes) (s : Bytes × Plugin) :
    Option (ReturnCode × (Bytes × Plugin)) :=
  match act with
  | .cryptFull =>
    (spSysHmac P lk sha data key keyLen s.2).map fun
      | .ok digest => (.ok, digest, s.2)
      | .error rc => (rc, s)
  | .cryptBegin =>
    (spHmacBegin lk sha key keyLen s.2).bind fun pl => (spHmacContinue data pl).map fun pl => (.ok, s.1, pl)
  | .cryptUpdate => (spHmacContinue data s.2).map fun pl => (.ok, s.1, pl)
  | .cryptEnd => (spHmacContinue data s.2).bind fun pl => (spHmacEnd P pl).map fun (digest, pl) => (.ok, digest, pl)

/-! ## AES counter mode -/

def AesCtx.block (c : AesCtx) (i : Nat) : Nat := (c.iv + i) % 2 ^ 128

def AesCtx.stream (c : AesCtx) (i : Nat) : UInt8 := P.aes c.key (c.block (i / 16)) (i % 16)

/-- The first counter block: the last four bytes of the salt are moved on by `counter`, and on an overflow byte 11 by
one.  `while (tmp_IV [i]++) if (--i) break;` stops after byte 11 also when that one overflows. -/
def counterBlock (salt : Bytes) (counter : UInt32) : Nat :=
  let iv := beNat salt
  let ori := iv % 2 ^ 32
  let x := (ori + counter.toNat) % 2 ^ 32
  let b := iv / 2 ^ 32 % 256
  iv / 2 ^ 40 * 2 ^ 40 + (if x < ori then (b + 1) % 256 else b) * 2 ^ 32 + x

def spSysAesCtrBegin (salt key : Bytes) (keyBits : Nat) (counter : UInt32) (pl : Plugin) :
    Option (ReturnCode × Plugin) :=
  if pl.aesHeld && lk.waits then none
  else if keyBits = 128 ∨ keyBits = 256 then
    some (.ok, { pl with
      aesHeld := true
      aes := some { key := key.take (keyBits / 8), iv := counterBlock salt counter, total := 0, ctr := counter } })
  else some (.badParameter, { pl with aes := none })

/-- `sp_sys_aes_ctr_update`: the text is stored at `off`.  The library takes the length as an `int` and fails on a
negative one. -/
def spSysAesCtrUpdate (src mem : Bytes) (off : Nat) (pl : Plugin) : Option (ReturnCode × Bytes × Plugin) :=
  match pl.aes with
  | none => none
  | some c =>
    let n := src.length % 2 ^ 32
    if 2 ^ 31 ≤ n then some (.error, mem, { pl with aesHeld := false, aes := none })
    else if mem.length < off + n then none
    else some (.ok, overwrite mem off (xorFrom (c.stream P) c.total (src.take n)), { pl with
      aes := some { c with total := c.total + n }
      blocks := pl.blocks ++ (started c.total n).map c.block })

def spSysAesCtrEnd (pl : Plugin) : Option (UInt32 × Plugin) :=
  pl.aes.map fun c => (c.ctr + UInt32.ofNat (blockCount c.total), { pl with aesHeld := false, aes := none })

structure AesData where
  mem : Bytes
  rdata : Nat
  secure : UInt32
  plugin : Plugin
  deriving DecidableEq

def AesData.update (data : Bytes) (s : AesData) : Option (ReturnCode × AesData) :=
  (spSysAesCtrUpdate P data s.mem s.rdata s.plugin).map fun (rc, mem, pl) =>
    (rc, { s with mem := mem, rdata := s.rdata + data.length, plugin := pl })

def AesData.finish (data : Bytes) (s : AesData) : Option (ReturnCode × AesData) :=
  andThen (s.update P data) fun s =>
    (spSysAesCtrEnd s.plugin).map fun (counter, pl) => (.ok, { s with secure := counter, plugin := pl })

/-- `sp_crypto_req` for `DDS_AES128_CTR` and `DDS_AES256_CTR`, which do the same. -/
def aesReq (key : Bytes) (keyLen : Nat) (salt : Bytes) (act : Action) (data : Bytes) (s : AesData) :
    Option (ReturnCode × AesData) :=
  let begun := (spSysAesCtrBegin lk salt key (keyLen * 8) s.secure s.plugin).map fun (rc, pl) =>
    (rc, { s with plugin := pl })
  match act with
  | .cryptFull => andThen begun fun s => s.finish P data
  | .cryptBegin => andThen begun fun s => s.update P data
  | .cryptUpdate => s.update P data
  | .cryptEnd => s.finish P data

variable {P lk}

theorem spSysHmac_eq_ok
    (h : spSysHmac P lk sha data key keyLen pl = some (.ok digest)) : digest = P.hmac sha (key.take keyLen) data := by
  unfold spSysHmac at h
  split at h
  · cases h
  split at h
  · cases h
  · cases h
    rfl

theorem spSysHmac_of_free {data key : Bytes} (hd : data ≠ []) (hk : 0 < keyLen) (hfree : pl.hmacHeld = false) :
    spSysHmac P lk sha data key keyLen pl = some (.ok (P.hmac sha (key.take keyLen) data)) := by
  have hdk : ¬ (data.length = 0 ∨ keyLen = 0) := by
    rintro (h | h)
    · exact hd (length_eq_zero_iff.1 h)
    · omega
  rw [spSysHmac, if_neg hdk, hfree, Bool.false_and, if_neg Bool.false_ne_true]

/-! ## A text that is being encrypted -/

def AesCtx.start (key : Bytes) (keyLen : Nat) (salt : Bytes) (counter : UInt32) : AesCtx :=
  { key := key.take keyLen, iv := counterBlock salt counter, total := 0, ctr := counter }

/-- After the bytes `x` in whatever portions. -/
def AesData.fed (P : Primitives) (s : AesData) (c : AesCtx) (x : Bytes) : AesData :=
  { mem := overwrite s.mem s.rdata (xorFrom (c.stream P) 0 x)
    rdata := s.rdata + x.length
    secure := s.secure
    plugin := { s.plugin with
      aesHeld := true
      aes := some { c with total := x.length }
      blocks := s.plugin.blocks ++ (started 0 x.length).map c.block } }

def AesData.done (P : Primitives) (s : AesData) (c : AesCtx) (x : Bytes) : AesData :=
  { s.fed P c x with
    secure := c.ctr + UInt32.ofNat (blockCount x.length)
    plugin := { (s.fed P c x).plugin with aesHeld := false, aes := none } }

def AesData.Room (s : AesData) (x : Bytes) : Prop := s.rdata + x.length ≤ s.mem.length

variable {s s' : AesData} {c : AesCtx} {x d : Bytes}

theorem AesData.fed_nil (hc : c.total = 0) :
    s.fed P c [] = { s with plugin := { s.plugin with aesHeld := true, aes := some c } } := by
  obtain ⟨key, iv, total, ctr⟩ := c
  obtain rfl : total = 0 := hc
  simp [fed, xorFrom, overwrite, started]

theorem AesData.fed_append (hx : s.Room x) :
    s.fed P c (x ++ d) =
      { mem := overwrite (s.fed P c x).mem (s.rdata + x.length) (xorFrom (c.stream P) x.length d)
        rdata := s.rdata + x.length + d.length
        secure := s.secure
        plugin := { (s.fed P c x).plugin with
          aes := some { c with total := x.length + d.length }
          blocks := (s.fed P c x).plugin.blocks ++ (started x.length d.length).map c.block } } := by
  have hstore := @Octets.overwrite_overwrite _ s.mem s.rdata (xorFrom (c.stream P) 0 x)
    (xorFrom (c.stream P) x.length d)
  have hstarted := CtrMode.started_append 0 x.length d.length
  rw [CtrMode.length_xorFrom] at hstore
  rw [Nat.zero_add] at hstarted
  simp only [fed]
  rw [hstore hx, CtrMode.xorFrom_append, Nat.zero_add, length_append, ← hstarted, map_append,
    append_assoc, Nat.add_assoc]

theorem AesData.update_fed (hx : s.Room x) (hd : d.length < 2 ^ 32) :
    (s.fed P c x).update P d = some (.ok, s') ↔ (d.length < 2 ^ 31 ∧ s.Room (x ++ d)) ∧ s' = s.fed P c (x ++ d) := by
  have hn : d.length % 2 ^ 32 = d.length := Nat.mod_eq_of_lt hd
  have hmem : (s.fed P c x).mem.length = s.mem.length :=
    Octets.length_overwrite (by rw [CtrMode.length_xorFrom]; exact hx)
  have hplugin : (s.fed P c x).plugin.aes = some { c with total := x.length } := rfl
  rw [fed_append hx, update, spSysAesCtrUpdate, hplugin]
  dsimp only
  rw [hn, take_length, hmem, Room, length_append]
  by_cases h31 : 2 ^ 31 ≤ d.length
  · rw [if_pos h31]
    constructor
    · rintro ⟨⟩
    · omega
  rw [if_neg h31]
  by_cases hroom : s.mem.length < s.rdata + x.length + d.length
  · have hroom' : s.mem.length < (s.fed P c x).rdata + d.length := hroom
    rw [if_pos hroom']
    constructor
    · rintro ⟨⟩
    · omega
  · have hroom' : ¬ s.mem.length < (s.fed P c x).rdata + d.length := hroom
    rw [if_neg hroom']
    constructor
    · rintro ⟨⟩
      exact ⟨⟨by omega, by omega⟩, rfl⟩
    · rintro ⟨_, rfl⟩
      rfl

theorem AesData.finish_fed (hx : s.Room x) (hd : d.length < 2 ^ 32) :
    (s.fed P c x).finish P d = some (.ok, s') ↔ (d.length < 2 ^ 31 ∧ s.Room (x ++ d)) ∧ s' = s.done P c (x ++ d) := by
  rw [finish, andThen_ok]
  constructor
  · rintro ⟨t, ht, hs'⟩
    obtain ⟨hfits, rfl⟩ := (update_fed hx hd).1 ht
    cases hs'
    exact ⟨hfits, rfl⟩
  · rintro ⟨hfits, rfl⟩
    exact ⟨s.fed P c (x ++ d), (update_fed hx hd).2 ⟨hfits, rfl⟩, rfl⟩

variable {key salt : Bytes} {keyLen : Nat}

section
variable (hk : keyLen = 16 ∨ keyLen = 32)
include hk

/-- The first request holds the lock; what follows it works on the context it starts. -/
theorem begun_andThen (f : AesData → Option (ReturnCode × AesData)) :
    andThen ((spSysAesCtrBegin lk salt key (keyLen * 8) s.secure s.plugin).map fun (rc, pl) =>
      (rc, { s with plugin := pl })) f = some (.ok, s') ↔
    (s.plugin.aesHeld && lk.waits) = false ∧ f (s.fed P (.start key keyLen salt s.secure) []) = some (.ok, s') := by
  have hbits : keyLen * 8 = 128 ∨ keyLen * 8 = 256 := by omega
  rw [spSysAesCtrBegin, AesData.fed_nil rfl, Nat.mul_div_cancel _ (by decide)]
  split
  · simp_all [andThen]
  · rename_i hfree
    exact (and_iff_right (Bool.eq_false_iff.2 hfree)).symm

theorem aesReq_begin (hs : s.Room []) (hd : d.length < 2 ^ 32) :
    aesReq P lk key keyLen salt .cryptBegin d s = some (.ok, s') ↔
      (s.plugin.aesHeld && lk.waits) = false ∧ (d.length < 2 ^ 31 ∧ s.Room d) ∧
        s' = s.fed P (.start key keyLen salt s.secure) d :=
  (begun_andThen hk _).trans (and_congr_right' (AesData.update_fed hs hd))

theorem aesReq_full (hs : s.Room []) (hd : d.length < 2 ^ 32) :
    aesReq P lk key keyLen salt .cryptFull d s = some (.ok, s') ↔
      (s.plugin.aesHeld && lk.waits) = false ∧ (d.length < 2 ^ 31 ∧ s.Room d) ∧
        s' = s.done P (.start key keyLen salt s.secure) d :=
  (begun_andThen hk _).trans (and_congr_right' (AesData.finish_fed hs hd))

end

end Qeo.Crypto
