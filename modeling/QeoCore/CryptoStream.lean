import QeoCore.CryptoPlugin
/-!
# CryptoStream — requests over a chain of data buffers (db.h, db.c, sec_util.c)

Whether a piece is the last one is decided from the size of the piece before it (`dbwRest`), so the text is ended at its
end only for some ways of cutting it (`closes`): one that is ended before leads to a request without a context, one that
is not ended leaves the lock taken and the result of the end unwritten.
-/
namespace Qeo.Crypto

open List Option AesData

/-! ## Data buffers -/

/-- A walker over a chain of data buffers (`DBW`): what is left of the buffer it is in, the buffers behind, and the
number of bytes that are meant. -/
structure Dbw where
  cur : Bytes
  next : List Bytes
  length : Nat

open Dbw

def Dbw.bytes (w : Dbw) : Bytes := w.cur ++ w.next.flatten

def Dbw.text (w : Dbw) : Bytes := w.bytes.take w.length

def dbwInc : Bytes → List Bytes → Nat → Bytes × List Bytes
  | cur, [], n => if cur.length < n then (cur, []) else (cur.drop n, [])
  | cur, b :: rest, n => if cur.length < n then dbwInc b rest (n - cur.length) else (cur.drop n, b :: rest)

def Dbw.inc (w : Dbw) (n : Nat) : Dbw :=
  let p := if n < w.cur.length then (w.cur.drop n, w.next) else dbwInc w.cur w.next n
  { cur := p.1, next := p.2, length := w.length - n }

def dbGetData : Bytes → List Bytes → Nat → Bytes
  | cur, [], n => cur.take n
  | cur, b :: rest, n => if n ≤ cur.length then cur.take n else cur ++ dbGetData b rest (n - cur.length)

theorem dbGetData_eq (cur : Bytes) (next : List Bytes) (n : Nat) :
    dbGetData cur next n = (cur ++ next.flatten).take n := by
  induction next generalizing cur n with
  | nil => rw [dbGetData, flatten_nil, append_nil]
  | cons b rest ih =>
    rw [dbGetData, take_append, flatten_cons]
    split
    · rename_i hn
      rw [Nat.sub_eq_zero_of_le hn, take_zero, append_nil]
    · rename_i hn
      rw [ih, take_of_length_le (Nat.le_of_not_le hn)]

theorem dbwInc_bytes {cur : Bytes} {next : List Bytes} (hn : n ≤ (cur ++ next.flatten).length) :
    (dbwInc cur next n).1 ++ (dbwInc cur next n).2.flatten = (cur ++ next.flatten).drop n := by
  induction next generalizing cur n with
  | nil =>
    rw [flatten_nil, append_nil] at hn ⊢
    rw [dbwInc, if_neg (Nat.not_lt.2 hn), flatten_nil, append_nil]
  | cons b rest ih =>
    rw [flatten_cons, length_append] at hn
    rw [dbwInc, flatten_cons]
    split
    · rename_i hlt
      rw [ih (by omega), @List.drop_append _ cur, drop_eq_nil_of_le (Nat.le_of_lt hlt), nil_append]
    · rename_i hlt
      rw [drop_append_of_le_length (Nat.le_of_not_lt hlt), flatten_cons]

theorem Dbw.inc_bytes {w : Dbw} (hn : n ≤ w.bytes.length) : (w.inc n).bytes = w.bytes.drop n := by
  unfold inc bytes
  split
  · rename_i hlt
    rw [drop_append_of_le_length (Nat.le_of_lt hlt)]
  · exact dbwInc_bytes hn

/-! ## The loop over the pieces -/

section
variable {σ : Type}

/-- The requests for the `len` bytes that follow a piece of `prev` bytes: a piece is given as the last one when the
piece before was not smaller than what remains. -/
def dbwRest (req : Action → Bytes → σ → Option (ReturnCode × σ)) :
    Nat → Nat → List Bytes → σ → Option (ReturnCode × σ)
  | _, 0, _, s => some (.ok, s)
  | _, _ + 1, [], _ => none
  | prev, len + 1, b :: rest, s =>
    andThen (req (if len + 1 ≤ prev then .cryptEnd else .cryptUpdate) (b.take (len + 1)) s) fun s =>
      dbwRest req (b.take (len + 1)).length (len + 1 - (b.take (len + 1)).length) rest s

def dbwLoop (req : Action → Bytes → σ → Option (ReturnCode × σ)) (w : Dbw) (s : σ) : Option (ReturnCode × σ) :=
  andThen (req .cryptBegin w.cur s) fun s => dbwRest req w.cur.length (w.length - w.cur.length) w.next s

def closes : Nat → Nat → List Bytes → Bool
  | _, _, [] => false
  | prev, len, b :: rest =>
    if len ≤ b.length then decide (len ≤ prev) else decide (prev < len) && closes b.length (len - b.length) rest

/-- A device that takes a text of at most `N` bytes piece by piece: it is `opn x` after the text `x` and `cls x` once
that has been ended.  It takes the pieces that it can (`takes`) and has room for. -/
structure Stages (req : Action → Bytes → σ → Option (ReturnCode × σ)) (N : Nat) (takes room : Bytes → Prop)
    (opn cls : Bytes → σ) : Prop where
  update : ∀ {x d s'}, room x → (x ++ d).length ≤ N →
    (req .cryptUpdate d (opn x) = some (.ok, s') ↔ (takes d ∧ room (x ++ d)) ∧ s' = opn (x ++ d))
  finish : ∀ {x d s'}, room x → (x ++ d).length ≤ N →
    (req .cryptEnd d (opn x) = some (.ok, s') ↔ (takes d ∧ room (x ++ d)) ∧ s' = cls (x ++ d))
  ended : ∀ {act x d}, act = .cryptUpdate ∨ act = .cryptEnd → req act d (cls x) = none

variable {prev : Nat} {req : Action → Bytes → σ → Option (ReturnCode × σ)} {N : Nat} {takes room : Bytes → Prop}
  {opn cls : Bytes → σ}

theorem Stages.dbwRest_over (h : Stages req N takes room opn cls)
    (hlen : 0 < len) : dbwRest req prev len rest (cls x) ≠ some (.ok, s') := by
  obtain ⟨len, rfl⟩ : ∃ k, len = k + 1 := ⟨len - 1, by omega⟩
  cases rest with
  | nil => rintro ⟨⟩
  | cons b rest =>
    rw [dbwRest, h.ended (by split <;> simp)]
    rintro ⟨⟩

theorem dbwRest_zero : dbwRest req prev 0 rest s = some (.ok, s) := by
  rw [dbwRest]

/-- **A text that got through has been given whole**, and it has been ended exactly when the cut closes. -/
theorem Stages.dbwRest_ok (h : Stages req N takes room opn cls) :
    ∀ {rest : List Bytes} {prev len : Nat} {x : Bytes} {s' : σ}, 0 < len → room x → x.length + len ≤ N →
      dbwRest req prev len rest (opn x) = some (.ok, s') →
      len ≤ rest.flatten.length ∧ room (x ++ rest.flatten.take len) ∧
        s' = if closes prev len rest then cls (x ++ rest.flatten.take len) else opn (x ++ rest.flatten.take len)
  | [], prev, len + 1, x, s', _, _, _, hr => by cases hr
  | b :: rest, prev, len + 1, x, s', _, hx, hN, hr => by
    have hpiece : (x ++ b.take (len + 1)).length ≤ N := by
      rw [length_append, length_take]
      omega
    have hflat : (b :: rest).flatten.take (len + 1)
        = b.take (len + 1) ++ rest.flatten.take (len + 1 - b.length) := by
      rw [flatten_cons, take_append]
    rw [dbwRest, andThen_ok] at hr
    obtain ⟨s1, hreq, hr⟩ := hr
    rw [hflat, closes, flatten_cons, length_append]
    by_cases hlast : len + 1 ≤ b.length
    · -- the last piece
      have hb : (b.take (len + 1)).length = len + 1 := by rw [length_take]; omega
      rw [hb, Nat.sub_self, dbwRest_zero] at hr
      cases hr
      rw [if_pos hlast, Nat.sub_eq_zero_of_le hlast, take_zero, append_nil]
      refine ⟨by omega, ?_⟩
      by_cases hprev : len + 1 ≤ prev
      · rw [if_pos hprev, h.finish hx hpiece] at hreq
        rw [decide_eq_true hprev]
        exact ⟨hreq.1.2, hreq.2⟩
      · rw [if_neg hprev, h.update hx hpiece] at hreq
        rw [decide_eq_false hprev]
        exact ⟨hreq.1.2, hreq.2⟩
    have hb : b.take (len + 1) = b := take_of_length_le (Nat.le_of_not_le hlast)
    rw [hb] at hr hreq hpiece ⊢
    rw [if_neg hlast]
    by_cases hprev : len + 1 ≤ prev
    · -- ended too early
      rw [if_pos hprev, h.finish hx hpiece] at hreq
      obtain ⟨_, rfl⟩ := hreq
      exact absurd hr (h.dbwRest_over (by omega))
    · rw [if_neg hprev, h.update hx hpiece] at hreq
      rw [decide_eq_true (Nat.lt_of_not_le hprev)]
      obtain ⟨⟨_, hroom⟩, rfl⟩ := hreq
      obtain ⟨hle, hroom, hs'⟩ := h.dbwRest_ok (by omega) hroom (by rw [length_append]; omega) hr
      rw [append_assoc] at hroom hs'
      exact ⟨by omega, hroom, hs'⟩

theorem Stages.dbwRest_closes (h : Stages req N takes room opn cls)
    (hall : ∀ x d, (x ++ d).length ≤ N → takes d ∧ room (x ++ d)) :
    ∀ {rest : List Bytes} {prev len : Nat} {x : Bytes}, x.length + len ≤ N → closes prev len rest →
      room x → 0 < len → dbwRest req prev len rest (opn x) = some (.ok, cls (x ++ rest.flatten.take len))
  | b :: rest, prev, len + 1, x, hN, hcl, hx, _ => by
    have hpiece : (x ++ b.take (len + 1)).length ≤ N := by
      rw [length_append, length_take]
      omega
    rw [closes] at hcl
    rw [dbwRest, andThen_ok, flatten_cons, take_append]
    by_cases hlast : len + 1 ≤ b.length
    · have hb : (b.take (len + 1)).length = len + 1 := by rw [length_take]; omega
      rw [if_pos hlast, decide_eq_true_eq] at hcl
      rw [Nat.sub_eq_zero_of_le hlast, take_zero, append_nil, if_pos hcl]
      refine ⟨_, (h.finish hx hpiece).2 ⟨hall _ _ hpiece, rfl⟩, ?_⟩
      rw [hb, Nat.sub_self, dbwRest_zero]
    have hb : b.take (len + 1) = b := take_of_length_le (Nat.le_of_not_le hlast)
    rw [hb] at hpiece ⊢
    rw [if_neg hlast, Bool.and_eq_true, decide_eq_true_eq] at hcl
    rw [if_neg (Nat.not_le.2 hcl.1)]
    refine ⟨_, (h.update hx hpiece).2 ⟨hall _ _ hpiece, rfl⟩, ?_⟩
    rw [length_append] at hpiece
    rw [h.dbwRest_closes hall (by rw [length_append]; omega) hcl.2 (hall _ _ (by
      rw [length_append]; exact hpiece)).2 (by omega), append_assoc]

end

def Dbw.closed (w : Dbw) : Bool :=
  decide (w.length ≤ w.cur.length) || closes w.cur.length (w.length - w.cur.length) w.next

theorem Dbw.text_of_le {w : Dbw} (h : w.length ≤ w.cur.length) : w.text = w.cur.take w.length := by
  rw [text, bytes, take_append_of_le_length h]

theorem Dbw.text_of_lt {w : Dbw} (h : w.cur.length < w.length) :
    w.text = w.cur ++ w.next.flatten.take (w.length - w.cur.length) := by
  rw [text, bytes, take_append, take_of_length_le (Nat.le_of_lt h)]

theorem Dbw.length_text_le {w : Dbw} : w.text.length ≤ w.length := by
  rw [text, length_take]
  exact Nat.min_le_left _ _

/-! ## The functions of sec_util.c -/

variable (P : Primitives) (lk : Locking)

def secHmac (sha : Sha) (key : Bytes) (keyLen : Nat) (msg : Bytes) (s : Bytes × Plugin) :
    Option (ReturnCode × (Bytes × Plugin)) :=
  hmacReq P lk sha key keyLen .cryptFull msg s

def secHmacDbw (sha : Sha) (key : Bytes) (keyLen : Nat) (w : Dbw) (s : Bytes × Plugin) :
    Option (ReturnCode × (Bytes × Plugin)) :=
  if w.length ≤ w.cur.length then secHmac P lk sha key keyLen (w.cur.take w.length) s
  else dbwLoop (hmacReq P lk sha key keyLen) w s

def secAesCtrCrypt (key : Bytes) (keyLen : Nat) (salt msg : Bytes) (s : AesData) : Option (ReturnCode × AesData) :=
  aesReq P lk key keyLen salt .cryptFull msg s

def secAesCtrCryptDbw (key : Bytes) (keyLen : Nat) (salt : Bytes) (w : Dbw) (s : AesData) :
    Option (ReturnCode × AesData) :=
  if w.length ≤ w.cur.length then secAesCtrCrypt P lk key keyLen salt (w.cur.take w.length) s
  else dbwLoop (aesReq P lk key keyLen salt) w s

variable {P lk} {sha : Sha} {key salt : Bytes} {keyLen : Nat} {w : Dbw}

section
variable {hash digest msg : Bytes} {pl pl' : Plugin}

theorem secHmac_ok (h : secHmac P lk sha key keyLen msg (hash, pl) = some (.ok, (digest, pl'))) :
    digest = P.hmac sha (key.take keyLen) msg := by
  obtain ⟨r, hr, h⟩ := map_eq_some_iff.1 h
  cases r with
  | error rc =>
    obtain ⟨rfl, _⟩ := Prod.mk.inj h
    unfold spSysHmac at hr
    split at hr
    · cases hr
    · split at hr <;> cases hr
  | ok d =>
    cases h
    exact spSysHmac_eq_ok hr

theorem secHmac_code (hmsg : msg ≠ []) (hk : 0 < keyLen)
    (h : secHmac P lk sha key keyLen msg s = some (rc, s')) : rc = .ok := by
  obtain ⟨r, hr, h⟩ := map_eq_some_iff.1 h
  cases r with
  | error rc' =>
    unfold spSysHmac at hr
    split at hr
    · rename_i hempty
      rcases hempty with hempty | hempty
      · exact absurd (length_eq_zero_iff.1 hempty) hmsg
      · omega
    · split at hr <;> cases hr
  | ok d =>
    cases h
    rfl

theorem secHmac_of_free (hmsg : msg ≠ []) (hk : 0 < keyLen) (hfree : pl.hmacHeld = false) :
    secHmac P lk sha key keyLen msg (hash, pl) = some (.ok, (P.hmac sha (key.take keyLen) msg, pl)) := by
  rw [secHmac, hmacReq, spSysHmac_of_free hmsg hk hfree]
  rfl

theorem hmacStages (N : Nat) :
    Stages (hmacReq P lk sha key keyLen) N (fun _ => True) (fun _ => True)
      (fun x => (hash, { pl with hmacHeld := true, hmac := some ⟨sha, key.take keyLen, x⟩ }))
      (fun x => (P.hmac sha (key.take keyLen) x, { pl with hmacHeld := false, hmac := none })) where
  update := fun _ _ => by
    simp only [hmacReq, spHmacContinue, map_some, and_self, true_and, some.injEq, Prod.mk.injEq]
    exact eq_comm
  finish := fun _ _ => by
    simp only [hmacReq, spHmacContinue, spHmacEnd, map_some, bind_some, and_self, true_and,
      some.injEq, Prod.mk.injEq]
    exact eq_comm
  ended := by
    rintro act x d (rfl | rfl)
    · rfl
    · rfl

theorem hmacReq_begin :
    hmacReq P lk sha key keyLen .cryptBegin msg (hash, pl) = if pl.hmacHeld && lk.waits then none
      else some (.ok, (hash, { pl with hmacHeld := true, hmac := some ⟨sha, key.take keyLen, msg⟩ })) := by
  rw [hmacReq, spHmacBegin]
  split
  · rfl
  · rfl

/-- **The digest of a text that was ended at its end is the HMAC of the whole text.** -/
theorem secHmacDbw_ok (h : secHmacDbw P lk sha key keyLen w (hash, pl) = some (.ok, (digest, pl')))
    (hc : w.closed) : digest = P.hmac sha (key.take keyLen) w.text := by
  unfold secHmacDbw at h
  split at h
  · rename_i hle
    rw [text_of_le hle]
    exact secHmac_ok h
  rename_i hle
  rw [closed, decide_eq_false hle, Bool.false_or] at hc
  rw [dbwLoop, andThen_ok, hmacReq_begin] at h
  obtain ⟨s, hs, h⟩ := h
  split at hs
  · cases hs
  cases hs
  have hrest := (hmacStages w.length).dbwRest_ok (by omega) trivial (by omega) h
  rw [if_pos hc, ← text_of_lt (Nat.lt_of_not_le hle)] at hrest
  exact (Prod.mk.inj hrest.2.2).1

theorem secHmacDbw_of_closed (hc : w.closed) (hw : w.text ≠ []) (hk : 0 < keyLen) (hfree : pl.hmacHeld = false)
    (hctx : pl.hmac = none) :
    secHmacDbw P lk sha key keyLen w (hash, pl) = some (.ok, (P.hmac sha (key.take keyLen) w.text, pl)) := by
  obtain ⟨held, ctx, aesHeld, aes, blocks⟩ := pl
  obtain rfl : held = false := hfree
  obtain rfl : ctx = none := hctx
  unfold secHmacDbw
  split
  · rename_i hle
    rw [text_of_le hle] at hw ⊢
    exact secHmac_of_free hw hk rfl
  rename_i hle
  rw [closed, decide_eq_false hle] at hc
  rw [dbwLoop, andThen_ok, hmacReq_begin]
  refine ⟨_, rfl, ?_⟩
  rw [text_of_lt (Nat.lt_of_not_le hle)]
  exact (@hmacStages P lk sha key keyLen hash ⟨false, none, aesHeld, aes, blocks⟩ w.length).dbwRest_closes
    (fun _ _ _ => ⟨trivial, trivial⟩) (by omega) hc trivial (by omega)

end

section
variable {s s' : AesData}

theorem aesStages (hN : N < 2 ^ 32) (c : AesCtx) :
    Stages (aesReq P lk key keyLen salt) N (fun d => d.length < 2 ^ 31) s.Room (s.fed P c) (s.done P c) where
  update := fun hx hd => update_fed hx (by rw [length_append] at hd; omega)
  finish := fun hx hd => finish_fed hx (by rw [length_append] at hd; omega)
  ended := by
    rintro act x d (rfl | rfl)
    · rfl
    · rfl

/-- **A text that got through has been encrypted whole.**  The counter comes back moved on, and the lock is released,
exactly when the text was ended at its end. -/
theorem secAesCtrCryptDbw_ok (hk : keyLen = 16 ∨ keyLen = 32) (hlen : w.length < 2 ^ 32) (hroom : s.Room [])
    (h : secAesCtrCryptDbw P lk key keyLen salt w s = some (.ok, s')) :
    (s.plugin.aesHeld && lk.waits) = false ∧ w.length ≤ w.bytes.length ∧ s.Room w.text ∧
      s' = if w.closed then s.done P (.start key keyLen salt s.secure) w.text
        else s.fed P (.start key keyLen salt s.secure) w.text := by
  unfold secAesCtrCryptDbw at h
  split at h
  · rename_i hle
    have hbytes : w.length ≤ w.bytes.length := by
      rw [bytes, length_append]
      omega
    have hcl : w.closed = true := by rw [closed, decide_eq_true hle, Bool.true_or]
    rw [text_of_le hle, if_pos hcl]
    obtain ⟨hheld, hfits, rfl⟩ := (aesReq_full hk hroom (by rw [length_take]; omega)).1 h
    exact ⟨hheld, hbytes, hfits.2, rfl⟩
  rename_i hle
  have hcl : w.closed = closes w.cur.length (w.length - w.cur.length) w.next := by
    rw [closed, decide_eq_false hle, Bool.false_or]
  rw [dbwLoop, andThen_ok] at h
  obtain ⟨t, ht, h⟩ := h
  obtain ⟨hheld, hfits, rfl⟩ := (aesReq_begin hk hroom (by omega)).1 ht
  obtain ⟨hnext, htext, hs'⟩ := (aesStages hlen _).dbwRest_ok (by omega) hfits.2 (by omega) h
  rw [← text_of_lt (Nat.lt_of_not_le hle)] at htext hs'
  rw [hcl]
  refine ⟨hheld, ?_, htext, hs'⟩
  rw [bytes, length_append]
  omega

theorem secAesCtrCryptDbw_of_closed (hk : keyLen = 16 ∨ keyLen = 32) (hlen : w.length < 2 ^ 31) (hc : w.closed)
    (hroom : s.rdata + w.length ≤ s.mem.length) (hfree : s.plugin.aesHeld = false) :
    secAesCtrCryptDbw P lk key keyLen salt w s
      = some (.ok, s.done P (.start key keyLen salt s.secure) w.text) := by
  have hroom0 : s.Room [] := by
    rw [Room, length_nil]
    omega
  have hheld : (s.plugin.aesHeld && lk.waits) = false := by rw [hfree, Bool.false_and]
  unfold secAesCtrCryptDbw
  split
  · rename_i hle
    rw [text_of_le hle]
    refine (aesReq_full hk hroom0 (by rw [length_take]; omega)).2 ⟨hheld, ⟨?_, ?_⟩, rfl⟩
    · rw [length_take]
      omega
    · rw [Room, length_take]
      omega
  rename_i hle
  rw [closed, decide_eq_false hle] at hc
  have hcur : s.Room w.cur := by
    rw [Room]
    omega
  rw [dbwLoop, andThen_ok]
  refine ⟨_, (aesReq_begin hk hroom0 (by omega)).2 ⟨hheld, ⟨by omega, hcur⟩, rfl⟩, ?_⟩
  rw [text_of_lt (Nat.lt_of_not_le hle)]
  apply (aesStages (N := w.length) (by omega) _).dbwRest_closes _ (by omega) hc hcur (by omega)
  intro x d hxd
  rw [length_append] at hxd
  rw [Room, length_append]
  omega

end

end Qeo.Crypto
