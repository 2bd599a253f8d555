/-
**The digests of the library are the standard ones.**

`sha256_update` copies as much of what comes in as the block has room for, so a message can be handed
over in pieces of any size; `tnu_hmac_sha256` and `tnu_hkdf_sha256` of `userspace/libc/src/tls.c` are
built on it.  All of them are the standard functions.

Main definitions:

* `tnuHmacSha256`, `tnuHkdfSha256` — the authenticator and the key derivation.

Main result:

* `digestsStandard` — **the digest, the authenticator and the key derivation are the standard
  ones**.
-/

import Tnu.Lib.Sha2
import Tnu.Tls.Aead
import Tnu.Tls.Sha256

set_option autoImplicit false

namespace Tnu.Tls

/-! ### The functions -/

/-- The loop of `sha256_update`, in at most so many turns. -/
def sha256UpdateLoop : ℕ → Sha256Ctx → List Byte → Sha256Ctx
  | 0, ctx, _ => ctx
  | k + 1, ctx, p =>
    if p = [] then ctx
    else
      let n := min (64 - ctx.block.length) p.length
      let block := ctx.block ++ p.take n
      let ctx :=
        if block.length = 64 then { ctx with h := sha256Transform ctx.h block, block := [] }
        else { ctx with block := block }
      sha256UpdateLoop k ctx (p.drop n)

/-- `sha256_update` with its loop. -/
def sha256UpdateAll (ctx : Sha256Ctx) (data : List Byte) : Sha256Ctx :=
  sha256UpdateLoop data.length { ctx with bytes := ctx.bytes + UInt64.ofNat data.length } data

/-- The key of `tnu_hmac_sha256`, filled up to a block. -/
def hmacK0 (key : List Byte) : List Byte :=
  let k := if 64 < key.length then tnuSha256 key else key
  k ++ List.replicate (64 - k.length) 0

def tnuHmacSha256 (key data : List Byte) : List Byte :=
  let k0 := hmacK0 key
  let ipad := k0.map (· ^^^ 0x36)
  let opad := k0.map (· ^^^ 0x5c)
  let digest := sha256Final (sha256UpdateAll (sha256UpdateAll sha256Init ipad) data)
  sha256Final (sha256UpdateAll (sha256UpdateAll sha256Init opad) digest)

/-- One turn of the loop of `tnu_hkdf_sha256`: the next `t`, and with it the next `counter`. -/
def hkdfStep (prk info : List Byte) (st : List Byte × UInt8) : List Byte × (List Byte × UInt8) :=
  let k0 := prk ++ List.replicate (64 - prk.length) 0
  let ipad := k0.map (· ^^^ 0x36)
  let opad := k0.map (· ^^^ 0x5c)
  let ctx := sha256UpdateAll sha256Init ipad
  let ctx := if st.1.length ≠ 0 then sha256UpdateAll ctx st.1 else ctx
  let ctx := if info.length ≠ 0 then sha256UpdateAll ctx info else ctx
  let digest := sha256Final (sha256UpdateAll ctx [st.2])
  let t := sha256Final (sha256UpdateAll (sha256UpdateAll sha256Init opad) digest)
  (t, t, st.2 + 1)

/-- `tnu_hkdf_sha256`; `out` says whether there is a buffer. -/
def tnuHkdfSha256 (salt : Option (List Byte)) (ikm info : List Byte) (out : Bool) (outLen : ℕ) :
    Except ℤ (List Byte) :=
  if out = false ∧ outLen ≠ 0 then .error tnuTlsErrBadUrl
  else if 255 * 32 < outLen then .error tnuTlsErrUnsupported
  else
    let prk := tnuHmacSha256 (salt.getD (List.replicate 32 0)) ikm
    .ok (Digest.outLoop (hkdfStep prk info) outLen ([], 1) outLen)

/-! ### The function on blocks -/

def Sha256Words.view (h : Sha256Words) : Sha2.State := ⟨h.a, h.b, h.c, h.d, h.e, h.f, h.g, h.h⟩

theorem loadBe32_eq (p : List Byte) : loadBe32 p = UInt32.ofNat (Bytes.beWord p) := by
  have hload : (loadBe32 p).toNat = Bytes.beWord p := Bytes.toNat_loadBe p
  rw [← hload, UInt32.ofNat_toNat]

theorem sha256Schedule_eq (block : List Byte) :
    sha256Schedule block = (List.range 64).map (Sha2.schedule block) := by
  refine Sha2.foldl_schedule ?_ (fun t ht => ?_) 48
  · refine List.map_congr_left fun t ht => ?_
    rw [Sha2.schedule, if_pos (List.mem_range.1 ht), loadBe32_eq]
  · have hsum (a b c d : UInt32) : a + b + c + d = d + c + b + a := by ac_rfl
    rw [Sha2.getD_schedule (by omega), Sha2.getD_schedule (by omega), Sha2.getD_schedule (by omega),
      Sha2.getD_schedule (by omega), Sha2.schedule.eq_def block t, if_neg (by omega)]
    exact hsum _ _ _ _

theorem sha256Round_eq (block : List Byte) (s : Sha256Words) {i : ℕ} (hi : i < 64) :
    (sha256Round (sha256Schedule block) s i).view = Sha2.round block s.view i := by
  have hw : (sha256Schedule block).getD i 0 = Sha2.schedule block i := by
    rw [sha256Schedule_eq, Sha2.getD_schedule hi]
  rw [sha256Round, hw]
  rfl

/-- **The function on blocks is that of the standard.** -/
theorem sha256Transform_eq (h : Sha256Words) (block : List Byte) :
    (sha256Transform h block).view = Sha2.compress h.view block := by
  have hfold (l : List ℕ) (hl : ∀ i ∈ l, i < 64) (s : Sha256Words) :
      (l.foldl (sha256Round (sha256Schedule block)) s).view = l.foldl (Sha2.round block) s.view := by
    induction l generalizing s with
    | nil => rfl
    | cons i l ih =>
      rw [List.foldl_cons, List.foldl_cons, ih (fun j hj => hl j (List.mem_cons_of_mem i hj)),
        sha256Round_eq block s (hl i List.mem_cons_self)]
  have hrounds := hfold (List.range 64) (fun i hi => List.mem_range.1 hi) h
  rw [sha256Transform, Sha2.compress, ← hrounds]
  generalize (List.range 64).foldl (sha256Round (sha256Schedule block)) h = s
  exact Sha2.State.ext (UInt32.add_comm _ _) (UInt32.add_comm _ _) (UInt32.add_comm _ _)
    (UInt32.add_comm _ _) (UInt32.add_comm _ _) (UInt32.add_comm _ _) (UInt32.add_comm _ _)
    (UInt32.add_comm _ _)

/-! ### Taking in a message -/

def Sha256Ctx.ctx (ctx : Sha256Ctx) : Digest.Ctx Sha256Words := ⟨⟨ctx.h, ctx.block⟩, ctx.bytes⟩

theorem settled_eq (ctx : Sha256Ctx) (block : List Byte) :
    (if block.length = 64 then { ctx with h := sha256Transform ctx.h block, block := [] }
      else { ctx with block := block }).ctx =
      ⟨Digest.settle sha256Transform ctx.h block, ctx.bytes⟩ := by
  rw [Digest.settle]
  split_ifs <;> rfl

theorem ctx_foldl_sha256Byte (ctx : Sha256Ctx) (data : List Byte) :
    (data.foldl sha256Byte ctx).ctx = ⟨Digest.absorb sha256Transform ctx.ctx.run data, ctx.bytes⟩ :=
  Digest.Ctx.view_foldl (fun c b => settled_eq c (c.block ++ [b])) ctx data

@[simp] theorem ctx_sha256Update (ctx : Sha256Ctx) (data : List Byte) :
    (sha256Update ctx data).ctx = Digest.Ctx.update sha256Transform ctx.ctx data :=
  ctx_foldl_sha256Byte _ data

theorem ctx_sha256UpdateLoop (k : ℕ) (ctx : Sha256Ctx) (p : List Byte) :
    (sha256UpdateLoop k ctx p).ctx =
      ⟨Digest.copyLoop sha256Transform k ctx.ctx.run p, ctx.bytes⟩ := by
  induction k generalizing ctx p with
  | zero => rfl
  | succ k ih =>
    rw [sha256UpdateLoop, Digest.copyLoop]
    by_cases hp : p = []
    · rw [if_pos hp, if_pos hp]
      rfl
    set n := min (64 - ctx.block.length) p.length
    have hset := settled_eq ctx (ctx.block ++ p.take n)
    rw [if_neg hp, if_neg hp]
    dsimp only
    rw [ih, congrArg Digest.Ctx.run hset]
    exact congrArg (Digest.Ctx.mk _) (congrArg Digest.Ctx.bytes hset)

/-- **Bytes that are copied in at once are bytes taken one by one.** -/
theorem ctx_sha256UpdateAll {ctx : Sha256Ctx} (h : ctx.block.length < 64) (data : List Byte) :
    (sha256UpdateAll ctx data).ctx = Digest.Ctx.update sha256Transform ctx.ctx data := by
  rw [sha256UpdateAll, ctx_sha256UpdateLoop]
  exact congrArg (Digest.Ctx.mk · _) (Digest.copyLoop_eq h le_rfl)

theorem ctx_sha256Pad (k : ℕ) (ctx : Sha256Ctx) :
    (sha256Pad k ctx).ctx.run = Digest.padLoop sha256Transform k ctx.ctx.run := by
  induction k generalizing ctx with
  | zero => rfl
  | succ k ih =>
    rw [sha256Pad, Digest.padLoop]
    have hrest : ctx.ctx.run.rest = ctx.block := rfl
    rw [hrest]
    split_ifs
    · rfl
    · rw [ih, ctx_sha256Update]
      rfl

theorem h_ctx (ctx : Sha256Ctx) : ctx.ctx.run.state = ctx.h := rfl

/-- **The digest that a context gives.** -/
theorem sha256Final_eq {ctx : Sha256Ctx} {m : List Byte}
    (h : ctx.ctx = Digest.Ctx.update sha256Transform sha256Init.ctx m) :
    sha256Final ctx = Sha2.sha256 m := by
  have hh : (sha256Update (sha256Pad 64 (sha256Update ctx [0x80])) (storeBe64 (ctx.bytes * 8))).h =
      Digest.Ctx.finish sha256Transform ctx.ctx := by
    have hbits : storeBe64 (ctx.bytes * 8) = Bytes.be 8 (ctx.bytes * 8).toNat := Bytes.store64_eq _
    rw [← h_ctx, ctx_sha256Update, hbits, Digest.Ctx.update, ctx_sha256Pad, ctx_sha256Update]
    rfl
  have hstart : sha256Init.ctx = Digest.Ctx.start sha256Init.h := rfl
  have hview : (Digest.hash sha256Transform sha256Init.h m).view =
      Digest.hash Sha2.compress Sha2.init m := Digest.map_hash _ sha256Transform_eq _ m
  rw [sha256Final, Sha2.sha256, ← hview, hh, h, hstart, Digest.Ctx.finish_update]
  generalize Digest.hash sha256Transform sha256Init.h m = s
  exact congrArg (List.flatMap · [s.a, s.b, s.c, s.d, s.e, s.f, s.g, s.h]) (funext Bytes.store32_eq)

/-- **The digest of a message in pieces.** -/
theorem sha256Final_foldl (pieces : List (List Byte)) :
    sha256Final (pieces.foldl sha256UpdateAll sha256Init) = Sha2.sha256 pieces.flatten := by
  have hfold (ctx : Sha256Ctx) (hlen : ctx.block.length < 64) :
      (pieces.foldl sha256UpdateAll ctx).ctx =
        Digest.Ctx.update sha256Transform ctx.ctx pieces.flatten := by
    induction pieces generalizing ctx with
    | nil => exact (Digest.Ctx.update_nil ctx.ctx).symm
    | cons p pieces ih =>
      have hstep := ctx_sha256UpdateAll hlen p
      have hnext : (sha256UpdateAll ctx p).ctx.run.rest.length = (ctx.block.length + p.length) % 64 := by
        rw [hstep]
        exact Digest.length_rest_absorb hlen
      have hlt : (sha256UpdateAll ctx p).block.length < 64 := hnext.trans_lt (Nat.mod_lt _ (by norm_num))
      rw [List.foldl_cons, ih _ hlt, hstep, Digest.Ctx.update_update, List.flatten_cons]
  exact sha256Final_eq (hfold sha256Init (by decide))

theorem tnuSha256_eq (data : List Byte) : tnuSha256 data = Sha2.sha256 data :=
  sha256Final_eq (ctx_sha256Update sha256Init data)

@[simp] theorem length_sha256 (m : List Byte) : (Sha2.sha256 m).length = 32 := by
  rw [← tnuSha256_eq, length_tnuSha256]

/-! ### The authenticator and the key derivation -/

theorem sha256Final_two (p q : List Byte) :
    sha256Final (sha256UpdateAll (sha256UpdateAll sha256Init p) q) = Sha2.sha256 (p ++ q) := by
  have h := sha256Final_foldl [p, q]
  rwa [List.flatten_cons, List.flatten_cons, List.flatten_nil, List.append_nil] at h

/-- **The authenticator is that of the standard.** -/
theorem tnuHmacSha256_eq (key data : List Byte) :
    tnuHmacSha256 key data = Digest.hmac Sha2.sha256 key data := by
  have hkey : hmacK0 key = Digest.hmacKey Sha2.sha256 key := by
    rw [hmacK0, Digest.hmacKey, tnuSha256_eq]
  rw [tnuHmacSha256, Digest.hmac, ← hkey, sha256Final_two, sha256Final_two]

theorem ite_sha256UpdateAll (ctx : Sha256Ctx) (data : List Byte) :
    (if data.length ≠ 0 then sha256UpdateAll ctx data else ctx) = sha256UpdateAll ctx data := by
  split_ifs with h
  · rfl
  · rw [List.eq_nil_of_length_eq_zero (not_not.1 h)]
    exact congrArg (Sha256Ctx.mk ctx.h · ctx.block) (UInt64.add_zero ctx.bytes).symm

theorem hkdfStep_eq {prk : List Byte} (h : prk.length ≤ 64) (info t : List Byte) (counter : UInt8) :
    hkdfStep prk info (t, counter) =
      (Digest.hmac Sha2.sha256 prk (t ++ info ++ [counter]),
        Digest.hmac Sha2.sha256 prk (t ++ info ++ [counter]), counter + 1) := by
  set k0 := prk ++ List.replicate (64 - prk.length) 0 with hk0
  have hkey : Digest.hmacKey Sha2.sha256 prk = k0 := by
    rw [Digest.hmacKey, if_neg (by omega)]
  have hinner : sha256Final (sha256UpdateAll (sha256UpdateAll (sha256UpdateAll
      (sha256UpdateAll sha256Init (k0.map (· ^^^ 0x36))) t) info) [counter]) =
      Sha2.sha256 (k0.map (· ^^^ 0x36) ++ (t ++ info ++ [counter])) := by
    have h := sha256Final_foldl [k0.map (· ^^^ 0x36), t, info, [counter]]
    simpa only [List.foldl_cons, List.foldl_nil, List.flatten_cons, List.flatten_nil, List.append_nil,
      List.append_assoc] using h
  rw [hkdfStep, ite_sha256UpdateAll, ite_sha256UpdateAll, ← hk0, hinner, sha256Final_two, Digest.hmac,
    hkey]

/-- **The key derivation is that of the standard.** -/
theorem tnuHkdfSha256_eq (salt : Option (List Byte)) (ikm info : List Byte) {out : Bool} {outLen : ℕ}
    (hout : out = true ∨ outLen = 0) :
    tnuHkdfSha256 salt ikm info out outLen =
      match Digest.hkdf (Digest.hmac Sha2.sha256) 32 salt ikm info outLen with
      | some okm => .ok okm
      | none => .error tnuTlsErrUnsupported := by
  have hbuf : ¬(out = false ∧ outLen ≠ 0) := by
    rintro ⟨rfl, hne⟩
    exact hne (hout.resolve_left Bool.false_ne_true)
  rw [tnuHkdfSha256, if_neg hbuf, Digest.hkdf]
  by_cases hlen : outLen ≤ 255 * 32
  · rw [if_neg (not_lt.2 hlen), if_pos hlen]
    dsimp only
    set prk := tnuHmacSha256 (salt.getD (List.replicate 32 0)) ikm with hprk
    have hextract : Digest.hkdfExtract (Digest.hmac Sha2.sha256) 32 salt ikm = prk :=
      (tnuHmacSha256_eq _ _).symm
    have hblock (i : ℕ) : (Digest.hkdfBlock (Digest.hmac Sha2.sha256 prk) info (i + 1)).length = 32 :=
      length_sha256 _
    have hstep (i : ℕ) :
        hkdfStep prk info (Digest.hkdfBlock (Digest.hmac Sha2.sha256 prk) info i, UInt8.ofNat (i + 1)) =
          (Digest.hkdfBlock (Digest.hmac Sha2.sha256 prk) info (i + 1),
            Digest.hkdfBlock (Digest.hmac Sha2.sha256 prk) info (i + 1), UInt8.ofNat (i + 2)) := by
      have hlen32 : prk.length = 32 := by rw [← hextract]; exact length_sha256 _
      have hcounter : UInt8.ofNat (i + 1) + 1 = UInt8.ofNat (i + 2) := (UInt8.ofNat_add (i + 1) 1).symm
      rw [hkdfStep_eq (by omega), hcounter]
      rfl
    have hloop := @Digest.outLoop_eq _ (hkdfStep prk info) _
      (fun i => (Digest.hkdfBlock (Digest.hmac Sha2.sha256 prk) info i, UInt8.ofNat (i + 1))) 32
      (by norm_num) hblock hstep outLen 0 outLen le_rfl
    rw [hextract, Digest.hkdfExpand, List.range_eq_range', ← hloop]
    rfl
  · rw [if_pos (by omega), if_neg hlen]

/-- **The digest, the authenticator and the key derivation are the standard ones**: the digest however
the message is cut, the others for every key, salt, info and length. -/
theorem digestsStandard (pieces : List (List Byte)) (key data ikm info : List Byte)
    (salt : Option (List Byte)) (outLen : ℕ) :
    sha256Final (pieces.foldl sha256UpdateAll sha256Init) = Sha2.sha256 pieces.flatten ∧
      tnuSha256 data = Sha2.sha256 data ∧
      tnuHmacSha256 key data = Digest.hmac Sha2.sha256 key data ∧
      tnuHkdfSha256 salt ikm info true outLen =
        match Digest.hkdf (Digest.hmac Sha2.sha256) 32 salt ikm info outLen with
        | some okm => .ok okm
        | none => .error tnuTlsErrUnsupported :=
  ⟨sha256Final_foldl pieces, tnuSha256_eq data, tnuHmacSha256_eq key data,
    tnuHkdfSha256_eq salt ikm info (.inl rfl)⟩

end Tnu.Tls
