/-
**The key derivations of WPA.**

`tnu_hmac_sha1`, `tnu_pbkdf2_hmac_sha1` and `tnu_wpa_prf` of `kernel/lib/crypto.c`, with the buffers that
they write to: the block of the hash, the key that is filled up, the salt with the number of a block, and
the input of the pseudorandom function.  All of them compute the standard functions over the compression
of the hash.  The pseudorandom function refuses an input that its buffer has no room for: it leaves the
output alone.

Main result:

* `derivations_standard` — **the derivations are the standard ones**, of the inputs that there is
  room for.
-/

import Tnu.Lib.Digest
import Tnu.Wifi.Associate

set_option autoImplicit false

namespace Tnu.Wifi

/-! ### The functions with their buffers -/

/-- A write behind what a buffer of `cap` bytes holds; there is none where it would leave the buffer. -/
def put (cap : ℕ) (buf l : List Byte) : Option (List Byte) :=
  if buf.length + l.length ≤ cap then some (buf ++ l) else none

theorem put_eq {cap : ℕ} {buf l : List Byte} (h : buf.length + l.length ≤ cap) :
    put cap buf l = some (buf ++ l) := if_pos h

/-- The loop of `sha1_update`, in at most so many turns. -/
def sha1UpdateLoop : ℕ → Sha1Ctx → List Byte → Option Sha1Ctx
  | 0, ctx, _ => some ctx
  | k + 1, ctx, p =>
    if p = [] then some ctx
    else do
      let n := min (64 - ctx.block.length) p.length
      let block ← put 64 ctx.block (p.take n)
      sha1UpdateLoop k
        (if block.length = 64 then { ctx with h := sha1Transform ctx.h block, block := [] }
          else { ctx with block := block })
        (p.drop n)

/-- `sha1_update`. -/
def sha1UpdateChecked (ctx : Sha1Ctx) (data : List Byte) : Option Sha1Ctx :=
  sha1UpdateLoop data.length { ctx with bytes := ctx.bytes + UInt64.ofNat data.length } data

/-- The loop of `sha1_final`. -/
def sha1PadChecked : ℕ → Sha1Ctx → Option Sha1Ctx
  | 0, ctx => some ctx
  | k + 1, ctx =>
    if ctx.block.length = 56 then some ctx
    else do sha1PadChecked k (← sha1UpdateChecked ctx [0])

/-- `sha1_final`. -/
def sha1FinalChecked (ctx : Sha1Ctx) : Option (List Byte) := do
  let bits := ctx.bytes * 8
  let ctx ← sha1PadChecked 64 (← sha1UpdateChecked ctx [0x80])
  let ctx ← sha1UpdateChecked ctx (storeBe64 bits)
  some ([ctx.h.a, ctx.h.b, ctx.h.c, ctx.h.d, ctx.h.e].flatMap storeBe32)

/-- What `tnu_hmac_sha1` copies to the front of `k0`. -/
def hmacKeyChecked (key : List Byte) : Option (List Byte) :=
  if 64 < key.length then do put 64 [] (← sha1FinalChecked (← sha1UpdateChecked sha1Init key))
  else put 64 [] key

/-- `tnu_hmac_sha1`. -/
def tnuHmacSha1Checked (key data : List Byte) : Option (List Byte) := do
  let k ← hmacKeyChecked key
  let k0 := k ++ List.replicate (64 - k.length) 0
  let ipad := k0.map (· ^^^ 0x36)
  let opad := k0.map (· ^^^ 0x5c)
  let digest ← sha1FinalChecked (← sha1UpdateChecked (← sha1UpdateChecked sha1Init ipad) data)
  sha1FinalChecked (← sha1UpdateChecked (← sha1UpdateChecked sha1Init opad) digest)

/-- The loop that writes as many bytes as are asked for, in at most so many turns: `step` makes the next
digest. -/
def writeLoop {τ : Type} (step : τ → Option (List Byte × τ)) (outLen : ℕ) :
    ℕ → τ → List Byte → Option (List Byte)
  | 0, _, out => some out
  | k + 1, t, out =>
    if outLen ≤ out.length then some out
    else do
      let (digest, t) ← step t
      let take := min (outLen - out.length) digest.length
      writeLoop step outLen k t (← put outLen out (digest.take take))

/-- The loop of `tnu_pbkdf2_hmac_sha1` over the iterations. -/
def pbkdf2Iterate (passphrase : List Byte) : ℕ → List Byte → List Byte → Option (List Byte)
  | 0, _, t => some t
  | i + 1, u, t => do
      let u ← tnuHmacSha1Checked passphrase u
      pbkdf2Iterate passphrase i u (List.zipWith (· ^^^ ·) t u)

/-- One turn of `tnu_pbkdf2_hmac_sha1`, which fills `salt_block`. -/
def pbkdf2Step (passphrase ssid : List Byte) (iterations : UInt32) (block : UInt32) :
    Option (List Byte × UInt32) := do
  let saltBlock ← put 36 (← put 36 [] ssid) (storeBe32 block)
  let u ← tnuHmacSha1Checked passphrase saltBlock
  let t ← pbkdf2Iterate passphrase (iterations.toNat - 1) u u
  some (t, block + 1)

/-- `tnu_pbkdf2_hmac_sha1`: what it leaves in `out`. -/
def tnuPbkdf2HmacSha1Checked (passphrase ssid : List Byte) (iterations : UInt32) (out : List Byte) :
    Option (List Byte) :=
  writeLoop (pbkdf2Step passphrase ssid iterations) out.length out.length 1 []

/-- One turn of `tnu_wpa_prf`: the counter is put behind the input. -/
def prfStep (key input : List Byte) (counter : UInt8) : Option (List Byte × UInt8) := do
  let digest ← tnuHmacSha1Checked key (← put 128 input [counter])
  some (digest, counter + 1)

/-- `tnu_wpa_prf`: what it leaves in `out`. -/
def tnuWpaPrfChecked (key label data out : List Byte) : Option (List Byte) :=
  if 128 < label.length + 1 + data.length + 1 then some out
  else do
    let input ← put 128 (← put 128 (← put 128 [] label) [0]) data
    writeLoop (prfStep key input) out.length out.length 0 []

/-! ### The digest -/

def Sha1Ctx.ctx (ctx : Sha1Ctx) : Digest.Ctx Sha1Words := ⟨⟨ctx.h, ctx.block⟩, ctx.bytes⟩

theorem Sha1Ctx.ctx_injective : Function.Injective Sha1Ctx.ctx := by
  intro ctx ctx' h
  have hrun : (⟨ctx.h, ctx.block⟩ : Digest.Run Sha1Words) = ⟨ctx'.h, ctx'.block⟩ :=
    congrArg Digest.Ctx.run h
  have hbytes : ctx.bytes = ctx'.bytes := congrArg Digest.Ctx.bytes h
  obtain ⟨hh, hblock⟩ := Digest.Run.mk.inj hrun
  cases ctx
  cases ctx'
  exact Sha1Ctx.mk.injEq .. ▸ ⟨hh, hbytes, hblock⟩

theorem sha1_settled_eq (ctx : Sha1Ctx) (block : List Byte) :
    (if block.length = 64 then { ctx with h := sha1Transform ctx.h block, block := [] }
      else { ctx with block := block }).ctx = ⟨Digest.settle sha1Transform ctx.h block, ctx.bytes⟩ := by
  rw [Digest.settle]
  split_ifs <;> rfl

theorem ctx_foldl_sha1Byte (ctx : Sha1Ctx) (data : List Byte) :
    (data.foldl sha1Byte ctx).ctx = ⟨Digest.absorb sha1Transform ctx.ctx.run data, ctx.bytes⟩ :=
  Digest.Ctx.view_foldl (fun c b => sha1_settled_eq c (c.block ++ [b])) ctx data

@[simp] theorem ctx_sha1Update (ctx : Sha1Ctx) (data : List Byte) :
    (sha1Update ctx data).ctx = Digest.Ctx.update sha1Transform ctx.ctx data :=
  ctx_foldl_sha1Byte _ data

theorem sha1UpdateLoop_eq (k : ℕ) {ctx : Sha1Ctx} (h : ctx.block.length < 64) (p : List Byte) :
    ∃ ctx', sha1UpdateLoop k ctx p = some ctx' ∧
      ctx'.ctx = ⟨Digest.copyLoop sha1Transform k ctx.ctx.run p, ctx.bytes⟩ := by
  induction k generalizing ctx p with
  | zero => exact ⟨ctx, rfl, rfl⟩
  | succ k ih =>
    rw [sha1UpdateLoop, Digest.copyLoop]
    by_cases hp : p = []
    · exact ⟨ctx, if_pos hp, by rw [if_pos hp]; rfl⟩
    set n := min (64 - ctx.block.length) p.length with hn
    have hlen : (ctx.block ++ p.take n).length ≤ 64 := by
      rw [List.length_append, List.length_take]
      omega
    have hput : put 64 ctx.block (p.take n) = some (ctx.block ++ p.take n) :=
      put_eq (by rwa [List.length_append] at hlen)
    have hset := sha1_settled_eq ctx (ctx.block ++ p.take n)
    set next := if (ctx.block ++ p.take n).length = 64 then
      { ctx with h := sha1Transform ctx.h (ctx.block ++ p.take n), block := [] }
      else { ctx with block := ctx.block ++ p.take n } with hnext
    have hrun : next.ctx.run = Digest.settle sha1Transform ctx.h (ctx.block ++ p.take n) :=
      congrArg Digest.Ctx.run hset
    have hbytes : next.bytes = ctx.bytes := congrArg Digest.Ctx.bytes hset
    have hlt : next.ctx.run.rest.length < 64 := by
      rw [hrun]
      exact Digest.length_rest_settle _ hlen
    obtain ⟨ctx', hloop, hctx⟩ := ih hlt (p.drop n)
    rw [hrun, hbytes] at hctx
    rw [if_neg hp, if_neg hp]
    simp only [Option.bind_eq_bind, hput, Option.bind_some, ← hnext]
    exact ⟨ctx', hloop, hctx⟩

theorem length_block_sha1Update {ctx : Sha1Ctx} (h : ctx.block.length < 64) (data : List Byte) :
    (sha1Update ctx data).block.length < 64 := by
  have hlen : (sha1Update ctx data).ctx.run.rest.length = (ctx.block.length + data.length) % 64 := by
    rw [ctx_sha1Update]
    exact Digest.length_rest_absorb h
  exact hlen.trans_lt (Nat.mod_lt _ (by norm_num))

/-- **What comes in is copied into the block and never behind it.** -/
theorem sha1UpdateChecked_eq {ctx : Sha1Ctx} (h : ctx.block.length < 64) (data : List Byte) :
    sha1UpdateChecked ctx data = some (sha1Update ctx data) := by
  obtain ⟨ctx', hloop, hctx⟩ := @sha1UpdateLoop_eq data.length
    { ctx with bytes := ctx.bytes + UInt64.ofNat data.length } h data
  have heq : ctx'.ctx = (sha1Update ctx data).ctx := by
    rw [hctx, ctx_sha1Update]
    exact congrArg (Digest.Ctx.mk · _) (Digest.copyLoop_eq h le_rfl)
  rw [sha1UpdateChecked, hloop, Sha1Ctx.ctx_injective heq]

theorem sha1PadChecked_eq (k : ℕ) {ctx : Sha1Ctx} (h : ctx.block.length < 64) :
    sha1PadChecked k ctx = some (sha1Pad k ctx) ∧ (sha1Pad k ctx).block.length < 64 := by
  induction k generalizing ctx with
  | zero => exact ⟨rfl, h⟩
  | succ k ih =>
    rw [sha1PadChecked, sha1Pad]
    split_ifs with hfull
    · exact ⟨rfl, h⟩
    · rw [sha1UpdateChecked_eq h]
      exact ih (length_block_sha1Update h [0])

theorem sha1FinalChecked_eq {ctx : Sha1Ctx} (h : ctx.block.length < 64) :
    sha1FinalChecked ctx = some (sha1Final ctx) := by
  obtain ⟨hpad, hlen⟩ := sha1PadChecked_eq 64 (length_block_sha1Update h [0x80])
  simp only [sha1FinalChecked, sha1UpdateChecked_eq h, Option.bind_eq_bind, Option.bind_some, hpad,
    sha1UpdateChecked_eq hlen]
  rfl

theorem length_tnuSha1 (data : List Byte) : (tnuSha1 data).length = 20 := by
  rfl

/-- **The authenticator stays in its buffers.** -/
theorem tnuHmacSha1Checked_eq (key data : List Byte) :
    tnuHmacSha1Checked key data = some (tnuHmacSha1 key data) := by
  have hinit : sha1Init.block.length < 64 := by decide
  have hone (m : List Byte) : sha1UpdateChecked sha1Init m = some (sha1Update sha1Init m) :=
    sha1UpdateChecked_eq hinit m
  have htwo (m m' : List Byte) : sha1UpdateChecked (sha1Update sha1Init m) m' =
      some (sha1Update (sha1Update sha1Init m) m') :=
    sha1UpdateChecked_eq (length_block_sha1Update hinit m) m'
  have hfinal (m : List Byte) : sha1FinalChecked (sha1Update sha1Init m) = some (tnuSha1 m) :=
    sha1FinalChecked_eq (length_block_sha1Update hinit m)
  have hfinal2 (m m' : List Byte) : sha1FinalChecked (sha1Update (sha1Update sha1Init m) m') =
      some (sha1Final (sha1Update (sha1Update sha1Init m) m')) :=
    sha1FinalChecked_eq (length_block_sha1Update (length_block_sha1Update hinit m) m')
  have hkey : hmacKeyChecked key = some (if 64 < key.length then tnuSha1 key else key) := by
    rw [hmacKeyChecked]
    by_cases hlong : 64 < key.length
    · rw [if_pos hlong, if_pos hlong, hone]
      simp only [Option.bind_eq_bind, Option.bind_some, hfinal]
      exact put_eq (by rw [length_tnuSha1]; norm_num)
    · rw [if_neg hlong, if_neg hlong]
      exact put_eq (by rw [List.length_nil]; omega)
  simp only [tnuHmacSha1Checked, Option.bind_eq_bind, hkey, Option.bind_some, hone, htwo, hfinal2]
  rfl

/-! ### The loops -/

theorem writeLoop_eq {τ : Type} {step : τ → Option (List Byte × τ)} {step' : τ → List Byte × τ}
    (h : ∀ t, step t = some (step' t)) {outLen k : ℕ} {t : τ} {out : List Byte}
    (hle : out.length ≤ outLen) :
    writeLoop step outLen k t out = some (out ++ Digest.outLoop step' k t (outLen - out.length)) := by
  induction k generalizing t out with
  | zero => rw [writeLoop, Digest.outLoop, List.append_nil]
  | succ k ih =>
    rw [writeLoop, Digest.outLoop]
    rcases hle.eq_or_lt with heq | hlt
    · rw [if_pos heq.ge, if_pos (by omega), List.append_nil]
    set take := min (outLen - out.length) (step' t).1.length with htake
    have hlen : ((step' t).1.take take).length = take := by
      rw [List.length_take]
      omega
    have hput : put outLen out ((step' t).1.take take) = some (out ++ (step' t).1.take take) :=
      put_eq (by omega)
    have hnext : outLen - (out ++ (step' t).1.take take).length = outLen - out.length - take := by
      rw [List.length_append, hlen]
      omega
    rw [if_neg (by omega), if_neg (by omega)]
    simp only [Option.bind_eq_bind, h, Option.bind_some, ← htake, hput]
    rw [ih (by rw [List.length_append]; omega), hnext, List.append_assoc]

theorem pbkdf2Iterate_eq (passphrase salt : List Byte) (block n i : ℕ) :
    pbkdf2Iterate passphrase n (Digest.pbkdf2Link (tnuHmacSha1 passphrase) salt block i)
      (Digest.pbkdf2Sum (tnuHmacSha1 passphrase) salt block i) =
      some (Digest.pbkdf2Sum (tnuHmacSha1 passphrase) salt block (i + n)) := by
  induction n generalizing i with
  | zero => rfl
  | succ n ih =>
    simp only [pbkdf2Iterate, tnuHmacSha1Checked_eq, Option.bind_eq_bind, Option.bind_some]
    rw [← Nat.add_assoc, Nat.add_right_comm]
    exact ih (i + 1)

theorem pbkdf2Sum_mod (mac : Digest.Hash) (salt : List Byte) (block n : ℕ) :
    Digest.pbkdf2Sum mac salt (block % 256 ^ 4) n = Digest.pbkdf2Sum mac salt block n := by
  have hlink (j : ℕ) :
      Digest.pbkdf2Link mac salt (block % 256 ^ 4) j = Digest.pbkdf2Link mac salt block j := by
    induction j with
    | zero => rw [Digest.pbkdf2Link, Bytes.be_mod, Digest.pbkdf2Link]
    | succ j ih => rw [Digest.pbkdf2Link, ih, Digest.pbkdf2Link]
  induction n with
  | zero => rw [Digest.pbkdf2Sum, hlink, Digest.pbkdf2Sum]
  | succ n ih => rw [Digest.pbkdf2Sum, ih, hlink, Digest.pbkdf2Sum]

theorem length_pbkdf2Sum (passphrase salt : List Byte) (block n : ℕ) :
    (Digest.pbkdf2Sum (tnuHmacSha1 passphrase) salt block n).length = 20 := by
  have hlink (j : ℕ) : (Digest.pbkdf2Link (tnuHmacSha1 passphrase) salt block j).length = 20 := by
    cases j <;> exact length_tnuHmacSha1 _ _
  induction n with
  | zero => exact hlink 0
  | succ n ih =>
    rw [Digest.pbkdf2Sum, List.length_zipWith, ih, hlink]
    rfl

theorem pbkdf2Step_eq {passphrase ssid : List Byte} (h : ssid.length ≤ 32) (iterations block : UInt32) :
    pbkdf2Step passphrase ssid iterations block =
      some (Digest.pbkdf2Sum (tnuHmacSha1 passphrase) ssid block.toNat (iterations.toNat - 1),
        block + 1) := by
  have hssid : put 36 [] ssid = some ssid := put_eq (by rw [List.length_nil]; omega)
  have hblock : storeBe32 block = Bytes.be 4 block.toNat := Bytes.store32_eq block
  have hsalt : put 36 ssid (storeBe32 block) = some (ssid ++ Bytes.be 4 block.toNat) := by
    rw [hblock]
    exact put_eq (by rw [Bytes.length_be]; omega)
  have hloop := pbkdf2Iterate_eq passphrase ssid block.toNat (iterations.toNat - 1) 0
  have hfirst : Digest.pbkdf2Sum (tnuHmacSha1 passphrase) ssid block.toNat 0 =
      tnuHmacSha1 passphrase (ssid ++ Bytes.be 4 block.toNat) := by rw [Digest.pbkdf2Sum, Digest.pbkdf2Link]
  have hlink : Digest.pbkdf2Link (tnuHmacSha1 passphrase) ssid block.toNat 0 =
      tnuHmacSha1 passphrase (ssid ++ Bytes.be 4 block.toNat) := by rw [Digest.pbkdf2Link]
  rw [Nat.zero_add, hfirst, hlink] at hloop
  simp only [pbkdf2Step, hssid, hsalt, tnuHmacSha1Checked_eq, Option.bind_eq_bind, Option.bind_some, hloop]

theorem tnuPbkdf2HmacSha1Checked_eq {passphrase ssid : List Byte} (h : ssid.length ≤ 32)
    (iterations : UInt32) (out : List Byte) :
    tnuPbkdf2HmacSha1Checked passphrase ssid iterations out =
      some (((List.range ((out.length + 20 - 1) / 20)).flatMap fun i =>
        Digest.pbkdf2Sum (tnuHmacSha1 passphrase) ssid (i + 1) (iterations.toNat - 1)).take out.length) := by
  have hstep (i : ℕ) :
      (Digest.pbkdf2Sum (tnuHmacSha1 passphrase) ssid (UInt32.ofNat (i + 1)).toNat (iterations.toNat - 1),
        UInt32.ofNat (i + 1) + 1) =
      (Digest.pbkdf2Sum (tnuHmacSha1 passphrase) ssid (i + 1) (iterations.toNat - 1),
        UInt32.ofNat (i + 1 + 1)) := by
    have hmod : (UInt32.ofNat (i + 1)).toNat = (i + 1) % 256 ^ 4 := UInt32.toNat_ofNat'
    rw [hmod, pbkdf2Sum_mod, UInt32.ofNat_add (i + 1) 1]
    rfl
  have hloop := @Digest.outLoop_eq _
    (fun block : UInt32 => (Digest.pbkdf2Sum (tnuHmacSha1 passphrase) ssid block.toNat
      (iterations.toNat - 1), block + 1)) _
    (fun i => UInt32.ofNat (i + 1)) 20 (by norm_num)
    (fun i => length_pbkdf2Sum passphrase ssid (i + 1) (iterations.toNat - 1)) hstep out.length 0
    out.length le_rfl
  rw [tnuPbkdf2HmacSha1Checked, writeLoop_eq (pbkdf2Step_eq h iterations) (Nat.zero_le _),
    List.range_eq_range', ← hloop]
  rfl

theorem tnuWpaPrfChecked_eq (key label data out : List Byte) :
    tnuWpaPrfChecked key label data out =
      some (if label.length + data.length ≤ 126 then
        Digest.prf (tnuHmacSha1 key) 20 label data out.length else out) := by
  rw [tnuWpaPrfChecked]
  by_cases h : label.length + data.length ≤ 126
  · have hlabel : put 128 [] label = some label := put_eq (by rw [List.length_nil]; omega)
    have hzero : put 128 label [0] = some (label ++ [0]) :=
      put_eq (by rw [List.length_singleton]; omega)
    have hdata : put 128 (label ++ [0]) data = some (label ++ [0] ++ data) :=
      put_eq (by rw [List.length_append, List.length_singleton]; omega)
    have hturn (counter : UInt8) : prfStep key (label ++ [0] ++ data) counter =
        some (tnuHmacSha1 key (label ++ [0] ++ data ++ [counter]), counter + 1) := by
      have hput : put 128 (label ++ [0] ++ data) [counter] = some (label ++ [0] ++ data ++ [counter]) :=
        put_eq (by simp only [List.length_append, List.length_singleton]; omega)
      simp only [prfStep, hput, tnuHmacSha1Checked_eq, Option.bind_eq_bind, Option.bind_some]
    have hloop := @Digest.outLoop_eq _
      (fun counter : UInt8 => (tnuHmacSha1 key (label ++ [0] ++ data ++ [counter]), counter + 1))
      (fun i => tnuHmacSha1 key (label ++ [0] ++ data ++ [UInt8.ofNat i])) UInt8.ofNat 20 (by norm_num)
      (fun i => length_tnuHmacSha1 _ _) (fun i => by rw [UInt8.ofNat_add i 1]; rfl) out.length 0
      out.length le_rfl
    rw [if_neg (by omega), if_pos h]
    simp only [hlabel, hzero, hdata, Option.bind_eq_bind, Option.bind_some]
    rw [writeLoop_eq hturn (Nat.zero_le _), Digest.prf, List.range_eq_range']
    simp only [List.append_assoc, List.singleton_append] at hloop ⊢
    exact congrArg some hloop
  · rw [if_pos (by omega), if_neg h]

/-! ### The standard functions -/

def sha1 (m : List Byte) : List Byte :=
  let s := Digest.hash sha1Transform sha1Init.h m
  [s.a, s.b, s.c, s.d, s.e].flatMap fun x => Bytes.be 4 x.toNat

theorem ctx_sha1Pad (k : ℕ) (ctx : Sha1Ctx) :
    (sha1Pad k ctx).ctx.run = Digest.padLoop sha1Transform k ctx.ctx.run := by
  induction k generalizing ctx with
  | zero => rfl
  | succ k ih =>
    rw [sha1Pad, Digest.padLoop]
    have hrest : ctx.ctx.run.rest = ctx.block := rfl
    rw [hrest]
    split_ifs
    · rfl
    · rw [ih, ctx_sha1Update]
      rfl

theorem sha1Final_eq {ctx : Sha1Ctx} {m : List Byte}
    (h : ctx.ctx = Digest.Ctx.update sha1Transform sha1Init.ctx m) : sha1Final ctx = sha1 m := by
  have hstate (ctx : Sha1Ctx) : ctx.h = ctx.ctx.run.state := rfl
  have hh : (sha1Update (sha1Pad 64 (sha1Update ctx [0x80])) (storeBe64 (ctx.bytes * 8))).h =
      Digest.Ctx.finish sha1Transform ctx.ctx := by
    have hbits : storeBe64 (ctx.bytes * 8) = Bytes.be 8 (ctx.bytes * 8).toNat := Bytes.store64_eq _
    rw [hstate, ctx_sha1Update, hbits, Digest.Ctx.update, ctx_sha1Pad, ctx_sha1Update]
    rfl
  have hstart : sha1Init.ctx = Digest.Ctx.start sha1Init.h := rfl
  rw [sha1Final, sha1, hh, h, hstart, Digest.Ctx.finish_update]
  generalize Digest.hash sha1Transform sha1Init.h m = s
  exact congrArg (List.flatMap · [s.a, s.b, s.c, s.d, s.e]) (funext Bytes.store32_eq)

theorem tnuSha1_eq (m : List Byte) : tnuSha1 m = sha1 m := sha1Final_eq (ctx_sha1Update sha1Init m)

/-- **The authenticator is that of the standard.** -/
theorem tnuHmacSha1_eq (key : List Byte) : tnuHmacSha1 key = Digest.hmac sha1 key := by
  have htwo (m m' : List Byte) : sha1Final (sha1Update (sha1Update sha1Init m) m') = sha1 (m ++ m') := by
    refine sha1Final_eq ?_
    rw [ctx_sha1Update, ctx_sha1Update, Digest.Ctx.update_update]
  have hkey : hmacKey key = Digest.hmacKey sha1 key := by
    rw [hmacKey, Digest.hmacKey, tnuSha1_eq]
  funext data
  rw [tnuHmacSha1, Digest.hmac, ← hkey, htwo, htwo]

def HmacStandard (key data : List Byte) : Prop :=
  tnuHmacSha1Checked key data = some (Digest.hmac sha1 key data)

/-- The password-based key is the standard one where there is one, and the buffers are not left. -/
def Pbkdf2Standard (passphrase ssid : List Byte) (iterations : UInt32) (out : List Byte) : Prop :=
  ∃ dk, tnuPbkdf2HmacSha1Checked passphrase ssid iterations out = some dk ∧
    ∀ dk', Digest.pbkdf2 (Digest.hmac sha1 passphrase) 20 ssid iterations.toNat out.length = some dk' →
      dk = dk'

def PrfStandard (key label data out : List Byte) : Prop :=
  tnuWpaPrfChecked key label data out = some (Digest.prf (Digest.hmac sha1 key) 20 label data out.length)

/-- **The derivations are the standard ones**: the authenticator always, the password-based key for the
name of any network, and the pseudorandom function for the inputs that it does not refuse. -/
theorem derivations_standard (key data label passphrase ssid out : List Byte) (iterations : UInt32) :
    HmacStandard key data ∧
      (ssid.length ≤ 32 → Pbkdf2Standard passphrase ssid iterations out) ∧
      (label.length + data.length ≤ 126 → PrfStandard key label data out) ∧
      (126 < label.length + data.length → tnuWpaPrfChecked key label data out = some out) := by
  refine ⟨?_, fun hssid => ?_, fun hroom => ?_, fun hlong => ?_⟩
  · rw [HmacStandard, tnuHmacSha1Checked_eq, tnuHmacSha1_eq]
  · refine ⟨_, tnuPbkdf2HmacSha1Checked_eq hssid iterations out, fun dk' hdk => ?_⟩
    rw [Digest.pbkdf2] at hdk
    split_ifs at hdk
    rw [← Option.some.inj hdk, tnuHmacSha1_eq]
  · rw [PrfStandard, tnuWpaPrfChecked_eq, if_pos hroom, tnuHmacSha1_eq]
  · rw [tnuWpaPrfChecked_eq, if_neg (by omega)]

/-- The name of a network of 32 bytes, and an input of 126 bytes. -/
theorem derivations_standard_full :
    Pbkdf2Standard [0x70] (List.replicate 32 0x73) 4096 (List.replicate 32 0) ∧
      PrfStandard [0x6b] (List.replicate 22 0x6c) (List.replicate 104 0) [0] ∧
      tnuWpaPrfChecked [0x6b] (List.replicate 22 0x6c) (List.replicate 105 0) [0] = some [0] :=
  ⟨(derivations_standard [] [] [] [0x70] (List.replicate 32 0x73) (List.replicate 32 0) 4096).2.1
      (by decide),
    (derivations_standard [0x6b] (List.replicate 104 0) (List.replicate 22 0x6c) [] [] [0] 0).2.2.1
      (by decide),
    (derivations_standard [0x6b] (List.replicate 105 0) (List.replicate 22 0x6c) [] [] [0] 0).2.2.2
      (by decide)⟩

/-- An input of 127 bytes is refused: what is left in the output is whatever it held. -/
theorem not_derivations_standard :
    ¬∀ (key data label passphrase ssid out : List Byte) (iterations : UInt32),
      HmacStandard key data ∧ Pbkdf2Standard passphrase ssid iterations out ∧
        PrfStandard key label data out := by
  intro h
  have hleft (b : Byte) :
      some [b] = some (Digest.prf (Digest.hmac sha1 []) 20 [] (List.replicate 127 0) 1) := by
    obtain ⟨-, -, hprf⟩ := h [] (List.replicate 127 0) [] [] [] [b] 1
    rw [PrfStandard, tnuWpaPrfChecked_eq, if_neg (by simp)] at hprf
    exact hprf
  have hsame : some [(0 : Byte)] = some [1] := (hleft 0).trans (hleft 1).symm
  exact absurd hsame (by decide)

end Tnu.Wifi
