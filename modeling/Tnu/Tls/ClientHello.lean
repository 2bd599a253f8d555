/-
**The first message of a handshake.**

`tls_send_client_hello` of `userspace/libc/src/tls.c` writes the body of a ClientHello into a buffer of 512 bytes,
with an extension for each of `tls_append_ext`'s calls, goes back to write the length of the extensions, and
copies the body behind the headers of a handshake message and of a record.  Here a write behind the end of a
buffer has no result, and the buffers hold whatever they held before.

Main definitions:

* `tlsAppendExt`, `tlsClientHello` — an extension, and the message.

Main result:

* `tlsSendClientHello_spec` — **every message that is built is one whose lengths are right**.
-/

import Tnu.Lib.Buffer
import Tnu.Lib.Words
import Tnu.Tls.Url

set_option autoImplicit false

namespace Tnu.Tls

/-! ### The program -/

def storeBe16Tls (v : UInt16) : List Byte := [(v >>> 8).toUInt8, v.toUInt8]

def storeBe24Tls (v : UInt32) : List Byte := [(v >>> 16).toUInt8, (v >>> 8).toUInt8, v.toUInt8]

abbrev tnuTlsErrNetwork : ℤ := -3

def tlsClienthelloBodyMax : ℕ := 512

/-- A step that may fail with an error; without a result it wrote behind the end of a buffer. -/
abbrev Step := ExceptT ℤ Option

/-- A buffer that is written, and the position in it. -/
structure Writer where
  buf : List Byte
  pos : ℕ

def Writer.put (w : Writer) (l : List Byte) : Step Writer :=
  ExceptT.mk ((Buffer.copy w.buf w.pos l).map fun buf => .ok ⟨buf, w.pos + l.length⟩)

def tlsAppendExt (cap : ℕ) (w : Writer) (type : UInt16) (data : List Byte) : Step Writer :=
  if cap < w.pos + 4 + data.length ∨ 65535 < data.length then throw tnuTlsErrUnsupported
  else do
    let w ← w.put (storeBe16Tls type)
    let w ← w.put (storeBe16Tls (UInt16.ofNat data.length))
    if data.length = 0 then pure w else w.put data

/-- What the buffers hold before, and the bytes that `tls_fill_random` puts into them. -/
structure HelloEnv where
  body : Vector Byte 512
  record : Vector Byte 521
  sni : Vector Byte 256
  keyShare : Vector Byte 38
  random : Vector Byte 32
  session : Vector Byte 32
  key : Vector Byte 32

def sniData (env : HelloEnv) (host : List Byte) : Step (List Byte) :=
  if 256 < host.length + 5 then throw tnuTlsErrBadUrl
  else do
    let w ← (Writer.mk env.sni.toList 0).put (storeBe16Tls (UInt16.ofNat (host.length + 3)))
    let w ← w.put [0]
    let w ← w.put (storeBe16Tls (UInt16.ofNat host.length))
    let w ← w.put host
    pure (w.buf.take (host.length + 5))

def keyShareData (env : HelloEnv) : Step (List Byte) := do
  let w ← (Writer.mk env.keyShare.toList 0).put (storeBe16Tls 36)
  let w ← w.put (storeBe16Tls 0x001d)
  let w ← w.put (storeBe16Tls 32)
  let w ← w.put env.key.toList
  pure w.buf

def versions : List Byte := [2, 0x03, 0x04]

def groups : List Byte := [0, 2, 0, 0x1d]

def sigalgs : List Byte := [0, 8, 0x08, 0x04, 0x04, 0x03, 0x08, 0x05, 0x04, 0x01]

def alpn : List Byte := [0, 9, 8] ++ lit "http/1.1"

def helloFront (env : HelloEnv) (w : Writer) : Step Writer := do
  let w ← w.put [0x03, 0x03]
  let w ← w.put env.random.toList
  let w ← w.put [32]
  let w ← w.put env.session.toList
  let w ← w.put (storeBe16Tls 4)
  let w ← w.put (storeBe16Tls 0x1303)
  let w ← w.put (storeBe16Tls 0x1301)
  w.put [1, 0]

def helloExtensions (env : HelloEnv) (host : List Byte) (w : Writer) : Step Writer := do
  let w ← tlsAppendExt tlsClienthelloBodyMax w 0x0000 (← sniData env host)
  let w ← tlsAppendExt tlsClienthelloBodyMax w 0x002b versions
  let w ← tlsAppendExt tlsClienthelloBodyMax w 0x000a groups
  let w ← tlsAppendExt tlsClienthelloBodyMax w 0x000d sigalgs
  let w ← tlsAppendExt tlsClienthelloBodyMax w 0x0033 (← keyShareData env)
  tlsAppendExt tlsClienthelloBodyMax w 0x0010 alpn

/-- The body: the length of the extensions is written when they are there. -/
def helloBody (env : HelloEnv) (host : List Byte) : Step (List Byte) := do
  let front ← helloFront env ⟨env.body.toList, 0⟩
  let extStart := front.pos + 2
  let w ← helloExtensions env host ⟨front.buf, extStart⟩
  let patched ← (Writer.mk w.buf front.pos).put (storeBe16Tls (UInt16.ofNat (w.pos - extStart)))
  pure (patched.buf.take w.pos)

/-- The message that `tls_send_client_hello` gives to `send`. -/
def tlsClientHello (env : HelloEnv) (host : List Byte) : Step (List Byte) := do
  let body ← helloBody env host
  let w ← (Writer.mk env.record.toList 0).put [22, 0x03, 0x01]
  let w ← w.put (storeBe16Tls (UInt16.ofNat (4 + body.length)))
  let w ← w.put [1]
  let w ← w.put (storeBe24Tls (UInt32.ofNat body.length))
  let w ← w.put body
  pure (w.buf.take w.pos)

/-- `tls_send_client_hello`; `send` says how much of the message was sent, or that there was an error. -/
def tlsSendClientHello (env : HelloEnv) (send : List Byte → ℤ) (host : List Byte) : Step Unit := do
  let message ← tlsClientHello env host
  if send message = message.length then pure () else throw tnuTlsErrNetwork

/-! ### Messages whose lengths are right -/

/-- **Bytes behind a field** of `w` bytes that says how many they are. -/
def Sized (w : ℕ) (data l : List Byte) : Prop := data.length < 256 ^ w ∧ l = Bytes.be w data.length ++ data

def IsExtension (type : ℕ) (data l : List Byte) : Prop := ∃ sized, Sized 2 data sized ∧ l = Bytes.be 2 type ++ sized

def IsServerNames (host l : List Byte) : Prop := ∃ name, Sized 2 host name ∧ Sized 2 (0 :: name) l

def IsKeyShares (key l : List Byte) : Prop := ∃ share, Sized 2 key share ∧ Sized 2 (Bytes.be 2 0x001d ++ share) l

def IsProtocols (name l : List Byte) : Prop := ∃ protocol, Sized 1 name protocol ∧ Sized 2 protocol l

def AreExtensions (key host l : List Byte) : Prop :=
  ∃ names versions groups sigalgs shares protocols,
    IsServerNames host names ∧ Sized 1 [3, 4] versions ∧ Sized 2 [0, 0x1d] groups ∧
    Sized 2 [8, 4, 4, 3, 8, 5, 4, 1] sigalgs ∧ IsKeyShares key shares ∧ IsProtocols (lit "http/1.1") protocols ∧
    ∃ e₁ e₂ e₃ e₄ e₅ e₆, IsExtension 0x0000 names e₁ ∧ IsExtension 0x002b versions e₂ ∧ IsExtension 0x000a groups e₃ ∧
      IsExtension 0x000d sigalgs e₄ ∧ IsExtension 0x0033 shares e₅ ∧ IsExtension 0x0010 protocols e₆ ∧
      l = e₁ ++ e₂ ++ e₃ ++ e₄ ++ e₅ ++ e₆

def IsBody (random session key host l : List Byte) : Prop :=
  ∃ id suites methods extensions all, Sized 1 session id ∧ Sized 2 (Bytes.be 2 0x1303 ++ Bytes.be 2 0x1301) suites ∧
    Sized 1 [0] methods ∧ AreExtensions key host extensions ∧ Sized 2 extensions all ∧
    l = [3, 3] ++ random ++ id ++ suites ++ methods ++ all

/-- **A ClientHello whose lengths are right**: a record that holds a handshake message that holds a body. -/
def IsClientHello (env : HelloEnv) (host message : List Byte) : Prop :=
  ∃ body handshake record, IsBody env.random.toList env.session.toList env.key.toList host body ∧
    Sized 3 body handshake ∧ Sized 2 (1 :: handshake) record ∧ message = [22, 3, 1] ++ record

/-! ### Writing -/

variable {env : HelloEnv} {host text data l : List Byte} {w : Writer} {size : ℕ}

theorem storeBe16Tls_ofNat {n : ℕ} (h : n < 65536) : storeBe16Tls (UInt16.ofNat n) = Bytes.be 2 n := by
  have hn : (UInt16.ofNat n).toNat = n := by
    rw [UInt16.toNat_ofNat']
    exact Nat.mod_eq_of_lt h
  rw [storeBe16Tls, Bytes.store16_eq, hn]

theorem storeBe24Tls_ofNat {n : ℕ} (h : n < 2 ^ 24) : storeBe24Tls (UInt32.ofNat n) = Bytes.be 3 n := by
  have hn : (UInt32.ofNat n).toNat = n := by
    rw [UInt32.toNat_ofNat']
    exact Nat.mod_eq_of_lt (by omega)
  rw [storeBe24Tls, Bytes.store24_eq, hn]

def Wrote (size : ℕ) (text : List Byte) (w : Writer) : Prop := Buffer.Holds size text w.buf w.pos

theorem wrote_nil (buf : List Byte) : Wrote buf.length [] ⟨buf, 0⟩ := Buffer.Holds.nil buf

theorem put_spec (h : Wrote size text w) (l : List Byte) (hroom : text.length + l.length ≤ size) :
    ∃ w', w.put l = pure w' ∧ Wrote size (text ++ l) w' := by
  obtain ⟨buf, hcopy, hholds⟩ := Buffer.Holds.copy h l hroom
  exact ⟨⟨buf, w.pos + l.length⟩, by rw [Writer.put, hcopy]; rfl, hholds⟩

/-- **An extension** is written behind what has been written, when there is room for it. -/
theorem tlsAppendExt_spec (h : Wrote size text w) (type : UInt16) (data : List Byte) (hdata : data.length < 65536)
    (hroom : text.length + (4 + data.length) ≤ size) :
    ∃ w', tlsAppendExt size w type data = pure w' ∧
      Wrote size (text ++ (Bytes.be 2 type.toNat ++ (Bytes.be 2 data.length ++ data))) w' := by
  have hpos : w.pos = text.length := h.pos_eq
  have hok : ¬(size < w.pos + 4 + data.length ∨ 65535 < data.length) := by omega
  have htype : storeBe16Tls type = Bytes.be 2 type.toNat := Bytes.store16_eq type
  have hlen : storeBe16Tls (UInt16.ofNat data.length) = Bytes.be 2 data.length := storeBe16Tls_ofNat hdata
  obtain ⟨w₁, hput₁, h₁⟩ := put_spec h (Bytes.be 2 type.toNat) (by rw [Bytes.length_be]; omega)
  obtain ⟨w₂, hput₂, h₂⟩ := put_spec h₁ (Bytes.be 2 data.length) (by simp only [List.length_append, Bytes.length_be]; omega)
  obtain ⟨w₃, hput₃, h₃⟩ := put_spec h₂ data (by simp only [List.length_append, Bytes.length_be]; omega)
  rw [tlsAppendExt, if_neg hok, htype, hlen, hput₁, pure_bind, hput₂, pure_bind, ← List.append_assoc,
    ← List.append_assoc]
  split_ifs with hempty
  · obtain rfl := List.eq_nil_of_length_eq_zero hempty
    exact ⟨w₂, rfl, by rwa [List.append_nil]⟩
  · exact ⟨w₃, hput₃, h₃⟩

theorem puts_spec (pieces : List (List Byte)) (h : Wrote size text w)
    (hroom : text.length + pieces.flatten.length ≤ size) :
    ∃ w', pieces.foldlM Writer.put w = pure w' ∧ Wrote size (text ++ pieces.flatten) w' := by
  induction pieces generalizing text w with
  | nil => exact ⟨w, rfl, by rwa [List.flatten_nil, List.append_nil]⟩
  | cons l pieces ih =>
    rw [List.flatten_cons, List.length_append] at hroom
    obtain ⟨w₁, hput, h₁⟩ := put_spec h l (by omega)
    obtain ⟨w₂, hputs, h₂⟩ := ih h₁ (by rw [List.length_append]; omega)
    refine ⟨w₂, by rw [List.foldlM_cons, hput, pure_bind, hputs], ?_⟩
    rwa [List.flatten_cons, ← List.append_assoc]

/-! ### The parts of the message -/

theorem sized (w : ℕ) (data : List Byte) (h : data.length < 256 ^ w) :
    Sized w data (Bytes.be w data.length ++ data) := ⟨h, rfl⟩

def serverNames (host : List Byte) : List Byte :=
  Bytes.be 2 (host.length + 3) ++ (0 :: (Bytes.be 2 host.length ++ host))

theorem length_serverNames (host : List Byte) : (serverNames host).length = host.length + 5 := by
  simp only [serverNames, List.length_append, List.length_cons, Bytes.length_be]
  omega

theorem isServerNames (h : host.length ≤ 251) : IsServerNames host (serverNames host) := by
  have hlen : (0 :: (Bytes.be 2 host.length ++ host)).length = host.length + 3 := by
    simp only [List.length_append, List.length_cons, Bytes.length_be]
    omega
  refine ⟨_, sized 2 host (by omega), by omega, ?_⟩
  rw [serverNames, hlen]

theorem sniData_spec (env : HelloEnv) (h : host.length ≤ 251) : sniData env host = pure (serverNames host) := by
  obtain ⟨w, hputs, hwrote⟩ := puts_spec
    [Bytes.be 2 (host.length + 3), [0], Bytes.be 2 host.length, host] (wrote_nil env.sni.toList) (by
      simp
      omega)
  have hrun : sniData env host = ([Bytes.be 2 (host.length + 3), [0], Bytes.be 2 host.length, host].foldlM
      Writer.put ⟨env.sni.toList, 0⟩ >>= fun w => pure (w.buf.take (host.length + 5))) := by
    rw [sniData, if_neg (by omega), storeBe16Tls_ofNat (by omega), storeBe16Tls_ofNat (by omega)]
    simp only [List.foldlM_cons, List.foldlM_nil, bind_assoc, pure_bind]
  have hpos : w.pos = host.length + 5 := by
    rw [hwrote.pos_eq]
    simp
    omega
  rw [hrun, hputs, pure_bind, ← hpos, hwrote.take_eq]
  simp [serverNames]

def keyShares (env : HelloEnv) : List Byte :=
  Bytes.be 2 36 ++ (Bytes.be 2 0x001d ++ (Bytes.be 2 32 ++ env.key.toList))

theorem length_keyShares (env : HelloEnv) : (keyShares env).length = 38 := by simp [keyShares]

theorem isKeyShares (env : HelloEnv) : IsKeyShares env.key.toList (keyShares env) := by
  refine ⟨_, sized 2 env.key.toList (by simp), by simp, ?_⟩
  simp [keyShares]

theorem keyShareData_spec (env : HelloEnv) : keyShareData env = pure (keyShares env) := by
  obtain ⟨w, hputs, hwrote⟩ := puts_spec
    [Bytes.be 2 36, Bytes.be 2 0x001d, Bytes.be 2 32, env.key.toList] (wrote_nil env.keyShare.toList) (by simp)
  have hrun : keyShareData env = ([Bytes.be 2 36, Bytes.be 2 0x001d, Bytes.be 2 32, env.key.toList].foldlM
      Writer.put ⟨env.keyShare.toList, 0⟩ >>= fun w => pure w.buf) := by
    simp only [keyShareData, List.foldlM_cons, List.foldlM_nil, bind_assoc, pure_bind]
    rfl
  -- the buffer is full
  have htake := hwrote.take_eq
  rw [List.take_of_length_le (by rw [hwrote.length_eq, hwrote.pos_eq]; simp)] at htake
  rw [hrun, hputs, pure_bind, htake]
  simp [keyShares]

def front (env : HelloEnv) : List Byte :=
  [[3, 3], env.random.toList, [32], env.session.toList, Bytes.be 2 4, Bytes.be 2 0x1303, Bytes.be 2 0x1301,
    [1, 0]].flatten

theorem length_front (env : HelloEnv) : (front env).length = 75 := by simp [front]

theorem helloFront_spec (env : HelloEnv) :
    ∃ w, helloFront env ⟨env.body.toList, 0⟩ = pure w ∧ Wrote 512 (front env) w := by
  have hempty : Wrote 512 [] ⟨env.body.toList, 0⟩ := by
    simpa using wrote_nil env.body.toList
  obtain ⟨w, hputs, hwrote⟩ := puts_spec [[3, 3], env.random.toList, [32], env.session.toList, Bytes.be 2 4,
    Bytes.be 2 0x1303, Bytes.be 2 0x1301, [1, 0]] hempty (by simp)
  refine ⟨w, ?_, hwrote⟩
  rw [← hputs]
  simp only [helloFront, List.foldlM_cons, List.foldlM_nil, bind_pure]
  rfl

def extension (type : ℕ) (data : List Byte) : List Byte := Bytes.be 2 type ++ (Bytes.be 2 data.length ++ data)

@[simp] theorem length_extension (type : ℕ) (data : List Byte) : (extension type data).length = 4 + data.length := by
  simp only [extension, List.length_append, Bytes.length_be]
  omega

theorem isExtension (type : ℕ) (h : data.length < 65536) : IsExtension type data (extension type data) :=
  ⟨_, sized 2 data h, rfl⟩

def extensions (env : HelloEnv) (host : List Byte) : List Byte :=
  extension 0x0000 (serverNames host) ++ extension 0x002b versions ++ extension 0x000a groups ++
    extension 0x000d sigalgs ++ extension 0x0033 (keyShares env) ++ extension 0x0010 alpn

theorem length_extensions (env : HelloEnv) (host : List Byte) : (extensions env host).length = host.length + 95 := by
  have hconst : versions.length = 3 ∧ groups.length = 4 ∧ sigalgs.length = 10 ∧ alpn.length = 11 := by decide
  obtain ⟨hversions, hgroups, hsigalgs, halpn⟩ := hconst
  simp only [extensions, List.length_append, length_extension, length_serverNames, length_keyShares, hversions,
    hgroups, hsigalgs, halpn]
  omega

theorem areExtensions (env : HelloEnv) (h : host.length ≤ 251) :
    AreExtensions env.key.toList host (extensions env host) :=
  ⟨serverNames host, versions, groups, sigalgs, keyShares env, alpn, isServerNames h, ⟨by decide, by decide⟩,
    ⟨by decide, by decide⟩, ⟨by decide, by decide⟩, isKeyShares env,
    ⟨_, sized 1 (lit "http/1.1") (by decide), by decide, by decide⟩, _, _, _, _, _, _,
    isExtension _ (by rw [length_serverNames]; omega), isExtension _ (by decide), isExtension _ (by decide),
    isExtension _ (by decide), isExtension _ (by rw [length_keyShares]; omega), isExtension _ (by decide), rfl⟩

theorem helloExtensions_spec (env : HelloEnv) (h : host.length ≤ 251) (hw : Wrote 512 text w)
    (hroom : text.length + (host.length + 95) ≤ 512) :
    ∃ w', helloExtensions env host w = pure w' ∧ Wrote 512 (text ++ extensions env host) w' := by
  have hnames := length_serverNames host
  have hshares := length_keyShares env
  have hversions : versions.length = 3 := rfl
  have hgroups : groups.length = 4 := rfl
  have hsigalgs : sigalgs.length = 10 := rfl
  have halpn : alpn.length = 11 := rfl
  obtain ⟨w₁, h₁, hw₁⟩ := tlsAppendExt_spec hw 0x0000 (serverNames host) (by omega) (by omega)
  obtain ⟨w₂, h₂, hw₂⟩ := tlsAppendExt_spec hw₁ 0x002b versions (by omega) (by simp; omega)
  obtain ⟨w₃, h₃, hw₃⟩ := tlsAppendExt_spec hw₂ 0x000a groups (by omega) (by simp; omega)
  obtain ⟨w₄, h₄, hw₄⟩ := tlsAppendExt_spec hw₃ 0x000d sigalgs (by omega) (by simp; omega)
  obtain ⟨w₅, h₅, hw₅⟩ := tlsAppendExt_spec hw₄ 0x0033 (keyShares env) (by omega) (by simp; omega)
  obtain ⟨w₆, h₆, hw₆⟩ := tlsAppendExt_spec hw₅ 0x0010 alpn (by omega) (by simp; omega)
  refine ⟨w₆, ?_, ?_⟩
  · simp only [helloExtensions, tlsClienthelloBodyMax, sniData_spec env h, keyShareData_spec, pure_bind, h₁, h₂, h₃, h₄,
      h₅, h₆]
  · simpa only [extensions, extension, List.append_assoc, UInt16.reduceToNat, UInt16.toNat_zero] using hw₆

def body (env : HelloEnv) (host : List Byte) : List Byte :=
  front env ++ (Bytes.be 2 (extensions env host).length ++ extensions env host)

theorem length_body (env : HelloEnv) (host : List Byte) : (body env host).length = host.length + 172 := by
  simp only [body, List.length_append, length_front, length_extensions, Bytes.length_be]
  omega

theorem isBody (env : HelloEnv) (h : host.length ≤ 251) :
    IsBody env.random.toList env.session.toList env.key.toList host (body env host) := by
  have hall : (extensions env host).length < 256 ^ 2 := by
    rw [length_extensions]
    omega
  refine ⟨_, _, _, _, _, sized 1 env.session.toList (by simp), sized 2 _ (by simp), sized 1 [0] (by simp),
    areExtensions env h, sized 2 _ hall, ?_⟩
  have hsession : Bytes.be 1 env.session.toList.length = [32] := by
    rw [Vector.length_toList]
    rfl
  have hsuites : Bytes.be 2 (Bytes.be 2 0x1303 ++ Bytes.be 2 0x1301).length = Bytes.be 2 4 := rfl
  have hmethods : Bytes.be 1 [(0 : Byte)].length ++ [0] = [1, 0] := rfl
  rw [body, front, hsession, hsuites, hmethods]
  simp

/-- **The body** is written, and the length of its extensions where it belongs. -/
theorem helloBody_spec (env : HelloEnv) (h : host.length ≤ 251) : helloBody env host = pure (body env host) := by
  obtain ⟨w₁, hfront, hw₁⟩ := helloFront_spec env
  have hlen := length_front env
  have hpos : w₁.pos = 75 := hw₁.pos_eq.trans hlen
  -- the length of the extensions has its place, and is not there yet
  obtain ⟨old, hold, hskip⟩ := Buffer.Holds.skip hw₁ 2 (by omega)
  obtain ⟨w₂, hexts, hw₂⟩ := helloExtensions_spec env h (w := ⟨w₁.buf, w₁.pos + 2⟩) hskip (by
    rw [List.length_append]
    omega)
  rw [List.append_assoc] at hw₂
  have hend : w₂.pos - (w₁.pos + 2) = (extensions env host).length := by
    rw [hw₂.pos_eq, hpos, List.length_append, List.length_append, hold, hlen]
    omega
  have hfield : storeBe16Tls (UInt16.ofNat (w₂.pos - (w₁.pos + 2))) = Bytes.be 2 (extensions env host).length := by
    rw [hend]
    exact storeBe16Tls_ofNat (by rw [length_extensions]; omega)
  obtain ⟨buf, hpatch, hw₃⟩ := Buffer.Holds.patch hw₂ (Bytes.be 2 (extensions env host).length) (by
    rw [hold, Bytes.length_be])
  rw [← hw₁.pos_eq] at hpatch
  have hput : (Writer.mk w₂.buf w₁.pos).put (Bytes.be 2 (extensions env host).length) =
      pure ⟨buf, w₁.pos + (Bytes.be 2 (extensions env host).length).length⟩ := by
    rw [Writer.put, hpatch]
    rfl
  have htake : buf.take w₂.pos = body env host := hw₃.take_eq
  simp only [helloBody, hfront, pure_bind, hexts, hfield, hput, htake]

/-! ### The message -/

def helloRecord (env : HelloEnv) (host : List Byte) : List Byte :=
  [22, 3, 1] ++ (Bytes.be 2 (4 + (body env host).length) ++ (1 :: (Bytes.be 3 (body env host).length ++ body env host)))

theorem isClientHello (env : HelloEnv) (h : host.length ≤ 251) : IsClientHello env host (helloRecord env host) := by
  have hlen := length_body env host
  have hrecord : (1 :: (Bytes.be 3 (body env host).length ++ body env host)).length = 4 + (body env host).length := by
    simp only [List.length_cons, List.length_append, Bytes.length_be]
    omega
  refine ⟨_, _, _, isBody env h, sized 3 _ (by omega), sized 2 _ (by omega), ?_⟩
  rw [helloRecord, hrecord]

theorem tlsClientHello_of_le (env : HelloEnv) (h : host.length ≤ 251) :
    tlsClientHello env host = pure (helloRecord env host) := by
  have hlen := length_body env host
  have hempty : Wrote 521 [] ⟨env.record.toList, 0⟩ := by
    simpa using wrote_nil env.record.toList
  obtain ⟨w, hputs, hwrote⟩ := puts_spec [[22, 3, 1], Bytes.be 2 (4 + (body env host).length), [1],
    Bytes.be 3 (body env host).length, body env host] hempty (by simp; omega)
  have hrun : tlsClientHello env host = ([[22, 3, 1], Bytes.be 2 (4 + (body env host).length), [1],
      Bytes.be 3 (body env host).length, body env host].foldlM Writer.put ⟨env.record.toList, 0⟩ >>= fun w =>
        pure (w.buf.take w.pos)) := by
    rw [tlsClientHello, helloBody_spec env h, pure_bind, storeBe16Tls_ofNat (by omega), storeBe24Tls_ofNat (by omega)]
    simp only [List.foldlM_cons, List.foldlM_nil, bind_assoc, pure_bind]
  rw [hrun, hputs, pure_bind, hwrote.take_eq]
  simp [helloRecord]

theorem tlsClientHello_of_lt (env : HelloEnv) (h : 251 < host.length) :
    tlsClientHello env host = throw tnuTlsErrBadUrl := by
  obtain ⟨w, hfront, -⟩ := helloFront_spec env
  have hnames : sniData env host = throw tnuTlsErrBadUrl := if_pos (by omega)
  rw [tlsClientHello, helloBody, hfront, pure_bind]
  dsimp only
  rw [helloExtensions, hnames]
  rfl

/-- **Every message that is built and sent is one whose lengths are right**; one is built for every host that has
room in its extension, another host is refused, and no write goes past a buffer. -/
theorem tlsSendClientHello_spec (env : HelloEnv) (send : List Byte → ℤ) (host : List Byte) :
    (host.length ≤ 251 ∧ ∃ message, tlsClientHello env host = pure message ∧ IsClientHello env host message ∧
      tlsSendClientHello env send host =
        if send message = message.length then pure () else throw tnuTlsErrNetwork) ∨
    (251 < host.length ∧ tlsSendClientHello env send host = throw tnuTlsErrBadUrl) := by
  rcases Nat.lt_or_ge 251 host.length with h | h
  · exact .inr ⟨h, by rw [tlsSendClientHello, tlsClientHello_of_lt env h]; rfl⟩
  · refine .inl ⟨h, helloRecord env host, tlsClientHello_of_le env h, isClientHello env h, ?_⟩
    rw [tlsSendClientHello, tlsClientHello_of_le env h, pure_bind]

end Tnu.Tls
