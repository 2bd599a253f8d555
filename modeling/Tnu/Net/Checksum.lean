/-
**Packets and their checksums.**

`kernel/drivers/net/net.c` builds two kinds of packets: echo requests and UDP datagrams.  The checksums of the
IPv4 header and of the echo request are computed over bytes in which the field of the checksum is still zero, and
stored there afterwards.  The checksum of a datagram is not computed: its field is zero, which means that there is
none.

Main results:

* `inetChecksum_store` — **a message verifies with the checksum that was computed over it**;
* `packets_verify` — headers and echo requests verify, and datagrams have no checksum.
-/

import Tnu.CString
import Tnu.Lib.OnesComplement

set_option autoImplicit false

namespace Tnu.Net

/-! ### The checksum -/

/-- The loop of `inet_checksum` over the words of a message; a byte that is left over is the upper half of one. -/
def checksumLoop : UInt32 → List Byte → UInt32
  | sum, a :: b :: p => checksumLoop (sum + (a.toUInt32 <<< 8 ||| b.toUInt32)) p
  | sum, [a] => sum + a.toUInt32 <<< 8
  | sum, [] => sum

/-- The loop that adds the upper half to the lower one, for so many rounds. -/
def foldCarries : ℕ → UInt32 → UInt32
  | 0, sum => sum
  | rounds + 1, sum => if sum >>> 16 = 0 then sum else foldCarries rounds ((sum &&& (0xffff : UInt32)) + (sum >>> 16))

/-- `inet_checksum`; there are two rounds of carrying at most. -/
def inetChecksum (data : List Byte) : UInt16 := ~~~(foldCarries 2 (checksumLoop 0 data)).toUInt16

/-! ### Packets -/

def put16 (value : UInt16) : List Byte := [(value >>> 8).toUInt8, value.toUInt8]

def put32 (value : UInt32) : List Byte :=
  [(value >>> 24).toUInt8, (value >>> 16).toUInt8, (value >>> 8).toUInt8, value.toUInt8]

abbrev Mac := List.Vector Byte 6

/-- `build_eth`, for a packet of IPv4. -/
def buildEth (dst src : Mac) : List Byte := dst.toList ++ src.toList ++ put16 0x0800

/-- The header of a packet: the bytes in front of the checksum, it, and those behind. -/
def ipHeader (ipLen id : UInt16) (proto : Byte) (source target : UInt32) : List Byte :=
  let front := [0x45, 0] ++ put16 ipLen ++ put16 id ++ put16 0 ++ [64, proto]
  let back := put32 source ++ put32 target
  front ++ put16 (inetChecksum (front ++ put16 0 ++ back)) ++ back

def icmpEcho (id sequence : UInt16) : List Byte :=
  let payload := (List.range 32).map fun i => UInt8.ofNat (65 + i % 26)
  let back := put16 id ++ put16 sequence ++ payload
  [8, 0] ++ put16 (inetChecksum ([8, 0] ++ put16 0 ++ back)) ++ back

/-- The frame of `send_icmp_echo`. -/
def sendIcmpEcho (mac dstMac : Mac) (ipv4 targetIp : UInt32) (id sequence : UInt16) : List Byte :=
  buildEth dstMac mac ++ ipHeader (20 + 8 + 32) sequence 1 ipv4 targetIp ++ icmpEcho id sequence

def udpDatagram (srcPort dstPort : UInt16) (payload : List Byte) : List Byte :=
  put16 srcPort ++ put16 dstPort ++ put16 (UInt16.ofNat (8 + payload.length)) ++ put16 0 ++ payload

/-- The frame of `send_udp4_from`; there is none without a payload, or with one that is too long. -/
def sendUdp4From (mac dstMac : Mac) (sourceIp targetIp : UInt32) (srcPort dstPort : UInt16)
    (payload : Option (List Byte)) : Option (List Byte) :=
  payload.bind fun payload =>
    if 512 < payload.length then none
    else
      some (buildEth dstMac mac ++ ipHeader (UInt16.ofNat (20 + 8 + payload.length)) srcPort 17 sourceIp targetIp ++
        udpDatagram srcPort dstPort payload)

/-! ### What checksums should be -/

def headerOf (frame : List Byte) : List Byte := (frame.drop 14).take 20

def bodyOf (frame : List Byte) : List Byte := frame.drop 34

/-- The checksum of a message with the stored checksum in it comes out as zero: the sum is all ones. -/
def Verifies (message : List Byte) : Prop := inetChecksum message = 0

def pseudoHeader (source target : UInt32) (proto : Byte) (body : List Byte) : List Byte :=
  put32 source ++ put32 target ++ [0, proto] ++ put16 (UInt16.ofNat body.length)

/-- **Every packet verifies.** -/
structure PacketLaw : Prop where
  icmp : ∀ (mac dstMac : Mac) (ipv4 targetIp : UInt32) (id sequence : UInt16),
    Verifies (headerOf (sendIcmpEcho mac dstMac ipv4 targetIp id sequence)) ∧
      Verifies (bodyOf (sendIcmpEcho mac dstMac ipv4 targetIp id sequence))
  udp : ∀ (mac dstMac : Mac) (sourceIp targetIp : UInt32) (srcPort dstPort : UInt16) (payload : Option (List Byte)),
    ∀ frame ∈ sendUdp4From mac dstMac sourceIp targetIp srcPort dstPort payload,
      Verifies (headerOf frame) ∧ Verifies (pseudoHeader sourceIp targetIp 17 (bodyOf frame) ++ bodyOf frame)

/-! ### What the checksum is -/

def wordSum : List Byte → ℕ
  | a :: b :: p => a.toNat * 256 + b.toNat + wordSum p
  | [a] => a.toNat * 256
  | [] => 0

variable {front back p : List Byte} {sum : UInt32}

theorem toNat_word (a b : Byte) : (a.toUInt32 <<< 8 ||| b.toUInt32).toNat = a.toNat * 256 + b.toNat := by
  have ha := a.toNat_lt
  have hb := b.toNat_lt
  have hshift : (a.toUInt32 <<< 8).toNat = a.toNat <<< 8 := by
    have h := UInt32.toNat_shiftLeft a.toUInt32 8
    rw [h, UInt8.toNat_toUInt32, Nat.mod_eq_of_lt]
    · rfl
    · change a.toNat <<< 8 < 2 ^ 32
      rw [Nat.shiftLeft_eq]
      omega
  rw [UInt32.toNat_or, hshift, UInt8.toNat_toUInt32, ← Nat.shiftLeft_add_eq_or_of_lt hb, Nat.shiftLeft_eq]

theorem toNat_checksumLoop (sum : UInt32) (p : List Byte) (h : sum.toNat + wordSum p < 2 ^ 32) :
    (checksumLoop sum p).toNat = sum.toNat + wordSum p := by
  fun_induction wordSum p generalizing sum with
  | case1 a b p ih =>
    have hadd : (sum + (a.toUInt32 <<< 8 ||| b.toUInt32)).toNat = sum.toNat + (a.toNat * 256 + b.toNat) := by
      rw [UInt32.toNat_add, toNat_word, Nat.mod_eq_of_lt (lt_of_le_of_lt (by omega) h)]
    rw [checksumLoop, ih _ (by omega), hadd]
    omega
  | case2 a =>
    have hword := toNat_word a 0
    have hzero : a.toUInt32 <<< 8 ||| (0 : Byte).toUInt32 = a.toUInt32 <<< 8 := UInt32.or_zero
    rw [hzero] at hword
    rw [checksumLoop, UInt32.toNat_add, hword, Nat.mod_eq_of_lt]
    · simp
    · simpa using h
  | case3 => rfl

theorem wordSum_le (p : List Byte) : wordSum p ≤ 65535 * ((p.length + 1) / 2) := by
  fun_induction wordSum p with
  | case1 a b p ih =>
    have ha := a.toNat_lt
    have hb := b.toNat_lt
    have hlen : ((a :: b :: p).length + 1) / 2 = (p.length + 1) / 2 + 1 := by
      simp only [List.length_cons]
      omega
    rw [hlen, Nat.mul_add]
    omega
  | case2 a =>
    have ha := a.toNat_lt
    simp
    omega
  | case3 => exact Nat.zero_le _

theorem wordSum_append (h : front.length % 2 = 0) (p : List Byte) : wordSum (front ++ p) = wordSum front + wordSum p := by
  fun_induction wordSum front with
  | case1 a b front ih =>
    have hfront : front.length % 2 = 0 := by
      simp only [List.length_cons] at h
      omega
    rw [List.cons_append, List.cons_append, wordSum, ih hfront]
    omega
  | case2 a => simp at h
  | case3 => simp

theorem toNat_carry (sum : UInt32) :
    ((sum &&& (0xffff : UInt32)) + (sum >>> 16)).toNat = sum.toNat % 65536 + sum.toNat / 65536 := by
  have hlt := sum.toNat_lt
  have hlow : (sum &&& (0xffff : UInt32)).toNat = sum.toNat % 65536 := by
    have hff : (0xffff : UInt32).toNat = 2 ^ 16 - 1 := rfl
    rw [UInt32.toNat_and, hff, Nat.and_two_pow_sub_one_eq_mod]
  have hhigh : (sum >>> 16).toNat = sum.toNat / 65536 := by
    have h := UInt32.toNat_shiftRight sum 16
    rw [h]
    exact Nat.shiftRight_eq_div_pow _ 16
  rw [UInt32.toNat_add, hlow, hhigh]
  omega

theorem shiftRight_eq_zero_iff (sum : UInt32) : sum >>> 16 = 0 ↔ sum.toNat < 65536 := by
  have hhigh : (sum >>> 16).toNat = sum.toNat / 65536 := by
    have h := UInt32.toNat_shiftRight sum 16
    rw [h]
    exact Nat.shiftRight_eq_div_pow _ 16
  rw [← UInt32.toNat_inj, hhigh]
  simp

/-- **Two rounds carry everything.** -/
theorem toNat_foldCarries (sum : UInt32) : (foldCarries 2 sum).toNat = OnesComplement.residue 65535 sum.toNat := by
  have hlt := sum.toNat_lt
  have hround := OnesComplement.residue_carry 65535 sum.toNat
  have hcarried := toNat_carry sum
  have hsecond := toNat_carry ((sum &&& (0xffff : UInt32)) + (sum >>> 16))
  rw [hcarried] at hsecond
  rw [foldCarries]
  split_ifs with hfirst
  · rw [shiftRight_eq_zero_iff] at hfirst
    exact (OnesComplement.residue_of_le (by omega)).symm
  rw [foldCarries]
  split_ifs with hnext
  · rw [shiftRight_eq_zero_iff, hcarried] at hnext
    rw [hcarried, ← hround, OnesComplement.residue_of_le (by omega)]
  · have hround' := OnesComplement.residue_carry 65535 (sum.toNat % 65536 + sum.toNat / 65536)
    rw [foldCarries, hsecond, ← hround, ← hround', OnesComplement.residue_of_le (by omega)]

/-- **The checksum is the complement of the sum in ones' complement**, for every message that a packet can hold. -/
theorem toNat_inetChecksum (h : p.length < 2 ^ 16) :
    (inetChecksum p).toNat = 65535 - OnesComplement.residue 65535 (wordSum p) := by
  have hsum := wordSum_le p
  have hloop : (checksumLoop 0 p).toNat = wordSum p := by
    have h := toNat_checksumLoop 0 p (by
      change 0 + wordSum p < 2 ^ 32
      omega)
    exact h.trans (Nat.zero_add _)
  have hle := OnesComplement.residue_le (m := 65535) (by decide) (wordSum p)
  have hfold := toNat_foldCarries (checksumLoop 0 p)
  rw [hloop] at hfold
  rw [inetChecksum, UInt16.toNat_not, UInt32.toNat_toUInt16, hfold]
  norm_num
  omega

theorem wordSum_put16 (c : UInt16) (p : List Byte) : wordSum (put16 c ++ p) = c.toNat + wordSum p := by
  have hlt := c.toNat_lt
  have hhigh : (c >>> 8).toUInt8.toNat = c.toNat / 256 := by
    have h := UInt16.toNat_shiftRight c 8
    rw [UInt16.toNat_toUInt8, h]
    change c.toNat >>> 8 % 256 = _
    rw [Nat.shiftRight_eq_div_pow]
    omega
  have hlow : c.toUInt8.toNat = c.toNat % 256 := UInt16.toNat_toUInt8 c
  rw [put16, List.cons_append, List.cons_append, List.nil_append, wordSum, hhigh, hlow]
  omega

/-- **A message verifies with the checksum that was computed over it**, whatever its length is. -/
theorem inetChecksum_store (heven : front.length % 2 = 0) (hlen : front.length + 2 + back.length < 2 ^ 16) :
    Verifies (front ++ put16 (inetChecksum (front ++ put16 0 ++ back)) ++ back) := by
  have hlength : ∀ c : UInt16, (front ++ put16 c ++ back).length < 2 ^ 16 := fun c => by
    simp only [List.length_append, put16, List.length_cons, List.length_nil]
    omega
  have hwords : ∀ c : UInt16, wordSum (front ++ put16 c ++ back) = wordSum front + wordSum back + c.toNat := fun c => by
    rw [List.append_assoc, wordSum_append heven, wordSum_put16]
    omega
  refine UInt16.toNat_inj.1 ?_
  have hstored := toNat_inetChecksum (hlength 0)
  rw [hwords] at hstored
  rw [toNat_inetChecksum (hlength _), hwords, hstored]
  have hcomplete := OnesComplement.residue_add_complement (m := 65535) (by decide) (wordSum front + wordSum back)
  change 65535 - OnesComplement.residue 65535 (wordSum front + wordSum back +
    (65535 - OnesComplement.residue 65535 (wordSum front + wordSum back + 0))) = 0
  rw [Nat.add_zero, hcomplete]

/-! ### The packets -/

@[simp] theorem length_put16 (c : UInt16) : (put16 c).length = 2 := rfl

@[simp] theorem length_put32 (c : UInt32) : (put32 c).length = 4 := rfl

@[simp] theorem length_buildEth (dst src : Mac) : (buildEth dst src).length = 14 := by simp [buildEth]

@[simp] theorem length_ipHeader (ipLen id : UInt16) (proto : Byte) (source target : UInt32) :
    (ipHeader ipLen id proto source target).length = 20 := by simp [ipHeader]

theorem verifies_ipHeader (ipLen id : UInt16) (proto : Byte) (source target : UInt32) :
    Verifies (ipHeader ipLen id proto source target) := inetChecksum_store (by simp) (by simp)

theorem verifies_icmpEcho (id sequence : UInt16) : Verifies (icmpEcho id sequence) :=
  inetChecksum_store (by simp) (by simp)

theorem parts_frame (dst src : Mac) (ipLen id : UInt16) (proto : Byte) (source target : UInt32) (body : List Byte) :
    headerOf (buildEth dst src ++ ipHeader ipLen id proto source target ++ body) =
        ipHeader ipLen id proto source target ∧
      bodyOf (buildEth dst src ++ ipHeader ipLen id proto source target ++ body) = body := by
  constructor
  · rw [headerOf, List.append_assoc, List.drop_left' (length_buildEth dst src), List.take_left' (length_ipHeader ..)]
  · rw [bodyOf, List.drop_left' (by simp)]

/-- **Headers and echo requests verify; a datagram has no checksum.** -/
theorem packets_verify (mac dstMac : Mac) (sourceIp targetIp : UInt32) (id sequence srcPort dstPort : UInt16)
    (payload : Option (List Byte)) :
    (Verifies (headerOf (sendIcmpEcho mac dstMac sourceIp targetIp id sequence)) ∧
      Verifies (bodyOf (sendIcmpEcho mac dstMac sourceIp targetIp id sequence))) ∧
    ∀ frame ∈ sendUdp4From mac dstMac sourceIp targetIp srcPort dstPort payload,
      Verifies (headerOf frame) ∧ ((bodyOf frame).drop 6).take 2 = put16 0 := by
  constructor
  · obtain ⟨hheader, hbody⟩ := parts_frame dstMac mac (20 + 8 + 32) sequence 1 sourceIp targetIp
      (icmpEcho id sequence)
    rw [sendIcmpEcho, hheader, hbody]
    exact ⟨verifies_ipHeader .., verifies_icmpEcho ..⟩
  · intro frame hframe
    obtain ⟨payload, rfl, hsome⟩ := Option.bind_eq_some_iff.1 hframe
    split_ifs at hsome
    obtain ⟨hheader, hbody⟩ := parts_frame dstMac mac (UInt16.ofNat (20 + 8 + payload.length)) srcPort 17 sourceIp
      targetIp (udpDatagram srcPort dstPort payload)
    rw [← Option.some.inj hsome, hheader, hbody]
    refine ⟨verifies_ipHeader .., ?_⟩
    rfl

/-- A datagram without a payload, from port 68 to port 67. -/
theorem packets_verify_empty :
    ∃ frame, sendUdp4From ⟨List.replicate 6 1, rfl⟩ ⟨List.replicate 6 255, rfl⟩ 0 0xffffffff 68 67 (some []) = some frame ∧
      Verifies (headerOf frame) :=
  ⟨_, rfl, ((packets_verify ⟨List.replicate 6 1, rfl⟩ ⟨List.replicate 6 255, rfl⟩ 0 0xffffffff 1 1 68 67 (some [])).2 _
    rfl).1⟩

/-- That datagram does not verify: its checksum is zero, and the sum is not all ones. -/
theorem not_packetLaw : ¬ PacketLaw := by
  intro h
  have hudp := (h.udp ⟨List.replicate 6 1, rfl⟩ ⟨List.replicate 6 255, rfl⟩ 0 0xffffffff 68 67 (some []) _ rfl).2
  rw [Verifies] at hudp
  revert hudp
  decide +kernel

end Tnu.Net
