/-
**Asking for an address.**

`net_iface_dhcp` of `kernel/drivers/net/net.c` clears the address, the gateway and the name server of an interface,
sends a request, waits for an offer, asks for what was offered and waits for the acknowledgement.  Only then are the
settings stored.  When a message cannot be sent or nothing comes back, the interface stays without an address.

Main definitions:

* `processFrameCtx`, `netIfaceDhcp` — a frame, and the exchange.

Main results:

* `optionLoop_spec` — **options are read inside the message**, by their own lengths;
* `netIfaceDhcp_spec` — **the settings are those of the acknowledgement, or there are none**.
-/

import Tnu.Net.Checksum
import Tnu.Net.Reads

set_option autoImplicit false

namespace Tnu.Net

/-! ### Options -/

/-- The values that the options of a message are read into. -/
structure DhcpOptions where
  msgType : Byte
  serverId : UInt32
  netmask : UInt32
  gateway : UInt32
  dnsServer : UInt32

/-- The `switch` of `process_dhcp`, for an option of `optLen` bytes at an offset. -/
def takeOption (payload : List Byte) (off : ℕ) (opt : Byte) (optLen : ℕ) (s : DhcpOptions) : Option DhcpOptions :=
  if opt = 1 then if 4 ≤ optLen then (be32 payload off).map fun v => { s with netmask := v } else some s
  else if opt = 3 then if 4 ≤ optLen then (be32 payload off).map fun v => { s with gateway := v } else some s
  else if opt = 6 then if 4 ≤ optLen then (be32 payload off).map fun v => { s with dnsServer := v } else some s
  else if opt = 53 then if 1 ≤ optLen then payload[off]?.map fun v => { s with msgType := v } else some s
  else if opt = 54 then if 4 ≤ optLen then (be32 payload off).map fun v => { s with serverId := v } else some s
  else some s

/-- The loop of `process_dhcp` over the options, for so many rounds; nothing when one of them is cut. -/
def optionLoop (payload : List Byte) : ℕ → ℕ → DhcpOptions → Option (Option DhcpOptions)
  | 0, _, _ => none
  | rounds + 1, off, s =>
    if off < payload.length then
      payload[off]?.bind fun opt =>
        if opt = 0 then optionLoop payload rounds (off + 1) s
        else if opt = 255 then some (some s)
        else if payload.length ≤ off + 1 then some none
        else
          payload[off + 1]?.bind fun optLen =>
            if payload.length < off + 2 + optLen.toNat then some none
            else
              (takeOption payload (off + 2) opt optLen.toNat s).bind fun s =>
                optionLoop payload rounds (off + 2 + optLen.toNat) s
    else some (some s)

/-! ### Messages -/

/-- `struct dhcp_wait`. -/
structure DhcpWait where
  xid : UInt32
  expectedType : Byte
  offeredIp : UInt32
  serverId : UInt32
  netmask : UInt32
  gateway : UInt32
  dnsServer : UInt32
  complete : Bool

abbrev dhcpMagic : UInt32 := 0x63825363

def storeOptions (dhcp : DhcpWait) (offeredIp : UInt32) (s : DhcpOptions) : DhcpWait :=
  { dhcp with
    offeredIp := offeredIp
    serverId := s.serverId
    netmask := if s.netmask ≠ 0 then s.netmask else 0xffffff00
    gateway := s.gateway
    dnsServer := if s.dnsServer ≠ 0 then s.dnsServer else s.gateway
    complete := offeredIp ≠ 0 }

/-- `process_dhcp`, for an exchange that is waited for. -/
def processDhcp (dhcp : DhcpWait) (payload : List Byte) (srcPort dstPort : UInt16) : Option DhcpWait :=
  if dhcp.complete = true ∨ srcPort ≠ 67 ∨ dstPort ≠ 68 ∨ payload.length < 240 then some dhcp
  else do
    let op ← payload[0]?
    let htype ← payload[1]?
    let hlen ← payload[2]?
    let xid ← be32 payload 4
    let magic ← be32 payload 236
    if op ≠ 2 ∨ htype ≠ 1 ∨ hlen ≠ 6 ∨ xid ≠ dhcp.xid ∨ magic ≠ dhcpMagic then pure dhcp
    else
      match ← optionLoop payload (payload.length + 1) 240 ⟨0, 0, 0, 0, 0⟩ with
      | none => pure dhcp
      | some s =>
        if s.msgType ≠ dhcp.expectedType then pure dhcp
        else do
          let offeredIp ← be32 payload 16
          pure (storeOptions dhcp offeredIp s)

/-! ### Frames -/

/-- The fields of `struct net_iface` that the exchange reads and writes; the flag says that the driver can send and
poll. -/
structure Iface where
  up : Bool
  link : Bool
  ops : Bool
  mac : Mac
  ipv4 : UInt32
  netmask : UInt32
  gateway : UInt32
  dnsServer : UInt32
  arpIp : UInt32
  arpMac : List Byte
  arpValid : Bool

/-- `process_arp`; the reply to a request changes nothing here. -/
def processArp (iface : Iface) (payload : List Byte) : Option Iface :=
  if payload.length < 28 then some iface
  else do
    let htype ← be16 payload 0
    let ptype ← be16 payload 2
    let hlen ← payload[4]?
    let plen ← payload[5]?
    if htype ≠ 1 ∨ ptype ≠ 0x0800 ∨ hlen ≠ 6 ∨ plen ≠ 4 then pure iface
    else
      let op ← be16 payload 6
      let senderIp ← be32 payload 14
      let targetIp ← be32 payload 24
      if op = 2 ∧ targetIp = iface.ipv4 then
        pure { iface with arpIp := senderIp, arpMac := (payload.drop 8).take 6, arpValid := true }
      else pure iface

/-- `process_ipv4`, while only an exchange of this kind is waited for. -/
def processIpv4 (iface : Iface) (dhcp : DhcpWait) (payload : List Byte) : Option DhcpWait :=
  if payload.length < 20 then some dhcp
  else do
    let first : Byte ← payload[0]?
    let dstIp ← be32 payload 16
    let proto ← payload[9]?
    let ihl := (first &&& 0x0f).toNat * 4
    if first >>> 4 ≠ 4 ∨ ihl < 20 ∨ payload.length < ihl + 8 ∨ (dstIp ≠ iface.ipv4 ∧ dstIp ≠ 0xffffffff) ∨
        proto ≠ 17 then pure dhcp
    else do
      let srcPort ← be16 payload ihl
      let dstPort ← be16 payload (ihl + 2)
      let udpLen ← be16 payload (ihl + 4)
      if 8 ≤ udpLen.toNat ∧ ihl + udpLen.toNat ≤ payload.length then
        processDhcp dhcp ((payload.drop (ihl + 8)).take (udpLen.toNat - 8)) srcPort dstPort
      else pure dhcp

def processFrameCtx (iface : Iface) (dhcp : DhcpWait) (frame : List Byte) : Option (Iface × DhcpWait) :=
  if frame.length < 14 then some (iface, dhcp)
  else do
    let type ← be16 frame 12
    if type = 0x0806 then pure (← processArp iface (frame.drop 14), dhcp)
    else if type = 0x0800 then pure (iface, ← processIpv4 iface dhcp (frame.drop 14))
    else pure (iface, dhcp)

/-- `net_poll_iface`: the frames that have come in. -/
def netPollIface : List (List Byte) → Iface → DhcpWait → Option (Iface × DhcpWait)
  | [], iface, dhcp => some (iface, dhcp)
  | frame :: frames, iface, dhcp =>
    (processFrameCtx iface dhcp frame).bind fun r => netPollIface frames r.1 r.2

/-! ### The exchange -/

/-- The loop that polls until the message has come or the time is over; there are as many polls as the time allows. -/
def waitDhcp : List (List (List Byte)) → Iface → DhcpWait → Option (Iface × DhcpWait)
  | [], iface, dhcp => some (iface, dhcp)
  | frames :: polls, iface, dhcp =>
    (netPollIface frames iface dhcp).bind fun r => if r.2.complete then some r else waitDhcp polls r.1 r.2

def dhcpPutOption (opt : Byte) (data : List Byte) : List Byte := [opt, UInt8.ofNat data.length] ++ data

/-- The packet of `send_dhcp_message`: 300 bytes, the last ones zero. -/
def dhcpPacket (mac : Mac) (msgType : Byte) (xid requestedIp serverId : UInt32) : List Byte :=
  let fixed := [1, 1, 6, 0] ++ put32 xid ++ [0, 0] ++ put16 0x8000 ++ List.replicate 16 0 ++ mac.toList ++
    List.replicate 202 0 ++ put32 dhcpMagic
  let options := dhcpPutOption 53 [msgType] ++ dhcpPutOption 61 (1 :: mac.toList) ++ dhcpPutOption 55 [1, 3, 6] ++
    (if requestedIp ≠ 0 then dhcpPutOption 50 (put32 requestedIp) else []) ++
    (if serverId ≠ 0 then dhcpPutOption 54 (put32 serverId) else []) ++ [255]
  fixed ++ options ++ List.replicate (300 - (fixed ++ options).length) 0

/-- What stands around an exchange: the clock, what the driver answers to the two frames it is to send, and the frames
of the polls after each. -/
structure DhcpEnv where
  ticks : UInt64
  discover : List Byte → ℤ
  request : List Byte → ℤ
  offers : List (List (List Byte))
  acks : List (List (List Byte))

/-- `send_dhcp_message`, of an interface whose driver can send. -/
def sendDhcpMessage (transmit : List Byte → ℤ) (iface : Iface) (msgType : Byte) (xid requestedIp serverId : UInt32) : ℤ :=
  match sendUdp4From iface.mac ⟨List.replicate 6 0xff, rfl⟩ 0 0xffffffff 68 67
      (some (dhcpPacket iface.mac msgType xid requestedIp serverId)) with
  | none => -1
  | some frame => transmit frame

def macIsUsable (mac : Mac) : Bool := mac.toList.any (· ≠ 0) && mac.toList.any (· ≠ 0xff)

def xidOf (ticks : UInt64) : UInt32 := 0x544e0000 ||| (ticks.toUInt32 &&& 0xffff)

def freshWait (xid : UInt32) (expectedType : Byte) : DhcpWait := ⟨xid, expectedType, 0, 0, 0, 0, 0, false⟩

def Iface.clear (iface : Iface) : Iface := { iface with ipv4 := 0, gateway := 0, dnsServer := 0, arpValid := false }

def Iface.lease (iface : Iface) (ack : DhcpWait) : Iface :=
  { iface with
    ipv4 := ack.offeredIp, netmask := ack.netmask, gateway := ack.gateway, dnsServer := ack.dnsServer
    arpValid := false }

/-- `net_iface_dhcp`, for the interface that was found. -/
def netIfaceDhcp (env : DhcpEnv) (iface : Iface) : Option (Iface × ℤ) :=
  if iface.up = false ∨ iface.link = false ∨ iface.ops = false ∨ macIsUsable iface.mac = false then some (iface, -1)
  else
    let xid := xidOf env.ticks
    if sendDhcpMessage env.discover iface.clear 1 xid 0 0 < 0 then some (iface.clear, -2)
    else
      (waitDhcp env.offers iface.clear (freshWait xid 2)).bind fun r =>
        let offer := r.2
        if offer.complete = false then some (r.1, -3)
        else if sendDhcpMessage env.request r.1 3 xid offer.offeredIp offer.serverId < 0 then some (r.1, -4)
        else
          (waitDhcp env.acks r.1 (freshWait xid 5)).bind fun r =>
            let ack := r.2
            if ack.complete = false then some (r.1, -5) else some (r.1.lease ack, 0)

/-! ### What a message says -/

/-- **The options of a message** from an offset on, each as long as its own byte says. -/
inductive Tlv (payload : List Byte) : ℕ → List (Byte × List Byte) → Prop
  /-- The message is over. -/
  | done {off : ℕ} (h : payload.length ≤ off) : Tlv payload off []
  /-- Padding. -/
  | pad {off : ℕ} {opts : List (Byte × List Byte)} (h : payload[off]? = some 0) (hrest : Tlv payload (off + 1) opts) :
      Tlv payload off opts
  /-- The end of the options. -/
  | fin {off : ℕ} (h : payload[off]? = some 255) : Tlv payload off []
  /-- An option. -/
  | opt {off : ℕ} {c n : Byte} {opts : List (Byte × List Byte)} (h : payload[off]? = some c) (hpad : c ≠ 0)
      (hend : c ≠ 255) (hlen : payload[off + 1]? = some n) (hin : off + 2 + n.toNat ≤ payload.length)
      (hrest : Tlv payload (off + 2 + n.toNat) opts) :
      Tlv payload off ((c, (payload.drop (off + 2)).take n.toNat) :: opts)

def leading (data : List Byte) (old : UInt32) : UInt32 := if 4 ≤ data.length then (be32 data 0).getD 0 else old

def applyOption (s : DhcpOptions) (o : Byte × List Byte) : DhcpOptions :=
  if o.1 = 1 then { s with netmask := leading o.2 s.netmask }
  else if o.1 = 3 then { s with gateway := leading o.2 s.gateway }
  else if o.1 = 6 then { s with dnsServer := leading o.2 s.dnsServer }
  else if o.1 = 53 then { s with msgType := o.2.headD s.msgType }
  else if o.1 = 54 then { s with serverId := leading o.2 s.serverId }
  else s

def saidBy (opts : List (Byte × List Byte)) : DhcpOptions := opts.foldl applyOption ⟨0, 0, 0, 0, 0⟩

/-- **A message that is accepted**: a reply of this exchange, of the expected type, which offers an address. -/
structure Accepted (xid : UInt32) (type : Byte) (payload : List Byte) (w : DhcpWait) : Prop where
  reply : payload[0]? = some 2 ∧ payload[1]? = some 1 ∧ payload[2]? = some 6
  xid : be32 payload 4 = some xid
  magic : be32 payload 236 = some dhcpMagic
  address : be32 payload 16 = some w.offeredIp ∧ w.offeredIp ≠ 0
  options : ∃ opts, Tlv payload 240 opts ∧ (saidBy opts).msgType = type ∧
    w.serverId = (saidBy opts).serverId ∧ w.gateway = (saidBy opts).gateway ∧
    w.netmask = (if (saidBy opts).netmask ≠ 0 then (saidBy opts).netmask else 0xffffff00) ∧
    w.dnsServer = (if (saidBy opts).dnsServer ≠ 0 then (saidBy opts).dnsServer else (saidBy opts).gateway)

def Received (polls : List (List (List Byte))) (payload : List Byte) : Prop :=
  ∃ frame ∈ polls.flatten, ∃ k n, payload = (frame.drop k).take n

/-- The settings of an interface are those of an acknowledgement of this exchange, which answers an offer. -/
def Leased (env : DhcpEnv) (iface : Iface) : Prop :=
  ∃ offer ack w v, Received env.offers offer ∧ Accepted (xidOf env.ticks) 2 offer w ∧
    Received env.acks ack ∧ Accepted (xidOf env.ticks) 5 ack v ∧
    iface.ipv4 = v.offeredIp ∧ iface.netmask = v.netmask ∧ iface.gateway = v.gateway ∧ iface.dnsServer = v.dnsServer

/-- **What an exchange should do**: it succeeds and the settings are those of the acknowledgement, or it fails and they
are what they were. -/
def DhcpLaw (env : DhcpEnv) (iface : Iface) : Prop :=
  ∃ iface' rc, netIfaceDhcp env iface = some (iface', rc) ∧
    (rc = 0 ∧ Leased env iface' ∨
      rc < 0 ∧ iface'.ipv4 = iface.ipv4 ∧ iface'.gateway = iface.gateway ∧ iface'.dnsServer = iface.dnsServer)

/-! ### Reading the options -/

variable {payload : List Byte} {off n : ℕ} {opts : List (Byte × List Byte)} {w w' : DhcpWait}

theorem getElem?_piece {i : ℕ} (hi : i < n) : ((payload.drop off).take n)[i]? = payload[off + i]? := by
  rw [List.getElem?_take_of_lt hi, List.getElem?_drop]

theorem be32_piece (h : 4 ≤ n) : be32 ((payload.drop off).take n) 0 = be32 payload off := by
  rw [be32, be32, getElem?_piece (by omega), getElem?_piece (by omega), getElem?_piece (by omega),
    getElem?_piece (by omega)]
  rfl

/-- **An option is read inside the message**, as its data say. -/
theorem takeOption_eq (c : Byte) (s : DhcpOptions) (h : off + n ≤ payload.length) :
    takeOption payload off c n s = some (applyOption s (c, (payload.drop off).take n)) := by
  have hlen : ((payload.drop off).take n).length = n := by
    rw [List.length_take, List.length_drop]
    omega
  have hword : ∀ (old : UInt32) (f : UInt32 → DhcpOptions), f old = s →
      (if 4 ≤ n then (be32 payload off).map f else some s) = some (f (leading ((payload.drop off).take n) old)) := by
    intro old f hold
    rw [leading, hlen]
    split_ifs with h4
    · obtain ⟨v, hv⟩ := exists_be32 payload off (by omega)
      rw [be32_piece h4, hv]
      rfl
    · rw [hold]
  have hbyte : (if 1 ≤ n then payload[off]?.map fun v => { s with msgType := v } else some s) =
      some { s with msgType := ((payload.drop off).take n).headD s.msgType } := by
    split_ifs with h1
    · obtain ⟨v, hv⟩ := exists_getElem? (show off < payload.length by omega)
      have hhead : ((payload.drop off).take n).head? = some v := by
        rw [List.head?_eq_getElem?, getElem?_piece (by omega), Nat.add_zero, hv]
      rw [List.headD_eq_head?_getD, hhead, hv]
      rfl
    · have hnil : (payload.drop off).take n = [] := List.length_eq_zero_iff.1 (by omega)
      rw [hnil]
      rfl
  rw [takeOption, applyOption]
  dsimp only
  by_cases h1 : c = 1
  · rw [if_pos h1, if_pos h1]
    exact hword s.netmask (fun v => { s with netmask := v }) rfl
  by_cases h3 : c = 3
  · rw [if_neg h1, if_neg h1, if_pos h3, if_pos h3]
    exact hword s.gateway (fun v => { s with gateway := v }) rfl
  by_cases h6 : c = 6
  · rw [if_neg h1, if_neg h1, if_neg h3, if_neg h3, if_pos h6, if_pos h6]
    exact hword s.dnsServer (fun v => { s with dnsServer := v }) rfl
  by_cases h53 : c = 53
  · rw [if_neg h1, if_neg h1, if_neg h3, if_neg h3, if_neg h6, if_neg h6, if_pos h53, if_pos h53]
    exact hbyte
  rw [if_neg h1, if_neg h1, if_neg h3, if_neg h3, if_neg h6, if_neg h6, if_neg h53, if_neg h53]
  by_cases h54 : c = 54
  · rw [if_pos h54, if_pos h54]
    exact hword s.serverId (fun v => { s with serverId := v }) rfl
  · rw [if_neg h54, if_neg h54]

theorem tlv_done (h : payload.length ≤ off) : Tlv payload off opts ↔ opts = [] := by
  have hnone : payload[off]? = none := List.getElem?_eq_none h
  constructor
  · intro ht
    cases ht <;> simp_all
  · rintro rfl
    exact .done h

theorem tlv_pad (h : payload[off]? = some 0) : Tlv payload off opts ↔ Tlv payload (off + 1) opts := by
  have hlt := (List.getElem?_eq_some_iff.1 h).1
  constructor
  · intro ht
    cases ht with
    | done hle => omega
    | pad _ hrest => exact hrest
    | fin hend => rw [h] at hend; simp at hend
    | opt hc hpad => rw [h] at hc; exact absurd (Option.some.inj hc).symm hpad
  · exact .pad h

theorem tlv_fin (h : payload[off]? = some 255) : Tlv payload off opts ↔ opts = [] := by
  have hlt := (List.getElem?_eq_some_iff.1 h).1
  constructor
  · intro ht
    cases ht with
    | done _ => rfl
    | pad hc _ => rw [h] at hc; simp at hc
    | fin _ => rfl
    | opt hc _ hend => rw [h] at hc; exact absurd (Option.some.inj hc).symm hend
  · rintro rfl
    exact .fin h

theorem tlv_opt {c : Byte} (h : payload[off]? = some c) (hpad : c ≠ 0) (hend : c ≠ 255)
    (opts : List (Byte × List Byte)) :
    Tlv payload off opts ↔ ∃ n rest, payload[off + 1]? = some n ∧ off + 2 + n.toNat ≤ payload.length ∧
      Tlv payload (off + 2 + n.toNat) rest ∧ opts = (c, (payload.drop (off + 2)).take n.toNat) :: rest := by
  have hlt := (List.getElem?_eq_some_iff.1 h).1
  constructor
  · intro ht
    cases ht with
    | done hle => omega
    | pad hc _ => rw [h] at hc; exact absurd (Option.some.inj hc) hpad
    | fin hc => rw [h] at hc; exact absurd (Option.some.inj hc) hend
    | opt hc _ _ hlen hin hrest =>
      rw [h] at hc
      obtain rfl := Option.some.inj hc
      exact ⟨_, _, hlen, hin, hrest, rfl⟩
  · rintro ⟨n, rest, hlen, hin, hrest, rfl⟩
    exact .opt h hpad hend hlen hin hrest

/-- **Options are read inside the message**, each as long as its own byte says; a message with an option that is cut
says nothing. -/
theorem optionLoop_spec (payload : List Byte) (rounds off : ℕ) (s : DhcpOptions) (h : payload.length - off < rounds) :
    ∃ r, optionLoop payload rounds off s = some r ∧
      ∀ s', r = some s' ↔ ∃ opts, Tlv payload off opts ∧ opts.foldl applyOption s = s' := by
  induction rounds generalizing off s with
  | zero => exact absurd h (Nat.not_lt_zero _)
  | succ rounds ih =>
    rw [optionLoop]
    by_cases hlt : off < payload.length
    swap
    · rw [if_neg hlt]
      refine ⟨some s, rfl, fun s' => ?_⟩
      simp [tlv_done (not_lt.1 hlt)]
    obtain ⟨c, hc⟩ := exists_getElem? hlt
    rw [if_pos hlt, hc, Option.bind_some]
    by_cases hpad : c = 0
    · subst hpad
      obtain ⟨r, hr, hiff⟩ := ih (off + 1) s (by omega)
      refine ⟨r, by rw [if_pos rfl, hr], fun s' => ?_⟩
      simp only [hiff, tlv_pad hc]
    by_cases hend : c = 255
    · subst hend
      refine ⟨some s, by rw [if_neg hpad, if_pos rfl], fun s' => ?_⟩
      simp [tlv_fin hc]
    rw [if_neg hpad, if_neg hend]
    have hopt := tlv_opt hc hpad hend
    by_cases hcut : payload.length ≤ off + 1
    · refine ⟨none, if_pos hcut, fun s' => ?_⟩
      simp [hopt, List.getElem?_eq_none hcut]
    obtain ⟨n, hn⟩ := exists_getElem? (not_le.1 hcut)
    rw [if_neg hcut, hn, Option.bind_some]
    by_cases hlong : payload.length < off + 2 + n.toNat
    · refine ⟨none, if_pos hlong, fun s' => ?_⟩
      simp only [reduceCtorEq, hopt, false_iff]
      rintro ⟨opts, ⟨n', rest, hn', hin, -, -⟩, -⟩
      rw [hn] at hn'
      obtain rfl := Option.some.inj hn'
      omega
    · rw [if_neg hlong, takeOption_eq c s (not_lt.1 hlong), Option.bind_some]
      obtain ⟨r, hr, hiff⟩ := ih (off + 2 + n.toNat)
        (applyOption s (c, (payload.drop (off + 2)).take n.toNat)) (by omega)
      refine ⟨r, hr, fun s' => ?_⟩
      rw [hiff]
      constructor
      · rintro ⟨rest, hrest, rfl⟩
        exact ⟨_, (hopt _).2 ⟨n, rest, hn, not_lt.1 hlong, hrest, rfl⟩, rfl⟩
      · rintro ⟨opts, ht, rfl⟩
        obtain ⟨n', rest, hn', -, hrest, rfl⟩ := (hopt _).1 ht
        rw [hn] at hn'
        obtain rfl := Option.some.inj hn'
        exact ⟨rest, hrest, rfl⟩

/-! ### What a message changes -/

/-- A message was heard: it changes nothing, or what it leaves is complete only when it was accepted. -/
structure Heard (w w' : DhcpWait) (payload : List Byte) : Prop where
  xid : w'.xid = w.xid
  expectedType : w'.expectedType = w.expectedType
  accepted : w'.complete = true → Accepted w.xid w.expectedType payload w'

/-- **A message is read inside it**, and changes nothing unless it is accepted or offers no address. -/
theorem processDhcp_spec (w : DhcpWait) (payload : List Byte) (srcPort dstPort : UInt16) :
    ∃ w', processDhcp w payload srcPort dstPort = some w' ∧ (w' = w ∨ Heard w w' payload) := by
  rw [processDhcp]
  split_ifs with hignored
  · exact ⟨w, rfl, .inl rfl⟩
  have hlen : 240 ≤ payload.length := by
    by_contra hshort
    exact hignored (.inr (.inr (.inr (not_le.1 hshort))))
  obtain ⟨op, hop⟩ := exists_getElem? (show 0 < payload.length by omega)
  obtain ⟨htype, hhtype⟩ := exists_getElem? (show 1 < payload.length by omega)
  obtain ⟨hlen', hhlen⟩ := exists_getElem? (show 2 < payload.length by omega)
  obtain ⟨xid, hxid⟩ := exists_be32 payload 4 (by omega)
  obtain ⟨magic, hmagic⟩ := exists_be32 payload 236 (by omega)
  obtain ⟨offeredIp, hoffered⟩ := exists_be32 payload 16 (by omega)
  obtain ⟨r, hr, hiff⟩ := optionLoop_spec payload (payload.length + 1) 240 ⟨0, 0, 0, 0, 0⟩ (by omega)
  simp only [hop, hhtype, hhlen, hxid, hmagic, hoffered, hr, Option.bind_eq_bind, Option.bind_some, Option.pure_def]
  split_ifs with hother
  · exact ⟨w, rfl, .inl rfl⟩
  simp only [not_or, not_not] at hother
  obtain ⟨rfl, rfl, rfl, rfl, rfl⟩ := hother
  cases r with
  | none => exact ⟨w, rfl, .inl rfl⟩
  | some s =>
    dsimp only
    split_ifs with hkind
    · exact ⟨w, rfl, .inl rfl⟩
    obtain ⟨opts, htlv, hs⟩ := (hiff s).1 rfl
    refine ⟨_, rfl, .inr ⟨rfl, rfl, fun hcomplete => ?_⟩⟩
    have hne : offeredIp ≠ 0 := by simpa [storeOptions] using hcomplete
    have hsaid : saidBy opts = s := hs
    refine ⟨⟨hop, hhtype, hhlen⟩, hxid, hmagic, ⟨hoffered, hne⟩, opts, htlv, ?_⟩
    rw [hsaid]
    exact ⟨not_not.1 hkind, rfl, rfl, rfl, rfl⟩

def HeardIn (w w' : DhcpWait) (frame : List Byte) : Prop := ∃ k n, Heard w w' ((frame.drop k).take n)

variable (iface : Iface)

theorem processIpv4_spec (w : DhcpWait) (payload : List Byte) :
    ∃ w', processIpv4 iface w payload = some w' ∧ (w' = w ∨ HeardIn w w' payload) := by
  rw [processIpv4]
  split_ifs with hshort
  · exact ⟨w, rfl, .inl rfl⟩
  obtain ⟨first, hfirst⟩ := exists_getElem? (show 0 < payload.length by omega)
  obtain ⟨dstIp, hdst⟩ := exists_be32 payload 16 (by omega)
  obtain ⟨proto, hproto⟩ := exists_getElem? (show 9 < payload.length by omega)
  simp only [hfirst, hdst, hproto, Option.bind_eq_bind, Option.bind_some, Option.pure_def]
  split_ifs with hother
  · exact ⟨w, rfl, .inl rfl⟩
  have hroom : (first &&& 0x0f).toNat * 4 + 8 ≤ payload.length := by
    by_contra hlong
    exact hother (.inr (.inr (.inl (not_le.1 hlong))))
  obtain ⟨srcPort, hsrc⟩ := exists_be16 payload ((first &&& 0x0f).toNat * 4) (by omega)
  obtain ⟨dstPort, hdstPort⟩ := exists_be16 payload ((first &&& 0x0f).toNat * 4 + 2) (by omega)
  obtain ⟨udpLen, hudpLen⟩ := exists_be16 payload ((first &&& 0x0f).toNat * 4 + 4) (by omega)
  simp only [hsrc, hdstPort, hudpLen, Option.bind_some]
  split_ifs with hfits
  · obtain ⟨w', hw', hheard⟩ := processDhcp_spec w
      ((payload.drop ((first &&& 0x0f).toNat * 4 + 8)).take (udpLen.toNat - 8)) srcPort dstPort
    exact ⟨w', hw', hheard.imp_right fun h => ⟨_, _, h⟩⟩
  · exact ⟨w, rfl, .inl rfl⟩

/-- The settings of an interface are what they were. -/
structure SameSettings (iface iface' : Iface) : Prop where
  ipv4 : iface'.ipv4 = iface.ipv4
  netmask : iface'.netmask = iface.netmask
  gateway : iface'.gateway = iface.gateway
  dnsServer : iface'.dnsServer = iface.dnsServer

theorem SameSettings.refl : SameSettings iface iface := ⟨rfl, rfl, rfl, rfl⟩

theorem SameSettings.trans {a b c : Iface} (h : SameSettings a b) (h' : SameSettings b c) : SameSettings a c :=
  ⟨h'.ipv4.trans h.ipv4, h'.netmask.trans h.netmask, h'.gateway.trans h.gateway, h'.dnsServer.trans h.dnsServer⟩

theorem processArp_spec (payload : List Byte) :
    ∃ iface', processArp iface payload = some iface' ∧ SameSettings iface iface' := by
  rw [processArp]
  split_ifs with hshort
  · exact ⟨iface, rfl, .refl iface⟩
  obtain ⟨htype, hhtype⟩ := exists_be16 payload 0 (by omega)
  obtain ⟨ptype, hptype⟩ := exists_be16 payload 2 (by omega)
  obtain ⟨hlen, hhlen⟩ := exists_getElem? (show 4 < payload.length by omega)
  obtain ⟨plen, hplen⟩ := exists_getElem? (show 5 < payload.length by omega)
  obtain ⟨op, hop⟩ := exists_be16 payload 6 (by omega)
  obtain ⟨senderIp, hsender⟩ := exists_be32 payload 14 (by omega)
  obtain ⟨targetIp, htarget⟩ := exists_be32 payload 24 (by omega)
  simp only [hhtype, hptype, hhlen, hplen, hop, hsender, htarget, Option.bind_eq_bind, Option.bind_some,
    Option.pure_def]
  split_ifs
  · exact ⟨iface, rfl, .refl iface⟩
  · exact ⟨_, rfl, ⟨rfl, rfl, rfl, rfl⟩⟩
  · exact ⟨iface, rfl, .refl iface⟩

/-- **A frame** leaves the settings, and may bring a message. -/
theorem processFrameCtx_spec (w : DhcpWait) (frame : List Byte) :
    ∃ iface' w', processFrameCtx iface w frame = some (iface', w') ∧ SameSettings iface iface' ∧
      (w' = w ∨ HeardIn w w' frame) := by
  rw [processFrameCtx]
  split_ifs with hshort
  · exact ⟨iface, w, rfl, .refl iface, .inl rfl⟩
  obtain ⟨type, htype⟩ := exists_be16 frame 12 (by omega)
  obtain ⟨iface', hiface', hsame⟩ := processArp_spec iface (frame.drop 14)
  obtain ⟨w', hw', hheard⟩ := processIpv4_spec iface w (frame.drop 14)
  simp only [htype, hiface', hw', Option.bind_eq_bind, Option.bind_some, Option.pure_def]
  split_ifs
  · exact ⟨iface', w, rfl, hsame, .inl rfl⟩
  · refine ⟨iface, w', rfl, .refl iface, hheard.imp_right ?_⟩
    rintro ⟨k, n, h⟩
    rw [List.drop_drop] at h
    exact ⟨_, _, h⟩
  · exact ⟨iface, w, rfl, .refl iface, .inl rfl⟩

/-! ### Waiting -/

/-- What is waited for, and that it is complete only when one of these frames brought it. -/
structure Waits (all : List (List Byte)) (x : UInt32) (type : Byte) (w : DhcpWait) : Prop where
  xid : w.xid = x
  expectedType : w.expectedType = type
  complete : w.complete = true → ∃ frame ∈ all, ∃ k n, Accepted x type ((frame.drop k).take n) w

variable {all : List (List Byte)} {x : UInt32} {type : Byte}

theorem Waits.heard (h : Waits all x type w) {frame : List Byte} (hframe : frame ∈ all)
    (hw : w' = w ∨ HeardIn w w' frame) : Waits all x type w' := by
  rcases hw with rfl | ⟨k, n, hheard⟩
  · exact h
  · obtain ⟨rfl, rfl, -⟩ := h
    exact ⟨hheard.xid, hheard.expectedType, fun hc => ⟨frame, hframe, k, n, hheard.accepted hc⟩⟩

theorem netPollIface_spec (frames : List (List Byte)) (hframes : ∀ frame ∈ frames, frame ∈ all) (iface : Iface)
    (h : Waits all x type w) :
    ∃ iface' w', netPollIface frames iface w = some (iface', w') ∧ SameSettings iface iface' ∧
      Waits all x type w' := by
  induction frames generalizing iface w with
  | nil => exact ⟨iface, w, rfl, .refl iface, h⟩
  | cons frame frames ih =>
    obtain ⟨hframe, hframes⟩ := List.forall_mem_cons.1 hframes
    obtain ⟨iface₁, w₁, hstep, hsame₁, hheard⟩ := processFrameCtx_spec iface w frame
    obtain ⟨iface₂, w₂, hrest, hsame₂, hwaits⟩ := ih hframes iface₁ (h.heard hframe hheard)
    exact ⟨iface₂, w₂, by rw [netPollIface, hstep, Option.bind_some, hrest], hsame₁.trans hsame₂, hwaits⟩

/-- **Waiting** leaves the settings, and ends with a message that was accepted, or without one. -/
theorem waitDhcp_spec (polls : List (List (List Byte))) (hpolls : ∀ frame ∈ polls.flatten, frame ∈ all) (iface : Iface)
    (h : Waits all x type w) :
    ∃ iface' w', waitDhcp polls iface w = some (iface', w') ∧ SameSettings iface iface' ∧ Waits all x type w' := by
  induction polls generalizing iface w with
  | nil => exact ⟨iface, w, rfl, .refl iface, h⟩
  | cons frames polls ih =>
    rw [List.flatten_cons, List.forall_mem_append] at hpolls
    obtain ⟨iface₁, w₁, hpoll, hsame₁, hwaits₁⟩ := netPollIface_spec frames hpolls.1 iface h
    rw [waitDhcp, hpoll, Option.bind_some]
    dsimp only
    split_ifs
    · exact ⟨iface₁, w₁, rfl, hsame₁, hwaits₁⟩
    · obtain ⟨iface₂, w₂, hrest, hsame₂, hwaits₂⟩ := ih hpolls.2 iface₁ hwaits₁
      exact ⟨iface₂, w₂, hrest, hsame₁.trans hsame₂, hwaits₂⟩

theorem waits_freshWait (all : List (List Byte)) (x : UInt32) (type : Byte) : Waits all x type (freshWait x type) :=
  ⟨rfl, rfl, fun h => by simp [freshWait] at h⟩

/-! ### The exchange -/

/-- An interface that was left without an address, a gateway and a name server; the mask is what it was. -/
structure Cleared (iface iface' : Iface) : Prop where
  ipv4 : iface'.ipv4 = 0
  gateway : iface'.gateway = 0
  dnsServer : iface'.dnsServer = 0
  netmask : iface'.netmask = iface.netmask

theorem cleared_of_same {iface iface' : Iface} (h : SameSettings iface.clear iface') : Cleared iface iface' :=
  ⟨h.ipv4, h.gateway, h.dnsServer, h.netmask⟩

/-- **The settings are those of the acknowledgement, or there are none**, unless the exchange did not begin. -/
theorem netIfaceDhcp_spec (env : DhcpEnv) (iface : Iface) :
    ∃ iface' rc, netIfaceDhcp env iface = some (iface', rc) ∧
      (rc = 0 ∧ Leased env iface' ∨ rc = -1 ∧ iface' = iface ∨ rc < -1 ∧ Cleared iface iface') := by
  rw [netIfaceDhcp]
  split_ifs with hidle
  · exact ⟨iface, -1, rfl, .inr (.inl ⟨rfl, rfl⟩)⟩
  dsimp only
  split_ifs with hdiscover
  · exact ⟨_, -2, rfl, .inr (.inr ⟨by decide, cleared_of_same (.refl _)⟩)⟩
  obtain ⟨iface₁, offer, hoffers, hsame₁, hoffer⟩ := waitDhcp_spec env.offers
    (fun _ h => h) iface.clear (waits_freshWait _ (xidOf env.ticks) 2)
  rw [hoffers, Option.bind_some]
  dsimp only
  split_ifs with hnone hrequest
  · exact ⟨_, -3, rfl, .inr (.inr ⟨by decide, cleared_of_same hsame₁⟩)⟩
  · exact ⟨_, -4, rfl, .inr (.inr ⟨by decide, cleared_of_same hsame₁⟩)⟩
  obtain ⟨iface₂, ack, hacks, hsame₂, hack⟩ := waitDhcp_spec env.acks
    (fun _ h => h) iface₁ (waits_freshWait _ (xidOf env.ticks) 5)
  rw [hacks, Option.bind_some]
  dsimp only
  split_ifs with hlost
  · exact ⟨_, -5, rfl, .inr (.inr ⟨by decide, cleared_of_same (hsame₁.trans hsame₂)⟩)⟩
  rw [Bool.not_eq_false] at hnone hlost
  obtain ⟨frame₁, hframe₁, k₁, n₁, haccepted₁⟩ := hoffer.complete hnone
  obtain ⟨frame₂, hframe₂, k₂, n₂, haccepted₂⟩ := hack.complete hlost
  exact ⟨_, 0, rfl, .inl ⟨rfl, _, _, offer, ack, ⟨frame₁, hframe₁, k₁, n₁, rfl⟩, haccepted₁,
    ⟨frame₂, hframe₂, k₂, n₂, rfl⟩, haccepted₂, rfl, rfl, rfl, rfl⟩⟩

/-- **What the code does**: options are read inside a message by their own lengths, every message is read inside it, and
an exchange ends with the settings of the acknowledgement, with none, or, when it did not begin, with those from
before. -/
theorem dhcp_spec :
    (∀ payload s, ∃ r, optionLoop payload (payload.length + 1) 240 s = some r ∧
      ∀ s', r = some s' ↔ ∃ opts, Tlv payload 240 opts ∧ opts.foldl applyOption s = s') ∧
    (∀ w payload srcPort dstPort, ∃ w', processDhcp w payload srcPort dstPort = some w' ∧
      (w' = w ∨ Heard w w' payload)) ∧
    ∀ env iface, ∃ iface' rc, netIfaceDhcp env iface = some (iface', rc) ∧
      (rc = 0 ∧ Leased env iface' ∨ rc = -1 ∧ iface' = iface ∨ rc < -1 ∧ Cleared iface iface') :=
  ⟨fun payload s => optionLoop_spec payload _ 240 s (by omega), processDhcp_spec, netIfaceDhcp_spec⟩

def unanswered : DhcpEnv := ⟨0, fun _ => 0, fun _ => 0, [], []⟩

def configured : Iface :=
  ⟨true, true, true, ⟨List.replicate 6 2, rfl⟩, 0x0a000002, 0xffffff00, 0x0a000001, 0x0a000001, 0, [], false⟩

/-- The request is sent and never answered: the address is gone. -/
theorem not_dhcpLaw : ¬ ∀ env iface, DhcpLaw env iface := by
  intro h
  obtain ⟨iface', rc, hrun, hlaw⟩ := h unanswered configured
  have hlost : (netIfaceDhcp unanswered configured).map (fun r => (r.2, r.1.ipv4)) = some (-3, 0) := by decide +kernel
  rw [hrun] at hlost
  obtain ⟨rfl, hzero⟩ := Prod.mk.inj (Option.some.inj hlost)
  rcases hlaw with ⟨hrc, -⟩ | ⟨-, hip, -⟩
  · exact absurd hrc (by decide)
  · exact absurd (hzero.symm.trans hip) (by decide)

end Tnu.Net
