/-
**Names and answers.**

`dns_skip_name` of `kernel/drivers/net/net.c` walks over a name in a message, `process_dns` over the questions and
the records of a response until it finds an address, and `dns_build_query` builds the message that asks for one.
Every length in a message is checked before what it covers is skipped.

Main results:

* `skipLoop_spec` — **a name is skipped inside the message**;
* `processDns_spec` — **a response is read inside the message**, and only an address of an answer is stored;
* `dnsSkipName_dnsBuildQuery` — the name of a query ends at its type.
-/

import Tnu.Net.Checksum
import Tnu.Net.Reads

set_option autoImplicit false

namespace Tnu.Net

/-! ### The source -/

/-- The loop of `dns_skip_name`, for so many rounds: where the name ends, or nothing when it is no name. -/
def skipLoop (msg : List Byte) : ℕ → ℕ → Option (Option ℕ)
  | 0, _ => some none
  | rounds + 1, pos =>
    if pos < msg.length then
      msg[pos]?.bind fun len =>
        if len = 0 then some (some (pos + 1))
        else if len &&& 0xc0 = 0xc0 then
          if msg.length ≤ pos + 1 then some none else some (some (pos + 2))
        else if len &&& 0xc0 ≠ 0 then some none
        else if msg.length < pos + 1 + len.toNat then some none
        else skipLoop msg rounds (pos + 1 + len.toNat)
    else some none

/-- `dns_skip_name`; `guard` allows as many rounds as the message has bytes. -/
def dnsSkipName (msg : List Byte) (offset : ℕ) : Option (Option ℕ) := skipLoop msg msg.length offset

/-- `struct dns_wait`. -/
structure DnsWait where
  id : UInt16
  port : UInt16
  server : UInt32
  answer : UInt32
  complete : Bool

def skipQuestions (payload : List Byte) : ℕ → ℕ → Option (Option ℕ)
  | 0, offset => some (some offset)
  | count + 1, offset =>
    (dnsSkipName payload offset).bind fun
      | none => some none
      | some offset => if payload.length < offset + 4 then some none else skipQuestions payload count (offset + 4)

def findAddress (payload : List Byte) : ℕ → ℕ → Option (Option UInt32)
  | 0, _ => some none
  | count + 1, offset =>
    (dnsSkipName payload offset).bind fun
      | none => some none
      | some offset =>
        if payload.length < offset + 10 then some none
        else do
          let type ← be16 payload offset
          let classCode ← be16 payload (offset + 2)
          let rdlen ← be16 payload (offset + 8)
          if payload.length < offset + 10 + rdlen.toNat then some none
          else if type = 1 ∧ classCode = 1 ∧ rdlen = 4 then (be32 payload (offset + 10)).map some
          else findAddress payload count (offset + 10 + rdlen.toNat)

/-- `process_dns`, for a query that is waited for. -/
def processDns (dns : DnsWait) (payload : List Byte) (srcIp : UInt32) (srcPort dstPort : UInt16) : Option DnsWait :=
  if dns.complete = true ∨ payload.length < 12 ∨ srcIp ≠ dns.server ∨ srcPort ≠ 53 ∨ dstPort ≠ dns.port then some dns
  else do
    let id ← be16 payload 0
    if id ≠ dns.id then pure dns
    else
      let flags ← be16 payload 2
      if flags &&& 0x8000 = 0 ∨ flags &&& 0x000f ≠ 0 then pure dns
      else
        let qdcount ← be16 payload 4
        let ancount ← be16 payload 6
        match ← skipQuestions payload qdcount.toNat 12 with
        | none => pure dns
        | some offset =>
          match ← findAddress payload ancount.toNat offset with
          | none => pure dns
          | some answer => pure { dns with answer, complete := true }

def isHostChar (c : Byte) : Bool :=
  (65 ≤ c && c ≤ 90) || (97 ≤ c && c ≤ 122) || (48 ≤ c && c ≤ 57) || c = 45

/-- The loop over the labels of a host name; each takes a character at least. -/
def buildLabels : ℕ → List Byte → List Byte → Option (List Byte)
  | _, [], out => some out
  | 0, _ :: _, _ => none
  | rounds + 1, c :: cs, out =>
    let label := (c :: cs).takeWhile (· ≠ 46)
    if label = [] ∨ 63 < label.length ∨ 512 < out.length + 1 + label.length + 5 then none
    else if label.all isHostChar then
      buildLabels rounds ((c :: cs).drop (label.length + 1)) (out ++ UInt8.ofNat label.length :: label)
    else none

/-- `dns_build_query`; the counts behind the first one stay zero. -/
def dnsBuildQuery (host : CString) (id : UInt16) : Option (List Byte) :=
  if host.chars = [] then none
  else
    (buildLabels host.chars.length host.chars
      (put16 id ++ put16 0x0100 ++ put16 1 ++ List.replicate 6 0)).map fun out => out ++ [0] ++ put16 1 ++ put16 1

/-! ### What a message is -/

/-- A name that starts at one place ends at the other. -/
inductive NameEnds (msg : List Byte) : ℕ → ℕ → Prop
  /-- The empty label ends it. -/
  | root {o : ℕ} (h : msg[o]? = some 0) : NameEnds msg o (o + 1)
  /-- A pointer to another name ends it. -/
  | pointer {o : ℕ} {c : Byte} (h : msg[o]? = some c) (hc : c &&& 0xc0 = 0xc0) (hlen : o + 2 ≤ msg.length) :
      NameEnds msg o (o + 2)
  /-- A label, and the rest of the name. -/
  | label {o e : ℕ} {c : Byte} (h : msg[o]? = some c) (hne : c ≠ 0) (hc : c &&& 0xc0 = 0)
      (hlen : o + 1 + c.toNat ≤ msg.length) (hrest : NameEnds msg (o + 1 + c.toNat) e) : NameEnds msg o e

/-- So many questions stand between two places. -/
inductive Questions (msg : List Byte) : ℕ → ℕ → ℕ → Prop
  | nil {o : ℕ} : Questions msg 0 o o
  | cons {n o e e' : ℕ} (hname : NameEnds msg o e) (hlen : e + 4 ≤ msg.length) (hrest : Questions msg n (e + 4) e') :
      Questions msg (n + 1) o e'

/-- So many records stand between two places. -/
inductive Records (msg : List Byte) : ℕ → ℕ → ℕ → Prop
  | nil {o : ℕ} : Records msg 0 o o
  | cons {n o e e' : ℕ} {rdlen : UInt16} (hname : NameEnds msg o e) (hrdlen : be16 msg (e + 8) = some rdlen)
      (hlen : e + 10 + rdlen.toNat ≤ msg.length) (hrest : Records msg n (e + 10 + rdlen.toNat) e') :
      Records msg (n + 1) o e'

/-- The name of an answer of the message ends here: the questions and some of the answers stand in front of it. -/
def IsAnswer (msg : List Byte) (e : ℕ) : Prop :=
  ∃ qdcount ancount q k o, be16 msg 4 = some qdcount ∧ be16 msg 6 = some ancount ∧
    Questions msg qdcount.toNat 12 q ∧ k < ancount.toNat ∧ Records msg k q o ∧ NameEnds msg o e

/-- **What has to be there when an address is stored**: a response with the number of the query, and in it a complete
answer of an address, of type and class 1 and of four bytes. -/
structure Stored (dns dns' : DnsWait) (payload : List Byte) : Prop where
  id : be16 payload 0 = some dns.id
  response : ∃ flags, be16 payload 2 = some flags ∧ flags &&& 0x8000 ≠ 0
  answer : ∃ e, IsAnswer payload e ∧ be16 payload e = some 1 ∧ be16 payload (e + 2) = some 1 ∧
    be16 payload (e + 8) = some 4 ∧ e + 14 ≤ payload.length ∧ be32 payload (e + 10) = some dns'.answer
  kept : dns' = { dns with answer := dns'.answer, complete := true }

/-! ### Skipping -/

variable {msg payload : List Byte} {o n : ℕ}

/-- **A name is skipped inside the message**, wherever it starts. -/
theorem skipLoop_spec (msg : List Byte) (rounds o : ℕ) :
    ∃ r, skipLoop msg rounds o = some r ∧ ∀ e, r = some e → NameEnds msg o e := by
  induction rounds generalizing o with
  | zero => exact ⟨none, rfl, by simp⟩
  | succ rounds ih =>
    rw [skipLoop]
    by_cases hlt : o < msg.length
    swap
    · exact ⟨none, if_neg hlt, by simp⟩
    obtain ⟨c, hc⟩ := exists_getElem? hlt
    rw [if_pos hlt, hc, Option.bind_some]
    split_ifs with hzero hpointer hend hbits hlen
    · subst hzero
      refine ⟨_, rfl, ?_⟩
      rintro e he
      obtain rfl := Option.some.inj he
      exact .root hc
    · exact ⟨none, rfl, by simp⟩
    · refine ⟨_, rfl, ?_⟩
      rintro e he
      obtain rfl := Option.some.inj he
      exact .pointer hc hpointer (by omega)
    · exact ⟨none, rfl, by simp⟩
    · exact ⟨none, rfl, by simp⟩
    · obtain ⟨r, hr, hends⟩ := ih (o + 1 + c.toNat)
      exact ⟨r, hr, fun e he => .label hc hzero (not_not.1 hbits) (not_lt.1 hlen) (hends e he)⟩

theorem dnsSkipName_spec (msg : List Byte) (o : ℕ) :
    ∃ r, dnsSkipName msg o = some r ∧ ∀ e, r = some e → NameEnds msg o e := skipLoop_spec msg msg.length o

theorem skipQuestions_spec (payload : List Byte) (count o : ℕ) :
    ∃ r, skipQuestions payload count o = some r ∧ ∀ q, r = some q → Questions payload count o q := by
  induction count generalizing o with
  | zero =>
    refine ⟨some o, rfl, ?_⟩
    rintro q hq
    obtain rfl := Option.some.inj hq
    exact .nil
  | succ count ih =>
    obtain ⟨r, hr, hends⟩ := dnsSkipName_spec payload o
    rw [skipQuestions, hr, Option.bind_some]
    cases r with
    | none => exact ⟨none, rfl, by simp⟩
    | some e =>
      dsimp only
      split_ifs with hlen
      · exact ⟨none, rfl, by simp⟩
      · obtain ⟨r', hr', hrest⟩ := ih (e + 4)
        exact ⟨r', hr', fun q hq => .cons (hends e rfl) (not_lt.1 hlen) (hrest q hq)⟩

/-- A complete record of an address, whose name ends here. -/
structure AddressAt (msg : List Byte) (e : ℕ) (answer : UInt32) : Prop where
  type : be16 msg e = some 1
  classCode : be16 msg (e + 2) = some 1
  rdlen : be16 msg (e + 8) = some 4
  complete : e + 14 ≤ msg.length
  address : be32 msg (e + 10) = some answer

/-- **Records are read inside the message**, and an address that is found is that of a complete record. -/
theorem findAddress_spec (payload : List Byte) (count o : ℕ) :
    ∃ r, findAddress payload count o = some r ∧ ∀ answer, r = some answer →
      ∃ k o' e, k < count ∧ Records payload k o o' ∧ NameEnds payload o' e ∧ AddressAt payload e answer := by
  induction count generalizing o with
  | zero => exact ⟨none, rfl, by simp⟩
  | succ count ih =>
    obtain ⟨r, hr, hends⟩ := dnsSkipName_spec payload o
    rw [findAddress, hr, Option.bind_some]
    cases r with
    | none => exact ⟨none, rfl, by simp⟩
    | some e =>
      dsimp only
      by_cases hfixed : payload.length < e + 10
      · exact ⟨none, if_pos hfixed, by simp⟩
      obtain ⟨type, htype⟩ := exists_be16 payload (e) (by omega)
      obtain ⟨classCode, hclass⟩ := exists_be16 payload (e + 2) (by omega)
      obtain ⟨rdlen, hrdlen⟩ := exists_be16 payload (e + 8) (by omega)
      simp only [if_neg hfixed, htype, hclass, hrdlen, Option.bind_eq_bind, Option.bind_some]
      split_ifs with hlen haddress
      · exact ⟨none, rfl, by simp⟩
      · obtain ⟨rfl, rfl, rfl⟩ := haddress
        have hlen' : e + 14 ≤ payload.length := not_lt.1 hlen
        obtain ⟨answer, hanswer⟩ := exists_be32 payload (e + 10) (by omega)
        refine ⟨some answer, by rw [hanswer]; rfl, ?_⟩
        rintro answer' he
        obtain rfl := Option.some.inj he
        exact ⟨0, o, e, Nat.succ_pos _, .nil, hends e rfl, htype, hclass, hrdlen, hlen', hanswer⟩
      · obtain ⟨r', hr', hrest⟩ := ih (e + 10 + rdlen.toNat)
        refine ⟨r', hr', fun answer he => ?_⟩
        obtain ⟨k, o', e', hk, hrecords, hname, hat⟩ := hrest answer he
        exact ⟨k + 1, o', e', by omega, .cons (hends e rfl) hrdlen (not_lt.1 hlen) hrecords, hname, hat⟩

/-! ### Responses -/

/-- **A response is read inside the message**, and only an address of one of its answers is stored. -/
theorem processDns_spec (dns : DnsWait) (payload : List Byte) (srcIp : UInt32) (srcPort dstPort : UInt16) :
    ∃ dns', processDns dns payload srcIp srcPort dstPort = some dns' ∧ (dns' = dns ∨ Stored dns dns' payload) := by
  rw [processDns]
  split_ifs with hignored
  · exact ⟨dns, rfl, .inl rfl⟩
  have hlen : 12 ≤ payload.length := by
    by_contra hshort
    exact hignored (.inr (.inl (not_le.1 hshort)))
  obtain ⟨id, hid⟩ := exists_be16 payload (0) (by omega)
  obtain ⟨flags, hflags⟩ := exists_be16 payload (2) (by omega)
  obtain ⟨qdcount, hqdcount⟩ := exists_be16 payload (4) (by omega)
  obtain ⟨ancount, hancount⟩ := exists_be16 payload (6) (by omega)
  simp only [hid, hflags, hqdcount, hancount, Option.bind_eq_bind, Option.bind_some, Option.pure_def]
  split_ifs with hother hrefused
  · exact ⟨dns, rfl, .inl rfl⟩
  · exact ⟨dns, rfl, .inl rfl⟩
  rw [not_not] at hother
  subst hother
  obtain ⟨questions, hquestions, hskipped⟩ := skipQuestions_spec payload qdcount.toNat 12
  rw [hquestions, Option.bind_some]
  cases questions with
  | none => exact ⟨dns, rfl, .inl rfl⟩
  | some q =>
    obtain ⟨found, hfound, haddress⟩ := findAddress_spec payload ancount.toNat q
    dsimp only
    rw [hfound, Option.bind_some]
    cases found with
    | none => exact ⟨dns, rfl, .inl rfl⟩
    | some answer =>
      obtain ⟨k, o, e, hk, hrecords, hname, hat⟩ := haddress answer rfl
      refine ⟨_, rfl, .inr ⟨hid, ⟨flags, hflags, fun h => hrefused (.inl h)⟩, ⟨e, ?_, hat.type, hat.classCode,
        hat.rdlen, hat.complete, hat.address⟩, rfl⟩⟩
      exact ⟨qdcount, ancount, q, k, o, hqdcount, hancount, hskipped q rfl, hk, hrecords, hname⟩

/-! ### Queries -/

def encodeLabel (label : List Byte) : List Byte := UInt8.ofNat label.length :: label

def IsLabel (label : List Byte) : Prop := 0 < label.length ∧ label.length ≤ 63

theorem buildLabels_eq_some {rounds : ℕ} {host out out' : List Byte} (h : buildLabels rounds host out = some out') :
    ∃ labels : List (List Byte), (∀ l ∈ labels, IsLabel l) ∧ out' = out ++ labels.flatMap encodeLabel := by
  induction rounds generalizing host out with
  | zero =>
    cases host with
    | nil => exact ⟨[], by simp, by simpa [buildLabels] using h.symm⟩
    | cons c cs => simp [buildLabels] at h
  | succ rounds ih =>
    cases host with
    | nil => exact ⟨[], by simp, by simpa [buildLabels] using h.symm⟩
    | cons c cs =>
      rw [buildLabels] at h
      split_ifs at h with hbad hchars
      rw [not_or, not_or] at hbad
      obtain ⟨labels, hlabels, rfl⟩ := ih h
      refine ⟨(c :: cs).takeWhile (· ≠ 46) :: labels, List.forall_mem_cons.2 ⟨⟨?_, not_lt.1 hbad.2.1⟩, hlabels⟩, ?_⟩
      · exact List.length_pos_of_ne_nil hbad.1
      · rw [List.flatMap_cons, encodeLabel]
        simp

theorem labelLength_spec : ∀ k < 64, 0 < k → UInt8.ofNat k ≠ 0 ∧ UInt8.ofNat k &&& 0xc0 = 0 ∧ (UInt8.ofNat k).toNat = k := by
  decide +kernel

/-- **A name that was built is skipped to its end.** -/
theorem skipLoop_labels {labels : List (List Byte)} (hlabels : ∀ l ∈ labels, IsLabel l) (front back : List Byte)
    {rounds : ℕ} (hrounds : labels.length < rounds) :
    skipLoop (front ++ labels.flatMap encodeLabel ++ 0 :: back) rounds front.length =
      some (some ((front ++ labels.flatMap encodeLabel).length + 1)) := by
  induction labels generalizing front rounds with
  | nil =>
    obtain ⟨rounds, rfl⟩ := Nat.exists_eq_add_of_lt hrounds
    rw [skipLoop, if_pos (by simp)]
    simp
  | cons l labels ih =>
    obtain ⟨rounds, rfl⟩ : ∃ r, rounds = r + 1 := ⟨rounds - 1, by omega⟩
    obtain ⟨hl, hlabels⟩ := List.forall_mem_cons.1 hlabels
    obtain ⟨hne, hbits, hlen⟩ := labelLength_spec l.length (by have := hl.2; omega) hl.1
    have hsplit : front ++ (l :: labels).flatMap encodeLabel ++ 0 :: back =
        (front ++ encodeLabel l) ++ labels.flatMap encodeLabel ++ 0 :: back := by
      simp
    have hget : (front ++ (l :: labels).flatMap encodeLabel ++ 0 :: back)[front.length]? =
        some (UInt8.ofNat l.length) := by
      simp [encodeLabel]
    have hnext : front.length + 1 + l.length = (front ++ encodeLabel l).length := by
      simp [encodeLabel]
      omega
    have hroom : ¬ (front ++ (l :: labels).flatMap encodeLabel ++ 0 :: back).length <
        front.length + 1 + l.length := by
      simp [encodeLabel]
      omega
    rw [skipLoop, if_pos (by simp [encodeLabel]), hget, Option.bind_some, if_neg hne, hbits, if_neg (by decide),
      if_neg (by simp), hlen, if_neg hroom, hsplit, hnext, ih hlabels _ (by simpa using hrounds)]
    simp

/-- **The name of a query ends at its type.** -/
theorem dnsSkipName_dnsBuildQuery {host : CString} {id : UInt16} {query : List Byte}
    (h : dnsBuildQuery host id = some query) :
    dnsSkipName query 12 = some (some (query.length - 4)) ∧ be16 query (query.length - 4) = some 1 ∧
      be16 query (query.length - 2) = some 1 := by
  rw [dnsBuildQuery] at h
  split_ifs at h
  obtain ⟨out, hout, rfl⟩ := Option.map_eq_some_iff.1 h
  obtain ⟨labels, hlabels, rfl⟩ := buildLabels_eq_some hout
  set front := put16 id ++ put16 0x0100 ++ put16 1 ++ List.replicate 6 0 with hfront
  have hlen : front.length = 12 := by simp [hfront]
  have hquery : front ++ labels.flatMap encodeLabel ++ [0] ++ put16 1 ++ put16 1 =
      front ++ labels.flatMap encodeLabel ++ 0 :: (put16 1 ++ put16 1) := by
    simp
  have hcount : labels.length ≤ (labels.flatMap encodeLabel).length := by
    clear hout hquery
    induction labels with
    | nil => simp
    | cons l labels ih =>
      have := ih (List.forall_mem_cons.1 hlabels).2
      simp [encodeLabel] at this ⊢
      omega
  rw [hquery, dnsSkipName]
  have hskip := skipLoop_labels hlabels front (put16 1 ++ put16 1)
    (show labels.length < (front ++ labels.flatMap encodeLabel ++ 0 :: (put16 1 ++ put16 1)).length by
      simp only [List.length_append, List.length_cons]
      omega)
  rw [hlen] at hskip
  have htail : (front ++ labels.flatMap encodeLabel ++ 0 :: (put16 1 ++ put16 1)).length =
      (front ++ labels.flatMap encodeLabel).length + 5 := by
    rw [List.length_append]
    rfl
  rw [htail] at hskip ⊢
  rw [hskip]
  refine ⟨rfl, ?_, ?_⟩
  · exact be16_append (front ++ labels.flatMap encodeLabel) 1
  · exact be16_append (front ++ labels.flatMap encodeLabel) 3

/-- **Names and responses are read inside the message, only an address of an answer is stored, and the name of a query
ends at its type.** -/
theorem dns_safe :
    (∀ msg offset, ∃ r, dnsSkipName msg offset = some r) ∧
    (∀ dns payload srcIp srcPort dstPort, ∃ dns', processDns dns payload srcIp srcPort dstPort = some dns' ∧
      (dns' = dns ∨ Stored dns dns' payload)) ∧
    ∀ host id, ∀ query ∈ dnsBuildQuery host id, dnsSkipName query 12 = some (some (query.length - 4)) ∧
      be16 query (query.length - 4) = some 1 ∧ be16 query (query.length - 2) = some 1 := by
  refine ⟨fun msg offset => ?_, processDns_spec, fun host id query hquery => dnsSkipName_dnsBuildQuery hquery⟩
  obtain ⟨r, hr, -⟩ := dnsSkipName_spec msg offset
  exact ⟨r, hr⟩

/-- The query for `a.b`. -/
theorem dns_safe_query : ∃ query, dnsBuildQuery ⟨lit "a.b", by decide⟩ 0x544e = some query ∧
    dnsSkipName query 12 = some (some (query.length - 4)) :=
  ⟨_, rfl, (dns_safe.2.2 ⟨lit "a.b", by decide⟩ 0x544e _ rfl).1⟩

end Tnu.Net
