/-
**What the certificate reader touches.**

`der_read_tlv` of `userspace/libc/src/tls.c` tests its bounds with sums of 64 bits.  A length of eight
octets can make the last of these sums wrap: the field is then taken, with a value that goes on far
behind the certificate, and the position moves backwards.  The scan for names copies up to 127 bytes of
such a value.

Main definitions:

* `scanReads`, `parseReads` — the bytes that the scan and the parser read.

Main result:

* `derSafe_iff` — **and the walkers, when no name that they copy ends behind the certificate**.
-/

import Tnu.Tls.X509

set_option autoImplicit false

namespace Tnu.Tls

/-! ### The reader -/

/-- A certificate of `len` bytes in memory, which goes on behind it.  An object is smaller than half of
the address space. -/
structure Der where
  mem : Memory
  len : ℕ
  len_lt : len < 2 ^ 63

/-- What `der_read_tlv` did: the offsets it read, the position it left, and the tag, the offset of the
value and its length. -/
structure Tlv where
  reads : List ℕ
  pos : ℕ
  field : Option (Byte × ℕ × ℕ)

/-- The length octets at `p`: `(n << 8) | der[p]`, one after the other. -/
def lengthLoop (mem : Memory) (p bytes : ℕ) : ℕ :=
  (List.range bytes).foldl (fun n i => (n * 256 + (mem ((p + i) % word)).toNat) % word) 0

/-- The end of `der_read_tlv`, with a value of `n` bytes at `p`. -/
def tlvEnd (d : Der) (reads : List ℕ) (tag : Byte) (n p : ℕ) : Tlv :=
  if d.len < (p + n) % word then ⟨reads, p, none⟩ else ⟨reads, (p + n) % word, some (tag, p, n)⟩

/-- `der_read_tlv`, from any position; all sums are those of `size_t`. -/
def derReadTlvAt (d : Der) (pos : ℕ) : Tlv :=
  if d.len < (pos + 2) % word then ⟨[], pos, none⟩
  else
    let l := d.mem ((pos + 1) % word)
    let reads := [pos, (pos + 1) % word]
    if l &&& 0x80 = 0 then tlvEnd d reads (d.mem pos) l.toNat ((pos + 2) % word)
    else
      let bytes := (l &&& 0x7f).toNat
      if bytes = 0 ∨ 8 < bytes ∨ d.len < ((pos + 2) % word + bytes) % word then
        ⟨reads, (pos + 2) % word, none⟩
      else
        tlvEnd d (reads ++ (List.range bytes).map fun i => ((pos + 2) % word + i) % word) (d.mem pos)
          (lengthLoop d.mem ((pos + 2) % word) bytes) (((pos + 2) % word + bytes) % word)

/-! ### The promise -/

def octets (mem : Memory) (pos : ℕ) : ℕ :=
  if mem (pos + 1) < 0x80 then 0 else (mem (pos + 1)).toNat - 128

/-- Where the value of the field at `pos` starts. -/
def valueAt (mem : Memory) (pos : ℕ) : ℕ := pos + 2 + octets mem pos

/-- The number that is written in the length octets, highest first. -/
def encodedLength (mem : Memory) (pos : ℕ) : ℕ :=
  if mem (pos + 1) < 0x80 then (mem (pos + 1)).toNat
  else (Bytes.window mem (pos + 2) (octets mem pos)).foldl (fun n b => n * 256 + b.toNat) 0

/-- The header of the field at `pos` lies within the certificate, and its length is definite, with at
most eight octets. -/
structure Der.Header (d : Der) (pos : ℕ) : Prop where
  start : pos + 2 ≤ d.len
  definite : d.mem (pos + 1) ≠ 0x80
  short : octets d.mem pos ≤ 8
  inside : valueAt d.mem pos ≤ d.len

/-- **The reader is safe at `pos`**: it reads within the certificate, and a field that it takes lies
within the certificate and moves the position on. -/
structure Der.TlvSafe (d : Der) (pos : ℕ) : Prop where
  reads : ∀ i ∈ (derReadTlvAt d pos).reads, i < d.len
  value : ∀ tag p n, (derReadTlvAt d pos).field = some (tag, p, n) → p + n ≤ d.len
  position : (derReadTlvAt d pos).field ≠ none →
    pos < (derReadTlvAt d pos).pos ∧ (derReadTlvAt d pos).pos ≤ d.len

/-- **No sum wraps to one that is taken**: not the position and the two bytes of the shortest header, and
not the start of the value and the length. -/
structure Der.Ordinary (d : Der) (pos : ℕ) : Prop where
  start : pos + 2 < word ∨ d.len < pos + 2 - word
  value : d.Header pos → valueAt d.mem pos + encodedLength d.mem pos < word ∨
    d.len < valueAt d.mem pos + encodedLength d.mem pos - word

/-! ### The walkers -/

def StringTag (tag : Byte) : Prop := tag = 0x0c ∨ tag = 0x13 ∨ tag = 0x16

instance (tag : Byte) : Decidable (StringTag tag) :=
  inferInstanceAs (Decidable (tag = 0x0c ∨ tag = 0x13 ∨ tag = 0x16))

/-- What `tls_copy_string` reads of a value. -/
def copyReads (value n : ℕ) : List ℕ :=
  (List.range (min n (tnuX509NameMax - 1))).map fun i => (value + i) % word

/-- What the first half of a turn of `x509_scan_names` reads, which looks for a common name. -/
def cnReads (d : Der) (info : X509Info) (i : ℕ) : List ℕ :=
  i :: if d.mem i ≠ 0x06 then []
  else (i + 1) :: if d.mem (i + 1) ≠ 3 then []
  else [i + 2, i + 3, i + 4] ++
    if d.mem (i + 2) ≠ 0x55 ∨ d.mem (i + 3) ≠ 0x04 ∨ d.mem (i + 4) ≠ 0x03 then []
    else
      (derReadTlvAt d (i + 5)).reads ++
        match (derReadTlvAt d (i + 5)).field with
        | some (tag, value, n) => if StringTag tag ∧ info.commonName = [] then copyReads value n else []
        | none => []

def dnsReads (d : Der) (info : X509Info) (i : ℕ) : List ℕ :=
  i :: if d.mem i = 0x82 ∧ i + 1 < d.len ∧ info.dnsNames.length < 4 then
    (derReadTlvAt d i).reads ++
      match (derReadTlvAt d i).field with
      | some (tag, value, n) =>
        if tag = 0x82 ∧ 0 < n ∧ n < tnuX509NameMax then copyReads value n else []
      | none => []
  else []

def scanReads (d : Der) : List ℕ → X509Info → List ℕ
  | [], _ => []
  | i :: is, info => cnReads d info i ++ dnsReads d info i ++ scanReads d is (scanAt d.mem d.len info i)

/-- What `x509_scan_names` reads, with nothing found yet. -/
def namesReads (d : Der) (fp : List Byte) : List ℕ := scanReads d (List.range (d.len - 5)) ⟨[], [], fp⟩

/-- What `tnu_x509_parse_der` reads; the digest is over the whole certificate. -/
def parseReads (d : Der) : List ℕ :=
  if d.len < 8 then []
  else
    (derReadTlvAt d 0).reads ++
      match (derReadTlvAt d 0).field with
      | some (tag, _, _) =>
        if tag ≠ 0x30 then []
        else List.range d.len ++ namesReads d (tnuSha256 (derBytes d.mem d.len))
      | none => []

/-- The field at `i + 5`, behind the identifier of a common name at `i`, is a string that is taken. -/
structure Der.NameAt (d : Der) (i : ℕ) : Prop where
  inside : i + 5 < d.len
  oid : d.mem i = 0x06 ∧ d.mem (i + 1) = 3 ∧ d.mem (i + 2) = 0x55 ∧ d.mem (i + 3) = 0x04 ∧
    d.mem (i + 4) = 0x03
  header : d.Header (i + 5)
  tag : StringTag (d.mem (i + 5))
  taken : (valueAt d.mem (i + 5) + encodedLength d.mem (i + 5)) % word ≤ d.len

/-- **The first common name that is not empty has its bytes within the certificate**, as many as are
copied. -/
def Der.OrdinaryNames (d : Der) : Prop :=
  ∀ i, d.NameAt i → (∀ j < i, ∀ name, cnAt d.mem d.len j = some name → name = []) →
    valueAt d.mem (i + 5) + min (encodedLength d.mem (i + 5)) (tnuX509NameMax - 1) ≤ d.len

def Der.Scanned (d : Der) : Prop :=
  8 ≤ d.len ∧ d.Header 0 ∧ d.mem 0 = 0x30 ∧ (valueAt d.mem 0 + encodedLength d.mem 0) % word ≤ d.len

/-! ### The length -/

variable {d : Der} {pos : ℕ}

theorem and_high_eq_zero : ∀ n < 256, n &&& 128 = 0 ↔ n < 128 := by decide +kernel

theorem short_iff (l : Byte) : l &&& 0x80 = 0 ↔ l < 0x80 := by
  rw [← UInt8.toNat_inj, UInt8.toNat_and, UInt8.lt_iff_toNat_lt]
  exact and_high_eq_zero l.toNat l.toNat_lt

theorem octets_eq {l : Byte} (h : ¬l < 0x80) : (l &&& 0x7f).toNat = l.toNat - 128 := by
  have hlt := l.toNat_lt
  have hge : 128 ≤ l.toNat := by simpa [UInt8.lt_iff_toNat_lt] using h
  rw [UInt8.toNat_and]
  change l.toNat &&& (2 ^ 7 - 1) = l.toNat - 128
  rw [Nat.and_two_pow_sub_one_eq_mod]
  omega

theorem octets_eq_zero_iff {l : Byte} (h : ¬l < 0x80) : (l &&& 0x7f).toNat = 0 ↔ l = 0x80 := by
  have hge : 128 ≤ l.toNat := by simpa [UInt8.lt_iff_toNat_lt] using h
  rw [octets_eq h, ← UInt8.toNat_inj]
  change l.toNat - 128 = 0 ↔ l.toNat = 128
  omega

theorem foldl_octets_lt (l : List Byte) (n : ℕ) :
    l.foldl (fun n b => n * 256 + b.toNat) n < (n + 1) * 256 ^ l.length := by
  induction l generalizing n with
  | nil => simp
  | cons b l ih =>
    have hb : b.toNat < 256 := b.toNat_lt
    refine (ih (n * 256 + b.toNat)).trans_le ?_
    rw [List.length_cons, pow_succ', ← Nat.mul_assoc]
    exact Nat.mul_le_mul_right _ (by omega)

variable {info : X509Info} {i n p x : ℕ}

theorem lengthLoop_eq (mem : Memory) {bytes : ℕ} (h : p + bytes ≤ word) (hbytes : bytes ≤ 8) :
    lengthLoop mem p bytes = (Bytes.window mem p bytes).foldl (fun n b => n * 256 + b.toNat) 0 := by
  induction bytes with
  | zero => rfl
  | succ k ih =>
    have hlast : Bytes.window mem (p + k) 1 = [mem (p + k)] := rfl
    have hlt := foldl_octets_lt (Bytes.window mem p (k + 1)) 0
    rw [Bytes.length_window, Nat.zero_add, Nat.one_mul] at hlt
    have hword : 256 ^ (k + 1) ≤ word := by
      have : 256 ^ (k + 1) ≤ 256 ^ 8 := Nat.pow_le_pow_right (by norm_num) hbytes
      exact this.trans (by norm_num [word])
    rw [Bytes.window_add, List.foldl_append, hlast] at hlt ⊢
    rw [lengthLoop, List.range_succ, List.foldl_append, ← lengthLoop, ih (by omega) (by omega)]
    simp only [List.foldl_cons, List.foldl_nil] at hlt ⊢
    rw [Nat.mod_eq_of_lt (show p + k < word by omega), Nat.mod_eq_of_lt (hlt.trans_le hword)]

/-! ### A field -/

/-- The reads of the header at `pos`, when it lies within the certificate. -/
def headerReads (mem : Memory) (pos : ℕ) : List ℕ :=
  [pos, pos + 1] ++ (List.range (octets mem pos)).map fun i => pos + 2 + i

theorem lt_of_mem_headerReads (h : d.Header pos) (hi : i ∈ headerReads d.mem pos) : i < d.len := by
  have hstart := h.start
  have hinside := h.inside
  rw [valueAt] at hinside
  simp only [headerReads, List.mem_append, List.mem_cons, List.not_mem_nil, or_false, List.mem_map,
    List.mem_range] at hi
  rcases hi with (rfl | rfl) | ⟨k, hk, rfl⟩ <;> omega

/-- **A header that lies within the certificate** brings the reader to the last test. -/
theorem derReadTlvAt_of_header (h : d.Header pos) :
    derReadTlvAt d pos =
      tlvEnd d (headerReads d.mem pos) (d.mem pos) (encodedLength d.mem pos) (valueAt d.mem pos) := by
  have hlen := d.len_lt
  obtain ⟨hstart, hdef, hshort, hinside⟩ := h
  have hword : word = 2 ^ 64 := rfl
  have h1 : (pos + 1) % word = pos + 1 := Nat.mod_eq_of_lt (by omega)
  have h2 : (pos + 2) % word = pos + 2 := Nat.mod_eq_of_lt (by omega)
  rw [derReadTlvAt, h1, h2, if_neg (by omega)]
  dsimp only
  unfold headerReads encodedLength valueAt at *
  unfold octets at *
  by_cases hl : d.mem (pos + 1) < 0x80
  · rw [if_pos ((short_iff _).2 hl)]
    simp only [if_pos hl, List.range_zero, List.map_nil, List.append_nil, Nat.add_zero]
  · rw [if_neg (mt (short_iff _).1 hl)]
    simp only [if_neg hl] at hshort hinside ⊢
    rw [octets_eq hl]
    have hzero : (d.mem (pos + 1)).toNat - 128 ≠ 0 := by
      rw [← octets_eq hl]
      exact mt (octets_eq_zero_iff hl).1 hdef
    have h3 : (pos + 2 + ((d.mem (pos + 1)).toNat - 128)) % word =
        pos + 2 + ((d.mem (pos + 1)).toNat - 128) := Nat.mod_eq_of_lt (by omega)
    have hreads : (List.range ((d.mem (pos + 1)).toNat - 128)).map (fun i => (pos + 2 + i) % word) =
        (List.range ((d.mem (pos + 1)).toNat - 128)).map fun i => pos + 2 + i := by
      refine List.map_congr_left fun i hi => Nat.mod_eq_of_lt ?_
      have hi' := List.mem_range.1 hi
      omega
    rw [h3, if_neg (by omega), lengthLoop_eq _ (by omega) hshort, hreads]

theorem cases_of_not_header (h : ¬d.Header pos) :
    d.len < pos + 2 ∨ ¬d.mem (pos + 1) < 0x80 ∧
      ((d.mem (pos + 1)).toNat - 128 = 0 ∨ 8 < (d.mem (pos + 1)).toNat - 128 ∨
        d.len < pos + 2 + ((d.mem (pos + 1)).toNat - 128)) := by
  by_cases hstart : d.len < pos + 2
  · exact .inl hstart
  by_cases hl : d.mem (pos + 1) < 0x80
  · refine absurd ⟨by omega, ?_, ?_, ?_⟩ h
    · intro heq
      rw [heq] at hl
      exact absurd hl (by decide)
    · rw [octets, if_pos hl]
      norm_num
    · rw [valueAt, octets, if_pos hl]
      omega
  · refine .inr ⟨hl, ?_⟩
    by_contra hno
    rw [not_or, not_or] at hno
    obtain ⟨hne, hshort, hinside⟩ := hno
    refine h ⟨by omega, ?_, ?_, ?_⟩
    · intro heq
      rw [← octets_eq hl] at hne
      exact hne ((octets_eq_zero_iff hl).2 heq)
    · rw [octets, if_neg hl]
      omega
    · rw [valueAt, octets, if_neg hl]
      omega

/-- **Where there is no such header**, the reader takes nothing, and reads at most two bytes. -/
theorem derReadTlvAt_of_not_header (hpos : pos + 2 < word) (h : ¬d.Header pos) :
    (derReadTlvAt d pos).field = none ∧ ∀ i ∈ (derReadTlvAt d pos).reads, i < d.len := by
  have hlen := d.len_lt
  have hword : word = 2 ^ 64 := rfl
  have h1 : (pos + 1) % word = pos + 1 := Nat.mod_eq_of_lt (by omega)
  have h2 : (pos + 2) % word = pos + 2 := Nat.mod_eq_of_lt hpos
  rw [derReadTlvAt, h1, h2]
  by_cases hstart : d.len < pos + 2
  · rw [if_pos hstart]
    exact ⟨rfl, by simp⟩
  obtain ⟨hl, hbad⟩ := (cases_of_not_header h).resolve_left hstart
  have hle : (d.mem (pos + 1)).toNat < 256 := (d.mem (pos + 1)).toNat_lt
  have h3 : (pos + 2 + ((d.mem (pos + 1)).toNat - 128)) % word =
      pos + 2 + ((d.mem (pos + 1)).toNat - 128) := Nat.mod_eq_of_lt (by omega)
  rw [if_neg hstart]
  dsimp only
  rw [if_neg (mt (short_iff _).1 hl), octets_eq hl, h3, if_pos hbad]
  refine ⟨rfl, ?_⟩
  simp only [List.mem_cons, List.not_mem_nil, or_false]
  rintro i (rfl | rfl) <;> omega

theorem not_tlvSafe_of_wraps (hpos : pos < word) (hwrap : word ≤ pos + 2) (hle : pos + 2 - word ≤ d.len) :
    ¬d.TlvSafe pos := by
  intro hsafe
  have hlen := d.len_lt
  have hword : word = 2 ^ 64 := rfl
  have hreads := hsafe.reads pos ?_
  · omega
  have hmod : (pos + 2) % word = pos + 2 - word := by
    rw [Nat.mod_eq_sub_mod hwrap, Nat.mod_eq_of_lt (by omega)]
  have hmem : ∀ (reads : List ℕ) (tag : Byte) (n p : ℕ), pos ∈ reads →
      pos ∈ (tlvEnd d reads tag n p).reads := by
    intro reads tag n p hmem
    rw [tlvEnd]
    split
    · exact hmem
    · exact hmem
  rw [derReadTlvAt, hmod, if_neg (by omega)]
  dsimp only
  split_ifs
  · exact hmem _ _ _ _ (by simp)
  · simp
  · exact hmem _ _ _ _ (by simp)

/-- **The reader is safe exactly where no sum wraps to one that it takes.** -/
theorem tlvSafe_iff (hpos : pos < word) : d.TlvSafe pos ↔ d.Ordinary pos := by
  have hlen := d.len_lt
  have hword : word = 2 ^ 64 := rfl
  by_cases hstart : word ≤ pos + 2 ∧ pos + 2 - word ≤ d.len
  · refine iff_of_false (not_tlvSafe_of_wraps hpos hstart.1 hstart.2) fun hord => ?_
    have hs := hord.start
    omega
  by_cases hwrap : word ≤ pos + 2
  · -- the test of the start refuses the field
    have hmod : (pos + 2) % word = pos + 2 - word := by
      rw [Nat.mod_eq_sub_mod hwrap, Nat.mod_eq_of_lt (by omega)]
    have hnone : derReadTlvAt d pos = ⟨[], pos, none⟩ := by
      rw [derReadTlvAt, hmod, if_pos (by omega)]
    refine iff_of_true ⟨by simp [hnone], by simp [hnone], by simp [hnone]⟩
      ⟨by omega, fun hheader => ?_⟩
    have hs := hheader.start
    omega
  by_cases hheader : d.Header pos
  · have heq := derReadTlvAt_of_header hheader
    have hin := fun i hi => lt_of_mem_headerReads (i := i) hheader hi
    have hinside := hheader.inside
    have hvalue : pos + 2 ≤ valueAt d.mem pos := Nat.le_add_right _ _
    have hlow : encodedLength d.mem pos < word := by
      rw [encodedLength]
      split
      · exact (d.mem (pos + 1)).toNat_lt.trans (by norm_num [word])
      · have hlt := foldl_octets_lt (Bytes.window d.mem (pos + 2) (octets d.mem pos)) 0
        rw [Bytes.length_window, Nat.zero_add, Nat.one_mul] at hlt
        exact hlt.trans_le ((Nat.pow_le_pow_right (by norm_num) hheader.short).trans (by norm_num [word]))
    rw [tlvEnd] at heq
    constructor
    · intro hsafe
      refine ⟨by omega, fun _ => ?_⟩
      by_contra hno
      rw [not_or, not_lt, not_lt] at hno
      have hmod : (valueAt d.mem pos + encodedLength d.mem pos) % word =
          valueAt d.mem pos + encodedLength d.mem pos - word := by
        rw [Nat.mod_eq_sub_mod hno.1, Nat.mod_eq_of_lt (by omega)]
      rw [hmod, if_neg (by omega)] at heq
      have hend := hsafe.value _ _ _ (by rw [heq])
      omega
    · intro hord
      have hval := hord.value hheader
      by_cases hlt : valueAt d.mem pos + encodedLength d.mem pos < word
      · rw [Nat.mod_eq_of_lt hlt] at heq
        by_cases hend : d.len < valueAt d.mem pos + encodedLength d.mem pos
        · rw [if_pos hend] at heq
          exact ⟨by rw [heq]; exact hin, by simp [heq], by simp [heq]⟩
        · rw [if_neg hend] at heq
          refine ⟨by rw [heq]; exact hin, fun tag p n hfield => ?_, fun _ => ?_⟩
          · rw [heq] at hfield
            obtain ⟨-, rfl, rfl⟩ := by simpa using hfield
            omega
          · rw [heq]
            dsimp only
            omega
      · have hmod : (valueAt d.mem pos + encodedLength d.mem pos) % word =
            valueAt d.mem pos + encodedLength d.mem pos - word := by
          rw [Nat.mod_eq_sub_mod (not_lt.1 hlt), Nat.mod_eq_of_lt (by omega)]
        rw [hmod, if_pos (by omega)] at heq
        exact ⟨by rw [heq]; exact hin, by simp [heq], by simp [heq]⟩
  · obtain ⟨hfield, hreads⟩ := derReadTlvAt_of_not_header (by omega) hheader
    refine iff_of_true ⟨hreads, by simp [hfield], by simp [hfield]⟩
      ⟨by omega, fun hh => absurd hh hheader⟩

/-! ### The walkers read what the reader takes -/

/-- **The header is read within the certificate**, wherever it starts there. -/
theorem reads_inside (hpos : pos + 2 < word) (hi : i ∈ (derReadTlvAt d pos).reads) : i < d.len := by
  by_cases hheader : d.Header pos
  · rw [derReadTlvAt_of_header hheader, tlvEnd] at hi
    split at hi
    · exact lt_of_mem_headerReads hheader hi
    · exact lt_of_mem_headerReads hheader hi
  · exact (derReadTlvAt_of_not_header hpos hheader).2 i hi

theorem field_eq_some_iff (hpos : pos + 2 < word) {tag : Byte} :
    (derReadTlvAt d pos).field = some (tag, p, n) ↔ d.Header pos ∧ tag = d.mem pos ∧
      p = valueAt d.mem pos ∧ n = encodedLength d.mem pos ∧ (p + n) % word ≤ d.len := by
  by_cases hheader : d.Header pos
  · rw [derReadTlvAt_of_header hheader, tlvEnd]
    by_cases hend : d.len < (valueAt d.mem pos + encodedLength d.mem pos) % word
    · rw [if_pos hend]
      constructor
      · intro h
        cases h
      · rintro ⟨-, -, rfl, rfl, hle⟩
        omega
    · rw [if_neg hend, Option.some.injEq, Prod.mk.injEq, Prod.mk.injEq]
      constructor
      · rintro ⟨rfl, rfl, rfl⟩
        exact ⟨hheader, rfl, rfl, rfl, not_lt.1 hend⟩
      · rintro ⟨-, rfl, rfl, rfl, -⟩
        exact ⟨rfl, rfl, rfl⟩
  · rw [(derReadTlvAt_of_not_header hpos hheader).1]
    exact iff_of_false (by simp) fun h => hheader h.1

theorem copyReads_inside_iff {value : ℕ} (hvalue : value ≤ d.len) :
    (∀ x ∈ copyReads value n, x < d.len) ↔ value + min n (tnuX509NameMax - 1) ≤ d.len := by
  have hlen := d.len_lt
  have hword : word = 2 ^ 64 := rfl
  have hmax : min n (tnuX509NameMax - 1) ≤ 127 := min_le_right _ _
  have hmod : ∀ i < min n (tnuX509NameMax - 1), (value + i) % word = value + i := fun i hi =>
    Nat.mod_eq_of_lt (by omega)
  simp only [copyReads, List.forall_mem_map, List.mem_range]
  constructor
  · intro h
    rcases Nat.eq_zero_or_pos (min n (tnuX509NameMax - 1)) with hzero | hpos
    · omega
    · have hlast := h (min n (tnuX509NameMax - 1) - 1) (by omega)
      rw [hmod _ (by omega)] at hlast
      omega
  · intro h i hi
    rw [hmod i hi]
    omega

/-! ### The scan -/

theorem mem_scanReads {l : List ℕ} :
    x ∈ scanReads d l info ↔ ∃ l₁ i l₂, l = l₁ ++ i :: l₂ ∧
      (x ∈ cnReads d (l₁.foldl (scanAt d.mem d.len) info) i ∨
        x ∈ dnsReads d (l₁.foldl (scanAt d.mem d.len) info) i) := by
  induction l generalizing info with
  | nil => exact iff_of_false (by simp [scanReads]) (by rintro ⟨l₁, i, l₂, heq, -⟩; cases l₁ <;> cases heq)
  | cons i is ih =>
    rw [scanReads, List.mem_append, List.mem_append, ih]
    constructor
    · rintro (hhead | ⟨l₁, j, l₂, rfl, hx⟩)
      · exact ⟨[], i, is, rfl, hhead⟩
      · exact ⟨i :: l₁, j, l₂, rfl, hx⟩
    · rintro ⟨l₁, j, l₂, heq, hx⟩
      cases l₁ with
      | nil =>
        obtain ⟨rfl, rfl⟩ := List.cons.inj heq
        exact .inl hx
      | cons k l₁ =>
        obtain ⟨rfl, rfl⟩ := List.cons.inj heq
        exact .inr ⟨l₁, j, l₂, rfl, hx⟩

theorem range_eq_append_iff {l₁ l₂ : List ℕ} (h : List.range n = l₁ ++ i :: l₂) :
    l₁ = List.range i ∧ i < n := by
  have hlen := congrArg List.length h
  rw [List.length_range, List.length_append, List.length_cons] at hlen
  have hi : i = l₁.length := by
    have hget : (List.range n)[l₁.length]? = some i := by
      rw [h, List.getElem?_append_right le_rfl, Nat.sub_self, List.getElem?_cons_zero]
    rw [List.getElem?_range (by omega)] at hget
    exact (Option.some.inj hget).symm
  have htake : (List.range n).take l₁.length = l₁ := by rw [h, List.take_left]
  rw [List.take_range, min_eq_left (by omega), ← hi] at htake
  exact ⟨htake.symm, by omega⟩

theorem commonName_eq_nil_iff {fp : List Byte} :
    ((List.range i).foldl (scanAt d.mem d.len) ⟨[], [], fp⟩).commonName = [] ↔
      ∀ j < i, ∀ name, cnAt d.mem d.len j = some name → name = [] := by
  rw [foldl_scanAt _ _ (by simp), firstName, if_pos rfl]
  constructor
  · intro h j hj name hname
    by_contra hne
    cases hfind : ((List.range i).filterMap (cnAt d.mem d.len)).find? (· ≠ []) with
    | none =>
      rw [List.find?_eq_none] at hfind
      exact hfind name (List.mem_filterMap.2 ⟨j, List.mem_range.2 hj, hname⟩) (by simpa using hne)
    | some found =>
      rw [hfind] at h
      exact absurd h (by simpa using List.find?_some hfind)
  · intro h
    cases hfind : ((List.range i).filterMap (cnAt d.mem d.len)).find? (· ≠ []) with
    | none => rfl
    | some found =>
      obtain ⟨j, hj, hname⟩ := List.mem_filterMap.1 (List.mem_of_find?_eq_some hfind)
      exact h j (List.mem_range.1 hj) found hname

/-- **A DNS name is read within the certificate**: one that is copied is short. -/
theorem dnsReads_inside (hi : i + 5 < d.len) (hx : x ∈ dnsReads d info i) :
    x < d.len := by
  have hlen := d.len_lt
  have hword : word = 2 ^ 64 := rfl
  have hpos : i + 2 < word := by omega
  rw [dnsReads, List.mem_cons] at hx
  rcases hx with rfl | hx
  · omega
  split_ifs at hx with htag
  · rcases List.mem_append.1 hx with hx | hx
    · exact reads_inside hpos hx
    cases hfield : (derReadTlvAt d i).field with
    | none => simp [hfield] at hx
    | some field =>
      obtain ⟨tag, value, n⟩ := field
      rw [hfield] at hx
      dsimp only at hx
      split_ifs at hx with hshort
      · obtain ⟨hheader, -, rfl, rfl, hend⟩ := (field_eq_some_iff hpos).1 hfield
        have hmax : tnuX509NameMax = 128 := rfl
        have hinside := hheader.inside
        have hmin := min_le_left (encodedLength d.mem i) (tnuX509NameMax - 1)
        rw [Nat.mod_eq_of_lt (by omega)] at hend
        exact (copyReads_inside_iff hinside).2 (by omega) x hx
      · simp at hx
  · simp at hx

theorem cnReads_inside_iff (hi : i + 5 < d.len) :
    (∀ x ∈ cnReads d info i, x < d.len) ↔ (d.NameAt i → info.commonName = [] →
      valueAt d.mem (i + 5) + min (encodedLength d.mem (i + 5)) (tnuX509NameMax - 1) ≤ d.len) := by
  have hlen := d.len_lt
  have hword : word = 2 ^ 64 := rfl
  have hpos : i + 5 + 2 < word := by omega
  by_cases hoid : d.mem i = 0x06 ∧ d.mem (i + 1) = 3 ∧ d.mem (i + 2) = 0x55 ∧ d.mem (i + 3) = 0x04 ∧
    d.mem (i + 4) = 0x03
  · obtain ⟨h0, h1, h2, h3, h4⟩ := hoid
    have hreads : cnReads d info i = [i, i + 1, i + 2, i + 3, i + 4] ++
        ((derReadTlvAt d (i + 5)).reads ++
          match (derReadTlvAt d (i + 5)).field with
          | some (tag, value, n) => if StringTag tag ∧ info.commonName = [] then copyReads value n else []
          | none => []) := by
      rw [cnReads, if_neg (by simp [h0]), if_neg (by simp [h1]), if_neg (by simp [h2, h3, h4])]
      rfl
    have hfront : ∀ x ∈ [i, i + 1, i + 2, i + 3, i + 4], x < d.len := by
      simp only [List.forall_mem_cons]
      refine ⟨?_, ?_, ?_, ?_, ?_, by simp⟩ <;> omega
    rw [hreads, List.forall_mem_append, List.forall_mem_append]
    constructor
    · rintro ⟨-, -, hcopy⟩ hname hempty
      have hfield := (field_eq_some_iff hpos).2 ⟨hname.header, rfl, rfl, rfl, hname.taken⟩
      rw [hfield] at hcopy
      dsimp only at hcopy
      rw [if_pos ⟨hname.tag, hempty⟩] at hcopy
      exact (copyReads_inside_iff hname.header.inside).1 hcopy
    · intro h
      refine ⟨hfront, fun x hx => reads_inside hpos hx, ?_⟩
      cases hfield : (derReadTlvAt d (i + 5)).field with
      | none => simp
      | some field =>
        obtain ⟨tag, value, n⟩ := field
        obtain ⟨hheader, rfl, rfl, rfl, hend⟩ := (field_eq_some_iff hpos).1 hfield
        dsimp only
        split_ifs with htag
        · exact (copyReads_inside_iff hheader.inside).2
            (h ⟨hi, ⟨h0, h1, h2, h3, h4⟩, hheader, htag.1, hend⟩ htag.2)
        · simp
  · refine iff_of_true (fun x hx => ?_) fun hname => absurd hname.oid hoid
    rw [cnReads] at hx
    split_ifs at hx with h0 h1 h234
    · simp only [List.mem_cons, List.not_mem_nil, or_false] at hx
      omega
    · simp only [List.mem_cons, List.not_mem_nil, or_false] at hx
      omega
    · simp only [List.mem_cons, List.append_nil, List.not_mem_nil, or_false] at hx
      omega
    · rw [not_not] at h0 h1
      rw [not_or, not_or, not_not, not_not, not_not] at h234
      exact absurd ⟨h0, h1, h234⟩ hoid

/-- **The scan reads within the certificate exactly when the common name does.** -/
theorem namesReads_inside_iff (d : Der) (fp : List Byte) :
    (∀ x ∈ namesReads d fp, x < d.len) ↔ d.OrdinaryNames := by
  constructor
  · intro h i hname hempty
    have hi := hname.inside
    have hnil : ((List.range i).foldl (scanAt d.mem d.len) ⟨[], [], fp⟩).commonName = [] :=
      commonName_eq_nil_iff.2 hempty
    refine (cnReads_inside_iff hi).1 (fun x hx => h x ?_) hname hnil
    rw [namesReads, mem_scanReads]
    have hsplit : List.range (d.len - 5) = List.range i ++ i :: (List.range (d.len - 5)).drop (i + 1) := by
      have htake : (List.range (d.len - 5)).take i = List.range i := by
        rw [List.take_range, min_eq_left (by omega)]
      have hdrop : (List.range (d.len - 5)).drop i = i :: (List.range (d.len - 5)).drop (i + 1) := by
        rw [List.drop_eq_getElem_cons (by rw [List.length_range]; omega), List.getElem_range]
      rw [← hdrop, ← htake, List.take_append_drop]
    exact ⟨_, i, _, hsplit, .inl hx⟩
  · intro h x hx
    rw [namesReads, mem_scanReads] at hx
    obtain ⟨l₁, i, l₂, heq, hx⟩ := hx
    obtain ⟨rfl, hlt⟩ := range_eq_append_iff heq
    have hi : i + 5 < d.len := by omega
    rcases hx with hx | hx
    · exact (cnReads_inside_iff hi).2 (fun hname hempty => h i hname (commonName_eq_nil_iff.1 hempty)) x hx
    · exact dnsReads_inside hi hx

theorem parseReads_inside_iff (d : Der) :
    (∀ x ∈ parseReads d, x < d.len) ↔ (d.Scanned → d.OrdinaryNames) := by
  have hpos : 0 + 2 < word := by norm_num [word]
  rw [parseReads]
  by_cases hshort : d.len < 8
  · rw [if_pos hshort]
    exact iff_of_true (by simp) fun hs => absurd hs.1 (not_le.2 hshort)
  rw [if_neg hshort, List.forall_mem_append]
  have hreads : ∀ x ∈ (derReadTlvAt d 0).reads, x < d.len := fun x hx => reads_inside hpos hx
  cases hfield : (derReadTlvAt d 0).field with
  | none =>
    refine iff_of_true ⟨hreads, by simp⟩ fun hs => ?_
    have hsome := (field_eq_some_iff hpos).2 ⟨hs.2.1, rfl, rfl, rfl, hs.2.2.2⟩
    rw [hfield] at hsome
    cases hsome
  | some field =>
    obtain ⟨tag, value, n⟩ := field
    obtain ⟨hheader, rfl, rfl, rfl, hend⟩ := (field_eq_some_iff hpos).1 hfield
    dsimp only
    by_cases htag : d.mem 0 = 0x30
    · rw [if_neg (not_not.2 htag), List.forall_mem_append, namesReads_inside_iff]
      constructor
      · intro h _
        exact h.2.2
      · intro h
        exact ⟨hreads, fun x hx => List.mem_range.1 hx, h ⟨not_lt.1 hshort, hheader, htag, hend⟩⟩
    · rw [if_pos htag]
      exact iff_of_true ⟨hreads, by simp⟩ fun hs => absurd hs.2.2.1 htag

/-- **The reader and the walkers are safe exactly where no sum wraps to one that is taken, and the common
name that is copied lies within the certificate.** -/
theorem derSafe_iff (d : Der) (pos : Fin word) (fp : List Byte) :
    (d.TlvSafe pos ↔ d.Ordinary pos) ∧
      ((∀ x ∈ namesReads d fp, x < d.len) ↔ d.OrdinaryNames) ∧
        ((∀ x ∈ parseReads d, x < d.len) ↔ (d.Scanned → d.OrdinaryNames)) :=
  ⟨tlvSafe_iff pos.isLt, namesReads_inside_iff d fp, parseReads_inside_iff d⟩

/-- A sequence with a common name whose eight length octets are all ones. -/
def wrapDer : Der where
  mem i := [0x30, 0x0f, 0x06, 0x03, 0x55, 0x04, 0x03, 0x0c, 0x88, 0xff, 0xff, 0xff, 0xff, 0xff, 0xff, 0xff,
    0xff].getD i 0
  len := 17
  len_lt := by norm_num

theorem header_wrapDer : wrapDer.Header 7 := ⟨by decide, by decide, by decide, by decide⟩

theorem valueAt_wrapDer : valueAt wrapDer.mem 7 = 17 := by decide

theorem encodedLength_wrapDer : encodedLength wrapDer.mem 7 = word - 1 := by decide

/-- The reader takes the name of this certificate, and the parser reads behind it. -/
theorem not_derSafe : (¬∀ (d : Der) (pos : Fin word), d.TlvSafe pos) ∧
    ¬∀ d : Der, ∀ x ∈ parseReads d, x < d.len := by
  have hlen : wrapDer.len = 17 := rfl
  have hword : word = 2 ^ 64 := rfl
  constructor
  · intro hall
    have hord := ((tlvSafe_iff (by norm_num [word])).1 (hall wrapDer ⟨7, by norm_num [word]⟩)).value
      header_wrapDer
    dsimp only at hord
    rw [valueAt_wrapDer, encodedLength_wrapDer, hlen] at hord
    omega
  · intro hall
    have hord := (parseReads_inside_iff wrapDer).1 (hall wrapDer)
      ⟨by decide, ⟨by decide, by decide, by decide, by decide⟩, by decide, by decide⟩ 2
      ⟨by decide, by decide, header_wrapDer, by decide, by
        rw [valueAt_wrapDer, encodedLength_wrapDer, hlen]
        norm_num⟩ (by decide)
    rw [valueAt_wrapDer, encodedLength_wrapDer, hlen] at hord
    exact absurd hord (by norm_num [word])

end Tnu.Tls
