/-
**Firmware images.**

`kernel/drivers/net/iwlwifi.c` knows two formats of firmware: a header with five sizes, and a header in front of a row
of records, each with a type, an alternative and a length.  The records that are sections of the two programs are put
into two arrays, sorted by the address they go to.  Every read goes through `bytesIn`, which fails outside the image.

The arrays have 96 places, and what comes when they are full is left out.

Main definitions:

* `iwlParseTlvSections`, `iwlParseLegacySections` — the two parsers.

Main result:

* `firmwareLaw` — **the arrays hold the first 96 sections of an image, sorted**.
-/

import Tnu.Lib.Insertion
import Tnu.Wifi.RxRing

set_option autoImplicit false

namespace Tnu.Wifi.Fw

open Insertion (StablySorted)
open Mgmt (bytesIn bytesIn_of_le)
open Rx (le32At)

/-! ### The state -/

/-- `struct iwlwifi_fw_part`; a pointer is a position in the image. -/
structure FwPart where
  text : Option ℕ
  textSize : UInt32
  data : Option ℕ
  dataSize : UInt32
  deriving DecidableEq, Repr

/-- `struct iwlwifi_fw_section`. -/
structure FwSection where
  offset : UInt32
  data : ℕ
  size : UInt32
  deriving DecidableEq, Repr

def FwSection.address (s : FwSection) : ℕ := s.offset.toNat

/-- `IWLWIFI_FW_SECTION_MAX`. -/
abbrev fwSectionMax : ℕ := 96

/-- What is kept of one program: `runtime_ucode`, `runtime_sections` with their count, and `runtime_section_bytes`, or
the same of `init`. -/
structure FwProgram where
  part : FwPart
  sections : List FwSection
  sectionBytes : UInt64
  deriving DecidableEq, Repr

/-- The fields of `struct iwlwifi_state` that belong to the firmware. -/
structure FwState where
  version : UInt32
  build : UInt32
  human : List Byte
  tlv : Bool
  runtime : FwProgram
  init : FwProgram
  boot : FwPart
  tlvFlags : UInt32
  apiFlags : List UInt32
  capaFlags : List UInt32
  parsed : Bool
  deriving DecidableEq, Repr

def le64At (l : List Byte) (i : ℕ) : UInt64 := (le32At l i).toUInt64 ||| (le32At l (i + 4)).toUInt64 <<< 32

/-! ### The sections -/

def iwlInsertFwSectionSorted (p : FwProgram) (s : FwSection) : FwProgram :=
  if s.size = 0 ∨ fwSectionMax ≤ p.sections.length then p
  else
    { p with
      sections := Insertion.insert FwSection.address p.sections s
      sectionBytes := p.sectionBytes + s.size.toUInt64 }

/-- `IWL_TLV_SEC_RT` and `IWL_TLV_SEC_INIT`: a section, with its address in front. -/
def storeSection (fw : List Byte) (ptr : ℕ) (len : UInt32) (p : FwProgram) : Option FwProgram :=
  if 4 < len.toNat ∧ p.sections.length < fwSectionMax then
    (bytesIn fw ptr 4).map fun b =>
      let p := iwlInsertFwSectionSorted p ⟨le32At b 0, ptr + 4, len - 4⟩
      { p with part := { p.part with
          text := if p.part.text = none then some (ptr + 4) else p.part.text
          textSize := p.part.textSize + (len - 4) } }
  else some p

/-- `IWL_TLV_API_CHANGES_SET` and `IWL_TLV_ENABLED_CAPABILITIES`: a word with its index in front. -/
def storeWord (fw : List Byte) (ptr : ℕ) (len : UInt32) (words : List UInt32) : Option (List UInt32) :=
  if 8 ≤ len.toNat then
    (bytesIn fw ptr 8).map fun b => if (le32At b 0).toNat < 4 then words.set (le32At b 0).toNat (le32At b 4) else words
  else some words

/-- The `switch` over the type of a record. -/
def tlvEntry (fw : List Byte) (type : UInt16) (ptr : ℕ) (len : UInt32) (st : FwState) : Option FwState :=
  if type = 1 then
    some { st with runtime.part := { st.runtime.part with text := some ptr, textSize := len } }
  else if type = 2 then
    some { st with runtime.part := { st.runtime.part with data := some ptr, dataSize := len } }
  else if type = 3 then some { st with init.part := { st.init.part with text := some ptr, textSize := len } }
  else if type = 4 then some { st with init.part := { st.init.part with data := some ptr, dataSize := len } }
  else if type = 5 then some { st with boot := { st.boot with text := some ptr, textSize := len } }
  else if type = 18 then
    if 4 ≤ len.toNat then (bytesIn fw ptr 4).map fun b => { st with tlvFlags := le32At b 0 } else some st
  else if type = 29 then (storeWord fw ptr len st.apiFlags).map fun words => { st with apiFlags := words }
  else if type = 30 then (storeWord fw ptr len st.capaFlags).map fun words => { st with capaFlags := words }
  else if type = 19 then (storeSection fw ptr len st.runtime).map fun p => { st with runtime := p }
  else if type = 20 then (storeSection fw ptr len st.init).map fun p => { st with init := p }
  else some st

/-! ### The row of records -/

/-- `(len + 3u) & ~3u`. -/
def padded (len : UInt32) : ℕ := ((len + 3) &&& ~~~3).toNat

/-- `while (ptr + 8 <= end)`: the state, and whether no record overran the image. -/
def tlvLoop (fw : List Byte) (alt ptr : ℕ) (st : FwState) : Option (FwState × Bool) :=
  if ptr + 8 ≤ fw.length then
    (bytesIn fw ptr 8).bind fun head =>
      let len := le32At head 4
      if fw.length < ptr + 8 + len.toNat then some (st, false)
      else
        (if le16At head 2 = 0 ∨ (le16At head 2).toNat = alt then tlvEntry fw (le16At head 0) (ptr + 8) len st
          else some st).bind fun st => tlvLoop fw alt (ptr + 8 + padded len) st
  else some (st, true)
termination_by fw.length + 8 - ptr
decreasing_by omega

def altLoop (altmask : UInt64) : ℕ → ℕ
  | 0 => 0
  | candidate + 1 =>
    if altmask &&& (1 <<< UInt64.ofNat (candidate + 1)) ≠ 0 then candidate + 1 else altLoop altmask candidate

def partPresent (p : FwPart) : Bool := p.text.isSome && p.textSize ≠ 0 && p.data.isSome && p.dataSize ≠ 0

/-- `IWL_TLV_HEADER_SIZE`. -/
abbrev tlvHeaderSize : ℕ := 88

def iwlParseTlvSections (st : FwState) (fw : List Byte) : Option (FwState × Bool) :=
  (bytesIn fw 80 8).bind fun mask =>
    (tlvLoop fw (altLoop (le64At mask 0) 3) tlvHeaderSize st).map fun (st, ok) =>
      if ok = false then (st, false)
      else
        let parsed := partPresent st.runtime.part && partPresent st.init.part || 0 < st.runtime.sections.length
        ({ st with parsed := parsed }, parsed)

/-! ### The headers, and the older format -/

def iwlValidateTlvFirmware (st : FwState) (fw : List Byte) : Option (FwState × Bool) :=
  if fw.length < tlvHeaderSize then some (st, false)
  else
    (bytesIn fw 0 80).map fun head =>
      if le32At head 0 ≠ 0 ∨ le32At head 4 ≠ 0x0a4c5749 then (st, false)
      else
        ({ st with
            human := (head.drop 8).take 64 ++ [0]
            version := le32At head 72
            build := le32At head 76
            tlv := true }, true)

/-- The length of the header of the older format: `firmware_api` is in the second byte of the version. -/
def legacyHeader (version : UInt32) : ℕ := if 3 ≤ (version >>> 8 &&& 0xff).toNat then 28 else 24

def legacySizes (fw : List Byte) (header : ℕ) : Option (List ℕ) :=
  (bytesIn fw (if header = 28 then 8 else 4) 20).map fun b =>
    [(le32At b 0).toNat, (le32At b 4).toNat, (le32At b 8).toNat, (le32At b 12).toNat, (le32At b 16).toNat]

def iwlValidateLegacyFirmware (st : FwState) (fw : List Byte) : Option (FwState × Bool) :=
  if fw.length < 28 then some (st, false)
  else
    (bytesIn fw 0 4).bind fun head =>
      let version := le32At head 0
      let header := legacyHeader version
      if fw.length < header then some (st, false)
      else
        (legacySizes fw header).map fun sizes =>
          if fw.length < header + sizes.sum then (st, false)
          else
            ({ st with
                version := version
                build := 0
                tlv := false
                human := lit ("legacy iwl firmware v" ++ toString version.toNat) ++ [0] }, true)

def iwlParseLegacySections (st : FwState) (fw : List Byte) : Option (FwState × Bool) :=
  let header := legacyHeader st.version
  (legacySizes fw header).map fun sizes =>
    let size (i : ℕ) := UInt32.ofNat (sizes.getD i 0)
    let ptr (i : ℕ) := header + (sizes.take i).sum
    let runtime : FwPart := ⟨some (ptr 0), size 0, some (ptr 1), size 1⟩
    let init : FwPart := ⟨some (ptr 2), size 2, some (ptr 3), size 3⟩
    let parsed := partPresent runtime && partPresent init
    ({ st with
        runtime.part := runtime
        init.part := init
        boot := { st.boot with text := some (ptr 4), textSize := size 4 }
        parsed := parsed }, parsed)

/-! ### What an image lists -/

/-- A record: its type and alternative, where its bytes begin, and how many there are. -/
structure Record where
  type : UInt16
  alt : UInt16
  pos : ℕ
  len : UInt32
  deriving DecidableEq, Repr

def recordAt (fw : List Byte) (ptr : ℕ) : Record where
  type := le16At fw ptr
  alt := le16At fw (ptr + 2)
  pos := ptr + 8
  len := le32At fw (ptr + 4)

/-- The records from here on, each padded to a multiple of four bytes, and whether all of them are whole. -/
def walk (fw : List Byte) (ptr : ℕ) : List Record × Bool :=
  if ptr + 8 ≤ fw.length then
    if fw.length < ptr + 8 + (recordAt fw ptr).len.toNat then ([], false)
    else
      let rest := walk fw (ptr + 8 + padded (recordAt fw ptr).len)
      (recordAt fw ptr :: rest.1, rest.2)
  else ([], true)
termination_by fw.length + 8 - ptr
decreasing_by omega

/-- The alternative that is selected: the highest of the three that the header offers. -/
def selectedAlt (fw : List Byte) : ℕ := altLoop (le64At fw 80) 3

/-- The section of a program that a record is, if it is not empty and of the right alternative. -/
def sectionOf (fw : List Byte) (alt : ℕ) (type : UInt16) (r : Record) : Option FwSection :=
  if r.type = type ∧ (r.alt = 0 ∨ r.alt.toNat = alt) ∧ 4 < r.len.toNat then
    some ⟨le32At fw r.pos, r.pos + 4, r.len - 4⟩
  else none

/-- **The sections of a program that an image lists**, in the order of the file. -/
def listed (fw : List Byte) (type : UInt16) : List FwSection :=
  (walk fw tlvHeaderSize).1.filterMap (sectionOf fw (selectedAlt fw) type)

/-- What is kept of one program, when these sections came. -/
structure Stored (fw : List Byte) (came : List FwSection) (p : FwProgram) : Prop where
  sorted : StablySorted FwSection.address p.sections (came.take fwSectionMax)
  inside : ∀ s ∈ p.sections, s.data + s.size.toNat ≤ fw.length
  total : p.sectionBytes.toNat = (p.sections.map fun s => s.size.toNat).sum

/-- A state without sections. -/
structure Clean (st : FwState) : Prop where
  runtime : st.runtime.sections = [] ∧ st.runtime.sectionBytes = 0
  init : st.init.sections = [] ∧ st.init.sectionBytes = 0

def freshFirmware : FwState where
  version := 0
  build := 0
  human := []
  tlv := false
  runtime := ⟨⟨none, 0, none, 0⟩, [], 0⟩
  init := ⟨⟨none, 0, none, 0⟩, [], 0⟩
  boot := ⟨none, 0, none, 0⟩
  tlvFlags := 0
  apiFlags := List.replicate 4 0
  capaFlags := List.replicate 4 0
  parsed := false

/-- **What the parsers do** with an image: no read leaves it, and if it is of the newer format and the parser succeeds,
then the arrays hold the first sections that it lists. -/
structure FirmwareLaw (fw : List Byte) : Prop where
  tlv : ∀ st st₁, Clean st → iwlValidateTlvFirmware st fw = some (st₁, true) →
    ∃ st' ok, iwlParseTlvSections st₁ fw = some (st', ok) ∧
      (ok = true → Stored fw (listed fw 19) st'.runtime ∧ Stored fw (listed fw 20) st'.init)
  legacy : ∀ st st₁, iwlValidateLegacyFirmware st fw = some (st₁, true) →
    ∃ st' ok, iwlParseLegacySections st₁ fw = some (st', ok)

/-- **What one would like to hold too**: all of the sections are there. -/
def AllStored (fw : List Byte) : Prop :=
  ∀ st st₁ st', Clean st → iwlValidateTlvFirmware st fw = some (st₁, true) →
    iwlParseTlvSections st₁ fw = some (st', true) →
    StablySorted FwSection.address st'.runtime.sections (listed fw 19) ∧
      StablySorted FwSection.address st'.init.sections (listed fw 20)

/-! ### One record -/

variable {fw : List Byte} {came : List FwSection} {p : FwProgram} {st : FwState} {r : Record}

theorem Stored.length_eq (h : Stored fw came p) : p.sections.length = min fwSectionMax came.length := by
  rw [h.sorted.length_eq, List.length_take]

theorem Stored.total_le (h : Stored fw came p) : p.sectionBytes.toNat ≤ 96 * 2 ^ 32 := by
  have hsum : (p.sections.map fun s => s.size.toNat).sum ≤ (p.sections.map fun s => s.size.toNat).length • 2 ^ 32 := by
    refine List.sum_le_card_nsmul _ _ fun n hn => ?_
    obtain ⟨s, -, rfl⟩ := List.mem_map.1 hn
    exact (UInt32.toNat_lt s.size).le
  have hlen : p.sections.length ≤ 96 := h.length_eq.trans_le (Nat.min_le_left _ _)
  rw [h.total]
  rw [List.length_map, smul_eq_mul] at hsum
  exact hsum.trans (Nat.mul_le_mul_right _ hlen)

theorem take_append_singleton {α : Type*} (l : List α) (a : α) (n : ℕ) :
    (l ++ [a]).take n = if l.length < n then l.take n ++ [a] else l.take n := by
  split_ifs with h
  · rw [List.take_of_length_le (by rw [List.length_append, List.length_singleton]; omega), List.take_of_length_le h.le]
  · rw [List.take_append_of_le_length (not_lt.1 h)]

/-- **A section goes to its place**, if there is one. -/
theorem Stored.insert (h : Stored fw came p) {s : FwSection} (hsize : s.size ≠ 0)
    (hinside : s.data + s.size.toNat ≤ fw.length) : Stored fw (came ++ [s]) (iwlInsertFwSectionSorted p s) := by
  have hlen := h.length_eq
  rw [iwlInsertFwSectionSorted]
  by_cases hfull : fwSectionMax ≤ p.sections.length
  · rw [if_pos (Or.inr hfull)]
    refine ⟨?_, h.inside, h.total⟩
    rw [take_append_singleton, if_neg (by omega)]
    exact h.sorted
  · rw [if_neg (not_or.2 ⟨hsize, hfull⟩)]
    have hperm := Insertion.insert_perm FwSection.address p.sections s
    refine ⟨?_, fun t ht => ?_, ?_⟩
    · rw [take_append_singleton, if_pos (by omega)]
      exact h.sorted.insert s
    · rcases List.mem_cons.1 (hperm.mem_iff.1 ht) with rfl | ht
      · exact hinside
      · exact h.inside t ht
    · have hbound := h.total_le
      have hsmall := UInt32.toNat_lt s.size
      rw [(hperm.map _).sum_eq, List.map_cons, List.sum_cons, ← h.total, UInt64.toNat_add, UInt32.toNat_toUInt64,
        Nat.mod_eq_of_lt (by omega), Nat.add_comm]

theorem Stored.part (h : Stored fw came p) (part : FwPart) : Stored fw came { p with part := part } :=
  ⟨h.sorted, h.inside, h.total⟩

theorem Stored.full (h : Stored fw came p) (hfull : fwSectionMax ≤ p.sections.length) (s : FwSection) :
    Stored fw (came ++ [s]) p := by
  have hlen := h.length_eq
  refine ⟨?_, h.inside, h.total⟩
  rw [take_append_singleton, if_neg (by omega)]
  exact h.sorted

theorem le32At_take (l : List Byte) {i j n : ℕ} (h : j + 4 ≤ n) : le32At ((l.drop i).take n) j = le32At l (i + j) := by
  rw [le32At, le32At, Mgmt.getD_take_drop l (by omega), Mgmt.getD_take_drop l (by omega),
    Mgmt.getD_take_drop l (by omega), Mgmt.getD_take_drop l (by omega), Nat.add_assoc, Nat.add_assoc, Nat.add_assoc]

variable {init runtime : List FwSection} {alt ptr : ℕ}

theorem storeSection_spec (h : Stored fw came p) {len : UInt32} (hwhole : ptr + len.toNat ≤ fw.length) :
    ∃ p', storeSection fw ptr len p = some p' ∧
      Stored fw (came ++ if 4 < len.toNat then [⟨le32At fw ptr, ptr + 4, len - 4⟩] else []) p' := by
  rw [storeSection]
  by_cases hlen : 4 < len.toNat
  · have hsub : (len - 4).toNat = len.toNat - 4 := by
      rw [UInt32.toNat_sub_of_le _ _ (UInt32.le_iff_toNat_le.2 (show (4 : UInt32).toNat ≤ len.toNat from hlen.le))]
      rfl
    rw [if_pos hlen]
    by_cases hroom : p.sections.length < fwSectionMax
    · rw [if_pos ⟨hlen, hroom⟩, bytesIn_of_le (by omega), Option.map_some, le32At_take fw le_rfl]
      refine ⟨_, rfl, (h.insert (fun hzero => ?_) ?_).part _⟩
      · rw [← UInt32.toNat_inj, hsub] at hzero
        have : (0 : UInt32).toNat = 0 := rfl
        omega
      · dsimp only
        omega
    · rw [if_neg fun h => hroom h.2]
      exact ⟨p, rfl, h.full (not_lt.1 hroom) _⟩
  · rw [if_neg fun h => hlen h.1, if_neg hlen, List.append_nil]
    exact ⟨p, rfl, h⟩

theorem storeWord_isSome (words : List UInt32) {len : UInt32} (hwhole : ptr + len.toNat ≤ fw.length) :
    (storeWord fw ptr len words).isSome = true := by
  rw [storeWord]
  split_ifs with hlen
  · rw [bytesIn_of_le (by omega)]
    rfl
  · rfl

/-- What is kept of the two programs. -/
structure Both (fw : List Byte) (runtime init : List FwSection) (st : FwState) : Prop where
  runtime : Stored fw runtime st.runtime
  init : Stored fw init st.init

theorem sectionOf_of_ne {type : UInt16} (h : r.type ≠ type) : sectionOf fw alt type r = none :=
  if_neg fun hr => h hr.1

theorem sectionOf_of_eq {type : UInt16} (h : r.type = type) (halt : r.alt = 0 ∨ r.alt.toNat = alt) :
    (sectionOf fw alt type r).toList = if 4 < r.len.toNat then [⟨le32At fw r.pos, r.pos + 4, r.len - 4⟩] else [] := by
  rw [sectionOf]
  by_cases hlen : 4 < r.len.toNat
  · rw [if_pos ⟨h, halt, hlen⟩, if_pos hlen]
    rfl
  · rw [if_neg fun hr => hlen hr.2.2, if_neg hlen]
    rfl

theorem tlvEntry_of_other (hwhole : r.pos + r.len.toNat ≤ fw.length) (h19 : r.type ≠ 19) (h20 : r.type ≠ 20)
    (h : Both fw runtime init st) :
    ∃ st', tlvEntry fw r.type r.pos r.len st = some st' ∧ Both fw runtime init st' := by
  rw [tlvEntry]
  split_ifs
  · exact ⟨_, rfl, h.runtime.part _, h.init⟩
  · exact ⟨_, rfl, h.runtime.part _, h.init⟩
  · exact ⟨_, rfl, h.runtime, h.init.part _⟩
  · exact ⟨_, rfl, h.runtime, h.init.part _⟩
  · exact ⟨_, rfl, h.runtime, h.init⟩
  · rw [bytesIn_of_le (by omega)]
    exact ⟨_, rfl, h.runtime, h.init⟩
  · exact ⟨st, rfl, h⟩
  · obtain ⟨words, hwords⟩ := Option.isSome_iff_exists.1 (storeWord_isSome st.apiFlags hwhole)
    rw [hwords]
    exact ⟨_, rfl, h.runtime, h.init⟩
  · obtain ⟨words, hwords⟩ := Option.isSome_iff_exists.1 (storeWord_isSome st.capaFlags hwhole)
    rw [hwords]
    exact ⟨_, rfl, h.runtime, h.init⟩
  · exact ⟨st, rfl, h⟩

/-- **One record.** -/
theorem Both.record (h : Both fw runtime init st)
    (hwhole : r.pos + r.len.toNat ≤ fw.length) (alt : ℕ) :
    ∃ st', (if r.alt = 0 ∨ r.alt.toNat = alt then tlvEntry fw r.type r.pos r.len st else some st) = some st' ∧
      Both fw (runtime ++ (sectionOf fw alt 19 r).toList) (init ++ (sectionOf fw alt 20 r).toList) st' := by
  by_cases halt : r.alt = 0 ∨ r.alt.toNat = alt
  · rw [if_pos halt]
    by_cases h19 : r.type = 19
    · have h20 : r.type ≠ 20 := by
        rw [h19]
        decide
      obtain ⟨p, hp, hstored⟩ := storeSection_spec h.runtime hwhole
      rw [sectionOf_of_ne h20, sectionOf_of_eq h19 halt, Option.toList_none, List.append_nil]
      refine ⟨{ st with runtime := p }, ?_, hstored, h.init⟩
      rw [h19, tlvEntry, hp]
      rfl
    · by_cases h20 : r.type = 20
      · obtain ⟨p, hp, hstored⟩ := storeSection_spec h.init hwhole
        rw [sectionOf_of_ne h19, sectionOf_of_eq h20 halt, Option.toList_none, List.append_nil]
        refine ⟨{ st with init := p }, ?_, h.runtime, hstored⟩
        rw [h20, tlvEntry, hp]
        rfl
      · rw [sectionOf_of_ne h19, sectionOf_of_ne h20, Option.toList_none, List.append_nil, List.append_nil]
        exact tlvEntry_of_other hwhole h19 h20 h
  · have hnone : ∀ type, sectionOf fw alt type r = none := fun type => if_neg fun hr => halt hr.2.1
    rw [if_neg halt, hnone, hnone, Option.toList_none, List.append_nil, List.append_nil]
    exact ⟨st, rfl, h⟩

/-! ### The row of records -/

theorem tlvLoop_of_end (st : FwState) (alt : ℕ) (h : ¬ ptr + 8 ≤ fw.length) :
    tlvLoop fw alt ptr st = some (st, true) ∧ walk fw ptr = ([], true) := by
  rw [tlvLoop, walk, if_neg h, if_neg h]
  exact ⟨rfl, rfl⟩

theorem tlvLoop_of_over (st : FwState) (alt : ℕ) (h : ptr + 8 ≤ fw.length)
    (hover : fw.length < ptr + 8 + (recordAt fw ptr).len.toNat) :
    tlvLoop fw alt ptr st = some (st, false) ∧ walk fw ptr = ([], false) := by
  rw [tlvLoop, walk, if_pos h, if_pos h, if_pos hover, bytesIn_of_le h, Option.bind_some, le32At_take fw (by norm_num)]
  exact ⟨if_pos hover, rfl⟩

theorem tlvLoop_of_whole (st : FwState) (alt : ℕ) (h : ptr + 8 ≤ fw.length)
    (hwhole : (recordAt fw ptr).pos + (recordAt fw ptr).len.toNat ≤ fw.length) :
    (tlvLoop fw alt ptr st =
        (if (recordAt fw ptr).alt = 0 ∨ (recordAt fw ptr).alt.toNat = alt then
          tlvEntry fw (recordAt fw ptr).type (recordAt fw ptr).pos (recordAt fw ptr).len st
        else some st).bind fun st => tlvLoop fw alt (ptr + 8 + padded (recordAt fw ptr).len) st) ∧
      walk fw ptr = (recordAt fw ptr :: (walk fw (ptr + 8 + padded (recordAt fw ptr).len)).1,
        (walk fw (ptr + 8 + padded (recordAt fw ptr).len)).2) := by
  have hover : ¬ fw.length < ptr + 8 + (recordAt fw ptr).len.toNat := not_lt.2 hwhole
  constructor
  · rw [tlvLoop, if_pos h, bytesIn_of_le h, Option.bind_some, le32At_take fw (by norm_num),
      Mgmt.le16At_take fw (by norm_num), Mgmt.le16At_take fw (by norm_num)]
    exact if_neg hover
  · rw [walk, if_pos h, if_neg hover]

/-- **The row of records**: the sections among them are stored, one after the other. -/
theorem tlvLoop_spec (fw : List Byte) (alt ptr : ℕ) (h : Both fw runtime init st) :
    ∃ st', tlvLoop fw alt ptr st = some (st', (walk fw ptr).2) ∧
      Both fw (runtime ++ (walk fw ptr).1.filterMap (sectionOf fw alt 19))
        (init ++ (walk fw ptr).1.filterMap (sectionOf fw alt 20)) st' := by
  -- along what is left of the image
  induction hn : fw.length + 8 - ptr using Nat.strong_induction_on generalizing ptr runtime init st with
  | _ n ih =>
    by_cases hend : ptr + 8 ≤ fw.length
    · by_cases hover : fw.length < ptr + 8 + (recordAt fw ptr).len.toNat
      · obtain ⟨hloop, hwalk⟩ := tlvLoop_of_over st alt hend hover
        rw [hwalk, List.filterMap_nil, List.append_nil, List.filterMap_nil, List.append_nil]
        exact ⟨st, hloop, h⟩
      · have hwhole : (recordAt fw ptr).pos + (recordAt fw ptr).len.toNat ≤ fw.length := not_lt.1 hover
        obtain ⟨hloop, hwalk⟩ := tlvLoop_of_whole st alt hend hwhole
        obtain ⟨st₁, hentry, hboth⟩ := h.record hwhole alt
        obtain ⟨st', hnext, hrest⟩ := ih _ (by omega) (ptr + 8 + padded (recordAt fw ptr).len) hboth rfl
        have hcons : ∀ type, (walk fw ptr).1.filterMap (sectionOf fw alt type) =
            (sectionOf fw alt type (recordAt fw ptr)).toList ++
              (walk fw (ptr + 8 + padded (recordAt fw ptr).len)).1.filterMap (sectionOf fw alt type) := fun type => by
          rw [hwalk, List.filterMap_cons]
          cases sectionOf fw alt type (recordAt fw ptr) <;> rfl
        refine ⟨st', ?_, ?_⟩
        · rw [hloop, hentry, Option.bind_some, hnext, hwalk]
        · rw [hcons, hcons, ← List.append_assoc, ← List.append_assoc]
          exact hrest
    · obtain ⟨hloop, hwalk⟩ := tlvLoop_of_end st alt hend
      rw [hwalk, List.filterMap_nil, List.append_nil, List.filterMap_nil, List.append_nil]
      exact ⟨st, hloop, h⟩

/-! ### The law -/

theorem Clean.both (h : Clean st) (fw : List Byte) : Both fw [] [] st where
  runtime := by
    refine ⟨?_, fun s hs => ?_, ?_⟩
    · rw [h.runtime.1]
      exact StablySorted.nil
    · rw [h.runtime.1] at hs
      cases hs
    · rw [h.runtime.1, h.runtime.2]
      rfl
  init := by
    refine ⟨?_, fun s hs => ?_, ?_⟩
    · rw [h.init.1]
      exact StablySorted.nil
    · rw [h.init.1] at hs
      cases hs
    · rw [h.init.1, h.init.2]
      rfl

/-- **The parser of the newer format**: it succeeds when no record overran the image and there is something to start. -/
theorem iwlParseTlvSections_spec (h : Both fw [] [] st) (hlen : tlvHeaderSize ≤ fw.length) :
    ∃ st' ok, iwlParseTlvSections st fw = some (st', ok) ∧
      ((walk fw tlvHeaderSize).2 = true → listed fw 19 ≠ [] → ok = true) ∧
      (ok = true → Both fw (listed fw 19) (listed fw 20) st') := by
  have h88 : tlvHeaderSize = 88 := rfl
  obtain ⟨st', hloop, hboth⟩ := tlvLoop_spec fw (selectedAlt fw) tlvHeaderSize h
  have hmask : le64At ((fw.drop 80).take 8) 0 = le64At fw 80 := by
    rw [le64At, le64At, le32At_take fw (by norm_num), le32At_take fw (by norm_num)]
  rw [iwlParseTlvSections, bytesIn_of_le (by omega), Option.bind_some, hmask, ← selectedAlt, hloop, Option.map_some]
  rw [List.nil_append, List.nil_append] at hboth
  cases hwalk : (walk fw tlvHeaderSize).2 with
  | false => exact ⟨st', false, rfl, (absurd · Bool.false_ne_true), (absurd · Bool.false_ne_true)⟩
  | true =>
    refine ⟨_, _, rfl, fun _ hne => ?_, fun _ => ⟨hboth.runtime, hboth.init⟩⟩
    have hpos : 0 < (listed fw 19).length := List.length_pos_iff.2 hne
    have hmany := hboth.runtime.length_eq
    rw [← listed] at hmany
    have hsome : 0 < st'.runtime.sections.length := by
      rw [hmany]
      exact lt_min (by norm_num) hpos
    simp [hsome]

theorem of_iwlValidateTlvFirmware {st₁ : FwState} (h : iwlValidateTlvFirmware st fw = some (st₁, true)) :
    tlvHeaderSize ≤ fw.length ∧ st₁.runtime = st.runtime ∧ st₁.init = st.init := by
  rw [iwlValidateTlvFirmware] at h
  split_ifs at h with hshort
  · cases h
  · have h88 : tlvHeaderSize = 88 := rfl
    rw [bytesIn_of_le (by omega), Option.map_some, Option.some_inj] at h
    split_ifs at h
    · cases h
    · cases h
      exact ⟨not_lt.1 hshort, rfl, rfl⟩

theorem legacySizes_isSome (hlen : 28 ≤ fw.length) (version : UInt32) :
    (legacySizes fw (legacyHeader version)).isSome = true := by
  rw [legacySizes, legacyHeader]
  split_ifs with hapi hheader
  · rw [bytesIn_of_le (by omega)]
    rfl
  · exact absurd rfl hheader
  · rename_i hheader
    cases hheader
  · rw [bytesIn_of_le (by omega)]
    rfl

/-- **What the parsers do.** -/
theorem firmwareLaw (fw : List Byte) : FirmwareLaw fw where
  tlv := fun st st₁ hclean hvalid => by
    obtain ⟨hlen, hruntime, hinit⟩ := of_iwlValidateTlvFirmware hvalid
    have hclean : Clean st₁ := ⟨by rw [hruntime]; exact hclean.runtime, by rw [hinit]; exact hclean.init⟩
    obtain ⟨st', ok, hparse, -, hboth⟩ := iwlParseTlvSections_spec (hclean.both fw) hlen
    exact ⟨st', ok, hparse, fun hok => ⟨(hboth hok).runtime, (hboth hok).init⟩⟩
  legacy := fun st st₁ hvalid => by
    have hlen : 28 ≤ fw.length := by
      by_contra hshort
      rw [iwlValidateLegacyFirmware, if_pos (not_le.1 hshort)] at hvalid
      cases hvalid
    obtain ⟨sizes, hsizes⟩ := Option.isSome_iff_exists.1 (legacySizes_isSome hlen st₁.version)
    rw [iwlParseLegacySections]
    dsimp only
    rw [hsizes]
    exact ⟨_, _, rfl⟩

/-! ### Too many sections -/

def blankSection : List Byte := [19, 0, 0, 0, 5, 0, 0, 0, 0, 0, 0, 0, 0, 0, 0, 0]

def tlvHeader : List Byte := [0, 0, 0, 0, 0x49, 0x57, 0x4c, 0x0a] ++ List.replicate 80 0

theorem getD_append (pre l : List Byte) (i : ℕ) : (pre ++ l).getD (pre.length + i) 0 = l.getD i 0 := by
  rw [List.getD_eq_getElem?_getD, List.getD_eq_getElem?_getD, List.getElem?_append_right (Nat.le_add_right _ _),
    Nat.add_sub_cancel_left]

theorem recordAt_blankSection (pre rest : List Byte) :
    recordAt (pre ++ (blankSection ++ rest)) pre.length = ⟨19, 0, pre.length + 8, 5⟩ := by
  have hget := getD_append pre (blankSection ++ rest)
  have hzero : (pre ++ (blankSection ++ rest)).getD pre.length 0 = (blankSection ++ rest).getD 0 0 := hget 0
  have htype : le16At (blankSection ++ rest) 0 = 19 :=
    (by decide : (19 : Byte).toUInt16 ||| (0 : Byte).toUInt16 <<< 8 = 19)
  have halt : le16At (blankSection ++ rest) 2 = 0 :=
    (by decide : (0 : Byte).toUInt16 ||| (0 : Byte).toUInt16 <<< 8 = 0)
  have hlen : le32At (blankSection ++ rest) 4 = 5 :=
    (by decide : (5 : Byte).toUInt32 ||| (0 : Byte).toUInt32 <<< 8 ||| (0 : Byte).toUInt32 <<< 16 |||
      (0 : Byte).toUInt32 <<< 24 = 5)
  rw [le16At] at htype halt
  rw [le32At] at hlen
  simp only [recordAt, le16At, le32At, Nat.add_assoc, hzero, hget]
  rw [htype, halt, hlen]

theorem walk_blankSections (n alt : ℕ) (pre : List Byte) :
    (walk (pre ++ (List.replicate n blankSection).flatten) pre.length).2 = true ∧
      ((walk (pre ++ (List.replicate n blankSection).flatten) pre.length).1.filterMap
        (sectionOf (pre ++ (List.replicate n blankSection).flatten) alt 19)).length = n := by
  induction n generalizing pre with
  | zero =>
    rw [List.replicate_zero, List.flatten_nil, List.append_nil, walk, if_neg (by omega)]
    exact ⟨rfl, rfl⟩
  | succ n ih =>
    have hnext : (pre ++ blankSection) ++ (List.replicate n blankSection).flatten =
        pre ++ (List.replicate (n + 1) blankSection).flatten := by
      rw [List.replicate_succ, List.flatten_cons, List.append_assoc]
    have hrecord : recordAt (pre ++ (List.replicate (n + 1) blankSection).flatten) pre.length =
        ⟨19, 0, pre.length + 8, 5⟩ := by
      rw [List.replicate_succ, List.flatten_cons]
      exact recordAt_blankSection pre _
    have hsize : (pre ++ blankSection).length = pre.length + 8 + padded 5 := List.length_append
    have hroom : pre.length + 16 ≤ (pre ++ (List.replicate (n + 1) blankSection).flatten).length := by
      rw [← hnext, List.length_append, hsize]
      have hpad : padded 5 = 8 := rfl
      omega
    have hlen : (5 : UInt32).toNat = 5 := rfl
    obtain ⟨hwhole, hcount⟩ := ih (pre ++ blankSection)
    have hhead : pre.length + 8 ≤ (pre ++ (List.replicate (n + 1) blankSection).flatten).length := by omega
    have hbody : (recordAt (pre ++ (List.replicate (n + 1) blankSection).flatten) pre.length).pos +
        (recordAt (pre ++ (List.replicate (n + 1) blankSection).flatten) pre.length).len.toNat ≤
          (pre ++ (List.replicate (n + 1) blankSection).flatten).length := by
      rw [hrecord, hlen]
      dsimp only
      omega
    obtain ⟨-, hwalk⟩ := tlvLoop_of_whole freshFirmware alt hhead hbody
    rw [hrecord] at hwalk
    rw [hnext, hsize] at hwhole hcount
    rw [hwalk]
    refine ⟨hwhole, ?_⟩
    have hsome : sectionOf (pre ++ (List.replicate (n + 1) blankSection).flatten) alt 19 ⟨19, 0, pre.length + 8, 5⟩ =
        some _ := if_pos ⟨rfl, Or.inl rfl, (by decide : 4 < (5 : UInt32).toNat)⟩
    rw [List.filterMap_cons, hsome, List.length_cons, hcount]

def crowdedImage : List Byte := tlvHeader ++ (List.replicate 97 blankSection).flatten

theorem length_tlvHeader : tlvHeader.length = tlvHeaderSize := by
  rw [tlvHeader, List.length_append, List.length_replicate]
  rfl

theorem crowdedImage_valid : ∃ st₁, iwlValidateTlvFirmware freshFirmware crowdedImage = some (st₁, true) := by
  have hlen : tlvHeaderSize ≤ crowdedImage.length := by
    rw [crowdedImage, List.length_append, length_tlvHeader]
    exact Nat.le_add_right _ _
  have h88 : tlvHeaderSize = 88 := rfl
  have hzero : le32At ((crowdedImage.drop 0).take 80) 0 = 0 := by
    rw [le32At_take _ (by norm_num)]
    exact (by decide : (0 : Byte).toUInt32 ||| (0 : Byte).toUInt32 <<< 8 ||| (0 : Byte).toUInt32 <<< 16 |||
      (0 : Byte).toUInt32 <<< 24 = 0)
  have hmagic : le32At ((crowdedImage.drop 0).take 80) 4 = 0x0a4c5749 := by
    rw [le32At_take _ (by norm_num)]
    exact (by decide : (0x49 : Byte).toUInt32 ||| (0x57 : Byte).toUInt32 <<< 8 ||| (0x4c : Byte).toUInt32 <<< 16 |||
      (0x0a : Byte).toUInt32 <<< 24 = 0x0a4c5749)
  rw [iwlValidateTlvFirmware, if_neg (not_lt.2 hlen), bytesIn_of_le (by omega), Option.map_some, hzero, hmagic]
  exact ⟨_, rfl⟩

/-- **An image with more sections than fit is not rejected**, and one of them is missing. -/
theorem not_allStored : ¬ AllStored crowdedImage := by
  intro h
  obtain ⟨st₁, hvalid⟩ := crowdedImage_valid
  have hclean : Clean freshFirmware := ⟨⟨rfl, rfl⟩, ⟨rfl, rfl⟩⟩
  obtain ⟨hlen, hruntime, hinit⟩ := of_iwlValidateTlvFirmware hvalid
  have hclean₁ : Clean st₁ := ⟨by rw [hruntime]; exact hclean.runtime, by rw [hinit]; exact hclean.init⟩
  obtain ⟨hwhole, hcount⟩ := walk_blankSections 97 (selectedAlt crowdedImage) tlvHeader
  rw [length_tlvHeader, ← crowdedImage] at hwhole hcount
  have hlisted : (listed crowdedImage 19).length = 97 := hcount
  obtain ⟨st', ok, hparse, hok, hboth⟩ := iwlParseTlvSections_spec (hclean₁.both crowdedImage) hlen
  obtain rfl := hok hwhole (List.ne_nil_of_length_pos (by omega))
  have hfew := (hboth rfl).runtime.length_eq
  have hall := (h _ _ _ hclean hvalid hparse).1.length_eq
  rw [hlisted] at hfew hall
  have hmin : min fwSectionMax 97 = 96 := rfl
  omega

end Tnu.Wifi.Fw
