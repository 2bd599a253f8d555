/-
**The list of access points over scans and frames.**

A scan clears the list (`iwl_mvm_scan`, `iwl_send_scan_command`), a beacon puts an entry into it, and
`net_wifi_scan_results` of `kernel/drivers/net/net.c` reads its first entries.  Over any run the list is a table of
the latest entries (`Lib.Latest`) in front of free slots, and its length is the counter that the reader trusts.

A reader that has no room at all is turned away with an error, where the smaller of its room and the entries would
be zero.

Main definitions:

* `step`, `run` — a frame or a scan, and many.

Main results:

* `CacheRep.run` — **the list is a table of the latest entries**;
* `netWifiScanResults_eq` — the reader gives the first entries, each one once;
* `apCache_law` — both, with what they say about the array.
-/

import Tnu.Lib.Latest
import Tnu.Wifi.Management

set_option autoImplicit false

namespace Tnu.Wifi.Mgmt

open Elements

/-! ### Scans and frames -/

def freeEntry : ApEntry where
  valid := false
  ssid := List.replicate 33 0
  ssidLen := 0
  bssid := List.replicate 6 0
  channel := 0
  rssi := 0
  privacy := false
  securityFlags := 0

/-- A scan begins: `st->ap_count = 0` and the `memset` behind it. -/
def beginScan (st : State) : State := { st with apCount := 0, aps := List.replicate apCacheMax freeEntry }

def startState : State := beginScan freshState

/-- What happens to the list. -/
inductive Event
  | frame (bytes : List Byte)
  | scan

def step (st : State) : Event → Option State
  | .frame bytes => iwlParseMgmtFrame st bytes
  | .scan => some (beginScan st)

def run (st : State) (events : List Event) : Option State := events.foldlM step st

instance (frame : List Byte) (subtype : Byte) : Decidable (IsSubtype frame subtype) :=
  inferInstanceAs (Decidable (_ ∧ _))

instance (frame : List Byte) : Decidable (IsBeacon frame) := inferInstanceAs (Decidable (_ ∧ _))

def offered (frame : List Byte) : Option ApEntry :=
  if IsBeacon frame then
    (lastSsid (frameElements frame)).map fun name =>
      apEntry name (bssidOf frame) (lastChannel (frameElements frame)) (capOf frame) (frameFlags frame name) 0
  else none

def offersStep (history : List ApEntry) : Event → List ApEntry
  | .frame bytes => history ++ (offered bytes).toList
  | .scan => []

/-- **The entries that were offered since the last scan began.** -/
def offers (events : List Event) : List ApEntry := events.foldl offersStep []

/-! ### The reader -/

/-- `enum net_iface_type`. -/
inductive IfaceType
  | loopback
  | ethernet
  | wifi
  deriving DecidableEq

/-- The fields of `struct net_iface` that the reader looks at, with what `driver_data` points to. -/
structure Iface where
  type : IfaceType
  driver : List Byte
  driverData : Option State

def iwlwifiStateFor (iface : Iface) : Option State :=
  if iface.driver ≠ lit "iwlwifi" then none else iface.driverData

/-- `struct wifi_ap`. -/
structure WifiAp where
  ssid : List Byte
  bssid : List Byte
  channel : Byte
  rssi : ℤ
  flags : UInt16
  deriving DecidableEq

def wifiAp (ap : ApEntry) : WifiAp where
  ssid := ssidArray ((cstr ap.ssid).take 32)
  bssid := ap.bssid
  channel := ap.channel
  rssi := ap.rssi
  flags := ap.securityFlags

/-- The loop over the first slots of one list, with those written so far. -/
def apLoop (out : List WifiAp) : List ApEntry → List WifiAp
  | [] => out
  | ap :: aps => if ap.valid then apLoop (out ++ [wifiAp ap]) aps else apLoop out aps

def ifaceLoop (maxAps : ℕ) (out : List WifiAp) : List Iface → List WifiAp
  | [] => out
  | iface :: ifaces =>
    if out.length < maxAps then
      if iface.type ≠ IfaceType.wifi ∨ iface.driver ≠ lit "iwlwifi" then ifaceLoop maxAps out ifaces
      else
        match iwlwifiStateFor iface with
        | none => ifaceLoop maxAps out ifaces
        | some st =>
          let n := if st.apCount < maxAps - out.length then st.apCount else maxAps - out.length
          ifaceLoop maxAps (apLoop out (st.aps.take n)) ifaces
    else out

/-- `net_wifi_scan_results`: what is written to `out`, or an error. -/
def netWifiScanResults (ifaces : List Iface) (out : Bool) (maxAps : ℕ) : Option (List WifiAp) :=
  if out = false ∨ maxAps = 0 then none else some (ifaceLoop maxAps [] ifaces)

/-! ### The list is a table -/

/-- **The list is a table of entries in front of free slots.** -/
structure CacheRep (st : State) (table : List ApEntry) : Prop where
  length_le : table.length ≤ apCacheMax
  valid : ∀ ap ∈ table, ap.valid = true
  aps : st.aps = table ++ List.replicate (apCacheMax - table.length) freeEntry
  apCount : st.apCount = table.length

theorem cacheRep_beginScan (st : State) : CacheRep (beginScan st) [] where
  length_le := Nat.zero_le _
  valid := fun _ h => by cases h
  aps := rfl
  apCount := rfl

theorem findIdx?_congr {α : Type*} {p q : α → Bool} {l : List α} (h : ∀ a ∈ l, p a = q a) :
    l.findIdx? p = l.findIdx? q := by
  induction l with
  | nil => rfl
  | cons a l ih =>
    rw [List.findIdx?_cons, List.findIdx?_cons, h a List.mem_cons_self,
      ih fun b hb => h b (List.mem_cons_of_mem _ hb)]

variable {table history : List ApEntry} {st : State}

theorem slotLoop_table (hvalid : ∀ ap ∈ table, ap.valid = true) (bssid : List Byte) (n : ℕ) :
    slotLoop bssid (table ++ List.replicate n freeEntry) 0 none =
      (table.findIdx? fun ap => ap.bssid = bssid).or (if 0 < n then some table.length else none) := by
  have hmatch : (table ++ List.replicate n freeEntry).findIdx? (IsEntryOf bssid) =
      table.findIdx? fun ap => ap.bssid = bssid := by
    have hfree : (List.replicate n freeEntry).findIdx? (IsEntryOf bssid) = none := by
      rw [List.findIdx?_eq_none_iff]
      intro ap hap
      rw [List.eq_of_mem_replicate hap]
      rfl
    rw [List.findIdx?_append, hfree, Option.map_none, Option.or_none]
    exact findIdx?_congr fun ap hap => by simp [IsEntryOf, hvalid ap hap]
  have hslot : (table ++ List.replicate n freeEntry).findIdx? (fun ap => ap.valid = false) =
      if 0 < n then some table.length else none := by
    have hnone : table.findIdx? (fun ap => ap.valid = false) = none := by
      rw [List.findIdx?_eq_none_iff]
      intro ap hap
      simp [hvalid ap hap]
    rw [List.findIdx?_append, hnone, Option.none_or]
    cases n with
    | zero => rfl
    | succ n => simp [List.replicate_succ, List.findIdx?_cons, freeEntry]
  rw [slotLoop_eq, hmatch, hslot, Option.none_or]
  have hzero : ∀ o : Option ℕ, o.map (0 + ·) = o := fun o => by cases o <;> simp
  rw [hzero, hzero]

/-- **An entry goes into the table.** -/
theorem CacheRep.iwlCacheAp (h : CacheRep st table) {ssid : List Byte}
    (hssid : ssid.length ≤ 32) (bssid : List Byte) (channel : Byte) (privacy : Bool) (flags : UInt16) (rssi : ℤ) :
    CacheRep (iwlCacheAp st ssid bssid channel privacy flags rssi)
      (Latest.put ApEntry.bssid apCacheMax table (apEntry ssid bssid channel privacy flags rssi)) := by
  have hput : ∀ ap : ApEntry, (ap.bssid = (apEntry ssid bssid channel privacy flags rssi).bssid) = (ap.bssid = bssid) :=
    fun ap => rfl
  have hlen := h.length_le
  rw [Mgmt.iwlCacheAp, if_neg (by omega), Latest.put, h.aps, slotLoop_table h.valid]
  simp only [hput]
  cases hfound : table.findIdx? fun ap => ap.bssid = bssid with
  | some k =>
    obtain ⟨hk, -, -⟩ := List.findIdx?_eq_some_iff_getElem.1 hfound
    have hold : ((table ++ List.replicate (apCacheMax - table.length) freeEntry).map ApEntry.valid).getD k true = true := by
      rw [List.getD_eq_getElem?_getD, List.getElem?_map, List.getElem?_append_left hk, List.getElem?_eq_getElem hk]
      exact h.valid _ (List.getElem_mem hk)
    dsimp only [Option.some_or]
    refine ⟨by rw [List.length_set]; exact hlen, fun ap hap => ?_, ?_, ?_⟩
    · rcases List.mem_or_eq_of_mem_set hap with hap | rfl
      · exact h.valid ap hap
      · rfl
    · rw [List.set_append_left _ _ hk, List.length_set]
    · rw [hold, if_neg (by simp), List.length_set, h.apCount]
  | none =>
    rw [Option.none_or]
    by_cases hroom : table.length < apCacheMax
    · obtain ⟨n, hn⟩ : ∃ n, apCacheMax - table.length = n + 1 := ⟨apCacheMax - table.length - 1, by omega⟩
      have hnew : ((table ++ List.replicate (n + 1) freeEntry).map ApEntry.valid).getD table.length true = false := by
        rw [List.getD_eq_getElem?_getD, List.getElem?_map, List.getElem?_append_right le_rfl, Nat.sub_self]
        rfl
      rw [if_pos (by omega), if_pos hroom]
      dsimp only
      refine ⟨by rw [List.length_append, List.length_singleton]; omega, fun ap hap => ?_, ?_, ?_⟩
      · rcases List.mem_append.1 hap with hap | hap
        · exact h.valid ap hap
        · rw [List.mem_singleton.1 hap]
          rfl
      · have hrest : apCacheMax - (table.length + 1) = n := by omega
        rw [hn, List.set_append_right _ _ le_rfl, Nat.sub_self, List.replicate_succ, List.set_cons_zero,
          List.length_append, List.length_singleton, hrest, List.append_assoc, List.singleton_append]
      · rw [hn, if_pos ⟨hnew, by rw [h.apCount]; exact hroom⟩, h.apCount, List.length_append, List.length_singleton]
    · rw [if_neg (by omega), if_neg hroom]
      exact h

theorem CacheRep.congr {st' : State} (h : CacheRep st table) (haps : st'.aps = st.aps)
    (hcount : st'.apCount = st.apCount) : CacheRep st' table :=
  ⟨h.length_le, h.valid, haps.trans h.aps, hcount.trans h.apCount⟩

/-- **A frame offers at most one entry.** -/
theorem CacheRep.parse (h : CacheRep st table) (frame : List Byte) :
    ∃ st', iwlParseMgmtFrame st frame = some st' ∧
      CacheRep st' ((offered frame).toList.foldl (Latest.put ApEntry.bssid apCacheMax) table) := by
  rw [offered]
  by_cases hbeacon : IsBeacon frame
  · rw [if_pos hbeacon, iwlParseMgmtFrame_of_beacon st hbeacon]
    cases hname : lastSsid (frameElements frame) with
    | none => exact ⟨st, rfl, h⟩
    | some name => exact ⟨_, rfl, h.iwlCacheAp (length_le_of_lastSsid hname) _ _ _ _ _⟩
  · rw [if_neg hbeacon]
    obtain ⟨st', hparse, haps, hcount⟩ := iwlParseMgmtFrame_of_not_beacon st hbeacon
    exact ⟨st', hparse, h.congr haps hcount⟩

/-- The entries that were offered, and the table of the latest ones. -/
structure Kept (st : State) (history table : List ApEntry) : Prop where
  rep : CacheRep st table
  holds : Latest.Holds ApEntry.bssid apCacheMax history table

/-- **One event.** -/
theorem Kept.step {st : State} {history table : List ApEntry} (h : Kept st history table) (event : Event) :
    ∃ st' table', step st event = some st' ∧ Kept st' (offersStep history event) table' := by
  cases event with
  | frame bytes =>
    obtain ⟨st', hparse, hrep⟩ := h.rep.parse bytes
    refine ⟨st', _, hparse, hrep, ?_⟩
    cases hoffer : offered bytes with
    | none =>
      rw [offersStep, hoffer, Option.toList_none, List.append_nil]
      exact h.holds
    | some ap =>
      rw [offersStep, hoffer, Option.toList_some]
      exact h.holds.put ap
  | scan => exact ⟨beginScan st, [], rfl, cacheRep_beginScan st, Latest.Holds.nil⟩

/-- **The list is a table of the latest entries**, whatever the events. -/
theorem Kept.run (h : Kept st history table) (events : List Event) :
    ∃ st' table', run st events = some st' ∧ Kept st' (events.foldl offersStep history) table' := by
  induction events generalizing st history table with
  | nil => exact ⟨st, table, rfl, h⟩
  | cons event events ih =>
    obtain ⟨mid, table', hstep, hmid⟩ := h.step event
    obtain ⟨st', table'', hrun, hkept⟩ := ih hmid
    refine ⟨st', table'', ?_, hkept⟩
    rw [Mgmt.run, List.foldlM_cons, hstep]
    exact hrun

/-! ### What the array and the reader show -/

def cached (st : State) : List ApEntry := st.aps.take st.apCount

/-- **What the array says**: its valid slots are the counted ones, and these are a table of the latest entries. -/
structure CacheLaw (st : State) (history : List ApEntry) : Prop where
  size : st.aps.length = apCacheMax
  count_le : st.apCount ≤ apCacheMax
  valid : ∀ i (hi : i < st.aps.length), st.aps[i].valid = true ↔ i < st.apCount
  holds : Latest.Holds ApEntry.bssid apCacheMax history (cached st)

theorem CacheRep.cached_eq (h : CacheRep st table) : cached st = table := by
  rw [cached, h.aps, h.apCount, List.take_left]

theorem Kept.law (h : Kept st history table) : CacheLaw st history := by
  have hlen := h.rep.length_le
  refine ⟨?_, by rw [h.rep.apCount]; exact hlen, fun i hi => ?_, by rw [h.rep.cached_eq]; exact h.holds⟩
  · rw [h.rep.aps, List.length_append, List.length_replicate]
    omega
  · rw [h.rep.apCount]
    simp only [h.rep.aps]
    by_cases htable : i < table.length
    · rw [List.getElem_append_left htable]
      exact iff_of_true (h.rep.valid _ (List.getElem_mem htable)) htable
    · rw [List.getElem_append_right (not_lt.1 htable), List.getElem_replicate]
      exact iff_of_false (by decide) htable

def Reached (st : State) : Prop := ∃ events, run startState events = some st

theorem kept_startState : Kept startState [] [] := ⟨cacheRep_beginScan freshState, Latest.Holds.nil⟩

theorem Reached.kept (h : Reached st) : ∃ history table, Kept st history table := by
  obtain ⟨events, hrun⟩ := h
  obtain ⟨st', table, hrun', hkept⟩ := kept_startState.run events
  obtain rfl := Option.some.inj (hrun.symm.trans hrun')
  exact ⟨_, table, hkept⟩

def entriesOf (iface : Iface) : List ApEntry :=
  if iface.type = IfaceType.wifi ∧ iface.driver = lit "iwlwifi" then iface.driverData.elim [] cached else []

theorem apLoop_eq (out : List WifiAp) (aps : List ApEntry) (h : ∀ ap ∈ aps, ap.valid = true) :
    apLoop out aps = out ++ aps.map wifiAp := by
  induction aps generalizing out with
  | nil => rw [apLoop, List.map_nil, List.append_nil]
  | cons ap aps ih =>
    rw [apLoop, if_pos (h ap List.mem_cons_self), ih _ fun ap hap => h ap (List.mem_cons_of_mem _ hap), List.map_cons,
      List.append_assoc, List.singleton_append]

theorem take_aps (st : State) (room : ℕ) :
    st.aps.take (if st.apCount < room then st.apCount else room) = (cached st).take room := by
  rw [cached, List.take_take]
  congr 1
  split_ifs with hless
  · rw [Nat.min_eq_right hless.le]
  · rw [Nat.min_eq_left (not_lt.1 hless)]

/-- **The loop over the interfaces** takes as many entries as there is room for. -/
theorem ifaceLoop_eq (maxAps : ℕ) (out : List WifiAp) (ifaces : List Iface)
    (hifaces : ∀ iface ∈ ifaces, ∀ st, iface.driverData = some st → Reached st) (hout : out.length ≤ maxAps) :
    ifaceLoop maxAps out ifaces = out ++ ((ifaces.flatMap entriesOf).take (maxAps - out.length)).map wifiAp := by
  induction ifaces generalizing out with
  | nil => rw [ifaceLoop, List.flatMap_nil, List.take_nil, List.map_nil, List.append_nil]
  | cons iface ifaces ih =>
    have ih := fun out => ih out fun other hother => hifaces other (List.mem_cons_of_mem _ hother)
    rw [ifaceLoop, List.flatMap_cons, entriesOf]
    by_cases hroom : out.length < maxAps
    · rw [if_pos hroom]
      by_cases hskip : iface.type ≠ IfaceType.wifi ∨ iface.driver ≠ lit "iwlwifi"
      · have hnot : ¬ (iface.type = IfaceType.wifi ∧ iface.driver = lit "iwlwifi") := by tauto
        rw [if_pos hskip, if_neg hnot, List.nil_append]
        exact ih out hout
      · have hwifi : iface.type = IfaceType.wifi ∧ iface.driver = lit "iwlwifi" := by tauto
        rw [if_neg hskip, if_pos hwifi, iwlwifiStateFor, if_neg (not_not.2 hwifi.2)]
        cases hdata : iface.driverData with
        | none => exact ih out hout
        | some st =>
          obtain ⟨history, table, hkept⟩ := (hifaces iface List.mem_cons_self st hdata).kept
          have hvalid : ∀ ap ∈ (cached st).take (maxAps - out.length), ap.valid = true := fun ap hap => by
            rw [hkept.rep.cached_eq] at hap
            exact hkept.rep.valid ap (List.mem_of_mem_take hap)
          have hread : (out ++ ((cached st).take (maxAps - out.length)).map wifiAp).length ≤ maxAps := by
            rw [List.length_append, List.length_map, List.length_take]
            omega
          dsimp only [Option.elim_some]
          rw [take_aps, apLoop_eq _ _ hvalid, ih _ hread, List.append_assoc, ← List.map_append,
            List.take_append, List.length_append, List.length_map, List.length_take]
          congr 4
          omega
    · rw [if_neg hroom, Nat.sub_eq_zero_of_le (not_lt.1 hroom), List.take_zero, List.map_nil, List.append_nil]

/-- What a reader should get: as many entries as it has room for, each one once. -/
def ResultsLaw (ifaces : List Iface) (maxAps : ℕ) : Prop :=
  ∃ out, netWifiScanResults ifaces true maxAps = some out ∧
    out.length = min maxAps (ifaces.flatMap entriesOf).length ∧
    out = ((ifaces.flatMap entriesOf).take maxAps).map wifiAp

/-- **The list over any run, and what a reader gets of any lists that runs have left.** -/
theorem apCache_law {ifaces : List Iface} {maxAps : ℕ}
    (hifaces : ∀ iface ∈ ifaces, ∀ st, iface.driverData = some st → Reached st) (hmax : 0 < maxAps) :
    (∀ events, ∃ st, run startState events = some st ∧ CacheLaw st (offers events)) ∧ ResultsLaw ifaces maxAps := by
  refine ⟨fun events => ?_, ?_⟩
  · obtain ⟨st, table, hrun, hkept⟩ := kept_startState.run events
    exact ⟨st, hrun, hkept.law⟩
  · have hread := ifaceLoop_eq maxAps [] ifaces hifaces (Nat.zero_le _)
    rw [List.nil_append, List.length_nil, Nat.sub_zero] at hread
    refine ⟨_, ?_, ?_, rfl⟩
    · rw [netWifiScanResults, if_neg (by simp; omega), hread]
    · rw [List.length_map, List.length_take]

/-- One wireless interface with an empty list, and room for three entries. -/
theorem apCache_law_quiet :
    (∀ events, ∃ st, run startState events = some st ∧ CacheLaw st (offers events)) ∧
      ResultsLaw [⟨IfaceType.wifi, lit "iwlwifi", some startState⟩] 3 := by
  refine apCache_law (fun iface hiface st hst => ?_) (by norm_num)
  rw [List.mem_singleton.1 hiface] at hst
  exact ⟨[], congrArg some (Option.some.inj hst)⟩

/-- A reader without room gets an error, where no entries would be the smaller number. -/
theorem not_resultsLaw : ¬ ResultsLaw [] 0 := by
  rintro ⟨out, hout, -⟩
  cases hout

end Tnu.Wifi.Mgmt
