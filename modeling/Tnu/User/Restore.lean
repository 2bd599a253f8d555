/-
**What a reboot restores.**

`users_init` over the files that the last change of the table wrote gives the same accounts and the
same answers to passwords — unless a line did not fit: a line of `/etc/passwd` is cut at 255
bytes, and a line of either file that does not fit the 2048 bytes of its buffer is left out.

Main results:

* `accounts_usersInit`, `userFindName_usersInit` — what `users_init` loads;
* `restores_iff` — **a reachable table comes back exactly when it is restorable**.
-/

import Tnu.User.Files
import Tnu.User.Identity
import Tnu.Vfs.Runs

set_option autoImplicit false

namespace Tnu.User

open Vfs

/-! ### What every table keeps -/

/-- The tables that are reached from `users_init`. -/
inductive Reached : Accounts → Prop
  | init (kmalloc : ℕ → Bool) (a : Accounts) : Reached (usersInit kmalloc a)
  | step {a : Accounts} (op : UserOp) : Reached a → Reached (apply a op)

/-- The strings of the records do not break lines, and only the first record of a name has a
password. -/
structure Good (users : List UserRecord) : Prop where
  clean : ∀ u ∈ users, Clean u
  length_le : users.length ≤ maxUsers
  first : users.Pairwise fun u v => u.name = v.name → v.passwordSet = false

variable {a : Accounts} {name : List Byte}

theorem clean_newRecord {home shell : List Byte} (uid gid : UInt32) (hname : colon ∉ name)
    (hname' : newline ∉ name) (hhome : colon ∉ home) (hhome' : newline ∉ home)
    (hshell : newline ∉ shell) : Clean (newRecord name uid gid home shell) := by
  have hcopy : ∀ {c : Byte} {n : ℕ} {s : List Byte}, c ∉ s → c ∉ (CharBuf.strncpy n s).chars :=
    fun hc h => hc ((List.takeWhile_prefix _).subset (List.mem_of_mem_take h))
  exact ⟨hcopy hname, hcopy hname', hcopy hhome, hcopy hhome', hcopy hshell⟩

theorem notMem_of_valid (h : userNameValid name) :
    colon ∉ name ∧ newline ∉ name := by
  constructor
  · intro hc
    exact absurd (h.2 colon hc) (by decide)
  · intro hc
    exact absurd (h.2 newline hc) (by decide)

namespace Good

variable {users : List UserRecord}

theorem sublist (h : Good users) {l : List UserRecord} (hl : l.Sublist users) : Good l where
  clean u hu := h.clean u (hl.subset hu)
  length_le := hl.length_le.trans h.length_le
  first := h.first.sublist hl

theorem append (h : Good users) {u : UserRecord} (hu : Clean u) (hset : u.passwordSet = false)
    (hlen : users.length < maxUsers) : Good (users ++ [u]) where
  clean v hv := by
    rcases List.mem_append.1 hv with hv | hv
    · exact h.clean v hv
    · rw [List.mem_singleton.1 hv]
      exact hu
  length_le := by
    rw [List.length_append, List.length_singleton]
    exact hlen
  first := by
    refine List.pairwise_append.2 ⟨h.first, List.pairwise_singleton _ _, ?_⟩
    intro v _ w hw _
    rw [List.mem_singleton.1 hw]
    exact hset

theorem modify (h : Good users) {name : List Byte} {i : ℕ}
    (hi : users.findIdx? (fun u => u.name.chars = name) = some i) {f : UserRecord → UserRecord}
    (hf : ∀ u, (f u).name = u.name ∧ (f u).home = u.home ∧ (f u).shell = u.shell) :
    Good (users.modify i f) where
  clean u hu := by
    obtain ⟨j, hj⟩ := List.mem_iff_getElem?.1 hu
    rw [List.getElem?_modify, Option.map_eq_map, Option.map_eq_some_iff] at hj
    obtain ⟨v, hv, rfl⟩ := hj
    have hclean := h.clean v (List.mem_iff_getElem?.2 ⟨j, hv⟩)
    split_ifs
    · obtain ⟨hname, hhome, hshell⟩ := hf v
      exact ⟨hname ▸ hclean.name_colon, hname ▸ hclean.name_newline, hhome ▸ hclean.home_colon,
        hhome ▸ hclean.home_newline, hshell ▸ hclean.shell_newline⟩
    · exact hclean
  length_le := by
    rw [List.length_modify]
    exact h.length_le
  first := by
    obtain ⟨hlt, hname, hfirst⟩ := List.findIdx?_eq_some_iff_getElem.1 hi
    rw [decide_eq_true_eq] at hname
    refine List.pairwise_iff_getElem.2 fun p q hp hq hpq => ?_
    rw [List.length_modify] at hp hq
    rw [List.getElem_modify, List.getElem_modify]
    intro heq
    -- no record before the first of a name has that name
    by_cases hiq : i = q
    · subst hiq
      rw [if_neg (by omega), if_pos rfl, (hf _).1] at heq
      have := hfirst p hpq
      rw [heq, hname] at this
      simp at this
    · rw [if_neg hiq] at heq ⊢
      refine List.pairwise_iff_getElem.1 h.first p q hp hq hpq ?_
      split_ifs at heq
      · rwa [(hf _).1] at heq
      · exact heq

theorem find?_eq (h : Good users) {u : UserRecord} (hu : u ∈ users) (hset : u.passwordSet = true) :
    users.find? (fun v => v.name.chars = u.name.chars) = some u := by
  cases hfind : users.find? (fun v => v.name.chars = u.name.chars) with
  | none => simpa using List.find?_eq_none.1 hfind u hu
  | some w =>
    obtain ⟨hw, as, bs, rfl, has⟩ := List.find?_eq_some_iff_append.1 hfind
    rw [decide_eq_true_eq] at hw
    rcases List.mem_append.1 hu with hu | hu
    · simpa using has u hu
    · rcases List.mem_cons.1 hu with rfl | hu
      · rfl
      · have hpair := (List.pairwise_append.1 h.first).2.1
        have := (List.pairwise_cons.1 hpair).1 u hu (CharBuf.ext hw)
        rw [hset] at this
        cases this

end Good

theorem withPassword_strings (name password : List Byte) (u : UserRecord) :
    (withPassword name password u).name = u.name ∧ (withPassword name password u).home = u.home ∧
      (withPassword name password u).shell = u.shell := by
  unfold withPassword
  simp only
  split_ifs <;> exact ⟨rfl, rfl, rfl⟩

/-- **A call keeps the table good.** -/
theorem good_apply (h : Good a.db.records) (op : UserOp) :
    Good (apply a op).db.records := by
  cases op with
  | add k name uid gid =>
    by_cases hfull : maxUsers ≤ a.db.usersLen
    · rw [apply, userAdd, if_pos (.inr (.inr (.inr hfull)))]
      exact h
    · rcases userAdd_cases k a name.chars uid gid with ⟨-, he⟩ | ⟨-, hvalid, -, -, he⟩
      · rw [apply, he]
        exact h
      · obtain ⟨hcolon, hnewline⟩ := notMem_of_valid hvalid
        have hhome : ∀ c ∈ homeOf name.chars, c ∈ lit "/home/" ∨ c ∈ name.chars := fun c hc =>
          List.mem_append.1 (List.mem_of_mem_take hc)
        rw [apply, he]
        refine h.append (clean_newRecord uid gid hcolon hnewline ?_ ?_ (by decide)) rfl ?_
        · intro hc
          exact (hhome _ hc).elim (by decide) hcolon
        · intro hc
          exact (hhome _ hc).elim (by decide) hnewline
        · rw [length_records]
          exact not_le.1 hfull
  | del k name =>
    rcases userDel_cases k a name.chars with ⟨-, he⟩ | ⟨i, hi, hdb, -⟩
    · rw [apply, he]
      exact h
    · rw [apply, hdb, records_delete (delIndex_eq_some hi).1]
      exact h.sublist (List.eraseIdx_sublist _ _)
  | setPassword k name password =>
    rcases userSetPassword_cases k a name.chars password.chars with he | ⟨i, hi, hdb⟩
    · rw [apply, he]
      exact h
    · rw [apply, hdb, records_setRecord]
      exact h.modify hi (withPassword_strings _ _)

/-! ### What `users_init` loads -/

def passwdRecords (text : List Byte) : List UserRecord :=
  ((fileLines text).filterMap passwdEntry).take maxUsers

theorem records_parsePasswd : ∀ (lines : List (List Byte)) {db : UserDb},
    db.usersLen ≤ maxUsers →
      (lines.foldl parsePasswdLine db).records =
        (db.records ++ lines.filterMap passwdEntry).take maxUsers := by
  intro lines
  induction lines with
  | nil =>
    intro db h
    rw [List.foldl_nil, List.filterMap_nil, List.append_nil, List.take_of_length_le (by simpa)]
  | cons line lines ih =>
    intro db h
    rw [List.foldl_cons, parsePasswdLine]
    cases hline : passwdEntry line with
    | none => rw [List.filterMap_cons_none hline, ← ih h]
    | some u =>
      rw [List.filterMap_cons_some hline]
      simp only
      by_cases hfull : maxUsers ≤ db.usersLen
      · have hlen : maxUsers ≤ db.records.length := by simpa using hfull
        have hadd : db.addRecord u = db := if_pos hfull
        rw [hadd, ih h, List.take_append_of_le_length hlen, List.take_append_of_le_length hlen]
      · have hlen : (db.addRecord u).usersLen = db.usersLen + 1 := by
          rw [UserDb.addRecord, if_neg hfull]
        rw [ih (by omega), records_addRecord, if_neg hfull, List.append_assoc,
          List.singleton_append]

theorem clean_of_passwdEntry {line : List Byte} {u : UserRecord} (hline : newline ∉ line)
    (h : passwdEntry line = some u) : Clean u ∧ u.passwordSet = false := by
  rw [passwdEntry] at h
  split at h
  · rename_i name x uid gid gecos home shell hfields
    obtain rfl := Option.some.inj h
    have hsub : ∀ p ∈ Sep.fields colon 6 line, newline ∉ p := fun p hp hc =>
      hline (Sep.mem_of_mem_fields hp hc)
    have hcolon : ∀ p ∈ (Sep.fields colon 6 line).dropLast, colon ∉ p := fun p hp =>
      Sep.not_mem_of_mem_dropLast_fields hp
    rw [hfields] at hsub hcolon
    exact ⟨clean_newRecord _ _ (hcolon name (by simp)) (hsub name (by simp))
      (hcolon home (by simp)) (hsub home (by simp)) (hsub shell (by simp)), rfl⟩
  · cases h

theorem good_passwdRecords (text : List Byte) : Good (passwdRecords text) := by
  have hall : ∀ u ∈ passwdRecords text, Clean u ∧ u.passwordSet = false := fun u hu => by
    obtain ⟨line, hline, he⟩ := List.mem_filterMap.1 (List.mem_of_mem_take hu)
    exact clean_of_passwdEntry (Sep.not_mem_of_mem_pieces hline) he
  exact ⟨fun u hu => (hall u hu).1, List.length_take_le _ _,
    List.pairwise_of_forall_mem_list fun _ _ v hv _ => (hall v hv).2⟩

/-- A line of `/etc/shadow`, as it acts on the record of a name. -/
def shadowEffect (name line : List Byte) (u : UserRecord) : UserRecord :=
  match shadowEntry line with
  | none => u
  | some e => if e.name = name then e.apply u else u

/-- **What a line of `/etc/shadow` does**, name by name. -/
theorem userFindName_parseShadowLine (db : UserDb) (line name : List Byte) :
    userFindName (parseShadowLine db line) name =
      (userFindName db name).map (shadowEffect name line) := by
  unfold parseShadowLine shadowEffect
  cases shadowEntry line with
  | none => simp
  | some e =>
    simp only
    cases hi : nameIndex db e.name with
    | none =>
      simp only
      by_cases hname : e.name = name
      · rw [← hname, nameIndex_eq_none.1 hi]
        rfl
      · simp [hname]
    | some i =>
      simp only
      have hname : ∀ u, (e.apply u).name = u.name := fun _ => rfl
      rw [userFindName, records_setRecord, find?_modify hname e.name name _ hi, userFindName]
      by_cases hname : e.name = name
      · subst hname
        simp
      · simp [hname, Ne.symm hname]

theorem userFindName_parseShadow (name : List Byte) : ∀ (lines : List (List Byte)) (db : UserDb),
    userFindName (lines.foldl parseShadowLine db) name =
      (userFindName db name).map fun u => lines.foldl (fun u line => shadowEffect name line u) u := by
  intro lines
  induction lines with
  | nil => intro db; simp
  | cons line lines ih =>
    intro db
    rw [List.foldl_cons, ih, userFindName_parseShadowLine, Option.map_map]
    rfl

theorem parseShadowLine_keeps (db : UserDb) (line : List Byte) :
    (parseShadowLine db line).records.map account = db.records.map account ∧
      (Good db.records → Good (parseShadowLine db line).records) := by
  unfold parseShadowLine
  cases shadowEntry line with
  | none => exact ⟨rfl, id⟩
  | some e =>
    simp only
    cases hi : nameIndex db e.name with
    | none => exact ⟨rfl, id⟩
    | some i =>
      simp only
      rw [records_setRecord]
      exact ⟨map_modify i account fun _ => rfl, fun h => h.modify hi fun _ => ⟨rfl, rfl, rfl⟩⟩

theorem parseShadow_keeps : ∀ (lines : List (List Byte)) (db : UserDb),
    (lines.foldl parseShadowLine db).records.map account = db.records.map account ∧
      (Good db.records → Good (lines.foldl parseShadowLine db).records) := by
  intro lines
  induction lines with
  | nil => intro db; exact ⟨rfl, id⟩
  | cons line lines ih =>
    intro db
    obtain ⟨hacc, hgood⟩ := parseShadowLine_keeps db line
    obtain ⟨hacc', hgood'⟩ := ih (parseShadowLine db line)
    exact ⟨hacc'.trans hacc, fun h => hgood' (hgood h)⟩

def HasRoot (users : List UserRecord) : Prop := ∃ u ∈ users, u.name.chars = lit "root"

instance : DecidablePred HasRoot := fun users =>
  inferInstanceAs (Decidable (∃ u ∈ users, u.name.chars = lit "root"))

theorem userFindName_root_isNone (db : UserDb) :
    (userFindName db (lit "root")).isNone ↔ ¬ HasRoot db.records := by
  rw [Option.isNone_iff_eq_none, userFindName, List.find?_eq_none, HasRoot]
  simp

/-- **The table `users_init` loads**: the records of `/etc/passwd` when root is one of them, and
root alone otherwise; then the passwords of `/etc/shadow`. -/
theorem usersInit_cases (kmalloc : ℕ → Bool) (a : Accounts) :
    ∃ db lines, (usersInit kmalloc a).db = lines.foldl parseShadowLine db ∧
      db.records = (if HasRoot (passwdRecords (fileText a.vfs (lit "/etc/passwd"))) then
        passwdRecords (fileText a.vfs (lit "/etc/passwd")) else [rootRecord]) ∧
      (HasRoot (passwdRecords (fileText a.vfs (lit "/etc/passwd"))) →
        lines = fileLines (fileText a.vfs (lit "/etc/shadow"))) := by
  set parsed := (fileLines (fileText a.vfs (lit "/etc/passwd"))).foldl parsePasswdLine a.db.clear
    with hparsed
  have hrecords : parsed.records = passwdRecords (fileText a.vfs (lit "/etc/passwd")) := by
    rw [hparsed, records_parsePasswd _ (Nat.zero_le _)]
    rfl
  have hroot : ∀ db : UserDb, db.usersLen = 0 → (db.addRecord rootRecord).records = [rootRecord] := by
    intro db h
    have hlen : ¬ maxUsers ≤ db.usersLen := by
      rw [h]
      decide
    rw [records_addRecord, if_neg hlen, records_of_empty h, List.nil_append]
  have hroot' : HasRoot [rootRecord] := by decide
  unfold usersInit
  simp only [← hparsed]
  by_cases hempty : parsed.usersLen = 0
  · -- no record was found: root alone
    have hnone : ¬ HasRoot (passwdRecords (fileText a.vfs (lit "/etc/passwd"))) := by
      rw [← hrecords, records_of_empty hempty]
      simp [HasRoot]
    have hfind : ¬ (userFindName (parsed.addRecord rootRecord) (lit "root")).isNone = true := by
      rw [userFindName_root_isNone, hroot _ hempty, not_not]
      exact hroot'
    rw [if_neg hnone]
    simp only [hempty, if_true, db_rebuildPasswd]
    rw [if_neg hfind]
    exact ⟨_, _, rfl, hroot _ hempty, fun h => absurd h hnone⟩
  · simp only [hempty, if_false]
    by_cases h : HasRoot parsed.records
    · rw [if_neg (by rw [userFindName_root_isNone, not_not]; exact h)]
      rw [hrecords] at h
      rw [if_pos h]
      exact ⟨parsed, _, rfl, hrecords, fun _ => rfl⟩
    · rw [if_pos ((userFindName_root_isNone _).2 h)]
      rw [hrecords] at h
      rw [if_neg h]
      exact ⟨_, _, rfl, hroot _ rfl, fun h' => absurd h' h⟩

/-- **Reachable tables are good.** -/
theorem good_of_reached (h : Reached a) : Good a.db.records := by
  induction h with
  | init kmalloc a =>
    obtain ⟨db, lines, hdb, hrecords, -⟩ := usersInit_cases kmalloc a
    rw [hdb]
    refine (parseShadow_keeps lines db).2 ?_
    rw [hrecords]
    split_ifs
    · exact good_passwdRecords _
    · refine ⟨fun u hu => ?_, by decide, List.pairwise_singleton _ _⟩
      rw [List.mem_singleton.1 hu]
      exact clean_newRecord _ _ (by decide) (by decide) (by decide) (by decide) (by decide)
  | step op _ ih => exact good_apply ih op

theorem accounts_usersInit (kmalloc : ℕ → Bool) (a : Accounts) :
    (usersInit kmalloc a).db.records.map account =
      (if HasRoot (passwdRecords (fileText a.vfs (lit "/etc/passwd"))) then
        passwdRecords (fileText a.vfs (lit "/etc/passwd")) else [rootRecord]).map account := by
  obtain ⟨db, lines, hdb, hrecords, -⟩ := usersInit_cases kmalloc a
  rw [hdb, (parseShadow_keeps lines db).1, hrecords]

/-! ### When the lines fit -/

/-- The lines of `/etc/passwd` fit the buffer, and are whole, but for the newline of the last. -/
structure PasswdFits (users : List UserRecord) : Prop where
  total : (users.map fun u => (passwdLine u).length).sum < 2048
  whole : ∀ u ∈ users.dropLast, Whole u
  length_le : ∀ u ∈ users, (passwdBody u).length ≤ 255

/-- The lines of `/etc/shadow` that carry a password are kept. -/
def ShadowFits (users : List UserRecord) : Prop :=
  ∀ u ∈ users, u.passwordSet = true → u ∈ keptShadow users

/-- The tables that come back. -/
structure Restorable (users : List UserRecord) : Prop where
  root : HasRoot users
  passwd : PasswdFits users
  shadow : ShadowFits users

theorem keptPasswd_eq_iff (users : List UserRecord) :
    keptPasswd users = users ↔ (users.map fun u => (passwdLine u).length).sum < 2048 := by
  rw [keptPasswd, Fill.kept_eq_self_iff users (by decide : 0 < 2048), Nat.zero_add]

/-- **Lines that fit are read back.** -/
theorem passwdRecords_of_fits {db : UserDb} (h : Good db.records) (hfits : PasswdFits db.records) :
    passwdRecords (passwdText db) = db.records.map fresh := by
  have hkept := (keptPasswd_eq_iff db.records).2 hfits.total
  have hentries : ∀ l : List UserRecord, (∀ u ∈ l, Clean u) →
      (l.map passwdBody).filterMap passwdEntry = l.map fresh := by
    intro l
    induction l with
    | nil => intro _; rfl
    | cons u l ih =>
      intro hl
      rw [List.map_cons, List.filterMap_cons_some (passwdEntry_passwdBody (hl u (by simp))),
        ih fun v hv => hl v (by simp [hv]), List.map_cons]
  have hlines : fileLines (passwdText db) = db.records.map passwdBody := by
    rcases List.eq_nil_or_concat' db.records with hnil | ⟨init, last, hsnoc⟩
    · have htext : passwdText db = [] := by rw [passwdText_eq, hkept, hnil, List.flatMap_nil]
      rw [htext, hnil]
      decide
    · have hwhole : ∀ u ∈ init, Whole u := fun u hu =>
        hfits.whole u (by rw [hsnoc, List.dropLast_concat]; exact hu)
      have hlast := hfits.length_le last (by simp [hsnoc])
      rw [fileLines_passwdText h.clean (hkept.trans hsnoc) hwhole, hsnoc, List.map_append,
        List.map_singleton, List.take_of_length_le hlast]
  rw [passwdRecords, hlines, hentries _ h.clean, List.take_of_length_le]
  rw [List.length_map]
  exact h.length_le

theorem keptPasswd_eq_of_length {users : List UserRecord}
    (h : users.length ≤ (keptPasswd users).length) : keptPasswd users = users :=
  (Fill.kept_sublist _ _ users 0).eq_of_length_le h

/-- **Lines that are read back fit.** -/
theorem fits_of_passwdRecords {db : UserDb} (h : Good db.records)
    (hacc : (passwdRecords (passwdText db)).map account = db.records.map account) :
    PasswdFits db.records := by
  have hn : db.records.length = (passwdRecords (passwdText db)).length := by
    have := congrArg List.length hacc
    rw [List.length_map, List.length_map] at this
    exact this.symm
  have hlines : db.records.length ≤ (fileLines (passwdText db)).length := by
    rw [hn, passwdRecords]
    exact (List.length_take_le' _ _).trans (List.length_filterMap_le _ _)
  have hpieces := length_fileLines_le (zero_notMem_passwdText db) (length_passwdText db)
  rw [count_newline_passwdText h.clean] at hpieces
  have hfilter := List.length_filter_le (fun u => decide (Whole u)) (keptPasswd db.records)
  have hkept_le : (keptPasswd db.records).length ≤ db.records.length :=
    (Fill.kept_sublist _ _ db.records 0).length_le
  rcases List.eq_nil_or_concat' (keptPasswd db.records) with hnil | ⟨init, last, hsnoc⟩
  · have htext : passwdText db = [] := by rw [passwdText_eq, hnil, List.flatMap_nil]
    rw [htext, hnil] at hpieces
    have hempty : db.records = [] := by
      refine List.eq_nil_of_length_eq_zero ?_
      simp only [List.filter_nil, List.length_nil, or_true, if_true] at hpieces
      rw [htext] at hlines
      omega
    rw [hempty]
    exact ⟨by decide, by simp, by simp⟩
  · simp only [getLast?_passwdText h.clean hsnoc] at hpieces
    have hlen : (keptPasswd db.records).length = init.length + 1 := by
      rw [hsnoc, List.length_append, List.length_singleton]
    have hsplit : ((keptPasswd db.records).filter (Whole ·)).length =
        (init.filter (Whole ·)).length + if Whole last then 1 else 0 := by
      rw [hsnoc, List.filter_append, List.length_append]
      by_cases hw : Whole last <;> simp [hw]
    have hinit := List.length_filter_le (fun u => decide (Whole u)) init
    -- every kept record but the last is whole, and every record is kept
    have hall : (init.filter (Whole ·)).length = init.length ∧
        db.records.length ≤ (keptPasswd db.records).length := by
      split_ifs at hpieces hsplit <;> omega
    have hkept := keptPasswd_eq_of_length hall.2
    have hrecords : db.records = init ++ [last] := hkept.symm.trans hsnoc
    have hwhole : ∀ u ∈ init, Whole u := fun u hu => by
      have := List.length_filter_eq_length_iff.1 hall.1 u hu
      exact of_decide_eq_true this
    have hlast : (passwdBody last).length ≤ 255 := by
      have hclean : Clean last := h.clean last (by simp [hrecords])
      have htext := fileLines_passwdText h.clean hsnoc hwhole
      rw [passwdRecords, htext, List.filterMap_append] at hn hacc
      have hmap : (init.map passwdBody).filterMap passwdEntry = init.map fresh := by
        rw [List.filterMap_map, ← List.filterMap_eq_map]
        refine List.filterMap_congr fun u hu => ?_
        exact passwdEntry_passwdBody (h.clean u (by simp [hrecords, hu]))
      rw [hmap] at hn hacc
      cases hentry : passwdEntry ((passwdBody last).take 255) with
      | none =>
        have := List.length_take_le' maxUsers
          (init.map fresh ++ [(passwdBody last).take 255].filterMap passwdEntry)
        rw [← hn, List.filterMap_cons_none hentry, List.filterMap_nil, List.append_nil,
          List.length_map, hrecords, List.length_append, List.length_singleton] at this
        omega
      | some r =>
        rw [List.filterMap_cons_some hentry, List.filterMap_nil, List.take_of_length_le] at hacc
        · rw [hrecords, List.map_append, List.map_append] at hacc
          have := (List.append_inj' hacc rfl).2
          have hr : account r = account last := by simpa using this
          have hbody := eq_passwdBody_of_prefix hclean (List.take_prefix _ _) hentry hr
          have hlen255 := List.length_take_le 255 (passwdBody last)
          rwa [hbody] at hlen255
        · have := h.length_le
          rw [hrecords] at this
          simpa using this
    refine ⟨(keptPasswd_eq_iff _).1 hkept, fun u hu => ?_, fun u hu => ?_⟩
    · rw [hrecords, List.dropLast_concat] at hu
      exact hwhole u hu
    · rw [hrecords] at hu
      rcases List.mem_append.1 hu with hu | hu
      · exact le_of_lt (hwhole u hu)
      · rw [List.mem_singleton.1 hu]
        exact hlast

/-! ### What comes back -/

theorem shadowEffect_shadowBody {v : UserRecord} (hv : Clean v) (name : List Byte)
    (u : UserRecord) : shadowEffect name (shadowBody v) u =
      if v.passwordSet = true ∧ v.name.chars = name then v.entry.apply u else u := by
  rw [shadowEffect, shadowEntry_shadowBody hv]
  by_cases hset : v.passwordSet = true
  · rw [if_pos hset]
    simp only [hset, true_and]
    rfl
  · rw [if_neg hset, if_neg fun h => hset h.1]

theorem foldl_shadowEffect {u : UserRecord} (hu : u.name.chars = name) :
    ∀ (l : List UserRecord) (r : UserRecord), (∀ v ∈ l, Clean v) →
      (∀ v ∈ l, v.passwordSet = true → v.name.chars = name → v = u) →
      (l.map shadowBody).foldl (fun r line => shadowEffect name line r) r =
        if u.passwordSet = true ∧ u ∈ l then u.entry.apply r else r := by
  intro l
  induction l with
  | nil => intro r _ _; simp
  | cons v l ih =>
    intro r hclean honly
    rw [List.map_cons, List.foldl_cons, shadowEffect_shadowBody (hclean v (by simp)),
      ih _ (fun w hw => hclean w (by simp [hw])) fun w hw => honly w (by simp [hw])]
    by_cases hv : v.passwordSet = true ∧ v.name.chars = name
    · obtain rfl := honly v (by simp) hv.1 hv.2
      have hv' : v.passwordSet = true ∧ v ∈ v :: l := ⟨hv.1, List.mem_cons_self⟩
      rw [if_pos hv, if_pos hv']
      split_ifs <;> rfl
    · have hmem : (u.passwordSet = true ∧ u ∈ v :: l) ↔ u.passwordSet = true ∧ u ∈ l := by
        constructor
        · rintro ⟨hset, hmem⟩
          rcases List.mem_cons.1 hmem with rfl | hmem
          · exact absurd ⟨hset, hu⟩ hv
          · exact ⟨hset, hmem⟩
        · rintro ⟨hset, hmem⟩
          exact ⟨hset, List.mem_cons_of_mem _ hmem⟩
      rw [if_neg hv]
      simp only [hmem]

variable {db : UserDb}

/-- **The record a name finds after a reboot**: the fresh one, with its password if its line of
`/etc/shadow` was kept. -/
theorem userFindName_usersInit (h : Good db.records) (hroot : HasRoot db.records)
    (hfits : PasswdFits db.records) (kmalloc : ℕ → Bool)
    (hpasswd : fileText a.vfs (lit "/etc/passwd") = passwdText db)
    (hshadow : fileText a.vfs (lit "/etc/shadow") = shadowText db) (name : List Byte) :
    userFindName (usersInit kmalloc a).db name = (userFindName db name).map fun u =>
      if u.passwordSet = true ∧ u ∈ keptShadow db.records then u.entry.apply (fresh u)
      else fresh u := by
  obtain ⟨loaded, lines, hdb, hrecords, hlines⟩ := usersInit_cases kmalloc a
  rw [hpasswd, passwdRecords_of_fits h hfits] at hrecords hlines
  have hroot' : HasRoot (db.records.map fresh) := by
    obtain ⟨u, hu, hname⟩ := hroot
    exact ⟨fresh u, List.mem_map_of_mem hu, by rw [fresh_name, hname]⟩
  rw [if_pos hroot'] at hrecords
  rw [hdb, hlines hroot', hshadow, fileLines_shadowText h.clean, userFindName_parseShadow]
  have hfind : userFindName loaded name = (userFindName db name).map fresh := by
    rw [userFindName, hrecords, List.find?_map, userFindName]
    refine congrArg _ (congrArg (List.find? · db.records) (funext fun u => ?_))
    rw [Function.comp, fresh_name]
  rw [hfind, Option.map_map]
  cases hu : userFindName db name with
  | none => rfl
  | some u =>
    have hname : u.name.chars = name := by
      have := List.find?_some hu
      exact of_decide_eq_true this
    have honly : ∀ v ∈ keptShadow db.records, v.passwordSet = true → v.name.chars = name →
        v = u := by
      intro v hv hset hvn
      have := h.find?_eq (mem_keptShadow hv) hset
      rw [hvn] at this
      exact Option.some.inj (this.symm.trans hu)
    rw [Option.map_some, Option.map_some, Function.comp,
      foldl_shadowEffect hname _ _ (fun v hv => h.clean v (mem_keptShadow hv)) honly]

/-- Over any tree with the two files as the last change of the table wrote them, `users_init`
loads the same accounts, and every password gets the same answer. -/
def Restores (db : UserDb) : Prop :=
  ∀ (kmalloc : ℕ → Bool) (a : Accounts), fileText a.vfs (lit "/etc/passwd") = passwdText db →
    fileText a.vfs (lit "/etc/shadow") = shadowText db →
    (usersInit kmalloc a).db.records.map account = db.records.map account ∧
      ∀ name password : CString,
        userCheckPassword (usersInit kmalloc a).db name.chars password.chars =
          userCheckPassword db name.chars password.chars

/-- A tree with two empty files in `/etc`. -/
def etcPool : Pool :=
  (vfsCreateFile (vfsCreateFile vfsInit (lit "/etc/passwd") [slash] 0 0 0).1 (lit "/etc/shadow")
    [slash] 0 0 0).1

def filesPool (passwd shadow : List Byte) : Pool :=
  vfsSetContents (vfsSetContents etcPool 11 passwd) 12 shadow

theorem sameLinks_filesPool (passwd shadow : List Byte) :
    SameLinks etcPool (filesPool passwd shadow) :=
  (sameLinks_vfsSetContents _ _ _).trans (sameLinks_vfsSetContents _ _ _)

theorem fileText_filesPool (passwd shadow : List Byte) :
    fileText (filesPool passwd shadow) (lit "/etc/passwd") = passwd ∧
      fileText (filesPool passwd shadow) (lit "/etc/shadow") = shadow := by
  have hl := sameLinks_filesPool passwd shadow
  have hget : ∀ data : List Byte,
      ((if data = [] then none else some data : Option (List Byte)).getD []).take data.length =
        data := fun data => by
    split_ifs with h
    · simp [h]
    · simp
  have h₁ : vfsLookup (filesPool passwd shadow) (lit "/etc/passwd") [slash] = some 11 := by
    rw [hl.vfsLookup_eq]
    decide
  have h₂ : vfsLookup (filesPool passwd shadow) (lit "/etc/shadow") [slash] = some 12 := by
    rw [hl.vfsLookup_eq]
    decide
  constructor
  · rw [fileText, h₁]
    exact hget passwd
  · rw [fileText, h₂]
    exact hget shadow

theorem restorable_of_restores (h : Good db.records) (hres : Restores db) :
    Restorable db.records := by
  obtain ⟨hpasswd, hshadow⟩ := fileText_filesPool (passwdText db) (shadowText db)
  obtain ⟨hacc, hcheck⟩ := hres (fun _ => true) ⟨db, filesPool (passwdText db) (shadowText db)⟩
    hpasswd hshadow
  rw [accounts_usersInit, hpasswd] at hacc
  -- root was found in the text: its own line would have been read back
  have hfound : HasRoot (passwdRecords (passwdText db)) := by
    by_contra hnone
    rw [if_neg hnone] at hacc
    have hlen := congrArg List.length hacc
    rw [List.length_map, List.length_map, List.length_singleton] at hlen
    obtain ⟨r, hr⟩ := List.length_eq_one_iff.1 hlen.symm
    rw [hr, List.map_singleton, List.map_singleton] at hacc
    have hroot : account rootRecord = account r := by simpa using hacc
    have hbody : passwdBody r = passwdBody rootRecord := by
      simp only [account, Prod.mk.injEq] at hroot
      obtain ⟨h₁, h₂, h₃, h₄, h₅⟩ := hroot
      rw [passwdBody, passwdBody, h₁, h₂, h₃, h₄, h₅]
    have hshort : (passwdBody rootRecord).length < 255 := by decide
    have hfits : PasswdFits db.records := by
      rw [hr]
      refine ⟨?_, by simp, fun u hu => ?_⟩
      · rw [List.map_singleton, List.sum_singleton,
          passwdLine_of_whole (by rw [Whole, hbody]; exact hshort), List.length_append, hbody]
        exact (Nat.add_lt_add_right hshort 1).trans (by decide)
      · rw [List.mem_singleton.1 hu, hbody]
        exact hshort.le
    rw [passwdRecords_of_fits h hfits, hr] at hnone
    refine hnone ⟨fresh r, by simp, ?_⟩
    have hname : rootRecord.name = r.name := congrArg Prod.fst hroot
    rw [fresh_name, ← hname]
    decide
  rw [if_pos hfound] at hacc
  have hfits := fits_of_passwdRecords h hacc
  have hroot : HasRoot db.records := by
    obtain ⟨u, hu, hname⟩ := hfound
    have hmem : account u ∈ db.records.map account := by
      rw [← hacc]
      exact List.mem_map_of_mem hu
    obtain ⟨v, hv, hvu⟩ := List.mem_map.1 hmem
    have hvname : v.name = u.name := congrArg Prod.fst hvu
    exact ⟨v, hv, by rw [hvname, hname]⟩
  refine ⟨hroot, hfits, fun u hu hset => ?_⟩
  by_contra hlost
  have hfind : userFindName db u.name.chars = some u := h.find?_eq hu hset
  obtain ⟨password, hne⟩ := exists_hashPassword_ne u.salt u.passwordHash
  have hloaded := userFindName_usersInit (a := ⟨db, filesPool (passwdText db) (shadowText db)⟩) h
    hroot hfits (fun _ => true) hpasswd hshadow u.name.chars
  rw [hfind, Option.map_some, if_neg fun hc => hlost hc.2] at hloaded
  have hcheck' := hcheck ⟨u.name.chars, u.name.nul_free⟩ password
  have hset' : ¬ u.passwordSet = false := by simp [hset]
  -- without its line the account takes any password
  rw [userCheckPassword_of_find hloaded, userCheckPassword_of_find hfind, if_neg hset',
    if_pos (show (fresh u).passwordSet = false from rfl)] at hcheck'
  exact hne (eq_of_beq hcheck'.symm)

/-- **A reachable table comes back** exactly when root is in it, the lines of `/etc/passwd` fit,
and so do those of `/etc/shadow` that carry a password. -/
theorem restores_iff {a : Accounts} (ha : Reached a) :
    Restores a.db ↔ Restorable a.db.records := by
  have h := good_of_reached ha
  constructor
  · exact restorable_of_restores h
  · intro hr kmalloc b hpasswd hshadow
    have hrecords := passwdRecords_of_fits h hr.passwd
    have hroot : HasRoot (a.db.records.map fresh) := by
      obtain ⟨u, hu, hname⟩ := hr.root
      exact ⟨fresh u, List.mem_map_of_mem hu, by rw [fresh_name, hname]⟩
    constructor
    · rw [accounts_usersInit, hpasswd, hrecords, if_pos hroot, List.map_map]
      exact List.map_congr_left fun u _ => account_fresh u
    · intro name password
      rw [userCheckPassword, userCheckPassword,
        userFindName_usersInit h hr.root hr.passwd kmalloc hpasswd hshadow]
      cases hu : userFindName a.db name.chars with
      | none => rfl
      | some u =>
        have hmem : u ∈ a.db.records := List.mem_of_find?_eq_some hu
        by_cases hset : u.passwordSet = true
        · rw [Option.map_some, if_pos ⟨hset, hr.shadow u hmem hset⟩]
          simp [ShadowEntry.apply, UserRecord.entry, hset]
        · rw [Option.map_some, if_neg fun hc => hset hc.1]
          simp [fresh, newRecord, hset]

def booted : Accounts := usersInit (fun _ => true) rootOnly

theorem restores_iff_booted : Restores booted.db ↔ Restorable booted.db.records :=
  restores_iff (.init _ _)

theorem reached_run (h : Reached a) (ops : List UserOp) : Reached (run a ops) := by
  induction ops generalizing a with
  | nil => exact h
  | cons op ops ih => exact ih (h.step op)

def crowdName (i : ℕ) : CString :=
  ⟨cstr (List.replicate 30 97 ++ [UInt8.ofNat (97 + i)]), zero_notMem_cstr _⟩

def crowd : List UserOp :=
  (List.range 17).map fun i =>
    .add (fun _ => true) (crowdName i) (UInt32.ofNat (1000 + i)) (UInt32.ofNat (1000 + i))

/-- What `user_add` does to the records, as lists. -/
def withAccount (records : List UserRecord) (name : List Byte) (uid gid : UInt32) : List UserRecord :=
  if ¬ userNameValid name ∨ (records.find? fun u => u.name.chars = name).isSome ∨
      (records.find? fun u => u.uid = uid).isSome ∨ maxUsers ≤ records.length then records
  else records ++ [newRecord name uid gid (homeOf name) (lit "/bin/tsh")]

theorem records_userAdd (kmalloc : ℕ → Bool) (a : Accounts) (name : List Byte) (uid gid : UInt32) :
    (userAdd kmalloc a name uid gid).1.db.records = withAccount a.db.records name uid gid := by
  rw [userAdd, withAccount, length_records]
  split_ifs with h h' h'
  · rfl
  · exact absurd h h'
  · exact absurd h' h
  · simp only [not_or, not_le] at h
    simp only [db_rebuildShadow, db_rebuildGroup, db_rebuildPasswd]
    rw [records_addRecord, if_neg (not_le.2 h.2.2.2)]

theorem records_run_crowd (numbers : List ℕ) (a : Accounts) :
    (run a (numbers.map fun i => .add (fun _ => true) (crowdName i) (UInt32.ofNat (1000 + i))
      (UInt32.ofNat (1000 + i)))).db.records =
      numbers.foldl (fun records i => withAccount records (crowdName i).chars (UInt32.ofNat (1000 + i))
        (UInt32.ofNat (1000 + i))) a.db.records := by
  induction numbers generalizing a with
  | nil => rfl
  | cons i numbers ih =>
    rw [List.map_cons, run, List.foldl_cons, ← run, ih, apply, records_userAdd, List.foldl_cons]

theorem length_passwdLine (u : UserRecord) :
    (passwdLine u).length = min 255 (2 * u.name.chars.length + u.home.chars.length + u.shell.chars.length +
      (decimal u.uid).length + (decimal u.gid).length + 8) := by
  have hx : (lit ":x:").length = 3 := rfl
  have hcolon : (lit ":").length = 1 := rfl
  rw [passwdLine, ksnprintf, List.length_take, passwdBody]
  refine congrArg (min 255) ?_
  simp only [List.length_append, hx, hcolon, List.length_singleton]
  omega

/-- Seventeen accounts with long names do not fit `/etc/passwd`. -/
theorem not_restores_crowd : Reached (run booted crowd) ∧ ¬ Restores (run booted crowd).db := by
  have hreached : Reached (run booted crowd) := reached_run (.init _ _) crowd
  refine ⟨hreached, fun h => ?_⟩
  have htotal := (restorable_of_restores (good_of_reached hreached) h).passwd.total
  have hlong : ¬ ((run booted crowd).db.records.map fun u => (passwdLine u).length).sum < 2048 := by
    simp only [crowd, records_run_crowd, length_passwdLine]
    decide +kernel
  exact hlong htotal

end Tnu.User
