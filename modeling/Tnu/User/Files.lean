/-
**The user files, written and read.**

What the loops of `users_init` and `parse_shadow` find in the texts that `rebuild_passwd` and
`rebuild_shadow` write: the records whose lines were kept, as far as their lines are whole.

Main results:

* `passwdEntry_passwdBody`, `shadowEntry_shadowBody` — **a line is read back**;
* `fileLines_passwdText`, `fileLines_shadowText` — **the lines of a text**.
-/

import Tnu.Lib.Fill
import Tnu.User.Accounts

set_option autoImplicit false

namespace Tnu.User

/-! ### Records that do not break a line -/

/-- The strings of a record have no separators: no newlines, and no colons but in the shell. -/
structure Clean (u : UserRecord) : Prop where
  name_colon : colon ∉ u.name.chars
  name_newline : newline ∉ u.name.chars
  home_colon : colon ∉ u.home.chars
  home_newline : newline ∉ u.home.chars
  shell_newline : newline ∉ u.shell.chars

variable {c : Byte} {init users : List UserRecord} {u last : UserRecord} {value width : ℕ}

theorem notMem_unsignedToString {base : ℕ} (hbase : 1 < base) (hbase' : base ≤ 16)
    (hvalue : value < base ^ 32) (hc : ∀ d < 16, digitChar d ≠ c) :
    c ∉ unsignedToString base value := by
  intro h
  obtain ⟨d, hd, rfl⟩ := List.mem_map.1 h
  exact hc d ((outDigits_lt hbase hvalue d hd).trans_le hbase') rfl

theorem notMem_decimal (n : UInt32) (hc : ∀ d < 16, digitChar d ≠ c) :
    c ∉ decimal n := by
  have : n.toNat < 2 ^ 32 := n.toNat_lt
  exact notMem_unsignedToString (by decide) (by decide) (by norm_num; omega) hc

theorem notMem_outPadded {s : List Byte} (hc : digitChar 0 ≠ c)
    (hs : c ∉ s) : c ∉ outPadded width s := by
  rw [outPadded, List.mem_append, List.mem_replicate]
  rintro (⟨-, h⟩ | h)
  · exact hc h.symm
  · exact hs h

/-- The hash and the salt of a record as `rebuild_shadow` writes them. -/
def hexPadded (width value : ℕ) : List Byte := outPadded width (unsignedToString 16 value)

theorem notMem_hexPadded (h : value < 2 ^ 64)
    (hc : ∀ d < 16, digitChar d ≠ c) : c ∉ hexPadded width value :=
  notMem_outPadded (hc 0 (by decide))
    (notMem_unsignedToString (by decide) (by decide) (h.trans (by norm_num)) hc)

/-! ### A line of `/etc/passwd` -/

/-- A record as it comes back from `/etc/passwd`. -/
def fresh (u : UserRecord) : UserRecord :=
  newRecord u.name.chars u.uid u.gid u.home.chars u.shell.chars

def account (u : UserRecord) :
    CharBuf userNameMax × UInt32 × UInt32 × CharBuf userHomeMax × CharBuf userShellMax :=
  (u.name, u.uid, u.gid, u.home, u.shell)

@[simp] theorem fresh_name (u : UserRecord) : (fresh u).name = u.name := CharBuf.strncpy_self _

@[simp] theorem account_fresh (u : UserRecord) : account (fresh u) = account u := by
  simp [account, fresh, newRecord]

theorem passwdBody_eq (u : UserRecord) : passwdBody u =
    u.name.chars ++ colon :: (lit "x" ++ colon :: (decimal u.uid ++ colon :: (decimal u.gid ++
      colon :: (u.name.chars ++ colon :: (u.home.chars ++ colon :: u.shell.chars))))) := by
  have hx : lit ":x:" = colon :: (lit "x" ++ [colon]) := by decide
  have hc : lit ":" = [colon] := by decide
  simp [passwdBody, hx, hc]

theorem fields_passwdBody (hu : Clean u) : Sep.fields colon 6 (passwdBody u) =
    [u.name.chars, lit "x", decimal u.uid, decimal u.gid, u.name.chars, u.home.chars,
      u.shell.chars] := by
  have hdigit : ∀ d < 16, digitChar d ≠ colon := fun d hd => (digitChar_ne d hd).1
  rw [passwdBody_eq, Sep.fields_append hu.name_colon, Sep.fields_append (by decide),
    Sep.fields_append (notMem_decimal _ hdigit), Sep.fields_append (notMem_decimal _ hdigit),
    Sep.fields_append hu.name_colon, Sep.fields_append hu.home_colon, Sep.fields]

/-- **A line is read back.** -/
theorem passwdEntry_passwdBody (hu : Clean u) :
    passwdEntry (passwdBody u) = some (fresh u) := by
  rw [passwdEntry, fields_passwdBody hu]
  simp only [decimal, atoi_unsignedToString]
  rfl

theorem passwdBody_ne_nil (u : UserRecord) : passwdBody u ≠ [] := by
  rw [passwdBody_eq]
  simp

theorem newline_notMem_passwdBody (hu : Clean u) : newline ∉ passwdBody u := by
  have hdigit : ∀ d < 16, digitChar d ≠ newline := fun d hd => (digitChar_ne d hd).2.1
  have hx : newline ∉ lit "x" := by decide
  have hc : newline ≠ colon := by decide
  rw [passwdBody_eq]
  simp [hu.name_newline, hu.home_newline, hu.shell_newline, notMem_decimal _ hdigit, hx, hc]

theorem zero_notMem_passwdBody (u : UserRecord) : 0 ∉ passwdBody u := by
  have hdigit : ∀ d < 16, digitChar d ≠ 0 := fun d hd => (digitChar_ne d hd).2.2.2.1
  have hx : (0 : Byte) ∉ lit "x" := by decide
  have hc : (0 : Byte) ≠ colon := by decide
  rw [passwdBody_eq]
  simp [u.name.nul_free, u.home.nul_free, u.shell.nul_free, notMem_decimal _ hdigit, hx, hc]

theorem eq_passwdBody_of_prefix {r : UserRecord} (hu : Clean u) {t : List Byte}
    (ht : t <+: passwdBody u) (hr : passwdEntry t = some r) (hacc : account r = account u) :
    t = passwdBody u := by
  obtain ⟨rest, hrest⟩ := ht
  have hlen : (Sep.fields colon 6 t).length = 6 + 1 := by
    rw [passwdEntry] at hr
    split at hr
    · rename_i hfields
      rw [hfields]
      rfl
    · cases hr
  obtain ⟨init, last, h₁, h₂⟩ := Sep.fields_append_right hlen rest
  rw [hrest, fields_passwdBody hu] at h₂
  have hinit : init = [u.name.chars, lit "x", decimal u.uid, decimal u.gid, u.name.chars,
      u.home.chars] ∧ last ++ rest = u.shell.chars := by
    change [u.name.chars, lit "x", decimal u.uid, decimal u.gid, u.name.chars,
      u.home.chars] ++ [u.shell.chars] = init ++ [last ++ rest] at h₂
    have := List.append_inj' h₂ rfl
    exact ⟨this.1.symm, (List.singleton_inj.1 this.2).symm⟩
  rw [passwdEntry, h₁, hinit.1] at hr
  have hshell : r.shell = CharBuf.strncpy userShellMax last := by
    obtain rfl := Option.some.inj hr
    rfl
  have hwhole : last = u.shell.chars := by
    have hsub : ∀ c ∈ last, c ∈ u.shell.chars := fun c hc => by
      rw [← hinit.2]
      exact List.mem_append_left _ hc
    have hle : last.length ≤ userShellMax := by
      have := congrArg List.length hinit.2
      rw [List.length_append] at this
      exact (Nat.le_add_right _ _).trans (this.le.trans u.shell.length_le)
    have hr' : r.shell = u.shell := congrArg (fun a => a.2.2.2.2) hacc
    rw [hshell] at hr'
    have := congrArg CharBuf.chars hr'
    rwa [CharBuf.strncpy_chars_of_le (fun h0 => u.shell.nul_free (hsub 0 h0)) hle] at this
  have hnil : rest = [] := by
    have := hinit.2
    rw [hwhole] at this
    simpa using this
  rw [← hrest, hnil, List.append_nil]

/-! ### A line of `/etc/shadow` -/

/-- What a line of `/etc/shadow` says of a record. -/
def UserRecord.entry (u : UserRecord) : ShadowEntry := ⟨u.name.chars, u.salt, u.passwordHash⟩

theorem shadowBody_eq (u : UserRecord) : shadowBody u = u.name.chars ++ colon ::
    (if u.passwordSet = true then
      userHashScheme ++ [dollar] ++ (hexPadded 8 u.salt.toNat ++ dollar ::
        (hexPadded 16 u.passwordHash.toNat ++ shadowTail))
    else shadowTail) := by
  have hc : lit ":" = [colon] := by decide
  have hd : lit "$" = [dollar] := by decide
  rw [shadowBody, hc, hd]
  split_ifs
  · simp [hexPadded]
  · simp

/-- **A line is read back**, when there is a password in it. -/
theorem shadowEntry_shadowBody (hu : Clean u) :
    shadowEntry (shadowBody u) = if u.passwordSet = true then some u.entry else none := by
  have hdigit : ∀ d < 16, digitChar d ≠ dollar := fun d hd => (digitChar_ne d hd).2.2.1
  rw [shadowEntry, shadowBody_eq, Sep.afterFirst_append hu.name_colon,
    Sep.beforeFirst_append hu.name_colon]
  simp only [List.mem_append, List.mem_cons, true_or, or_true, not_true_eq_false, false_or]
  by_cases hset : u.passwordSet = true
  · have hlen : (userHashScheme ++ [dollar]).length = 5 := by decide
    have hsalt : u.salt.toNat < 2 ^ 64 := u.salt.toNat_lt.trans (by decide)
    have hhash : u.passwordHash.toNat < 2 ^ 64 := u.passwordHash.toNat_lt
    have hstop : ∀ c ∈ shadowTail.head?, digitValue c = none := by
      intro c hc
      obtain rfl : colon = c := Option.some.inj hc
      rfl
    simp only [hset, if_true]
    rw [if_neg (by simp [userHashScheme]), List.take_left' hlen, List.drop_left' hlen,
      if_neg (by simp), if_neg (by simp), Sep.beforeFirst_append (notMem_hexPadded hsalt hdigit),
      Sep.afterFirst_append (notMem_hexPadded hsalt hdigit)]
    have h₁ : (parseHex64 (hexPadded 8 u.salt.toNat)).toNat = u.salt.toNat := by
      have := parseHex64_outPadded 8 hsalt [] (by simp)
      rwa [List.append_nil] at this
    have h₂ : (parseHex64 (hexPadded 16 u.passwordHash.toNat ++ shadowTail)).toNat =
        u.passwordHash.toNat := parseHex64_outPadded 16 hhash shadowTail hstop
    have h₃ : (parseHex64 (hexPadded 8 u.salt.toNat)).toUInt32 = u.salt := by
      apply UInt32.toNat_inj.1
      rw [UInt64.toNat_toUInt32, h₁, Nat.mod_eq_of_lt u.salt.toNat_lt]
    rw [h₃, UInt64.toNat_inj.1 h₂]
    rfl
  · have htail : shadowTail.take 5 ≠ userHashScheme ++ [dollar] := by decide
    rw [if_neg hset, if_neg hset, if_neg (by decide), if_pos htail]

theorem length_hexPadded (hw : 0 < width) (hw' : width ≤ 16)
    (h : value < 16 ^ width) : (hexPadded width value).length = width := by
  have hlen : (unsignedToString 16 value).length ≤ width := by
    rw [unsignedToString, List.length_map]
    exact length_outDigits_le (by decide) hw (hw'.trans (by decide)) h
  rw [hexPadded, outPadded, List.length_append, List.length_replicate]
  omega

theorem shadowLine_eq (u : UserRecord) : shadowLine u = shadowBody u ++ [newline] := by
  have hname : u.name.chars.length ≤ 31 := u.name.length_le
  have hscheme : (userHashScheme ++ [dollar]).length = 5 := by decide
  have htail : shadowTail.length = 15 := by decide
  have hsalt : (hexPadded 8 u.salt.toNat).length = 8 :=
    length_hexPadded (by decide) (by decide) (u.salt.toNat_lt.trans_le (by norm_num))
  have hhash : (hexPadded 16 u.passwordHash.toNat).length = 16 :=
    length_hexPadded (by decide) (by decide) (u.passwordHash.toNat_lt.trans_le (by norm_num))
  rw [shadowLine, ksnprintf, List.take_of_length_le]
  rw [List.length_append, shadowBody_eq, List.length_append, List.length_cons]
  split_ifs
  · simp only [List.length_append, List.length_cons, List.length_nil, hsalt, hhash, htail] at hscheme ⊢
    omega
  · simp only [htail, List.length_cons, List.length_nil]
    omega

theorem shadowBody_ne_nil (u : UserRecord) : shadowBody u ≠ [] := by
  rw [shadowBody_eq]
  simp

theorem notMem_shadowBody (hname : c ∉ u.name.chars)
    (hdigit : ∀ d < 16, digitChar d ≠ c) (hfixed : c ∉ userHashScheme ++ [dollar, colon] ++
      shadowTail) : c ∉ shadowBody u := by
  have hsalt : u.salt.toNat < 2 ^ 64 := u.salt.toNat_lt.trans (by decide)
  have h₁ : c ∉ hexPadded 8 u.salt.toNat := notMem_hexPadded hsalt hdigit
  have h₂ : c ∉ hexPadded 16 u.passwordHash.toNat :=
    notMem_hexPadded u.passwordHash.toNat_lt hdigit
  simp only [List.mem_append, List.mem_cons, List.not_mem_nil, or_false, not_or] at hfixed
  rw [shadowBody_eq]
  split_ifs
  · simp [hname, h₁, h₂, hfixed]
  · simp [hname, hfixed]

theorem newline_notMem_shadowBody (hu : Clean u) : newline ∉ shadowBody u :=
  notMem_shadowBody hu.name_newline (fun d hd => (digitChar_ne d hd).2.1) (by decide)

theorem zero_notMem_shadowBody (u : UserRecord) : 0 ∉ shadowBody u :=
  notMem_shadowBody u.name.nul_free (fun d hd => (digitChar_ne d hd).2.2.2.1) (by decide)

/-! ### The lines of a text -/

theorem fileLines_append {ls : List (List Byte)} {last : List Byte}
    (hls : ∀ p ∈ ls, p ≠ [] ∧ newline ∉ p ∧ 0 ∉ p) (hlast : newline ∉ last) (hzero : 0 ∉ last)
    (hlen : (Sep.joinPost newline ls ++ last).length < 2048) :
    fileLines (Sep.joinPost newline ls ++ last) = ls ++ if last = [] then [] else [last] := by
  have h0 : 0 ∉ Sep.joinPost newline ls ++ last := by
    rw [List.mem_append, Sep.joinPost, List.mem_flatMap]
    rintro (⟨p, hp, h⟩ | h)
    · rcases List.mem_append.1 h with h | h
      · exact (hls p hp).2.2 h
      · exact absurd (List.mem_singleton.1 h) (by decide)
    · exact hzero h
  rw [fileLines, List.take_of_length_le (by omega), cstr_of_notMem h0]
  split_ifs with hnil
  · rw [hnil, List.append_nil, List.append_nil]
    exact Sep.pieces_joinPost (fun p hp => (hls p hp).1) fun p hp => (hls p hp).2.1
  · exact Sep.pieces_joinPost_append (fun p hp => (hls p hp).1) (fun p hp => (hls p hp).2.1) hlast
      hnil

theorem length_fileLines_le {text : List Byte} (h0 : 0 ∉ text) (hlen : text.length < 2048) :
    (fileLines text).length ≤
      text.count newline + if text.getLast? = some newline ∨ text = [] then 0 else 1 := by
  rw [fileLines, List.take_of_length_le (by omega), cstr_of_notMem h0]
  exact Sep.length_pieces_le newline text

/-- The records whose lines `rebuild_passwd` keeps. -/
def keptPasswd (users : List UserRecord) : List UserRecord :=
  Fill.kept (fun u => (passwdLine u).length) 2048 0 users

/-- The records whose lines `rebuild_shadow` keeps. -/
def keptShadow (users : List UserRecord) : List UserRecord :=
  Fill.kept (fun u => (shadowLine u).length) 2048 0 users

theorem passwdText_eq (db : UserDb) :
    passwdText db = (keptPasswd db.records).flatMap passwdLine := by
  rw [passwdText, rebuildText, Fill.foldl_eq_kept, List.nil_append]
  rfl

theorem shadowText_eq (db : UserDb) :
    shadowText db = (keptShadow db.records).flatMap shadowLine := by
  rw [shadowText, rebuildText, Fill.foldl_eq_kept, List.nil_append]
  rfl

theorem length_passwdText (db : UserDb) : (passwdText db).length < 2048 := by
  have hsum : 0 + ((keptPasswd db.records).map fun u => (passwdLine u).length).sum < 2048 :=
    Fill.sum_kept_lt db.records (by decide)
  rw [passwdText_eq, List.length_flatMap]
  omega

theorem length_shadowText (db : UserDb) : (shadowText db).length < 2048 := by
  have hsum : 0 + ((keptShadow db.records).map fun u => (shadowLine u).length).sum < 2048 :=
    Fill.sum_kept_lt db.records (by decide)
  rw [shadowText_eq, List.length_flatMap]
  omega

theorem mem_keptPasswd (h : u ∈ keptPasswd users) :
    u ∈ users := (Fill.kept_sublist _ _ users 0).subset h

theorem mem_keptShadow (h : u ∈ keptShadow users) :
    u ∈ users := (Fill.kept_sublist _ _ users 0).subset h

theorem flatMap_lines (body : UserRecord → List Byte) (users : List UserRecord) :
    users.flatMap (fun u => body u ++ [newline]) = Sep.joinPost newline (users.map body) := by
  rw [Sep.joinPost, List.flatMap_map]

variable {db : UserDb}

/-- **The lines of the shadow text** are those of the kept records. -/
theorem fileLines_shadowText (h : ∀ u ∈ db.records, Clean u) :
    fileLines (shadowText db) = (keptShadow db.records).map shadowBody := by
  have htext : shadowText db = Sep.joinPost newline ((keptShadow db.records).map shadowBody) ++ [] := by
    rw [shadowText_eq, ← flatMap_lines, List.append_nil, funext shadowLine_eq]
  have hlen := length_shadowText db
  rw [htext] at hlen ⊢
  rw [fileLines_append _ (by simp) (by simp) hlen, if_pos rfl, List.append_nil]
  intro p hp
  obtain ⟨u, hu, rfl⟩ := List.mem_map.1 hp
  exact ⟨shadowBody_ne_nil u, newline_notMem_shadowBody (h u (mem_keptShadow hu)),
    zero_notMem_shadowBody u⟩

/-- A line of `/etc/passwd` is whole when its text has at most 254 bytes. -/
def Whole (u : UserRecord) : Prop := (passwdBody u).length < 255

instance : DecidablePred Whole := fun u => inferInstanceAs (Decidable ((passwdBody u).length < 255))

theorem passwdLine_of_whole (h : Whole u) :
    passwdLine u = passwdBody u ++ [newline] := by
  have h' : (passwdBody u).length < 255 := h
  rw [passwdLine, ksnprintf, List.take_of_length_le]
  simp only [List.length_append, List.length_singleton]
  omega

theorem passwdLine_of_not_whole (h : ¬ Whole u) :
    passwdLine u = (passwdBody u).take 255 := by
  have h' : 255 ≤ (passwdBody u).length := not_lt.1 h
  rw [passwdLine, ksnprintf, List.take_append_of_le_length h']

/-- **The lines of a passwd text** whose kept lines are whole, but for the last. -/
theorem fileLines_passwdText
    (hclean : ∀ u ∈ db.records, Clean u) (hkept : keptPasswd db.records = init ++ [last])
    (hinit : ∀ u ∈ init, Whole u) :
    fileLines (passwdText db) = init.map passwdBody ++ [(passwdBody last).take 255] := by
  have hmem : ∀ u ∈ init ++ [last], Clean u := fun u hu => by
    rw [← hkept] at hu
    exact hclean u (mem_keptPasswd hu)
  have hbody : ∀ u ∈ init ++ [last], passwdBody u ≠ [] ∧ newline ∉ passwdBody u ∧
      0 ∉ passwdBody u := fun u hu =>
    ⟨passwdBody_ne_nil u, newline_notMem_passwdBody (hmem u hu), zero_notMem_passwdBody u⟩
  have hlines : init.flatMap passwdLine = Sep.joinPost newline (init.map passwdBody) := by
    rw [← flatMap_lines, List.flatMap_def, List.flatMap_def]
    refine congrArg List.flatten (List.map_congr_left fun u hu => ?_)
    exact passwdLine_of_whole (hinit u hu)
  have htext : passwdText db =
      Sep.joinPost newline (init.map passwdBody) ++ passwdLine last := by
    rw [passwdText_eq, hkept, List.flatMap_append, hlines, List.flatMap_singleton]
  have hlen := length_passwdText db
  have hinit' : ∀ p ∈ init.map passwdBody, p ≠ [] ∧ newline ∉ p ∧ 0 ∉ p := fun p hp => by
    obtain ⟨u, hu, rfl⟩ := List.mem_map.1 hp
    exact hbody u (by simp [hu])
  obtain ⟨hne, hnl, h0⟩ := hbody last (by simp)
  by_cases hw : Whole last
  · have htake : (passwdBody last).take 255 = passwdBody last :=
      List.take_of_length_le (le_of_lt hw)
    have hjoin : passwdText db =
        Sep.joinPost newline (init.map passwdBody ++ [passwdBody last]) ++ [] := by
      rw [htext, passwdLine_of_whole hw, Sep.joinPost_append]
      simp
    rw [hjoin] at hlen ⊢
    rw [fileLines_append _ (by simp) (by simp) hlen, if_pos rfl, List.append_nil, htake]
    intro p hp
    rcases List.mem_append.1 hp with hp | hp
    · exact hinit' p hp
    · rw [List.mem_singleton.1 hp]
      exact ⟨hne, hnl, h0⟩
  · rw [passwdLine_of_not_whole hw] at htext
    rw [htext] at hlen ⊢
    rw [fileLines_append hinit' (fun h => hnl (List.mem_of_mem_take h))
      (fun h => h0 (List.mem_of_mem_take h)) hlen, if_neg]
    simpa using hne

theorem count_newline_passwdText (hclean : ∀ u ∈ db.records, Clean u) :
    (passwdText db).count newline = ((keptPasswd db.records).filter (Whole ·)).length := by
  have hcount : ∀ l : List UserRecord, (∀ u ∈ l, Clean u) →
      (l.flatMap passwdLine).count newline = (l.filter (Whole ·)).length := by
    intro l
    induction l with
    | nil => intro _; rfl
    | cons u l ih =>
      intro h
      have hu := newline_notMem_passwdBody (h u (by simp))
      rw [List.flatMap_cons, List.count_append, ih fun v hv => h v (by simp [hv])]
      by_cases hw : Whole u
      · rw [passwdLine_of_whole hw, List.count_append, List.count_eq_zero_of_not_mem hu,
          List.filter_cons_of_pos (by simpa using hw), List.length_cons]
        simp [Nat.add_comm]
      · rw [passwdLine_of_not_whole hw,
          List.count_eq_zero_of_not_mem fun hm => hu (List.mem_of_mem_take hm),
          List.filter_cons_of_neg (by simpa using hw), Nat.zero_add]
  rw [passwdText_eq]
  exact hcount _ fun u hu => hclean u (mem_keptPasswd hu)

theorem getLast?_passwdText (hclean : ∀ u ∈ db.records, Clean u)
    (hkept : keptPasswd db.records = init ++ [last]) :
    ((passwdText db).getLast? = some newline ∨ passwdText db = []) ↔ Whole last := by
  have hlast : Clean last := hclean last (mem_keptPasswd (by simp [hkept]))
  rw [passwdText_eq, hkept, List.flatMap_append, List.flatMap_singleton]
  by_cases hw : Whole last
  · rw [passwdLine_of_whole hw]
    simp [hw]
  · rw [passwdLine_of_not_whole hw]
    have hne : (passwdBody last).take 255 ≠ [] := by simpa using passwdBody_ne_nil last
    simp only [hw, iff_false, not_or]
    constructor
    · intro h
      rw [List.getLast?_append_of_ne_nil _ hne] at h
      exact newline_notMem_passwdBody hlast (List.mem_of_mem_take (List.mem_of_getLast? h))
    · intro h
      exact hne (List.append_eq_nil_iff.1 h).2

theorem zero_notMem_passwdText (db : UserDb) : 0 ∉ passwdText db := by
  rw [passwdText_eq]
  intro h
  obtain ⟨u, -, hu⟩ := List.mem_flatMap.1 h
  have := List.mem_of_mem_take hu
  rcases List.mem_append.1 this with h | h
  · exact zero_notMem_passwdBody u h
  · exact absurd (List.mem_singleton.1 h) (by decide)

end Tnu.User
