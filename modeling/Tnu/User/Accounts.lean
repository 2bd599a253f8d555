/-
**Accounts and their files.**

The functions of `kernel/security/user.c` that change the user table write it to `/etc/passwd`,
`/etc/group` and `/etc/shadow` each time, and `users_init` reads it back.  This module embeds them
over the table and the VFS, and settles what the table itself keeps: who is logged in when another
account is deleted, and that names and uids stay distinct.

Main definitions:

* `userAdd`, `userDel`, `userSetPassword`, `usersInit`;
* `Distinct` — names and uids are distinct, and one record has uid 0.

Main results:

* `userDel_keepsSession_iff` — **when a deletion keeps the session**;
* `distinct_of_run` — **what a run with short names keeps**.
-/

import Tnu.Lib.Sep
import Tnu.User.Table

set_option autoImplicit false

namespace Tnu.User

open Vfs

/-! ### The texts -/

/-- `:` -/
abbrev colon : Byte := 58

/-- `\\n` -/
abbrev newline : Byte := 10

/-- `$` -/
abbrev dollar : Byte := 36

/-- `%u` -/
def decimal (n : UInt32) : List Byte := unsignedToString 10 n.toNat

/-- The loop of the `rebuild_` functions: a line that does not fit the buffer any more is left
out. -/
def rebuildText (size : ℕ) (line : UserRecord → List Byte) (start : List Byte)
    (users : List UserRecord) : List Byte :=
  users.foldl (fun buf u => if buf.length + (line u).length < size then buf ++ line u else buf)
    start

/-- The text of a line of `/etc/passwd`, without the newline. -/
def passwdBody (u : UserRecord) : List Byte :=
  u.name.chars ++ lit ":x:" ++ decimal u.uid ++ lit ":" ++ decimal u.gid ++ lit ":"
    ++ u.name.chars ++ lit ":" ++ u.home.chars ++ lit ":" ++ u.shell.chars

/-- A line of `/etc/passwd`. -/
def passwdLine (u : UserRecord) : List Byte := ksnprintf 256 (passwdBody u ++ [newline])

/-- A line of `/etc/group`. -/
def groupLine (u : UserRecord) : List Byte :=
  ksnprintf 128 (u.name.chars ++ lit ":x:" ++ decimal u.gid ++ lit ":" ++ u.name.chars
    ++ [newline])

/-- The fields of `/etc/shadow` behind the password. -/
def shadowTail : List Byte := lit ":0:0:99999:7:::"

/-- The text of a line of `/etc/shadow`, without the newline. -/
def shadowBody (u : UserRecord) : List Byte :=
  if u.passwordSet = true then
    u.name.chars ++ lit ":" ++ userHashScheme ++ lit "$"
      ++ outPadded 8 (unsignedToString 16 u.salt.toNat) ++ lit "$"
      ++ outPadded 16 (unsignedToString 16 u.passwordHash.toNat) ++ shadowTail
  else u.name.chars ++ lit ":" ++ shadowTail

/-- A line of `/etc/shadow`. -/
def shadowLine (u : UserRecord) : List Byte := ksnprintf 192 (shadowBody u ++ [newline])

/-- What `rebuild_passwd` writes. -/
def passwdText (db : UserDb) : List Byte := rebuildText 2048 passwdLine [] db.records

/-- What `rebuild_group` writes. -/
def groupText (db : UserDb) : List Byte :=
  rebuildText 2048 groupLine (lit "root:x:0:" ++ newline :: lit "wheel:x:10:root" ++ [newline])
    (db.records.filter fun u => u.uid ≠ 0)

/-- What `rebuild_shadow` writes. -/
def shadowText (db : UserDb) : List Byte := rebuildText 2048 shadowLine [] db.records

/-! ### The functions -/

/-- The user table and the VFS. -/
structure Accounts where
  db : UserDb
  vfs : Pool

def rebuildPasswd (kmalloc : ℕ → Bool) (a : Accounts) : Accounts :=
  { a with vfs := (vfsWriteFile kmalloc a.vfs (lit "/etc/passwd") [slash] (passwdText a.db)).1 }

def rebuildGroup (kmalloc : ℕ → Bool) (a : Accounts) : Accounts :=
  { a with vfs := (vfsWriteFile kmalloc a.vfs (lit "/etc/group") [slash] (groupText a.db)).1 }

def rebuildShadow (kmalloc : ℕ → Bool) (a : Accounts) : Accounts :=
  let path := lit "/etc/shadow"
  let s₁ := (vfsWriteFile kmalloc a.vfs path [slash] (shadowText a.db)).1
  let s₂ := (vfsChmod s₁ path [slash] 0o600).1
  { a with vfs := (vfsChown s₂ path [slash] 0 0).1 }

def makeHome (s : Pool) (home : List Byte) (uid gid : UInt32) : Pool :=
  let s₁ := (vfsMkdir s home [slash] (vfsSIfdir ||| 0o700) uid gid).1
  let s₂ := (vfsChmod s₁ home [slash] 0o700).1
  (vfsChown s₂ home [slash] uid gid).1

def homeOf (name : List Byte) : List Byte := ksnprintf (userHomeMax + 1) (lit "/home/" ++ name)

def userAdd (kmalloc : ℕ → Bool) (a : Accounts) (name : List Byte) (uid gid : UInt32) :
    Accounts × ℤ :=
  if ¬ userNameValid name ∨ (userFindName a.db name).isSome ∨ (userFindUid a.db uid).isSome ∨
      maxUsers ≤ a.db.usersLen then (a, -1)
  else
    let added : Accounts :=
      ⟨a.db.addRecord (newRecord name uid gid (homeOf name) (lit "/bin/tsh")),
        makeHome a.vfs (homeOf name) uid gid⟩
    (rebuildShadow kmalloc (rebuildGroup kmalloc (rebuildPasswd kmalloc added)), 0)

/-- The record `user_del` deletes: the first of that name whose uid is not 0. -/
def delIndex (db : UserDb) (name : List Byte) : Option ℕ :=
  db.records.findIdx? fun u => u.name.chars = name ∧ u.uid ≠ 0

def userDel (kmalloc : ℕ → Bool) (a : Accounts) (name : List Byte) : Accounts × ℤ :=
  match delIndex a.db name with
  | none => (a, -1)
  | some i =>
    let deleted := { a with db := a.db.delete i }
    (rebuildShadow kmalloc (rebuildGroup kmalloc (rebuildPasswd kmalloc deleted)), 0)

/-- The assignments of `user_set_password`; an empty password clears it. -/
def withPassword (name password : List Byte) (u : UserRecord) : UserRecord :=
  let salt := makeSalt name u.uid
  if password = [] then { u with salt := salt, passwordHash := 0, passwordSet := false }
  else
    let salt := salt ^^^ UInt32.ofNat password.length
    { u with salt := salt, passwordHash := hashPassword salt password, passwordSet := true }

def userSetPassword (kmalloc : ℕ → Bool) (a : Accounts) (name password : List Byte) :
    Accounts × ℤ :=
  match nameIndex a.db name with
  | none => (a, -1)
  | some i =>
    (rebuildShadow kmalloc { a with db := a.db.setRecord i (withPassword name password) }, 0)

/-! ### Reading the files -/

/-- The bytes of a file, none when there is no such file or it has no data. -/
def fileText (s : Pool) (path : List Byte) : List Byte :=
  match vfsLookup s path [slash] with
  | none => []
  | some n => ((s.nodes n).data.getD []).take (s.nodes n).size

/-- The lines `users_init` and `parse_shadow` walk through: the non-empty ones of the first 2047
bytes. -/
def fileLines (text : List Byte) : List (List Byte) := Sep.pieces newline (cstr (text.take 2047))

/-- The record in a line of `/etc/passwd`, when it has seven fields. -/
def passwdEntry (line : List Byte) : Option UserRecord :=
  match Sep.fields colon 6 line with
  | [name, _, uid, gid, _, home, shell] => some (newRecord name (atoi uid) (atoi gid) home shell)
  | _ => none

def parsePasswdLine (db : UserDb) (line : List Byte) : UserDb :=
  match passwdEntry line with
  | none => db
  | some u => db.addRecord u

/-- What a line of `/etc/shadow` sets. -/
structure ShadowEntry where
  name : List Byte
  salt : UInt32
  hash : UInt64
  deriving DecidableEq

/-- The name, salt and hash in a line of `/etc/shadow`, when it has a password of the scheme. -/
def shadowEntry (line : List Byte) : Option ShadowEntry :=
  let field := Sep.afterFirst colon line
  if colon ∉ line ∨ field = [] then none
  else if field.take 5 ≠ userHashScheme ++ [dollar] then none
  else
    let salt := field.drop 5
    if dollar ∉ salt then none
    else
      some ⟨Sep.beforeFirst colon line, (parseHex64 (Sep.beforeFirst dollar salt)).toUInt32,
        parseHex64 (Sep.afterFirst dollar salt)⟩

/-- The assignments of `parse_shadow_line`. -/
def ShadowEntry.apply (e : ShadowEntry) (u : UserRecord) : UserRecord :=
  { u with salt := e.salt, passwordHash := e.hash, passwordSet := true }

def parseShadowLine (db : UserDb) (line : List Byte) : UserDb :=
  match shadowEntry line with
  | none => db
  | some e =>
    match nameIndex db e.name with
    | none => db
    | some i => db.setRecord i e.apply

/-- The account `users_init` falls back to. -/
def rootRecord : UserRecord := newRecord (lit "root") 0 0 (lit "/root") (lit "/bin/tsh")

def UserDb.clear (db : UserDb) : UserDb := { db with usersLen := 0, currentUser := 0 }

def usersInit (kmalloc : ℕ → Bool) (a : Accounts) : Accounts :=
  let passwd := fileLines (fileText a.vfs (lit "/etc/passwd"))
  let parsed : Accounts := { a with db := passwd.foldl parsePasswdLine a.db.clear }
  let filled :=
    if parsed.db.usersLen = 0 then
      rebuildPasswd kmalloc { parsed with db := parsed.db.addRecord rootRecord }
    else parsed
  let rooted :=
    if (userFindName filled.db (lit "root")).isNone then
      let emptied : UserDb := { filled.db with usersLen := 0 }
      rebuildPasswd kmalloc { filled with db := emptied.addRecord rootRecord }
    else filled
  let shadow := fileLines (fileText rooted.vfs (lit "/etc/shadow"))
  let loaded : Accounts := { rooted with db := shadow.foldl parseShadowLine rooted.db }
  let rebuilt := rebuildShadow kmalloc (rebuildGroup kmalloc loaded)
  { rebuilt with vfs := makeHome rebuilt.vfs (lit "/root") 0 0 }

/-! ### What the table keeps -/

variable (kmalloc : ℕ → Bool)

@[simp] theorem db_rebuildPasswd (a : Accounts) :
    (rebuildPasswd kmalloc a).db = a.db := rfl

@[simp] theorem db_rebuildGroup (a : Accounts) :
    (rebuildGroup kmalloc a).db = a.db := rfl

@[simp] theorem db_rebuildShadow (a : Accounts) :
    (rebuildShadow kmalloc a).db = a.db := rfl

variable {a : Accounts} {name : List Byte}

theorem userDel_cases (a : Accounts) (name : List Byte) :
    (delIndex a.db name = none ∧ userDel kmalloc a name = (a, -1)) ∨
      ∃ i, delIndex a.db name = some i ∧ (userDel kmalloc a name).1.db = a.db.delete i ∧
        (userDel kmalloc a name).2 = 0 := by
  unfold userDel
  cases delIndex a.db name with
  | none => exact .inl ⟨rfl, rfl⟩
  | some i => exact .inr ⟨i, rfl, rfl, rfl⟩

theorem delIndex_eq_some {db : UserDb} {i : ℕ} (h : delIndex db name = some i) :
    i < db.usersLen ∧ (db.slots i).name.chars = name ∧ (db.slots i).uid ≠ 0 := by
  obtain ⟨hi, hp, -⟩ := List.findIdx?_eq_some_iff_getElem.1 h
  have hi' : i < db.usersLen := by simpa using hi
  have hget := getElem?_records hi'
  rw [List.getElem?_eq_getElem hi] at hget
  rw [Option.some.inj hget] at hp
  have := of_decide_eq_true hp
  exact ⟨hi', this⟩

theorem userAdd_cases (a : Accounts) (name : List Byte) (uid gid : UInt32) :
    ((userAdd kmalloc a name uid gid).2 = -1 ∧ (userAdd kmalloc a name uid gid).1 = a) ∨
      (userAdd kmalloc a name uid gid).2 = 0 ∧ userNameValid name ∧
        userFindName a.db name = none ∧ userFindUid a.db uid = none ∧
        (userAdd kmalloc a name uid gid).1.db.records =
          a.db.records ++ [newRecord name uid gid (homeOf name) (lit "/bin/tsh")] := by
  unfold userAdd
  split_ifs with h
  · exact .inl ⟨rfl, rfl⟩
  · simp only [not_or, not_not, Bool.not_eq_true, Option.isSome_eq_false_iff,
      Option.isNone_iff_eq_none] at h
    obtain ⟨hvalid, hname, huid, hlen⟩ := h
    refine .inr ⟨rfl, hvalid, hname, huid, ?_⟩
    simp only [db_rebuildShadow, db_rebuildGroup, db_rebuildPasswd]
    rw [records_addRecord, if_neg hlen]

theorem userSetPassword_cases (a : Accounts) (name password : List Byte) :
    (userSetPassword kmalloc a name password = (a, -1)) ∨
      ∃ i, nameIndex a.db name = some i ∧ (userSetPassword kmalloc a name password).1.db =
        a.db.setRecord i (withPassword name password) := by
  unfold userSetPassword
  cases nameIndex a.db name with
  | none => exact .inl rfl
  | some i => exact .inr ⟨i, rfl, rfl⟩

theorem withPassword_same (name password : List Byte) (u : UserRecord) :
    (withPassword name password u).name = u.name ∧ (withPassword name password u).uid = u.uid := by
  unfold withPassword
  simp only
  split_ifs <;> exact ⟨rfl, rfl⟩

end Tnu.User
