/-
**The user table.**

`kernel/security/user.c` keeps at most 32 user records in a static array, with a fill count and the
index of the record that is logged in.  This module embeds the records, the password hash and the
functions that only look at the table or move its index.

Main definitions:

* `makeSalt`, `hashPassword` — the hash;
* `UserDb.addRecord`, `UserDb.delete` — adding and deleting.

Main results:

* `records_addRecord`, `records_delete` — what they do to the records in use;
* `exists_hashPassword_ne` — **no hash is the hash of every password**.
-/

import Tnu.Printf
import Tnu.Vfs.Ops

set_option autoImplicit false

namespace Tnu.User

/-! ### Records -/

abbrev userNameMax : ℕ := 31

abbrev userHomeMax : ℕ := 127

abbrev userShellMax : ℕ := 127

abbrev maxUsers : ℕ := 32

def userHashScheme : List Byte := lit "tnu1"

/-- `struct user_record`. -/
structure UserRecord where
  name : CharBuf userNameMax
  uid : UInt32
  gid : UInt32
  home : CharBuf userHomeMax
  shell : CharBuf userShellMax
  salt : UInt32
  passwordHash : UInt64
  passwordSet : Bool
  deriving DecidableEq

/-! ### The password hash -/

abbrev fnvBasis : UInt64 := 1469598103934665603

abbrev fnvPrime : UInt64 := 1099511628211

def fnv1aUpdate (hash : UInt64) (s : List Byte) : UInt64 :=
  s.foldl (fun h c => (h ^^^ c.toUInt64) * fnvPrime) hash

def makeSalt (name : List Byte) (uid : UInt32) : UInt32 :=
  let h := ((fnv1aUpdate fnvBasis name ^^^ uid.toUInt64) * fnvPrime) ^^^ 0x544e5531
  (h ^^^ (h >>> 32)).toUInt32

def hashPassword (salt : UInt32) (password : List Byte) : UInt64 :=
  fnv1aUpdate (fnv1aUpdate (fnv1aUpdate (fnv1aUpdate (fnv1aUpdate fnvBasis userHashScheme)
    (lit "$")) (ksnprintf 16 (unsignedToString 16 salt.toNat))) (lit "$")) password

theorem fnvPrime_mul_injective {a b : UInt64} (h : a * fnvPrime = b * fnvPrime) : a = b := by
  have hinv : fnvPrime * 14886173955864302971 = 1 := by decide
  have := congrArg (· * 14886173955864302971) h
  simpa only [UInt64.mul_assoc, hinv, UInt64.mul_one] using this

/-- **No hash is the hash of every password.** -/
theorem exists_hashPassword_ne (salt : UInt32) (hash : UInt64) :
    ∃ password : CString, hashPassword salt password.chars ≠ hash := by
  by_contra hall
  have heq : ∀ password : CString, hashPassword salt password.chars = hash := fun p => by
    by_contra hne
    exact hall ⟨p, hne⟩
  have hab := (heq ⟨lit "a", by decide⟩).trans (heq ⟨lit "b", by decide⟩).symm
  simp only [hashPassword] at hab
  set h := fnv1aUpdate (fnv1aUpdate (fnv1aUpdate (fnv1aUpdate fnvBasis userHashScheme)
    (lit "$")) (ksnprintf 16 (unsignedToString 16 salt.toNat))) (lit "$")
  have hxor : h ^^^ (97 : Byte).toUInt64 = h ^^^ (98 : Byte).toUInt64 :=
    fnvPrime_mul_injective hab
  have hchars := congrArg (h ^^^ ·) hxor
  simp only [← UInt64.xor_assoc, UInt64.xor_self, UInt64.zero_xor] at hchars
  exact absurd hchars (by decide)

/-- The record `add_record` fills in. -/
def newRecord (name : List Byte) (uid gid : UInt32) (home shell : List Byte) : UserRecord where
  name := CharBuf.strncpy userNameMax name
  uid := uid
  gid := gid
  home := CharBuf.strncpy userHomeMax home
  shell := CharBuf.strncpy userShellMax shell
  salt := makeSalt name uid
  passwordHash := 0
  passwordSet := false

def UserRecord.Same (u v : UserRecord) : Prop := u.name = v.name ∧ u.uid = v.uid ∧ u.gid = v.gid

instance (u v : UserRecord) : Decidable (u.Same v) :=
  inferInstanceAs (Decidable (u.name = v.name ∧ u.uid = v.uid ∧ u.gid = v.gid))

theorem UserRecord.Same.refl (u : UserRecord) : u.Same u := ⟨rfl, rfl, rfl⟩

/-! ### The table -/

/-- The static state of `user.c`.  A slot behind the fill count keeps what was last stored in
it. -/
structure UserDb where
  slots : ℕ → UserRecord
  usersLen : ℕ
  currentUser : ℕ

namespace UserDb

def records (db : UserDb) : List UserRecord := (List.range db.usersLen).map db.slots

def addRecord (db : UserDb) (u : UserRecord) : UserDb :=
  if maxUsers ≤ db.usersLen then db
  else { db with slots := Function.update db.slots db.usersLen u, usersLen := db.usersLen + 1 }

/-- The part of `user_del` that changes the table. -/
def delete (db : UserDb) (i : ℕ) : UserDb :=
  let usersLen := db.usersLen - 1
  { slots := fun j => if i ≤ j ∧ j < usersLen then db.slots (j + 1) else db.slots j
    usersLen := usersLen
    currentUser :=
      if db.currentUser = i ∨ usersLen ≤ db.currentUser then 0
      else if i < db.currentUser then db.currentUser - 1
      else db.currentUser }

def setRecord (db : UserDb) (i : ℕ) (f : UserRecord → UserRecord) : UserDb :=
  { db with slots := Function.update db.slots i (f (db.slots i)) }

end UserDb

/-- The index a loop over the table stops at: the first record of that name. -/
def nameIndex (db : UserDb) (name : List Byte) : Option ℕ :=
  db.records.findIdx? fun u => u.name.chars = name

def userCurrent (db : UserDb) : UserRecord := db.slots db.currentUser

def userFindName (db : UserDb) (name : List Byte) : Option UserRecord :=
  db.records.find? fun u => u.name.chars = name

def userFindUid (db : UserDb) (uid : UInt32) : Option UserRecord :=
  db.records.find? fun u => u.uid = uid

def userNameValid (name : List Byte) : Prop :=
  name ≠ [] ∧ ∀ c ∈ name, (97 ≤ c ∧ c ≤ 122) ∨ (65 ≤ c ∧ c ≤ 90) ∨ (48 ≤ c ∧ c ≤ 57) ∨
    c = 95 ∨ c = 45

instance (name : List Byte) : Decidable (userNameValid name) :=
  inferInstanceAs (Decidable (name ≠ [] ∧ ∀ c ∈ name, _))

def userLogin (db : UserDb) (name : List Byte) : UserDb × ℤ :=
  match nameIndex db name with
  | none => (db, -1)
  | some i => ({ db with currentUser := i }, 0)

def userCheckPassword (db : UserDb) (name password : List Byte) : Bool :=
  match userFindName db name with
  | none => false
  | some u => if u.passwordSet = false then true else hashPassword u.salt password == u.passwordHash

/-! ### Lists of records -/

theorem map_modify {β : Type*} {users : List UserRecord} (i : ℕ) {f : UserRecord → UserRecord}
    (g : UserRecord → β) (hg : ∀ u, g (f u) = g u) : (users.modify i f).map g = users.map g := by
  refine List.ext_getElem? fun j => ?_
  rw [List.getElem?_map, List.getElem?_map, List.getElem?_modify]
  cases users[j]? with
  | none => rfl
  | some u =>
    by_cases hij : i = j
    · simp [hij, hg]
    · simp [hij]

theorem find?_modify {f : UserRecord → UserRecord} (hf : ∀ u, (f u).name = u.name)
    (name other : List Byte) : ∀ (users : List UserRecord) {i : ℕ},
    users.findIdx? (fun u => u.name.chars = name) = some i →
      (users.modify i f).find? (fun u => u.name.chars = other) =
        if other = name then (users.find? fun u => u.name.chars = other).map f
        else users.find? fun u => u.name.chars = other := by
  intro users
  induction users with
  | nil => intro i h; simp at h
  | cons u users ih =>
    intro i h
    rw [List.findIdx?_cons] at h
    by_cases hu : u.name.chars = name
    · rw [if_pos (by simpa using hu)] at h
      obtain rfl := Option.some.inj h
      rw [List.modify_zero_cons, List.find?_cons, List.find?_cons, hf]
      by_cases hother : other = name
      · subst hother
        simp [hu]
      · have hne : ¬ u.name.chars = other := fun e => hother (e.symm.trans hu)
        simp [hne, hother]
    · rw [if_neg (by simpa using hu)] at h
      obtain ⟨j, hj, rfl⟩ := Option.map_eq_some_iff.1 h
      rw [List.modify_succ_cons, List.find?_cons, List.find?_cons, ih hj]
      by_cases hother : other = name
      · subst hother
        simp [hu]
      · simp only [hother, if_false]

/-! ### The records in use -/

variable {db : UserDb}

@[simp] theorem length_records (db : UserDb) : db.records.length = db.usersLen := by
  simp [UserDb.records]

theorem records_of_empty (h : db.usersLen = 0) : db.records = [] := by
  simp [UserDb.records, h]

variable {name : List Byte} {i : ℕ}

theorem getElem?_records (h : i < db.usersLen) : db.records[i]? = some (db.slots i) := by
  simp [UserDb.records, h]

theorem mem_records {u : UserRecord} :
    u ∈ db.records ↔ ∃ i, i < db.usersLen ∧ db.slots i = u := by
  simp [UserDb.records]

theorem records_addRecord (u : UserRecord) :
    (db.addRecord u).records = if maxUsers ≤ db.usersLen then db.records else db.records ++ [u] := by
  unfold UserDb.addRecord
  split_ifs with h
  · rfl
  · simp only [UserDb.records, List.range_succ, List.map_append, List.map_singleton,
      Function.update_self]
    congr 1
    refine List.map_congr_left fun i hi => ?_
    rw [Function.update_of_ne (List.mem_range.1 hi).ne]

theorem records_delete (hi : i < db.usersLen) :
    (db.delete i).records = db.records.eraseIdx i := by
  refine List.ext_getElem? fun j => ?_
  rw [List.getElem?_eraseIdx]
  by_cases hj : j < db.usersLen - 1
  · have hlen : j < (db.delete i).usersLen := hj
    rw [getElem?_records hlen]
    by_cases hji : j < i
    · rw [if_pos hji, getElem?_records (by omega)]
      simp only [UserDb.delete]
      rw [if_neg (by omega)]
    · rw [if_neg hji, getElem?_records (by omega)]
      simp only [UserDb.delete]
      rw [if_pos ⟨by omega, hj⟩]
  · have hnone : ¬ j < (db.delete i).usersLen := hj
    rw [List.getElem?_eq_none (by simpa using hnone)]
    split_ifs
    · omega
    · rw [List.getElem?_eq_none (by rw [length_records]; omega)]

theorem records_setRecord (i : ℕ) (f : UserRecord → UserRecord) :
    (db.setRecord i f).records = db.records.modify i f := by
  refine List.ext_getElem? fun j => ?_
  rw [List.getElem?_modify]
  by_cases hj : j < db.usersLen
  · have hj' : j < (db.setRecord i f).usersLen := hj
    rw [getElem?_records hj', getElem?_records hj, Option.map_eq_map, Option.map_some]
    by_cases hij : i = j
    · subst hij
      simp [UserDb.setRecord]
    · simp [UserDb.setRecord, hij, Function.update_of_ne (Ne.symm hij)]
  · rw [List.getElem?_eq_none (by simpa [UserDb.setRecord] using hj),
      List.getElem?_eq_none (by simpa using hj), Option.map_eq_map, Option.map_none]

theorem userCheckPassword_of_find {u : UserRecord}
    (h : userFindName db name = some u) (password : List Byte) :
    userCheckPassword db name password =
      if u.passwordSet = false then true else hashPassword u.salt password == u.passwordHash := by
  rw [userCheckPassword, h]

theorem nameIndex_eq_some (h : nameIndex db name = some i) :
    i < db.usersLen ∧ userFindName db name = some (db.slots i) ∧ (db.slots i).name.chars = name := by
  obtain ⟨hi, hp, -⟩ := List.findIdx?_eq_some_iff_getElem.1 h
  rw [length_records] at hi
  have hget : db.records[i] = db.slots i := by
    have := getElem?_records hi
    rw [List.getElem?_eq_getElem (by simpa using hi)] at this
    exact Option.some.inj this
  refine ⟨hi, ?_, ?_⟩
  · rw [nameIndex] at h
    rw [userFindName, List.find?_eq_bind_findIdx?_getElem?, h, Option.bind_some,
      getElem?_records hi]
  · rw [hget] at hp
    simpa using hp

theorem nameIndex_eq_none :
    nameIndex db name = none ↔ userFindName db name = none := by
  rw [nameIndex, userFindName, List.findIdx?_eq_none_iff, List.find?_eq_none]
  simp

end Tnu.User
