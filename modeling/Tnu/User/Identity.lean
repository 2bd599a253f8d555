/-
**Who is who.**

Two properties of the user table itself: deleting an account leaves the session of another one
alone, and no two records share a name or a uid.  Both hold up to a corner each: a session on the
last record falls back to the first one when a record before it goes, and a name longer than a
record holds is looked up whole but stored cut off.

Main definitions:

* `UserOp`, `run` — runs of the three functions that change the table.

Main results:

* `userDel_keepsSession_iff` — **when a deletion keeps the session**;
* `distinct_of_run` — **what runs with names that fit keep**.
-/

import Tnu.User.Accounts

set_option autoImplicit false

namespace Tnu.User

open Vfs

/-! ### Deleting an account -/

/-- When `user_del` deletes a record other than the current one, the current user stays the same;
and in every case the current user is in the table. -/
def KeepsSession (kmalloc : ℕ → Bool) (a : Accounts) (name : List Byte) : Prop :=
  let r := userDel kmalloc a name
  (r.2 = 0 → delIndex a.db name ≠ some a.db.currentUser →
    (userCurrent r.1.db).Same (userCurrent a.db)) ∧
  userCurrent r.1.db ∈ r.1.db.records

/-- A record is left, and the session is not on the last record behind the deleted one, unless the
first record left is the same user. -/
def DeletesSafely (db : UserDb) (name : List Byte) : Prop :=
  ∀ i, delIndex db name = some i → 2 ≤ db.usersLen ∧
    (i < db.currentUser → db.currentUser + 1 = db.usersLen →
      (db.slots (if i = 0 then 1 else 0)).Same (userCurrent db))

instance (db : UserDb) (name : List Byte) : Decidable (DeletesSafely db name) :=
  match h : delIndex db name with
  | none => .isTrue fun i hi => by rw [h] at hi; cases hi
  | some i =>
    decidable_of_iff (2 ≤ db.usersLen ∧ (i < db.currentUser →
      db.currentUser + 1 = db.usersLen → (db.slots (if i = 0 then 1 else 0)).Same
        (userCurrent db))) (by simp [DeletesSafely, h])

variable {db : UserDb}

theorem userCurrent_mem (h : db.currentUser < db.usersLen) :
    userCurrent db ∈ db.records := mem_records.2 ⟨_, h, rfl⟩

theorem userCurrent_delete {i : ℕ} (hi : i < db.usersLen)
    (hc : db.currentUser < db.usersLen) (hne : i ≠ db.currentUser) :
    userCurrent (db.delete i) =
      if i < db.currentUser ∧ db.currentUser + 1 = db.usersLen then
        db.slots (if i = 0 then 1 else 0)
      else userCurrent db := by
  simp only [userCurrent, UserDb.delete]
  by_cases hlast : db.usersLen - 1 ≤ db.currentUser
  · -- the session is on the last record: the index falls back to 0
    have hlt : i < db.currentUser ∧ db.currentUser + 1 = db.usersLen := by omega
    rw [if_pos (Or.inr hlast), if_pos hlt]
    by_cases h0 : i = 0
    · rw [if_pos h0, if_pos (by omega)]
    · rw [if_neg h0, if_neg (by omega)]
  · have hnot : ¬ (i < db.currentUser ∧ db.currentUser + 1 = db.usersLen) := by omega
    rw [if_neg (by omega : ¬ (db.currentUser = i ∨ db.usersLen - 1 ≤ db.currentUser)), if_neg hnot]
    by_cases hlt : i < db.currentUser
    · rw [if_pos hlt, if_pos (by omega), Nat.sub_add_cancel (by omega)]
    · rw [if_neg hlt, if_neg (by omega)]

theorem userCurrent_delete_mem_iff {i : ℕ} (hi : i < db.usersLen) :
    userCurrent (db.delete i) ∈ (db.delete i).records ↔ 2 ≤ db.usersLen := by
  constructor
  · intro h
    obtain ⟨j, hj, -⟩ := mem_records.1 h
    have hlen : (db.delete i).usersLen = db.usersLen - 1 := rfl
    omega
  · intro h
    refine userCurrent_mem ?_
    simp only [UserDb.delete]
    split_ifs <;> omega

/-- **A deletion keeps the session** exactly when it is safe. -/
theorem userDel_keepsSession_iff (kmalloc : ℕ → Bool) {a : Accounts} (name : List Byte)
    (hc : a.db.currentUser < a.db.usersLen) :
    KeepsSession kmalloc a name ↔ DeletesSafely a.db name := by
  unfold KeepsSession DeletesSafely
  rcases userDel_cases kmalloc a name with ⟨hnone, he⟩ | ⟨i, hsome, hdb, hrc⟩
  · simp only [hnone, he]
    constructor
    · rintro - i hi
      cases hi
    · intro _
      exact ⟨fun h => absurd h (by decide), userCurrent_mem hc⟩
  · have hi : i < a.db.usersLen := (delIndex_eq_some hsome).1
    simp only [hsome, hdb, hrc, userCurrent_delete_mem_iff hi, true_implies, ne_eq,
      Option.some.injEq]
    constructor
    · rintro ⟨hsame, hlen⟩ j rfl
      refine ⟨hlen, fun hlt hlast => ?_⟩
      have := hsame hlt.ne
      rwa [userCurrent_delete hi hc hlt.ne, if_pos ⟨hlt, hlast⟩] at this
    · intro h
      obtain ⟨hlen, hsame⟩ := h i rfl
      refine ⟨fun hne => ?_, hlen⟩
      rw [userCurrent_delete hi hc hne]
      by_cases hlast : i < a.db.currentUser ∧ a.db.currentUser + 1 = a.db.usersLen
      · rw [if_pos hlast]
        exact hsame hlast.1 hlast.2
      · rw [if_neg hlast]
        exact UserRecord.Same.refl _

/-- A table with root and two more accounts, the last of them logged in. -/
def threeAccounts : Accounts where
  db :=
    { slots := fun i =>
        if i = 0 then rootRecord
        else if i = 1 then newRecord (lit "alice") 1000 1000 (lit "/home/alice") (lit "/bin/tsh")
        else newRecord (lit "bob") 1001 1001 (lit "/home/bob") (lit "/bin/tsh")
      usersLen := 3
      currentUser := 2 }
  vfs := vfsInit

theorem userDel_keepsSession_iff_bob : KeepsSession (fun _ => true) threeAccounts (lit "bob") ↔
    DeletesSafely threeAccounts.db (lit "bob") :=
  userDel_keepsSession_iff (fun _ => true) (lit "bob") (by decide)

/-- When alice is deleted, bob's session becomes root's. -/
theorem not_keepsSession_alice : threeAccounts.db.currentUser < threeAccounts.db.usersLen ∧
    ¬ KeepsSession (fun _ => true) threeAccounts (lit "alice") := by
  refine ⟨by decide, ?_⟩
  rintro ⟨hsame, -⟩
  have hindex : delIndex threeAccounts.db (lit "alice") = some 1 := by decide
  rcases userDel_cases (fun _ => true) threeAccounts (lit "alice") with
    ⟨hnone, -⟩ | ⟨i, hsome, hdb, hrc⟩
  · rw [hindex] at hnone
    cases hnone
  · rw [hindex] at hsome hsame
    obtain rfl := Option.some.inj hsome
    have := hsame hrc (by decide)
    rw [hdb] at this
    exact absurd this (by decide)

/-! ### Names and uids -/

/-- The calls that change the table. -/
inductive UserOp
  | add (kmalloc : ℕ → Bool) (name : CString) (uid gid : UInt32)
  | del (kmalloc : ℕ → Bool) (name : CString)
  | setPassword (kmalloc : ℕ → Bool) (name password : CString)

def apply (a : Accounts) : UserOp → Accounts
  | .add k name uid gid => (userAdd k a name.chars uid gid).1
  | .del k name => (userDel k a name.chars).1
  | .setPassword k name password => (userSetPassword k a name.chars password.chars).1

def run (a : Accounts) (ops : List UserOp) : Accounts := ops.foldl apply a

/-- A call that adds an account adds one whose name fits a record. -/
def UserOp.Short : UserOp → Prop
  | .add _ name _ _ => name.chars.length ≤ userNameMax
  | _ => True

/-- Names are distinct, uids are distinct, and one of them is 0. -/
structure Distinct (users : List UserRecord) : Prop where
  names : (users.map UserRecord.name).Nodup
  uids : (users.map UserRecord.uid).Nodup
  root : 0 ∈ users.map UserRecord.uid

namespace Distinct

variable {users : List UserRecord}

theorem existsUnique_root (h : Distinct users) : ∃! u, u ∈ users ∧ u.uid = 0 := by
  obtain ⟨u, hu, h0⟩ := List.mem_map.1 h.root
  refine ⟨u, ⟨hu, h0⟩, ?_⟩
  rintro v ⟨hv, hv0⟩
  exact List.inj_on_of_nodup_map h.uids hv hu (hv0.trans h0.symm)

theorem append (h : Distinct users) {u : UserRecord} (hname : u.name ∉ users.map UserRecord.name)
    (huid : u.uid ∉ users.map UserRecord.uid) : Distinct (users ++ [u]) where
  names := by
    rw [List.map_append, List.map_singleton, List.nodup_append_comm]
    exact List.nodup_cons.2 ⟨hname, h.names⟩
  uids := by
    rw [List.map_append, List.map_singleton, List.nodup_append_comm]
    exact List.nodup_cons.2 ⟨huid, h.uids⟩
  root := by
    rw [List.map_append]
    exact List.mem_append_left _ h.root

theorem eraseIdx (h : Distinct users) {i : ℕ} {u : UserRecord} (hi : users[i]? = some u)
    (hu : u.uid ≠ 0) : Distinct (users.eraseIdx i) where
  names := h.names.sublist ((List.eraseIdx_sublist users i).map _)
  uids := h.uids.sublist ((List.eraseIdx_sublist users i).map _)
  root := by
    obtain ⟨v, hv, h0⟩ := List.mem_map.1 h.root
    obtain ⟨j, hj⟩ := List.mem_iff_getElem?.1 hv
    refine List.mem_map.2 ⟨v, List.mem_eraseIdx_iff_getElem?.2 ⟨j, ?_, hj⟩, h0⟩
    rintro rfl
    rw [hi] at hj
    obtain rfl := Option.some.inj hj
    exact hu h0

theorem modify (h : Distinct users) (i : ℕ) {f : UserRecord → UserRecord}
    (hf : ∀ u, (f u).name = u.name ∧ (f u).uid = u.uid) : Distinct (users.modify i f) := by
  have hnames := @map_modify _ users i f UserRecord.name fun u => (hf u).1
  have huids := @map_modify _ users i f UserRecord.uid fun u => (hf u).2
  exact ⟨hnames ▸ h.names, huids ▸ h.uids, huids ▸ h.root⟩

end Distinct

variable {a : Accounts}

theorem name_notMem {name : CString} (hlen : name.chars.length ≤ userNameMax)
    (h : userFindName db name.chars = none) :
    CharBuf.strncpy userNameMax name.chars ∉ db.records.map UserRecord.name := by
  intro hmem
  obtain ⟨u, hu, he⟩ := List.mem_map.1 hmem
  have hne := List.find?_eq_none.1 h u hu
  rw [decide_eq_true_eq] at hne
  refine hne ?_
  rw [he, CharBuf.strncpy_chars_of_le name.nul_free hlen]

/-- **One call keeps names and uids distinct**, when a new name fits. -/
theorem distinct_apply (h : Distinct a.db.records) {op : UserOp} (hop : op.Short) :
    Distinct (apply a op).db.records := by
  cases op with
  | add k name uid gid =>
    rcases userAdd_cases k a name.chars uid gid with ⟨-, he⟩ | ⟨-, -, hname, huid, he⟩
    · rw [apply, he]
      exact h
    · rw [apply, he]
      refine h.append (name_notMem hop hname) fun hmem => ?_
      obtain ⟨u, hu, hu'⟩ := List.mem_map.1 hmem
      exact List.find?_eq_none.1 huid u hu (decide_eq_true hu')
  | del k name =>
    rcases userDel_cases k a name.chars with ⟨-, he⟩ | ⟨i, hi, hdb, -⟩
    · rw [apply, he]
      exact h
    · obtain ⟨hlt, -, huid⟩ := delIndex_eq_some hi
      rw [apply, hdb, records_delete hlt]
      exact h.eraseIdx (getElem?_records hlt) huid
  | setPassword k name password =>
    rcases userSetPassword_cases k a name.chars password.chars with he | ⟨i, -, hdb⟩
    · rw [apply, he]
      exact h
    · rw [apply, hdb, records_setRecord]
      exact h.modify i fun u => withPassword_same _ _ u

/-- **Runs keep names and uids distinct**, when new names fit. -/
theorem distinct_run (h : Distinct a.db.records) : ∀ {ops : List UserOp},
    (∀ op ∈ ops, op.Short) → Distinct (run a ops).db.records := by
  intro ops
  induction ops generalizing a with
  | nil => intro _; exact h
  | cons op ops ih =>
    intro hops
    exact ih (distinct_apply h (hops op (by simp))) fun d hd => hops d (by simp [hd])

/-- **What runs keep whose new names fit**: names and uids are distinct, exactly one record has
uid 0, and an account that was added is found. -/
theorem distinct_of_run (h : Distinct a.db.records) (ops : List UserOp)
    (hops : ∀ op ∈ ops, op.Short) :
    Distinct (run a ops).db.records ∧ (∃! u, u ∈ (run a ops).db.records ∧ u.uid = 0) ∧
      ∀ pre k name uid gid post, ops = pre ++ UserOp.add k name uid gid :: post →
        (userAdd k (run a pre) name.chars uid gid).2 = 0 →
        userFindName (userAdd k (run a pre) name.chars uid gid).1.db name.chars =
          some (newRecord name.chars uid gid (homeOf name.chars) (lit "/bin/tsh")) := by
  have hrun := distinct_run h hops
  refine ⟨hrun, hrun.existsUnique_root, ?_⟩
  rintro pre k name uid gid post rfl hrc
  have hshort : name.chars.length ≤ userNameMax := hops (.add k name uid gid) (by simp)
  rcases userAdd_cases k (run a pre) name.chars uid gid with ⟨hfail, -⟩ | ⟨-, -, hname, -, he⟩
  · rw [hfail] at hrc
    exact absurd hrc (by decide)
  · rw [userFindName] at hname
    rw [userFindName, he, List.find?_append, hname, Option.none_or, List.find?_singleton,
      if_pos]
    exact decide_eq_true (CharBuf.strncpy_chars_of_le name.nul_free hshort)

def rootOnly : Accounts := ⟨⟨fun _ => rootRecord, 1, 0⟩, vfsInit⟩

theorem distinct_rootOnly : Distinct rootOnly.db.records where
  names := by decide
  uids := by decide
  root := by decide

def aliceRun : List UserOp := [.add (fun _ => true) ⟨lit "alice", by decide⟩ 1000 1000]

theorem distinct_of_run_alice :
    Distinct (run rootOnly aliceRun).db.records ∧
      (∃! u, u ∈ (run rootOnly aliceRun).db.records ∧ u.uid = 0) ∧
      ∀ pre k name uid gid post, aliceRun = pre ++ UserOp.add k name uid gid :: post →
        (userAdd k (run rootOnly pre) name.chars uid gid).2 = 0 →
        userFindName (userAdd k (run rootOnly pre) name.chars uid gid).1.db name.chars =
          some (newRecord name.chars uid gid (homeOf name.chars) (lit "/bin/tsh")) :=
  distinct_of_run distinct_rootOnly aliceRun fun op hop => by
    rw [List.mem_singleton.1 hop]
    exact (by decide : (lit "alice").length ≤ userNameMax)

def longName : CString := ⟨List.replicate 40 97, by decide⟩

/-- A name that is too long is stored cut off: it is not found, and can be added again. -/
theorem not_distinct_long_name :
    (userAdd (fun _ => true) rootOnly longName.chars 1000 1000).2 = 0 ∧
      userFindName (userAdd (fun _ => true) rootOnly longName.chars 1000 1000).1.db
        longName.chars = none ∧
      ¬ Distinct (run rootOnly [.add (fun _ => true) longName 1000 1000,
        .add (fun _ => true) longName 1001 1001]).db.records := by
  refine ⟨by decide +kernel, by decide +kernel, fun h => ?_⟩
  exact absurd h.names (by decide +kernel)

end Tnu.User
