/-
**Reading lines from a file.**

`getline` and `fgets` of `libc/src/stdio.c` read a file byte by byte.  `getline` doubles its buffer
when it is full; when the file ends in the middle of a line, it returns what it has, but writes no
NUL behind it.  `fgets` writes it on every way out.

Main definitions:

* `getline`, `fgets` — the functions.

Main results:

* `getline_spec`, `fgets_spec` — one call;
* `line_input_iff` — **a run of calls loses nothing**, exactly when every call of
  `getline` meets the condition.
-/

import Tnu.CString

set_option autoImplicit false

namespace Tnu.Libc

/-! ### The functions -/

/-- What `malloc` and `realloc` give for a size in one call: the bytes that are found there, or `NULL`. -/
abbrev Grants := ℕ → Option (ℕ → Byte)

/-- The buffer with `size` bytes; nothing for `malloc`. -/
def enlarge (env : Grants) (buf : List Byte) (size : ℕ) : Option (List Byte) :=
  (env size).map fun found => buf ++ (List.range' buf.length (size - buf.length)).map found

/-- `if (len + 1 >= *n) { … }`. -/
def grow (env : Grants) (buf : List Byte) (len : ℕ) : Option (List Byte) :=
  if buf.length ≤ len + 1 then enlarge env buf (buf.length * 2) else some buf

/-- The loop of `getline`: `-1` or the length, the buffer, and the rest of the file. -/
def getlineLoop (env : Grants) : List Byte → ℕ → List Byte → Option ℕ × List Byte × List Byte
  | buf, len, [] => (if len = 0 then none else some len, buf, [])
  | buf, len, ch :: file =>
    match grow env buf len with
    | none => (none, buf, file)
    | some buf =>
      if ch = 10 then (some (len + 1), (buf.set len ch).set (len + 1) 0, file)
      else getlineLoop env (buf.set len ch) (len + 1) file

/-- `if (!*lineptr || *n == 0) { … }`; `*n` is the length of the buffer, and is not read beside `NULL`. -/
def lineBuf (env : Grants) : Option (List Byte) → Option (List Byte)
  | none => enlarge env [] 128
  | some [] => enlarge env [] 128
  | some (c :: buf) => some (c :: buf)

def getline (env : Grants) (lineptr : Option (List Byte)) (file : List Byte) :
    Option ℕ × Option (List Byte) × List Byte :=
  match lineBuf env lineptr with
  | none => (none, none, file)
  | some buf =>
    let r := getlineLoop env buf 0 file
    (r.1, some r.2.1, r.2.2)

/-- The loop of `fgets`, and the NUL behind it. -/
def fgetsLoop (size : ℕ) : ℕ → List Byte → List Byte → Option (List Byte) × List Byte
  | i, s, [] => (if i < size - 1 ∧ i = 0 then none else some (s.set i 0), [])
  | i, s, ch :: file =>
    if i < size - 1 then
      if ch = 10 then (some ((s.set i ch).set (i + 1) 0), file)
      else fgetsLoop size (i + 1) (s.set i ch) file
    else (some (s.set i 0), ch :: file)

def fgets (s : List Byte) (size : ℕ) (file : List Byte) : Option (List Byte) × List Byte :=
  if size = 0 then (none, file) else fgetsLoop size 0 s file

/-! ### Runs of calls -/

/-- What a call gives: a length, and the buffer it reports. -/
structure Answer where
  ret : ℕ
  buf : List Byte

def Answer.piece (a : Answer) : List Byte := a.buf.take a.ret

/-- Calls, up to so many, until one says that the file is at its end. -/
def untilEnd {σ : Type} (call : σ → List Byte → Option (Answer × σ × List Byte)) :
    ℕ → σ → List Byte → Option (List Answer)
  | 0, _, _ => none
  | fuel + 1, s, file =>
    match call s file with
    | none => some []
    | some (a, s, file) => (untilEnd call fuel s file).map (a :: ·)

/-- The calls of `getline`, the `k`-th with memory of its own; the buffer goes from one to the next. -/
def getlineCall (envs : ℕ → Grants) (s : ℕ × Option (List Byte)) (file : List Byte) :
    Option (Answer × (ℕ × Option (List Byte)) × List Byte) :=
  let r := getline (envs s.1) s.2 file
  r.1.map fun ret => (⟨ret, r.2.1.getD []⟩, (s.1 + 1, r.2.1), r.2.2)

/-- The calls of `fgets` with one buffer; the length of a piece is that of the string. -/
def fgetsCall (size : ℕ) (s file : List Byte) : Option (Answer × List Byte × List Byte) :=
  let r := fgets s size file
  r.1.map fun s => (⟨(cstr s).length, s.take size⟩, s, r.2)

/-- **The pieces make the content**, end as they should but for the last, and have a NUL behind them. -/
structure PiecesLaw (Ends : List Byte → Prop) (content : List Byte) (answers : List Answer) : Prop where
  flatten : (answers.map Answer.piece).flatten = content
  ends : ∀ a ∈ answers.dropLast, Ends a.piece
  terminated : ∀ a ∈ answers, a.buf[a.ret]? = some 0

/-- The run comes to its end, and its pieces make the content. -/
def RunLaw {σ : Type} (call : σ → List Byte → Option (Answer × σ × List Byte)) (Ends : List Byte → Prop)
    (fuel : ℕ) (s : σ) (content : List Byte) : Prop :=
  ∃ answers, untilEnd call fuel s content = some answers ∧ PiecesLaw Ends content answers

def EndsLine (piece : List Byte) : Prop := piece.getLast? = some 10

/-- The first line, with its newline. -/
def line : List Byte → List Byte
  | [] => []
  | c :: file => c :: if c = 10 then [] else line file

/-- The buffer with the room that `k` more bytes need, none of them written. -/
def room (env : Grants) : List Byte → ℕ → ℕ → Option (List Byte)
  | buf, _, 0 => some buf
  | buf, len, k + 1 => (grow env buf len).bind fun buf => room env buf (len + 1) k

/-- **The room for the line is granted**, and where the line has no newline the byte behind it is NUL. -/
def Meets (env : Grants) (lineptr : Option (List Byte)) (file : List Byte) : Prop :=
  file = [] ∨ ∃ b, ((lineBuf env lineptr).bind fun buf => room env buf 0 (line file).length) = some b ∧
    (10 ∈ file ∨ b[file.length]? = some 0)

/-- Every call of a run meets the condition. -/
def RunMeets (envs : ℕ → Grants) : ℕ → ℕ × Option (List Byte) → List Byte → Prop
  | 0, _, _ => True
  | fuel + 1, s, file => Meets (envs s.1) s.2 file ∧
      ∀ a s' file', getlineCall envs s file = some (a, s', file') → RunMeets envs fuel s' file'

/-! ### One line -/

variable {env : Grants} {file pre b b' : List Byte} {ch : Byte} {size : ℕ}

theorem line_prefix (file : List Byte) : line file ++ file.drop (line file).length = file := by
  induction file with
  | nil => rfl
  | cons c file ih =>
    rw [line]
    split_ifs
    · rfl
    · rw [List.length_cons, List.drop_succ_cons, List.cons_append, ih]

theorem line_eq_self (h : 10 ∉ file) : line file = file := by
  induction file with
  | nil => rfl
  | cons c file ih =>
    rw [line, if_neg (fun hc => h (List.mem_cons.2 (Or.inl hc.symm))), ih fun hm => h (List.mem_cons_of_mem _ hm)]

theorem endsLine_line (h : 10 ∈ file) : EndsLine (line file) := by
  induction file with
  | nil => cases h
  | cons c file ih =>
    rw [line]
    split_ifs with hc
    · exact congrArg some hc
    · have hrest := ih ((List.mem_cons.1 h).resolve_left (Ne.symm hc))
      rw [EndsLine, List.getLast?_cons, hrest]
      rfl

theorem line_ne_nil (h : file ≠ []) : line file ≠ [] := by
  cases file with
  | nil => exact absurd rfl h
  | cons c file => exact List.cons_ne_nil _ _

/-- A byte is written behind those that are there. -/
theorem set_filled (h : pre.length < b.length) :
    (pre ++ b.drop pre.length).set pre.length ch = pre ++ [ch] ++ b.drop (pre ++ [ch]).length := by
  rw [List.set_append_right _ _ le_rfl, Nat.sub_self, List.drop_eq_getElem_cons h, List.set_cons_zero,
    List.append_assoc, List.singleton_append, List.length_append, List.length_singleton]

theorem length_of_grow (h : grow env b pre.length = some b') (hlt : pre.length < b.length) :
    pre.length + 1 < b'.length := by
  rw [grow] at h
  split_ifs at h with hfull
  · obtain ⟨found, -, rfl⟩ := Option.map_eq_some_iff.1 h
    rw [List.length_append, List.length_map, List.length_range']
    omega
  · obtain rfl := Option.some.inj h
    omega

theorem grow_filled (hlt : pre.length < b.length) : grow env (pre ++ b.drop pre.length) pre.length =
    (grow env b pre.length).map fun b => pre ++ b.drop pre.length := by
  have hlen : (pre ++ b.drop pre.length).length = b.length := by
    rw [List.length_append, List.length_drop]
    omega
  rw [grow, grow, hlen]
  split_ifs
  · rw [enlarge, enlarge, Option.map_map, hlen]
    congr 1
    funext found
    rw [Function.comp, List.drop_append_of_le_length hlt.le, List.append_assoc]
  · rfl

/-- What is behind a line in the buffer. -/
def behind (file b : List Byte) (k : ℕ) : List Byte := if 10 ∈ file then 0 :: b.drop (k + 1) else b.drop k

theorem getlineLoop_none (hlt : pre.length < b.length)
    (h : room env b pre.length (line file).length = none) :
    (getlineLoop env (pre ++ b.drop pre.length) pre.length file).1 = none := by
  induction file generalizing pre b with
  | nil => cases h
  | cons c file ih =>
    rw [getlineLoop, grow_filled hlt]
    rw [line, List.length_cons, room] at h
    cases hgrow : grow env b pre.length with
    | none => rfl
    | some b₁ =>
      have hlen := length_of_grow hgrow hlt
      rw [hgrow, Option.bind_some] at h
      simp only [Option.map_some]
      split_ifs at h ⊢
      · cases h
      · rw [set_filled (by omega)]
        have hpre : (pre ++ [c]).length = pre.length + 1 := List.length_append
        rw [← hpre] at h ⊢
        exact ih (by omega) h

theorem getlineLoop_some (hlt : pre.length < b.length)
    (h : room env b pre.length (line file).length = some b') :
    getlineLoop env (pre ++ b.drop pre.length) pre.length file =
      (if pre.length + (line file).length = 0 then none else some (pre.length + (line file).length),
        pre ++ line file ++ behind file b' (pre.length + (line file).length),
        file.drop (line file).length) := by
  induction file generalizing pre b with
  | nil =>
    obtain rfl := Option.some.inj h
    rw [getlineLoop, behind, if_neg List.not_mem_nil, line, List.append_nil]
    rfl
  | cons c file ih =>
    rw [getlineLoop, grow_filled hlt]
    rw [line, List.length_cons, room] at h
    cases hgrow : grow env b pre.length with
    | none => rw [hgrow] at h; cases h
    | some b₁ =>
      have hlen := length_of_grow hgrow hlt
      have hpre : (pre ++ [c]).length = pre.length + 1 := List.length_append
      rw [hgrow, Option.bind_some] at h
      simp only [Option.map_some]
      rw [set_filled (by omega)]
      by_cases hc : c = 10
      · rw [if_pos hc, List.length_nil, room] at h
        obtain rfl := Option.some.inj h
        subst hc
        have hpre₂ : (pre ++ [10] ++ [0]).length = pre.length + 2 := by simp
        rw [if_pos rfl, line, if_pos rfl, behind, if_pos List.mem_cons_self, ← hpre, set_filled (by omega),
          List.append_assoc, if_neg (by rw [List.length_singleton]; omega), hpre₂, hpre]
        rfl
      · have hmem : 10 ∈ c :: file ↔ 10 ∈ file := by
          rw [List.mem_cons, or_iff_right (Ne.symm hc)]
        rw [if_neg hc] at h
        rw [if_neg hc, ← hpre, ih (by omega) (hpre ▸ h), line, if_neg hc, behind, behind, if_congr hmem rfl rfl, hpre,
          List.length_cons]
        simp only [Nat.add_assoc, Nat.add_comm 1, List.drop_succ_cons, List.append_assoc, List.cons_append,
          List.nil_append]


theorem length_enlarge {buf : List Byte} (h : enlarge env [] 128 = some buf) : 0 < buf.length := by
  obtain ⟨found, -, rfl⟩ := Option.map_eq_some_iff.1 h
  rw [List.length_append, List.length_map, List.length_range']
  decide

/-- **One call of `getline`**, when the file is not at its end. -/
theorem getline_spec (env : Grants) (lineptr : Option (List Byte)) (hfile : file ≠ []) :
    ((lineBuf env lineptr).bind fun buf => room env buf 0 (line file).length) = none ∧
        (getline env lineptr file).1 = none ∨
      ∃ b, ((lineBuf env lineptr).bind fun buf => room env buf 0 (line file).length) = some b ∧
        getline env lineptr file = (some (line file).length,
          some (line file ++ behind file b (line file).length), file.drop (line file).length) := by
  cases hbuf : lineBuf env lineptr with
  | none =>
    refine Or.inl ⟨rfl, ?_⟩
    rw [getline, hbuf]
  | some buf =>
    have hpos : ([] : List Byte).length < buf.length := by
      cases lineptr with
      | none => exact length_enlarge hbuf
      | some l =>
        cases l with
        | nil => exact length_enlarge hbuf
        | cons c l =>
          obtain rfl := Option.some.inj hbuf
          exact Nat.succ_pos _
    rw [getline, hbuf, Option.bind_some]
    cases hroom : room env buf 0 (line file).length with
    | none => exact Or.inl ⟨rfl, getlineLoop_none hpos hroom⟩
    | some b =>
      have hloop := getlineLoop_some hpos hroom
      have hlen : (line file).length ≠ 0 := fun h => line_ne_nil hfile (List.length_eq_zero_iff.1 h)
      rw [List.length_nil, Nat.zero_add, if_neg hlen] at hloop
      exact Or.inr ⟨b, rfl, congrArg (fun r => (r.1, some r.2.1, r.2.2)) hloop⟩

/-! ### `fgets` -/

/-- **One call of `fgets`**, when the file is not at its end. -/
theorem fgetsLoop_spec (pre : List Byte) (hb : size ≤ b.length) (hpre : pre.length < size) (hne : file ≠ [] ∨ pre ≠ []) :
    fgetsLoop size pre.length (pre ++ b.drop pre.length) file =
      (some (pre ++ (line file).take (size - 1 - pre.length) ++
        0 :: b.drop (pre.length + ((line file).take (size - 1 - pre.length)).length + 1)),
        file.drop ((line file).take (size - 1 - pre.length)).length) := by
  induction file generalizing pre with
  | nil =>
    obtain ⟨c, pre, rfl⟩ := List.exists_cons_of_ne_nil (hne.resolve_left fun h => h rfl)
    rw [fgetsLoop, if_neg fun h => Nat.succ_ne_zero _ h.2, set_filled (by omega), line, List.take_nil,
      List.append_nil, List.length_append, List.append_assoc]
    rfl
  | cons c file ih =>
    rw [fgetsLoop]
    split_ifs with hroom hc
    · rw [set_filled (by omega)]
      have hpre₁ : (pre ++ [c]).length = pre.length + 1 := List.length_append
      have hpre₂ : (pre ++ [c] ++ [0]).length = pre.length + 2 := by simp
      obtain ⟨k, hk⟩ : ∃ k, size - 1 - pre.length = k + 1 := ⟨size - 1 - pre.length - 1, by omega⟩
      rw [← hpre₁, set_filled (by omega), hpre₂, line, if_pos hc, hk, List.take_succ_cons, List.take_nil,
        List.append_assoc _ [0]]
      rfl
    · have hpre₁ : (pre ++ [c]).length = pre.length + 1 := List.length_append
      obtain ⟨k, hk⟩ : ∃ k, size - 1 - pre.length = k + 1 := ⟨size - 1 - pre.length - 1, by omega⟩
      have hk' : size - 1 - (pre.length + 1) = k := by omega
      rw [set_filled (by omega), ← hpre₁, ih (pre ++ [c]) (by omega) (Or.inr (by simp)), line, if_neg hc, hk, List.take_succ_cons,
        hpre₁, hk', List.length_cons]
      simp only [Nat.add_assoc, Nat.add_comm 1, List.drop_succ_cons, List.append_assoc, List.cons_append,
        List.nil_append]
    · have hk : size - 1 - pre.length = 0 := by omega
      rw [hk, List.take_zero, set_filled (by omega), List.append_nil, List.length_append, List.append_assoc]
      rfl


/-! ### A run of calls -/

section Runs

variable {σ : Type} {call : σ → List Byte → Option (Answer × σ × List Byte)} {Ends : List Byte → Prop} {fuel : ℕ}
  {s s' : σ} {a : Answer} {rest : List Byte}

theorem runLaw_of_end (h : call s file = none) : RunLaw call Ends (fuel + 1) s file ↔ file = [] := by
  rw [RunLaw, untilEnd, h]
  dsimp only
  constructor
  · rintro ⟨answers, hrun, hlaw⟩
    obtain rfl := Option.some.inj hrun
    exact hlaw.flatten.symm
  · rintro rfl
    exact ⟨[], rfl, rfl, fun a ha => absurd ha List.not_mem_nil, fun a ha => absurd ha List.not_mem_nil⟩

/-- **One more call in front of a run.** -/
theorem runLaw_cons (hcall : call s file = some (a, s', rest)) (hpiece : a.piece ++ rest = file)
    (hends : rest ≠ [] → Ends a.piece) (hnil : ∀ s, call s [] = none) :
    RunLaw call Ends (fuel + 1) s file ↔ a.buf[a.ret]? = some 0 ∧ RunLaw call Ends fuel s' rest := by
  rw [RunLaw, untilEnd, hcall]
  dsimp only
  constructor
  · rintro ⟨_, hrun, hflat, hall, hterm⟩
    obtain ⟨answers, hrest, rfl⟩ := Option.map_eq_some_iff.1 hrun
    rw [List.map_cons, List.flatten_cons, ← hpiece] at hflat
    refine ⟨hterm a List.mem_cons_self, answers, hrest, List.append_cancel_left hflat, fun b hb => ?_,
      fun b hb => hterm b (List.mem_cons_of_mem _ hb)⟩
    refine hall b ?_
    rw [List.dropLast_cons_of_ne_nil (List.ne_nil_of_mem (List.mem_of_mem_dropLast hb))]
    exact List.mem_cons_of_mem _ hb
  · rintro ⟨hterm, answers, hrun, hlaw⟩
    refine ⟨a :: answers, congrArg (Option.map (a :: ·)) hrun, ?_, fun b hb => ?_, List.forall_mem_cons.2 ⟨hterm, hlaw.terminated⟩⟩
    · rw [List.map_cons, List.flatten_cons, hlaw.flatten, hpiece]
    · rcases answers with - | ⟨c, answers⟩
      · cases hb
      · -- more pieces come only when the file went on
        have hrest : rest ≠ [] := by
          rintro rfl
          cases fuel with
          | zero => cases hrun
          | succ fuel =>
            rw [untilEnd, hnil] at hrun
            cases hrun
        rcases List.mem_cons.1 hb with rfl | hb
        · exact hends hrest
        · exact hlaw.ends b hb

end Runs

theorem getlineCall_nil (envs : ℕ → Grants) (s : ℕ × Option (List Byte)) : getlineCall envs s [] = none := by
  rw [getlineCall, getline]
  cases lineBuf (envs s.1) s.2 <;> rfl

/-- **A run of `getline`.** -/
theorem getline_run_iff (envs : ℕ → Grants) {fuel : ℕ} (s : ℕ × Option (List Byte)) (hfuel : file.length < fuel) :
    RunLaw (getlineCall envs) EndsLine fuel s file ↔ RunMeets envs fuel s file := by
  induction fuel generalizing s file with
  | zero => omega
  | succ fuel ih =>
    rw [RunMeets, Meets]
    rcases eq_or_ne file [] with rfl | hfile
    · rw [runLaw_of_end (getlineCall_nil envs s), getlineCall_nil]
      exact iff_of_true rfl ⟨Or.inl rfl, nofun⟩
    · rcases getline_spec (envs s.1) s.2 hfile with ⟨hroom, hnone⟩ | ⟨b, hroom, hsome⟩
      · have hcall : getlineCall envs s file = none := by
          rw [getlineCall, hnone]
          rfl
        rw [runLaw_of_end hcall, hroom]
        exact iff_of_false hfile fun ⟨h, _⟩ => (h.resolve_left hfile).elim fun _ h => nomatch h.1
      · obtain ⟨rest, hrest⟩ : ∃ rest, rest = file.drop (line file).length := ⟨_, rfl⟩
        obtain ⟨buf, hbuf⟩ : ∃ buf, buf = line file ++ behind file b (line file).length := ⟨_, rfl⟩
        rw [← hrest, ← hbuf] at hsome
        have hcall : getlineCall envs s file = some (⟨(line file).length, buf⟩, (s.1 + 1, some buf), rest) := by
          rw [getlineCall, hsome]
          rfl
        have hpiece : (Answer.mk (line file).length buf).piece = line file := by
          rw [Answer.piece, hbuf]
          exact List.take_left
        have hterm : buf[(line file).length]? = some 0 ↔ 10 ∈ file ∨ b[file.length]? = some 0 := by
          rw [hbuf, List.getElem?_append_right le_rfl, Nat.sub_self, behind]
          split_ifs with hline
          · exact iff_of_true rfl (Or.inl hline)
          · rw [List.getElem?_drop, Nat.add_zero, line_eq_self hline, or_iff_right hline]
        have hends : rest ≠ [] → EndsLine (line file) := by
          intro hmore
          by_contra hline
          have hself := line_eq_self (mt endsLine_line hline)
          rw [hrest, hself, List.drop_length] at hmore
          exact hmore rfl
        have hshort : rest.length < fuel := by
          have hpos := List.length_pos_iff.2 (line_ne_nil hfile)
          have hlong := List.length_pos_iff.2 hfile
          rw [hrest, List.length_drop]
          omega
        rw [runLaw_cons hcall (by rw [hpiece, hrest, line_prefix]) (fun hmore => hpiece.symm ▸ hends hmore)
          (getlineCall_nil envs),
          hterm, ih _ hshort, hroom, hcall]
        constructor
        · rintro ⟨hmeets, hrun⟩
          refine ⟨Or.inr ⟨b, rfl, hmeets⟩, fun a s' file' h => ?_⟩
          cases h
          exact hrun
        · rintro ⟨hmeets, hrun⟩
          obtain ⟨b', hb', hmeets⟩ := hmeets.resolve_left hfile
          cases hb'
          exact ⟨hmeets, hrun _ _ _ rfl⟩

theorem fgetsCall_nil (hsize : 2 ≤ size) (s : List Byte) : fgetsCall size s [] = none := by
  rw [fgetsCall, fgets, if_neg (by omega), fgetsLoop, if_pos (by omega)]
  rfl

/-- **A run of `fgets`.** -/
theorem fgets_run (hsize : 2 ≤ size) {fuel : ℕ} {s : List Byte} (hs : size ≤ s.length) (h0 : 0 ∉ file)
    (hfuel : file.length < fuel) :
    RunLaw (fgetsCall size) (fun p => EndsLine p ∨ p.length = size - 1) fuel s file := by
  induction fuel generalizing s file with
  | zero => omega
  | succ fuel ih =>
    rcases eq_or_ne file [] with rfl | hfile
    · exact (runLaw_of_end (fgetsCall_nil hsize s)).2 rfl
    · have hloop := fgetsLoop_spec [] hs (by rw [List.length_nil]; omega) (Or.inl hfile)
      obtain ⟨piece, hp⟩ : ∃ piece, piece = (line file).take (size - 1) := ⟨_, rfl⟩
      simp only [List.nil_append, List.length_nil, List.drop_zero, Nat.sub_zero, Nat.zero_add, ← hp] at hloop
      have hfront : piece <+: file :=
        (hp ▸ List.take_prefix _ _).trans ⟨_, line_prefix file⟩
      have hlen : piece.length ≤ size - 1 := hp ▸ List.length_take_le _ _
      have hpos : 0 < piece.length := by
        have := List.length_pos_iff.2 (line_ne_nil hfile)
        rw [hp, List.length_take]
        omega
      have hcstr : cstr (piece ++ 0 :: s.drop (piece.length + 1)) = piece :=
        cstr_append_zero (fun hmem => h0 (hfront.subset hmem)) _
      have hcall : fgetsCall size s file =
          some (⟨piece.length, (piece ++ 0 :: s.drop (piece.length + 1)).take size⟩,
            piece ++ 0 :: s.drop (piece.length + 1), file.drop piece.length) := by
        rw [fgetsCall, fgets, if_neg (by omega), hloop, Option.map_some, hcstr]
      have hpiece : (Answer.mk piece.length ((piece ++ 0 :: s.drop (piece.length + 1)).take size)).piece = piece := by
        rw [Answer.piece]
        dsimp only
        rw [List.take_take, Nat.min_eq_left (by omega), List.take_left]
      refine (runLaw_cons hcall ?_ ?_ (fgetsCall_nil hsize)).2 ⟨?_, ih ?_ ?_ ?_⟩
      · rw [hpiece]
        exact List.prefix_iff_eq_append.1 hfront
      · intro hmore
        rw [hpiece]
        rcases lt_or_ge (line file).length (size - 1) with hshort | hlong
        · -- a line that was not cut has its newline, for the file goes on
          rw [List.take_of_length_le hshort.le] at hp
          subst hp
          by_contra hline
          have hself := line_eq_self (mt endsLine_line fun h => hline (Or.inl h))
          rw [hself, List.drop_length] at hmore
          exact hmore rfl
        · exact Or.inr (by rw [hp, List.length_take]; omega)
      · dsimp only
        rw [List.getElem?_take_of_lt (by omega), List.getElem?_append_right le_rfl, Nat.sub_self]
        rfl
      · rw [List.length_append, List.length_cons, List.length_drop]
        omega
      · exact fun hmem => h0 (List.mem_of_mem_drop hmem)
      · have hle := hfront.length_le
        rw [List.length_drop]
        omega

/-- **A run of calls loses nothing**: `getline` exactly when every call finds the condition met, `fgets` with any
size of at least two. -/
theorem line_input_iff (envs : ℕ → Grants) (lineptr : Option (List Byte)) (content s : List Byte)
    (h0 : 0 ∉ content) (hsize : 2 ≤ size) (hs : size ≤ s.length) :
    (RunLaw (getlineCall envs) EndsLine (content.length + 1) (0, lineptr) content ↔
      RunMeets envs (content.length + 1) (0, lineptr) content) ∧
      RunLaw (fgetsCall size) (fun p => EndsLine p ∨ p.length = size - 1) (content.length + 1) s content :=
  ⟨getline_run_iff envs _ (Nat.lt_succ_self _), fgets_run hsize hs h0 (Nat.lt_succ_self _)⟩

theorem line_input_iff_ab : RunLaw (fgetsCall 2) (fun p => EndsLine p ∨ p.length = 1) 4 [1, 1] (lit "ab\n") :=
  (line_input_iff (fun _ _ => none) none (lit "ab\n") [1, 1] (by decide) le_rfl (by decide)).2

/-- A last line without a newline, in a buffer that is not nought: nothing ends the string. -/
theorem not_line_input : ¬ ∀ (envs : ℕ → Grants) (lineptr : Option (List Byte)) (content : List Byte),
    (∀ k size, envs k size ≠ none) → 0 ∉ content →
      RunLaw (getlineCall envs) EndsLine (content.length + 1) (0, lineptr) content := by
  intro h
  obtain ⟨answers, hrun, -, -, hterm⟩ := h (fun _ _ => some fun _ => 1) (some [1, 1]) [97] (fun _ _ => nofun) (by decide)
  obtain rfl : [⟨1, [97, 1]⟩] = answers := Option.some.inj hrun
  exact absurd (hterm _ List.mem_cons_self) (by decide)

end Tnu.Libc
