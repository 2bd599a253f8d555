/-
**Where the output of a command goes.**

`run_stage` of `kernel/shell/tsh.c` collects what a command writes with the console capture, puts it
into the file of a redirection, and hands it to the next stage of a pipeline as a string.  There is one
capture with one buffer of 4096 bytes, `kprintf` formats into one of 1024, and a command can itself run
a line: its stages then begin and end the capture that its own output goes to.

Main definitions:

* `Doing`, `runAll` — what a command does to the console.

Main results:

* `gathered_eq` — **what the capture has got in the end**;
* `carried_iff` — **exactly when a redirection and a pipe carry the output**.
-/

import Tnu.Shell.Quoting
import Tnu.Sys.Rewrite

set_option autoImplicit false

namespace Tnu.Shell

open Vfs User

/-! ### What a command does to the console -/

/-- The buffer of `kprintf`. -/
abbrev kprintfSize : ℕ := 1024

/-- What a command does to the console: it writes bytes, or a text through `kprintf`, or runs a stage
whose output is captured. -/
inductive Doing
  | put (bytes : List Byte)
  | print (text : CString)
  | captured (acts : List Doing)

mutual

def Doing.run : Doing → Console → Console
  | .put bytes, con => consoleWrite con bytes
  | .print text, con => consoleWrite con (ksnprintf kprintfSize text.chars)
  | .captured acts, con => (captureEnd (runAll acts (captureBegin con stageBuf))).1

def runAll : List Doing → Console → Console
  | [], con => con
  | act :: acts, con => runAll acts (act.run con)

end

/-- What a step writes; what a captured stage writes goes elsewhere. -/
def Doing.output : Doing → List Byte
  | .put bytes => bytes
  | .print text => text.chars
  | .captured _ => []

def output (acts : List Doing) : List Byte := acts.flatMap Doing.output

def Doing.emits : Doing → List Byte
  | .put bytes => bytes
  | .print text => ksnprintf kprintfSize text.chars
  | .captured _ => []

def Doing.Open : Doing → Prop
  | .captured _ => False
  | _ => True

/-- A step whose text `kprintf` does not cut. -/
def Doing.Short : Doing → Prop
  | .print text => text.chars.length < kprintfSize
  | _ => True

/-- The output arrives: there is none, or nothing is cut and no stage of the command's own is captured. -/
def Carries (acts : List Doing) : Prop :=
  output acts = [] ∨ (∀ a ∈ acts, a.Open ∧ a.Short) ∧ (output acts).length < stageBuf

variable {acts : List Doing} {con : Console} {a : Doing}

theorem runAll_append (pre post : List Doing) (con : Console) :
    runAll (pre ++ post) con = runAll post (runAll pre con) := by
  induction pre generalizing con with
  | nil => rfl
  | cons a pre ih => simp only [List.cons_append, runAll, ih]

theorem idle_runAll (h : con.active = false ∧ con.len = 0) :
    (runAll acts con).active = false ∧ (runAll acts con).len = 0 := by
  induction acts generalizing con with
  | nil => exact h
  | cons a acts ih =>
    refine ih ?_
    cases a with
    | put bytes =>
      rw [Doing.run, consoleWrite_of_inactive h.1]
      exact h
    | print text =>
      rw [Doing.run, consoleWrite_of_inactive h.1]
      exact h
    | captured inner => exact ⟨rfl, rfl⟩

theorem idle_of_captured {inner : List Doing} (h : Doing.captured inner ∈ acts) (con : Console) :
    (runAll acts con).active = false ∧ (runAll acts con).len = 0 := by
  obtain ⟨pre, post, rfl⟩ := List.append_of_mem h
  rw [runAll_append, runAll]
  exact idle_runAll ⟨rfl, rfl⟩

theorem runAll_of_open (hopen : ∀ a ∈ acts, a.Open) (hactive : con.active = true)
    (hlen : con.len = con.text.length) (hsize : con.len < con.size) :
    runAll acts con =
      { con with len := ((con.text ++ acts.flatMap Doing.emits).take (con.size - 1)).length
                 text := (con.text ++ acts.flatMap Doing.emits).take (con.size - 1) } := by
  have hrun : ∀ a ∈ acts, ∀ con : Console, a.run con = consoleWrite con a.emits := by
    intro a ha con
    cases a with
    | put bytes => rfl
    | print text => rfl
    | captured inner => exact absurd (hopen _ ha) id
  have hall : runAll acts con = consoleWrite con (acts.flatMap Doing.emits) := by
    clear hopen hactive hlen hsize
    induction acts generalizing con with
    | nil => rfl
    | cons a acts ih =>
      rw [runAll, hrun a List.mem_cons_self, ih fun b hb => hrun b (List.mem_cons_of_mem _ hb),
        List.flatMap_cons, consoleWrite, consoleWrite, consoleWrite, List.foldl_append]
  rw [hall, consoleWrite_of_active hactive hlen hsize]

def gathered (acts : List Doing) (con : Console) : List Byte :=
  (runAll acts (captureBegin con stageBuf)).text.take (runAll acts (captureBegin con stageBuf)).len

/-- **What the capture has got in the end**: nothing when a stage of the command's own was captured, and
else as much as fits. -/
theorem gathered_eq (acts : List Doing) (con : Console) [Decidable (∀ a ∈ acts, a.Open)] :
    gathered acts con =
      if ∀ a ∈ acts, a.Open then (acts.flatMap Doing.emits).take (stageBuf - 1) else [] := by
  split_ifs with hopen
  · have hrun : runAll acts (captureBegin con stageBuf) = _ :=
      runAll_of_open hopen rfl rfl (Nat.zero_lt_succ _)
    rw [gathered, hrun]
    simp only [captureBegin, List.nil_append, List.take_length]
  · push Not at hopen
    obtain ⟨a, ha, hclosed⟩ := hopen
    cases a with
    | put bytes => exact absurd trivial hclosed
    | print text => exact absurd trivial hclosed
    | captured inner =>
      rw [gathered, (idle_of_captured ha _).2, List.take_zero]

theorem length_emits_le (a : Doing) : a.emits.length ≤ a.output.length := by
  cases a with
  | put bytes => exact le_rfl
  | print text => exact List.length_take_le' _ _
  | captured inner => exact le_rfl

theorem length_flatMap_emits_le (acts : List Doing) : (acts.flatMap Doing.emits).length ≤ (output acts).length := by
  induction acts with
  | nil => exact le_rfl
  | cons a acts ih =>
    rw [output, List.flatMap_cons, List.flatMap_cons, List.length_append, List.length_append]
    exact Nat.add_le_add (length_emits_le a) ih

theorem emits_eq_output (h : a.Short) : a.emits = a.output := by
  cases a with
  | put bytes => rfl
  | print text => exact List.take_of_length_le (Nat.le_sub_one_of_lt h)
  | captured inner => rfl

theorem length_emits_lt (h : ¬ a.Short) : a.emits.length < a.output.length := by
  cases a with
  | put bytes => exact absurd trivial h
  | captured inner => exact absurd trivial h
  | print text =>
    have hlong : kprintfSize ≤ text.chars.length := not_lt.1 h
    have hcut : (Doing.print text).emits.length ≤ kprintfSize - 1 := List.length_take_le _ _
    exact (Nat.lt_of_le_of_lt hcut (by decide)).trans_le hlong

/-- **The capture has got what the command wrote** exactly when the output arrives. -/
theorem gathered_eq_output_iff (acts : List Doing) (con : Console) :
    gathered acts con = output acts ↔ Carries acts := by
  classical
  rw [gathered_eq]
  constructor
  · intro h
    split_ifs at h with hopen
    · refine (eq_or_ne (output acts) []).imp_right fun hne => ⟨fun a ha => ⟨hopen a ha, ?_⟩, ?_⟩
      · by_contra hshort
        obtain ⟨pre, post, rfl⟩ := List.append_of_mem ha
        have hlen := congrArg List.length h
        have hpre := length_flatMap_emits_le pre
        have hpost := length_flatMap_emits_le post
        have hlt := length_emits_lt hshort
        simp only [output, List.flatMap_append, List.flatMap_cons, List.length_take, List.length_append] at hlen hpre hpost
        omega
      · rw [← h]
        exact (List.length_take_le _ _).trans_lt (by decide)
    · exact .inl h.symm
  · rintro (hnil | ⟨hgood, hlen⟩)
    · have hzero : acts.flatMap Doing.emits = [] := by
        have hle := length_flatMap_emits_le acts
        rw [hnil] at hle
        exact List.eq_nil_of_length_eq_zero (Nat.le_zero.1 hle)
      rw [hzero, hnil, List.take_nil, ite_self]
    · rw [if_pos fun a ha => (hgood a ha).1]
      have heq : acts.flatMap Doing.emits = output acts :=
        List.flatMap_congr fun a ha => emits_eq_output (hgood a ha).2
      rw [heq, List.take_of_length_le (Nat.le_sub_one_of_lt hlen)]

/-! ### Commands -/

/-- What a command does when it is called: to the console, and what else it leaves behind. -/
structure Deed where
  acts : List Doing
  after : Sh
  rc : ℤ

/-- A command, by what it does; nothing stands for one that does not return. -/
abbrev Program := Call → Sh → Option Deed

/-- The state after a command that was called in `sh`. -/
def Deed.finish (d : Deed) (sh : Sh) : Sh × ℤ :=
  ({ d.after with console := runAll d.acts sh.console }, d.rc)

def Program.command (p : Program) : Command := fun call sh => (p call sh).map fun d => d.finish sh

/-- `run_command`, by what is done. -/
def Program.deed (p : Program) : Program := fun call sh =>
  match call.argv with
  | [] => some ⟨[], sh, 0⟩
  | [a, op, b] =>
    if op = lit "==" then some ⟨[], sh, if a = b then 0 else 1⟩
    else if op = lit "!=" then some ⟨[], sh, if a = b then 1 else 0⟩
    else p call sh
  | _ => p call sh

theorem runCommand_eq (p : Program) (call : Call) (sh : Sh) :
    runCommand p.command call sh = (p.deed call sh).map fun d => d.finish sh := by
  obtain ⟨argv, stdin⟩ := call
  match argv with
  | [] => rfl
  | [_] => rfl
  | [_, _] => rfl
  | [a, op, b] =>
    simp only [runCommand, Program.deed]
    split_ifs <;> rfl
  | _ :: _ :: _ :: _ :: _ => rfl

/-! ### The file of a redirection -/

abbrev redirectFlags : UInt32 := Sys.vfsOCreat ||| Sys.vfsORdwr ||| Sys.vfsOTrunc

def shellPath (path : List Byte) : Sys.UserString := ⟨kernelPtr, ⟨cstr path, zero_notMem_cstr path⟩⟩

/-- The redirection can be written: the path names a file that may be opened or made, a descriptor is
free, and there is memory. -/
structure Redirectable (dev : Sys.Devices) (s : Sys.Kernel) (path : List Byte) (cs : List (List Byte)) :
    Prop where
  sound : Sys.Sound s.vfs
  names : Sys.Names s (shellPath path) cs
  writable : ∃ d, Sys.Writable s (shellPath path) cs redirectFlags 0o644 d
  file : ∀ d, walk s.vfs rootNode cs = some d → (s.vfs.nodes d).type = .file
  slot : (Sys.freeFd s.proc).isSome
  heap : ∀ n ≤ stageBuf, dev.kmalloc n = true

theorem anew_redirectFlags : Sys.Anew redirectFlags := by
  constructor <;> decide

theorem uptrOk_kernelPtr {len : ℕ} (h : len < stageBuf) : Sys.uptrOk kernelPtr len = true := by
  have hlen : len < 4096 := h
  simp only [Sys.uptrOk, kernelPtr]
  simp
  omega

variable {cs : List (List Byte)}

theorem bytesAt_close {s s' : Sys.Kernel} {d : ℕ} {path : Sys.UserString}
    (hnames : Sys.Names s path cs) (h : Sys.Rewrote d s s') (hw : walk s'.vfs rootNode cs = some d) (fd : ℤ) :
    Sys.bytesAt (Sys.sysClose s' fd).1 path = some (Sys.contents (s'.vfs.nodes d)) := by
  have hvfs := Sys.vfs_sysClose s' fd
  have hnames' : Sys.Names (Sys.sysClose s' fd).1 path cs := (h.close fd).names.2 hnames
  rw [Sys.bytesAt_of_names hnames' (n := d) (by rw [hvfs]; exact hw), hvfs]

/-- **The file of a redirection holds what was gathered.** -/
theorem writeRedirect_spec {dev : Sys.Devices} {sh : Sh} {path text : List Byte}
    (h : Redirectable dev sh.kernel path cs) (hlen : text.length < stageBuf) :
    ∃ sh', writeRedirect dev sh path text = some (sh', true) ∧
      Sys.bytesAt sh'.kernel (shellPath path) = some text := by
  obtain ⟨i, hfree⟩ := Option.isSome_iff_exists.1 h.slot
  rcases Sys.sysOpen_trunc 0o644 anew_redirectFlags h.sound h.names with
    ⟨d, s₁, dirty, hwritable, hem, he⟩ | ⟨hnot, -⟩
  swap
  · exact absurd h.writable hnot
  have hfree₁ : Sys.freeFd s₁.proc = some i := by rw [hem.proc, hfree]
  have hfile : (s₁.vfs.nodes d).type = .file := by
    by_contra hne
    obtain ⟨hw, -⟩ := hem.kept hne
    exact hne ((hem.rewrote.attrs d (h.sound.lt hw)).1.trans (h.file d hw))
  obtain ⟨hempty, hzero⟩ := hem.empty hfile
  -- The descriptor that the call hands out.
  set s₂ := s₁.setFd i (Sys.anewFd redirectFlags d (dirty i)) with hs₂
  have hopen : Sys.sysOpen sh.kernel ⟨kernelPtr, ⟨cstr path, zero_notMem_cstr path⟩⟩ redirectFlags 0o644 =
      (s₂, (i : ℤ)) := by
    rw [← shellPath, he, Sys.handOut, hfree₁]
  have hre : Sys.Rewrote d sh.kernel s₂ := hem.rewrote.setFd i _
  have hneg : ¬ (i : ℤ) < 0 := by omega
  rw [writeRedirect]
  simp only [hopen, if_neg hneg]
  by_cases hnil : text = []
  · rw [if_pos hnil]
    refine ⟨_, rfl, ?_⟩
    rw [bytesAt_close h.names hre hem.found, hnil]
    exact congrArg some hempty
  · rw [if_neg hnil]
    have hat : Sys.AtEnd s₂ i d (Sys.anewFd redirectFlags d (dirty i)) :=
      { Sys.writeFd_handOut anew_redirectFlags (.inr (by decide)) hfree₁ d (dirty i) with
        file := hfile
        offset := hzero.symm }
    have hsize : (s₂.vfs.nodes d).size = 0 := hzero
    obtain ⟨s₃, f', hwrite, hre₃, hcontents, -, -⟩ := Sys.sysWrite_end dev ⟨kernelPtr, text⟩
      (hre.sound) hat hnil (by
        rw [hsize]
        exact (Nat.zero_add _).trans_lt (hlen.trans (by decide)))
    have hgranted : (Sys.uptrOk kernelPtr text.length && dev.kmalloc ((s₂.vfs.nodes d).size + text.length + 1)) =
        true := by
      rw [uptrOk_kernelPtr hlen, hsize, Nat.zero_add, h.heap _ hlen]
      rfl
    rw [hwrite]
    simp only [hgranted, if_true, Option.map_some, decide_true]
    refine ⟨_, rfl, ?_⟩
    have hfound : walk s₃.vfs rootNode cs = some d := hre₃.walk cs d hem.found
    rw [bytesAt_close h.names (hre.trans hre₃) hfound, hcontents]
    exact congrArg some (congrArg (· ++ text) hempty)

/-! ### A redirection and a pipe -/

/-- What a command does whose output is captured. -/
def Program.captured (p : Program) (sh : Sh) (texts : List (List Byte)) (stdin : Option (List Byte)) : Option Deed :=
  p.deed ⟨expandArgs sh texts, stdin⟩ { sh with console := captureBegin sh.console stageBuf }

/-- **After `cmd > f` the file holds what the command wrote.** -/
def RedirectLaw (dev : Sys.Devices) (p : Program) (sh : Sh) (texts : List (List Byte)) (f : List Byte) (d : Deed) :
    Prop :=
  ∃ r, runTokens dev p.command sh (textTokens (texts ++ [lit ">", f])) = some r ∧
    Sys.bytesAt r.1.kernel (shellPath (expandTilde sh.db f)) = some (output d.acts)

/-- **The next stage gets what the command wrote**: `pipelineLoop_bar` hands it this string. -/
def PipeLaw (dev : Sys.Devices) (p : Program) (sh : Sh) (texts : List (List Byte)) (stdin : Option (List Byte))
    (d : Deed) : Prop :=
  ∃ r, runStage dev p.command sh texts stdin true = some r ∧
    ∀ useA, (r.1.piped useA r.2.2).pipes useA = output d.acts

variable {dev : Sys.Devices} {p : Program} {sh : Sh} {texts : List (List Byte)} {f : List Byte} {d : Deed}
  {stdin : Option (List Byte)}

theorem length_gathered_lt (acts : List Doing) (con : Console) : (gathered acts con).length < stageBuf := by
  classical
  rw [gathered_eq]
  split_ifs
  · exact (List.length_take_le _ _).trans_lt (by decide)
  · decide

theorem length_gathered_le (acts : List Doing) (con : Console) : (gathered acts con).length ≤ (output acts).length := by
  classical
  rw [gathered_eq]
  split_ifs
  · rw [List.length_take]
    exact (Nat.min_le_right _ _).trans (length_flatMap_emits_le acts)
  · exact Nat.zero_le _

theorem runStage_captured (dev : Sys.Devices) (capture : Bool) {toks : List (List Byte)} {out : Option (List Byte)}
    (hscan : scanStage ⟨[], none, none⟩ toks = .ok ⟨texts, none, out⟩) (hcap : ¬ (capture = false ∧ out = none))
    (hd : p.captured sh texts stdin = some d) :
    runStage dev p.command sh toks stdin capture =
      finishStage dev { d.after with console := runAll d.acts (captureBegin sh.console stageBuf) } d.rc
        (out.map (expandTilde sh.db)) capture := by
  have hcap' : ¬ (capture = false ∧ out.map (expandTilde sh.db) = none) := by
    rwa [Option.map_eq_none_iff]
  rw [Program.captured] at hd
  simp only [runStage, hscan, stageInput, if_neg hcap', runCommand_eq, hd]
  rfl

/-- **A redirection carries what the capture has got.** -/
theorem redirectLaw_iff (hplain : ∀ t ∈ texts, t ∉ operatorTexts)
    (hlen : texts.length + 1 < argvMax) (hd : p.captured sh texts none = some d) (hf : f ∉ operatorTexts)
    (hred : Redirectable dev d.after.kernel (expandTilde sh.db f) cs) :
    RedirectLaw dev p sh texts f d ↔ Carries d.acts := by
  have hfront : ∀ t ∈ texts, t ≠ lit "<" ∧ t ≠ lit ">" := fun t ht =>
    ⟨ne_of_plain hplain (by simp [operatorTexts]) t ht, ne_of_plain hplain (by simp [operatorTexts]) t ht⟩
  have hop {op : List Byte} (hmem : op ∈ operatorTexts) (hne : lit ">" ≠ op) :
      ∀ t ∈ texts ++ [lit ">", f], t ≠ op := by
    intro t ht
    simp only [List.mem_append, List.mem_cons, List.not_mem_nil, or_false] at ht
    rcases ht with ht | rfl | rfl
    · exact ne_of_plain hplain hmem t ht
    · exact hne
    · exact fun h => hf (h ▸ hmem)
  have hscan : scanStage ⟨[], none, none⟩ (texts ++ [lit ">", f]) = .ok ⟨texts, none, some f⟩ := by
    have hroom : ¬ argvMax - 1 ≤ texts.length := by omega
    rw [scanStage_append _ hfront _ (by simp only [List.length_nil]; omega), List.nil_append, scanStage, if_neg hroom,
      if_pos rfl, scanStage]
  obtain ⟨sh₁, hsh₁⟩ : ∃ sh₁ : Sh, sh₁ = { d.after with
      console := (captureEnd (runAll d.acts (captureBegin sh.console stageBuf))).1 } := ⟨_, rfl⟩
  have hred₁ : Redirectable dev sh₁.kernel (expandTilde sh.db f) cs := hsh₁ ▸ hred
  obtain ⟨sh', hwrite, hbytes⟩ := writeRedirect_spec hred₁ (length_gathered_lt d.acts sh.console)
  rw [hsh₁] at hwrite
  have hstage := runStage_captured dev false hscan (by simp) hd
  simp only [finishStage, Option.map_some, captureEnd] at hstage
  have hne : texts ++ [lit ">", f] ≠ [] := by simp
  rw [← gathered_eq_output_iff d.acts sh.console, RedirectLaw, runTokens,
    tokensLoop_last _ hne (hop (by simp [operatorTexts]) (by decide)),
    runPipeline_one hne (hop (by simp [operatorTexts]) (by decide)), hstage]
  rw [gathered, captureEnd] at hwrite
  rw [hwrite]
  constructor
  · rintro ⟨r, hr, hholds⟩
    obtain rfl := Option.some.inj hr
    exact Option.some.inj (hbytes.symm.trans hholds)
  · intro h
    exact ⟨_, rfl, hbytes.trans (congrArg some h)⟩

/-- **A pipe carries what the capture has got**, up to its first NUL. -/
theorem pipeLaw_iff (hplain : ∀ t ∈ texts, t ∉ operatorTexts) (hlen : texts.length + 1 < argvMax)
    (hd : p.captured sh texts stdin = some d) :
    PipeLaw dev p sh texts stdin d ↔ Carries d.acts ∧ 0 ∉ output d.acts := by
  have hstage := runStage_captured dev true (scanStage_of_plain hplain (by omega)) (by simp) hd
  have hshort := length_gathered_lt d.acts sh.console
  have htake : (gathered d.acts sh.console).take (stageBuf - 1) = gathered d.acts sh.console :=
    List.take_of_length_le (Nat.le_sub_one_of_lt hshort)
  simp only [finishStage, Option.map_none] at hstage
  change _ = some (_, _, if true then some (cstr ((gathered d.acts sh.console).take (stageBuf - 1))) else none) at hstage
  rw [if_pos rfl, htake] at hstage
  have hlaw : PipeLaw dev p sh texts stdin d ↔ cstr (gathered d.acts sh.console) = output d.acts := by
    rw [PipeLaw, hstage]
    constructor
    · rintro ⟨r, hr, hholds⟩
      obtain rfl := Option.some.inj hr
      have htext := hholds true
      simp only [Sh.piped, Function.update_self] at htext
      exact htext
    · exact fun h => ⟨_, rfl, fun useA => (Function.update_self useA _ _).trans h⟩
  rw [hlaw, ← gathered_eq_output_iff d.acts sh.console]
  constructor
  · intro h
    have hle : (gathered d.acts sh.console).length ≤ (output d.acts).length := length_gathered_le _ _
    rw [← h] at hle
    have hsame : cstr (gathered d.acts sh.console) = gathered d.acts sh.console :=
      (List.takeWhile_prefix _).eq_of_length_le hle
    exact ⟨hsame.symm.trans h, h ▸ zero_notMem_cstr _⟩
  · rintro ⟨h, hfree⟩
    rw [h]
    exact cstr_of_notMem hfree

/-- **Exactly when a redirection and a pipe carry the output.** -/
theorem carried_iff {cs : List (List Byte)} (hplain : ∀ t ∈ texts, t ∉ operatorTexts)
    (hlen : texts.length + 1 < argvMax) (hf : f ∉ operatorTexts) (hd : p.captured sh texts none = some d)
    (hred : Redirectable dev d.after.kernel (expandTilde sh.db f) cs) :
    (RedirectLaw dev p sh texts f d ↔ Carries d.acts) ∧
      (PipeLaw dev p sh texts none d ↔ Carries d.acts ∧ 0 ∉ output d.acts) :=
  ⟨redirectLaw_iff hplain hlen hd hf hred, pipeLaw_iff hplain hlen hd⟩

theorem redirectable_tmp : Redirectable Sys.quietDevices Sys.userKernel (lit "/tmp/f") [lit "tmp", lit "f"] where
  sound := Sys.sound_vfsInit
  names := by
    rw [Sys.Names]
    decide +kernel
  writable := ⟨11, ⟨by decide, .inr ⟨by constructor <;> decide +kernel, .inr (by decide), by decide +kernel⟩⟩⟩
  file := fun d hd => by
    have hnone : walk Sys.userKernel.vfs rootNode [lit "tmp", lit "f"] = none := by decide +kernel
    cases hnone.symm.trans hd
  slot := by decide +kernel
  heap := fun _ _ => rfl

/-- A command that runs a stage of its own, and then writes. -/
def nesting : Program := fun _ sh => some ⟨[.captured [], .put [120]], sh, 0⟩

def plainly : Program := fun _ sh => some ⟨[.put [120]], sh, 0⟩

theorem carried_iff_plainly : RedirectLaw Sys.quietDevices plainly startSh [lit "x"] (lit "/tmp/f")
    ⟨[.put [120]], { startSh with console := captureBegin startSh.console stageBuf }, 0⟩ :=
  (carried_iff (by decide) (by decide) (by decide) rfl redirectable_tmp).1.2
    (.inr ⟨by simp [Doing.Open, Doing.Short], by decide⟩)

/-- **A command that runs a stage of its own loses what it writes.** -/
theorem not_carried : ¬ ∀ (p : Program) (sh : Sh) (texts : List (List Byte)) (f : List Byte) (d : Deed)
    (cs : List (List Byte)), (∀ t ∈ texts, t ∉ operatorTexts) → f ∉ operatorTexts →
      p.captured sh texts none = some d →
      Redirectable Sys.quietDevices d.after.kernel (expandTilde sh.db f) cs →
      RedirectLaw Sys.quietDevices p sh texts f d := by
  intro h
  have hlaw := h nesting startSh [lit "x"] (lit "/tmp/f") _ _ (by decide) (by decide) rfl redirectable_tmp
  rcases (redirectLaw_iff (by decide) (by decide) rfl (by decide) redirectable_tmp).1 hlaw with hnil | ⟨hopen, -⟩
  · cases hnil
  · exact (hopen _ List.mem_cons_self).1

end Tnu.Shell
