/-
**Running a command line.**

`run_tokens` of `kernel/shell/tsh.c` cuts the tokens of a line at `&&` into pipelines, `run_pipeline`
cuts a pipeline at `|` into stages, and `run_stage` takes the redirections out of a stage, expands its
arguments and calls the command.  All of them look at the text of a token only when they come to it,
and none of them knows whether it was quoted.

Main definitions:

* `runPipeline`, `runTokens`, `runLine` — the rest of the source.

Main results:

* `scanStage_of_plain` — a stage without redirections;
* `runLine_of_plain` — **a line without operators calls its command once**.
-/

import Tnu.Shell.Expand
import Tnu.Sys.Durable

set_option autoImplicit false

namespace Tnu.Shell

open Vfs User

/-! ### One stage -/

/-- What `run_stage` finds among its tokens. -/
structure StageParts where
  argv : List (List Byte)
  input : Option (List Byte)
  output : Option (List Byte)

/-- The loop of `run_stage` over its tokens; a redirection without a file name is an error. -/
def scanStage (parts : StageParts) : List (List Byte) → Except (List Byte) StageParts
  | [] => .ok parts
  | [tok] =>
    if argvMax - 1 ≤ parts.argv.length then .ok parts
    else if tok = lit "<" ∨ tok = lit ">" then .error tok
    else .ok { parts with argv := parts.argv ++ [tok] }
  | tok :: path :: toks =>
    if argvMax - 1 ≤ parts.argv.length then .ok parts
    else if tok = lit ">" then scanStage { parts with output := some path } toks
    else if tok = lit "<" then scanStage { parts with input := some path } toks
    else scanStage { parts with argv := parts.argv ++ [tok] } (path :: toks)

/-- The size of `stage_input_buf`, `stage_capture_buf` and the pipe buffers. -/
abbrev stageBuf : ℕ := 4096

/-- `read_node_text`, as a string; a file without data is empty. -/
def readNodeText (sh : Sh) (path : List Byte) : Option (List Byte) :=
  match vfsLookup sh.kernel.vfs path sh.kernel.proc.cwd.chars with
  | none => none
  | some n =>
    if (sh.kernel.vfs.nodes n).type = .dir then none
    else
      some (cstr (((sh.kernel.vfs.nodes n).data.getD []).take
        (min (sh.kernel.vfs.nodes n).size (stageBuf - 1))))

/-- The input of a stage: that of the pipe, unless there is a redirection. -/
def stageInput (sh : Sh) (stdin path : Option (List Byte)) : Except (List Byte) (Option (List Byte)) :=
  match path with
  | none => .ok stdin
  | some path =>
    match readNodeText sh (expandTilde sh.db path) with
    | none => .error (expandTilde sh.db path)
    | some text => .ok (some text)

/-- `run_command` in front of the table of commands. -/
def runCommand (command : Command) (call : Call) (sh : Sh) : Option (Sh × ℤ) :=
  match call.argv with
  | [] => some (sh, 0)
  | [a, op, b] =>
    if op = lit "==" then some (sh, if a = b then 0 else 1)
    else if op = lit "!=" then some (sh, if a = b then 1 else 0)
    else command call sh
  | _ => command call sh

/-- An address in the kernel's image, as the checks of user pointers see it: they let it pass. -/
abbrev kernelPtr : ℕ := 0x100000

/-- The file of a redirection is opened, written and closed; the flag says whether that went well. -/
def writeRedirect (dev : Sys.Devices) (sh : Sh) (path text : List Byte) : Option (Sh × Bool) :=
  let opened := Sys.sysOpen sh.kernel ⟨kernelPtr, ⟨cstr path, zero_notMem_cstr path⟩⟩
    (Sys.vfsOCreat ||| Sys.vfsORdwr ||| Sys.vfsOTrunc) 0o644
  if opened.2 < 0 then some ({ sh with kernel := opened.1 }, false)
  else if text = [] then some ({ sh with kernel := (Sys.sysClose opened.1 opened.2).1 }, true)
  else
    (Sys.sysWrite dev opened.1 opened.2 ⟨kernelPtr, text⟩).map fun written =>
      let console := match written.2.2 with
        | .console bytes => consoleWrite sh.console bytes
        | _ => sh.console
      ({ sh with kernel := (Sys.sysClose written.1 opened.2).1, console := console },
        written.2.1 = (text.length : ℤ))

/-- The end of `run_stage` behind a command that was captured. -/
def finishStage (dev : Sys.Devices) (sh : Sh) (rc : ℤ) (output : Option (List Byte)) (capture : Bool) :
    Option (Sh × ℤ × Option (List Byte)) :=
  let text := sh.console.text.take (captureEnd sh.console).2
  let sh := { sh with console := (captureEnd sh.console).1 }
  let piped := if capture then some (cstr (text.take (stageBuf - 1))) else none
  match output with
  | none => some (sh, rc, piped)
  | some path =>
    (writeRedirect dev sh path text).map fun written =>
      if written.2 then (written.1, rc, piped)
      else (written.1.kprintf (lit "tsh: cannot write " ++ path ++ [10]), 1, none)

/-- `run_stage`: the state, the status, and what goes into the pipe. -/
def runStage (dev : Sys.Devices) (command : Command) (sh : Sh) (tokens : List (List Byte))
    (stdin : Option (List Byte)) (capture : Bool) : Option (Sh × ℤ × Option (List Byte)) :=
  match scanStage ⟨[], none, none⟩ tokens with
  | .error tok => some (sh.kprintf (lit "tsh: missing filename after " ++ tok ++ [10]), 2, none)
  | .ok parts =>
    let argv := expandArgs sh parts.argv
    match stageInput sh stdin parts.input with
    | .error path => some (sh.kprintf (lit "tsh: cannot read " ++ path ++ [10]), 1, none)
    | .ok input =>
      let output := parts.output.map (expandTilde sh.db)
      if capture = false ∧ output = none then
        (runCommand command ⟨argv, input⟩ sh).map fun r => (r.1, r.2, none)
      else
        (runCommand command ⟨argv, input⟩ { sh with console := captureBegin sh.console stageBuf }).bind
          fun r => finishStage dev r.1 r.2 output capture

/-! ### Pipelines and lists -/

/-- The loop of `run_pipeline`. -/
def pipelineLoop (dev : Sys.Devices) (command : Command) :
    ℕ → Sh → List Token → Option (List Byte) → Bool → ℤ → Option (Sh × ℤ)
  | 0, _, _, _, _, _ => none
  | _ + 1, sh, [], _, _, rc => some (sh, rc)
  | fuel + 1, sh, toks, stdin, useA, _ =>
    let seg := toks.takeWhile fun t => t.chars sh.ops ≠ lit "|"
    let last : Bool := seg.length = toks.length
    (runStage dev command sh (seg.map (Token.chars sh.ops)) stdin !last).bind fun (sh, rc, out) =>
      let sh := match out with
        | some text => { sh with pipes := Function.update sh.pipes useA text }
        | none => sh
      if last then pipelineLoop dev command fuel sh [] stdin useA rc
      else
        pipelineLoop dev command fuel sh (toks.drop (seg.length + 1)) (some (sh.pipes useA)) (!useA) rc

def runPipeline (dev : Sys.Devices) (command : Command) (sh : Sh) (toks : List Token) :
    Option (Sh × ℤ) :=
  pipelineLoop dev command (toks.length + 1) sh toks none true 0

/-- The loop of `run_tokens`; an empty pipeline ends the line with the status 2. -/
def tokensLoop (dev : Sys.Devices) (command : Command) : ℕ → Sh → List Token → Option (Sh × ℤ)
  | 0, _, _ => none
  | fuel + 1, sh, toks =>
    let piece := toks.takeWhile fun t => t.chars sh.ops ≠ lit "&&"
    if piece = [] then some (sh, 2)
    else
      (runPipeline dev command sh piece).bind fun (sh, rc) =>
        if rc ≠ 0 ∨ piece.length = toks.length then some (sh, rc)
        else tokensLoop dev command fuel sh (toks.drop (piece.length + 1))

def runTokens (dev : Sys.Devices) (command : Command) (sh : Sh) (toks : List Token) : Option (Sh × ℤ) :=
  tokensLoop dev command (toks.length + 1) sh toks

/-- A line that was read, in `tsh_run`. -/
def runLine (dev : Sys.Devices) (command : Command) (sh : Sh) (line : List Byte) : Option (Sh × ℤ) :=
  let r := splitArgs sh.ops line
  runTokens dev command { sh with ops := r.2 } r.1

/-! ### Lines without operators -/

/-- The texts that the passes behind `split_args` take for operators. -/
def operatorTexts : List (List Byte) := [lit "|", lit "<", lit ">", lit "&&"]

variable {dev : Sys.Devices} {command : Command} {sh : Sh} {texts : List (List Byte)}

theorem scanStage_append (parts : StageParts) {front : List (List Byte)}
    (hfront : ∀ t ∈ front, t ≠ lit "<" ∧ t ≠ lit ">") (toks : List (List Byte))
    (hlen : parts.argv.length + front.length ≤ argvMax - 1) :
    scanStage parts (front ++ toks) = scanStage { parts with argv := parts.argv ++ front } toks := by
  induction front generalizing parts with
  | nil => rw [List.nil_append, List.append_nil]
  | cons t front ih =>
    obtain ⟨hin, hout⟩ := hfront t List.mem_cons_self
    have hroom : ¬ argvMax - 1 ≤ parts.argv.length := by
      rw [List.length_cons] at hlen
      omega
    have hle : (parts.argv ++ [t]).length + front.length ≤ argvMax - 1 := by
      rw [List.length_append, List.length_singleton]
      rw [List.length_cons] at hlen
      omega
    have hrest := ih { parts with argv := parts.argv ++ [t] }
      (fun u hu => hfront u (List.mem_cons_of_mem _ hu)) hle
    simp only [List.append_assoc, List.singleton_append] at hrest
    rw [List.cons_append, ← hrest]
    cases front ++ toks with
    | nil => simp only [scanStage, if_neg hroom, hin, hout, or_self, if_false]
    | cons u rest => simp only [scanStage, if_neg hroom, hin, hout, if_false]

theorem scanStage_of_plain (hplain : ∀ t ∈ texts, t ∉ operatorTexts) (hlen : texts.length < argvMax) :
    scanStage ⟨[], none, none⟩ texts = .ok ⟨texts, none, none⟩ := by
  have hfront : ∀ t ∈ texts, t ≠ lit "<" ∧ t ≠ lit ">" := by
    intro t ht
    have hmem := hplain t ht
    simp only [operatorTexts, List.mem_cons, List.not_mem_nil, or_false, not_or] at hmem
    exact ⟨hmem.2.1, hmem.2.2.1⟩
  have happend := scanStage_append ⟨[], none, none⟩ hfront [] (by simp only [List.length_nil]; omega)
  rw [List.append_nil] at happend
  rw [happend, scanStage, List.nil_append]

theorem runStage_of_plain (hplain : ∀ t ∈ texts, t ∉ operatorTexts) (hlen : texts.length < argvMax)
    (stdin : Option (List Byte)) :
    runStage dev command sh texts stdin false =
      (runCommand command ⟨expandArgs sh texts, stdin⟩ sh).map fun r => (r.1, r.2, none) := by
  simp only [runStage, scanStage_of_plain hplain hlen, stageInput, Option.map_none, and_self, if_true]

def textTokens (texts : List (List Byte)) : List Token := texts.map Token.text

theorem takeWhile_textTokens (ops : OpStorage) (texts : List (List Byte)) (op : List Byte) :
    (textTokens texts).takeWhile (fun t => t.chars ops ≠ op) =
      textTokens (texts.takeWhile fun t => t ≠ op) := by
  rw [textTokens, List.takeWhile_map]
  rfl

variable (fuel : ℕ) {op line : List Byte} {toks : List Token}

theorem ne_of_plain (hplain : ∀ t ∈ texts, t ∉ operatorTexts) (hop : op ∈ operatorTexts) :
    ∀ t ∈ texts, t ≠ op := by
  rintro t ht rfl
  exact hplain t ht hop

def Sh.piped (sh : Sh) (useA : Bool) (out : Option (List Byte)) : Sh :=
  match out with
  | some text => { sh with pipes := Function.update sh.pipes useA text }
  | none => sh

theorem takeWhile_append_of_plain (h : ∀ t ∈ texts, t ≠ op) (rest : List (List Byte)) :
    (texts ++ op :: rest).takeWhile (fun t => t ≠ op) = texts := by
  rw [List.takeWhile_append_of_pos fun t ht => by simpa using h t ht, List.takeWhile_cons_of_neg (by simp),
    List.append_nil]

theorem map_chars_textTokens (ops : OpStorage) (texts : List (List Byte)) :
    (textTokens texts).map (Token.chars ops) = texts := by
  rw [textTokens, List.map_map]
  exact List.map_id texts

theorem drop_textTokens (texts : List (List Byte)) (op : List Byte) (rest : List (List Byte)) :
    (textTokens (texts ++ op :: rest)).drop ((textTokens texts).length + 1) = textTokens rest := by
  rw [textTokens, textTokens, textTokens, List.map_append, List.map_cons, List.length_map,
    List.drop_append, List.length_map, Nat.add_sub_cancel_left, List.drop_of_length_le (by simp)]
  rfl

theorem length_textTokens_ne (texts : List (List Byte)) (op : List Byte) (rest : List (List Byte)) :
    ¬ (textTokens texts).length = (textTokens (texts ++ op :: rest)).length := by
  simp only [textTokens, List.length_map, List.length_append, List.length_cons]
  omega

theorem pipelineLoop_seg (hne : toks ≠ [])
    (hbar : ∀ t ∈ toks, t.chars sh.ops ≠ lit "|") (stdin : Option (List Byte)) (useA : Bool) (rc : ℤ) :
    pipelineLoop dev command (fuel + 2) sh toks stdin useA rc =
      (runStage dev command sh (toks.map (Token.chars sh.ops)) stdin false).map
        fun r => (r.1.piped useA r.2.2, r.2.1) := by
  have hseg : toks.takeWhile (fun t => t.chars sh.ops ≠ lit "|") = toks := by
    rw [List.takeWhile_eq_self_iff]
    intro t ht
    simpa using hbar t ht
  cases toks with
  | nil => exact absurd rfl hne
  | cons tok toks =>
    simp only [pipelineLoop, hseg, decide_true, Bool.not_true, if_true, Option.map_eq_bind]
    rfl

theorem pipelineLoop_last (hne : texts ≠ []) (hbar : ∀ t ∈ texts, t ≠ lit "|")
    (stdin : Option (List Byte)) (useA : Bool) (rc : ℤ) :
    pipelineLoop dev command (fuel + 2) sh (textTokens texts) stdin useA rc =
      (runStage dev command sh texts stdin false).map fun r => (r.1.piped useA r.2.2, r.2.1) := by
  have hbar' : ∀ t ∈ textTokens texts, t.chars sh.ops ≠ lit "|" := by
    intro t ht
    obtain ⟨x, hx, rfl⟩ := List.mem_map.1 ht
    exact hbar x hx
  have hne' : textTokens texts ≠ [] := fun h => hne (List.map_eq_nil_iff.1 h)
  rw [pipelineLoop_seg fuel hne' hbar', map_chars_textTokens]

theorem pipelineLoop_cut {rest : List Token} {bar : Token}
    (hbar : ∀ t ∈ toks, t.chars sh.ops ≠ lit "|") (hcut : bar.chars sh.ops = lit "|")
    (stdin : Option (List Byte)) (useA : Bool) (rc : ℤ) :
    pipelineLoop dev command (fuel + 1) sh (toks ++ bar :: rest) stdin useA rc =
      (runStage dev command sh (toks.map (Token.chars sh.ops)) stdin true).bind fun r =>
        pipelineLoop dev command fuel (r.1.piped useA r.2.2) rest
          (some ((r.1.piped useA r.2.2).pipes useA)) (!useA) r.2.1 := by
  have hseg : (toks ++ bar :: rest).takeWhile (fun t => t.chars sh.ops ≠ lit "|") = toks := by
    rw [List.takeWhile_append_of_pos fun t ht => by simpa using hbar t ht,
      List.takeWhile_cons_of_neg (by simp [hcut]), List.append_nil]
  have hlen : ¬ toks.length = (toks ++ bar :: rest).length := by
    simp only [List.length_append, List.length_cons]
    omega
  have hdrop : (toks ++ bar :: rest).drop (toks.length + 1) = rest := by simp
  generalize htoks : toks ++ bar :: rest = all at hseg hlen hdrop
  cases all with
  | nil => exact absurd htoks (by simp)
  | cons tok all =>
    simp only [pipelineLoop, hseg, hlen, hdrop, decide_false, Bool.not_false, Bool.false_eq_true,
      if_false]
    rfl

theorem pipelineLoop_bar (hbar : ∀ t ∈ texts, t ≠ lit "|") (rest : List (List Byte))
    (stdin : Option (List Byte)) (useA : Bool) (rc : ℤ) :
    pipelineLoop dev command (fuel + 1) sh (textTokens (texts ++ lit "|" :: rest)) stdin useA rc =
      (runStage dev command sh texts stdin true).bind fun r =>
        pipelineLoop dev command fuel (r.1.piped useA r.2.2) (textTokens rest)
          (some ((r.1.piped useA r.2.2).pipes useA)) (!useA) r.2.1 := by
  have hbar' : ∀ t ∈ textTokens texts, t.chars sh.ops ≠ lit "|" := by
    intro t ht
    obtain ⟨x, hx, rfl⟩ := List.mem_map.1 ht
    exact hbar x hx
  have hsplit : textTokens (texts ++ lit "|" :: rest) =
      textTokens texts ++ Token.text (lit "|") :: textTokens rest := by
    rw [textTokens, List.map_append, List.map_cons]
    rfl
  rw [hsplit, pipelineLoop_cut fuel hbar' rfl, map_chars_textTokens]

theorem runPipeline_one (hne : texts ≠ []) (hbar : ∀ t ∈ texts, t ≠ lit "|") :
    runPipeline dev command sh (textTokens texts) =
      (runStage dev command sh texts none false).map fun r => (r.1.piped true r.2.2, r.2.1) := by
  obtain ⟨n, hn⟩ : ∃ n, (textTokens texts).length = n + 1 := by
    cases texts with
    | nil => exact absurd rfl hne
    | cons t texts => exact ⟨_, rfl⟩
  rw [runPipeline, hn, pipelineLoop_last _ hne hbar]

theorem tokensLoop_seg (hne : toks ≠ [])
    (hand : ∀ t ∈ toks, t.chars sh.ops ≠ lit "&&") :
    tokensLoop dev command (fuel + 1) sh toks = runPipeline dev command sh toks := by
  have hseg : toks.takeWhile (fun t => t.chars sh.ops ≠ lit "&&") = toks := by
    rw [List.takeWhile_eq_self_iff]
    intro t ht
    simpa using hand t ht
  simp only [tokensLoop, hseg, if_neg hne, or_true, if_true]
  cases runPipeline dev command sh toks <;> rfl

theorem tokensLoop_last (hne : texts ≠ []) (hand : ∀ t ∈ texts, t ≠ lit "&&") :
    tokensLoop dev command (fuel + 1) sh (textTokens texts) =
      runPipeline dev command sh (textTokens texts) := by
  refine tokensLoop_seg fuel (fun h => hne (List.map_eq_nil_iff.1 h)) fun t ht => ?_
  obtain ⟨x, hx, rfl⟩ := List.mem_map.1 ht
  exact hand x hx

theorem tokensLoop_and (hne : texts ≠ []) (hand : ∀ t ∈ texts, t ≠ lit "&&")
    (rest : List (List Byte)) :
    tokensLoop dev command (fuel + 1) sh (textTokens (texts ++ lit "&&" :: rest)) =
      (runPipeline dev command sh (textTokens texts)).bind fun r =>
        if r.2 ≠ 0 then some r else tokensLoop dev command fuel r.1 (textTokens rest) := by
  have hseg := takeWhile_textTokens sh.ops (texts ++ lit "&&" :: rest) (lit "&&")
  have hempty : textTokens texts ≠ [] := fun h => hne (List.map_eq_nil_iff.1 h)
  have hdrop := drop_textTokens texts (lit "&&") rest
  have hlen := length_textTokens_ne texts (lit "&&") rest
  rw [takeWhile_append_of_plain hand] at hseg
  simp only [tokensLoop, hseg, if_neg hempty, hlen, hdrop, or_false]

theorem runLine_of_spells {ws : List Word} (h : Spells ws line)
    (hlen : ws.length < argvMax) :
    runLine dev command sh line =
      tokensLoop dev command (ws.length + 1) sh (textTokens (ws.map Word.text)) := by
  rw [runLine, splitArgs_spells sh.ops h hlen, runTokens, List.length_map, textTokens, List.map_map]
  rfl

/-- **A line without operators calls its command once.** -/
theorem runLine_of_plain {ws : List Word} (h : Spells ws line) (hne : ws ≠ [])
    (hlen : ws.length < argvMax) (hplain : ∀ w ∈ ws, w.text ∉ operatorTexts) :
    runLine dev command sh line =
      runCommand command ⟨expandArgs sh (ws.map Word.text), none⟩ sh := by
  have hplain' : ∀ t ∈ ws.map Word.text, t ∉ operatorTexts := by
    intro t ht
    obtain ⟨w, hw, rfl⟩ := List.mem_map.1 ht
    exact hplain w hw
  have hne' : ws.map Word.text ≠ [] := fun h => hne (List.map_eq_nil_iff.1 h)
  rw [runLine_of_spells h hlen, tokensLoop_last _ hne' (ne_of_plain hplain' (by simp [operatorTexts])),
    runPipeline_one hne' (ne_of_plain hplain' (by simp [operatorTexts])), runStage_of_plain hplain' (by rw [List.length_map]; exact hlen), Option.map_map]
  exact Option.map_id_apply

end Tnu.Shell
