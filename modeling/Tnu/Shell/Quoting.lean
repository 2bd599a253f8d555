/-
**Quoted arguments.**

`split_args` takes the quotes of an argument out, and the passes behind it look at its text alone: an
argument that is an operator is obeyed, a leading tilde and a star are expanded, and `==` between two
words makes a comparison of the line.

Main definitions:

* `only` — the command that tells one call from all others.

Main results:

* `runStage_only`, `runLine_only_of_operator` — an operator in quotes is obeyed;
* `delivers_iff` — **exactly when a quoted argument is delivered**.
-/

import Tnu.Shell.Line
import Tnu.User.Accounts

set_option autoImplicit false

namespace Tnu.Shell

open Vfs User

/-! ### The law -/

/-- A command line with an argument in quotes, and words in front of it and behind it. -/
structure QuotedArg where
  cmd : Word
  pre : List Word
  quote : Byte
  arg : List Byte
  post : List Word

def QuotedArg.words (l : QuotedArg) : List Word := l.cmd :: l.pre ++ ⟨some l.quote, l.arg⟩ :: l.post

def QuotedArg.front (l : QuotedArg) (sh : Sh) : List (List Byte) :=
  l.cmd.text :: l.pre.flatMap fun w => expandArg sh w.text

def QuotedArg.back (l : QuotedArg) (sh : Sh) : List (List Byte) :=
  l.post.flatMap fun w => expandArg sh w.text

def QuotedArg.argv (l : QuotedArg) (sh : Sh) : List (List Byte) := l.front sh ++ l.arg :: l.back sh

/-- The line fits the limits of the shell, and no other word is an operator. -/
structure QuotedArg.Fits (l : QuotedArg) (sh : Sh) (line : List Byte) : Prop where
  spells : Spells l.words line
  words : l.words.length < argvMax
  others : ∀ w ∈ l.cmd :: l.pre ++ l.post, w.text ∉ operatorTexts
  argv : (l.argv sh).length < argvMax

/-- The line comes to one call of its command with these arguments, whatever the command does. -/
def Delivers (dev : Sys.Devices) (sh : Sh) (line : List Byte) (argv : List (List Byte)) : Prop :=
  ∀ command : Command, runLine dev command sh line = command ⟨argv, none⟩ sh

/-- The line is a comparison for `run_command`. -/
def IsComparison (argv : List (List Byte)) : Prop :=
  ∃ a b, argv = [a, lit "==", b] ∨ argv = [a, lit "!=", b]

/-- The argument stands for itself; or it stands for more, but the vector is full before that shows. -/
def StandsForItself (l : QuotedArg) (sh : Sh) : Prop :=
  expandArg sh l.arg = [l.arg] ∨
    (l.argv sh).length + 1 = argvMax ∧ l.arg :: l.back sh <+: expandArg sh l.arg ++ l.back sh

/-- A text without quotes, backslashes and control characters, and not empty. -/
def Quotable (s : List Byte) : Prop :=
  s ≠ [] ∧ ∀ c ∈ s, isQuote c = false ∧ c ≠ 92 ∧ 32 ≤ c ∧ c ≠ 127

/-! ### One call and all others -/

def only (target : Call) : Command := fun call sh => if call = target then some (sh, 77) else none

variable {dev : Sys.Devices} {sh sh' : Sh} {line : List Byte} {l : QuotedArg} {target call : Call} {rc : ℤ}

theorem only_self (target : Call) (sh : Sh) : only target target sh = some (sh, 77) := if_pos rfl

theorem only_of_ne (h : call ≠ target) : only target call sh = none := if_neg h

theorem runCommand_only_of_ne (h : call ≠ target)
    (hrun : runCommand (only target) call sh = some (sh', rc)) : sh' = sh ∧ (rc = 0 ∨ rc = 1) := by
  rw [runCommand] at hrun
  split at hrun
  · obtain ⟨rfl, rfl⟩ := Prod.mk.inj (Option.some.inj hrun)
    exact ⟨rfl, .inl rfl⟩
  · split_ifs at hrun <;>
      first
        | (obtain ⟨rfl, rfl⟩ := Prod.mk.inj (Option.some.inj hrun); simp)
        | (rw [only_of_ne h] at hrun; cases hrun)
  · rw [only_of_ne h] at hrun
    cases hrun

theorem runCommand_of_comparison {argv : List (List Byte)} (h : IsComparison argv) (command : Command)
    (sh : Sh) (stdin : Option (List Byte)) :
    ∃ rc, runCommand command ⟨argv, stdin⟩ sh = some (sh, rc) ∧ (rc = 0 ∨ rc = 1) := by
  obtain ⟨a, b, rfl | rfl⟩ := h
  · refine ⟨if a = b then 0 else 1, by simp only [runCommand, if_true], ?_⟩
    split_ifs <;> simp
  · have hne : lit "!=" ≠ lit "==" := by decide
    refine ⟨if a = b then 1 else 0, by simp only [runCommand, hne, if_false, if_true], ?_⟩
    split_ifs <;> simp

theorem runCommand_of_not_comparison {argv : List (List Byte)} (hne : argv ≠ []) (h : ¬ IsComparison argv)
    (command : Command) (stdin : Option (List Byte)) :
    runCommand command ⟨argv, stdin⟩ sh = command ⟨argv, stdin⟩ sh := by
  rw [runCommand]
  split
  · rename_i hargv
    exact absurd hargv hne
  · rename_i a op b hargv
    have hargv : argv = [a, op, b] := hargv
    rw [if_neg, if_neg]
    · rintro rfl
      exact h ⟨a, b, .inr hargv⟩
    · rintro rfl
      exact h ⟨a, b, .inl hargv⟩
  · rfl

variable {toks argv' : List (List Byte)} {stdin : Option (List Byte)}
  {r : Sh × ℤ × Option (List Byte)}

theorem finishStage_rc {output : Option (List Byte)} {capture : Bool}
    (h : finishStage dev sh rc output capture = some r) : r.2.1 = rc ∨ r.2.1 = 1 := by
  unfold finishStage at h
  cases output with
  | none =>
    obtain rfl := Option.some.inj h
    exact .inl rfl
  | some path =>
    obtain ⟨written, -, rfl⟩ := Option.map_eq_some_iff.1 h
    by_cases hok : written.2 = true
    · rw [if_pos hok]
      exact .inl rfl
    · rw [if_neg hok]
      exact .inr rfl

theorem runStage_only {capture : Bool}
    (hcall : ∀ parts input, scanStage ⟨[], none, none⟩ toks = .ok parts →
      stageInput sh stdin parts.input = .ok input → (⟨expandArgs sh parts.argv, input⟩ : Call) ≠ target)
    (h : runStage dev (only target) sh toks stdin capture = some r) : r.2.1 ≠ 77 := by
  rw [runStage] at h
  cases hparts : scanStage ⟨[], none, none⟩ toks with
  | error tok =>
    rw [hparts] at h
    obtain rfl := Option.some.inj h
    norm_num
  | ok parts =>
    rw [hparts] at h
    dsimp only at h
    cases hinput : stageInput sh stdin parts.input with
    | error path =>
      rw [hinput] at h
      obtain rfl := Option.some.inj h
      norm_num
    | ok input =>
      rw [hinput] at h
      dsimp only at h
      have hne := hcall parts input hparts hinput
      split_ifs at h
      · obtain ⟨⟨sh', rc⟩, hrun, rfl⟩ := Option.map_eq_some_iff.1 h
        obtain ⟨-, rfl | rfl⟩ := runCommand_only_of_ne hne hrun <;> norm_num
      · obtain ⟨⟨sh', rc⟩, hrun, hfinish⟩ := Option.bind_eq_some_iff.1 h
        obtain ⟨-, hrc⟩ := runCommand_only_of_ne hne hrun
        rcases finishStage_rc hfinish with hr | hr
        · rw [hr]
          rcases hrc with rfl | rfl <;> norm_num
        · rw [hr]
          norm_num

/-! ### Operators in quotes -/

theorem length_expandArgs_le (sh : Sh) (cmd : List Byte) (args : List (List Byte)) :
    (expandArgs sh (cmd :: args)).length ≤ 1 + (args.flatMap (expandArg sh)).length := by
  rw [expandArgs_eq, List.length_take, List.length_cons]
  omega

theorem length_tail_expand (sh : Sh) (args : List (List Byte)) :
    (expandArgs sh args).length ≤ (args.flatMap (expandArg sh)).length := by
  cases args with
  | nil => rfl
  | cons arg args =>
    have hpos : 0 < (expandArg sh arg).length := List.length_pos_iff.2 (expandArg_ne_nil sh arg)
    refine (length_expandArgs_le sh arg args).trans ?_
    rw [List.flatMap_cons, List.length_append]
    omega

theorem flatMap_map_text (sh : Sh) (ws : List Word) :
    (ws.map Word.text).flatMap (expandArg sh) = ws.flatMap fun w => expandArg sh w.text := by
  rw [List.flatMap_map]

theorem call_ne_of_length {argv : List (List Byte)} {input : Option (List Byte)}
    (h : argv.length < argv'.length) : (⟨argv, input⟩ : Call) ≠ ⟨argv', stdin⟩ := by
  intro he
  rw [(Call.mk.inj he).1] at h
  exact lt_irrefl _ h

theorem call_ne_of_stdin {argv : List (List Byte)} {text : List Byte} :
    (⟨argv, some text⟩ : Call) ≠ ⟨argv', none⟩ := by
  intro he
  exact Option.some_ne_none _ (Call.mk.inj he).2

def QuotedArg.frontTexts (l : QuotedArg) : List (List Byte) := (l.cmd :: l.pre).map Word.text

def QuotedArg.backTexts (l : QuotedArg) : List (List Byte) := l.post.map Word.text

theorem QuotedArg.map_words (l : QuotedArg) :
    l.words.map Word.text = l.frontTexts ++ l.arg :: l.backTexts := by
  simp only [QuotedArg.words, QuotedArg.frontTexts, QuotedArg.backTexts, List.map_append, List.map_cons,
    List.cons_append]

theorem QuotedArg.Fits.front_plain (h : l.Fits sh line) : ∀ t ∈ l.frontTexts, t ∉ operatorTexts := by
  intro t ht
  obtain ⟨w, hw, rfl⟩ := List.mem_map.1 ht
  exact h.others w (List.mem_append_left _ hw)

theorem QuotedArg.Fits.back_plain (h : l.Fits sh line) : ∀ t ∈ l.backTexts, t ∉ operatorTexts := by
  intro t ht
  obtain ⟨w, hw, rfl⟩ := List.mem_map.1 ht
  exact h.others w (List.mem_append_right _ hw)

theorem QuotedArg.length_front (l : QuotedArg) (sh : Sh) :
    (expandArgs sh l.frontTexts).length ≤ (l.front sh).length := by
  refine (length_expandArgs_le sh l.cmd.text (l.pre.map Word.text)).trans ?_
  rw [flatMap_map_text, QuotedArg.front, List.length_cons]
  omega

theorem QuotedArg.length_back (l : QuotedArg) (sh : Sh) :
    (expandArgs sh l.backTexts).length ≤ (l.back sh).length := by
  refine (length_tail_expand sh l.backTexts).trans ?_
  rw [QuotedArg.backTexts, flatMap_map_text, QuotedArg.back]

theorem QuotedArg.length_argv (l : QuotedArg) (sh : Sh) :
    (l.argv sh).length = (l.front sh).length + ((l.back sh).length + 1) := by
  rw [QuotedArg.argv, List.length_append, List.length_cons]

theorem plain_call_ne
    (hplain : ∀ t ∈ toks, t ∉ operatorTexts) (hlen : toks.length < argvMax)
    (hne : (⟨expandArgs sh toks, stdin⟩ : Call) ≠ target) :
    ∀ parts input, scanStage ⟨[], none, none⟩ toks = .ok parts →
      stageInput sh stdin parts.input = .ok input → (⟨expandArgs sh parts.argv, input⟩ : Call) ≠ target := by
  intro parts input hparts hinput
  rw [scanStage_of_plain hplain hlen] at hparts
  obtain rfl := Except.ok.inj hparts
  obtain rfl := Except.ok.inj hinput
  exact hne

theorem runPipeline_only {texts : List (List Byte)} (hne : texts ≠ [])
    (hplain : ∀ t ∈ texts, t ∉ operatorTexts) (hlen : texts.length < argvMax)
    (hcall : (⟨expandArgs sh texts, none⟩ : Call) ≠ target)
    (h : runPipeline dev (only target) sh (textTokens texts) = some (sh', rc)) :
    sh' = sh ∧ (rc = 0 ∨ rc = 1) := by
  rw [runPipeline_one hne (ne_of_plain hplain (by simp [operatorTexts])), runStage_of_plain hplain hlen,
    Option.map_map] at h
  obtain ⟨r, hrun, hr⟩ := Option.map_eq_some_iff.1 h
  obtain ⟨rfl, rfl⟩ := Prod.mk.inj hr
  exact runCommand_only_of_ne hcall hrun

theorem scanStage_redirected {front back : List (List Byte)} {op : List Byte}
    (hop : op = lit "<" ∨ op = lit ">") (hfront : ∀ t ∈ front, t ∉ operatorTexts)
    (hback : ∀ t ∈ back, t ∉ operatorTexts) (hlen : (front ++ op :: back).length < argvMax)
    {parts : StageParts} (h : scanStage ⟨[], none, none⟩ (front ++ op :: back) = .ok parts) :
    parts.argv = front ++ back.tail := by
  rw [List.length_append, List.length_cons] at hlen
  have hside : ∀ {texts : List (List Byte)}, (∀ t ∈ texts, t ∉ operatorTexts) →
      ∀ t ∈ texts, t ≠ lit "<" ∧ t ≠ lit ">" := fun hplain t ht =>
    ⟨ne_of_plain hplain (by simp [operatorTexts]) t ht, ne_of_plain hplain (by simp [operatorTexts]) t ht⟩
  rw [scanStage_append _ (hside hfront) _ (by simp only [List.length_nil]; omega)] at h
  simp only [List.nil_append] at h
  have hroom : ¬ argvMax - 1 ≤ front.length := by omega
  cases back with
  | nil =>
    simp only [scanStage, if_neg hroom, hop, if_true] at h
    cases h
  | cons path back =>
    rw [List.length_cons] at hlen
    have hrest : ∀ parts : StageParts, parts.argv = front →
        scanStage parts back = .ok { parts with argv := parts.argv ++ back } := by
      intro parts hargv
      have happend := scanStage_append parts
        (hside fun t ht => hback t (List.mem_cons_of_mem _ ht)) [] (by rw [hargv]; omega)
      rw [List.append_nil] at happend
      rw [happend, scanStage]
    have hne : lit "<" ≠ lit ">" := by decide
    rcases hop with rfl | rfl
    · simp only [scanStage, if_neg hroom, hne, if_false, if_true, hrest] at h
      obtain rfl := Except.ok.inj h
      rfl
    · simp only [scanStage, if_neg hroom, if_true, hrest] at h
      obtain rfl := Except.ok.inj h
      rfl

theorem QuotedArg.Fits.words_lt (h : l.Fits sh line) :
    l.frontTexts.length + (l.backTexts.length + 1) < argvMax := by
  have hlen := congrArg List.length l.map_words
  rw [List.length_map, List.length_append, List.length_cons] at hlen
  rw [← hlen]
  exact h.words

theorem QuotedArg.frontTexts_ne_nil (l : QuotedArg) : l.frontTexts ≠ [] := List.cons_ne_nil _ _

theorem QuotedArg.front_call_ne (l : QuotedArg) (sh : Sh) (stdin : Option (List Byte)) :
    (⟨expandArgs sh l.frontTexts, stdin⟩ : Call) ≠ ⟨l.argv sh, none⟩ := by
  have hfront := l.length_front sh
  have hargv := l.length_argv sh
  exact call_ne_of_length (by omega)

theorem QuotedArg.back_call_ne (l : QuotedArg) (sh : Sh) (stdin : Option (List Byte)) :
    (⟨expandArgs sh l.backTexts, stdin⟩ : Call) ≠ ⟨l.argv sh, none⟩ := by
  have hback := l.length_back sh
  have hargv := l.length_argv sh
  exact call_ne_of_length (by omega)

theorem QuotedArg.redirected_call_ne (l : QuotedArg) (sh : Sh) (input : Option (List Byte)) :
    (⟨expandArgs sh (l.frontTexts ++ l.backTexts.tail), input⟩ : Call) ≠ ⟨l.argv sh, none⟩ := by
  have hexpand := length_expandArgs_le sh l.cmd.text (l.pre.map Word.text ++ l.backTexts.tail)
  have htail : (l.backTexts.tail.flatMap (expandArg sh)).length ≤ (l.back sh).length := by
    rw [QuotedArg.back, ← flatMap_map_text, QuotedArg.backTexts]
    cases l.post.map Word.text with
    | nil => exact le_rfl
    | cons t texts =>
      rw [List.tail_cons, List.flatMap_cons, List.length_append]
      exact Nat.le_add_left _ _
  have hfront : (l.front sh).length = 1 + ((l.pre.map Word.text).flatMap (expandArg sh)).length := by
    rw [QuotedArg.front, ← flatMap_map_text, List.length_cons, add_comm]
  have hargv := l.length_argv sh
  rw [List.flatMap_append, List.length_append] at hexpand
  refine call_ne_of_length (lt_of_le_of_lt hexpand ?_)
  omega

theorem runLine_only_of_redirection (hfits : l.Fits sh line) {op : List Byte}
    (hop : op = lit "<" ∨ op = lit ">") (harg : l.arg = op) :
    runLine dev (only ⟨l.argv sh, none⟩) sh line ≠ some (sh, 77) := by
  intro hrun
  have hwords := hfits.words_lt
  have hnone : ∀ {op' : List Byte}, op' ∈ operatorTexts → op' ≠ lit "<" → op' ≠ lit ">" →
      ∀ t ∈ l.frontTexts ++ op :: l.backTexts, t ≠ op' := by
    intro op' hmem hin hout t ht
    rcases List.mem_append.1 ht with ht | ht
    · exact ne_of_plain hfits.front_plain hmem t ht
    · rcases List.mem_cons.1 ht with rfl | ht
      · rcases hop with rfl | rfl
        · exact hin.symm
        · exact hout.symm
      · exact ne_of_plain hfits.back_plain hmem t ht
  have hne : l.frontTexts ++ op :: l.backTexts ≠ [] := by simp
  rw [runLine_of_spells hfits.spells hfits.words, l.map_words, harg,
    tokensLoop_last _ hne (hnone (by simp [operatorTexts]) (by decide) (by decide)),
    runPipeline_one hne (hnone (by simp [operatorTexts]) (by decide) (by decide))] at hrun
  obtain ⟨r, hstage, hr⟩ := Option.map_eq_some_iff.1 hrun
  refine runStage_only ?_ hstage (congrArg Prod.snd hr)
  intro parts input hparts _
  have hlen : (l.frontTexts ++ op :: l.backTexts).length < argvMax := by
    rw [List.length_append, List.length_cons]
    exact hwords
  rw [scanStage_redirected hop hfits.front_plain hfits.back_plain hlen hparts]
  exact l.redirected_call_ne sh input

theorem runLine_only_of_pipe (hfits : l.Fits sh line) (harg : l.arg = lit "|") :
    runLine dev (only ⟨l.argv sh, none⟩) sh line ≠ some (sh, 77) := by
  intro hrun
  have hwords := hfits.words_lt
  have hand : ∀ t ∈ l.frontTexts ++ lit "|" :: l.backTexts, t ≠ lit "&&" := by
    intro t ht
    rcases List.mem_append.1 ht with ht | ht
    · exact ne_of_plain hfits.front_plain (by simp [operatorTexts]) t ht
    · rcases List.mem_cons.1 ht with rfl | ht
      · decide
      · exact ne_of_plain hfits.back_plain (by simp [operatorTexts]) t ht
  have hfuel : (textTokens (l.frontTexts ++ lit "|" :: l.backTexts)).length + 1 =
      l.pre.length + l.backTexts.length + 2 + 1 := by
    simp only [textTokens, QuotedArg.frontTexts, List.length_map, List.length_append, List.length_cons]
    omega
  rw [runLine_of_spells hfits.spells hfits.words, l.map_words, harg, tokensLoop_last _ (by simp) hand,
    runPipeline, hfuel, pipelineLoop_bar _ (ne_of_plain hfits.front_plain (by simp [operatorTexts]))] at hrun
  obtain ⟨⟨sh₁, rc, out⟩, hstage, hrest⟩ := Option.bind_eq_some_iff.1 hrun
  have hrc := runStage_only (plain_call_ne hfits.front_plain (by omega) (l.front_call_ne sh none)) hstage
  by_cases hempty : l.backTexts = []
  · rw [hempty] at hrest
    have hlast : (sh₁.piped true out, rc) = (sh, 77) := Option.some.inj hrest
    exact hrc (Prod.mk.inj hlast).2
  · rw [pipelineLoop_last _ hempty (ne_of_plain hfits.back_plain (by simp [operatorTexts]))] at hrest
    obtain ⟨r, hstage', hr⟩ := Option.map_eq_some_iff.1 hrest
    refine runStage_only ?_ hstage' (congrArg Prod.snd hr)
    exact plain_call_ne hfits.back_plain (by omega) call_ne_of_stdin

theorem runLine_only_of_and (hfits : l.Fits sh line) (harg : l.arg = lit "&&") :
    runLine dev (only ⟨l.argv sh, none⟩) sh line ≠ some (sh, 77) := by
  intro hrun
  have hwords := hfits.words_lt
  have hfuel : l.words.length + 1 = l.pre.length + l.post.length + 1 + 1 + 1 := by
    simp only [QuotedArg.words, List.length_append, List.length_cons]
    omega
  rw [runLine_of_spells hfits.spells hfits.words, l.map_words, harg, hfuel,
    tokensLoop_and _ l.frontTexts_ne_nil (ne_of_plain hfits.front_plain (by simp [operatorTexts]))] at hrun
  obtain ⟨⟨sh₁, rc⟩, hpipe, hrest⟩ := Option.bind_eq_some_iff.1 hrun
  obtain ⟨rfl, hrc⟩ := runPipeline_only l.frontTexts_ne_nil hfits.front_plain (by omega)
    (l.front_call_ne sh none) hpipe
  rcases hrc with rfl | rfl
  · by_cases hempty : l.backTexts = []
    · rw [hempty] at hrest
      cases hrest
    · simp only [ne_eq, not_true_eq_false, if_false] at hrest
      rw [tokensLoop_last _ hempty (ne_of_plain hfits.back_plain (by simp [operatorTexts]))] at hrest
      obtain ⟨-, hrc⟩ := runPipeline_only hempty hfits.back_plain (by omega) (l.back_call_ne sh₁ none) hrest
      rcases hrc with hrc | hrc <;> norm_num at hrc
  · simp only [ne_eq, one_ne_zero, not_false_eq_true, if_true, Option.some.injEq, Prod.mk.injEq] at hrest
    exact absurd hrest.2 (by norm_num)

/-- **An operator in quotes is obeyed**: the call is not made. -/
theorem runLine_only_of_operator (hfits : l.Fits sh line) (hop : l.arg ∈ operatorTexts) :
    runLine dev (only ⟨l.argv sh, none⟩) sh line ≠ some (sh, 77) := by
  simp only [operatorTexts, List.mem_cons, List.not_mem_nil, or_false] at hop
  rcases hop with hop | hop | hop | hop
  · exact runLine_only_of_pipe hfits hop
  · exact runLine_only_of_redirection hfits (.inl rfl) hop
  · exact runLine_only_of_redirection hfits (.inr rfl) hop
  · exact runLine_only_of_and hfits hop

/-! ### Delivery -/

theorem QuotedArg.expandArgs_eq (l : QuotedArg) (sh : Sh) :
    expandArgs sh (l.words.map Word.text) =
      (l.front sh ++ (expandArg sh l.arg ++ l.back sh)).take (argvMax - 1) := by
  rw [l.map_words, QuotedArg.frontTexts, List.map_cons, List.cons_append, Shell.expandArgs_eq,
    List.flatMap_append, List.flatMap_cons, flatMap_map_text, QuotedArg.backTexts, flatMap_map_text]
  rfl

theorem expandArgs_eq_argv_iff (hroom : (l.argv sh).length < argvMax) :
    expandArgs sh (l.words.map Word.text) = l.argv sh ↔ StandsForItself l sh := by
  have hlen := l.length_argv sh
  have hpos : 0 < (expandArg sh l.arg).length := List.length_pos_iff.2 (expandArg_ne_nil sh l.arg)
  rw [l.expandArgs_eq, QuotedArg.argv, List.take_append,
    List.take_of_length_le (by omega : (l.front sh).length ≤ argvMax - 1), List.append_cancel_left_eq]
  have hroom' : (l.back sh).length + 1 ≤ argvMax - 1 - (l.front sh).length := by omega
  constructor
  · intro htake
    by_cases hone : (expandArg sh l.arg).length = 1
    · obtain ⟨x, hx⟩ := List.length_eq_one_iff.1 hone
      rw [hx, List.singleton_append, List.take_of_length_le (by rw [List.length_cons]; omega)] at htake
      exact .inl (by rw [hx, (List.cons.inj htake).1])
    · refine .inr ⟨?_, htake ▸ List.take_prefix _ _⟩
      -- the vector is cut, so it is full
      have hcut := congrArg List.length htake
      rw [List.length_take, List.length_append, List.length_cons] at hcut
      omega
  · rintro (hself | ⟨hfull, hpre⟩)
    · rw [hself, List.singleton_append, List.take_of_length_le]
      rw [List.length_cons]
      omega
    · have hcount : argvMax - 1 - (l.front sh).length = (l.arg :: l.back sh).length := by
        rw [List.length_cons]
        omega
      rw [hcount, ← List.prefix_iff_eq_take.1 hpre]

theorem QuotedArg.argv_ne_nil (l : QuotedArg) (sh : Sh) : l.argv sh ≠ [] := List.cons_ne_nil _ _

theorem QuotedArg.Fits.runLine (hfits : l.Fits sh line) (hop : l.arg ∉ operatorTexts) (command : Command) :
    Shell.runLine dev command sh line =
      runCommand command ⟨expandArgs sh (l.words.map Word.text), none⟩ sh := by
  refine runLine_of_plain hfits.spells (List.cons_ne_nil _ _) hfits.words fun w hw => ?_
  rcases List.mem_append.1 hw with hw | hw
  · exact hfits.others w (List.mem_append_left _ hw)
  · rcases List.mem_cons.1 hw with rfl | hw
    · exact hop
    · exact hfits.others w (List.mem_append_right _ hw)

/-- **Exactly when a quoted argument is delivered**: it is no operator, the line is no comparison, and
the argument stands for itself. -/
theorem delivers_iff (hfits : l.Fits sh line) :
    Delivers dev sh line (l.argv sh) ↔
      l.arg ∉ operatorTexts ∧ ¬ IsComparison (l.argv sh) ∧ StandsForItself l sh := by
  have hargv := expandArgs_eq_argv_iff (l := l) hfits.argv
  constructor
  · intro hdelivers
    have hrun : runLine dev (only ⟨l.argv sh, none⟩) sh line = some (sh, 77) := by
      rw [hdelivers, only_self]
    have hop : l.arg ∉ operatorTexts := fun hop => runLine_only_of_operator hfits hop hrun
    rw [hfits.runLine hop] at hrun
    have hself : expandArgs sh (l.words.map Word.text) = l.argv sh := by
      by_contra hne
      obtain ⟨-, hrc⟩ := runCommand_only_of_ne (fun he => hne (Call.mk.inj he).1) hrun
      rcases hrc with hrc | hrc <;> norm_num at hrc
    refine ⟨hop, fun hcomparison => ?_, hargv.1 hself⟩
    obtain ⟨rc, hrun', hrc⟩ := runCommand_of_comparison hcomparison (only ⟨l.argv sh, none⟩) sh none
    rw [hself, hrun'] at hrun
    obtain rfl : rc = 77 := (Prod.mk.inj (Option.some.inj hrun)).2
    rcases hrc with hrc | hrc <;> norm_num at hrc
  · rintro ⟨hop, hcomparison, hself⟩ command
    rw [hfits.runLine hop, hargv.2 hself,
      runCommand_of_not_comparison (l.argv_ne_nil sh) hcomparison]

/-- The shell on the tree of `vfs_init`, with one user. -/
def startSh : Sh where
  kernel := Sys.userKernel
  db := ⟨fun _ => rootRecord, 1, 0⟩
  console := ⟨false, 0, 0, [], []⟩
  ops := fun _ => []
  pipes := fun _ => []

theorem spells_two (cmd arg : Word) (hcmd : cmd.Ok) (harg : arg.Ok) :
    Spells [cmd, arg] (cmd.render ++ 32 :: arg.render) := by
  have hblank : ∀ c ∈ [(32 : Byte)], isBlank c = true := by
    intro c hc
    rw [List.mem_singleton.1 hc]
    rfl
  have hnone : ∀ c ∈ ([] : List Byte), isBlank c = true := fun c hc => absurd hc List.not_mem_nil
  have hlast : Spells [arg] ([32] ++ (arg.render ++ [])) :=
    .cons hblank harg (fun c hc => by cases hc) (.nil hnone)
  have hall : Spells [cmd, arg] ([] ++ (cmd.render ++ ([32] ++ (arg.render ++ [])))) :=
    .cons hnone hcmd (fun c hc => by cases hc; rfl) hlast
  simpa using hall

/-- The line `echo` with one quoted argument. -/
def echoArg (arg : List Byte) : QuotedArg := ⟨⟨none, lit "echo"⟩, [], 34, arg, []⟩

theorem fits_echoArg {arg : List Byte} (harg : Quotable arg) (sh : Sh) :
    (echoArg arg).Fits sh (lit "echo" ++ 32 :: (34 :: arg ++ [34])) where
  spells := by
    refine spells_two ⟨none, lit "echo"⟩ ⟨some 34, arg⟩ ⟨by decide, by decide +kernel, by decide +kernel⟩
      ⟨rfl, fun hmem => ?_⟩
    exact absurd (harg.2 34 hmem).1 (by decide)
  words := by norm_num [QuotedArg.words, echoArg]
  others := by
    intro w hw
    obtain rfl : w = ⟨none, lit "echo"⟩ := by simpa [echoArg] using hw
    decide
  argv := by norm_num [QuotedArg.argv, QuotedArg.front, QuotedArg.back, echoArg]

/-- Blanks and an operator in quotes. -/
theorem delivers_iff_echo :
    Delivers Sys.quietDevices startSh (lit "echo \"a | b\"") [lit "echo", lit "a | b"] ↔
      lit "a | b" ∉ operatorTexts ∧ ¬ IsComparison [lit "echo", lit "a | b"] ∧
        StandsForItself (echoArg (lit "a | b")) startSh :=
  delivers_iff (fits_echoArg (show Quotable (lit "a | b") from ⟨by decide, by decide +kernel⟩) startSh)

/-- A single operator in quotes is obeyed. -/
theorem not_delivers :
    ¬ ∀ (sh : Sh) (line : List Byte) (l : QuotedArg), Quotable l.arg → isQuote l.quote = true →
      line.length < lineMax → l.Fits sh line → Delivers Sys.quietDevices sh line (l.argv sh) := by
  intro hall
  have hquotable : Quotable (lit "|") := ⟨by decide, by decide +kernel⟩
  have hfits := fits_echoArg hquotable startSh
  have hdelivers := hall startSh _ (echoArg (lit "|")) hquotable rfl (by decide) hfits
  exact runLine_only_of_operator hfits (by decide) ((hdelivers _).trans (only_self _ _))

end Tnu.Shell
