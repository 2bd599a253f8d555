/-
**The kernel log.**

`kernel/core/log.c` keeps what was logged as a string in a buffer of 16384 bytes, of which the
terminator takes one.  A line that would not fit loses its front; then the text that is there is
moved down as far as the line needs.  Every access is checked against the buffer: a function that
leaves it has no result.

Main definitions:

* `appendLog`, `logInit`, `logBuffer` — the functions.

Main result:

* `log_keeps_tail` — **the log is the tail of everything that was logged**.
-/

import Tnu.Memory

set_option autoImplicit false

namespace Tnu.Log

/-! ### The buffer -/

def logBufferSize : ℕ := 16384

theorem logBufferSize_eq : logBufferSize = 16384 := rfl

/-- The static variables. -/
structure State where
  logRing : List Byte
  logLen : ℕ

def boot : State := ⟨.replicate logBufferSize 0, 0⟩

/-- Reading `n` bytes of an array. -/
def bytesOf (l : List Byte) (src n : ℕ) : Option (List Byte) :=
  if src + n ≤ l.length then some ((l.drop src).take n) else none

/-- `memcpy` and `memmove` into an array, from bytes that were read. -/
def put (l : List Byte) (dst : ℕ) (bytes : List Byte) : Option (List Byte) :=
  if dst + bytes.length ≤ l.length then some (l.take dst ++ bytes ++ l.drop (dst + bytes.length))
  else none

/-- `if (n >= LOG_BUFFER_SIZE)`: a line that is too long is cut to its end. -/
def lastPart (line : List Byte) : List Byte :=
  if logBufferSize ≤ line.length then line.drop (line.length - logBufferSize + 1) else line

/-- `if (log_len + n >= LOG_BUFFER_SIZE)`: room is made for `n` bytes. -/
def makeRoom (s : State) (n : ℕ) : Option State :=
  if logBufferSize ≤ s.logLen + n then do
    let drop := s.logLen + n - logBufferSize + 1
    let moved ← bytesOf s.logRing drop (sub64 s.logLen drop)
    let ring ← put s.logRing 0 moved
    some ⟨ring, sub64 s.logLen drop⟩
  else some s

def appendLog (s : State) (line : CString) : Option State := do
  let text := lastPart line.chars
  let s ← makeRoom s text.length
  let ring ← put s.logRing s.logLen text
  let len := s.logLen + text.length
  let ring ← put ring len [0]
  some ⟨ring, len⟩

def logInit (s : State) : Option State := do
  let ring ← put s.logRing 0 [0]
  some ⟨ring, 0⟩

def logBuffer (s : State) : List Byte := s.logRing

/-! ### What it holds -/

/-- The buffer begins with a text, behind which the next one goes. -/
structure Begins (s : State) (text : List Byte) : Prop where
  ring : ∃ rest, s.logRing = text ++ rest
  logLen_eq : s.logLen = text.length
  size_eq : s.logRing.length = logBufferSize

/-- The string in the buffer is the end of what was logged. -/
structure Shows (s : State) (logged text : List Byte) : Prop where
  begins : Begins s text
  ended : s.logRing[s.logLen]? = some 0
  suffix : text <:+ logged
  length_eq : text.length = min (logBufferSize - 1) logged.length

variable {s : State} {logged text bytes : List Byte} {n : ℕ}

theorem Begins.put (h : Begins s text) (bytes : List Byte) (hfit : text.length + bytes.length ≤ logBufferSize) :
    ∃ ring, Log.put s.logRing s.logLen bytes = some ring ∧
      Begins ⟨ring, s.logLen + bytes.length⟩ (text ++ bytes) := by
  obtain ⟨rest, hring⟩ := h.ring
  have hsize := h.size_eq
  rw [h.logLen_eq, Log.put, if_pos (by omega)]
  have htake : s.logRing.take text.length = text := by rw [hring, List.take_left]
  rw [htake]
  refine ⟨_, rfl, ⟨_, rfl⟩, (List.length_append ..).symm, ?_⟩
  rw [List.length_append, List.length_append, List.length_drop]
  omega

/-- **Room is made** by moving the end of the text to the front. -/
theorem Begins.makeRoom (h : Begins s text) (hlt : text.length < logBufferSize)
    (hn : n < logBufferSize) :
    ∃ s' k, Log.makeRoom s n = some s' ∧ Begins s' (text.drop k) ∧
      k = text.length + n - (logBufferSize - 1) := by
  obtain ⟨rest, hring⟩ := h.ring
  have hsize := h.size_eq
  have hlen := h.logLen_eq
  have hvalue := logBufferSize_eq
  rw [Log.makeRoom]
  split_ifs with hfull
  · obtain ⟨k, hk⟩ : ∃ k, k = s.logLen + n - logBufferSize + 1 := ⟨_, rfl⟩
    have hkept : sub64 s.logLen k = text.length - k := by
      rw [sub64, word_eq]
      omega
    have hmoved : bytesOf s.logRing k (text.length - k) = some (text.drop k) := by
      rw [bytesOf, if_pos (by omega), hring, List.drop_append_of_le_length (by omega),
        List.take_left' (by rw [List.length_drop])]
    have hput : Log.put s.logRing 0 (text.drop k) =
        some (text.drop k ++ s.logRing.drop (0 + (text.drop k).length)) := by
      rw [Log.put, if_pos (by rw [List.length_drop]; omega), List.take_zero, List.nil_append]
    simp only [← hk, hkept, hmoved, hput, Option.bind_some, Option.bind_eq_bind]
    refine ⟨_, k, rfl, ⟨⟨_, rfl⟩, (List.length_drop ..).symm, ?_⟩, by omega⟩
    rw [List.length_append, List.length_drop, List.length_drop]
    omega
  · exact ⟨s, 0, rfl, h, by omega⟩

theorem lastPart_suffix (line : List Byte) : lastPart line <:+ line := by
  rw [lastPart]
  split_ifs
  · exact List.drop_suffix _ _
  · exact List.suffix_rfl

theorem length_lastPart (line : List Byte) :
    (lastPart line).length = min (logBufferSize - 1) line.length := by
  have hvalue := logBufferSize_eq
  rw [lastPart]
  split_ifs
  · rw [List.length_drop]
    omega
  · omega

/-- **A line goes behind the text**, of which the end is kept. -/
theorem Shows.appendLog (h : Shows s logged text) (line : CString) :
    ∃ s' text', Log.appendLog s line = some s' ∧ Shows s' (logged ++ line.chars) text' := by
  have hvalue := logBufferSize_eq
  have hpart := length_lastPart line.chars
  have hlen := h.length_eq
  obtain ⟨s₁, k, hroom, hkept, hk⟩ :=
    h.begins.makeRoom (n := (lastPart line.chars).length) (by omega) (by omega)
  have hrest : (text.drop k).length = text.length - k := List.length_drop
  obtain ⟨ring, hput, hboth⟩ := hkept.put (lastPart line.chars) (by omega)
  obtain ⟨ring', hput', hend⟩ := hboth.put [0] (by
    rw [List.length_append, List.length_singleton]
    omega)
  obtain ⟨rest, hring⟩ := hend.ring
  refine ⟨⟨ring', s₁.logLen + (lastPart line.chars).length⟩, text.drop k ++ lastPart line.chars, ?_,
    ⟨⟨[0] ++ rest, ?_⟩, hboth.logLen_eq, hend.size_eq⟩, ?_, ?_, ?_⟩
  · simp only [Log.appendLog, hroom, hput, hput', Option.bind_some, Option.bind_eq_bind]
  · rw [← List.append_assoc]
    exact hring
  · change ring'[s₁.logLen + (lastPart line.chars).length]? = some 0
    have hat : s₁.logLen + (lastPart line.chars).length = _ := hboth.logLen_eq
    rw [hat, show ring' = _ from hring, List.append_assoc, List.getElem?_append_right le_rfl,
      Nat.sub_self]
    rfl
  · obtain ⟨old, rfl⟩ := (List.drop_suffix k text).trans h.suffix
    obtain ⟨cut, hcut⟩ := lastPart_suffix line.chars
    rcases Nat.eq_zero_or_pos (text.drop k).length with hnone | hsome
    · rw [List.length_eq_zero_iff.1 hnone, List.nil_append, List.append_nil]
      exact ⟨old ++ cut, by rw [List.append_assoc, hcut]⟩
    · -- a line behind which something is kept was not cut
      have hwhole : cut = [] := by
        have hsum := congrArg List.length hcut
        rw [List.length_append] at hsum
        exact List.length_eq_zero_iff.1 (by omega)
      rw [hwhole, List.nil_append] at hcut
      exact ⟨old, by rw [hcut, List.append_assoc]⟩
  · rw [List.length_append, List.length_append, hrest, hpart]
    omega

theorem shows_logInit : ∃ s, logInit boot = some s ∧ Shows s [] [] := by
  have hsize : boot.logRing.length = logBufferSize := List.length_replicate
  have hvalue := logBufferSize_eq
  have hbegins : Begins boot [] := ⟨⟨_, rfl⟩, rfl, hsize⟩
  obtain ⟨ring, hput, hend⟩ := hbegins.put [0] (by
    rw [List.length_nil, List.length_singleton]
    omega)
  obtain ⟨rest, hring⟩ := hend.ring
  have hinit : logInit boot = some ⟨ring, 0⟩ := by
    rw [logInit]
    change (Log.put boot.logRing boot.logLen [0]).bind _ = _
    rw [hput, Option.bind_some]
  refine ⟨_, hinit, ⟨⟨_, rfl⟩, rfl, hend.size_eq⟩, ?_, List.suffix_rfl, by simp⟩
  change ring[0]? = some 0
  rw [show ring = _ from hring]
  rfl

theorem Shows.run (h : Shows s logged text) (lines : List CString) :
    ∃ s' text', lines.foldlM Log.appendLog s = some s' ∧
      Shows s' (logged ++ lines.flatMap CString.chars) text' := by
  induction lines generalizing s logged text with
  | nil => exact ⟨s, text, rfl, by rwa [List.flatMap_nil, List.append_nil]⟩
  | cons line lines ih =>
    obtain ⟨s', text', hline, hshows⟩ := h.appendLog line
    obtain ⟨s'', text'', hlines, hshows'⟩ := ih hshows
    refine ⟨s'', text'', ?_, ?_⟩
    · rw [List.foldlM_cons, hline]
      exact hlines
    · rwa [List.flatMap_cons, ← List.append_assoc]

/-- **The log keeps the tail**: after any lines no access has left the buffer, and the string in it
is made of the last bytes of all of them. -/
theorem log_keeps_tail (lines : List CString) :
    ∃ s, (logInit boot).bind (lines.foldlM appendLog) = some s ∧
      (logBuffer s).length = logBufferSize ∧
      (logBuffer s)[s.logLen]? = some 0 ∧
      s.logLen = min (lines.flatMap CString.chars).length 16383 ∧
      cstr (logBuffer s) = (lines.flatMap CString.chars).drop
        ((lines.flatMap CString.chars).length - min (lines.flatMap CString.chars).length 16383) := by
  obtain ⟨s₀, hinit, hstart⟩ := shows_logInit
  obtain ⟨s, text, hrun, hshows⟩ := hstart.run lines
  rw [List.nil_append] at hshows
  have hlen : text.length = min (lines.flatMap CString.chars).length 16383 :=
    hshows.length_eq.trans (Nat.min_comm _ _)
  have hfree : 0 ∉ text := by
    intro hmem
    obtain ⟨line, -, hchar⟩ := List.mem_flatMap.1 (hshows.suffix.subset hmem)
    exact line.nul_free hchar
  obtain ⟨rest, hring⟩ := hshows.begins.ring
  have hended := hshows.ended
  refine ⟨s, ?_, hshows.begins.size_eq, hended, hshows.begins.logLen_eq.trans hlen, ?_⟩
  · rw [hinit, Option.bind_some, hrun]
  · rw [hshows.begins.logLen_eq, hring, List.getElem?_append_right le_rfl, Nat.sub_self] at hended
    obtain ⟨c, rest', rfl⟩ : ∃ c rest', rest = c :: rest' := by
      cases rest with
      | nil => cases hended
      | cons c rest' => exact ⟨c, rest', rfl⟩
    obtain rfl : c = 0 := Option.some.inj hended
    rw [logBuffer, hring, cstr_append_zero hfree, ← hlen]
    exact List.suffix_iff_eq_drop.1 hshows.suffix

end Tnu.Log
