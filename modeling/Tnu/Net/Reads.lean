/-
**Reading received bytes.**

The handlers of `kernel/drivers/net/net.c` read what was received through a pointer and a length.  Here a read
behind the end has no result, so that a handler with a result has read only what was received.

Main definitions:

* `be16`, `be32` — two and four bytes, the highest first.

Main results:

* `exists_getElem?`, `exists_be16`, `exists_be32` — reads that stay inside;
* `be16_append` — reading behind the front of a message.
-/

import Tnu.CString

set_option autoImplicit false

namespace Tnu.Net

def be16 (msg : List Byte) (i : ℕ) : Option UInt16 := do
  pure ((← msg[i]?).toUInt16 <<< 8 ||| (← msg[i + 1]?).toUInt16)

def be32 (msg : List Byte) (i : ℕ) : Option UInt32 := do
  pure ((← msg[i]?).toUInt32 <<< 24 ||| (← msg[i + 1]?).toUInt32 <<< 16 ||| (← msg[i + 2]?).toUInt32 <<< 8 |||
    (← msg[i + 3]?).toUInt32)

variable {msg : List Byte} {i : ℕ}

theorem exists_getElem? (h : i < msg.length) : ∃ b, msg[i]? = some b := ⟨_, List.getElem?_eq_getElem h⟩

theorem exists_be16 (msg : List Byte) (i : ℕ) (h : i + 2 ≤ msg.length) : ∃ v, be16 msg i = some v := by
  obtain ⟨a, ha⟩ := exists_getElem? (show i < msg.length by omega)
  obtain ⟨b, hb⟩ := exists_getElem? (show i + 1 < msg.length by omega)
  exact ⟨_, by rw [be16, ha, hb]; rfl⟩

theorem exists_be32 (msg : List Byte) (i : ℕ) (h : i + 4 ≤ msg.length) : ∃ v, be32 msg i = some v := by
  obtain ⟨a, ha⟩ := exists_getElem? (show i < msg.length by omega)
  obtain ⟨b, hb⟩ := exists_getElem? (show i + 1 < msg.length by omega)
  obtain ⟨c, hc⟩ := exists_getElem? (show i + 2 < msg.length by omega)
  obtain ⟨d, hd⟩ := exists_getElem? (show i + 3 < msg.length by omega)
  exact ⟨_, by rw [be32, ha, hb, hc, hd]; rfl⟩

theorem be16_append (front : List Byte) (i : ℕ) : be16 (front ++ msg) (front.length + i) = be16 msg i := by
  have hget : ∀ j, (front ++ msg)[front.length + j]? = msg[j]? := fun j => by
    rw [List.getElem?_append_right (by omega), Nat.add_sub_cancel_left]
  rw [be16, be16, Nat.add_assoc, hget, hget]

end Tnu.Net
