/-
**The two ring buffers of the keyboard driver.**

The keys for the terminal and the events for the event device wait in arrays with a place to read
and a place to write.  When the first is full a key is dropped, and its event with it; when the
second is full its oldest event is.  The driver's decoders work on the queues that the rings stand
for (`Drivers.Keyboard`); this module is about the rings themselves.

Main definitions:

* `pushKey`, `pushEvent`,
  `keyboardTryGetchar`, `keyboardTryGetEvent` — in and out;
* `Op`, `run` — calls in any order, and what went in and out.

Main results:

* `Stands.pushKey`, `Stands.pushEvent` — the queues of the
  decoders are those of the rings;
* `rings_are_queues` — **the rings are bounded queues**, in every run.
-/

import Tnu.Drivers.Keyboard
import Tnu.Lib.RingBuffer

set_option autoImplicit false

namespace Tnu.Drivers.Rings

/-! ### The driver -/

/-- The arrays and their positions. -/
structure KeyRings where
  buffer : RingBuffer ℤ kbdBuffer
  evtBuffer : RingBuffer UInt16 kbdEventBuffer

def boot : KeyRings where
  buffer := ⟨fun _ => 0, 0, 0, by decide, by decide⟩
  evtBuffer := ⟨fun _ => 0, 0, 0, by decide, by decide⟩

def pushEvent (k : KeyRings) (ev : UInt16) : KeyRings :=
  { k with evtBuffer := (if k.evtBuffer.Full then k.evtBuffer.skip else k.evtBuffer).store ev }

/-- The event of a key that is pushed, `(uint16_t)(key & 0x7fff)`. -/
def makeEvent (key : ℤ) : UInt16 := UInt16.ofNat (key % 0x8000).toNat

def pushKey (k : KeyRings) (key : ℤ) : KeyRings :=
  if k.buffer.Full then k else pushEvent { k with buffer := k.buffer.store key } (makeEvent key)

/-- What a decoder pushes. -/
inductive Push
  | key (key : ℤ)
  | event (ev : UInt16)

def push (k : KeyRings) : Push → KeyRings
  | .key key => pushKey k key
  | .event ev => pushEvent k ev

/-- `keyboard_poll`, by what the bytes that came in push. -/
def keyboardPoll (k : KeyRings) (came : List Push) : KeyRings := came.foldl push k

/-- `keyboard_try_getchar`; `none` stands for -1. -/
def keyboardTryGetchar (k : KeyRings) : KeyRings × Option ℤ :=
  ({ k with buffer := k.buffer.pop.1 }, k.buffer.pop.2)

/-- `keyboard_try_get_event`; `none` stands for -1. -/
def keyboardTryGetEvent (k : KeyRings) (came : List Push) : KeyRings × Option UInt16 :=
  let k := keyboardPoll k came
  ({ k with evtBuffer := k.evtBuffer.pop.1 }, k.evtBuffer.pop.2)

def keyboardInputAvailable (k : KeyRings) (came : List Push) : KeyRings × Bool :=
  let k := keyboardPoll k came
  (k, decide (k.buffer.readPos ≠ k.buffer.writePos))

def keyboardEventAvailable (k : KeyRings) (came : List Push) : KeyRings × Bool :=
  let k := keyboardPoll k came
  (k, decide (k.evtBuffer.readPos ≠ k.evtBuffer.writePos))

/-! ### Runs -/

/-- A call, with what its poll pushes. -/
inductive Op
  | poll (came : List Push)
  | getchar
  | getEvent (came : List Push)
  | inputAvailable (came : List Push)
  | eventAvailable (came : List Push)

/-- The rings, and what was pushed and popped so far. -/
structure History where
  rings : KeyRings
  keysIn : List ℤ
  keysOut : List ℤ
  eventsIn : List UInt16
  eventsOut : List UInt16

/-- The calls of `push_key` and `push_event` are put down. -/
def History.push (t : History) : Push → History
  | .key key =>
    { t with
      rings := pushKey t.rings key
      keysIn := t.keysIn ++ [key]
      eventsIn := t.eventsIn ++ if t.rings.buffer.Full then [] else [makeEvent key] }
  | .event ev => { t with rings := pushEvent t.rings ev, eventsIn := t.eventsIn ++ [ev] }

def History.poll (t : History) (came : List Push) : History := came.foldl History.push t

def step (t : History) : Op → History
  | .poll came => t.poll came
  | .getchar =>
    { t with
      rings := (keyboardTryGetchar t.rings).1
      keysOut := t.keysOut ++ (keyboardTryGetchar t.rings).2.toList }
  | .getEvent came =>
    { t.poll came with
      rings := (keyboardTryGetEvent t.rings came).1
      eventsOut := (t.poll came).eventsOut ++ (keyboardTryGetEvent t.rings came).2.toList }
  | .inputAvailable came => { t.poll came with rings := (keyboardInputAvailable t.rings came).1 }
  | .eventAvailable came => { t.poll came with rings := (keyboardEventAvailable t.rings came).1 }

def run (ops : List Op) : History := ops.foldl step ⟨boot, [], [], [], []⟩

/-! ### The promise -/

/-- What is promised of the rings at any time: the values taken out are some of those pushed, in
their order; a full ring of keys drops the newest one, a full ring of events the oldest one; and
availability is told exactly when something can be taken out. -/
structure QueueLaw (t : History) : Prop where
  keys_order : t.keysOut.Sublist t.keysIn
  events_order : t.eventsOut.Sublist t.eventsIn
  keys_bound : t.rings.buffer.contents.length ≤ kbdBuffer - 1
  events_bound : t.rings.evtBuffer.contents.length ≤ kbdEventBuffer - 1
  pushKey : ∀ key, (pushKey t.rings key).buffer.contents =
    if t.rings.buffer.contents.length = kbdBuffer - 1 then t.rings.buffer.contents
    else t.rings.buffer.contents ++ [key]
  pushEvent : ∀ ev, (pushEvent t.rings ev).evtBuffer.contents =
    (if t.rings.evtBuffer.contents.length = kbdEventBuffer - 1 then t.rings.evtBuffer.contents.tail
    else t.rings.evtBuffer.contents) ++ [ev]
  getchar : (keyboardTryGetchar t.rings).2 = t.rings.buffer.contents.head? ∧
    (keyboardTryGetchar t.rings).1.buffer.contents = t.rings.buffer.contents.tail
  getEvent : ∀ came, (keyboardTryGetEvent t.rings came).2 =
      (keyboardPoll t.rings came).evtBuffer.contents.head? ∧
    (keyboardTryGetEvent t.rings came).1.evtBuffer.contents =
      (keyboardPoll t.rings came).evtBuffer.contents.tail
  inputAvailable : ∀ came, (keyboardInputAvailable t.rings came).2 =
    (keyboardTryGetchar (keyboardInputAvailable t.rings came).1).2.isSome
  eventAvailable : ∀ came, (keyboardEventAvailable t.rings came).2 =
    (keyboardTryGetEvent t.rings came).2.isSome

/-! ### The rings as queues -/

variable {k : KeyRings} {t : History}

theorem contents_pushEvent (k : KeyRings) (ev : UInt16) : (pushEvent k ev).evtBuffer.contents =
    (if k.evtBuffer.contents.length = kbdEventBuffer - 1 then k.evtBuffer.contents.tail
    else k.evtBuffer.contents) ++ [ev] := by
  have hfull := k.evtBuffer.full_iff
  rw [pushEvent]
  split_ifs with h hlen hlen
  · have hne : k.evtBuffer.contents ≠ [] := fun h0 => by
      rw [h0] at hlen
      exact absurd hlen (by decide)
    have htail := k.evtBuffer.contents_skip hne
    have hroom : ¬ k.evtBuffer.skip.Full := by
      rw [RingBuffer.full_iff, htail, List.length_tail, hlen]
      decide
    rw [RingBuffer.contents_store _ hroom, htail]
  · exact absurd (hfull.1 h) hlen
  · exact absurd (hfull.2 hlen) h
  · exact RingBuffer.contents_store _ h ev

theorem contents_pushKey (k : KeyRings) (key : ℤ) : (pushKey k key).buffer.contents =
    if k.buffer.contents.length = kbdBuffer - 1 then k.buffer.contents
    else k.buffer.contents ++ [key] := by
  have hfull := k.buffer.full_iff
  rw [pushKey]
  split_ifs with h hlen hlen
  · rfl
  · exact absurd (hfull.1 h) hlen
  · exact absurd (hfull.2 hlen) h
  · exact RingBuffer.contents_store _ h key

def Stands (kb : Keyboard) (k : KeyRings) : Prop :=
  kb.buffer = k.buffer.contents ∧ kb.events = k.evtBuffer.contents

variable {kb : Keyboard}

theorem Stands.pushEvent (h : Stands kb k) (ev : UInt16) :
    Stands (Drivers.pushEvent kb ev) (pushEvent k ev) := by
  have hlt := k.evtBuffer.count_lt
  refine ⟨h.1, ?_⟩
  rw [contents_pushEvent, Drivers.pushEvent, h.2, RingBuffer.length_contents]
  dsimp only
  split_ifs <;> first | rfl | omega

theorem Stands.pushKey (h : Stands kb k) (key : ℤ) :
    Stands (Drivers.pushKey kb key) (pushKey k key) := by
  have hlt := k.buffer.count_lt
  have hfull := k.buffer.full_iff
  rw [RingBuffer.length_contents] at hfull
  rw [Drivers.pushKey, Rings.pushKey, h.1, RingBuffer.length_contents]
  split_ifs with hroom h' h'
  · exact absurd (hfull.1 h') (by omega)
  · have hstore : Stands { kb with buffer := k.buffer.contents ++ [key] }
        { k with buffer := k.buffer.store key } := ⟨(RingBuffer.contents_store _ h' key).symm, h.2⟩
    exact hstore.pushEvent _
  · exact h
  · exact absurd (hfull.2 (by omega)) h'

/-! ### What is promised -/

/-- What was taken out and what waits is some of what was pushed, in its order. -/
structure Ordered (t : History) : Prop where
  keys : (t.keysOut ++ t.rings.buffer.contents).Sublist t.keysIn
  events : (t.eventsOut ++ t.rings.evtBuffer.contents).Sublist t.eventsIn

theorem events_pushed (h : (t.eventsOut ++ k.evtBuffer.contents).Sublist t.eventsIn) (ev : UInt16) :
    (t.eventsOut ++ (pushEvent k ev).evtBuffer.contents).Sublist (t.eventsIn ++ [ev]) := by
  rw [contents_pushEvent, ← List.append_assoc]
  refine List.Sublist.append (List.Sublist.trans ?_ h) (List.Sublist.refl _)
  split_ifs
  · exact List.Sublist.append (List.Sublist.refl _) (List.tail_sublist _)
  · exact List.Sublist.refl _

theorem Ordered.push (h : Ordered t) (p : Push) : Ordered (t.push p) := by
  cases p with
  | event ev => exact ⟨h.keys, events_pushed h.events ev⟩
  | key key =>
    have hfull := t.rings.buffer.full_iff
    refine ⟨?_, ?_⟩
    · change (t.keysOut ++ (pushKey t.rings key).buffer.contents).Sublist (t.keysIn ++ [key])
      rw [contents_pushKey]
      split_ifs
      · exact h.keys.trans (List.sublist_append_left _ _)
      · rw [← List.append_assoc]
        exact List.Sublist.append h.keys (List.Sublist.refl _)
    · change (t.eventsOut ++ (pushKey t.rings key).evtBuffer.contents).Sublist (t.eventsIn ++ _)
      rw [pushKey]
      split_ifs
      · rw [List.append_nil]
        exact h.events
      · exact events_pushed (k := { t.rings with buffer := t.rings.buffer.store key }) h.events _

theorem Ordered.poll (h : Ordered t) (came : List Push) : Ordered (t.poll came) := by
  induction came generalizing t with
  | nil => exact h
  | cons p came ih => exact ih (h.push p)

theorem rings_poll (t : History) (came : List Push) :
    (t.poll came).rings = keyboardPoll t.rings came := by
  induction came generalizing t with
  | nil => rfl
  | cons p came ih =>
    have hone : (t.push p).rings = push t.rings p := by cases p <;> rfl
    rw [History.poll, List.foldl_cons, keyboardPoll, List.foldl_cons, ← hone]
    exact ih (t.push p)

theorem append_head_tail {α : Type*} (l q : List α) : l ++ q.head?.toList ++ q.tail = l ++ q := by
  cases q with
  | nil => simp
  | cons x q => simp

theorem Ordered.step (h : Ordered t) (op : Op) : Ordered (step t op) := by
  cases op with
  | poll came => exact h.poll came
  | getchar =>
    refine ⟨?_, h.events⟩
    change (t.keysOut ++ t.rings.buffer.pop.2.toList ++ t.rings.buffer.pop.1.contents).Sublist t.keysIn
    rw [t.rings.buffer.pop_eq.1, t.rings.buffer.pop_eq.2, append_head_tail]
    exact h.keys
  | getEvent came =>
    have hpoll := h.poll came
    have hrings := rings_poll t came
    refine ⟨?_, ?_⟩
    · change ((t.poll came).keysOut ++ (keyboardPoll t.rings came).buffer.contents).Sublist
        (t.poll came).keysIn
      rw [← hrings]
      exact hpoll.keys
    · change ((t.poll came).eventsOut ++ (keyboardPoll t.rings came).evtBuffer.pop.2.toList ++
        (keyboardPoll t.rings came).evtBuffer.pop.1.contents).Sublist (t.poll came).eventsIn
      rw [RingBuffer.pop_eq _ |>.1, RingBuffer.pop_eq _ |>.2, append_head_tail, ← hrings]
      exact hpoll.events
  | inputAvailable came =>
    have hrings : (keyboardInputAvailable t.rings came).1 = (t.poll came).rings :=
      (rings_poll t came).symm
    rw [Rings.step, hrings]
    exact h.poll came
  | eventAvailable came =>
    have hrings : (keyboardEventAvailable t.rings came).1 = (t.poll came).rings :=
      (rings_poll t came).symm
    rw [Rings.step, hrings]
    exact h.poll came

theorem ordered_run (ops : List Op) : Ordered (run ops) := by
  have hfold : ∀ t, Ordered t → Ordered (ops.foldl step t) := by
    induction ops with
    | nil => exact fun t h => h
    | cons op ops ih => exact fun t h => ih _ (h.step op)
  refine hfold _ ⟨?_, ?_⟩
  · exact List.Sublist.refl _
  · exact List.Sublist.refl _

theorem Ordered.queueLaw (h : Ordered t) : QueueLaw t where
  keys_order := (List.sublist_append_left _ _).trans h.keys
  events_order := (List.sublist_append_left _ _).trans h.events
  keys_bound := by
    have hlt := t.rings.buffer.count_lt
    rw [RingBuffer.length_contents]
    omega
  events_bound := by
    have hlt := t.rings.evtBuffer.count_lt
    rw [RingBuffer.length_contents]
    omega
  pushKey := contents_pushKey t.rings
  pushEvent := contents_pushEvent t.rings
  getchar := t.rings.buffer.pop_eq
  getEvent came := (keyboardPoll t.rings came).evtBuffer.pop_eq
  inputAvailable came := Bool.eq_iff_iff.2
    (decide_eq_true_iff.trans (keyboardPoll t.rings came).buffer.isSome_pop.symm)
  eventAvailable came := Bool.eq_iff_iff.2
    (decide_eq_true_iff.trans (keyboardPoll t.rings came).evtBuffer.isSome_pop.symm)

/-- **The rings are bounded queues**, after any calls in any order. -/
theorem rings_are_queues (ops : List Op) : QueueLaw (run ops) := (ordered_run ops).queueLaw

end Tnu.Drivers.Rings
