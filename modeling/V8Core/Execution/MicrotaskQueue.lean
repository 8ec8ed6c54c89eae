import V8Core.Lib.Loops
import Mathlib.Algebra.Order.Ring.Nat
import Mathlib.Data.List.Nodup
import Mathlib.Data.Nat.ModEq

/-!
# The microtask queue

`MicrotaskQueue` of `execution/microtask-queue.cc` with the builtins that share its ring buffer: C++ takes
indices modulo the capacity, the builtins mask them. Capacities stay far below the range of `intptr_t`.
-/

namespace V8Core.Execution

variable {α : Type}

/-- A slot is `none` until something is stored. -/
structure MicrotaskQueue (α : Type) where
  ringBuffer : List (Option α) := []
  size : Nat := 0
  capacity : Nat := 0
  start : Nat := 0

def kMinimumCapacity : Nat := 8

def load (ring : List (Option α)) (slot : Nat) : Option α := ring[slot]?.join

def store (ring : List (Option α)) (slot : Nat) (microtask : α) : Option (List (Option α)) :=
  if slot < ring.length then some (ring.set slot (some microtask)) else none

namespace MicrotaskQueue

variable (q : MicrotaskQueue α)

/-- The slot of the `i`-th microtask. -/
def slot (i : Nat) : Nat := (q.start + i) % q.capacity

/-- `CalculateRingBufferOffset`, in slots. -/
def calculateRingBufferOffset (index : Nat) : Nat := (q.start + index) &&& (q.capacity - 1)

def get (index : Nat) : Option α := if index < q.size then load q.ringBuffer (q.slot index) else none

def resizeBuffer (newCapacity : Nat) : Option (MicrotaskQueue α) :=
  if q.size ≤ newCapacity then do
    let ring ← (List.range' 0 q.size).foldlM (fun ring i => do store ring i (← load q.ringBuffer (q.slot i)))
      (.replicate newCapacity none)
    return { q with ringBuffer := ring, capacity := newCapacity, start := 0 }
  else none

def storeLast (slot : Nat) (microtask : α) : Option (MicrotaskQueue α) := do
  let ring ← store q.ringBuffer slot microtask
  return { q with ringBuffer := ring, size := q.size + 1 }

def enqueueMicrotask (microtask : α) : Option (MicrotaskQueue α) := do
  let q ← if q.size = q.capacity then q.resizeBuffer (max kMinimumCapacity (q.capacity <<< 1)) else some q
  if q.size < q.capacity then q.storeLast (q.slot q.size) microtask else none

/-- The builtin `EnqueueMicrotask`. -/
def enqueueMicrotaskBuiltin (microtask : α) : Option (MicrotaskQueue α) :=
  if q.size = q.capacity then q.enqueueMicrotask microtask
  else q.storeLast (q.calculateRingBufferOffset q.size) microtask

/-- One round of the builtin `RunMicrotasks`: what is left of the queue and the microtask that runs. -/
def runMicrotasks : Option (MicrotaskQueue α × Option α) :=
  if q.size = 0 then some (q, none)
  else do
    let microtask ← load q.ringBuffer (q.calculateRingBufferOffset 0)
    return ({ q with size := q.size - 1, start := (q.start + 1) &&& (q.capacity - 1) }, some microtask)

/-- The slots that `IterateMicrotasks` visits. -/
def visitedSlots : List Nat :=
  if q.size = 0 then []
  else List.range' q.start (min (q.start + q.size) q.capacity - q.start) ++ List.range' 0 (q.start + q.size - q.capacity)

def shrink (size newCapacity : Nat) : Nat :=
  if newCapacity > 2 * size then shrink size (newCapacity >>> 1) else newCapacity
termination_by newCapacity
decreasing_by rw [Nat.shiftRight_one]; omega

/-- What `IterateMicrotasks` does after that. -/
def iterateMicrotasks : Option (MicrotaskQueue α) :=
  if q.capacity ≤ kMinimumCapacity then some q
  else
    let newCapacity := max (shrink q.size q.capacity) kMinimumCapacity
    if newCapacity < q.capacity then q.resizeBuffer newCapacity else some q

end MicrotaskQueue

open MicrotaskQueue

inductive Operation (α : Type) where
  | enqueueMicrotask (microtask : α)
  | enqueueMicrotaskBuiltin (microtask : α)
  | runMicrotasks
  | iterateMicrotasks

/-- The queue after an operation, and the microtask that is run. -/
def step (q : MicrotaskQueue α) : Operation α → Option (MicrotaskQueue α × Option α)
  | .enqueueMicrotask microtask => (q.enqueueMicrotask microtask).map (·, none)
  | .enqueueMicrotaskBuiltin microtask => (q.enqueueMicrotaskBuiltin microtask).map (·, none)
  | .runMicrotasks => q.runMicrotasks
  | .iterateMicrotasks => q.iterateMicrotasks.map (·, none)

def run (q : MicrotaskQueue α) : List (Operation α) → Option (MicrotaskQueue α × List (Option α))
  | [] => some (q, [])
  | op :: ops => do
    let r ← step q op
    let rest ← run r.1 ops
    return (rest.1, r.2 :: rest.2)

/-- What an operation does to a queue. -/
def fifoStep (l : List α) : Operation α → List α × Option α
  | .enqueueMicrotask microtask | .enqueueMicrotaskBuiltin microtask => (l ++ [microtask], none)
  | .runMicrotasks => (l.tail, l.head?)
  | .iterateMicrotasks => (l, none)

def fifoRun (l : List α) : List (Operation α) → List α × List (Option α)
  | [] => (l, [])
  | op :: ops =>
    let rest := fifoRun (fifoStep l op).1 ops
    (rest.1, (fifoStep l op).2 :: rest.2)

/-! ## What the buffer holds -/

def IsCapacity (n : Nat) : Prop := kMinimumCapacity ≤ n ∧ ∃ k, n = 2 ^ k

/-- The buffer holds `l`. -/
structure Holds (q : MicrotaskQueue α) (l : List α) : Prop where
  length_eq : q.ringBuffer.length = q.capacity
  capacity_eq : q.capacity = 0 ∨ IsCapacity q.capacity
  start_le : q.start ≤ q.capacity - 1
  size_eq : q.size = l.length
  size_le : q.size ≤ q.capacity
  load_slot : ∀ i < q.size, load q.ringBuffer (q.slot i) = l[i]?

variable {q : MicrotaskQueue α} {l : List α} {m : α}

theorem load_set {ring : List (Option α)} {s : Nat} (hs : s < ring.length) (i : Nat) :
    load (ring.set s (some m)) i = if s = i then some m else load ring i := by
  rw [load, List.getElem?_set]
  split <;> rfl

theorem slot_inj {i j : Nat} (hi : i < q.capacity) (hj : j < q.capacity) (h : q.slot i = q.slot j) : i = j :=
  Nat.ModEq.eq_of_lt_of_lt (Nat.ModEq.add_left_cancel' q.start h) hi hj

theorem isCapacity_max {n : Nat} (h : n = 0 ∨ ∃ k, n = 2 ^ k) : IsCapacity (max n kMinimumCapacity) := by
  refine ⟨le_max_right .., ?_⟩
  rcases h with rfl | ⟨k, rfl⟩
  · exact ⟨3, rfl⟩
  · exact ⟨max k 3, ((pow_right_mono₀ one_le_two).map_max (a := k) (b := 3)).symm⟩

namespace Holds

theorem storeLast (h : Holds q l) (hlt : q.size < q.capacity) (m : α) :
    ∃ q', q.storeLast (q.slot q.size) m = some q' ∧ Holds q' (l ++ [m]) := by
  have hslot : q.slot q.size < q.ringBuffer.length := h.length_eq ▸ Nat.mod_lt _ (by omega)
  refine ⟨_, by rw [MicrotaskQueue.storeLast, store, if_pos hslot]; rfl, ?_⟩
  refine ⟨by simp [h.length_eq], h.capacity_eq, h.start_le, by simp [h.size_eq], hlt, fun i hi => ?_⟩
  refine (load_set hslot (q.slot i)).trans ?_
  rcases Nat.lt_or_eq_of_le (Nat.lt_succ_iff.1 hi) with hi | rfl
  · rw [if_neg fun heq => hi.ne' (slot_inj hlt (hi.trans hlt) heq), List.getElem?_append_left (h.size_eq ▸ hi)]
    exact h.load_slot i hi
  · rw [if_pos rfl, h.size_eq, List.getElem?_concat_length]

theorem resizeBuffer (h : Holds q l) {n : Nat} (hn : IsCapacity n) (hle : q.size ≤ n) :
    ∃ q', q.resizeBuffer n = some q' ∧ q'.size = q.size ∧ q'.capacity = n ∧ Holds q' l := by
  have hloop := Loops.foldlM_range' (i := 0) (n := q.size) (s := .replicate n none)
    (f := fun ring i => do store ring i (← load q.ringBuffer (q.slot i)))
    (P := fun i ring => ring.length = n ∧ ∀ j < i, load ring j = l[j]?) ⟨by simp, by simp⟩ ?_
  · obtain ⟨ring, hrun, hlen, hload⟩ := hloop
    rw [MicrotaskQueue.resizeBuffer, if_pos hle, hrun]
    refine ⟨_, rfl, rfl, rfl, hlen, .inr hn, Nat.zero_le _, h.size_eq, hle, fun i hi => ?_⟩
    rw [slot, Nat.zero_add, Nat.mod_eq_of_lt (lt_of_lt_of_le hi hle)]
    exact hload i (by rwa [Nat.zero_add])
  · intro j ring _ hj ⟨hlen, hload⟩
    have hjl : j < l.length := by rw [← h.size_eq]; omega
    have hslot := h.load_slot j (by omega)
    rw [List.getElem?_eq_getElem hjl] at hslot
    refine ⟨ring.set j (some l[j]), by simp [hslot, store, show j < ring.length by omega], by simpa, fun i hi => ?_⟩
    rw [load_set (by omega)]
    split
    case isTrue heq => rw [← heq, List.getElem?_eq_getElem hjl]
    case isFalse hne => exact hload i (by omega)

theorem enqueueMicrotask (h : Holds q l) (m : α) : ∃ q', q.enqueueMicrotask m = some q' ∧ Holds q' (l ++ [m]) := by
  have hle := h.size_le
  rw [MicrotaskQueue.enqueueMicrotask, Nat.shiftLeft_eq, max_comm]
  split
  case isTrue hfull =>
    have hnew : IsCapacity (max (q.capacity * 2 ^ 1) kMinimumCapacity) := by
      refine isCapacity_max (h.capacity_eq.imp (fun h0 => by rw [h0]; rfl) fun ⟨_, k, hk⟩ => ⟨k + 1, ?_⟩)
      rw [hk, ← Nat.pow_add]
    have hlt : q.size < max (q.capacity * 2 ^ 1) kMinimumCapacity := by
      rw [kMinimumCapacity]
      omega
    obtain ⟨q', hrun, hsize, hcap, h'⟩ := h.resizeBuffer hnew hlt.le
    rw [← hsize, ← hcap] at hlt
    obtain ⟨q'', hstore, h''⟩ := h'.storeLast hlt m
    exact ⟨q'', by rw [hrun, ← hstore]; exact if_pos hlt, h''⟩
  case isFalse hne =>
    have hlt : q.size < q.capacity := by omega
    obtain ⟨q', hstore, h'⟩ := h.storeLast hlt m
    exact ⟨q', by rw [← hstore]; exact if_pos hlt, h'⟩

theorem and_mask (h : Holds q l) (hpos : 0 < q.capacity) (n : Nat) : n &&& (q.capacity - 1) = n % q.capacity := by
  obtain ⟨-, k, hk⟩ := h.capacity_eq.resolve_left (by omega)
  rw [hk, Nat.and_two_pow_sub_one_eq_mod]

theorem enqueueMicrotaskBuiltin (h : Holds q l) (m : α) :
    ∃ q', q.enqueueMicrotaskBuiltin m = some q' ∧ Holds q' (l ++ [m]) := by
  have hle := h.size_le
  rw [MicrotaskQueue.enqueueMicrotaskBuiltin]
  split
  case isTrue => exact h.enqueueMicrotask m
  case isFalse hne =>
    rw [calculateRingBufferOffset, h.and_mask (by omega)]
    exact h.storeLast (by omega) m

theorem runMicrotasks (h : Holds q l) : ∃ q', q.runMicrotasks = some (q', l.head?) ∧ Holds q' l.tail := by
  have hsize := h.size_eq
  have hle := h.size_le
  rw [MicrotaskQueue.runMicrotasks]
  cases l with
  | nil => exact ⟨q, if_pos hsize, h⟩
  | cons a l =>
    rw [List.length_cons] at hsize
    have hload := h.load_slot 0 (by omega)
    rw [slot] at hload
    rw [if_neg (by omega), calculateRingBufferOffset, h.and_mask (by omega), h.and_mask (by omega), hload]
    refine ⟨_, rfl, h.length_eq, h.capacity_eq, Nat.le_sub_one_of_lt (Nat.mod_lt _ (by omega)), ?_, ?_, fun i hi => ?_⟩
    · exact Nat.sub_eq_of_eq_add hsize
    · exact (Nat.sub_le ..).trans hle
    · have hnext := h.load_slot (i + 1) (Nat.add_lt_of_lt_sub hi)
      rwa [slot, Nat.add_left_comm, Nat.add_comm, ← Nat.mod_add_mod] at hnext

end Holds

/-- Halving stops at a power of two that is large enough, or at zero. -/
theorem shrink_spec {size k : Nat} (h : size ≤ 2 ^ k) :
    (shrink size (2 ^ k) = 0 ∨ ∃ j, shrink size (2 ^ k) = 2 ^ j) ∧ size ≤ shrink size (2 ^ k) := by
  induction k with
  | zero =>
    rw [shrink]
    split
    case isTrue hlt =>
      obtain rfl : size = 0 := by omega
      rw [shrink, if_neg (by simp)]
      exact ⟨.inl rfl, Nat.zero_le _⟩
    case isFalse => exact ⟨.inr ⟨0, rfl⟩, h⟩
  | succ k ih =>
    rw [shrink]
    split
    case isTrue hlt =>
      rw [Nat.shiftRight_one, Nat.pow_succ, Nat.mul_div_cancel _ (by decide)]
      exact ih (by omega)
    case isFalse => exact ⟨.inr ⟨k + 1, rfl⟩, h⟩

namespace Holds

theorem iterateMicrotasks (h : Holds q l) : ∃ q', q.iterateMicrotasks = some q' ∧ Holds q' l := by
  rw [MicrotaskQueue.iterateMicrotasks]
  split
  case isTrue => exact ⟨q, rfl, h⟩
  case isFalse hbig =>
    obtain ⟨-, k, hk⟩ := h.capacity_eq.resolve_left (by omega)
    obtain ⟨hnew, hle⟩ := shrink_spec (hk ▸ h.size_le)
    rw [← hk] at hnew hle
    dsimp only
    split
    · obtain ⟨q', hrun, -, -, h'⟩ := h.resizeBuffer (isCapacity_max hnew) (le_max_of_le_left hle)
      exact ⟨q', hrun, h'⟩
    · exact ⟨q, rfl, h⟩

theorem step (h : Holds q l) (op : Operation α) :
    ∃ q', step q op = some (q', (fifoStep l op).2) ∧ Holds q' (fifoStep l op).1 := by
  have silent {o : Option (MicrotaskQueue α)} {l : List α} : (∃ q', o = some q' ∧ Holds q' l) →
      ∃ q', o.map (·, none) = some (q', (none : Option α)) ∧ Holds q' l := by
    rintro ⟨q', rfl, h'⟩
    exact ⟨q', rfl, h'⟩
  cases op with
  | enqueueMicrotask m => exact silent (h.enqueueMicrotask m)
  | enqueueMicrotaskBuiltin m => exact silent (h.enqueueMicrotaskBuiltin m)
  | runMicrotasks => exact h.runMicrotasks
  | iterateMicrotasks => exact silent h.iterateMicrotasks

theorem run (h : Holds q l) (ops : List (Operation α)) :
    ∃ q', run q ops = some (q', (fifoRun l ops).2) ∧ Holds q' (fifoRun l ops).1 := by
  induction ops generalizing q l with
  | nil => exact ⟨q, rfl, h⟩
  | cons op ops ih =>
    obtain ⟨q', hstep, h'⟩ := h.step op
    obtain ⟨q'', hrun, h''⟩ := ih h'
    exact ⟨q'', by simp [Execution.run, hstep, hrun, fifoRun], h''⟩

/-- The two ranges are the slots in order. -/
theorem visitedSlots_eq (h : Holds q l) : q.visitedSlots = (List.range q.size).map q.slot := by
  have hle := h.size_le
  have hstart := h.start_le
  rw [visitedSlots]
  split
  case isTrue h0 => rw [h0]; rfl
  case isFalse h0 =>
    apply List.ext_getElem
    · simp
      omega
    · intro i hi hi'
      rw [List.length_map, List.length_range] at hi'
      simp only [List.getElem_append, List.getElem_range', List.length_range', List.getElem_map, List.getElem_range, slot]
      split
      case isTrue hlt => rw [Nat.mod_eq_of_lt (by omega), Nat.one_mul]
      case isFalse hge =>
        rw [Nat.mod_eq_sub_mod (by omega), Nat.mod_eq_of_lt (by omega)]
        omega

end Holds

/-- Every interleaving runs as one of a queue does, and the slots that are visited next are those of the microtasks in
the queue, each once. -/
theorem microtaskQueue_fifo (ops : List (Operation α)) :
    ∃ q, run {} ops = some (q, (fifoRun [] ops).2) ∧ (∀ i, q.get i = (fifoRun [] ops).1[i]?) ∧
      q.size = (fifoRun [] ops).1.length ∧ q.size ≤ q.capacity ∧
      (q.capacity = 0 ∨ kMinimumCapacity ≤ q.capacity ∧ ∃ k, q.capacity = 2 ^ k) ∧
      q.visitedSlots = (List.range q.size).map q.slot ∧ q.visitedSlots.Nodup := by
  have hempty : Holds ({} : MicrotaskQueue α) [] := ⟨rfl, .inl rfl, le_rfl, rfl, le_rfl, fun i hi => by simp at hi⟩
  obtain ⟨q, hrun, h⟩ := hempty.run ops
  refine ⟨q, hrun, fun i => ?_, h.size_eq, h.size_le, h.capacity_eq, h.visitedSlots_eq, ?_⟩
  · rw [MicrotaskQueue.get]
    split
    case isTrue hi => exact h.load_slot i hi
    case isFalse hi => rw [List.getElem?_eq_none (by rw [← h.size_eq]; omega)]
  · rw [h.visitedSlots_eq]
    refine List.Nodup.map_on (fun i hi j hj => slot_inj ?_ ?_) List.nodup_range
    · exact lt_of_lt_of_le (List.mem_range.1 hi) h.size_le
    · exact lt_of_lt_of_le (List.mem_range.1 hj) h.size_le

end V8Core.Execution
