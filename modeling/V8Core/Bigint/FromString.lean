import V8Core.Bigint.MulSchoolbook
import V8Core.Lib.Positional
import Mathlib.Data.Nat.Log

/-!
# Parsing digits into parts

`FromStringAccumulator` of `bigint.h`. The digits of a string are gathered in parts of as many
characters as one digit of a BigInt has room for. The first parts are kept on the stack; short
strings are converted there at once, for others the parts move to the heap if there are more of
them. `none` is an access outside of the string or of `stack_parts_`.
-/

open Radix

namespace V8Core.Bigint

variable {w : Nat}
variable {k : Nat}

/-! ## Characters -/

/-- `kCharValue[c]`. -/
def kCharValue (c : Nat) : Nat :=
  if 48 ≤ c ∧ c ≤ 57 then c - 48
  else if 65 ≤ c ∧ c ≤ 90 then c - 55
  else if 97 ≤ c ∧ c ≤ 122 then c - 87
  else 255

/-- The digit that a character stands for. -/
def charDigit (radix c : Nat) : Option Nat := if c > 127 ∨ kCharValue c ≥ radix then none else some (kCharValue c)

/-- The digits at the start of a string. -/
def digitRun (radix : Nat) : List Nat → List Nat
  | [] => []
  | c :: chars =>
    match charDigit radix c with
    | none => []
    | some d => d :: digitRun radix chars

theorem digitRun_eq (radix : Nat) (chars : List Nat) :
    (digitRun radix chars).length = (chars.takeWhile fun c => (charDigit radix c).isSome).length ∧
      chars.drop (digitRun radix chars).length = chars.dropWhile fun c => (charDigit radix c).isSome := by
  induction chars with
  | nil => simp [digitRun]
  | cons c chars ih =>
    cases h : charDigit radix c with
    | none => simp [digitRun, h]
    | some d => simpa [digitRun, h] using ih

theorem length_digitRun_le (radix : Nat) (chars : List Nat) : (digitRun radix chars).length ≤ chars.length := by
  rw [(digitRun_eq radix chars).1]
  exact (List.takeWhile_sublist _).length_le

theorem digitRun_drop (radix : Nat) (chars : List Nat) (hk : k ≤ (digitRun radix chars).length) :
    digitRun radix (chars.drop k) = (digitRun radix chars).drop k := by
  induction k generalizing chars with
  | zero => rfl
  | succ k ih =>
    cases chars with
    | nil => simp [digitRun]
    | cons c chars =>
      cases h : charDigit radix c with
      | none => simp [digitRun, h] at hk
      | some d =>
        simp only [digitRun, h, List.length_cons, Nat.add_le_add_iff_right] at hk ⊢
        exact ih chars hk

theorem digitRun_lt (radix : Nat) (chars : List Nat) : ∀ d ∈ digitRun radix chars, d < radix := by
  induction chars with
  | nil => simp [digitRun]
  | cons c chars ih =>
    cases h : charDigit radix c with
    | none => simp [digitRun, h]
    | some d =>
      have hd : d < radix := by
        unfold charDigit at h
        split at h
        · cases h
        · cases h
          omega
      simpa [digitRun, h] using ⟨hd, ih⟩

/-! ## The accumulator -/

def kStackParts : Nat := 8

namespace FromStringAccumulator

inductive Result
  | kOk
  | kMaxSizeExceeded
  deriving DecidableEq, Repr

end FromStringAccumulator

structure FromStringAccumulator (w : Nat) where
  /-- The entries of `stack_parts_` in use. -/
  stackParts : List (BitVec w)
  heapParts : List (BitVec w)
  maxMultiplier : BitVec w
  /-- Not initialized at first. -/
  lastMultiplier : Option (BitVec w)
  maxDigits : Nat
  result : FromStringAccumulator.Result
  inlineEverything : Bool
  radix : Nat
  deriving DecidableEq

variable {a : FromStringAccumulator w}

namespace FromStringAccumulator

def new (w : Nat) (maxDigits : ℤ) : FromStringAccumulator w where
  stackParts := []
  heapParts := []
  maxMultiplier := 0#w
  lastMultiplier := none
  maxDigits := (max maxDigits kStackParts).toNat
  result := .kOk
  inlineEverything := false
  radix := 0

/-- `AddPart(part)`. -/
def addPart (a : FromStringAccumulator w) (part : BitVec w) : Bool × FromStringAccumulator w :=
  if a.stackParts.length < kStackParts then (true, { a with stackParts := a.stackParts ++ [part] })
  else
    let heapParts := if a.heapParts.length = 0 then a.stackParts else a.heapParts
    if heapParts.length ≥ a.maxDigits then (false, { a with heapParts := heapParts, result := .kMaxSizeExceeded })
    else (true, { a with heapParts := heapParts ++ [part] })

/-- `AddPart(multiplier, part, is_last)`. -/
def addMultiplied (a : FromStringAccumulator w) (multiplier part : BitVec w) (isLast : Bool) :
    Option (Bool × FromStringAccumulator w) :=
  if a.inlineEverything then
    -- the inlined version of `MultiplySingle` and the store of one more digit
    if a.stackParts.length < kStackParts then
      let r := chain (multiplySingleStep multiplier) a.stackParts (0#w, part)
      some (true, { a with stackParts := r.1 ++ [r.2.2 + r.2.1] })
    else none
  else if isLast then some ({ a with lastMultiplier := some multiplier }.addPart part)
  else some ({ a with maxMultiplier := multiplier }.addPart part)

/-! ## The loops -/

section Loops
variable {σ : Type} (radix : Nat) (room : σ → Bool) (push : σ → Nat → σ)

/-- The inner loop of `Parse` and of `ParsePowerTwo`: the part, the characters that are left, and `done`. -/
def readPart : σ → List Nat → Option (σ × List Nat × Bool)
  | _, [] => none
  | part, c :: chars =>
    match charDigit radix c with
    | none => some (part, c :: chars, true)
    | some d =>
      if room part then
        if chars = [] then some (push part d, [], true) else readPart (push part d) chars
      else some (part, c :: chars, false)

variable (start : σ) (add : FromStringAccumulator w → σ → Bool → Option (Bool × FromStringAccumulator w))

/-- The outer loop; the characters that are left stand for the position that is returned. -/
def readParts : Nat → FromStringAccumulator w → List Nat → Option (FromStringAccumulator w × List Nat)
  | 0, _, _ => none
  | fuel + 1, a, chars =>
    (readPart radix room push start chars).bind fun r =>
      (add a r.1 r.2.2).bind fun added =>
        if added.1 = false ∨ r.2.2 = true then some (added.2, r.2.1) else readParts fuel added.2 r.2.1

end Loops

/-- `kCharBits`. -/
def kCharBits : List Nat := [1, 2, 3, 0, 4, 0, 0, 0, 5]

/-- One more character in a part of `ParsePowerTwo`, which is `bits_left` and the digit. -/
def pushBits (charBits : Nat) (part : Nat × BitVec w) (d : Nat) : Nat × BitVec w :=
  (part.1 - charBits, part.2 <<< charBits ||| BitVec.ofNat w d)

/-- `ParsePowerTwo(current, end, radix)`. -/
def parsePowerTwo (a : FromStringAccumulator w) (chars : List Nat) (radix : Nat) :
    Option (FromStringAccumulator w × List Nat) :=
  let charBits := kCharBits.getD (radix >>> 2) 0
  readParts radix (fun part => decide (charBits ≤ part.1)) (pushBits charBits) (w, 0#w)
    (fun a part done =>
      let added := a.addPart part.2
      some (added.1, if added.1 && done then { added.2 with lastMultiplier := some (BitVec.ofNat w part.1) } else added.2))
    (chars.length + 1) { a with radix := radix } chars

/-- `kInlineThreshold`. -/
def kInlineThreshold (w : Nat) : Nat := kStackParts * w * 100 / 517

/-- One more character in a part of `Parse`, which is the multiplier and the digit. -/
def pushDigit (radix : Nat) (part : BitVec w × BitVec w) (d : Nat) : BitVec w × BitVec w :=
  (part.1 * BitVec.ofNat w radix, part.2 * BitVec.ofNat w radix + BitVec.ofNat w d)

/-- `Parse(start, end, radix)`. The inlined path needs `twodigit_t`. -/
def parse (haveTwodigit : Bool) (a : FromStringAccumulator w) (chars : List Nat) (radix : Nat) :
    Option (FromStringAccumulator w × List Nat) :=
  let inlineEverything := haveTwodigit && decide (chars.length ≤ kInlineThreshold w)
  let a := { a with inlineEverything := inlineEverything }
  if inlineEverything = false ∧ radix &&& (radix - 1) = 0 then a.parsePowerTwo chars radix
  else
    readParts radix (fun part => decide (part.1.toNat * radix < 2 ^ w)) (pushDigit radix) (1#w, 0#w)
      (fun a part done => a.addMultiplied part.1 part.2 done) (chars.length + 1) a chars

/-! ## What the loops read -/

/-- A list in pieces of `k` entries. -/
def parts {α : Type} (k : Nat) (run : List α) : List (List α) :=
  if _h : 0 < k ∧ k < run.length then run.take k :: parts k (run.drop k) else [run]
termination_by run.length
decreasing_by
  rw [List.length_drop]
  omega

theorem parts_ne_nil {α : Type} (k : Nat) (run : List α) : parts k run ≠ [] := by
  rw [parts]
  split <;> simp

theorem length_parts_le {α : Type} (hk : 0 < k) (n : Nat) (run : List α) :
    (parts k run).length ≤ n + 1 ↔ run.length ≤ (n + 1) * k := by
  induction n generalizing run with
  | zero =>
    rw [parts]
    split
    · rename_i h
      have hpos := List.length_pos_of_ne_nil (parts_ne_nil k (run.drop k))
      rw [List.length_cons]
      omega
    · simp
      omega
  | succ n ih =>
    rw [parts]
    split
    · rw [List.length_cons, Nat.add_le_add_iff_right, ih, List.length_drop, Nat.add_mul (n + 1)]
      omega
    · rw [List.length_singleton, Nat.add_mul (n + 1)]
      omega

variable {chars : List Nat} {radix : Nat}

section Spec
variable {σ : Type} {radix : Nat} {room : σ → Bool} {push : σ → Nat → σ} {start : σ}

/-- There is room for `k` digits. -/
def HasRoom (radix : Nat) (room : σ → Bool) (push : σ → Nat → σ) (start : σ) (k : Nat) : Prop :=
  ∀ ds : List Nat, ds.length ≤ k → (∀ d ∈ ds, d < radix) → room (ds.foldl push start) = decide (ds.length < k)

/-- The inner loop fills the part, or comes to the end of the digits. -/
theorem readPart_spec (hroom : HasRoom radix room push start k) (hne : chars ≠ [])
    (before : List Nat) (hlen : before.length ≤ k) (hbefore : ∀ d ∈ before, d < radix) :
    readPart radix room push (before.foldl push start) chars =
      some ((before ++ (digitRun radix chars).take (k - before.length)).foldl push start,
        chars.drop (min (digitRun radix chars).length (k - before.length)),
        decide ((digitRun radix chars).length ≤ k - before.length)) := by
  induction chars generalizing before with
  | nil => exact absurd rfl hne
  | cons c chars ih =>
    have hlt := digitRun_lt radix (c :: chars)
    cases h : charDigit radix c with
    | none => simp [readPart, digitRun, h]
    | some d =>
      simp only [digitRun, h, List.mem_cons, forall_eq_or_imp] at hlt
      rw [readPart, h]
      simp only [digitRun, h, hroom before hlen hbefore]
      by_cases hfull : before.length < k
      · obtain ⟨n, hn⟩ : ∃ n, k - before.length = n + 1 := ⟨k - before.length - 1, by omega⟩
        rw [if_pos (decide_eq_true hfull), hn]
        by_cases hnil : chars = []
        · simp [hnil, digitRun]
        · have hstep := ih hnil (before ++ [d]) (by simp; omega) (by
            simpa [or_imp, forall_and] using ⟨hbefore, hlt.1⟩)
          rw [List.length_append, List.length_singleton, show k - (before.length + 1) = n by omega] at hstep
          rw [if_neg hnil]
          simpa using hstep
      · rw [if_neg (by simpa using hfull), show k - before.length = 0 by omega]
        simp

variable (push start) (add : FromStringAccumulator w → σ → Bool → Option (Bool × FromStringAccumulator w))

/-- The parts added one after the other, until one is refused. -/
def addParts : FromStringAccumulator w → List (List Nat) → Option (Bool × FromStringAccumulator w)
  | a, [] => some (true, a)
  | a, ds :: rest =>
    (add a (ds.foldl push start) (decide (rest = []))).bind fun r => if r.1 then addParts r.2 rest else some r

variable {push start}

/-- The outer loop adds the parts; if all are added, it stops behind the digits. -/
theorem readParts_spec (hk : 0 < k) (hroom : HasRoom radix room push start k) {fuel : Nat}
    (hne : chars ≠ []) (hfuel : (digitRun radix chars).length < fuel) :
    (addParts push start add a (parts k (digitRun radix chars)) = none →
      readParts radix room push start add fuel a chars = none) ∧
    ∀ b a', addParts push start add a (parts k (digitRun radix chars)) = some (b, a') →
      ∃ rest, readParts radix room push start add fuel a chars = some (a', rest) ∧
        (b = true → rest = chars.drop (digitRun radix chars).length) := by
  induction fuel generalizing a chars with
  | zero => omega
  | succ fuel ih =>
    have hread := readPart_spec hroom hne [] (Nat.zero_le _) (by simp)
    rw [List.foldl_nil, List.length_nil, Nat.sub_zero, List.nil_append] at hread
    rw [readParts, hread, parts]
    simp only [Option.bind_some]
    by_cases hdone : (digitRun radix chars).length ≤ k
    · rw [dif_neg (by omega), List.take_of_length_le hdone, Nat.min_eq_left hdone, addParts]
      simp only [hdone, decide_true]
      cases hadd : add a ((digitRun radix chars).foldl push start) true with
      | none => simp
      | some r =>
        obtain ⟨b, a'⟩ := r
        cases b <;> simp [addParts]
    · have hdrop := digitRun_drop radix chars (Nat.le_of_not_le hdone)
      have hne' : chars.drop k ≠ [] := by
        intro hnil
        rw [hnil, digitRun, eq_comm, List.drop_eq_nil_iff] at hdrop
        omega
      have hrest : (chars.drop k).drop (digitRun radix (chars.drop k)).length = chars.drop (digitRun radix chars).length := by
        rw [hdrop, List.length_drop, List.drop_drop]
        congr 1
        omega
      have hnext := fun a => ih (a := a) hne' (by rw [hdrop, List.length_drop]; omega)
      rw [dif_pos ⟨hk, by omega⟩, Nat.min_eq_right (by omega), addParts, ← hdrop]
      simp only [hdone, parts_ne_nil, decide_false]
      cases hadd : add a (((digitRun radix chars).take k).foldl push start) false with
      | none => simp
      | some r =>
        obtain ⟨b, a'⟩ := r
        cases b with
        | false => simp
        | true => simpa [hrest] using hnext a'

end Spec

/-! ## Room in a part -/

/-- `Parse` has the power of the radix and the digits of the part, as far as they fit. -/
theorem foldl_part (radix : Nat) (ds : List Nat) (m n : Nat) :
    ds.foldl (pushDigit radix) (BitVec.ofNat w m, BitVec.ofNat w n) =
      (BitVec.ofNat w (m * radix ^ ds.length), BitVec.ofNat w (Positional.valueFrom radix n ds)) := by
  induction ds generalizing m n with
  | nil => simp [Positional.valueFrom]
  | cons d ds ih =>
    rw [List.foldl_cons, pushDigit, ← BitVec.ofNat_mul, ← BitVec.ofNat_mul, ← BitVec.ofNat_add, ih, List.length_cons,
      Nat.pow_succ', Nat.mul_assoc]
    rfl

/-- The characters that `Parse` puts in a part. -/
def partChars (w radix : Nat) : Nat := Nat.log radix (2 ^ w - 1)

theorem pow_lt_iff (hradix : 2 ≤ radix) (hw : 0 < w) (n : Nat) :
    radix ^ n < 2 ^ w ↔ n ≤ partChars w radix := by
  have := Nat.one_lt_two_pow hw.ne'
  rw [partChars, Nat.le_log_iff_pow_le hradix (by omega)]
  omega

theorem hasRoom_parse (hradix : 2 ≤ radix) (hw : 0 < w) :
    HasRoom radix (fun part : BitVec w × BitVec w => decide (part.1.toNat * radix < 2 ^ w)) (pushDigit radix) (1#w, 0#w)
      (partChars w radix) := by
  intro ds hlen _
  rw [foldl_part, Nat.one_mul]
  dsimp only
  rw [BitVec.toNat_ofNat, Nat.mod_eq_of_lt ((pow_lt_iff hradix hw _).2 hlen), ← Nat.pow_succ, decide_eq_decide,
    pow_lt_iff hradix hw, Nat.succ_le_iff]

theorem foldl_pushBits (charBits : Nat) (ds : List Nat) (part : Nat × BitVec w) :
    (ds.foldl (pushBits charBits) part).1 = part.1 - charBits * ds.length := by
  induction ds generalizing part with
  | nil => simp
  | cons d ds ih =>
    rw [List.foldl_cons, ih, List.length_cons, Nat.mul_succ, pushBits]
    omega

theorem hasRoom_parsePowerTwo (radix : Nat) {charBits : Nat} (hbits : 0 < charBits) :
    HasRoom radix (fun part : Nat × BitVec w => decide (charBits ≤ part.1)) (pushBits charBits) (w, 0#w) (w / charBits) := by
  intro ds hlen _
  dsimp only
  rw [foldl_pushBits, decide_eq_decide, Nat.lt_iff_add_one_le, Nat.le_div_iff_mul_le hbits, Nat.succ_mul, Nat.mul_comm]
  omega

/-! ## Room for the parts -/

/-- What holds of an accumulator that does not convert at once. -/
structure Bounded (a : FromStringAccumulator w) : Prop where
  notInline : a.inlineEverything = false
  stack : a.stackParts.length ≤ kStackParts
  heap : a.heapParts.length ≤ a.maxDigits
  maxDigits : kStackParts ≤ a.maxDigits

/-- A step that keeps the bounds and says so if it refuses a part. -/
def Keeps (n : Nat) (r : Bool × FromStringAccumulator w) : Prop :=
  r.2.Bounded ∧ r.2.maxDigits = n ∧ (r.1 = false → r.2.result = .kMaxSizeExceeded)

theorem Bounded.addPart (h : a.Bounded) (part : BitVec w) : Keeps a.maxDigits (a.addPart part) := by
  obtain ⟨hinline, hstack, hheap, hmax⟩ := h
  unfold FromStringAccumulator.addPart
  split
  · exact ⟨⟨hinline, by simpa using by omega, hheap, hmax⟩, rfl, by simp⟩
  · have hheap' : (if a.heapParts.length = 0 then a.stackParts else a.heapParts).length ≤ a.maxDigits := by
      split <;> omega
    generalize (if a.heapParts.length = 0 then a.stackParts else a.heapParts) = heapParts at *
    dsimp only
    split
    · exact ⟨⟨hinline, hstack, hheap', hmax⟩, rfl, fun _ => rfl⟩
    · exact ⟨⟨hinline, hstack, by simpa using by omega, hmax⟩, rfl, by simp⟩

theorem Bounded.addMultiplied (h : a.Bounded) (multiplier part : BitVec w) (isLast : Bool) :
    ∃ r, a.addMultiplied multiplier part isLast = some r ∧ Keeps a.maxDigits r := by
  unfold FromStringAccumulator.addMultiplied
  rw [if_neg (by simp [h.notInline])]
  cases isLast with
  | true => exact ⟨_, rfl, Bounded.addPart (a := { a with lastMultiplier := some multiplier }) ⟨h.1, h.2, h.3, h.4⟩ part⟩
  | false => exact ⟨_, rfl, Bounded.addPart (a := { a with maxMultiplier := multiplier }) ⟨h.1, h.2, h.3, h.4⟩ part⟩

section Add
variable {σ : Type} (push : σ → Nat → σ) (start : σ)
  {add : FromStringAccumulator w → σ → Bool → Option (Bool × FromStringAccumulator w)}

theorem addParts_keeps {n : Nat}
    (hadd : ∀ a part done, a.Bounded → a.maxDigits = n → ∃ r, add a part done = some r ∧ Keeps n r)
    (l : List (List Nat)) (h : a.Bounded) (hn : a.maxDigits = n) :
    ∃ r, addParts push start add a l = some r ∧ Keeps n r := by
  induction l generalizing a with
  | nil => exact ⟨_, rfl, h, hn, by simp⟩
  | cons ds l ih =>
    obtain ⟨⟨b, a'⟩, hr, hkeeps⟩ := hadd a (ds.foldl push start) (decide (l = [])) h hn
    rw [addParts, hr]
    cases b with
    | true => exact ih hkeeps.1 hkeeps.2.1
    | false => exact ⟨_, rfl, hkeeps⟩

end Add

/-- Where everything is converted at once, every part takes one more entry of the stack. -/
theorem addParts_inline (push : BitVec w × BitVec w → Nat → BitVec w × BitVec w) (start : BitVec w × BitVec w)
    (l : List (List Nat)) (h : a.inlineEverything = true) (hstack : a.stackParts.length ≤ kStackParts) :
    if a.stackParts.length + l.length ≤ kStackParts then
      ∃ a', addParts push start (fun a part done => a.addMultiplied part.1 part.2 done) a l = some (true, a') ∧
        a'.stackParts.length ≤ kStackParts ∧ a'.heapParts = a.heapParts ∧ a'.maxDigits = a.maxDigits
    else addParts push start (fun a part done => a.addMultiplied part.1 part.2 done) a l = none := by
  induction l generalizing a with
  | nil => simpa [addParts] using hstack
  | cons ds l ih =>
    rw [addParts, FromStringAccumulator.addMultiplied, if_pos h]
    by_cases hroom : a.stackParts.length < kStackParts
    · rw [if_pos hroom]
      have hlen : (chain (multiplySingleStep (ds.foldl push start).1) a.stackParts (0#w, (ds.foldl push start).2)).1.length =
        a.stackParts.length := chain_length ..
      generalize chain (multiplySingleStep (ds.foldl push start).1) a.stackParts (0#w, (ds.foldl push start).2) = r at *
      have hpush : (r.1 ++ [r.2.2 + r.2.1]).length = a.stackParts.length + 1 := by simp [hlen]
      have hnext := ih (a := { a with stackParts := r.1 ++ [r.2.2 + r.2.1] }) h (by dsimp only; omega)
      rw [hpush, Nat.add_assoc, Nat.add_comm 1] at hnext
      simpa using hnext
    · rw [if_neg hroom, if_neg (by rw [List.length_cons]; omega)]
      rfl

/-! ## `Parse` stays within its bounds -/

/-- The arguments of `Parse`, on a new accumulator. -/
structure ParseInput (w : Nat) where
  haveTwodigit : Bool
  maxDigits : ℤ
  chars : List Nat
  radix : Nat
  width : 6 ≤ w
  radix_ge : 2 ≤ radix
  radix_le : radix ≤ 36

namespace ParseInput

def isDigit (d : ParseInput w) (c : Nat) : Bool := (charDigit d.radix c).isSome

def parse (d : ParseInput w) : Option (FromStringAccumulator w × List Nat) :=
  (new w d.maxDigits).parse d.haveTwodigit d.chars d.radix

/-- All accesses are within the string and the stack entries, the heap parts within their limit, and if the result is
available, the position that is returned is the one of the first character that is not a digit. -/
def Safe (d : ParseInput w) : Prop :=
  ∃ a rest, d.parse = some (a, rest) ∧ a.stackParts.length ≤ kStackParts ∧ a.heapParts.length ≤ a.maxDigits ∧
    a.maxDigits = (max d.maxDigits kStackParts).toNat ∧ (a.result = .kOk → rest = d.chars.dropWhile d.isDigit)

theorem charBits_spec : ∀ radix < 37, 2 ≤ radix → radix &&& (radix - 1) = 0 →
    0 < kCharBits.getD (radix >>> 2) 0 ∧ kCharBits.getD (radix >>> 2) 0 ≤ 5 := by
  decide

theorem partChars_pos (d : ParseInput w) : 0 < partChars w d.radix := by
  have hwidth := d.width
  have hle := d.radix_le
  have hpow := Nat.pow_le_pow_right (show 0 < 2 by decide) hwidth
  refine (pow_lt_iff d.radix_ge (by omega) 1).1 ?_
  rw [Nat.pow_one]
  omega

variable {d : ParseInput w}

theorem parse_nil (h : d.chars = []) : d.parse = none := by
  unfold parse FromStringAccumulator.parse FromStringAccumulator.parsePowerTwo
  dsimp only
  split <;> simp [h, readParts, readPart]

/-- Reading parts that are not converted at once. -/
theorem readParts_safe {σ : Type} {room : σ → Bool} {push : σ → Nat → σ} {start : σ}
    {add : FromStringAccumulator w → σ → Bool → Option (Bool × FromStringAccumulator w)} {n : Nat} (hk : 0 < k)
    (hroom : HasRoom radix room push start k) (ha : a.Bounded) (hn : a.maxDigits = n)
    (hadd : ∀ a part done, a.Bounded → a.maxDigits = n → ∃ r, add a part done = some r ∧ Keeps n r)
    (hne : chars ≠ []) :
    ∃ a' rest, readParts radix room push start add (chars.length + 1) a chars = some (a', rest) ∧
      a'.stackParts.length ≤ kStackParts ∧ a'.heapParts.length ≤ a'.maxDigits ∧ a'.maxDigits = n ∧
      (a'.result = .kOk → rest = chars.dropWhile fun c => (charDigit radix c).isSome) := by
  have hlen := length_digitRun_le radix chars
  obtain ⟨⟨b, a'⟩, hadded, hbounded, hmax, hrefused⟩ :=
    addParts_keeps push start hadd (parts k (digitRun radix chars)) ha hn
  obtain ⟨rest, hread, hrest⟩ := (readParts_spec add hk hroom hne (Nat.lt_succ_of_le hlen)).2 b a' hadded
  refine ⟨a', rest, hread, hbounded.stack, hbounded.heap, hmax, fun hok => ?_⟩
  rw [← (digitRun_eq radix chars).2]
  refine hrest (Bool.eq_true_of_not_eq_false fun hb => ?_)
  rw [hrefused hb] at hok
  cases hok

theorem safe_of_notInline (hne : d.chars ≠ [])
    (h : (d.haveTwodigit && decide (d.chars.length ≤ kInlineThreshold w)) = false) : d.Safe := by
  have hwidth := d.width
  have ha : Bounded { new w d.maxDigits with inlineEverything := false } :=
    ⟨rfl, Nat.zero_le _, Nat.zero_le _, by dsimp only [new]; omega⟩
  unfold Safe parse FromStringAccumulator.parse
  simp only [h]
  split
  · rename_i htwo
    obtain ⟨hpos, hle⟩ := charBits_spec d.radix (by have := d.radix_le; omega) d.radix_ge htwo.2
    have ha' : Bounded { new w d.maxDigits with inlineEverything := false, radix := d.radix } := ⟨ha.1, ha.2, ha.3, ha.4⟩
    unfold parsePowerTwo
    refine readParts_safe (Nat.div_pos (hle.trans (show 5 ≤ w by omega)) hpos) (hasRoom_parsePowerTwo d.radix hpos) ha' rfl
      (fun a part done hbounded hn => ?_) hne
    obtain ⟨hkeeps, hmax, hresult⟩ := hbounded.addPart part.2
    refine ⟨_, rfl, ?_⟩
    split
    · exact ⟨⟨hkeeps.1, hkeeps.2, hkeeps.3, hkeeps.4⟩, hmax.trans hn, hresult⟩
    · exact ⟨hkeeps, hmax.trans hn, hresult⟩
  · refine readParts_safe d.partChars_pos (hasRoom_parse d.radix_ge (by omega)) ha rfl
      (fun a part done hbounded hn => ?_) hne
    rw [← hn]
    exact hbounded.addMultiplied part.1 part.2 done

theorem safe_iff_of_inline (hne : d.chars ≠ [])
    (h : (d.haveTwodigit && decide (d.chars.length ≤ kInlineThreshold w)) = true) :
    d.Safe ↔ (d.chars.takeWhile d.isDigit).length ≤ kStackParts * partChars w d.radix := by
  have hlen := length_digitRun_le d.radix d.chars
  have hroom := hasRoom_parse d.radix_ge (show 0 < w by have := d.width; omega)
  obtain ⟨hnone, hsome⟩ := readParts_spec (fun a part done => a.addMultiplied part.1 part.2 done) d.partChars_pos hroom
    (a := { new w d.maxDigits with inlineEverything := true }) hne (Nat.lt_succ_of_le hlen)
  have hadded := addParts_inline (pushDigit d.radix) (1#w, 0#w) (parts (partChars w d.radix) (digitRun d.radix d.chars))
    (a := { new w d.maxDigits with inlineEverything := true }) rfl (Nat.zero_le _)
  have hcount := length_parts_le d.partChars_pos 7 (digitRun d.radix d.chars)
  rw [(digitRun_eq d.radix d.chars).1] at hcount
  unfold Safe parse FromStringAccumulator.parse
  simp only [h]
  refine Iff.trans ?_ hcount
  constructor
  · rintro ⟨a, rest, hread, -⟩
    by_contra hmany
    rw [if_neg (by simpa [new, kStackParts] using hmany)] at hadded
    rw [hnone hadded] at hread
    cases hread
  · intro hfew
    rw [if_pos (by simpa [new, kStackParts] using hfew)] at hadded
    obtain ⟨a, hadded, hstack, hheap, hmax⟩ := hadded
    obtain ⟨rest, hread, hrest⟩ := hsome _ _ hadded
    exact ⟨a, rest, hread, hstack, by rw [hheap]; exact Nat.zero_le _, hmax,
      fun _ => (hrest rfl).trans (digitRun_eq d.radix d.chars).2⟩

/-- `Parse` stays within its bounds if there is a character, and if a string that is converted at once has no more
digits than the stack entries have room for, counted in whole characters. -/
theorem safe_iff (d : ParseInput w) : d.Safe ↔ d.chars ≠ [] ∧
    (d.haveTwodigit = true → d.chars.length ≤ kInlineThreshold w →
      (d.chars.takeWhile d.isDigit).length ≤ kStackParts * partChars w d.radix) := by
  by_cases hne : d.chars = []
  · refine iff_of_false ?_ fun h => h.1 hne
    rintro ⟨a, rest, hparse, -⟩
    rw [parse_nil hne] at hparse
    cases hparse
  · cases h : d.haveTwodigit && decide (d.chars.length ≤ kInlineThreshold w) with
    | false =>
      refine iff_of_true (safe_of_notInline hne h) ⟨hne, fun htwo hlen => ?_⟩
      simp [htwo, hlen] at h
    | true =>
      rw [safe_iff_of_inline hne h]
      simp only [Bool.and_eq_true, decide_eq_true_eq] at h
      simp [hne, h]

/-- Nine parts of twelve characters, for eight entries of the stack. -/
theorem parse_base36 : FromStringAccumulator.parse true (new 64 8) (List.replicate 97 122) 36 = none := by
  decide +kernel

end ParseInput

end FromStringAccumulator

end V8Core.Bigint
