import Mathlib
/-!
# Digit lists as numbers

A little-endian list of `w`-bit words stands for a natural number, its `value`.
Arithmetic on such lists is done by loops that carry a small state from digit
to digit: `chain` runs one from the least significant digit up, `chainDown`
from the most significant digit down, `chainWhile` up until the state says
stop. Each has one equation, proven once from what a single step does:
`chain_value`, `chainDown_value`, `chainWhile_value`. Cutting digits into
smaller ones and putting them together again keeps the number (`value_split`,
`value_join`).
-/

namespace Radix

variable {w : Nat} {α σ : Type}
variable (f : α → σ → BitVec w × σ) (k : Nat) (d : BitVec w) (n : Nat) (X : List (BitVec w))

/-- The number a little-endian digit list stands for. -/
def value : List (BitVec w) → Nat
  | [] => 0
  | d :: ds => d.toNat + 2 ^ w * value ds

@[simp] theorem value_nil : value ([] : List (BitVec w)) = 0 := rfl

@[simp] theorem value_cons (ds : List (BitVec w)) : value (d :: ds) = d.toNat + 2 ^ w * value ds := rfl

theorem pow_succ_len (w n : Nat) : 2 ^ (w * (n + 1)) = 2 ^ w * 2 ^ (w * n) := by
  rw [Nat.mul_succ, Nat.pow_add, Nat.mul_comm]

theorem pow_len_split (w : Nat) {k n : Nat} (h : k ≤ n) : 2 ^ (w * n) = 2 ^ (w * k) * 2 ^ (w * (n - k)) := by
  rw [← Nat.pow_add, ← Nat.mul_add]; congr 2; omega

theorem value_append (X Y : List (BitVec w)) :
    value (X ++ Y) = value X + 2 ^ (w * X.length) * value Y := by
  induction X with
  | nil => simp
  | cons d X ih =>
    simp only [List.cons_append, value_cons, List.length_cons, ih]
    ring

theorem value_lt : value X < 2 ^ (w * X.length) := by
  induction X with
  | nil => simp
  | cons d X ih =>
    have hd := d.isLt
    rw [List.length_cons, pow_succ_len]
    calc d.toNat + 2 ^ w * value X < 2 ^ w * (value X + 1) := by rw [Nat.mul_succ]; omega
      _ ≤ 2 ^ w * 2 ^ (w * X.length) := Nat.mul_le_mul_left _ ih

@[simp] theorem value_replicate_zero : value (List.replicate n 0#w) = 0 := by
  induction n with
  | zero => rfl
  | succ n ih => simp [List.replicate_succ, ih]

@[simp] theorem value_append_zeros (n : Nat) : value (X ++ List.replicate n 0#w) = value X := by
  simp [value_append]

theorem value_concat (d : BitVec w) : value (X ++ [d]) = value X + 2 ^ (w * X.length) * d.toNat := by
  simp [value_append]

theorem value_split_at (k : Nat) : value X = value (X.take k) + 2 ^ (w * k) * value (X.drop k) := by
  rcases Nat.le_total k X.length with h | h
  · conv_lhs => rw [← List.take_append_drop k X]
    rw [value_append, List.length_take, Nat.min_eq_left h]
  · simp [List.take_of_length_le h, List.drop_eq_nil_of_le h]

theorem value_take_lt (k : Nat) : value (X.take k) < 2 ^ (w * k) :=
  lt_of_lt_of_le (value_lt _)
    (Nat.pow_le_pow_right (by norm_num) (Nat.mul_le_mul_left _ (List.length_take_le _ _)))

theorem value_take (k : Nat) : value (X.take k) = value X % 2 ^ (w * k) := by
  rw [value_split_at X k, Nat.add_mul_mod_self_left, Nat.mod_eq_of_lt (value_take_lt X k)]

theorem value_drop (k : Nat) : value (X.drop k) = value X / 2 ^ (w * k) := by
  rw [value_split_at X k, Nat.add_mul_div_left _ _ (by positivity), Nat.div_eq_of_lt (value_take_lt X k),
    Nat.zero_add]

theorem value_eq_zero_iff : value X = 0 ↔ ∀ d ∈ X, d = 0#w := by
  induction X with
  | nil => simp
  | cons d X ih =>
    have h2 : 2 ^ w ≠ 0 := by positivity
    simp only [value_cons, Nat.add_eq_zero_iff, Nat.mul_eq_zero, h2, ih, List.forall_mem_cons]
    rw [← BitVec.toNat_inj]
    simp

/-- Digit lists of one length are told apart by their values. -/
theorem eq_of_value_eq {X Y : List (BitVec w)} (hl : X.length = Y.length) (h : value X = value Y) : X = Y := by
  induction X generalizing Y with
  | nil => exact (List.length_eq_zero_iff.1 hl.symm).symm
  | cons d X ih =>
    match Y, hl with
    | e :: Y, hl =>
      simp only [value_cons] at h
      have hd := d.isLt
      have he := e.isLt
      have h1 : d.toNat = e.toNat := by
        have := congrArg (· % 2 ^ w) h
        simpa using this
      have h2 : value X = value Y :=
        Nat.eq_of_mul_eq_mul_left (show 0 < 2 ^ w by positivity) (by omega)
      rw [BitVec.toNat_inj.1 h1, ih (by simpa using hl) h2]

/-! ## Sums of digits with signed weights -/

/-- Integer digits, little-endian, evaluated at the base `2 ^ w`. -/
def horner (w : Nat) : List ℤ → ℤ
  | [] => 0
  | a :: as => a + 2 ^ w * horner w as

@[simp] theorem horner_nil : horner w [] = 0 := rfl

@[simp] theorem horner_cons (a : ℤ) (as : List ℤ) : horner w (a :: as) = a + 2 ^ w * horner w as := rfl

theorem horner_toNat (p : ℤ) (X : List (BitVec w)) :
    horner w (X.map (fun d => p * d.toNat)) = p * value X := by
  induction X with
  | nil => simp
  | cons d X ih => simp only [List.map_cons, horner_cons, ih, value_cons]; push_cast; ring

theorem horner_zip (p q : ℤ) (X Y : List (BitVec w)) (h : Y.length ≤ X.length) :
    horner w ((X.zip Y).map (fun d => p * d.1.toNat + q * d.2.toNat)) =
      p * value (X.take Y.length) + q * value Y := by
  induction Y generalizing X with
  | nil => simp
  | cons y Y ih =>
    match X, h with
    | x :: X, h =>
      simp only [List.zip_cons_cons, List.map_cons, horner_cons, List.length_cons, List.take_succ_cons,
        value_cons, ih X (by simpa using h)]
      push_cast; ring

/-! ## Loops from the least significant digit up -/

/-- A loop that turns each element into a digit and carries a state along. -/
def chain (f : α → σ → BitVec w × σ) : List α → σ → List (BitVec w) × σ
  | [], s => ([], s)
  | a :: as, s =>
    let r := f a s
    let t := chain f as r.2
    (r.1 :: t.1, t.2)

@[simp] theorem chain_nil (s : σ) : chain f [] s = ([], s) := rfl

@[simp] theorem chain_cons (a : α) (as : List α) (s : σ) :
    chain f (a :: as) s = ((f a s).1 :: (chain f as (f a s).2).1, (chain f as (f a s).2).2) := rfl

@[simp] theorem chain_length (as : List α) (s : σ) : (chain f as s).1.length = as.length := by
  induction as generalizing s with
  | nil => rfl
  | cons a as ih => simp [ih]

theorem chain_append (as bs : List α) (s : σ) :
    chain f (as ++ bs) s = ((chain f as s).1 ++ (chain f bs (chain f as s).2).1,
      (chain f bs (chain f as s).2).2) := by
  induction as generalizing s with
  | nil => rfl
  | cons a as ih => simp [ih]

/-- If each step trades the incoming state and its element for a digit and
`2 ^ w` times the outgoing state, so does the whole loop. -/
theorem chain_value (μ : α → ℤ) (ν : σ → ℤ) (Inv : σ → Prop)
    (hf : ∀ a s, Inv s → Inv (f a s).2 ∧ ((f a s).1.toNat : ℤ) + 2 ^ w * ν (f a s).2 = μ a + ν s) (as : List α)
    (s : σ) (hs : Inv s) :
    Inv (chain f as s).2 ∧
      (value (chain f as s).1 : ℤ) + 2 ^ (w * as.length) * ν (chain f as s).2 =
        horner w (as.map μ) + ν s := by
  induction as generalizing s with
  | nil => simpa using hs
  | cons a as ih =>
    obtain ⟨h1, h2⟩ := hf a s hs
    obtain ⟨h3, h4⟩ := ih _ h1
    refine ⟨h3, ?_⟩
    have hp : (2 : ℤ) ^ (w * (as.length + 1)) = 2 ^ w * 2 ^ (w * as.length) := by
      exact_mod_cast pow_succ_len w as.length
    simp only [chain_cons, value_cons, List.length_cons, List.map_cons, horner_cons, hp]
    push_cast
    linear_combination h2 + 2 ^ w * h4

/-- `chain_value` for a loop over two digit lists with weights `p` and `q`. -/
theorem chain_zip_value (f : BitVec w × BitVec w → σ → BitVec w × σ) (p q : ℤ) (ν : σ → ℤ) (Inv : σ → Prop)
    (hf : ∀ x y s, Inv s → Inv (f (x, y) s).2 ∧
      ((f (x, y) s).1.toNat : ℤ) + 2 ^ w * ν (f (x, y) s).2 = p * x.toNat + q * y.toNat + ν s)
    (X Y : List (BitVec w)) (hl : Y.length ≤ X.length) (s : σ) (hs : Inv s) :
    Inv (chain f (X.zip Y) s).2 ∧
      (value (chain f (X.zip Y) s).1 : ℤ) + 2 ^ (w * Y.length) * ν (chain f (X.zip Y) s).2 =
        p * value (X.take Y.length) + q * value Y + ν s := by
  have h := chain_value f (fun d => p * d.1.toNat + q * d.2.toNat) ν Inv
    (fun a s hs => hf a.1 a.2 s hs) (X.zip Y) s hs
  rwa [horner_zip p q X Y hl, List.length_zip, Nat.min_eq_right hl] at h

/-- `chain_value` for a loop over one digit list with weight `p`. -/
theorem chain_list_value (f : BitVec w → σ → BitVec w × σ) (p : ℤ) (ν : σ → ℤ) (Inv : σ → Prop)
    (hf : ∀ x s, Inv s → Inv (f x s).2 ∧ ((f x s).1.toNat : ℤ) + 2 ^ w * ν (f x s).2 = p * x.toNat + ν s)
    (X : List (BitVec w)) (s : σ) (hs : Inv s) :
    Inv (chain f X s).2 ∧
      (value (chain f X s).1 : ℤ) + 2 ^ (w * X.length) * ν (chain f X s).2 = p * value X + ν s := by
  have h := chain_value f (fun d => p * d.toNat) ν Inv hf X s hs
  rwa [horner_toNat] at h

/-- A loop that updates a digit list in place until `stop` holds of the state. -/
def chainWhile (stop : σ → Bool) (f : BitVec w → σ → BitVec w × σ) :
    List (BitVec w) → σ → List (BitVec w) × σ
  | [], s => ([], s)
  | d :: ds, s =>
    if stop s then (d :: ds, s)
    else
      let r := f d s
      let t := chainWhile stop f ds r.2
      (r.1 :: t.1, t.2)

@[simp] theorem chainWhile_length (stop : σ → Bool) (f : BitVec w → σ → BitVec w × σ)
    (X : List (BitVec w)) (s : σ) : (chainWhile stop f X s).1.length = X.length := by
  induction X generalizing s with
  | nil => rfl
  | cons d X ih =>
    simp only [chainWhile]
    split
    · rfl
    · simp [ih]

/-- Stopping early loses nothing when a stopped state weighs nothing. -/
theorem chainWhile_value (stop : σ → Bool) (f : BitVec w → σ → BitVec w × σ) (ν : σ → ℤ) (Inv : σ → Prop)
    (hstop : ∀ s, stop s = true → ν s = 0)
    (hf : ∀ x s, Inv s → Inv (f x s).2 ∧ ((f x s).1.toNat : ℤ) + 2 ^ w * ν (f x s).2 = x.toNat + ν s)
    (X : List (BitVec w)) (s : σ) (hs : Inv s) :
    Inv (chainWhile stop f X s).2 ∧
      (value (chainWhile stop f X s).1 : ℤ) + 2 ^ (w * X.length) * ν (chainWhile stop f X s).2 =
        value X + ν s := by
  induction X generalizing s with
  | nil => simpa [chainWhile] using hs
  | cons d X ih =>
    simp only [chainWhile]
    split
    · rename_i h
      refine ⟨hs, ?_⟩
      simp [hstop s h]
    · obtain ⟨h1, h2⟩ := hf d s hs
      obtain ⟨h3, h4⟩ := ih _ h1
      refine ⟨h3, ?_⟩
      have hp : (2 : ℤ) ^ (w * (X.length + 1)) = 2 ^ w * 2 ^ (w * X.length) := by
        exact_mod_cast pow_succ_len w X.length
      simp only [value_cons, List.length_cons, hp]
      push_cast
      linear_combination h2 + 2 ^ w * h4

/-! ## Loops from the most significant digit down -/

/-- A loop over the digits from the most significant one down. -/
def chainDown (f : α → σ → BitVec w × σ) : List α → σ → List (BitVec w) × σ
  | [], s => ([], s)
  | a :: as, s =>
    let t := chainDown f as s
    let r := f a t.2
    (r.1 :: t.1, r.2)

@[simp] theorem chainDown_length (as : List α) (s : σ) : (chainDown f as s).1.length = as.length := by
  induction as with
  | nil => rfl
  | cons a as ih => simp [chainDown, ih]

/-- Long division: if each step divides the remainder followed by the next
digit by `b`, the loop divides the whole list by `b`. -/
theorem chainDown_value (f : BitVec w → σ → BitVec w × σ) (b : Nat) (ν : σ → Nat) (Inv : σ → Prop)
    (hf : ∀ a s, Inv s → Inv (f a s).2 ∧ b * (f a s).1.toNat + ν (f a s).2 = 2 ^ w * ν s + a.toNat)
    (X : List (BitVec w)) (s : σ) (hs : Inv s) :
    Inv (chainDown f X s).2 ∧
      b * value (chainDown f X s).1 + ν (chainDown f X s).2 = 2 ^ (w * X.length) * ν s + value X := by
  induction X with
  | nil => simpa [chainDown] using hs
  | cons d X ih =>
    obtain ⟨h1, h2⟩ := ih
    obtain ⟨h3, h4⟩ := hf d _ h1
    refine ⟨h3, ?_⟩
    simp only [chainDown, value_cons, List.length_cons]
    zify at h2 h4 ⊢
    linear_combination h4 + 2 ^ w * h2

/-! ## Changing the digit width -/

variable {v : Nat}

/-- The lowest `k` digits of width `v` of a digit. -/
def splitDigit (v k : Nat) (d : BitVec w) : List (BitVec v) :=
  (List.range k).map fun j => (d >>> (v * j)).setWidth v

/-- Each digit cut into `k` digits of width `v`. -/
def split (v k : Nat) (X : List (BitVec w)) : List (BitVec v) := X.flatMap (splitDigit v k)

/-- `n` digits of width `w`, each put together from `k` digits; missing ones are zero. -/
def join (w k n : Nat) (X : List (BitVec v)) : List (BitVec w) :=
  (List.range n).map fun i => BitVec.ofNat w (value ((X.drop (k * i)).take k))

@[simp] theorem splitDigit_length : (splitDigit v k d).length = k := by simp [splitDigit]

@[simp] theorem split_length : (split v k X).length = k * X.length := by
  induction X with
  | nil => rfl
  | cons d X ih => simp only [split, List.flatMap_cons, List.length_append, splitDigit_length, List.length_cons] at *; rw [ih]; ring

@[simp] theorem join_length (X : List (BitVec v)) : (join w k n X).length = n := by simp [join]

theorem value_splitDigit : value (splitDigit v k d) = d.toNat % 2 ^ (v * k) := by
  induction k with
  | zero => simp [splitDigit, Nat.mod_one]
  | succ k ih =>
    have hc : splitDigit v (k + 1) d = splitDigit v k d ++ [(d >>> (v * k)).setWidth v] := by
      simp [splitDigit, List.range_succ]
    rw [hc, value_concat, ih, splitDigit_length, BitVec.toNat_setWidth, BitVec.toNat_ushiftRight,
      Nat.shiftRight_eq_div_pow, Nat.mul_succ, Nat.pow_add, Nat.mod_mul]

theorem value_split (h : w = v * k) (X : List (BitVec w)) : value (split v k X) = value X := by
  induction X with
  | nil => rfl
  | cons d X ih =>
    have hc : split v k (d :: X) = splitDigit v k d ++ split v k X := rfl
    rw [hc, value_append, value_splitDigit, splitDigit_length, ih, value_cons, ← h, Nat.mod_eq_of_lt d.isLt]

theorem value_join_take (h : w = v * k) (X : List (BitVec v)) : value (join w k n X) = value (X.take (k * n)) := by
  induction n with
  | zero => simp [join]
  | succ n ih =>
    have hc : join w k (n + 1) X = join w k n X ++ [BitVec.ofNat w (value ((X.drop (k * n)).take k))] := by
      simp [join, List.range_succ]
    have hlt : value ((X.drop (k * n)).take k) < 2 ^ w := by rw [h]; exact value_take_lt _ _
    rw [hc, value_concat, ih, join_length, BitVec.toNat_ofNat, Nat.mod_eq_of_lt hlt,
      value_split_at (X.take (k * (n + 1))) (k * n), List.take_take, List.drop_take, h, Nat.mul_assoc,
      Nat.min_eq_left (Nat.mul_le_mul_left _ (Nat.le_succ n)), Nat.mul_succ, Nat.add_sub_cancel_left]

/-- Grouping digits keeps the number, if there is room for all of them. -/
theorem value_join (h : w = v * k) (X : List (BitVec v)) (hn : X.length ≤ k * n) : value (join w k n X) = value X := by
  rw [value_join_take k n h, List.take_of_length_le hn]

end Radix
