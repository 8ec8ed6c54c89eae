import V8Core.Lib.Positional
/-!
# Decimal digit strings

Lists of decimal digits with the most significant digit first, the numbers
they stand for, and the digits of a number at a fixed width.
-/

namespace Decimal

variable {ds : List Nat} (k n : Nat)

/-- Every element is a decimal digit. -/
def IsDigits (ds : List Nat) : Prop := ∀ d ∈ ds, d < 10

instance : DecidablePred IsDigits := fun ds => inferInstanceAs (Decidable (∀ d ∈ ds, d < 10))

/-- The number a digit string stands for. -/
def value (ds : List Nat) : Nat := Positional.value 10 ds

@[simp] theorem value_nil : value [] = 0 := rfl

theorem value_cons (d : Nat) (ds : List Nat) : value (d :: ds) = d * 10 ^ ds.length + value ds :=
  Positional.value_cons d ds

theorem value_append (as bs : List Nat) : value (as ++ bs) = value as * 10 ^ bs.length + value bs :=
  Positional.value_append as bs

theorem value_lt (h : IsDigits ds) : value ds < 10 ^ ds.length := Positional.value_lt h

theorem value_eq_zero_iff : value ds = 0 ↔ ∀ d ∈ ds, d = 0 := Positional.value_eq_zero_iff (by decide) ds

theorem IsDigits.take (h : IsDigits ds) (k : Nat) : IsDigits (ds.take k) :=
  fun d hd => h d (List.mem_of_mem_take hd)

theorem IsDigits.drop (h : IsDigits ds) (k : Nat) : IsDigits (ds.drop k) :=
  fun d hd => h d (List.mem_of_mem_drop hd)

/-- The leading digits are the quotient by the weight of the others. -/
theorem value_take (h : IsDigits ds) (k : Nat) : value (ds.take k) = value ds / 10 ^ (ds.length - k) := by
  have hsplit := value_append (ds.take k) (ds.drop k)
  have hlow := value_lt (h.drop k)
  rw [List.take_append_drop, List.length_drop] at hsplit
  rw [List.length_drop] at hlow
  rw [hsplit, mul_comm, Nat.mul_add_div (by positivity), Nat.div_eq_of_lt hlow, add_zero]

theorem value_drop_zeros (ds : List Nat) : value (ds.dropWhile (· == 0)) = value ds := by
  induction ds with
  | nil => rfl
  | cons d ds ih =>
    rw [List.dropWhile_cons]
    split
    case isTrue h =>
      rw [beq_iff_eq] at h
      rw [ih, value_cons, h, zero_mul, zero_add]
    case isFalse => rfl

theorem value_take_drop (ds : List Nat) (n : Nat) :
    value ds = value (ds.take n) * 10 ^ (ds.length - n) + value (ds.drop n) := by
  conv_lhs => rw [← List.take_append_drop n ds]
  rw [value_append, List.length_drop]

theorem value_pos_iff : 0 < value ds ↔ ds.any (· != 0) = true := by
  induction ds with
  | nil => simp
  | cons d ds ih =>
    rw [value_cons, List.any_cons, Bool.or_eq_true, bne_iff_ne, ← ih]
    have hpow : 0 < 10 ^ ds.length := by positivity
    rcases Nat.eq_zero_or_pos d with rfl | hd
    · simp
    · have := Nat.mul_pos hd hpow
      omega

/-- A first digit that is not zero bounds the number from below. -/
theorem pow_le_value (hlead : ds.head? ≠ some 0) (hne : ds ≠ []) : 10 ^ (ds.length - 1) ≤ value ds := by
  cases ds with
  | nil => exact absurd rfl hne
  | cons d ds =>
    have hd : 0 < d := Nat.pos_of_ne_zero fun h => hlead (by rw [h]; rfl)
    rw [value_cons, List.length_cons, Nat.add_sub_cancel]
    exact le_trans (Nat.le_mul_of_pos_left _ hd) (Nat.le_add_right _ _)

/-- The last `k` digits of a number. -/
def digits : Nat → Nat → List Nat
  | 0, _ => []
  | k + 1, n => digits k (n / 10) ++ [n % 10]

@[simp] theorem length_digits : (digits k n).length = k := by
  induction k generalizing n with
  | zero => rfl
  | succ k ih => rw [digits, List.length_append, ih]; rfl

theorem isDigits_digits : IsDigits (digits k n) := by
  induction k generalizing n with
  | zero => exact fun d hd => nomatch hd
  | succ k ih =>
    intro d hd
    rw [digits, List.mem_append, List.mem_singleton] at hd
    rcases hd with hd | rfl
    · exact ih _ d hd
    · omega

theorem value_digits : value (digits k n) = n % 10 ^ k := by
  induction k generalizing n with
  | zero => rw [digits, pow_zero, Nat.mod_one]; rfl
  | succ k ih =>
    rw [digits, value_append, ih, List.length_singleton, pow_one, pow_succ', Nat.mod_mul]
    rw [value_cons, value_nil, List.length_nil, pow_zero]
    omega

/-- A number that fits is the value of its digits. -/
theorem value_digits_of_lt {k n : Nat} (h : n < 10 ^ k) : value (digits k n) = n := by
  rw [value_digits, Nat.mod_eq_of_lt h]

/-- A list is a run of one element and what follows it. -/
theorem exists_replicate_append (c : Nat) (l : List Nat) :
    ∃ z, l = List.replicate z c ++ l.dropWhile (· == c) ∧ (l.head? = some c ↔ 0 < z) ∧
      (l.dropWhile (· == c)).head? ≠ some c := by
  induction l with
  | nil => exact ⟨0, by simp⟩
  | cons d l ih =>
    rw [List.dropWhile_cons]
    split
    next hd =>
      obtain ⟨z, hz, -, hhead⟩ := ih
      obtain rfl : d = c := by simpa using hd
      exact ⟨z + 1, by rw [List.replicate_succ, List.cons_append, ← hz], by simp, hhead⟩
    next hd => exact ⟨0, rfl, by simpa using hd, by simpa using hd⟩

end Decimal
