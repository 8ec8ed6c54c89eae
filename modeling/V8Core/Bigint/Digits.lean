import V8Core.Lib.Radix
/-!
# Digits and digit arithmetic

`bigint.h`, `digit-arithmetic.h` and `util.h`. A `Digits` view is the list of
the `w`-bit digits it shows, least significant first, where `w` is
`kDigitBits`. The digit helpers are translated from their `HAVE_TWODIGIT_T`
branch, in `2 * w` bits. Of the other branch `digit_add3`, `digit_mul` and
`digit_div` are in `V8Core.Bigint.Portable`.

A function that fills an `RWDigits` takes the output's length and returns the
digits written. It never cuts them off: a result longer than the output is a
write past its end, so a length lemma is also a memory safety lemma.
-/

open Radix

namespace V8Core.Bigint

variable {w : Nat}
variable (X : List (BitVec w)) (a : BitVec w) (A : List (BitVec w)) (b : BitVec w) (B : List (BitVec w))

def kHalfDigitBits (w : Nat) : Nat := w / 2

/-! ## Views -/

/-- The slice constructor `Digits(src, offset, len)`, clamped to the source. -/
def slice (X : List (BitVec w)) (offset len : Nat) : List (BitVec w) := (X.drop offset).take len

/-- `Normalize()`: drop leading zero digits. -/
def normalize (X : List (BitVec w)) : List (BitVec w) := X.rdropWhile (· == 0#w)

/-- `msd()`, read as zero where there is none. -/
def msd (X : List (BitVec w)) : BitVec w := X.getLastD 0#w

/-- `X[i]`, read as zero outside the view. -/
def digit (X : List (BitVec w)) (i : Nat) : BitVec w := X.getD i 0#w

/-- `Z := digits`, with the rest of an output of `len` digits cleared. -/
def padTo (len : Nat) (Z : List (BitVec w)) : List (BitVec w) := Z ++ List.replicate (len - Z.length) 0#w

/-- No leading zero digit (`IsDigitNormalized`). -/
def IsDigitNormalized (X : List (BitVec w)) : Prop := X.getLast? ≠ some 0#w

instance (X : List (BitVec w)) : Decidable (IsDigitNormalized X) :=
  inferInstanceAs (Decidable (X.getLast? ≠ some 0#w))

@[simp] theorem value_padTo (len : Nat) (Z : List (BitVec w)) : value (padTo len Z) = value Z := by
  simp [padTo]

@[simp] theorem length_padTo (len : Nat) (Z : List (BitVec w)) :
    (padTo len Z).length = max len Z.length := by
  simp only [padTo, List.length_append, List.length_replicate]
  omega

@[simp] theorem normalize_nil : normalize ([] : List (BitVec w)) = [] := rfl

theorem normalize_concat_zero : normalize (X ++ [0#w]) = normalize X := by
  simp [normalize]

theorem normalize_concat {d : BitVec w} (h : d ≠ 0#w) : normalize (X ++ [d]) = X ++ [d] := by
  simp [normalize, h]

/-- What `Normalize` drops are zeros. -/
theorem normalize_append_zeros : X = normalize X ++ List.replicate (X.length - (normalize X).length) 0#w := by
  induction X using List.reverseRecOn with
  | nil => rfl
  | append_singleton X d ih =>
    by_cases h : d = 0#w
    · subst h
      have hl : (normalize X).length ≤ X.length := by
        have := congrArg List.length ih; simp at this; omega
      rw [normalize_concat_zero, List.length_append, List.length_singleton,
        show X.length + 1 - (normalize X).length = X.length - (normalize X).length + 1 by omega,
        List.replicate_succ', ← List.append_assoc, ← ih]
    · rw [normalize_concat X h]; simp

@[simp] theorem value_normalize : value (normalize X) = value X := by
  conv_rhs => rw [normalize_append_zeros X]
  simp

theorem length_normalize_le : (normalize X).length ≤ X.length := by
  have := congrArg List.length (normalize_append_zeros X); simp at this; omega

theorem isDigitNormalized_normalize : IsDigitNormalized (normalize X) := by
  induction X using List.reverseRecOn with
  | nil => simp [IsDigitNormalized]
  | append_singleton X d ih =>
    by_cases h : d = 0#w
    · subst h; rwa [normalize_concat_zero]
    · rw [normalize_concat X h]; simpa [IsDigitNormalized] using h

/-- The top digit of a normalized list puts its value above all shorter lists. -/
theorem le_value_of_normalized {X : List (BitVec w)} (h : IsDigitNormalized X) (hX : X ≠ []) :
    2 ^ (w * (X.length - 1)) ≤ value X := by
  rcases List.eq_nil_or_concat X with rfl | ⟨Y, d, rfl⟩
  · exact absurd rfl hX
  · have hd : d ≠ 0#w := by simpa [IsDigitNormalized] using h
    have : 1 ≤ d.toNat := by
      rcases Nat.eq_zero_or_pos d.toNat with h0 | h0
      · exact absurd (BitVec.toNat_inj.1 (by simpa using h0)) hd
      · exact h0
    simp only [List.concat_eq_append, value_concat, List.length_append, List.length_singleton,
      Nat.add_sub_cancel]
    nlinarith [Nat.mul_le_mul_left (2 ^ (w * Y.length)) this]

theorem isDigitNormalized_of_le {X : List (BitVec w)} (h : X ≠ [] → 2 ^ (w * (X.length - 1)) ≤ value X) :
    IsDigitNormalized X := by
  rcases List.eq_nil_or_concat X with rfl | ⟨Y, d, rfl⟩
  · simp [IsDigitNormalized]
  · rintro h0
    have hd : d = 0#w := by simpa using h0
    have hY := value_lt Y
    have hle := h (by simp)
    simp [hd, value_concat] at hle
    omega

theorem value_lt_of_length_lt {X Y : List (BitVec w)} (hY : IsDigitNormalized Y) (hl : X.length < Y.length) :
    value X < value Y := by
  have hY0 : Y ≠ [] := by rintro rfl; simp at hl
  calc value X < 2 ^ (w * X.length) := value_lt X
    _ ≤ 2 ^ (w * (Y.length - 1)) := Nat.pow_le_pow_right (by norm_num) (Nat.mul_le_mul_left _ (by omega))
    _ ≤ value Y := le_value_of_normalized hY hY0

/-- Normalized digit lists are told apart by their values. -/
theorem eq_of_normalized {X Y : List (BitVec w)} (hX : IsDigitNormalized X) (hY : IsDigitNormalized Y)
    (h : value X = value Y) : X = Y := by
  rcases Nat.lt_trichotomy X.length Y.length with hl | hl | hl
  · exact absurd h (value_lt_of_length_lt hY hl).ne
  · exact eq_of_value_eq hl h
  · exact absurd h (value_lt_of_length_lt hX hl).ne'

theorem normalize_eq_nil_iff : normalize X = [] ↔ value X = 0 := by
  constructor
  · intro h; rw [← value_normalize, h]; rfl
  · intro h
    exact eq_of_normalized (isDigitNormalized_normalize X) (by simp [IsDigitNormalized]) (by simpa using h)

/-- A number below `2 ^ (w * k)` has at most `k` digits. -/
theorem length_le_of_value_lt {X : List (BitVec w)} (h : IsDigitNormalized X) {k : Nat}
    (hk : value X < 2 ^ (w * k)) : X.length ≤ k := by
  by_contra hlt
  have hX : X ≠ [] := by rintro rfl; simp at hlt
  have h1 := le_value_of_normalized h hX
  have h2 : 2 ^ (w * k) ≤ 2 ^ (w * (X.length - 1)) :=
    Nat.pow_le_pow_right (by norm_num) (Nat.mul_le_mul_left _ (by omega))
  omega

theorem drop_eq_digit_cons (n : Nat) (h : n < X.length) : X.drop n = digit X n :: X.drop (n + 1) := by
  rw [digit, List.getD_eq_getElem _ _ h, List.drop_eq_getElem_cons h]

/-- The lowest bits of a number: whole digits and the low bits of the next one. -/
theorem value_mod_bits (k s : Nat) (hs : s ≤ w) :
    value X % 2 ^ (w * k + s) = value (X.take k) + 2 ^ (w * k) * ((digit X k).toNat % 2 ^ s) := by
  have hlow : value (X.drop k) % 2 ^ s = (digit X k).toNat % 2 ^ s := by
    rcases Nat.lt_or_ge k X.length with h | h
    · have hp : 2 ^ w = 2 ^ s * 2 ^ (w - s) := (pow_mul_pow_sub 2 (by omega)).symm
      rw [drop_eq_digit_cons X _ h, value_cons, hp, Nat.mul_assoc, Nat.add_mul_mod_self_left]
    · rw [List.drop_eq_nil_of_le h, digit, List.getD_eq_default _ _ h]; simp
  rw [Nat.pow_add, Nat.mod_mul, ← value_take, ← value_drop, hlow]

/-! ## Compare -/

/-- The digit scan of `Compare`, from the top: the first pair that differs decides. -/
def compareDigits (A B : List (BitVec w)) : Int :=
  match (A.zip B).reverse.find? (fun p => p.1 != p.2) with
  | none => 0
  | some p => if p.1 > p.2 then 1 else -1

/-- `Compare(A, B)`. -/
def compare (A B : List (BitVec w)) : Int :=
  let A := normalize A
  let B := normalize B
  let diff : Int := A.length - B.length
  if diff ≠ 0 then diff else compareDigits A B

/-- `GreaterThanOrEqual(A, B)`. -/
def greaterThanOrEqual (A B : List (BitVec w)) : Bool := compare A B ≥ 0

theorem compareDigits_cons (A B : List (BitVec w)) :
    compareDigits (a :: A) (b :: B) =
      if compareDigits A B ≠ 0 then compareDigits A B else if a > b then 1 else if a = b then 0 else -1 := by
  unfold compareDigits
  simp only [List.zip_cons_cons, List.reverse_cons, List.find?_append]
  cases h : (A.zip B).reverse.find? (fun p => p.1 != p.2) with
  | some p => simp only [Option.some_or]; split <;> simp
  | none =>
    by_cases hab : a = b
    · subst hab; simp
    · simp [hab]

theorem compareDigits_spec (hl : A.length = B.length) :
    (compareDigits A B < 0 ↔ value A < value B) ∧ (compareDigits A B = 0 ↔ value A = value B) := by
  induction A generalizing B with
  | nil => rw [List.length_eq_zero_iff.1 hl.symm]; simp [compareDigits]
  | cons a A ih =>
    match B, hl with
    | b :: B, hl =>
      obtain ⟨h1, h2⟩ := ih B (by simpa using hl)
      rw [compareDigits_cons, value_cons, value_cons]
      rcases Nat.lt_trichotomy (value A) (value B) with hlt | heq | hgt
      · have hc := h1.2 hlt
        rw [if_pos (by omega)]
        have : 2 ^ w * (value A + 1) ≤ 2 ^ w * value B := Nat.mul_le_mul_left _ hlt
        rw [Nat.mul_succ] at this
        omega
      · rw [heq]
        simp only [BitVec.lt_def, ← BitVec.toNat_inj]
        split
        · omega
        · split <;> omega
      · have hc1 : ¬ compareDigits A B < 0 := by rw [h1]; omega
        have hc2 : ¬ compareDigits A B = 0 := by rw [h2]; omega
        rw [if_pos (by omega)]
        have : 2 ^ w * (value B + 1) ≤ 2 ^ w * value A := Nat.mul_le_mul_left _ hgt
        rw [Nat.mul_succ] at this
        omega

theorem compare_spec : (compare A B < 0 ↔ value A < value B) ∧ (compare A B = 0 ↔ value A = value B) := by
  rw [← value_normalize A, ← value_normalize B]
  have hA := isDigitNormalized_normalize A
  have hB := isDigitNormalized_normalize B
  simp only [compare]
  rcases Nat.lt_trichotomy (normalize A).length (normalize B).length with hl | hl | hl
  · have := value_lt_of_length_lt hB hl
    rw [if_pos (by omega)]; omega
  · rw [if_neg (by omega)]; exact compareDigits_spec _ _ hl
  · have := value_lt_of_length_lt hA hl
    rw [if_pos (by omega)]; omega

theorem compare_lt : compare A B < 0 ↔ value A < value B := (compare_spec A B).1

theorem greaterThanOrEqual_iff : greaterThanOrEqual A B = true ↔ value B ≤ value A := by
  have := compare_lt A B
  simp only [greaterThanOrEqual, decide_eq_true_eq]
  omega

/-! ## Digit arithmetic -/

/-- `digit_add2(a, b, &carry)`: the sum digit and the carry. -/
def digitAdd2 (a b : BitVec w) : BitVec w × BitVec w :=
  let result := a.setWidth (2 * w) + b.setWidth (2 * w)
  (result.setWidth w, (result >>> w).setWidth w)

/-- `digit_add3(a, b, c, &carry)`. -/
def digitAdd3 (a b c : BitVec w) : BitVec w × BitVec w :=
  let result := a.setWidth (2 * w) + b.setWidth (2 * w) + c.setWidth (2 * w)
  (result.setWidth w, (result >>> w).setWidth w)

/-- `digit_sub(a, b, &borrow)`: the difference digit and the borrow. -/
def digitSub (a b : BitVec w) : BitVec w × BitVec w :=
  let result := a.setWidth (2 * w) - b.setWidth (2 * w)
  (result.setWidth w, ((result >>> w) &&& 1#(2 * w)).setWidth w)

/-- `digit_sub2(a, b, borrow_in, &borrow_out)`. -/
def digitSub2 (a b borrowIn : BitVec w) : BitVec w × BitVec w :=
  let subtrahend := b.setWidth (2 * w) + borrowIn.setWidth (2 * w)
  let result := a.setWidth (2 * w) - subtrahend
  (result.setWidth w, ((result >>> w) &&& 1#(2 * w)).setWidth w)

/-- `digit_mul(a, b, &high)`: the low and the high digit of the product. -/
def digitMul (a b : BitVec w) : BitVec w × BitVec w :=
  let result := a.setWidth (2 * w) * b.setWidth (2 * w)
  (result.setWidth w, (result >>> w).setWidth w)

/-- `digit_div(high, low, divisor, &remainder)`: the quotient and the
remainder, as the `div` instruction of the x86 branches computes them. -/
def digitDiv (high low divisor : BitVec w) : BitVec w × BitVec w :=
  let dividend := 2 ^ w * high.toNat + low.toNat
  (BitVec.ofNat w (dividend / divisor.toNat), BitVec.ofNat w (dividend % divisor.toNat))

theorem two_pow_double (w : Nat) : 2 ^ (2 * w) = 2 ^ w * 2 ^ w := by rw [Nat.two_mul, Nat.pow_add]

theorem toNat_twodigit : (a.setWidth (2 * w)).toNat = a.toNat := by
  rw [BitVec.toNat_setWidth, Nat.mod_eq_of_lt]
  exact lt_of_lt_of_le a.isLt (Nat.pow_le_pow_right (by norm_num) (by omega))

/-- A `twodigit_t` is its two halves. -/
theorem twodigit_split (r : BitVec (2 * w)) :
    (r.setWidth w).toNat + 2 ^ w * ((r >>> w).setWidth w).toNat = r.toNat := by
  have hr := r.isLt
  rw [two_pow_double] at hr
  rw [BitVec.toNat_setWidth, BitVec.toNat_setWidth, BitVec.toNat_ushiftRight, Nat.shiftRight_eq_div_pow,
    Nat.mod_eq_of_lt (Nat.div_lt_of_lt_mul hr), Nat.mod_add_div]

theorem digitAdd3_spec (a b c : BitVec w) :
    (digitAdd3 a b c).1.toNat + 2 ^ w * (digitAdd3 a b c).2.toNat = a.toNat + b.toNat + c.toNat := by
  have ha := a.isLt
  have hb := b.isLt
  have hc := c.isLt
  have hlt : a.toNat + b.toNat + c.toNat < 2 ^ (2 * w) := by
    rw [two_pow_double]
    generalize 2 ^ w = B at *
    obtain ⟨k, rfl⟩ : ∃ k, B = k + 1 := ⟨B - 1, by omega⟩
    rcases k with _ | _ | k <;> nlinarith
  rw [digitAdd3, twodigit_split, BitVec.toNat_add, BitVec.toNat_add, toNat_twodigit, toNat_twodigit,
    toNat_twodigit, Nat.mod_add_mod, Nat.mod_eq_of_lt hlt]

theorem digitAdd2_eq : digitAdd2 a b = digitAdd3 a b 0#w := by
  simp [digitAdd2, digitAdd3]

theorem digitAdd2_spec : (digitAdd2 a b).1.toNat + 2 ^ w * (digitAdd2 a b).2.toNat = a.toNat + b.toNat := by
  rw [digitAdd2_eq]; simpa using digitAdd3_spec a b 0#w

theorem digitMul_spec : (digitMul a b).1.toNat + 2 ^ w * (digitMul a b).2.toNat = a.toNat * b.toNat := by
  have hlt : a.toNat * b.toNat < 2 ^ (2 * w) := by
    rw [two_pow_double]; exact Nat.mul_lt_mul'' a.isLt b.isLt
  rw [digitMul, twodigit_split, BitVec.toNat_mul, toNat_twodigit, toNat_twodigit, Nat.mod_eq_of_lt hlt]

/-- The borrow of a `twodigit_t` difference that underflows by at most one digit. -/
theorem twodigit_sub (x y : BitVec (2 * w)) (hx : x.toNat < 2 ^ w) (hy : y.toNat ≤ 2 ^ w) :
    ((x - y).setWidth w).toNat + y.toNat =
        x.toNat + 2 ^ w * ((((x - y) >>> w) &&& 1#(2 * w)).setWidth w).toNat ∧
      ((((x - y) >>> w) &&& 1#(2 * w)).setWidth w).toNat ≤ 1 := by
  rcases Nat.eq_zero_or_pos w with rfl | hw
  · rw [BitVec.of_length_zero (x := BitVec.setWidth 0 _)]
    simp; omega
  have hdvd : 2 ∣ 2 ^ w := dvd_pow_self 2 (by omega)
  have hB : 2 ≤ 2 ^ w := Nat.le_of_dvd (Nat.two_pow_pos w) hdvd
  have hone : (1#(2 * w)).toNat = 1 := by
    rw [BitVec.toNat_ofNat, Nat.mod_eq_of_lt (by rw [two_pow_double]; nlinarith)]
  have hbit : ((((x - y) >>> w) &&& 1#(2 * w)).setWidth w).toNat = (x - y).toNat / 2 ^ w % 2 := by
    rw [BitVec.toNat_setWidth, BitVec.toNat_and, BitVec.toNat_ushiftRight, hone, Nat.shiftRight_eq_div_pow,
      Nat.and_one_is_mod, Nat.mod_eq_of_lt (lt_of_lt_of_le (Nat.mod_lt _ (by norm_num)) hB)]
  rw [hbit, BitVec.toNat_setWidth, BitVec.toNat_sub, two_pow_double]
  refine ⟨?_, by omega⟩
  generalize hxn : x.toNat = xn at *
  generalize hyn : y.toNat = yn at *
  generalize 2 ^ w = B at *
  rcases Nat.lt_or_ge xn yn with hlt | hge
  · -- the difference wraps: its upper half is all ones
    have hsq : B * (B - 1) + B = B * B := by rw [← Nat.mul_succ, Nat.succ_eq_add_one, Nat.sub_add_cancel (by omega)]
    have hd : (B * B - yn + xn) % (B * B) = B * (B - 1) + (B + xn - yn) := by
      rw [Nat.mod_eq_of_lt] <;> omega
    have hlo : B + xn - yn < B := by omega
    rw [hd, Nat.mul_add_mod, Nat.mod_eq_of_lt hlo, Nat.mul_add_div (by omega), Nat.div_eq_of_lt hlo,
      show (B - 1 + 0) % 2 = 1 by omega]
    omega
  · have hle := Nat.le_mul_self B
    have hd : (B * B - yn + xn) % (B * B) = xn - yn := by
      rw [show B * B - yn + xn = B * B + (xn - yn) by omega, Nat.add_mod_left, Nat.mod_eq_of_lt (by omega)]
    have hlo : xn - yn < B := by omega
    rw [hd, Nat.mod_eq_of_lt hlo, Nat.div_eq_of_lt hlo]
    omega

theorem digitSub2_spec (a b c : BitVec w) (hc : c.toNat ≤ 1) :
    (digitSub2 a b c).1.toNat + b.toNat + c.toNat = a.toNat + 2 ^ w * (digitSub2 a b c).2.toNat ∧
      (digitSub2 a b c).2.toNat ≤ 1 := by
  have hb := b.isLt
  have hs : (b.setWidth (2 * w) + c.setWidth (2 * w)).toNat = b.toNat + c.toNat := by
    rw [BitVec.toNat_add, toNat_twodigit, toNat_twodigit, Nat.mod_eq_of_lt]
    have := c.isLt
    rw [two_pow_double]
    generalize 2 ^ w = B at *
    obtain ⟨k, rfl⟩ : ∃ k, B = k + 1 := ⟨B - 1, by omega⟩
    nlinarith
  have h := twodigit_sub (a.setWidth (2 * w)) (b.setWidth (2 * w) + c.setWidth (2 * w))
    (by rw [toNat_twodigit]; exact a.isLt) (by rw [hs]; omega)
  rw [hs, toNat_twodigit] at h
  rwa [← Nat.add_assoc] at h

theorem digitSub_eq : digitSub a b = digitSub2 a b 0#w := by
  simp [digitSub, digitSub2]

theorem digitSub_spec :
    (digitSub a b).1.toNat + b.toNat = a.toNat + 2 ^ w * (digitSub a b).2.toNat ∧
      (digitSub a b).2.toNat ≤ 1 := by
  rw [digitSub_eq]; simpa using digitSub2_spec a b 0#w (by simp)

theorem digitDiv_spec (high low divisor : BitVec w) (h : high.toNat < divisor.toNat) :
    divisor.toNat * (digitDiv high low divisor).1.toNat + (digitDiv high low divisor).2.toNat =
        2 ^ w * high.toNat + low.toNat ∧
      (digitDiv high low divisor).2.toNat < divisor.toNat := by
  have hd := divisor.isLt
  have hpos : 0 < divisor.toNat := by omega
  have hr : (2 ^ w * high.toNat + low.toNat) % divisor.toNat < divisor.toNat := Nat.mod_lt _ hpos
  have hq : (2 ^ w * high.toNat + low.toNat) / divisor.toNat < 2 ^ w := by
    rw [Nat.div_lt_iff_lt_mul hpos]
    have : 2 ^ w * (high.toNat + 1) ≤ 2 ^ w * divisor.toNat := Nat.mul_le_mul_left _ h
    rw [Nat.mul_succ] at this
    omega
  simp only [digitDiv, BitVec.toNat_ofNat]
  rw [Nat.mod_eq_of_lt hq, Nat.mod_eq_of_lt (lt_trans hr hd)]
  exact ⟨Nat.div_add_mod _ _, hr⟩

/-- `digit_ismax`. -/
def digitIsMax (x : BitVec w) : Bool := ~~~x == 0#w

theorem digitIsMax_iff (x : BitVec w) : digitIsMax x = true ↔ x.toNat + 1 = 2 ^ w := by
  rw [digitIsMax, beq_iff_eq, ← BitVec.toNat_inj]
  simp
  omega

/-- All digits are at maximum exactly when adding one needs a new digit. -/
theorem all_digitIsMax_iff : X.all digitIsMax = true ↔ value X + 1 = 2 ^ (w * X.length) := by
  induction X with
  | nil => simp
  | cons d X ih =>
    have hX := value_lt X
    rw [List.all_cons, Bool.and_eq_true, ih, digitIsMax_iff, value_cons, List.length_cons, pow_succ_len]
    constructor
    · rintro ⟨h1, h2⟩
      rw [← h2, Nat.mul_succ]; omega
    · intro h
      have hle : 2 ^ w * (value X + 1) ≤ 2 ^ w * 2 ^ (w * X.length) := Nat.mul_le_mul_left _ hX
      rw [Nat.mul_succ] at hle
      have h1 : d.toNat + 1 = 2 ^ w := by omega
      exact ⟨h1, Nat.eq_of_mul_eq_mul_left (show 0 < 2 ^ w by positivity) (by rw [Nat.mul_succ]; omega)⟩

/-- Shifting a digit left, with the carry of the digit below in its free bits,
and its top bits carried on. -/
theorem shl_or_spec (d c : BitVec w) (s : Nat) (hs : s ≤ w) (hc : c.toNat < 2 ^ s) :
    (d <<< s ||| c).toNat + 2 ^ w * (d >>> (w - s)).toNat = 2 ^ s * d.toNat + c.toNat ∧
      (d >>> (w - s)).toNat < 2 ^ s := by
  have hd := d.isLt
  have hw : 2 ^ w = 2 ^ s * 2 ^ (w - s) := (pow_mul_pow_sub 2 (by omega)).symm
  have hsh : (d <<< s).toNat = 2 ^ s * (d.toNat % 2 ^ (w - s)) := by
    rw [BitVec.toNat_shiftLeft, Nat.shiftLeft_eq, Nat.mul_comm, hw, Nat.mul_mod_mul_left]
  rw [BitVec.toNat_or, hsh, ← Nat.two_pow_add_eq_or_of_lt hc, BitVec.toNat_ushiftRight,
    Nat.shiftRight_eq_div_pow]
  have hdm := Nat.mod_add_div d.toNat (2 ^ (w - s))
  refine ⟨?_, ?_⟩
  · rw [hw]
    generalize d.toNat / 2 ^ (w - s) = q at *
    generalize d.toNat % 2 ^ (w - s) = r at *
    rw [← hdm]; ring
  · rw [Nat.div_lt_iff_lt_mul (by positivity), ← hw]; exact hd

end V8Core.Bigint
