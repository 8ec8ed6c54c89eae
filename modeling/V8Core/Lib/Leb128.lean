import Mathlib

/-!
# LEB128

The grammar of variable-length integers of a given number of bits, as the WebAssembly
specification has it: `Unsigned N` and `Signed N` relate bytes and the number they stand
for. `unsigned_iff` and `signed_iff` say the same without recursion: the bytes are
terminated, not too many, and their payload is in the range of the type.
-/

namespace Leb128

abbrev Byte := BitVec 8

/-- `uN`: the last byte has no continuation bit and fits, the others pass on what is left. -/
inductive Unsigned : Nat → List Byte → Nat → Prop
  | last {N : Nat} {b : Byte} : b.toNat < 128 → b.toNat < 2 ^ N → Unsigned N [b] b.toNat
  | more {N : Nat} {b : Byte} {bs : List Byte} {m : Nat} :
      128 ≤ b.toNat → 7 < N → Unsigned (N - 7) bs m → Unsigned N (b :: bs) (128 * m + (b.toNat - 128))

/-- `sN`: the last byte is sign extended. -/
inductive Signed : Nat → List Byte → ℤ → Prop
  | nonneg {N : Nat} {b : Byte} : b.toNat < 64 → b.toNat < 2 ^ (N - 1) → Signed N [b] b.toNat
  | neg {N : Nat} {b : Byte} : 64 ≤ b.toNat → b.toNat < 128 → 128 ≤ b.toNat + 2 ^ (N - 1) → Signed N [b] (b.toNat - 128)
  | more {N : Nat} {b : Byte} {bs : List Byte} {m : ℤ} :
      128 ≤ b.toNat → 7 < N → Signed (N - 7) bs m → Signed N (b :: bs) (128 * m + (b.toNat - 128))

/-- Every byte but the last has its continuation bit set. -/
def Terminated : List Byte → Prop
  | [] => False
  | [b] => b.toNat < 128
  | b :: bs => 128 ≤ b.toNat ∧ Terminated bs

/-- The number in the lower seven bits of the bytes. -/
def payload : List Byte → Nat
  | [] => 0
  | b :: bs => b.toNat % 128 + 128 * payload bs

/-- A number of `bits` bits as a signed number. -/
def signed (bits n : Nat) : ℤ := if 2 * n < 2 ^ bits then n else n - 2 ^ bits

variable {bs : List Byte} {N : Nat}

theorem Terminated.ne_nil (h : Terminated bs) : bs ≠ [] := by
  rintro rfl
  exact h

theorem terminated_cons {b : Byte} (hbs : bs ≠ []) : Terminated (b :: bs) ↔ 128 ≤ b.toNat ∧ Terminated bs := by
  cases bs with
  | nil => exact absurd rfl hbs
  | cons c cs => rfl

theorem payload_lt (bs : List Byte) : payload bs < 2 ^ (7 * bs.length) := by
  induction bs with
  | nil => simp [payload]
  | cons b bs ih =>
    rw [payload, List.length_cons, Nat.mul_succ, Nat.pow_add]
    omega

theorem payload_append (bs cs : List Byte) : payload (bs ++ cs) = payload bs + 2 ^ (7 * bs.length) * payload cs := by
  induction bs with
  | nil => simp [payload]
  | cons b bs ih =>
    rw [List.cons_append, payload, ih, payload, List.length_cons, Nat.mul_succ]
    ring

/-- Of two terminated prefixes of one list neither is longer. -/
theorem Terminated.prefix_unique {cs us vs : List Byte} (hb : Terminated bs) (hc : Terminated cs)
    (h : bs ++ us = cs ++ vs) : bs = cs := by
  induction bs generalizing cs with
  | nil => exact hb.elim
  | cons b bs ih =>
    cases cs with
    | nil => exact hc.elim
    | cons c cs =>
      obtain ⟨rfl, hrest⟩ := List.cons.inj h
      by_cases hbs : bs = []
      · by_cases hcs : cs = []
        · rw [hbs, hcs]
        · have hlt : b.toNat < 128 := by simpa [hbs, Terminated] using hb
          have := ((terminated_cons hcs).1 hc).1
          omega
      · by_cases hcs : cs = []
        · have hlt : b.toNat < 128 := by simpa [hcs, Terminated] using hc
          have := ((terminated_cons hbs).1 hb).1
          omega
        · rw [ih ((terminated_cons hbs).1 hb).2 ((terminated_cons hcs).1 hc).2 hrest]

theorem Unsigned.ne_nil {n : Nat} (h : Unsigned N bs n) : bs ≠ [] := by
  cases h <;> simp

theorem Signed.ne_nil {n : ℤ} (h : Signed N bs n) : bs ≠ [] := by
  cases h <;> simp

theorem two_pow_eq (hN : 7 ≤ N) : 2 ^ N = 128 * 2 ^ (N - 7) := (pow_mul_pow_sub 2 hN).symm

theorem int_two_pow_eq (hN : 7 < N) : (2 : ℤ) ^ (N - 1) = 128 * 2 ^ (N - 7 - 1) := by
  rw [show (128 : ℤ) = 2 ^ 7 from rfl, ← pow_add]
  congr 1
  omega

theorem payload_singleton {b : Byte} (hb : b.toNat < 128) : payload [b] = b.toNat := by
  simp only [payload]
  omega

theorem unsigned_iff {n : Nat} (hN : 0 < N) :
    Unsigned N bs n ↔ Terminated bs ∧ 7 * bs.length < N + 7 ∧ payload bs = n ∧ n < 2 ^ N := by
  constructor
  · intro h
    induction h with
    | @last N b hb hlt =>
      refine ⟨hb, by simpa using hN, ?_, hlt⟩
      simp only [payload]
      omega
    | @more N b bs m hb h7 hbs ih =>
      obtain ⟨ht, hlen, hp, hlt⟩ := ih (by omega)
      refine ⟨(terminated_cons hbs.ne_nil).2 ⟨hb, ht⟩, ?_, ?_, ?_⟩
      · rw [List.length_cons]
        omega
      · rw [payload, hp]
        omega
      · rw [two_pow_eq (by omega)]
        omega
  · rintro ⟨ht, hlen, rfl, hlt⟩
    induction bs generalizing N with
    | nil => exact ht.elim
    | cons b bs ih =>
      by_cases hbs : bs = []
      · subst hbs
        have hb : b.toNat < 128 := ht
        rw [payload_singleton hb] at hlt ⊢
        exact .last hb hlt
      · obtain ⟨hb, ht'⟩ := (terminated_cons hbs).1 ht
        have hpos := List.length_pos_iff.2 hbs
        rw [List.length_cons] at hlen
        have hlt' : payload bs < 2 ^ (N - 7) := by
          rw [payload, two_pow_eq (by omega)] at hlt
          omega
        have hp : payload (b :: bs) = 128 * payload bs + (b.toNat - 128) := by
          rw [payload]
          omega
        rw [hp]
        exact .more hb (by omega) (ih (by omega) ht' (by omega) hlt')

/-- Sign extension commutes with a byte below. -/
theorem signed_cons {k p c : Nat} (hc : c < 128) (hk : 0 < k) : signed (7 * (k + 1)) (c + 128 * p) = 128 * signed (7 * k) p + c := by
  have hpow : 2 ^ (7 * (k + 1)) = 128 * 2 ^ (7 * k) := by
    rw [Nat.mul_succ, Nat.pow_add, Nat.mul_comm]
  have hzpow : (2 : ℤ) ^ (7 * (k + 1)) = 128 * 2 ^ (7 * k) := by exact_mod_cast hpow
  have heven : ∃ q, 2 ^ (7 * k) = 2 * q := ⟨2 ^ (7 * k - 1), by rw [← Nat.pow_succ']; congr 1; omega⟩
  obtain ⟨q, hq⟩ := heven
  simp only [signed, hpow, hzpow]
  by_cases hp : 2 * p < 2 ^ (7 * k)
  · rw [if_pos hp, if_pos (by omega)]
    push_cast
    ring
  · rw [if_neg hp, if_neg (by omega)]
    push_cast
    ring

theorem signed_iff {z : ℤ} (hN : 0 < N) :
    Signed N bs z ↔ Terminated bs ∧ 7 * bs.length < N + 7 ∧ signed (7 * bs.length) (payload bs) = z ∧
      -2 ^ (N - 1) ≤ z ∧ z < 2 ^ (N - 1) := by
  constructor
  · intro h
    induction h with
    | @nonneg N b hb hlt =>
      refine ⟨by show b.toNat < 128; omega, by simpa using hN, ?_, ?_, by exact_mod_cast hlt⟩
      · rw [payload_singleton (by omega), signed, if_pos (by simp; omega)]
      · have : (0 : ℤ) < 2 ^ (N - 1) := by positivity
        omega
    | @neg N b hb hlt hle =>
      have hle' : (128 : ℤ) ≤ b.toNat + 2 ^ (N - 1) := by exact_mod_cast hle
      refine ⟨hlt, by simpa using hN, ?_, by omega, ?_⟩
      · rw [payload_singleton hlt, signed, if_neg (by simp; omega)]
        rfl
      · have : (0 : ℤ) < 2 ^ (N - 1) := by positivity
        omega
    | @more N b bs m hb h7 hbs ih =>
      obtain ⟨ht, hlen, hs, hlow, hhigh⟩ := ih (by omega)
      have hpos := List.length_pos_iff.2 hbs.ne_nil
      have hpow := int_two_pow_eq h7
      have hcons := signed_cons (p := payload bs) (Nat.mod_lt b.toNat (show 128 > 0 by decide)) hpos
      refine ⟨(terminated_cons hbs.ne_nil).2 ⟨hb, ht⟩, ?_, ?_, ?_, ?_⟩
      · rw [List.length_cons]
        omega
      · rw [List.length_cons, payload, hcons, hs]
        omega
      · omega
      · omega
  · rintro ⟨ht, hlen, rfl, hlow, hhigh⟩
    induction bs generalizing N with
    | nil => exact ht.elim
    | cons b bs ih =>
      by_cases hbs : bs = []
      · subst hbs
        have hb : b.toNat < 128 := ht
        rw [payload_singleton hb] at hlow hhigh ⊢
        simp only [signed, List.length_singleton] at *
        by_cases hneg : 2 * b.toNat < 2 ^ 7
        · rw [if_pos hneg] at hlow hhigh ⊢
          exact .nonneg (by omega) (by exact_mod_cast hhigh)
        · rw [if_neg hneg] at hlow hhigh ⊢
          have hle : (128 : ℤ) ≤ b.toNat + 2 ^ (N - 1) := by
            omega
          exact .neg (by omega) hb (by exact_mod_cast hle)
      · obtain ⟨hb, ht'⟩ := (terminated_cons hbs).1 ht
        have hpos := List.length_pos_iff.2 hbs
        rw [List.length_cons] at hlen
        have hpow := int_two_pow_eq (N := N) (by omega)
        have hcons := signed_cons (p := payload bs) (Nat.mod_lt b.toNat (show 128 > 0 by decide)) hpos
        rw [List.length_cons, payload, hcons] at hlow hhigh ⊢
        have hmod : ((b.toNat % 128 : Nat) : ℤ) = b.toNat - 128 := by omega
        rw [hmod] at hlow hhigh ⊢
        exact .more hb (by omega) (ih (by omega) ht' (by omega) (by omega) (by omega))

end Leb128
