import Mathlib.Algebra.Order.Ring.Nat
import Mathlib.Data.List.Basic

/-!
# UTF-8 and UTF-16

The encodings of Unicode scalar values, and the decoding of arbitrary bytes in which every
maximal subpart of an ill-formed sequence is replaced. No encoding is the beginning of
another one (`utf8_eq_of_begins`), so that bytes are decoded in one way (`Decodes.unique`).
-/

namespace Unicode

/-- The code points that are not surrogates. -/
def IsScalar (c : Nat) : Prop := c < 0xD800 ∨ (0xDFFF < c ∧ c ≤ 0x10FFFF)

instance (c : Nat) : Decidable (IsScalar c) := inferInstanceAs (Decidable (_ ∨ _))

def IsLead (c : Nat) : Prop := 0xD800 ≤ c ∧ c < 0xDC00

def IsTrail (c : Nat) : Prop := 0xDC00 ≤ c ∧ c < 0xE000

instance (c : Nat) : Decidable (IsLead c) := inferInstanceAs (Decidable (_ ∧ _))

instance (c : Nat) : Decidable (IsTrail c) := inferInstanceAs (Decidable (_ ∧ _))

/-- The code units of a scalar value. -/
def utf16 (c : Nat) : List Nat :=
  if c < 0x10000 then [c] else [0xD800 + (c - 0x10000) / 0x400, 0xDC00 + (c - 0x10000) % 0x400]

/-- The bytes of a scalar value. -/
def utf8 (c : Nat) : List Nat :=
  if c < 0x80 then [c]
  else if c < 0x800 then [0xC0 + c / 64, 0x80 + c % 64]
  else if c < 0x10000 then [0xE0 + c / 4096, 0x80 + c / 64 % 64, 0x80 + c % 64]
  else [0xF0 + c / 262144, 0x80 + c / 4096 % 64, 0x80 + c / 64 % 64, 0x80 + c % 64]

def replacement : Nat := 0xFFFD

theorem utf8_ascii {c : Nat} (h : c < 0x80) : utf8 c = [c] := if_pos h

theorem utf8_ne_nil (c : Nat) : utf8 c ≠ [] := by
  unfold utf8
  split_ifs <;> exact List.cons_ne_nil _ _

theorem utf8_lt {c : Nat} (hc : IsScalar c) : ∀ b ∈ utf8 c, b < 256 := by
  unfold IsScalar at hc
  unfold utf8
  intro b hb
  split_ifs at hb <;> simp only [List.mem_cons, List.not_mem_nil, or_false] at hb <;> omega

theorem utf16_lt {c : Nat} (hc : IsScalar c) : ∀ u ∈ utf16 c, u < 2 ^ 16 := by
  unfold IsScalar at hc
  unfold utf16
  intro u hu
  split_ifs at hu <;> simp only [List.mem_cons, List.not_mem_nil, or_false] at hu <;> omega

/-- No encoding is the beginning of another one. -/
theorem utf8_eq_of_begins {c d : Nat} (h : utf8 c <+: utf8 d) : c = d := by
  obtain ⟨rest, h⟩ := h
  unfold utf8 at h
  -- the first byte tells the length, so all but four cases are about different first bytes
  split_ifs at h <;> simp only [List.cons_append, List.nil_append, List.cons.injEq] at h <;> omega

theorem utf8_injective {c d : Nat} (h : utf8 c = utf8 d) : c = d := utf8_eq_of_begins (h ▸ List.prefix_rfl)

/-! ## Decoding with replacement -/

/-- Bytes with which an encoding begins. -/
def Begins (part : List Nat) : Prop := ∃ c, IsScalar c ∧ part <+: utf8 c

theorem Begins.of_beginning {part longer : List Nat} (hbegin : part <+: longer) (h : Begins longer) : Begins part := by
  obtain ⟨c, hc, hlonger⟩ := h
  exact ⟨c, hc, hbegin.trans hlonger⟩

/-- What is replaced at once: the beginning of an encoding, or one byte. -/
def Subpart (bytes part : List Nat) : Prop := part <+: bytes ∧ (Begins part ∨ part.length = 1)

def MaximalSubpart (bytes part : List Nat) : Prop :=
  Subpart bytes part ∧ ∀ other, Subpart bytes other → other.length ≤ part.length

/-- The code points of bytes, with a replacement for every maximal subpart where no encoding begins. -/
inductive Decodes : List Nat → List Nat → Prop
  | nil : Decodes [] []
  | char {c : Nat} {rest cs : List Nat} : IsScalar c → Decodes rest cs → Decodes (utf8 c ++ rest) (c :: cs)
  | replaced {part rest cs : List Nat} : part ≠ [] → (∀ c, IsScalar c → ¬ utf8 c <+: part ++ rest) →
      MaximalSubpart (part ++ rest) part → Decodes rest cs → Decodes (part ++ rest) (replacement :: cs)

theorem Decodes.nil_eq {cs : List Nat} (h : Decodes [] cs) : cs = [] := by
  generalize hbytes : ([] : List Nat) = bytes at h
  cases h with
  | nil => rfl
  | char _ _ => exact absurd (List.append_eq_nil_iff.1 hbytes.symm).1 (utf8_ne_nil _)
  | replaced hpart _ _ _ => exact absurd (List.append_eq_nil_iff.1 hbytes.symm).1 hpart

/-- Bytes that begin with an encoding are decoded to its code point first. -/
theorem Decodes.char_eq {c : Nat} {rest cs : List Nat} (hc : IsScalar c) (h : Decodes (utf8 c ++ rest) cs) :
    ∃ cs', cs = c :: cs' ∧ Decodes rest cs' := by
  generalize hbytes : utf8 c ++ rest = bytes at h
  cases h with
  | nil => exact absurd (List.append_eq_nil_iff.1 hbytes).1 (utf8_ne_nil _)
  | @char d rest' cs' hd hrest =>
    have hcd : c = d := by
      rcases List.prefix_or_prefix_of_prefix (hbytes ▸ List.prefix_append _ _ : utf8 c <+: utf8 d ++ rest')
        (List.prefix_append _ _ : utf8 d <+: utf8 d ++ rest') with h | h
      · exact utf8_eq_of_begins h
      · exact (utf8_eq_of_begins h).symm
    subst hcd
    exact ⟨cs', rfl, List.append_cancel_left hbytes ▸ hrest⟩
  | replaced _ hnot _ _ => exact absurd (hbytes ▸ List.prefix_append _ _) (hnot c hc)

theorem Decodes.unique {bytes cs ds : List Nat} (hcs : Decodes bytes cs) (hds : Decodes bytes ds) : cs = ds := by
  induction hcs generalizing ds with
  | nil => exact hds.nil_eq.symm
  | char hc _ ih =>
    obtain ⟨ds', rfl, hds'⟩ := hds.char_eq hc
    rw [ih hds']
  | @replaced part rest cs hpart hnot hmax _ ih =>
    generalize hbytes : part ++ rest = bytes at hds
    cases hds with
    | nil => exact absurd (List.append_eq_nil_iff.1 hbytes).1 hpart
    | char hc _ => exact absurd (hbytes ▸ List.prefix_append _ _) (hnot _ hc)
    | @replaced part' rest' ds' _ _ hmax' hrest =>
      rw [hbytes] at hmax
      have hlength : part.length = part'.length := Nat.le_antisymm (hmax'.2 part hmax.1) (hmax.2 part' hmax'.1)
      obtain ⟨rfl, rfl⟩ := List.append_inj hbytes hlength
      rw [ih hrest]

end Unicode
