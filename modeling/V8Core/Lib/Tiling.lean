import Mathlib.Data.List.Basic
import Mathlib.Data.List.Perm.Subperm
import Mathlib.Algebra.Order.BigOperators.Group.List
import Mathlib.Algebra.Order.Ring.Nat
import Mathlib.Tactic.Common

/-!
# Tilings of an interval

A list of pieces, each with a start and a size, tiles the interval from `b` to `e`
when every piece starts where the one before it ends and none is empty.
-/

namespace Tiling

variable {α : Type} (start size : α → Nat)
variable {b e : Nat} {l : List α} {x : α}

/-- The pieces `l` tile the interval from `b` to `e`. -/
def Tiles : List α → Nat → Nat → Prop
  | [], b, e => b = e
  | x :: xs, b, e => start x = b ∧ 0 < size x ∧ Tiles xs (b + size x) e

variable {start size}

theorem tiles_append {xs ys : List α} :
    Tiles start size (xs ++ ys) b e ↔ ∃ m, Tiles start size xs b m ∧ Tiles start size ys m e := by
  induction xs generalizing b with
  | nil => simp [Tiles]
  | cons x xs ih =>
    simp only [List.cons_append, Tiles, ih]
    constructor
    · rintro ⟨h1, h2, m, h3, h4⟩
      exact ⟨m, ⟨h1, h2, h3⟩, h4⟩
    · rintro ⟨m, ⟨h1, h2, h3⟩, h4⟩
      exact ⟨h1, h2, m, h3, h4⟩

theorem Tiles.le (h : Tiles start size l b e) : b ≤ e := by
  induction l generalizing b with
  | nil => exact Nat.le_of_eq h
  | cons x xs ih => exact Nat.le_trans (Nat.le_add_right _ _) (ih h.2.2)

/-- The pieces lie in the interval and are not empty. -/
theorem Tiles.mem (h : Tiles start size l b e) (hx : x ∈ l) : b ≤ start x ∧ 0 < size x ∧ start x + size x ≤ e := by
  induction l generalizing b with
  | nil => cases hx
  | cons y ys ih =>
    obtain ⟨h1, h2, h3⟩ := h
    rcases List.mem_cons.1 hx with rfl | hx
    · have := h3.le
      omega
    · have := ih h3 hx
      omega

/-- What a piece sees of the others: those before it end before it, those after it start after it. -/
theorem Tiles.split {pre post : List α} (h : Tiles start size (pre ++ x :: post) b e) :
    Tiles start size pre b (start x) ∧ 0 < size x ∧ Tiles start size post (start x + size x) e := by
  obtain ⟨m, h1, h2, h3, h4⟩ := tiles_append.1 h
  subst h2
  exact ⟨h1, h3, h4⟩

/-- A piece may be replaced by pieces that tile it. -/
theorem Tiles.replace {pre post ys : List α} {c d : Nat} (hpre : Tiles start size pre b c)
    (hys : Tiles start size ys c d) (hpost : Tiles start size post d e) : Tiles start size (pre ++ (ys ++ post)) b e :=
  tiles_append.2 ⟨c, hpre, tiles_append.2 ⟨d, hys, hpost⟩⟩

/-- The tiling only depends on starts and sizes of the pieces. -/
theorem Tiles.congr {start' size' : α → Nat} (h : Tiles start size l b e)
    (hl : ∀ x ∈ l, start' x = start x ∧ size' x = size x) : Tiles start' size' l b e := by
  induction l generalizing b with
  | nil => exact h
  | cons x xs ih =>
    obtain ⟨h1, h2, h3⟩ := h
    obtain ⟨hs, hz⟩ := hl x (by simp)
    refine ⟨by rw [hs, h1], by rw [hz]; exact h2, ?_⟩
    rw [hz]
    exact ih h3 (fun y hy => hl y (by simp [hy]))

/-- A tiling by handles is one by the pieces they stand for. -/
theorem tiles_map {β : Type} {f : β → α} {l : List β} :
    Tiles start size (l.map f) b e ↔ Tiles (start ∘ f) (size ∘ f) l b e := by
  induction l generalizing b with
  | nil => exact Iff.rfl
  | cons x xs ih => simp [Tiles, ih]

section
variable (h : Tiles start size l b e)
include h

/-- Every point of the interval lies in a piece. -/
theorem Tiles.exists_mem {a : Nat} (hb : b ≤ a) (he : a < e) :
    ∃ pre x post, l = pre ++ x :: post ∧ start x ≤ a ∧ a < start x + size x := by
  induction l generalizing b with
  | nil =>
    have : b = e := h
    omega
  | cons x xs ih =>
    obtain ⟨h1, h2, h3⟩ := h
    by_cases ha : a < b + size x
    · exact ⟨[], x, xs, rfl, by omega, by omega⟩
    · obtain ⟨pre, y, post, rfl, hy⟩ := ih h3 (by omega)
      exact ⟨x :: pre, y, post, rfl, hy⟩

/-- In a tiling by multiples of a page every piece starts at a multiple of a page. -/
theorem Tiles.dvd_start {page : Nat} (hb : page ∣ b) (hl : ∀ x ∈ l, page ∣ size x) :
    ∀ x ∈ l, page ∣ start x := by
  induction l generalizing b with
  | nil => simp
  | cons y ys ih =>
    intro x hx
    rcases List.mem_cons.1 hx with rfl | hx
    · rw [h.1]
      exact hb
    · exact ih h.2.2 (Nat.dvd_add hb (hl y (by simp))) (fun z hz => hl z (by simp [hz])) x hx

/-- An empty interval has no pieces. -/
theorem Tiles.eq_nil_of_le (he : e ≤ b) : l = [] := by
  cases l with
  | nil => rfl
  | cons x xs =>
    have := h.2.2.le
    have := h.2.1
    omega

theorem Tiles.sum_eq : b + (l.map size).sum = e := by
  induction l generalizing b with
  | nil => simpa [Tiles] using h
  | cons x xs ih =>
    have := ih h.2.2
    simp only [List.map_cons, List.sum_cons]
    omega

/-- Different pieces have different starts. -/
theorem Tiles.pairwise : l.Pairwise fun x y => start x + size x ≤ start y := by
  induction l generalizing b with
  | nil => exact .nil
  | cons x xs ih =>
    refine List.pairwise_cons.2 ⟨fun y hy => ?_, ih h.2.2⟩
    have := h.2.2.mem hy
    have := h.1
    omega

theorem Tiles.nodup : l.Nodup := by
  refine List.Pairwise.imp_of_mem ?_ h.pairwise
  rintro x _ hx _ hxy rfl
  have := h.mem hx
  omega

/-- Different pieces do not overlap. -/
theorem Tiles.disjoint {y : α} (hx : x ∈ l) (hy : y ∈ l) (hne : x ≠ y) :
    start x + size x ≤ start y ∨ start y + size y ≤ start x := by
  obtain ⟨pre, post, rfl⟩ := List.append_of_mem hx
  obtain ⟨hpre, _, hpost⟩ := h.split
  rcases List.mem_append.1 hy with hy | hy
  · exact .inr (hpre.mem hy).2.2
  · rcases List.mem_cons.1 hy with rfl | hy
    · exact absurd rfl hne
    · exact .inl (hpost.mem hy).1

/-- The sizes of some of the pieces add up to no more than the interval. -/
theorem Tiles.sum_le {m : List α} (hm : m.Nodup) (hsub : ∀ x ∈ m, x ∈ l) :
    b + (m.map size).sum ≤ e := by
  have hperm : m.Subperm l := List.Nodup.subperm hm hsub
  obtain ⟨m', hp, hs⟩ := hperm
  have h1 : (m'.map size).sum = (m.map size).sum := (hp.map size).sum_eq
  have h2 : (m'.map size).sum ≤ (l.map size).sum := (hs.map size).sum_le_sum (fun _ _ => Nat.zero_le _)
  have h3 := h.sum_eq
  omega

end

end Tiling
