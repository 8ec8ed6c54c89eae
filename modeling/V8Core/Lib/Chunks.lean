import Mathlib.Data.List.Basic

/-!
# Reading a stream in chunks

A reader takes a step on the elements that are there and says how many it took. `drive`
runs it over one chunk. If a step cannot tell whether more elements follow, except that
it may wait for them (`Reader.split`), then the chunks do not matter: driving over one
chunk and then over the next is driving over both (`Reader.drive_append`).
-/

namespace Chunks

variable {S α : Type}

/-- Steps on what is left of the chunk, as long as the reader is active; `none` when the fuel is used up. -/
def drive (active : S → Bool) (step : S → List α → Option (S × Nat)) : Nat → S → List α → Option S
  | _, s, [] => some s
  | fuel, s, x :: xs =>
    if active s then
      match fuel with
      | 0 => none
      | fuel + 1 => do
        let (s', taken) ← step s (x :: xs)
        drive active step fuel s' ((x :: xs).drop taken)
    else some s

/-- A reader with an invariant: it makes progress, and what it does not see does not matter to it. -/
structure Reader (active : S → Bool) (step : S → List α → Option (S × Nat)) (Inv : S → Prop) : Prop where
  progress : ∀ {s xs}, Inv s → active s = true → xs ≠ [] →
    ∃ s' taken, step s xs = some (s', taken) ∧ 0 < taken ∧ taken ≤ xs.length ∧ Inv s'
  split : ∀ {s xs ys s' taken}, Inv s → active s = true → xs ≠ [] → ys ≠ [] → step s xs = some (s', taken) →
    step s (xs ++ ys) = some (s', taken) ∨
      (taken = xs.length ∧ active s' = true ∧ ∃ s'' more, step s' ys = some (s'', more) ∧
        step s (xs ++ ys) = some (s'', xs.length + more))

namespace Reader

variable {active : S → Bool} {step : S → List α → Option (S × Nat)} {Inv : S → Prop}

@[simp] theorem drive_nil (fuel : Nat) (s : S) : drive active step fuel s [] = some s := by
  unfold drive
  rfl

theorem drive_inactive (fuel : Nat) {s : S} (xs : List α) (h : active s = false) :
    drive active step fuel s xs = some s := by
  cases xs with
  | nil => exact drive_nil fuel s
  | cons x xs =>
    unfold drive
    simp [h]

theorem drive_step {fuel taken : Nat} {s s' : S} {xs : List α} (hactive : active s = true) (hxs : xs ≠ [])
    (h : step s xs = some (s', taken)) :
    drive active step (fuel + 1) s xs = drive active step fuel s' (xs.drop taken) := by
  cases xs with
  | nil => exact absurd rfl hxs
  | cons x xs => simp [drive, hactive, h]

/-- One unit of fuel for each element is enough, and more does not change the result. -/
theorem drive_fuel (hr : Reader active step Inv) {s : S} (hs : Inv s) (fuel : Nat) (xs : List α) (hfuel : xs.length ≤ fuel) :
    drive active step fuel s xs = drive active step xs.length s xs ∧
      ∃ s', drive active step fuel s xs = some s' ∧ Inv s' := by
  induction fuel using Nat.strongRecOn generalizing s xs with
  | ind fuel ih =>
    by_cases hxs : xs = []
    · subst hxs
      exact ⟨by rw [drive_nil, drive_nil], s, drive_nil _ _, hs⟩
    cases hactive : active s with
    | false => exact ⟨by rw [drive_inactive _ _ hactive, drive_inactive _ _ hactive], s, drive_inactive _ _ hactive, hs⟩
    | true =>
      obtain ⟨s', taken, hstep, hpos, hle, hs'⟩ := hr.progress hs hactive hxs
      have hlen := List.length_pos_of_ne_nil hxs
      have hdrop : (xs.drop taken).length = xs.length - taken := List.length_drop ..
      obtain ⟨fuel, rfl⟩ : ∃ f, fuel = f + 1 := ⟨fuel - 1, by omega⟩
      obtain ⟨n, hn⟩ : ∃ n, xs.length = n + 1 := ⟨xs.length - 1, by omega⟩
      obtain ⟨heq, hex⟩ := ih fuel (by omega) hs' (xs.drop taken) (by omega)
      have heq' : drive active step n s' (xs.drop taken) = drive active step (xs.drop taken).length s' (xs.drop taken) := by
        rcases Nat.lt_or_ge n (fuel + 1) with hlt | hge
        · exact (ih n hlt hs' (xs.drop taken) (by omega)).1
        · obtain rfl : n = fuel := by omega
          exact heq
      refine ⟨?_, ?_⟩
      · rw [hn, drive_step hactive hxs hstep, drive_step hactive hxs hstep, heq, heq']
      · rw [drive_step hactive hxs hstep]
        exact hex

/-- Driving over two chunks is driving over both at once. -/
theorem drive_append (hr : Reader active step Inv) {s : S} (hs : Inv s) (xs ys : List α) :
    drive active step (xs ++ ys).length s (xs ++ ys) =
      (drive active step xs.length s xs).bind fun s' => drive active step ys.length s' ys := by
  induction hn : xs.length using Nat.strongRecOn generalizing s xs with
  | ind n ih =>
    subst hn
    by_cases hxs : xs = []
    · subst hxs
      simp
    by_cases hys : ys = []
    · subst hys
      simp
    cases hactive : active s with
    | false => simp [drive_inactive, hactive]
    | true =>
      obtain ⟨s', taken, hstep, hpos, hle, hs'⟩ := hr.progress hs hactive hxs
      have hlen := List.length_pos_of_ne_nil hxs
      obtain ⟨n, hn⟩ : ∃ n, xs.length = n + 1 := ⟨xs.length - 1, by omega⟩
      have hne : xs ++ ys ≠ [] := by simp [hxs]
      have hfirst : drive active step xs.length s xs = drive active step (xs.drop taken).length s' (xs.drop taken) := by
        rw [hn, drive_step hactive hxs hstep]
        exact (hr.drive_fuel hs' n (xs.drop taken) (by rw [List.length_drop]; omega)).1
      have hlength : (xs ++ ys).length = n + ys.length + 1 := by
        rw [List.length_append]
        omega
      rcases hr.split hs hactive hxs hys hstep with hboth | ⟨htaken, hactive', s'', more, hmore, hboth⟩
      · -- the step did not wait
        rw [hlength, drive_step hactive hne hboth, List.drop_append_of_le_length hle,
          (hr.drive_fuel hs' _ _ (by simp; omega)).1, hfirst]
        exact ih _ (by rw [List.length_drop]; omega) hs' (xs.drop taken) rfl
      · -- it took the whole chunk, and goes on with the next one
        obtain ⟨_, _, hmore', hpos', hle', hs''⟩ := hr.progress hs' hactive' hys
        obtain ⟨rfl, rfl⟩ : _ = s'' ∧ _ = more := by
          rw [hmore, Option.some.injEq, Prod.mk.injEq] at hmore'
          exact ⟨hmore'.1.symm, hmore'.2.symm⟩
        have hylen := List.length_pos_of_ne_nil hys
        obtain ⟨m, hm⟩ : ∃ m, ys.length = m + 1 := ⟨ys.length - 1, by omega⟩
        rw [hfirst, htaken, List.drop_length, drive_nil, Option.bind_some, hm, drive_step hactive' hys hmore, hlength,
          drive_step hactive hne hboth, List.drop_length_add_append,
          (hr.drive_fuel hs'' _ _ (by rw [List.length_drop]; omega)).1,
          (hr.drive_fuel hs'' m _ (by rw [List.length_drop]; omega)).1]

end Reader

end Chunks
