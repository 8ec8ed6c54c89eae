import V8Core.Base.RegionInvariant
import Mathlib.Data.List.Chain

/-!
# Steps of the region allocator on the list of regions

`Focus a L p r R` says that the allocator's regions are `L`, then `r` at the pointer
`p`, then `R`. The lemmas say what `Split`, marking and merging do to a focused
region, so that the operations can be followed on lists of regions.
-/

namespace V8Core.Base

namespace RegionAllocator

variable {w : Nat} {a : RegionAllocator w} {L R : List Region} {r : Region} {p : RegionPtr}

/-- The regions are `L`, then `r` at `p`, then `R`. -/
def Focus (a : RegionAllocator w) (L : List Region) (p : RegionPtr) (r : Region) (R : List Region) : Prop :=
  ∃ pre post, a.allRegions = pre ++ p :: post ∧ pre.map a.heap = L ∧ a.heap p = r ∧ post.map a.heap = R

theorem Focus.regions (h : Focus a L p r R) : a.regions = L ++ r :: R := by
  obtain ⟨pre, post, hall, rfl, rfl, rfl⟩ := h
  simp [RegionAllocator.regions, hall]

theorem Focus.heap (h : Focus a L p r R) : a.heap p = r := h.choose_spec.choose_spec.2.2.1

theorem Focus.mem (h : Focus a L p r R) : p ∈ a.allRegions := by
  obtain ⟨pre, post, hall, _⟩ := h
  simp [hall]

theorem focus_of_mem (hp : p ∈ a.allRegions) : ∃ L R, Focus a L p (a.heap p) R := by
  obtain ⟨pre, post, hall⟩ := List.append_of_mem hp
  exact ⟨_, _, pre, post, hall, rfl, rfl, rfl⟩

/-- Lists of regions that a change of one region does not reach. -/
theorem map_heap_of_not_mem {a' : RegionAllocator w} {l : List RegionPtr} (hp : p ∉ l)
    (h : ∀ x, x ≠ p → a'.heap x = a.heap x) : l.map a'.heap = l.map a.heap := by
  refine List.map_congr_left fun x hx => h x ?_
  rintro rfl
  exact hp hx

/-- `Split` of the focused region, seen from either part. -/
theorem Focus.split (h : Focus a L p r R) (ha : Weak a) {n : Nat} (hn : 0 < n) (hlt : n < r.size) (hdvd : a.pageSize ∣ n) :
    ∃ q a', a.split p n = some (q, a') ∧ Weak a' ∧ Same a a' ∧ OrderedSet.nextOf p a'.allRegions = some q ∧
      Focus a' L p { r with size := n } (⟨r.address + n, r.size - n, r.state⟩ :: R) ∧
      Focus a' (L ++ [{ r with size := n }]) q ⟨r.address + n, r.size - n, r.state⟩ R := by
  obtain ⟨pre, post, hall, rfl, rfl, rfl⟩ := h
  obtain ⟨a', hsplit, hweak, hsame, hall', hs⟩ := split_spec ha hall hn hlt hdvd
  have hkeep := hs.keep ha.toCore hall
  have hpre : pre.map a'.heap = pre.map a.heap := List.map_congr_left fun x hx => hkeep x (.inl hx)
  have hpost : post.map a'.heap = post.map a.heap := List.map_congr_left fun x hx => hkeep x (.inr hx)
  refine ⟨a.nextPtr, a', hsplit, hweak, hsame, ?_, ⟨pre, a.nextPtr :: post, hall', hpre, hs.left, ?_⟩,
    ⟨pre ++ [p], post, by simp [hall'], ?_, hs.right, hpost⟩⟩
  · rw [hall']
    exact OrderedSet.nextOf_append (ha.not_mem hall).1
  · simp [hs.right, hpost]
  · simp [hs.left, hpre]

/-- Marking the focused region. -/
theorem Focus.mark (h : Focus a L p r R) (ha : Weak a) (hr : r.state = .kFree) {state : RegionState}
    (hstate : state ≠ .kFree) :
    ∃ a', a.markRegion p state = some a' ∧ Weak a' ∧ Same a a' ∧ Focus a' L p { r with state := state } R := by
  have hfree : a.IsFree p := ⟨h.mem, by rw [h.heap]; exact hr⟩
  obtain ⟨pre, post, hall, rfl, rfl, rfl⟩ := h
  obtain ⟨a', hmark, hweak, hsame, hall', hp, hother⟩ := markRegion_spec ha hfree hstate
  have hnot := ha.not_mem hall
  exact ⟨a', hmark, hweak, hsame, pre, post, by rw [hall', hall], map_heap_of_not_mem hnot.1 hother, hp,
    map_heap_of_not_mem hnot.2 hother⟩

theorem Focus.setState (h : Focus a L p r R) (ha : Core a) (state : RegionState) :
    Focus (a.setState p state) L p { r with state := state } R := by
  obtain ⟨pre, post, hall, rfl, rfl, rfl⟩ := h
  have hnot := ha.not_mem hall
  have hother : ∀ x, x ≠ p → (a.setState p state).heap x = a.heap x := fun _ => setState_other
  exact ⟨pre, post, hall, map_heap_of_not_mem hnot.1 hother, setState_self, map_heap_of_not_mem hnot.2 hother⟩

/-- Merging the focused region with its neighbour after it. -/
theorem Focus.merge {u v : RegionPtr} {s : Region} (h : Focus a L u r (s :: R)) (h' : Focus a (L ++ [r]) v s R)
    (ha : Core a) (hfree : FreeList a fun x => a.IsFree x ∧ x ≠ u ∧ x ≠ v) :
    WeakExcept (a.merge u v) u ∧ Same a (a.merge u v) ∧ Focus (a.merge u v) L u { r with size := r.size + s.size } R := by
  obtain ⟨pre, post, hall, rfl, rfl, hpost⟩ := h
  obtain ⟨v', post', rfl, hv', hpost'⟩ := List.map_eq_cons_iff.1 hpost
  -- both focused pointers stand for the region `s`, so they are the same
  have hvv : v' = v := by
    apply ha.eq_of_address
    · simp [hall]
    · exact h'.mem
    · rw [hv', h'.heap]
  subst hvv
  obtain ⟨hweak, hsame, hall', hu, hother⟩ := merge_spec ha hall hfree
  have hnot := ha.not_mem hall
  refine ⟨hweak, hsame, pre, post', hall', map_heap_of_not_mem hnot.1 hother, by rw [hu, hv'], ?_⟩
  rw [← hpost']
  exact map_heap_of_not_mem (fun hx => hnot.2 (List.mem_cons_of_mem _ hx)) hother

/-! ## Neighbours -/

section Neighbours
variable {s : Region}

theorem Focus.next (h : Focus a L p r (s :: R)) (ha : Core a) :
    ∃ q, Focus a (L ++ [r]) q s R ∧ OrderedSet.nextOf p a.allRegions = some q ∧ q ≠ p := by
  obtain ⟨pre, post, hall, rfl, rfl, hpost⟩ := h
  obtain ⟨q, post', rfl, rfl, rfl⟩ := List.map_eq_cons_iff.1 hpost
  have hnot := ha.not_mem hall
  refine ⟨q, ⟨pre ++ [p], post', by simp [hall], by simp, rfl, rfl⟩, ?_, ?_⟩
  · rw [hall]
    exact OrderedSet.nextOf_append hnot.1
  · rintro rfl
    exact hnot.2 (by simp)

theorem Focus.prev (h : Focus a (L ++ [s]) p r R) (ha : Core a) :
    ∃ q, Focus a L q s (r :: R) ∧ OrderedSet.prevOf p a.allRegions = some q ∧ q ≠ p := by
  obtain ⟨pre, post, hall, hpre, rfl, rfl⟩ := h
  obtain ⟨pre', last, rfl, rfl, hlast⟩ := List.map_eq_append_iff.1 hpre
  obtain ⟨q, rest, rfl, rfl, hnil⟩ := List.map_eq_cons_iff.1 hlast
  obtain rfl := List.map_eq_nil_iff.1 hnil
  have hnot := (ha.not_mem hall).1
  have hne : q ≠ p := by
    rintro rfl
    exact hnot (by simp)
  have hall' : a.allRegions = pre' ++ q :: p :: post := by simp [hall]
  refine ⟨q, ⟨pre', p :: post, hall', rfl, rfl, rfl⟩, ?_, hne⟩
  rw [hall']
  exact OrderedSet.prevOf_append (fun hmem => hnot (by simp [hmem])) hne

/-- The tiling as the focused region sees it. -/
theorem Focus.tiles (h : Focus a L p r R) (ha : Core a) :
    Tiling.Tiles Region.address Region.size L a.beginAddress r.address ∧ 0 < r.size ∧
      Tiling.Tiles Region.address Region.size R (r.address + r.size) (a.beginAddress + a.wholeRegion.size) := by
  apply Tiling.Tiles.split
  rw [← h.regions, RegionAllocator.regions]
  exact Tiling.tiles_map.2 ha.tiles

/-- The last region is the one that ends with the whole region. -/
theorem Focus.endAddress_eq_iff (h : Focus a L p r R) (ha : Core a) : r.endAddress w = a.endAddress ↔ R = [] := by
  have hend := ha.endAddress_eq' h.mem
  rw [h.heap] at hend
  rw [hend, ha.endAddress_eq]
  obtain ⟨_, _, htiles⟩ := h.tiles ha
  constructor
  · intro heq
    exact htiles.eq_nil_of_le (Nat.le_of_eq heq.symm)
  · rintro rfl
    exact htiles

/-- The first region is the one that starts with the whole region. -/
theorem Focus.address_eq_iff (h : Focus a L p r R) (ha : Core a) : r.address = a.beginAddress ↔ L = [] := by
  obtain ⟨htiles, _, _⟩ := h.tiles ha
  constructor
  · intro heq
    exact htiles.eq_nil_of_le (Nat.le_of_eq heq)
  · rintro rfl
    exact Eq.symm htiles

end Neighbours

end RegionAllocator

end V8Core.Base
