import Mathlib.Algebra.Order.Ring.Nat
import Mathlib.Data.List.AList
import Mathlib.Data.List.Dedup
import Mathlib.Data.Nat.Log

/-!
# The elements of a JSON object

`BuildJsonObject` stores the properties whose key is an array index apart from the others, in an array with
holes or in a dictionary. The dictionary is filled without counting; its number of elements is set afterwards,
to the number of all properties. An array index is below `2^32 - 1`, so that no size wraps around.
-/

namespace V8Core.Json

variable {V : Type}

/-- A property key: an array index, or another string. -/
inductive PropertyKey
  | index (i : Nat)
  | name (units : List Nat)
  deriving DecidableEq

structure JsonProperty (V : Type) where
  key : PropertyKey
  value : V

structure JsonContinuation where
  maxIndex : Nat
  elements : Nat

/-- What `ScanJsonPropertyKey` records of a key. -/
def JsonContinuation.scan (cont : JsonContinuation) (property : JsonProperty V) : JsonContinuation :=
  match property.key with
  | .index i => ⟨max cont.maxIndex i, cont.elements + 1⟩
  | .name _ => cont

/-! ## Number dictionaries -/

/-- The keys and values of the table, and the fields that are kept apart from them. The raw maximal key is a Smi
whose lowest bit says that the elements have to be slow. -/
structure NumberDictionary (V : Type) where
  capacity : Nat
  entries : AList fun _ : Nat => V
  numberOfElements : Nat
  rawMaxNumberKey : Option Nat

namespace NumberDictionary

def kMinCapacity : Nat := 4

def kEntrySize : Nat := 3

def kPreferFastElementsSizeFactor : Nat := 3

def kRequiresSlowElementsLimit : Nat := 2 ^ 29 - 1

def computeCapacity (atLeastSpaceFor : Nat) : Nat :=
  max (2 ^ Nat.clog 2 (atLeastSpaceFor + atLeastSpaceFor / 2)) kMinCapacity

def new (atLeastSpaceFor : Nat) : NumberDictionary V := ⟨computeCapacity atLeastSpaceFor, ∅, 0, none⟩

/-- `UncheckedSet`: the entry of the key gets the value, or an entry is added. The capacity stays as it is. -/
def uncheckedSet (d : NumberDictionary V) (key : Nat) (value : V) : NumberDictionary V :=
  { d with entries := d.entries.insert key value }

def setInitialNumberOfElements (d : NumberDictionary V) (nof : Nat) : NumberDictionary V :=
  { d with numberOfElements := nof }

def requiresSlowElements (d : NumberDictionary V) : Bool := d.rawMaxNumberKey.any (· % 2 = 1)

def maxNumberKey (d : NumberDictionary V) : Option Nat := d.rawMaxNumberKey.map (· / 2)

def updateMaxNumberKey (d : NumberDictionary V) (key : Nat) : NumberDictionary V :=
  if d.requiresSlowElements then d
  else if key > kRequiresSlowElementsLimit then { d with rawMaxNumberKey := some 1 }
  else if d.maxNumberKey.all (· < key) then { d with rawMaxNumberKey := some (key * 2) }
  else d

end NumberDictionary

open NumberDictionary

/-! ## Building the elements -/

inductive Elements (V : Type)
  | empty
  | fast (elms : List (Option V))
  | dictionary (elms : NumberDictionary V)

def shouldConvertToSlowElements (usedElements newCapacity : Nat) : Bool :=
  kPreferFastElementsSizeFactor * computeCapacity usedElements * kEntrySize % 2 ^ 32 ≤ newCapacity

/-- The loop that stores the properties with an index. -/
def storeElements {S : Type} (put : S → Nat → V → S) (elms : S) (properties : List (JsonProperty V)) : S :=
  properties.foldl (fun elms property => match property.key with
    | .index i => put elms i property.value
    | .name _ => elms) elms

/-- The elements that `BuildJsonObject` creates. -/
def buildElements (cont : JsonContinuation) (properties : List (JsonProperty V)) : Elements V :=
  if cont.elements > 0 then
    if shouldConvertToSlowElements cont.elements (cont.maxIndex + 1) then
      let elms := storeElements uncheckedSet (.new cont.elements) properties
      .dictionary ((elms.setInitialNumberOfElements properties.length).updateMaxNumberKey cont.maxIndex)
    else .fast (storeElements (fun elms i value => elms.set i (some value)) (List.replicate (cont.maxIndex + 1) none) properties)
  else .empty

/-- The elements of an object literal with these properties. -/
def elementsOf (properties : List (JsonProperty V)) : Elements V :=
  buildElements (properties.foldl JsonContinuation.scan ⟨0, 0⟩) properties

/-! ## What the elements are -/

def Elements.get (i : Nat) : Elements V → Option V
  | empty => none
  | fast elms => elms[i]?.join
  | dictionary elms => elms.entries.lookup i

/-- The properties with an index. -/
def indexed (properties : List (JsonProperty V)) : List (Nat × V) :=
  properties.filterMap fun property => match property.key with
    | .index i => some (i, property.value)
    | .name _ => none

def largestIndex (properties : List (JsonProperty V)) : Nat := (indexed properties).foldr (fun e m => max e.1 m) 0

/-- The elements are the last values. A dictionary has room for them, and knows their number and the largest index. -/
def Elements.Correct (elements : Elements V) (properties : List (JsonProperty V)) : Prop :=
  (∀ i, elements.get i = (indexed properties).reverse.lookup i) ∧ ∀ d, elements = .dictionary d →
    d.entries.keys.length ≤ d.capacity ∧ d.numberOfElements = d.entries.keys.length ∧
      d.requiresSlowElements = false ∧ d.maxNumberKey = some (largestIndex properties)

theorem storeElements_eq {S : Type} (put : S → Nat → V → S) (elms : S) (properties : List (JsonProperty V)) :
    storeElements put elms properties = (indexed properties).foldl (fun elms e => put elms e.1 e.2) elms := by
  rw [indexed, List.foldl_filterMap, storeElements]
  congr! 3 with elms p
  cases p.key <;> rfl

theorem foldl_scan (properties : List (JsonProperty V)) (cont : JsonContinuation) :
    properties.foldl JsonContinuation.scan cont =
      ⟨max cont.maxIndex (largestIndex properties), cont.elements + (indexed properties).length⟩ := by
  induction properties generalizing cont with
  | nil => simp [largestIndex, indexed]
  | cons p ps ih =>
    rw [List.foldl_cons, ih]
    obtain ⟨i | units, value⟩ := p
    · simp only [JsonContinuation.scan, indexed, largestIndex, List.filterMap_cons, List.foldr_cons, List.length_cons]
      congr 1 <;> omega
    · rfl

theorem le_largestIndex {properties : List (JsonProperty V)} {e : Nat × V} (he : e ∈ indexed properties) :
    e.1 ≤ largestIndex properties := by
  unfold largestIndex
  generalize indexed properties = l at he
  induction l with
  | nil => cases he
  | cons e' l ih => grind

/-- Storing in turn leaves the last values. -/
theorem get_foldl {S : Type} (put : S → Nat → V → S) (get : S → Nat → Option V) (room : S → Prop) {l : List (Nat × V)}
    (hput : ∀ elms, room elms → ∀ e ∈ l, room (put elms e.1 e.2) ∧
      ∀ j, get (put elms e.1 e.2) j = if j = e.1 then some e.2 else get elms j) (elms : S) (helms : room elms) (j : Nat) :
    get (l.foldl (fun elms e => put elms e.1 e.2) elms) j = (l.reverse.lookup j).or (get elms j) := by
  induction l generalizing elms with
  | nil => rfl
  | cons e l ih =>
    obtain ⟨hroom, hget⟩ := hput elms helms e List.mem_cons_self
    rw [List.foldl_cons, ih (fun elms h e' he => hput elms h e' (List.mem_cons_of_mem _ he)) _ hroom, hget,
      List.reverse_cons, List.lookup_append, List.lookup_cons]
    by_cases h : j = e.1
    · simp [h]
    · simp [h, beq_false_of_ne h]

theorem lookup_foldl (l : List (Nat × V)) (n i : Nat) :
    (l.foldl (fun d e => uncheckedSet d e.1 e.2) (.new n)).entries.lookup i = l.reverse.lookup i := by
  rw [get_foldl uncheckedSet (fun d i => d.entries.lookup i) (fun _ => True) (fun d _ e _ => ⟨trivial, fun j => ?_⟩) _ trivial]
  · simp [NumberDictionary.new]
  · split
    · rename_i h
      rw [h, uncheckedSet, AList.lookup_insert]
    · exact AList.lookup_insert_ne ‹_›

/-- An array with room for the indices. -/
theorem getElem?_foldl {l : List (Nat × V)} {m : Nat} (hl : ∀ e ∈ l, e.1 ≤ m) (i : Nat) :
    (l.foldl (fun elms e => elms.set e.1 (some e.2)) (List.replicate (m + 1) none))[i]?.join = l.reverse.lookup i := by
  refine (get_foldl (fun (elms : List (Option V)) i value => elms.set i (some value)) (fun elms i => elms[i]?.join)
    (fun elms => elms.length = m + 1) (fun elms helms e he => ⟨by simpa using helms, fun j => ?_⟩) _
    List.length_replicate i).trans ?_
  · have := hl e he
    rw [List.getElem?_set]
    grind
  · rw [List.getElem?_replicate]
    split <;> simp

/-- The dictionary after the loop: its keys are the indices. -/
theorem foldl_uncheckedSet (l : List (Nat × V)) (d : NumberDictionary V) :
    ∃ entries, l.foldl (fun d e => uncheckedSet d e.1 e.2) d = { d with entries := entries } ∧
      ∀ i, i ∈ entries ↔ i ∈ l.map Prod.fst ∨ i ∈ d.entries := by
  induction l generalizing d with
  | nil => exact ⟨d.entries, rfl, by simp⟩
  | cons e l ih =>
    obtain ⟨entries, hrun, hmem⟩ := ih (d.uncheckedSet e.1 e.2)
    refine ⟨entries, hrun, fun i => ?_⟩
    rw [hmem, uncheckedSet, AList.mem_insert, List.map_cons, List.mem_cons]
    tauto

/-- A dictionary has at most as many keys as were put into it, and as many only if none was put twice. -/
theorem length_keys {entries : AList fun _ : Nat => V} {l : List Nat} (hmem : ∀ i, i ∈ entries ↔ i ∈ l) :
    entries.keys.length ≤ l.length ∧ (entries.keys.length = l.length ↔ l.Nodup) := by
  have hperm : entries.keys.Perm l.dedup := by
    rw [List.perm_ext_iff_of_nodup entries.keys_nodup (List.nodup_dedup _)]
    exact fun i => (hmem i).trans List.mem_dedup.symm
  have hsub := List.dedup_sublist l
  rw [hperm.length_eq]
  exact ⟨hsub.length_le, fun h => List.dedup_eq_self.1 (hsub.eq_of_length h), fun h => by rw [h.dedup]⟩

theorem le_computeCapacity (n : Nat) : n ≤ computeCapacity n := by
  have := Nat.le_pow_clog Nat.one_lt_two (n + n / 2)
  unfold computeCapacity
  omega

/-- An array is always right. A dictionary, which `ShouldConvertToSlowElements` asks for, is right exactly if all keys
are indices and different, and none is so large that the dictionary records a flag in place of its largest key. -/
theorem elementsOf_correct_iff (properties : List (JsonProperty V)) :
    (elementsOf properties).Correct properties ↔
      (indexed properties ≠ [] →
        shouldConvertToSlowElements (indexed properties).length (largestIndex properties + 1) = true →
        (indexed properties).length = properties.length ∧ ((indexed properties).map Prod.fst).Nodup ∧
          largestIndex properties ≤ kRequiresSlowElementsLimit) := by
  have hlength : (indexed properties).length ≤ properties.length := List.length_filterMap_le _ _
  have hbound : ∀ e ∈ indexed properties, e.1 ≤ largestIndex properties := fun e => le_largestIndex
  rw [elementsOf, foldl_scan, buildElements, storeElements_eq, storeElements_eq, Elements.Correct]
  generalize largestIndex properties = m at hbound
  generalize indexed properties = l at hlength hbound
  simp only [Nat.zero_add, Nat.zero_max]
  split
  · rename_i hpos
    have hne : l ≠ [] := List.length_pos_iff.1 hpos
    split
    · rename_i hslow
      have hget := lookup_foldl l l.length
      obtain ⟨entries, hrun, hmem⟩ := foldl_uncheckedSet l (.new l.length)
      rw [hrun] at hget ⊢
      obtain ⟨hle, heq⟩ := length_keys (l := l.map Prod.fst) fun i => by simpa [NumberDictionary.new] using hmem i
      rw [List.length_map] at hle heq
      have hmax : updateMaxNumberKey (setInitialNumberOfElements { (new l.length : NumberDictionary V) with entries := entries }
          properties.length) m = ⟨computeCapacity l.length, entries, properties.length,
            some (if m ≤ kRequiresSlowElementsLimit then m * 2 else 1)⟩ := by
        grind [updateMaxNumberKey, setInitialNumberOfElements, requiresSlowElements, maxNumberKey, NumberDictionary.new]
      rw [hmax]
      refine ⟨fun h _ _ => ?_, fun h => ⟨hget, ?_⟩⟩
      · obtain ⟨-, hcount, hfast, -⟩ := h.2 _ rfl
        dsimp only at hcount
        refine ⟨by omega, heq.1 (by omega), ?_⟩
        by_contra hlarge
        simp [requiresSlowElements, if_neg hlarge] at hfast
      · rintro d hd
        obtain rfl := Elements.dictionary.inj hd
        obtain ⟨hall, hnodup, hsmall⟩ := h hne hslow
        refine ⟨hle.trans (le_computeCapacity _), hall.symm.trans (heq.2 hnodup).symm, ?_⟩
        simp [requiresSlowElements, maxNumberKey, if_pos hsmall]
    · rename_i hfast
      exact iff_of_true ⟨getElem?_foldl hbound, by rintro d ⟨⟩⟩ fun _ hslow => absurd hslow hfast
  · obtain rfl : l = [] := List.length_eq_zero_iff.1 (by omega)
    simp [Elements.get]

/-- A name and an index: the dictionary has one key and counts two. -/
theorem elementsOf_name_and_index :
    ∃ d, elementsOf [⟨.name [97], 0⟩, ⟨.index 1000, 1⟩] = .dictionary d ∧ d.numberOfElements = 2 ∧
      d.entries.keys = [1000] := by
  refine ⟨_, rfl, ?_, ?_⟩
  · decide
  · decide

end V8Core.Json
