import Mathlib.Algebra.Order.Ring.Int
import Mathlib.Logic.Function.Basic
import Mathlib.Tactic.Common

/-!
# Deferred actions

`Trace::Flush` of `regexp-compiler.cc`. The register actions of a trace are kept in a list with the
newest first. `PerformDeferredActions` collapses them to one effect for each register and chooses
how the register is restored; `RestoreAffectedRegisters` is the code for that. The code is run on
registers, a stack and the current position. A failed assertion of the scan is `none`; the stack
limit checks that go with some pushes are left out.
-/

namespace V8Core.Regexp

/-- `Trace::DeferredAction`. -/
inductive DeferredAction
  | setRegisterForLoop (reg : Nat) (value : ℤ)
  | incrementRegister (reg : Nat)
  | storePosition (reg : Nat) (cpOffset : ℤ) (isCapture : Bool)
  | clearCaptures (first last : Nat)

/-- How a register is restored. -/
inductive DeferredActionUndoType
  | ignore
  | restore
  | clear
  deriving DecidableEq

/-- The calls of the macro assembler. -/
inductive Instruction
  | pushRegister (reg : Nat)
  | popRegister (reg : Nat)
  | clearRegisters (first last : Nat)
  | setRegister (reg : Nat) (value : ℤ)
  | advanceRegister (reg : Nat) (n : ℤ)
  | writeCurrentPositionToRegister (reg : Nat) (cpOffset : ℤ)
  | pushCurrentPosition
  | popCurrentPosition
  | advanceCurrentPosition (n : ℤ)

structure Machine where
  registers : Nat → ℤ
  stack : List ℤ
  position : ℤ

/-- The value of a register that is cleared. -/
def undefinedRegister : ℤ := -1

def clearRange (registers : Nat → ℤ) (first last : Nat) : Nat → ℤ :=
  fun reg => if first ≤ reg ∧ reg ≤ last then undefinedRegister else registers reg

def Instruction.run (m : Machine) : Instruction → Option Machine
  | .pushRegister reg => some { m with stack := m.registers reg :: m.stack }
  | .popRegister reg => match m.stack with
    | [] => none
    | value :: stack => some { m with registers := Function.update m.registers reg value, stack }
  | .clearRegisters first last => some { m with registers := clearRange m.registers first last }
  | .setRegister reg value => some { m with registers := Function.update m.registers reg value }
  | .advanceRegister reg n => some { m with registers := Function.update m.registers reg (m.registers reg + n) }
  | .writeCurrentPositionToRegister reg cpOffset =>
    some { m with registers := Function.update m.registers reg (m.position + cpOffset) }
  | .pushCurrentPosition => some { m with stack := m.position :: m.stack }
  | .popCurrentPosition => match m.stack with
    | [] => none
    | position :: stack => some { m with position, stack }
  | .advanceCurrentPosition n => some { m with position := m.position + n }

def run (code : List Instruction) (m : Machine) : Option Machine := code.foldlM Instruction.run m

namespace DeferredAction

/-- `Mentions`. -/
def mentions (that : Nat) : DeferredAction → Bool
  | setRegisterForLoop reg _ => reg = that
  | incrementRegister reg => reg = that
  | storePosition reg _ _ => reg = that
  | clearCaptures first last => first ≤ that && that ≤ last

/-- The registers that `FindAffectedRegisters` adds. -/
def affected : DeferredAction → List Nat
  | setRegisterForLoop reg _ => [reg]
  | incrementRegister reg => [reg]
  | storePosition reg _ _ => [reg]
  | clearCaptures first last => List.range' first (last + 1 - first)

def lastRegister : DeferredAction → Nat
  | setRegisterForLoop reg _ => reg
  | incrementRegister reg => reg
  | storePosition reg _ _ => reg
  | clearCaptures _ last => last

end DeferredAction

/-- `FindAffectedRegisters`. -/
def findAffectedRegisters (actions : List DeferredAction) : List Nat × ℤ :=
  (actions.flatMap DeferredAction.affected,
    actions.foldl (fun max action => if action.lastRegister > max then action.lastRegister else max) (-1))

/-- The variables of the scan for one register; no store is `kNoStore`. -/
structure Scan where
  value : ℤ := 0
  absolute : Bool := false
  clear : Bool := false
  store : Option ℤ := none
  undo : DeferredActionUndoType := .ignore

/-- One action that mentions the register. -/
def Scan.visit (reg : Nat) (s : Scan) : DeferredAction → Option Scan
  | .setRegisterForLoop _ value =>
    if s.store = none ∧ ¬ s.clear then
      some { s with value := if s.absolute then s.value else s.value + value, absolute := true, undo := .restore }
    else none
  | .incrementRegister _ =>
    if s.store = none ∧ ¬ s.clear then
      some { s with value := if s.absolute then s.value else s.value + 1, undo := .restore }
    else none
  | .storePosition _ cpOffset isCapture =>
    if ¬ s.absolute ∧ s.value = 0 then
      some { s with
        store := if ¬ s.clear ∧ s.store = none then some cpOffset else s.store
        undo := if reg ≤ 1 then .ignore else if isCapture then .clear else .restore }
    else none
  | .clearCaptures _ _ =>
    if ¬ s.absolute ∧ s.value = 0 then
      some { s with clear := if s.store = none then true else s.clear, undo := .restore }
    else none

def scan (actions : List DeferredAction) (reg : Nat) : Option Scan :=
  (actions.filter (·.mentions reg)).foldlM (Scan.visit reg) {}

/-- The chronologically last action, or the accumulated increment. -/
def Scan.lastAction (reg : Nat) (s : Scan) : List Instruction :=
  match s.store with
  | some cpOffset => [.writeCurrentPositionToRegister reg cpOffset]
  | none =>
    if s.clear then [.clearRegisters reg reg]
    else if s.absolute then [.setRegister reg s.value]
    else if s.value ≠ 0 then [.advanceRegister reg s.value]
    else []

/-- The code for one register. -/
def Scan.code (reg : Nat) (s : Scan) : List Instruction :=
  (if s.undo = .restore then [.pushRegister reg] else []) ++ s.lastAction reg

structure Performed where
  code : List Instruction := []
  registersToPop : List Nat := []
  registersToClear : List Nat := []

def Performed.add (p : Performed) (reg : Nat) (s : Scan) : Performed where
  code := p.code ++ s.code reg
  registersToPop := if s.undo = .restore then reg :: p.registersToPop else p.registersToPop
  registersToClear := if s.undo = .clear then reg :: p.registersToClear else p.registersToClear

/-- `PerformDeferredActions`, for the registers below a limit. -/
def performDeferredActions (actions : List DeferredAction) (affectedRegisters : List Nat) : Nat → Option Performed
  | 0 => some {}
  | reg + 1 => do
    let p ← performDeferredActions actions affectedRegisters reg
    if affectedRegisters.contains reg then
      let s ← scan actions reg
      return p.add reg s
    else return p

/-- The first of the registers to clear that end at `reg`. -/
def clearFrom (registersToClear : List Nat) : Nat → Nat
  | 0 => 0
  | reg + 1 => if registersToClear.contains reg then clearFrom registersToClear reg else reg + 1

theorem clearFrom_le (registersToClear : List Nat) (reg : Nat) : clearFrom registersToClear reg ≤ reg := by
  fun_induction clearFrom registersToClear reg <;> omega

/-- `RestoreAffectedRegisters`, for the registers below a limit. -/
def restoreAffectedRegisters (registersToPop registersToClear : List Nat) (limit : Nat) : List Instruction :=
  match limit with
  | 0 => []
  | reg + 1 =>
    if registersToPop.contains reg then .popRegister reg :: restoreAffectedRegisters registersToPop registersToClear reg
    else if registersToClear.contains reg then
      .clearRegisters (clearFrom registersToClear reg) reg ::
        restoreAffectedRegisters registersToPop registersToClear (clearFrom registersToClear reg)
    else restoreAffectedRegisters registersToPop registersToClear reg
termination_by limit
decreasing_by
  · exact Nat.lt_succ_self _
  · exact Nat.lt_succ_of_le (clearFrom_le _ _)
  · exact Nat.lt_succ_self _

/-- One past the last affected register, `max_register + 1`. -/
def registerLimit (actions : List DeferredAction) : Nat := ((findAffectedRegisters actions).2 + 1).toNat

def advance (cpOffset : ℤ) : List Instruction :=
  if cpOffset ≠ 0 then [.advanceCurrentPosition cpOffset] else []

/-- `Flush`: the code up to the backtrack label that it pushes, and the code at that label. -/
def flush (actions : List DeferredAction) (cpOffset : ℤ) (backtrack : Bool) :
    Option (List Instruction × List Instruction) :=
  -- only the position is deferred: there is nothing to undo
  if actions.isEmpty && !backtrack then some (advance cpOffset, [])
  else (performDeferredActions actions (findAffectedRegisters actions).1 (registerLimit actions)).map fun p =>
    ((if backtrack then [.pushCurrentPosition] else []) ++ p.code ++ advance cpOffset,
      restoreAffectedRegisters p.registersToPop p.registersToClear (registerLimit actions) ++
        if backtrack then [.popCurrentPosition] else [])

/-! ### Executing the actions one by one -/

/-- What an action does when it is not deferred. -/
def DeferredAction.execute (position : ℤ) (registers : Nat → ℤ) : DeferredAction → Nat → ℤ
  | setRegisterForLoop reg value => Function.update registers reg value
  | incrementRegister reg => Function.update registers reg (registers reg + 1)
  | storePosition reg cpOffset _ => Function.update registers reg (position + cpOffset)
  | clearCaptures first last => clearRange registers first last

/-- The actions in chronological order, the oldest first. -/
def execute (position : ℤ) (actions : List DeferredAction) (registers : Nat → ℤ) : Nat → ℤ :=
  actions.foldr (fun action registers => action.execute position registers) registers

/-- A capture register is undefined whenever a store to it is executed. -/
def CapturesUndefined (position : ℤ) (registers : Nat → ℤ) : List DeferredAction → Prop
  | [] => True
  | action :: older => CapturesUndefined position registers older ∧
    match action with
    | .storePosition reg _ true => 2 ≤ reg → execute position older registers reg = undefinedRegister
    | _ => True

/-- The actions on a loop counter. -/
def DeferredAction.counts : DeferredAction → Bool
  | setRegisterForLoop _ _ => true
  | incrementRegister _ => true
  | storePosition _ _ _ => false
  | clearCaptures _ _ => false

/-- No register is used both as a loop counter and as a position. -/
def KindsSeparate (actions : List DeferredAction) : Prop :=
  ∀ reg, ∀ a ∈ actions, ∀ b ∈ actions, a.mentions reg → b.mentions reg → a.counts = b.counts

section Scan

variable {position : ℤ} {registers : Nat → ℤ} {reg : Nat} {s s' : Scan} {a : DeferredAction}
  {actions : List DeferredAction}

theorem DeferredAction.mem_affected : reg ∈ a.affected ↔ a.mentions reg := by
  cases a <;> simp [affected, mentions, List.mem_range'_1] <;> omega

theorem DeferredAction.execute_of_not_mentions (h : ¬ a.mentions reg) :
    a.execute position registers reg = registers reg := by
  cases a <;> simp only [DeferredAction.execute, clearRange, Function.update_apply] <;> grind [mentions]

/-- What the collapsed actions make of a register. -/
def Scan.apply (position : ℤ) (s : Scan) (value : ℤ) : ℤ :=
  match s.store with
  | some cpOffset => position + cpOffset
  | none => if s.clear then undefinedRegister else if s.absolute then s.value else value + s.value

theorem Scan.visit_apply (hvisit : s.visit reg a = some s') (hmentions : a.mentions reg) :
    s'.apply position (registers reg) = s.apply position (a.execute position registers reg) := by
  cases a <;> simp only [Scan.visit, Option.ite_none_right_eq_some, Option.some.injEq] at hvisit <;>
    obtain ⟨hguard, rfl⟩ := hvisit <;>
    simp only [DeferredAction.execute, clearRange, Function.update_apply] <;>
    grind [Scan.apply, DeferredAction.mentions]

/-- Undoing by `undo` brings the value back. -/
def Undoes (reg : Nat) (value : ℤ) (undo : DeferredActionUndoType) : Prop :=
  (undo = .clear → value = undefinedRegister) ∧ (undo = .ignore → reg ≤ 1)

theorem Scan.visit_undoes (hvisit : s.visit reg a = some s') (hmentions : a.mentions reg)
    (hcaptures : CapturesUndefined position registers (a :: actions)) :
    Undoes reg (execute position actions registers reg) s'.undo := by
  cases a <;> simp only [Scan.visit, Option.ite_none_right_eq_some, Option.some.injEq] at hvisit <;>
    obtain ⟨hguard, rfl⟩ := hvisit <;>
    grind [DeferredAction.mentions, Undoes, CapturesUndefined]

theorem scan_cons_of_mentions (h : a.mentions reg) (s : Scan) :
    ((a :: actions).filter (·.mentions reg)).foldlM (Scan.visit reg) s =
      (s.visit reg a).bind fun s => (actions.filter (·.mentions reg)).foldlM (Scan.visit reg) s := by
  rw [List.filter_cons_of_pos h, List.foldlM_cons]
  rfl

/-- The newest action is visited first and executed last. -/
theorem scan_apply (h : (actions.filter (·.mentions reg)).foldlM (Scan.visit reg) s = some s') :
    s'.apply position (registers reg) = s.apply position (execute position actions registers reg) := by
  induction actions generalizing s with
  | nil => cases h; rfl
  | cons a older ih =>
    by_cases hmentions : a.mentions reg
    · rw [scan_cons_of_mentions hmentions, Option.bind_eq_some_iff] at h
      obtain ⟨s₁, hvisit, hrest⟩ := h
      exact (ih hrest).trans (Scan.visit_apply hvisit hmentions)
    · rw [List.filter_cons_of_neg hmentions] at h
      rw [ih h]
      exact congrArg _ (DeferredAction.execute_of_not_mentions hmentions).symm

/-- The oldest action decides how the register is restored. -/
theorem scan_undoes (h : (actions.filter (·.mentions reg)).foldlM (Scan.visit reg) s = some s')
    (hcaptures : CapturesUndefined position registers actions)
    (hundo : (∃ a ∈ actions, a.mentions reg) ∨
      Undoes reg (execute position actions registers reg) s.undo) :
    Undoes reg (registers reg) s'.undo := by
  induction actions generalizing s with
  | nil =>
    cases h
    exact hundo.resolve_left (by simp)
  | cons a older ih =>
    by_cases hmentions : a.mentions reg
    · rw [scan_cons_of_mentions hmentions, Option.bind_eq_some_iff] at h
      obtain ⟨s₁, hvisit, hrest⟩ := h
      exact ih hrest hcaptures.1 (.inr (Scan.visit_undoes hvisit hmentions hcaptures))
    · rw [List.filter_cons_of_neg hmentions] at h
      refine ih h hcaptures.1 (hundo.imp ?_ ?_)
      · rintro ⟨b, hb, hbm⟩
        exact ⟨b, (List.mem_cons.1 hb).resolve_left fun heq => hmentions (heq ▸ hbm), hbm⟩
      · intro hundo
        rwa [execute, List.foldr_cons, DeferredAction.execute_of_not_mentions hmentions] at hundo

/-- The scan has seen actions of one kind. -/
def Scan.InMode (counts : Bool) (s : Scan) : Prop :=
  if counts then s.store = none ∧ ¬ s.clear ∧ (s.absolute ∨ 0 < s.value)
  else ¬ s.absolute ∧ s.value = 0 ∧ (s.store ≠ none ∨ s.clear)

theorem Scan.visit_inMode (h : s = {} ∨ s.InMode a.counts) :
    ∃ s', s.visit reg a = some s' ∧ s'.InMode a.counts := by
  cases a <;> grind [Scan.visit, Scan.InMode, DeferredAction.counts]

theorem Scan.visit_eq_none {counts : Bool} (h : s.InMode counts) (hne : a.counts ≠ counts) :
    s.visit reg a = none := by
  cases a <;> grind [Scan.visit, Scan.InMode, DeferredAction.counts]

theorem foldlM_visit_isSome {counts : Bool} (h : s.InMode counts) :
    (actions.foldlM (Scan.visit reg) s).isSome ↔ ∀ a ∈ actions, a.counts = counts := by
  induction actions generalizing s with
  | nil => simp
  | cons a older ih =>
    by_cases heq : a.counts = counts
    · obtain ⟨s₁, hvisit, hmode⟩ := @Scan.visit_inMode reg _ _ (.inr (heq ▸ h))
      simp [hvisit, ih (heq ▸ hmode), heq]
    · simp [Scan.visit_eq_none h heq, heq]

/-- The assertions of the scan hold exactly when the register has one kind of action. -/
theorem scan_isSome : (scan actions reg).isSome ↔
    ∀ a ∈ actions, ∀ b ∈ actions, a.mentions reg → b.mentions reg → a.counts = b.counts := by
  suffices h : (scan actions reg).isSome ↔ ∀ a ∈ actions.filter (·.mentions reg),
      ∀ b ∈ actions.filter (·.mentions reg), a.counts = b.counts by
    rw [h]
    grind
  rw [scan]
  cases actions.filter (·.mentions reg) with
  | nil => simp
  | cons a older =>
    obtain ⟨s₁, hvisit, hmode⟩ := @Scan.visit_inMode reg {} a (.inl rfl)
    rw [List.foldlM_cons, hvisit]
    refine (foldlM_visit_isSome hmode).trans ?_
    grind

end Scan

/-! ### The code for all registers -/

@[simp] theorem run_nil (m : Machine) : run [] m = some m := rfl

@[simp] theorem run_cons (i : Instruction) (code : List Instruction) (m : Machine) :
    run (i :: code) m = (i.run m).bind (run code) := rfl

@[simp] theorem run_append (code rest : List Instruction) (m : Machine) :
    run (code ++ rest) m = (run code m).bind (run rest) := by
  simp [run, List.foldlM_append]; rfl

/-- The register a push saves. -/
def Instruction.pushed : Instruction → Option Nat
  | .pushRegister reg => some reg
  | _ => none

/-- The register a pop restores. -/
def Instruction.popped : Instruction → Option Nat
  | .popRegister reg => some reg
  | _ => none

section Restore

variable {pops clears : List Nat} {old : Nat → ℤ}

theorem mem_of_clearFrom_le {limit reg : Nat} (hfrom : clearFrom clears limit ≤ reg) (hlt : reg < limit) :
    reg ∈ clears := by
  fun_induction clearFrom clears limit with
  | case1 => omega
  | case2 limit hmem ih =>
    obtain rfl | hlt := Nat.eq_or_lt_of_le (Nat.le_of_lt_succ hlt)
    · simpa using hmem
    · exact ih hfrom hlt
  | case3 => omega

theorem filter_lt_succ (hsorted : pops.Pairwise (· > ·)) (reg : Nat) :
    pops.filter (· < reg + 1) =
      if reg ∈ pops then reg :: pops.filter (· < reg) else pops.filter (· < reg) := by
  induction hsorted with
  | nil => rfl
  | @cons first rest hfirst hsorted ih =>
    rw [List.filter_cons, ih]
    grind

/-- The registers of a merged clear are not popped. -/
theorem filter_clearFrom (hdisjoint : ∀ reg ∈ pops, reg ∉ clears) {reg : Nat} (hreg : reg ∈ clears) :
    pops.filter (· < reg + 1) = pops.filter (· < clearFrom clears reg) := by
  refine List.filter_congr fun r hr => ?_
  have hle := clearFrom_le clears reg
  have hnot : ¬ (clearFrom clears reg ≤ r ∧ r < reg) := fun h => hdisjoint r hr (mem_of_clearFrom_le h.1 h.2)
  have hne : r ≠ reg := fun h => hdisjoint r hr (h ▸ hreg)
  simp only [decide_eq_decide]
  omega

theorem restoreAffectedRegisters_popped (hsorted : pops.Pairwise (· > ·))
    (hdisjoint : ∀ reg ∈ pops, reg ∉ clears) (limit : Nat) :
    (restoreAffectedRegisters pops clears limit).filterMap Instruction.popped = pops.filter (· < limit) := by
  fun_induction restoreAffectedRegisters pops clears limit with
  | case1 => simp
  | case2 reg hpop ih =>
    rw [filter_lt_succ hsorted, if_pos (by simpa using hpop), ← ih]
    rfl
  | case3 reg hpop hclear ih =>
    rw [filter_clearFrom hdisjoint (by simpa using hclear), ← ih]
    rfl
  | case4 reg hpop hclear ih => rw [ih, filter_lt_succ hsorted, if_neg (by simpa using hpop)]

/-- What the restored registers hold. -/
def restored (pops clears : List Nat) (old later : Nat → ℤ) (limit reg : Nat) : ℤ :=
  if reg < limit ∧ reg ∈ pops then old reg
  else if reg < limit ∧ reg ∈ clears then undefinedRegister
  else later reg

/-- With the saved values on the stack, the restore code takes exactly these from it. -/
theorem run_restoreAffectedRegisters (hsorted : pops.Pairwise (· > ·))
    (hdisjoint : ∀ reg ∈ pops, reg ∉ clears) (limit : Nat) (later : Nat → ℤ) (stack : List ℤ) (position : ℤ) :
    run (restoreAffectedRegisters pops clears limit)
        ⟨later, (pops.filter (· < limit)).map old ++ stack, position⟩ =
      some ⟨restored pops clears old later limit, stack, position⟩ := by
  fun_induction restoreAffectedRegisters pops clears limit generalizing later with
  | case1 =>
    have h : restored pops clears old later 0 = later := by
      funext r
      simp [restored]
    simp [h]
  | case2 reg hpop ih =>
    have hmem : reg ∈ pops := by simpa using hpop
    rw [filter_lt_succ hsorted, if_pos hmem]
    refine (ih (Function.update later reg (old reg))).trans (congrArg (fun r => some (Machine.mk r _ _)) ?_)
    funext r
    simp only [restored, Function.update_apply]
    grind
  | case3 reg hpop hclear ih =>
    have hmem : reg ∈ clears := by simpa using hclear
    rw [filter_clearFrom hdisjoint hmem]
    refine (ih (clearRange later (clearFrom clears reg) reg)).trans
      (congrArg (fun r => some (Machine.mk r _ _)) ?_)
    funext r
    have hle := clearFrom_le clears reg
    have hmerged : clearFrom clears reg ≤ r → r < reg → r ∈ clears := mem_of_clearFrom_le
    simp only [restored, clearRange]
    grind
  | case4 reg hpop hclear ih =>
    rw [filter_lt_succ hsorted, if_neg (by simpa using hpop)]
    refine (ih later).trans (congrArg (fun r => some (Machine.mk r _ _)) ?_)
    funext r
    simp only [restored]
    grind

end Restore

section Perform

variable {actions : List DeferredAction} {affectedRegisters : List Nat} {p : Performed}

theorem clearRange_self (registers : Nat → ℤ) (reg : Nat) :
    clearRange registers reg reg = Function.update registers reg undefinedRegister := by
  funext r
  grind [clearRange, Function.update_apply]

theorem Scan.run_lastAction (s : Scan) (reg : Nat) (m : Machine) :
    run (s.lastAction reg) m =
      some { m with registers := Function.update m.registers reg (s.apply m.position (m.registers reg)) } := by
  unfold Scan.lastAction Scan.apply
  split
  · rfl
  · split_ifs with hclear habsolute hvalue
    · exact congrArg (fun r => some { m with registers := r }) (clearRange_self _ _)
    · rfl
    · rfl
    · simp [not_not.1 hvalue]

theorem Scan.run_code (s : Scan) (reg : Nat) (m : Machine) :
    run (s.code reg) m = some ⟨Function.update m.registers reg (s.apply m.position (m.registers reg)),
      (if s.undo = .restore then [m.registers reg] else []) ++ m.stack, m.position⟩ := by
  rw [Scan.code, run_append]
  split_ifs
  · exact s.run_lastAction reg { m with stack := m.registers reg :: m.stack }
  · exact s.run_lastAction reg m

theorem Scan.pushed_code (s : Scan) (reg : Nat) :
    (s.code reg).filterMap Instruction.pushed = if s.undo = .restore then [reg] else [] := by
  have h : (s.lastAction reg).filterMap Instruction.pushed = [] := by
    unfold Scan.lastAction
    split
    · rfl
    · split_ifs <;> rfl
  rw [Scan.code, List.filterMap_append, h]
  split_ifs <;> rfl

/-- What is known of the code for the registers below `limit`. -/
structure Performed.Holds (actions : List DeferredAction) (affectedRegisters : List Nat) (limit : Nat)
    (p : Performed) : Prop where
  pushed : p.code.filterMap Instruction.pushed = p.registersToPop.reverse
  sorted : p.registersToPop.Pairwise (· > ·)
  mem_pop : ∀ reg, reg ∈ p.registersToPop ↔
    reg < limit ∧ reg ∈ affectedRegisters ∧ ∃ s, scan actions reg = some s ∧ s.undo = .restore
  mem_clear : ∀ reg, reg ∈ p.registersToClear ↔
    reg < limit ∧ reg ∈ affectedRegisters ∧ ∃ s, scan actions reg = some s ∧ s.undo = .clear

theorem performDeferredActions_isSome (limit : Nat) :
    (performDeferredActions actions affectedRegisters limit).isSome ↔
      ∀ reg < limit, reg ∈ affectedRegisters → (scan actions reg).isSome := by
  induction limit with
  | zero => simp [performDeferredActions]
  | succ limit ih =>
    rw [Nat.forall_lt_succ_right, ← ih, performDeferredActions]
    cases performDeferredActions actions affectedRegisters limit <;>
      by_cases h : limit ∈ affectedRegisters <;> cases scan actions limit <;> simp [h]

/-- One more register: nothing is emitted, or the code of its scan. -/
theorem performDeferredActions_succ {limit : Nat}
    (h : performDeferredActions actions affectedRegisters (limit + 1) = some p) :
    ∃ q, performDeferredActions actions affectedRegisters limit = some q ∧
      (limit ∉ affectedRegisters ∧ p = q ∨
        limit ∈ affectedRegisters ∧ ∃ s, scan actions limit = some s ∧ p = q.add limit s) := by
  rw [performDeferredActions] at h
  obtain ⟨q, hq, h⟩ := Option.bind_eq_some_iff.1 h
  refine ⟨q, hq, ?_⟩
  by_cases hmem : limit ∈ affectedRegisters
  · rw [if_pos (by simpa using hmem)] at h
    obtain ⟨s, hs, h⟩ := Option.bind_eq_some_iff.1 h
    exact .inr ⟨hmem, s, hs, (Option.some.inj h).symm⟩
  · rw [if_neg (by simpa using hmem)] at h
    exact .inl ⟨hmem, (Option.some.inj h).symm⟩

theorem performDeferredActions_holds {limit : Nat}
    (h : performDeferredActions actions affectedRegisters limit = some p) :
    p.Holds actions affectedRegisters limit := by
  induction limit generalizing p with
  | zero =>
    cases h
    exact ⟨rfl, .nil, by simp, by simp⟩
  | succ limit ih =>
    obtain ⟨q, hq, ⟨hmem, rfl⟩ | ⟨hmem, s, hs, rfl⟩⟩ := performDeferredActions_succ h
    · obtain ⟨hpushed, hsorted, hpop, hclear⟩ := ih hq
      exact ⟨hpushed, hsorted, by grind, by grind⟩
    · obtain ⟨hpushed, hsorted, hpop, hclear⟩ := ih hq
      refine ⟨?_, ?_, ?_, ?_⟩
      · rw [Performed.add, List.filterMap_append, hpushed, Scan.pushed_code]
        split_ifs <;> simp
      · dsimp only [Performed.add]
        split_ifs
        · exact List.pairwise_cons.2 ⟨fun reg hreg => ((hpop reg).1 hreg).1, hsorted⟩
        · exact hsorted
      all_goals grind [Performed.add]

theorem Performed.Holds.disjoint {limit : Nat} (h : p.Holds actions affectedRegisters limit) :
    ∀ reg ∈ p.registersToPop, reg ∉ p.registersToClear := by
  intro reg hpop hclear
  obtain ⟨-, -, s, hs, hundo⟩ := (h.mem_pop reg).1 hpop
  obtain ⟨-, -, s', hs', hundo'⟩ := (h.mem_clear reg).1 hclear
  grind

theorem Performed.Holds.filter_pop {limit : Nat} (h : p.Holds actions affectedRegisters limit) :
    p.registersToPop.filter (· < limit) = p.registersToPop :=
  List.filter_eq_self.2 fun reg hreg => decide_eq_true ((h.mem_pop reg).1 hreg).1

/-- The loop writes each register below the limit once and saves what it had. -/
theorem run_performDeferredActions {limit : Nat} (registers : Nat → ℤ) (stack : List ℤ) (position : ℤ)
    (h : performDeferredActions actions affectedRegisters limit = some p) :
    run p.code ⟨registers, stack, position⟩ =
      some ⟨fun reg => if reg < limit ∧ reg ∈ affectedRegisters then execute position actions registers reg
        else registers reg, p.registersToPop.map registers ++ stack, position⟩ := by
  induction limit generalizing p with
  | zero =>
    cases h
    simp
  | succ limit ih =>
    obtain ⟨q, hq, ⟨hmem, rfl⟩ | ⟨hmem, s, hs, rfl⟩⟩ := performDeferredActions_succ h
    · refine (ih hq).trans (congrArg (fun r => some (Machine.mk r _ _)) ?_)
      funext reg
      grind
    · have happly := @scan_apply position registers _ _ _ _ hs
      simp only [Performed.add, run_append, ih hq, Option.bind_some, Scan.run_code]
      congr 2
      · funext reg
        simp only [Function.update_apply]
        grind [Scan.apply]
      · simp only [Nat.lt_irrefl, false_and, if_false]
        split_ifs <;> simp
end Perform

/-! ### Flushing a trace -/

section Flush

variable {actions : List DeferredAction} {reg : Nat}

theorem mem_findAffectedRegisters :
    reg ∈ (findAffectedRegisters actions).1 ↔ ∃ a ∈ actions, a.mentions reg := by
  simp [findAffectedRegisters, DeferredAction.mem_affected]

theorem DeferredAction.le_lastRegister {a : DeferredAction} (h : a.mentions reg) : reg ≤ a.lastRegister := by
  cases a <;> grind [mentions, lastRegister]

theorem le_foldl_lastRegister (actions : List DeferredAction) (max : ℤ) :
    let last := actions.foldl
      (fun max action => if action.lastRegister > max then action.lastRegister else max) max
    max ≤ last ∧ ∀ a ∈ actions, (a.lastRegister : ℤ) ≤ last := by
  induction actions generalizing max with
  | nil => simp
  | cons a older ih =>
    obtain ⟨hmax, hall⟩ := ih (if a.lastRegister > max then a.lastRegister else max)
    refine ⟨?_, List.forall_mem_cons.2 ⟨?_, hall⟩⟩ <;> simp only [List.foldl_cons] <;> split_ifs at hmax ⊢ <;> omega

/-- The loop over the registers reaches every affected one. -/
theorem lt_limit (h : reg ∈ (findAffectedRegisters actions).1) :
    reg < registerLimit actions := by
  obtain ⟨a, ha, hmentions⟩ := mem_findAffectedRegisters.1 h
  have hle := DeferredAction.le_lastRegister hmentions
  have hlast := (le_foldl_lastRegister actions (-1)).2 a ha
  rw [registerLimit, findAffectedRegisters]
  omega

theorem execute_of_not_mem (position : ℤ) (registers : Nat → ℤ)
    (h : reg ∉ (findAffectedRegisters actions).1) :
    execute position actions registers reg = registers reg := by
  rw [mem_findAffectedRegisters] at h
  induction actions with
  | nil => rfl
  | cons a older ih =>
    have hhead : ¬ a.mentions reg := fun ha => h ⟨a, List.mem_cons_self, ha⟩
    rw [execute, List.foldr_cons, DeferredAction.execute_of_not_mentions hhead]
    refine ih fun hex => ?_
    obtain ⟨b, hb, hbm⟩ := hex
    exact h ⟨b, List.mem_cons_of_mem _ hb, hbm⟩

/-- The branch with nothing to undo is the general one without registers. -/
theorem flush_eq (actions : List DeferredAction) (cpOffset : ℤ) (backtrack : Bool) :
    flush actions cpOffset backtrack =
      (performDeferredActions actions (findAffectedRegisters actions).1 (registerLimit actions)).map fun p =>
        ((if backtrack then [.pushCurrentPosition] else []) ++ p.code ++ advance cpOffset,
          restoreAffectedRegisters p.registersToPop p.registersToClear (registerLimit actions) ++
            if backtrack then [.popCurrentPosition] else []) := by
  rw [flush]
  refine ite_eq_right_iff.2 fun h => ?_
  obtain ⟨rfl, rfl⟩ : actions = [] ∧ backtrack = false := by simpa using h
  simp [registerLimit, findAffectedRegisters, performDeferredActions, restoreAffectedRegisters]

theorem flush_isSome (actions : List DeferredAction) (cpOffset : ℤ) (backtrack : Bool) :
    (flush actions cpOffset backtrack).isSome ↔ KindsSeparate actions := by
  rw [flush_eq, Option.isSome_map, performDeferredActions_isSome]
  constructor
  · intro h reg a ha b hb hma hmb
    have hmem := mem_findAffectedRegisters.2 ⟨a, ha, hma⟩
    exact scan_isSome.1 (h reg (lt_limit hmem) hmem) a ha b hb hma hmb
  · exact fun h reg _ _ => scan_isSome.2 (h reg)

theorem run_advance (cpOffset : ℤ) (m : Machine) :
    run (advance cpOffset) m = some { m with position := m.position + cpOffset } := by
  unfold advance
  split_ifs with h
  · rfl
  · simp [not_not.1 h]

variable {p : Performed} {position : ℤ} {registers later : Nat → ℤ}
  (hp : performDeferredActions actions (findAffectedRegisters actions).1 (registerLimit actions) = some p)

include hp

theorem run_code (stack : List ℤ) : run p.code ⟨registers, stack, position⟩ =
    some ⟨execute position actions registers, p.registersToPop.map registers ++ stack, position⟩ := by
  refine (run_performDeferredActions registers stack position hp).trans
    (congrArg (fun r => some (Machine.mk r _ _)) ?_)
  funext reg
  by_cases hmem : reg ∈ (findAffectedRegisters actions).1
  · rw [if_pos ⟨lt_limit hmem, hmem⟩]
  · rw [if_neg fun h => hmem h.2, execute_of_not_mem position registers hmem]

/-- A register past capture zero is popped, cleared or was never written. -/
theorem restored_eq (hcaptures : CapturesUndefined position registers actions)
    (hlater : ∀ reg, 2 ≤ reg → (∀ a ∈ actions, ¬ a.mentions reg) → later reg = registers reg)
    (hreg : 2 ≤ reg) :
    restored p.registersToPop p.registersToClear registers later (registerLimit actions) reg = registers reg := by
  have hholds := performDeferredActions_holds hp
  have hpop := hholds.mem_pop reg
  have hclear := hholds.mem_clear reg
  unfold restored
  by_cases hmem : reg ∈ (findAffectedRegisters actions).1
  · have hlt := lt_limit hmem
    obtain ⟨s, hs⟩ := Option.isSome_iff_exists.1
      ((performDeferredActions_isSome _).1 (Option.isSome_iff_exists.2 ⟨p, hp⟩) reg hlt hmem)
    obtain ⟨hundefined, hignore⟩ := scan_undoes hs hcaptures (.inl (mem_findAffectedRegisters.1 hmem))
    cases hundo : s.undo <;> grind
  · rw [if_neg fun h => hmem (hpop.1 h.2).2.1, if_neg fun h => hmem (hclear.1 h.2).2.1]
    exact hlater reg hreg fun a ha hm => hmem (mem_findAffectedRegisters.2 ⟨a, ha, hm⟩)

omit hp

/-- The code of a trace is emitted exactly when no register has actions of both kinds. It leaves the
registers as the actions would one after the other. The code at the backtrack label takes them and the
stack back, whatever the affected registers hold by then; its pops are the pushes in reverse. -/
theorem flush_spec (actions : List DeferredAction) (cpOffset : ℤ) (backtrack : Bool) :
    ((flush actions cpOffset backtrack).isSome ↔ KindsSeparate actions) ∧
    ∀ code undo, flush actions cpOffset backtrack = some (code, undo) →
      undo.filterMap Instruction.popped = (code.filterMap Instruction.pushed).reverse ∧
      ∀ registers stack position, CapturesUndefined position registers actions →
        ∃ m, run code ⟨registers, stack, position⟩ = some m ∧
          m.registers = execute position actions registers ∧
          m.position = position + cpOffset ∧
          ∀ later laterPosition,
            (∀ reg, 2 ≤ reg → (∀ a ∈ actions, ¬ a.mentions reg) → later reg = m.registers reg) →
            ∃ m', run undo ⟨later, m.stack, laterPosition⟩ = some m' ∧ m'.stack = stack ∧
              (∀ reg, 2 ≤ reg → m'.registers reg = registers reg) ∧
              (backtrack → m'.position = position) := by
  refine ⟨flush_isSome actions cpOffset backtrack, fun code undo hflush => ?_⟩
  rw [flush_eq] at hflush
  obtain ⟨p, hp, heq⟩ := Option.map_eq_some_iff.1 hflush
  obtain ⟨rfl, rfl⟩ := Prod.mk.inj heq
  have hholds := performDeferredActions_holds hp
  constructor
  · have hadvance : (advance cpOffset).filterMap Instruction.pushed = [] := by
      unfold advance
      split_ifs <;> rfl
    simp only [List.filterMap_append, hadvance, hholds.pushed,
      restoreAffectedRegisters_popped hholds.sorted hholds.disjoint, hholds.filter_pop]
    cases backtrack <;> exact (List.append_nil _).trans (by simp [List.filterMap, Instruction.pushed])
  intro registers stack position hcaptures
  -- the saved position, if any, lies under the saved registers
  refine ⟨⟨execute position actions registers, p.registersToPop.map registers ++
    ((if backtrack then [position] else []) ++ stack), position + cpOffset⟩, ?_, rfl, rfl, ?_⟩
  · cases backtrack <;> simp [Instruction.run, run_code hp, run_advance]
  intro later laterPosition hlater
  have hunchanged : ∀ reg, 2 ≤ reg → (∀ a ∈ actions, ¬ a.mentions reg) → later reg = registers reg := by
    intro reg hreg hnot
    refine (hlater reg hreg hnot).trans (execute_of_not_mem position registers fun hmem => ?_)
    obtain ⟨a, ha, hm⟩ := mem_findAffectedRegisters.1 hmem
    exact hnot a ha hm
  have hrestore := @run_restoreAffectedRegisters _ _ registers hholds.sorted hholds.disjoint
    (registerLimit actions) later ((if backtrack then [position] else []) ++ stack) laterPosition
  rw [hholds.filter_pop] at hrestore
  have hrestored (reg : Nat) (hreg : 2 ≤ reg) := restored_eq hp hcaptures hunchanged hreg
  rw [run_append, hrestore]
  cases backtrack
  · exact ⟨_, rfl, rfl, hrestored, by simp⟩
  · exact ⟨_, rfl, rfl, hrestored, fun _ => rfl⟩

end Flush

/-- A capture that is cleared and set again, and a loop counter. -/
theorem flush_spec_capture_and_counter : ∃ code undo,
    flush [.incrementRegister 4, .storePosition 2 0 true, .clearCaptures 2 3] 1 true = some (code, undo) ∧
      undo.filterMap Instruction.popped = (code.filterMap Instruction.pushed).reverse := by
  have hsome : (flush [.incrementRegister 4, .storePosition 2 0 true, .clearCaptures 2 3] 1 true).isSome := by decide
  obtain ⟨⟨code, undo⟩, hflush⟩ := Option.isSome_iff_exists.1 hsome
  exact ⟨code, undo, hflush, ((flush_spec _ _ _).2 code undo hflush).1⟩

/-- A register that gets a position and is then advanced. -/
theorem flush_mixed_kinds : flush [.incrementRegister 2, .storePosition 2 0 false] 0 false = none := by
  decide

end V8Core.Regexp
