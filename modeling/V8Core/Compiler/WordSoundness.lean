import V8Core.Compiler.WordReducers
/-!
# The word reducers keep the word

Each reducer returns, for every graph and every assignment of words, a node with the
word of the node it replaces. A reducer is a list of alternatives, so its lemma goes
through them one by one; what an alternative needs about words is in `WordFacts`.
-/

namespace V8Core.Compiler

open Node WordFacts

variable (G : GraphInfo) {w : Nat}
variable {L : Nat} {k : BitVec w} {l : Node w} {mask : BitVec w} {node r x : Node w} {x' : Node 32} {y : Node w}
  (a : WordNAdapter 32) {b : Node 32}

/-! ## Addition and subtraction -/

variable {op : Binop}
variable {env : Env}

/-- Operators other than `SarShiftOutZeros` promise nothing of their own. -/
theorem Node.Valid.binop (hop : op ≠ .sarShiftOutZeros) (hl : l.Valid env) (hr : r.Valid env) :
    (Node.binop op l r).Valid env := ⟨hl, hr, fun h => absurd h hop⟩

/-- A right operand that changes nothing. -/
theorem sound_unit {k : BitVec w} (hk : ∀ x, op.eval x k = x) : (Node.binop op l r).Sound (onlyIf (r.is k) l) :=
  Sound.onlyIf fun h env hv => ⟨hv.1, by rw [eval, is_eval h, hk]⟩

theorem sound_subSame : (Node.binop .sub l r).Sound (onlyIf (G.same l r) (.constant 0#w)) :=
  Sound.onlyIf fun h env _ => ⟨trivial, by simp [eval, Binop.eval, G.same_eq _ _ h]⟩

/-- `(0 - x) + y => y - x`. -/
theorem refines_addNegLeft {zero : Node w} (h : l.inputs .sub = some (zero, x)) (h0 : zero.is 0#w = true) :
    (Node.binop .add l r).Refines (.binop .sub r x) := by
  intro env hv
  refine ⟨.binop (by decide) hv.2.1 (inputs_valid h hv.1).2, ?_⟩
  simp only [eval, inputs_eval h, Binop.eval, is_eval h0]
  rw [BitVec.zero_sub, BitVec.add_comm, BitVec.sub_eq_add_neg]

/-- `y + (0 - x) => y - x`. -/
theorem refines_addNegRight {zero : Node w} (h : r.inputs .sub = some (zero, x)) (h0 : zero.is 0#w = true) :
    (Node.binop .add l r).Refines (.binop .sub l x) := by
  intro env hv
  refine ⟨.binop (by decide) hv.1 (inputs_valid h hv.2.1).2, ?_⟩
  simp only [eval, inputs_eval h, Binop.eval, is_eval h0]
  rw [BitVec.zero_sub, BitVec.sub_eq_add_neg]

/-- The operators by which two constants can be combined. -/
def Binop.regroups : Binop → Bool
  | .add | .mul | .and => true
  | _ => false

theorem Binop.eval_regroup (hop : op.regroups = true) (a b c : BitVec w) :
    op.eval (op.eval a b) c = op.eval a (op.eval c b) := by
  cases op <;> simp only [Binop.regroups, Bool.false_eq_true] at hop <;> simp only [Binop.eval]
  · rw [BitVec.add_assoc, BitVec.add_comm b]
  · rw [BitVec.mul_assoc, BitVec.mul_comm b]
  · rw [BitVec.and_assoc, BitVec.and_comm b]

/-- `(x op K) op K => x op K`. -/
theorem refines_regroup {k : Node w} {k₁ k₂ : BitVec w} (hop : op.regroups = true) (hin : l.inputs op = some (x, k))
    (hk₁ : k.resolvedValue = some k₁) (hk₂ : r.resolvedValue = some k₂) :
    (Node.binop op l r).Refines (.binop op x (.constant (op.eval k₂ k₁))) := by
  intro env hv
  refine ⟨.binop (by rintro rfl; cases hop) (inputs_valid hin hv.1).1 trivial, ?_⟩
  simp only [eval, inputs_eval hin, resolvedValue_eval hk₁, resolvedValue_eval hk₂, Binop.eval_regroup hop]

theorem sound_regroup (hop : op.regroups = true) : (Node.binop op l r).Sound (do
    let b ← r.resolvedValue
    let (x, k) ← l.inputs op
    let a ← k.resolvedValue
    onlyIf (G.ownsInput l) (.binop op x (.constant (op.eval b a)))) :=
  Sound.bind fun _ hb => Sound.bind₂ fun _ _ hin => Sound.bind fun _ ha => Sound.onlyIf fun _ => refines_regroup hop hin ha hb

/-- `x - K => x + -K`. -/
theorem refines_subConstant (h : r.resolvedValue = some k) :
    (Node.binop .sub l r).Refines (.binop .add l (.constant (-k))) := by
  intro env hv
  refine ⟨.binop (by decide) hv.1 trivial, ?_⟩
  simp only [eval, Binop.eval, resolvedValue_eval h, BitVec.sub_eq_add_neg]

/-- Both reducers at once, by induction on the size of the node: each calls the other. -/
theorem reduceInt32_sound (n : Nat) :
    (∀ left right : Node 32, 2 * (left.size + right.size) ≤ n →
      (Node.binop .add left right).Sound (reduceInt32Add G left right)) ∧
    (∀ left right : Node 32, 2 * (left.size + right.size) + 1 ≤ n →
      (Node.binop .sub left right).Sound (reduceInt32Sub G left right)) := by
  induction n using Nat.strong_induction_on with
  | _ n ih =>
    constructor
    · intro left right hn
      have hsize := size_put left right
      rw [reduceInt32Add]
      refine Sound.of_refines (refines_put rfl left right) ?_
      refine Sound.orElse (sound_unit BitVec.add_zero) (Sound.orElse (sound_fold fun _ => rfl) (Sound.orElse ?_ (Sound.orElse ?_ ?_)))
      · split
        · rename_i zero x hin
          refine Sound.onlyIf fun h0 => Refines.followedBy (refines_addNegLeft hin h0) ?_
          have := inputs_size hin
          exact (ih (n - 1) (by omega)).2 _ _ (by omega)
        · exact Sound.none
      · split
        · rename_i zero x hin
          refine Sound.onlyIf fun h0 => Refines.followedBy (refines_addNegRight hin h0) ?_
          have := inputs_size hin
          exact (ih (n - 1) (by omega)).2 _ _ (by omega)
        · exact Sound.none
      · exact sound_regroup G rfl
    · intro left right hn
      rw [reduceInt32Sub]
      refine Sound.orElse (sound_unit BitVec.sub_zero) (Sound.orElse (sound_fold fun _ => rfl)
        (Sound.orElse (sound_subSame G) (Sound.bind fun k hk => Sound.some ?_)))
      refine Refines.followedBy (refines_subConstant hk) ?_
      have := size_pos right
      have : (Node.constant (-k)).size = 1 := rfl
      exact (ih (n - 1) (by omega)).1 _ _ (by omega)

variable (left right : Node 32)

theorem reduceInt32Add_sound :
    (Node.binop .add left right).Sound (reduceInt32Add G left right) :=
  (reduceInt32_sound G _).1 left right le_rfl

theorem reduceInt32Sub_sound :
    (Node.binop .sub left right).Sound (reduceInt32Sub G left right) :=
  (reduceInt32_sound G _).2 left right le_rfl

theorem reduceInt64Add_sound (left right : Node 64) :
    (Node.binop .add left right).Sound (reduceInt64Add G left right) :=
  Sound.of_refines (refines_put rfl left right)
    (Sound.orElse (sound_unit BitVec.add_zero) (Sound.orElse (sound_fold fun _ => rfl) (sound_regroup G rfl)))

theorem reduceInt64Sub_sound (left right : Node 64) :
    (Node.binop .sub left right).Sound (reduceInt64Sub G left right) := by
  refine Sound.orElse (sound_unit BitVec.sub_zero) (Sound.orElse (sound_fold fun _ => rfl)
    (Sound.orElse (sound_subSame G) (Sound.bind fun k hk => Sound.some ?_)))
  exact Refines.followedBy (refines_subConstant hk) (reduceInt64Add_sound G left _)

/-! ## Rotations -/

/-- Amounts that sum to the word size, or of which one is the word size minus the other, turn two
shifts into a rotation. -/
theorem ror_eval {isXor : Bool} {x : BitVec 32} {a b : BitVec 32} (hsum : (a.toNat + b.toNat) % 32 = 0)
    (hxor : isXor = true → a.toNat % 32 ≠ 0) :
    (if isXor then Binop.xor else Binop.or).eval (Binop.shl.eval x a) (Binop.shr.eval x b) = Binop.ror.eval x b := by
  have hrot : x.rotateRight (b.toNat % 32) = x.rotateRight b.toNat := by
    rw [BitVec.rotateRight_def, BitVec.rotateRight_def, Nat.mod_mod]
  cases isXor with
  | false =>
    simp only [Binop.eval]
    rw [hrot]
    exact shl_or_shr (by omega) hsum
  | true =>
    simp only [Binop.eval]
    rw [hrot]
    exact shl_xor_shr (by omega) hsum (hxor rfl)

theorem toNat_sum_of_add {a b : BitVec 32} (h : a + b = 32#32) : (a.toNat + b.toNat) % 32 = 0 := by
  have hn := congrArg BitVec.toNat h
  rw [BitVec.toNat_add, BitVec.toNat_ofNat] at hn
  omega

theorem toNat_sum_of_sub {a b : BitVec 32} (h : a = 32#32 - b) : (a.toNat + b.toNat) % 32 = 0 := by
  refine toNat_sum_of_add ?_
  rw [h, BitVec.sub_add_cancel]

theorem toNat_and_31 (y : BitVec 32) : (y &&& 31#32).toNat = y.toNat % 32 := by
  rw [BitVec.toNat_and, show (31#32).toNat = 2 ^ 5 - 1 from rfl, Nat.and_two_pow_sub_one_eq_mod]

theorem and_31_ne_zero {a : BitVec 32} (h : (a &&& 31#32 == 0#32) = false) : a.toNat % 32 ≠ 0 := by
  rw [beq_eq_false_iff_ne, ne_eq, ← BitVec.toNat_inj, toNat_and_31] at h
  exact h

theorem rorShifts_cases {l r x a : Node 32} (h : rorShifts l r = some ((x, a), (x', b))) :
    (l.inputs .shl = some (x, a) ∧ r.inputs .shr = some (x', b)) ∨
      (r.inputs .shl = some (x, a) ∧ l.inputs .shr = some (x', b)) := by
  rcases (Option.orElse_eq_some _ _ _).1 h with h | ⟨-, h⟩
  · left; simpa [Option.bind_eq_some_iff] using h
  · right; simpa [Option.bind_eq_some_iff] using h

/-- Whichever side the shifts are on, the node combines `x << a` and `x >>> b`. -/
theorem rorShifts_eval {isXor : Bool} {l r x a : Node 32} (h : rorShifts l r = some ((x, a), (x', b))) (env : Env) :
    (Node.binop (if isXor then .xor else .or) l r).eval env =
      (if isXor then Binop.xor else Binop.or).eval (Binop.shl.eval (x.eval env) (a.eval env))
        (Binop.shr.eval (x'.eval env) (b.eval env)) := by
  rcases rorShifts_cases h with ⟨h1, h2⟩ | ⟨h1, h2⟩
  · simp only [eval, inputs_eval h1, inputs_eval h2]
  · simp only [eval, inputs_eval h1, inputs_eval h2]
    exact Binop.eval_comm (by cases isXor <;> rfl) _ _

theorem rorShifts_valid {l r x a : Node 32} (h : rorShifts l r = some ((x, a), (x', b)))
    (hl : l.Valid env) (hr : r.Valid env) : x.Valid env ∧ b.Valid env := by
  rcases rorShifts_cases h with ⟨h1, h2⟩ | ⟨h1, h2⟩
  · exact ⟨(inputs_valid h1 hl).1, (inputs_valid h2 hr).2⟩
  · exact ⟨(inputs_valid h1 hr).1, (inputs_valid h2 hl).2⟩

theorem rorSub_sum {a s t y : Node 32} (h : rorSub a b = some ((s, t), y)) (hs : s.is 32#32 = true)
    (hy : G.same t y = true) (env : Env) : ((a.eval env).toNat + (b.eval env).toNat) % 32 = 0 := by
  have hty := G.same_eq _ _ hy
  subst hty
  rcases (Option.orElse_eq_some _ _ _).1 h with h | ⟨-, h⟩
  · obtain ⟨h1, rfl⟩ : a.inputs .sub = some (s, t) ∧ b = t := by simpa [Option.bind_eq_some_iff] using h
    refine toNat_sum_of_sub ?_
    rw [inputs_eval h1, Binop.eval, is_eval hs]
  · obtain ⟨h2, rfl⟩ : b.inputs .sub = some (s, t) ∧ a = t := by simpa [Option.bind_eq_some_iff] using h
    rw [Nat.add_comm]
    refine toNat_sum_of_sub ?_
    rw [inputs_eval h2, Binop.eval, is_eval hs]

theorem tryMatchWord32Ror_sound (isXor : Bool) (left right : Node 32) :
    (Node.binop (if isXor then .xor else .or) left right).Sound (tryMatchWord32Ror G isXor left right) := by
  refine Sound.of_refines (refines_put (by cases isXor <;> rfl) left right) ?_
  unfold tryMatchWord32Ror
  generalize (putConstantOnRight left right).1 = l
  generalize (putConstantOnRight left right).2 = r
  refine Sound.bind ?_
  rintro ⟨⟨x, a⟩, x', b⟩ hshifts
  dsimp only
  -- both alternatives end with the rotation; they differ in why the amounts match
  have hror : G.same x x' = true → (∀ env, ((a.eval env).toNat + (b.eval env).toNat) % 32 = 0) →
      (isXor = true → ∀ env, (a.eval env).toNat % 32 ≠ 0) →
      (Node.binop (if isXor then .xor else .or) l r).Refines (.binop .ror x b) := by
    intro hx hsum hxor env hv
    obtain ⟨hxv, hbv⟩ := rorShifts_valid hshifts hv.1 hv.2.1
    refine ⟨.binop (by decide) hxv hbv, ?_⟩
    rw [rorShifts_eval hshifts, ← G.same_eq _ _ hx]
    exact (ror_eval (hsum env) (fun h => hxor h env)).symm
  generalize Node.binop (if isXor = true then .xor else .or) l r = node at hror ⊢
  split
  · rename_i hx
    split
    · rename_i ka kb hka hkb
      split
      · exact Sound.none
      · rename_i hsum
        refine Sound.onlyIf fun hc => hror hx (fun env => ?_) (fun h env => ?_)
        · rw [resolvedValue_eval hka, resolvedValue_eval hkb]
          exact toNat_sum_of_add (not_not.1 hsum)
        · rw [resolvedValue_eval hka]
          refine and_31_ne_zero ?_
          simpa [h] using hc
    · refine Sound.bind ?_
      rintro ⟨⟨s, t⟩, y⟩ hsub
      refine Sound.onlyIf fun hc => ?_
      simp only [Bool.and_eq_true] at hc
      exact hror hx (fun env => rorSub_sum G hsub hc.1.1 hc.1.2 env) (fun h => by simp [h] at hc)
  · exact Sound.none

/-- `Word32Adapter`. -/
def word32Adapter : WordNAdapter 32 where
  pos := by decide
  reduceIntNAdd := reduceInt32Add G
  reduceIntNAdd_sound := reduceInt32Add_sound G
  tryMatchWordNRor := tryMatchWord32Ror G
  tryMatchWordNRor_sound := tryMatchWord32Ror_sound G

/-- `Word64Adapter`: it has no rotation to match. -/
def word64Adapter : WordNAdapter 64 where
  pos := by decide
  reduceIntNAdd := reduceInt64Add G
  reduceIntNAdd_sound := reduceInt64Add_sound G
  tryMatchWordNRor _ _ _ := none
  tryMatchWordNRor_sound _ _ _ := Sound.none

/-! ## And -/

/-- The lowest bit of a sum of a word with itself, seen through conversions. -/
theorem isDoubled_bit (h : isDoubled G node = true) (hw : 0 < w) (env : Env) : (node.eval env).getLsbD 0 = false := by
  induction node with
  | truncateInt64ToInt32 input ih =>
    rw [eval, BitVec.getLsbD_setWidth, ih h (by decide)]
    simp
  | changeInt32ToInt64 input ih =>
    rw [eval, BitVec.getLsbD_signExtend, ih h (by decide)]
    simp
  | changeUint32ToUint64 input ih =>
    rw [eval, BitVec.getLsbD_setWidth, ih h (by decide)]
    simp
  | @binop v op left right =>
    cases op <;> simp only [isDoubled, Bool.false_eq_true] at h
    have hdvd : 2 ∣ 2 ^ v := dvd_pow_self 2 hw.ne'
    rw [eval, Binop.eval, G.same_eq _ _ h, BitVec.getLsbD, BitVec.toNat_add, Nat.testBit_zero,
      Nat.mod_mod_of_dvd _ hdvd, decide_eq_false_iff_not]
    omega
  | _ => simp [isDoubled] at h

theorem isComparison_eval {node : Node 32} (h : node.isComparison = true) (env : Env) :
    ∃ b, node.eval env = ofBool b := by
  unfold isComparison at h
  split at h
  · exact ⟨_, rfl⟩
  · exact ⟨_, rfl⟩
  · cases h

theorem sound_andZero : (Node.binop .and l r).Sound (onlyIf (r.is 0#w) r) :=
  Sound.onlyIf fun h env hv => ⟨hv.2.1, by simp [eval, Binop.eval, is_eval h]⟩

theorem sound_andSame : (Node.binop .and l r).Sound (onlyIf (G.same l r) l) :=
  Sound.onlyIf fun h env hv => ⟨hv.1, by simp [eval, Binop.eval, G.same_eq _ _ h]⟩

theorem sound_andDoubled (hw : 0 < w) :
    (Node.binop .and l r).Sound (onlyIf (r.is 1#w && isDoubled G l) (.constant 0#w)) :=
  Sound.onlyIf fun h env _ => by
    rw [Bool.and_eq_true] at h
    refine ⟨trivial, ?_⟩
    rw [eval, eval, Binop.eval, is_eval h.1, and_one_eq _ hw, isDoubled_bit G h.2 hw]
    rfl

/-- `CMP & 1 => CMP`. Only a word of 32 bits is a comparison. -/
theorem sound_andComparison : (Node.binop .and l r).Sound (onlyIf (l.isComparison && r.is 1#w) l) :=
  Sound.onlyIf fun h env hv => by
    rw [Bool.and_eq_true] at h
    refine ⟨hv.1, ?_⟩
    obtain ⟨hc, hr⟩ := h
    have hw : w = 32 := by
      unfold isComparison at hc
      split at hc <;> first | rfl | cases hc
    subst hw
    obtain ⟨b, hb⟩ := isComparison_eval hc env
    rw [eval, is_eval hr, hb]
    cases b <;> rfl

theorem isMultipleOf_dvd (hm : ClearsLow mask L) {k : Node w} (h : k.isMultipleOf (-mask) = true) (env : Env) :
    2 ^ L ∣ (k.eval env).toNat := by
  unfold isMultipleOf at h
  split at h
  · rename_i value hk
    rw [resolvedValue_eval hk]
    exact hm.dvd_of_srem (by simpa using h)
  · cases h

/-- Where one summand is a multiple, the other one may be masked first. -/
theorem refines_andAdd {xAnd : Node w} (hm : ClearsLow mask L) (hr : r.resolvedValue = some mask)
    (hl : ∀ env, l.eval env = x.eval env + y.eval env) (hlv : ∀ env, l.Valid env → y.Valid env)
    (hx : (Node.binop .and x r).Refines xAnd) (hxv : ∀ env, l.Valid env → x.Valid env)
    (hy : ∀ env, 2 ^ L ∣ (y.eval env).toNat) : (Node.binop .and l r).Refines (.binop .add xAnd y) := by
  intro env hv
  obtain ⟨hv', he⟩ := hx env (.binop (by decide) (hxv env hv.1) hv.2.1)
  refine ⟨.binop (by decide) hv' (hlv env hv.1), ?_⟩
  simp only [eval, Binop.eval] at he ⊢
  rw [he, hl env, resolvedValue_eval hr, hm.add_and _ _ (hy env)]

theorem shl_dvd (hm : ClearsLow mask L) {p s : Node w} (hin : x.inputs .shl = some (p, s)) (hs : s.is mask.ctz = true)
    (env : Env) : 2 ^ L ∣ (x.eval env).toNat := by
  rw [inputs_eval hin, Binop.eval, is_eval hs, hm.ctz_eq, Nat.mod_eq_of_lt hm.lt]
  exact toNat_shl_dvd _ _ hm.lt.le

theorem mul_dvd (hm : ClearsLow mask L) {p k : Node w} (hin : x.inputs .mul = some (p, k))
    (hk : k.isMultipleOf (-mask) = true) (env : Env) : 2 ^ L ∣ (x.eval env).toNat := by
  rw [inputs_eval hin]
  exact dvd_toNat_mul _ _ hm.lt.le (isMultipleOf_dvd hm hk env)

/-- The rules for `(x + y) & mask`, given the masked summands. -/
theorem reduceAndOfAdd_sound (a : WordNAdapter w) (hm : ClearsLow mask L) {xAnd yAnd : Node w}
    (hr : r.resolvedValue = some mask) (hin : l.inputs .add = some (x, y)) (hx : (Node.binop .and x r).Refines xAnd)
    (hy : (Node.binop .and y r).Refines yAnd) : (Node.binop .and l r).Sound (reduceAndOfAdd a mask x y xAnd yAnd) := by
  have hxv : ∀ env, l.Valid env → x.Valid env := fun env hv => (inputs_valid hin hv).1
  have hyv : ∀ env, l.Valid env → y.Valid env := fun env hv => (inputs_valid hin hv).2
  -- masking the left summand, or the right one
  have hleft : (∀ env, 2 ^ L ∣ (y.eval env).toNat) → (Node.binop .and l r).Refines
      (followedBy (.binop .add xAnd y) (a.reduceIntNAdd xAnd y)) := fun hd =>
    (refines_andAdd hm hr (fun env => inputs_eval hin env) hyv hx hxv hd).followedBy (a.reduceIntNAdd_sound _ _)
  have hright : (∀ env, 2 ^ L ∣ (x.eval env).toNat) → (Node.binop .and l r).Refines
      (followedBy (.binop .add yAnd x) (a.reduceIntNAdd yAnd x)) := fun hd =>
    (refines_andAdd hm hr (fun env => (inputs_eval hin env).trans (BitVec.add_comm _ _)) hxv hy hyv hd).followedBy
      (a.reduceIntNAdd_sound _ _)
  refine Sound.orElse (Sound.bind fun k hk => Sound.onlyIf fun h => hleft fun env => ?_)
    (Sound.orElse (Sound.bind₂ fun p k hp => Sound.onlyIf fun h => hright fun env => mul_dvd hm hp h env)
    (Sound.orElse (Sound.bind₂ fun p k hp => Sound.onlyIf fun h => hleft fun env => mul_dvd hm hp h env)
    (Sound.orElse (Sound.bind₂ fun p s hp => Sound.onlyIf fun h => hright fun env => shl_dvd hm hp h env)
    (Sound.bind₂ fun p s hp => Sound.onlyIf fun h => hleft fun env => shl_dvd hm hp h env))))
  rw [resolvedValue_eval hk]
  exact (hm.and_eq_self_iff k).1 (by simpa using h)

theorem isNegativePowerOf2_clearsLow (h : isNegativePowerOf2 mask = true) : ClearsLow mask mask.ctz.toNat := by
  simp only [isNegativePowerOf2, Bool.and_eq_true, Bool.or_eq_true, beq_iff_eq] at h
  exact clearsLow_of_negative_power h.1 h.2

/-- `(x << L) & (-1 << K) => x << L iff L >= K`. -/
theorem sound_andShl (hm : ClearsLow mask L) (hr : r.resolvedValue = some mask) (hL : mask.ctz.toNat = L) :
    (Node.binop .and l r).Sound (do
      let (_, s) ← l.inputs .shl
      let k ← s.resolvedValue
      onlyIf (k.toNat % w ≥ mask.ctz.toNat) l) := by
  refine Sound.bind₂ fun x s hin => Sound.bind fun k hk => Sound.onlyIf fun h env hv => ⟨hv.1, ?_⟩
  rw [decide_eq_true_eq, hL] at h
  simp only [eval, resolvedValue_eval hr]
  refine ((hm.and_eq_self_iff _).2 ?_).symm
  rw [inputs_eval hin, resolvedValue_eval hk]
  exact (Nat.pow_dvd_pow 2 h).trans (toNat_shl_dvd _ _ (Nat.mod_lt _ (by have := hm.lt; omega)).le)

/-- `(x * (K << L)) & (-1 << L) => x * (K << L)`. -/
theorem sound_andMul (hm : ClearsLow mask L) (hr : r.resolvedValue = some mask) : (Node.binop .and l r).Sound (do
      let (_, k) ← l.inputs .mul
      onlyIf (k.isMultipleOf (-mask)) l) := by
  refine Sound.bind₂ fun x k hin => Sound.onlyIf fun h env hv => ⟨hv.1, ?_⟩
  simp only [eval, resolvedValue_eval hr]
  exact ((hm.and_eq_self_iff _).2 (mul_dvd hm hin h env)).symm

/-- By induction on the size of the node: the nodes built in turn are smaller. -/
theorem reduceWordNAnd_sound (a : WordNAdapter w) (left right : Node w) :
    (Node.binop .and left right).Sound (reduceWordNAnd G a left right) := by
  induction hn : left.size + right.size using Nat.strong_induction_on generalizing left right with
  | _ n ih =>
    have hsize := size_put left right
    rw [reduceWordNAnd]
    refine Sound.of_refines (refines_put rfl left right) ?_
    generalize (putConstantOnRight left right).1 = l at *
    generalize (putConstantOnRight left right).2 = r at *
    have hrpos := size_pos r
    refine Sound.orElse sound_andZero (Sound.orElse (sound_unit fun _ => by simp [Binop.eval, BitVec.neg_one_eq_allOnes]) (Sound.orElse (sound_andDoubled G a.pos)
      (Sound.orElse sound_andComparison (Sound.orElse (sound_fold fun _ => rfl) (Sound.orElse (sound_andSame G)
      (Sound.orElse ?_ ?_))))))
    · split
      · rename_i x k hin
        split
        · rename_i k₁ k₂ hk₁ hk₂
          refine Sound.some ((refines_regroup rfl hin hk₁ hk₂).followedBy ?_)
          have := inputs_size hin
          exact ih _ (by simp only [Node.size]; omega) x _ rfl
        · exact Sound.none
      · exact Sound.none
    · split
      · exact Sound.none
      · rename_i mask hr
        split
        · rename_i hneg
          have hm := isNegativePowerOf2_clearsLow hneg
          refine Sound.orElse (sound_andShl hm hr rfl) (Sound.orElse ?_ (sound_andMul hm hr))
          split
          · rename_i x y hin
            have := inputs_size hin
            exact reduceAndOfAdd_sound a hm hr hin
              ((Refines.refl _).followedBy (ih _ (by omega) x r rfl))
              ((Refines.refl _).followedBy (ih _ (by omega) y r rfl))
          · exact Sound.none
        · exact Sound.none

theorem wordNAnd_refines (a : WordNAdapter w) (left right : Node w) :
    (Node.binop .and left right).Refines (wordNAnd G a left right) :=
  (Refines.refl _).followedBy (reduceWordNAnd_sound G a left right)

/-! ## Or and exclusive or -/

theorem reduceWordNOr_sound (a : WordNAdapter w) (left right : Node w) :
    (Node.binop .or left right).Sound (reduceWordNOr G a left right) := by
  refine Sound.of_refines (refines_put rfl left right) ?_
  refine Sound.orElse (sound_unit fun _ => BitVec.or_zero) (Sound.orElse ?_ (Sound.orElse (sound_fold fun _ => rfl) (Sound.orElse ?_
    (Sound.orElse ?_ (a.tryMatchWordNRor_sound false _ _)))))
  · refine Sound.onlyIf fun h env hv => ⟨hv.2.1, ?_⟩
    simp only [eval, Binop.eval, is_eval h, BitVec.neg_one_eq_allOnes, BitVec.or_allOnes]
  · exact Sound.onlyIf fun h env hv => ⟨hv.1, by simp [eval, Binop.eval, G.same_eq _ _ h]⟩
  · refine Sound.bind fun k₂ hk₂ => Sound.bind₂ fun x k hin => Sound.bind fun k₁ hk₁ => Sound.onlyIf fun h env hv => ?_
    refine ⟨.binop (by decide) (inputs_valid hin hv.1).1 hv.2.1, ?_⟩
    simp only [eval, inputs_eval hin, resolvedValue_eval hk₁, resolvedValue_eval hk₂]
    rw [beq_iff_eq, BitVec.neg_one_eq_allOnes] at h
    exact (or_and_of_or_eq_allOnes h).symm

theorem reduceWordNXor_sound (a : WordNAdapter w) (left right : Node w) :
    (Node.binop .xor left right).Sound (reduceWordNXor G a left right) := by
  refine Sound.of_refines (refines_put rfl left right) ?_
  refine Sound.orElse (sound_unit fun _ => BitVec.xor_zero) (Sound.orElse (sound_fold fun _ => rfl) (Sound.orElse ?_
    (Sound.orElse ?_ (a.tryMatchWordNRor_sound true _ _))))
  · exact Sound.onlyIf fun h env _ => ⟨trivial, by simp [eval, Binop.eval, G.same_eq _ _ h]⟩
  · refine Sound.bind₂ fun x k hin => Sound.onlyIf fun h env hv => ?_
    rw [Bool.and_eq_true] at h
    refine ⟨(inputs_valid hin hv.1).1, ?_⟩
    simp only [eval, Binop.eval, inputs_eval hin, is_eval h.1, is_eval h.2, BitVec.xor_assoc, BitVec.xor_self,
      BitVec.xor_zero]

theorem word32EqualInputs_eval {node l r : Node 32} (h : node.word32EqualInputs = some (l, r)) (env : Env) :
    node.eval env = ofBool (l.eval env == r.eval env) := by
  unfold word32EqualInputs at h
  split at h
  · cases h; rfl
  · cases h

theorem reduceWord32Xor_sound :
    (Node.binop .xor left right).Sound (reduceWord32Xor G a left right) := by
  refine Sound.orElse (Sound.of_refines (refines_put rfl left right) (Sound.onlyIf fun h env hv => ?_))
    (reduceWordNXor_sound G a left right)
  rw [Bool.and_eq_true] at h
  obtain ⟨⟨p, q⟩, hin⟩ := Option.isSome_iff_exists.1 h.1
  refine ⟨⟨hv.2.1, trivial⟩, ?_⟩
  simp only [eval, is_eval h.2, word32EqualInputs_eval hin]
  cases p.eval env == q.eval env <;> rfl

/-! ## Truncation -/

theorem reduceTruncateInt64ToInt32_sound (input : Node 64) :
    (Node.truncateInt64ToInt32 input).Sound (reduceTruncateInt64ToInt32 G input) := by
  refine Sound.orElse (Sound.bind fun k hk => Sound.some fun env _ => ⟨trivial, ?_⟩) ?_
  · simp only [eval, resolvedValue_eval hk]
  · split
    · rename_i x
      refine Sound.some fun env hv => ⟨hv, ?_⟩
      exact (setWidth_signExtend (x.eval env) (by decide)).symm
    · rename_i x
      refine Sound.some fun env hv => ⟨hv, ?_⟩
      simp only [eval, BitVec.setWidth_setWidth_of_le _ (show 32 ≤ 64 by decide), BitVec.setWidth_eq]
    · rename_i id
      refine Sound.onlyIf fun _ env _ => ⟨trivial, ?_⟩
      simp only [eval, LoadRepresentation.eval, BitVec.setWidth_append_eq_right]
    · exact Sound.none

theorem truncateInt64ToInt32_refines (value : Node 64) :
    (Node.truncateInt64ToInt32 value).Refines (truncateInt64ToInt32 G value) :=
  (Refines.refl _).followedBy (reduceTruncateInt64ToInt32_sound G value)

/-! ## Equality -/

theorem ofBool_inj {a b : Bool} : ofBool a = ofBool b ↔ a = b := by
  cases a <;> cases b <;> decide

/-- A comparison may be replaced where the new operands are equal exactly when the old ones are. -/
theorem refines_equal {v : Nat} {l' r' : Node v} (hv : ∀ env, l.Valid env → r.Valid env → l'.Valid env ∧ r'.Valid env)
    (h : ∀ env, l.Valid env → r.Valid env → (l'.eval env = r'.eval env ↔ l.eval env = r.eval env)) :
    (Node.compare .equal l r).Refines (.compare .equal l' r') := by
  intro env hval
  refine ⟨hv env hval.1 hval.2, ?_⟩
  simp only [eval, Comparison.test, ofBool_inj]
  rw [Bool.eq_iff_iff, beq_iff_eq, beq_iff_eq]
  exact h env hval.1 hval.2

theorem foldEqual_sound : (Node.compare .equal l r).Sound (foldEqual l r) := by
  refine Sound.bind fun a ha => Sound.bind fun b hb => Sound.some fun env _ => ⟨trivial, ?_⟩
  simp only [eval, Comparison.test, resolvedValue_eval ha, resolvedValue_eval hb]

theorem reduceEqualOfSub_sound : (Node.compare .equal l r).Sound (reduceEqualOfSub l r) := by
  refine Sound.bind₂ fun x y hin => Sound.ite fun h => refines_equal (fun env hl _ => inputs_valid hin hl) ?_
  intro env _ _
  rw [inputs_eval hin, is_eval h, Binop.eval]
  constructor
  · intro he; rw [he, BitVec.sub_self]
  · intro he
    rw [← BitVec.sub_add_cancel (x.eval env) (y.eval env), he, BitVec.zero_add]

theorem reduceEqualOfAdd_sound : (Node.compare .equal l r).Sound (reduceEqualOfAdd l r) := by
  refine Sound.bind₂ fun x k hin => Sound.bind fun k₁ hk₁ => Sound.bind fun k₂ hk₂ => Sound.ite fun _ =>
    refines_equal (fun env hl _ => ⟨(inputs_valid hin hl).1, trivial⟩) ?_
  intro env _ _
  rw [inputs_eval hin, resolvedValue_eval hk₂, resolvedValue_eval hk₁, eval]
  exact BitVec.eq_sub_iff_add_eq

theorem sound_equalSame : (Node.compare .equal l r).Sound (onlyIf (G.same l r) (.constant (ofBool true))) :=
  Sound.onlyIf fun h env _ => ⟨trivial, by simp [eval, Comparison.test, G.same_eq _ _ h]⟩

/-- What `canRevertLeftShiftWithRightShift` promises. -/
theorem canRevert_spec {value shift : BitVec w} (h : canRevertLeftShiftWithRightShift value shift = true) :
    shift.toNat < w ∧ (value <<< shift.toNat).sshiftRight shift.toNat = value := by
  unfold canRevertLeftShiftWithRightShift at h
  split at h
  · cases h
  · rename_i hs
    simp only [Bool.or_eq_true, decide_eq_true_eq, not_or, Bool.not_eq_true] at hs
    refine ⟨?_, by simpa using h⟩
    have hneg : shift.msb = false := by
      rw [← BitVec.slt_zero_eq_msb]; exact hs.1
    have := BitVec.toInt_eq_toNat_of_msb hneg
    omega

/-- A shift by an amount that leaves bits of the word is not reduced modulo the word size. -/
theorem shiftRight_bit {s : Node w} (hin : y.shiftRightInputs = some (x, s)) (hk : s.resolvedValue = some k)
    (env : Env) {j : Nat} (hj : j + k.toNat < w) : (y.eval env).getLsbD j = (x.eval env).getLsbD (j + k.toNat) := by
  have hmod : k.toNat % w = k.toNat := Nat.mod_eq_of_lt (by omega)
  have h := shiftRightInputs_bit hin env (j := j)
  rw [resolvedValue_eval hk, hmod] at h
  exact h hj

/-- Operands that are equal exactly when the old ones are. -/
def SameTest (env : Env) (lhs : BitVec w) (rhs : BitVec w) {v : Nat} (p : Node v × BitVec v) : Prop :=
  p.1.Valid env ∧ (p.1.eval env = p.2 ↔ lhs = rhs)

theorem reduceWordEqualForConstantRhs_sound (a : WordNAdapter w) (lhs : Node w) (rhs : BitVec w) (env : Env)
    (hv : lhs.Valid env) : Yields (reduceWordEqualForConstantRhs G a lhs rhs) (SameTest env (lhs.eval env) rhs) := by
  refine Yields.orElse (Yields.bind₂ fun y m hand => Yields.bind₂ fun x s hshift => Yields.bind fun mask hm =>
      Yields.bind fun shiftBits hs => Yields.ite fun h => ?_)
    (Yields.bind₂ fun x s hin => Yields.bind fun shift hs => Yields.ite fun h => ?_)
  · obtain ⟨h1, h2⟩ := h
    have hyv := (inputs_valid hand hv).1
    obtain ⟨hval, heval⟩ := wordNAnd_refines G a x (.constant (mask <<< shiftBits.toNat)) env
      (.binop (by decide) (shiftRightInputs_valid hshift hyv).1 trivial)
    refine ⟨hval, ?_⟩
    have htest := shifted_test (n := w) (k := shiftBits.toNat) (x := x.eval env) (s := y.eval env) (m := mask) (v := rhs)
      (fun j hj => shiftRight_bit hshift hs env hj) (fun j hj => getLsbD_of_le_clz h1 hj)
      (fun j hj => getLsbD_of_le_clz h2 hj) le_rfl
    simp only [BitVec.setWidth_eq] at htest
    rw [heval, inputs_eval hand, eval, eval, resolvedValue_eval hm]
    exact htest.symm
  · rw [Bool.and_eq_true] at h
    obtain ⟨hlt, hrev⟩ := canRevert_spec h.2
    have hz := inputs_shiftsOutZeros hin hv
    have heq : lhs.eval env = (x.eval env).sshiftRight shift.toNat := by
      rw [inputs_eval hin, Binop.eval, resolvedValue_eval hs, Nat.mod_eq_of_lt hlt]
    rw [ShiftsOutZeros, resolvedValue_eval hs, Nat.mod_eq_of_lt hlt] at hz
    refine ⟨(inputs_valid hin hv).1, ?_⟩
    rw [heq]
    constructor
    · rintro hx; rw [hx, hrev]
    · intro hx; rw [← hx, shl_sshr_of_dvd hz]

theorem reduceWordEqualForConstantRhs64To32_sound (lhs : Node 64) (rhs : BitVec 32) (env : Env) (hv : lhs.Valid env) :
    Yields (reduceWordEqualForConstantRhs64To32 G a lhs rhs) (SameTest env ((lhs.eval env).setWidth 32) rhs) := by
  refine Yields.bind₂ fun y m hand => Yields.bind₂ fun x s hshift => Yields.bind fun mask hm =>
    Yields.bind fun shiftBits hs => Yields.ite fun h => ?_
  obtain ⟨h1, h2, h3⟩ := h
  have hyv := (inputs_valid hand hv).1
  have hxv := (shiftRightInputs_valid hshift hyv).1
  obtain ⟨htv, hteval⟩ := truncateInt64ToInt32_refines G x env hxv
  obtain ⟨hval, heval⟩ := wordNAnd_refines G a (truncateInt64ToInt32 G x)
    (.constant ((mask <<< shiftBits.toNat).setWidth 32)) env (.binop (by decide) htv trivial)
  refine ⟨hval, ?_⟩
  have htest := shifted_test (n := 32) (k := shiftBits.toNat) (x := x.eval env) (s := y.eval env) (m := mask) (v := rhs)
    (fun j hj => shiftRight_bit hshift hs env (by omega)) (fun j hj => getLsbD_of_shl_lt h1 (by omega) hj)
    (fun j hj => getLsbD_of_le_clz h2 hj) (by decide)
  rw [heval, inputs_eval hand, eval, hteval, eval, eval, resolvedValue_eval hm]
  exact htest.symm

/-- Comparing with a constant: by new operands that are equal exactly when the old ones are. -/
theorem sound_equalConstant {v : Nat} (hk : r.resolvedValue = some k) {o : Option (Node v × BitVec v)}
    (h : ∀ env, l.Valid env → Yields o (SameTest env (l.eval env) k)) :
    (Node.compare .equal l r).Sound (o.bind fun p => some (.compare .equal p.1 (.constant p.2))) := by
  refine Sound.bind fun p hp => Sound.some (refines_equal (fun env hl _ => ⟨(h env hl p hp).1, trivial⟩) ?_)
  intro env hl _
  rw [resolvedValue_eval hk, eval]
  exact (h env hl p hp).2

theorem reduceWord32Equal_sound :
    (Node.compare .equal left right).Sound (reduceWord32Equal G a left right) := by
  refine Sound.of_refines (refines_put_equal left right) ?_
  unfold reduceWord32Equal
  generalize (putConstantOnRight left right).1 = l
  generalize (putConstantOnRight left right).2 = r
  refine Sound.orElse foldEqual_sound (Sound.orElse reduceEqualOfSub_sound (Sound.orElse (sound_equalSame G)
    (Sound.orElse (Sound.bind fun k hk => ?_) reduceEqualOfAdd_sound)))
  split
  · rename_i input
    exact sound_equalConstant hk fun env hl => reduceWordEqualForConstantRhs64To32_sound G a input k env hl
  · exact sound_equalConstant hk fun env hl => reduceWordEqualForConstantRhs_sound G a l k env hl

/-- Comparing a sign-extended word with a constant: only a constant that fits can be equal. -/
theorem sound_equalSignExtended {l r : Node 64} {k : BitVec 64} (hk : r.resolvedValue = some k) :
    (Node.compare .equal l r).Sound (match l with
      | .changeInt32ToInt64 x =>
        if fitsInt32 k then some (.compare .equal x (.constant (k.setWidth 32))) else some (.constant 0#32)
      | _ => none) := by
  split
  · rename_i x
    split
    · rename_i hfit
      refine Sound.some (refines_equal (fun env hl _ => ⟨hl, trivial⟩) fun env _ _ => ?_)
      simp only [fitsInt32, beq_iff_eq] at hfit
      rw [resolvedValue_eval hk, eval, eval]
      constructor
      · intro he; rw [he, hfit]
      · intro he; rw [← he, setWidth_signExtend _ (by decide)]
    · rename_i hfit
      refine Sound.some fun env _ => ⟨trivial, ?_⟩
      simp only [fitsInt32, beq_iff_eq] at hfit
      have hne : (x.eval env).signExtend 64 ≠ k := by
        rintro rfl
        rw [setWidth_signExtend _ (by decide)] at hfit
        exact hfit rfl
      simp only [eval, Comparison.test, resolvedValue_eval hk, beq_eq_false_iff_ne.2 hne]
      rfl
  · exact Sound.none

theorem reduceWord64Equal_sound (a : WordNAdapter 64) (left right : Node 64) :
    (Node.compare .equal left right).Sound (reduceWord64Equal G a left right) := by
  refine Sound.of_refines (refines_put_equal left right) ?_
  unfold reduceWord64Equal
  generalize (putConstantOnRight left right).1 = l
  generalize (putConstantOnRight left right).2 = r
  refine Sound.orElse foldEqual_sound (Sound.orElse reduceEqualOfSub_sound (Sound.orElse (sound_equalSame G)
    (Sound.orElse (Sound.bind fun k hk => ?_) (Sound.orElse reduceEqualOfAdd_sound (Sound.bind fun k hk => ?_)))))
  · exact sound_equalConstant hk fun env hl => reduceWordEqualForConstantRhs_sound G a l k env hl
  · exact sound_equalSignExtended hk

/-! ## Bitfield checks -/

/-- The node whose low 32 bits a check looks at keeps its promises. -/
def BitfieldSource.Valid (env : Env) : BitfieldSource → Prop
  | .word32 node => node.Valid env
  | .word64 node => node.Valid env

/-- The word a check looks at. -/
def BitfieldSource.eval (env : Env) : BitfieldSource → BitVec 32
  | .word32 node => node.eval env
  | .word64 node => (node.eval env).setWidth 32

/-- What a check decides. -/
def BitfieldCheck.test (env : Env) (check : BitfieldCheck) : Bool :=
  check.source.eval env &&& check.mask == check.maskedValue

/-- `(s & 1)` is one exactly when the bit of `x` that was shifted there is set. -/
theorem one_bit_test {x s : BitVec w} {k : Nat} (hw : 32 ≤ w) (hk : k < 32)
    (hs : ∀ j, j + k < w → s.getLsbD j = x.getLsbD (j + k)) :
    (s &&& 1#w).setWidth 32 = ofBool (x.setWidth 32 &&& 1#32 <<< k == 1#32 <<< k) := by
  have hbit : s.getLsbD 0 = (x.setWidth 32).getLsbD k := by
    rw [hs 0 (by omega)]
    simp [hk]
  have hne : (0#32 == BitVec.twoPow 32 k) = false := by
    rw [beq_eq_false_iff_ne, ne_eq, ← BitVec.toNat_inj, BitVec.toNat_twoPow_of_lt hk]
    exact (Nat.two_pow_pos k).ne
  rw [and_one_eq s (by omega), hbit, ← BitVec.twoPow, BitVec.and_twoPow]
  cases (x.setWidth 32).getLsbD k with
  | true =>
    rw [if_pos rfl, if_pos rfl, beq_self_eq_true]
    exact BitVec.setWidth_ofNat_of_le hw 1
  | false => simp [hne, ofBool]

theorem tryDetectShiftAndMaskOneBit_sound (node : Node w) (hw : 32 ≤ w) (env : Env) (hv : node.Valid env) :
    Yields (tryDetectShiftAndMaskOneBit node) fun p => p.1.Valid env ∧
      (node.eval env).setWidth 32 = ofBool ((p.1.eval env).setWidth 32 &&& p.2 == p.2) := by
  refine Yields.bind₂ fun x k hin => ?_
  have hxv := (inputs_valid hin hv).1
  dsimp only
  split
  · rename_i hone
    rw [inputs_eval hin, is_eval hone]
    refine Yields.orElse (Yields.bind₂ fun y s hshift => Yields.bind fun shift hs => Yields.ite fun hlt => ?_)
      (Yields.some ⟨hxv, ?_⟩)
    · exact ⟨(shiftRightInputs_valid hshift hxv).1,
        one_bit_test hw hlt fun j hj => shiftRight_bit hshift hs env hj⟩
    · exact one_bit_test (k := 0) hw (by decide) fun j _ => rfl
  · exact Yields.none

theorem BitfieldCheck.detect_sound (node : Node 32) (env : Env) (hv : node.Valid env) :
    Yields (detect node) fun c => c.source.Valid env ∧ node.eval env = ofBool (c.test env) := by
  unfold detect
  split
  · rename_i left right
    obtain ⟨hpv, hpe⟩ := refines_put_equal left right env hv
    rw [← hpe]
    refine Yields.bind₂ fun x m hin => Yields.bind fun mask hm => Yields.bind fun maskedValue hr => ?_
    have hxv := (inputs_valid hin hpv.1).1
    have heq : (Node.compare .equal (putConstantOnRight left right).1 (putConstantOnRight left right).2).eval env =
        ofBool (x.eval env &&& mask == maskedValue) := by
      rw [Node.eval, Comparison.test, inputs_eval hin, Binop.eval, resolvedValue_eval hm, resolvedValue_eval hr]
    rw [heq]
    split
    · split
      · exact Yields.some ⟨hxv, rfl⟩
      · exact Yields.some ⟨hxv, rfl⟩
    · exact Yields.none
  · rename_i input
    refine Yields.bind₂ fun x mask h => Yields.some ?_
    exact tryDetectShiftAndMaskOneBit_sound input (by decide) env hv _ h
  · refine Yields.bind₂ fun x mask h => Yields.some ?_
    have hsound := tryDetectShiftAndMaskOneBit_sound node (by decide) env hv _ h
    exact hsound

theorem BitfieldSource.same_eq {a b : BitfieldSource} (h : a.same G b = true) : a = b := by
  cases a <;> cases b <;> first | cases h | exact congrArg _ (G.same_eq _ _ h)

/-- One check for both. -/
theorem BitfieldCheck.tryCombine_sound (a b : BitfieldCheck) :
    Yields (a.tryCombine G b) fun c => c.source = a.source ∧ ∀ env, c.test env = (a.test env && b.test env) := by
  unfold tryCombine
  split
  · rename_i hsame
    dsimp only
    split
    · exact Yields.none
    · rename_i hoverlap
      refine Yields.some ⟨rfl, fun env => ?_⟩
      have hiff := and_eq_and_and_eq (x := a.source.eval env) a.subset b.subset (not_not.1 hoverlap)
      rw [Bool.eq_iff_iff, Bool.and_eq_true]
      simp only [test, ← BitfieldSource.same_eq G hsame, beq_iff_eq]
      exact hiff.symm
  · exact Yields.none

theorem ofBool_and (a b : Bool) : ofBool a &&& ofBool b = ofBool (a && b) := by
  cases a <;> cases b <;> rfl

/-- The comparison that is built for a check decides it. -/
theorem BitfieldCheck.node_eval (c : BitfieldCheck) {source : Node 32} (hv : source.Valid env)
    (he : source.eval env = c.source.eval env) :
    (Node.compare .equal (wordNAnd G a source (.constant c.mask)) (.constant c.maskedValue)).Valid env ∧
      (Node.compare .equal (wordNAnd G a source (.constant c.mask)) (.constant c.maskedValue)).eval env =
        ofBool (c.test env) := by
  obtain ⟨hval, heval⟩ := wordNAnd_refines G a source (.constant c.mask) env (.binop (by decide) hv trivial)
  refine ⟨⟨hval, trivial⟩, ?_⟩
  rw [Node.eval, heval, Node.eval, Node.eval, Node.eval, he, Binop.eval, Comparison.test, test]

theorem reduceWord32And_sound :
    (Node.binop .and left right).Sound (reduceWord32And G a left right) := by
  refine Sound.orElse (reduceWordNAnd_sound G a left right) (Sound.of_refines (refines_put rfl left right) ?_)
  refine Sound.bind fun rb hr => Sound.bind fun lb hl => Sound.bind fun c hc => Sound.some ?_
  refine Refines.followedBy ?_ (reduceWord32Equal_sound G a _ _)
  intro env hv
  obtain ⟨-, hre⟩ := BitfieldCheck.detect_sound _ env hv.2.1 rb hr
  obtain ⟨hlv, hle⟩ := BitfieldCheck.detect_sound _ env hv.1 lb hl
  obtain ⟨hcs, hct⟩ := BitfieldCheck.tryCombine_sound G lb rb c hc
  rw [← hcs] at hlv
  rw [Node.eval, hle, hre, Binop.eval, ofBool_and, ← hct]
  obtain ⟨source, mask, maskedValue, hsub⟩ := c
  cases source with
  | word32 node => exact BitfieldCheck.node_eval G a ⟨.word32 node, mask, maskedValue, hsub⟩ hlv rfl
  | word64 node =>
    obtain ⟨htv, hte⟩ := truncateInt64ToInt32_refines G node env hlv
    exact BitfieldCheck.node_eval G a ⟨.word64 node, mask, maskedValue, hsub⟩ htv hte

/-! ## Shifts -/

/-- The operators that take their right input modulo the word size. -/
def Binop.isShift : Binop → Bool
  | .shl | .shr | .sar | .sarShiftOutZeros => true
  | _ => false

theorem Binop.eval_shift_congr (hop : op.isShift = true) {a b c : BitVec w} (h : b.toNat % w = c.toNat % w) :
    op.eval a b = op.eval a c := by
  cases op <;> simp_all [Binop.isShift, Binop.eval]

theorem Binop.eval_shift_zero (hop : op.isShift = true) (a : BitVec w) : op.eval a 0#w = a := by
  cases op <;> simp_all [Binop.isShift, Binop.eval]

theorem toNat_and_63 (y : BitVec 64) : (y &&& 63#64).toNat = y.toNat % 64 := by
  rw [BitVec.toNat_and, show (63#64).toNat = 2 ^ 6 - 1 from rfl, Nat.and_two_pow_sub_one_eq_mod]

theorem reduceWord32Shifts_sound (hop : op.isShift = true) (left right : Node 32) :
    (Node.binop op left right).Sound (reduceWord32Shifts G op left right) := by
  refine Sound.bind₂ fun x k hin => Sound.onlyIf fun h env hv => ?_
  rw [Bool.and_eq_true] at h
  have hright : (right.eval env).toNat % 32 = (x.eval env).toNat % 32 := by
    rw [inputs_eval hin, Binop.eval, is_eval h.2, toNat_and_31, Nat.mod_mod]
  refine ⟨⟨hv.1, (inputs_valid hin hv.2.1).1, fun hz => ?_⟩, ?_⟩
  · have := hv.2.2 hz
    rwa [ShiftsOutZeros, hright] at this
  · exact Binop.eval_shift_congr hop hright.symm

/-- Shifting by zero. -/
theorem sound_shiftZero (hop : op.isShift = true) : (Node.binop op l r).Sound (onlyIf (r.is 0#w) l) :=
  sound_unit (Binop.eval_shift_zero hop)

/-- A comparison shifted to the sign and back. -/
theorem comparison_sign {x : Node 32} (h : x.isComparison = true) (env : Env) :
    (x.eval env <<< 31).sshiftRight 31 = 0#32 - x.eval env := by
  obtain ⟨b, hb⟩ := isComparison_eval h env
  rw [hb]
  cases b <;> decide

/-- A load of `n` bits is sign-extended already. -/
theorem load_signExtend (n : Nat) (hn : 0 < n) (hle : n ≤ 32) (bits : BitVec 32) :
    ((bits.setWidth n).signExtend 32 <<< (32 - n)).sshiftRight (32 - n) = (bits.setWidth n).signExtend 32 := by
  rw [sshiftRight_shl_signExtend _ hn hle, setWidth_signExtend _ hle]

theorem reduceWord32Sar_sound (hop : op = .sar ∨ op = .sarShiftOutZeros) (left right : Node 32) :
    (Node.binop op left right).Sound (reduceWord32Sar G op left right) := by
  have hshift : op.isShift = true := by rcases hop with rfl | rfl <;> rfl
  have heval : ∀ a b : BitVec 32, op.eval a b = a.sshiftRight (b.toNat % 32) := by
    rcases hop with rfl | rfl <;> exact fun _ _ => rfl
  refine Sound.orElse (sound_shiftZero hshift) (Sound.orElse (sound_fold fun env => ?_)
    (Sound.orElse (Sound.bind₂ fun x s hin => ?_) (reduceWord32Shifts_sound G hshift left right)))
  · rw [eval, heval, toNat_and_31]
  · have hnode : ∀ {k : BitVec 32}, right.is k = true → s.is k = true → ∀ env,
        (Node.binop op left right).eval env = (x.eval env <<< (k.toNat % 32)).sshiftRight (k.toNat % 32) := by
      intro k hr hs env
      rw [eval, heval, inputs_eval hin, Binop.eval, is_eval hr, is_eval hs]
    refine Sound.orElse (Sound.onlyIf fun h => ?_) ?_
    · simp only [Bool.and_eq_true] at h
      refine Refines.followedBy (fun env hv => ?_) (reduceInt32Sub_sound G _ _)
      refine ⟨.binop (by decide) trivial (inputs_valid hin hv.1).1, ?_⟩
      rw [hnode h.1.2 h.2]
      exact (comparison_sign h.1.1 env).symm
    · split
      · refine Sound.onlyIf fun h env _ => ⟨trivial, ?_⟩
        rw [Bool.and_eq_true] at h
        exact (hnode h.1 h.2 env).symm ▸ (load_signExtend 8 (by decide) (by decide) _).symm
      · refine Sound.onlyIf fun h env _ => ⟨trivial, ?_⟩
        rw [Bool.and_eq_true] at h
        exact (hnode h.1 h.2 env).symm ▸ (load_signExtend 16 (by decide) (by decide) _).symm
      · exact Sound.none

theorem reduceWord64Sar_sound (hop : op = .sar ∨ op = .sarShiftOutZeros) (left right : Node 64) :
    (Node.binop op left right).Sound (reduceWord64Sar left right) := by
  rcases hop with rfl | rfl
  all_goals
    refine Sound.orElse (sound_shiftZero rfl) (sound_fold fun env => ?_)
    rw [eval, Binop.eval, toNat_and_63]

/-- What `IsInRange(1, w - 1)` says of a shift amount. -/
structure ShiftAmount (node : Node w) (k : BitVec w) : Prop where
  value : node.resolvedValue = some k
  pos : 0 < k.toNat
  lt : k.toNat < w

theorem ShiftAmount.eval (h : ShiftAmount node k) (env : Env) : (node.eval env).toNat % w = k.toNat := by
  rw [resolvedValue_eval h.value, Nat.mod_eq_of_lt h.lt]

theorem ShiftAmount.toInt (hw : w = 32 ∨ w = 64) (h : ShiftAmount node k) : k.toInt = k.toNat := by
  have hlt := h.lt
  refine BitVec.toInt_eq_toNat_of_lt ?_
  rcases hw with rfl | rfl <;> omega

theorem isInRange_value {low high : BitVec w} (h : node.isInRange low high = true) :
    ∃ k, node.resolvedValue = some k := by
  rw [isInRange] at h
  split at h
  · exact ⟨_, ‹_›⟩
  · cases h

theorem isInRange_spec (hw : w = 32 ∨ w = 64) (hk : node.resolvedValue = some k)
    (h : node.isInRange 1#w (BitVec.ofNat w (w - 1)) = true) : ShiftAmount node k := by
  rw [isInRange, hk] at h
  simp only [Bool.and_eq_true, BitVec.sle, decide_eq_true_eq] at h
  have hlow : (1#w).toInt = 1 := by rcases hw with rfl | rfl <;> rfl
  have hhigh : (BitVec.ofNat w (w - 1)).toInt = w - 1 := by rcases hw with rfl | rfl <;> rfl
  rw [BitVec.toInt_eq_toNat_cond k, hlow, hhigh] at h
  exact ⟨hk, by split at h <;> omega, by split at h <;> omega⟩

theorem reduceShlOfSarShiftOutZeros_sound (hw : w = 32 ∨ w = 64) {reduceSar : Node w → Node w → Option (Node w)}
    (hsar : ∀ l r, (Node.binop .sar l r).Sound (reduceSar l r)) {amount : BitVec w} (hr : ShiftAmount r amount) :
    (Node.binop .shl l r).Sound (reduceShlOfSarShiftOutZeros reduceSar l r) := by
  refine Sound.bind₂ fun x s hin => Sound.bind fun k hk => Sound.bind fun shift hshift => ?_
  obtain rfl : amount = shift := Option.some.inj (hr.value.symm.trans hshift)
  split
  · rename_i hrange
    have hs := isInRange_spec hw hk hrange
    have hnode : ∀ env, (Node.binop .shl l r).eval env = (x.eval env).sshiftRight k.toNat <<< amount.toNat := by
      intro env
      rw [eval, Binop.eval, hr.eval, inputs_eval hin, Binop.eval, hs.eval]
    have hz : ∀ env, (Node.binop .shl l r).Valid env → 2 ^ k.toNat ∣ (x.eval env).toNat := by
      intro env hv
      have hz := inputs_shiftsOutZeros hin hv.1
      rwa [ShiftsOutZeros, hs.eval] at hz
    have hslt : amount.slt k = true ↔ amount.toNat < k.toNat := by
      rw [BitVec.slt_iff_toInt_lt, hr.toInt hw, hs.toInt hw, Int.ofNat_lt]
    split
    · rename_i heq
      refine Sound.some fun env hv => ⟨(inputs_valid hin hv.1).1, ?_⟩
      rw [hnode, ← heq, shl_sshr_of_dvd (hz env hv)]
    · split
      · rename_i hlt
        refine Sound.some (Refines.followedBy (fun env hv => ?_) (hsar _ _))
        have hle := hslt.1 hlt
        refine ⟨.binop (by decide) (inputs_valid hin hv.1).1 trivial, ?_⟩
        have hsub : (k - amount).toNat = k.toNat - amount.toNat := BitVec.toNat_sub_of_le (by rw [BitVec.le_def]; omega)
        have := hs.lt
        rw [hnode, eval, Binop.eval, eval, hsub, Nat.mod_eq_of_lt (by omega), shl_sshr_of_le (hz env hv) hle.le]
      · rename_i hlt
        have hge : k.toNat ≤ amount.toNat := Nat.not_lt.1 fun h => hlt (hslt.2 h)
        refine Sound.some fun env hv => ⟨.binop (by decide) (inputs_valid hin hv.1).1 trivial, ?_⟩
        have hsub : (amount - k).toNat = amount.toNat - k.toNat := BitVec.toNat_sub_of_le (by rw [BitVec.le_def]; omega)
        have := hr.lt
        rw [hnode, eval, Binop.eval, eval, hsub, Nat.mod_eq_of_lt (by omega), shl_sshr_of_ge (hz env hv) hge]
  · exact Sound.none

theorem reduceShlOfShiftRight_sound {reduceAnd : Node w → Node w → Option (Node w)}
    (hand : ∀ l r, (Node.binop .and l r).Sound (reduceAnd l r)) {amount : BitVec w} (hr : ShiftAmount r amount) :
    (Node.binop .shl l r).Sound (reduceShlOfShiftRight reduceAnd l r) := by
  refine Sound.bind₂ fun x s hin => Sound.bind fun k hk => ?_
  obtain rfl : amount = k := Option.some.inj (hr.value.symm.trans hk)
  split
  · rename_i his
    refine Sound.some (Refines.followedBy (fun env hv => ?_) (hand _ _))
    refine ⟨.binop (by decide) (shiftRightInputs_valid hin hv.1).1 trivial, ?_⟩
    have hs : (s.eval env).toNat % w = amount.toNat := by rw [is_eval his, Nat.mod_eq_of_lt hr.lt]
    rw [eval, Binop.eval, eval, eval, Binop.eval, hr.eval]
    rcases shiftRightInputs_cases hin with hin | hin
    · rw [inputs_eval hin, Binop.eval, hs, BitVec.shiftLeft_ushiftRight]
    · rw [sarInputs_eval hin, hs, shl_sshiftRight]
  · exact Sound.none

/-- A shift by a constant in the range of `IsInRange(1, w - 1)`. -/
theorem sound_shlInRange (hw : w = 32 ∨ w = 64) {reduceSar reduceAnd : Node w → Node w → Option (Node w)}
    (hsar : ∀ l r, (Node.binop .sar l r).Sound (reduceSar l r))
    (hand : ∀ l r, (Node.binop .and l r).Sound (reduceAnd l r)) :
    (Node.binop .shl l r).Sound (if r.isInRange 1#w (BitVec.ofNat w (w - 1)) then
      reduceShlOfSarShiftOutZeros reduceSar l r <|> reduceShlOfShiftRight reduceAnd l r else none) := by
  split
  · rename_i hrange
    obtain ⟨k, hk⟩ := isInRange_value hrange
    have hr := isInRange_spec hw hk hrange
    exact Sound.orElse (reduceShlOfSarShiftOutZeros_sound hw hsar hr) (reduceShlOfShiftRight_sound hand hr)
  · exact Sound.none

theorem reduceWord32Shl_sound :
    (Node.binop .shl left right).Sound (reduceWord32Shl G a left right) := by
  refine Sound.orElse (sound_shiftZero rfl) (Sound.orElse (sound_fold fun env => ?_)
    (Sound.orElse (sound_shlInRange (.inl rfl) (reduceWord32Sar_sound G (.inl rfl)) (reduceWord32And_sound G a))
      (reduceWord32Shifts_sound G rfl left right)))
  rw [eval, Binop.eval, toNat_and_31]

theorem reduceWord64Shl_sound (a : WordNAdapter 64) (left right : Node 64) :
    (Node.binop .shl left right).Sound (reduceWord64Shl G a left right) := by
  refine Sound.orElse (sound_shiftZero rfl) (Sound.orElse (sound_fold fun env => ?_)
    (sound_shlInRange (.inr rfl) (reduceWord64Sar_sound (.inl rfl)) (reduceWordNAnd_sound G a)))
  rw [eval, Binop.eval, toNat_and_63]

theorem reduceWord32Shr_sound :
    (Node.binop .shr left right).Sound (reduceWord32Shr G left right) := by
  refine Sound.orElse (sound_shiftZero rfl) (Sound.orElse (sound_fold fun env => ?_)
    (Sound.orElse (Sound.bind₂ fun x k hin => Sound.bind fun shift hs => Sound.bind fun mask hm =>
      Sound.onlyIf fun h env _ => ⟨trivial, ?_⟩) (reduceWord32Shifts_sound G rfl left right)))
  · rw [eval, Binop.eval, toNat_and_31]
  · rw [beq_iff_eq, toNat_and_31] at h
    rw [eval, eval, Binop.eval, inputs_eval hin, Binop.eval, resolvedValue_eval hs, resolvedValue_eval hm,
      ushiftRight_and_eq_zero h]

theorem reduceWord64Shr_sound (left right : Node 64) :
    (Node.binop .shr left right).Sound (reduceWord64Shr left right) := by
  refine Sound.orElse (sound_shiftZero rfl) (sound_fold fun env => ?_)
  rw [eval, Binop.eval, toNat_and_63]

theorem reduceWord32Ror_sound (left right : Node 32) :
    (Node.binop .ror left right).Sound (reduceWord32Ror left right) := by
  refine Sound.orElse (sound_unit fun x => ?_) (sound_fold fun env => ?_)
  · rw [Binop.eval, BitVec.rotateRight_def]
    simp
  · rw [eval, Binop.eval, toNat_and_31]

/-! ## Multiplication -/

/-- `x * 2^n => x << n`. -/
theorem refines_mulPowerOf2 (hk : r.resolvedValue = some k) (hpow : isPowerOf2 k = true) :
    (Node.binop .mul l r).Refines (.binop .shl l (.constant k.ctz)) := by
  rw [isPowerOf2, Bool.and_eq_true, beq_iff_eq] at hpow
  have hne : k ≠ 0#w := by
    rintro rfl
    simp [BitVec.slt] at hpow
  intro env hv
  refine ⟨.binop (by decide) hv.1 trivial, ?_⟩
  simp only [eval, Binop.eval, resolvedValue_eval hk]
  exact (mul_eq_shl_ctz _ hne hpow.2).symm

theorem reduceIntNMul_sound {reduceShl : Node w → Node w → Option (Node w)}
    (hshl : ∀ l r, (Node.binop .shl l r).Sound (reduceShl l r)) (left right : Node w) :
    (Node.binop .mul left right).Sound (reduceIntNMul G reduceShl left right) := by
  refine Sound.of_refines (refines_put rfl left right) (Sound.orElse (Sound.onlyIf fun h env hv => ⟨hv.2.1, ?_⟩)
    (Sound.orElse (sound_unit BitVec.mul_one) (Sound.orElse (sound_fold fun _ => rfl)
      (Sound.orElse (Sound.onlyIf fun h env hv => ⟨.binop (by decide) trivial hv.1, ?_⟩)
        (Sound.orElse (Sound.bind fun k hk => Sound.onlyIf fun hpow => ?_) (sound_regroup G rfl))))))
  · simp only [eval, Binop.eval, is_eval h, BitVec.mul_zero]
  · simp only [eval, Binop.eval, is_eval h, BitVec.mul_neg, BitVec.mul_one, BitVec.zero_sub]
  · exact Refines.followedBy (refines_mulPowerOf2 hk hpow) (hshl _ _)

theorem reduceChangeInt32ToInt64_sound (input : Node 32) :
    (Node.changeInt32ToInt64 input).Sound (reduceChangeInt32ToInt64 input) := by
  intro replacement h env _
  obtain ⟨k, hk, rfl⟩ := Option.map_eq_some_iff.1 h
  exact ⟨trivial, by rw [eval, eval, resolvedValue_eval hk]⟩

theorem reduceChangeUint32ToUint64_sound (input : Node 32) :
    (Node.changeUint32ToUint64 input).Sound (reduceChangeUint32ToUint64 input) := by
  intro replacement h env _
  obtain ⟨k, hk, rfl⟩ := Option.map_eq_some_iff.1 h
  exact ⟨trivial, by rw [eval, eval, resolvedValue_eval hk]⟩

/-! ## Dispatch -/

/-- `Reduce`, for the operators of 32-bit words and for equality. -/
def reduceWord32 (node : Node 32) : Option (Node 32) :=
  match node with
  | .binop .add left right => reduceInt32Add G left right
  | .binop .sub left right => reduceInt32Sub G left right
  | .binop .mul left right => reduceInt32Mul G (word32Adapter G) left right
  | .binop .and left right => reduceWord32And G (word32Adapter G) left right
  | .binop .or left right => reduceWordNOr G (word32Adapter G) left right
  | .binop .xor left right => reduceWord32Xor G (word32Adapter G) left right
  | .binop .shl left right => reduceWord32Shl G (word32Adapter G) left right
  | .binop .shr left right => reduceWord32Shr G left right
  | .binop .sar left right => reduceWord32Sar G .sar left right
  | .binop .sarShiftOutZeros left right => reduceWord32Sar G .sarShiftOutZeros left right
  | .binop .ror left right => reduceWord32Ror left right
  | .compare (w := 32) .equal left right => reduceWord32Equal G (word32Adapter G) left right
  | .compare (w := 64) .equal left right => reduceWord64Equal G (word64Adapter G) left right
  | .truncateInt64ToInt32 input => reduceTruncateInt64ToInt32 G input
  | _ => none

/-- `Reduce`, for the operators of 64-bit words. -/
def reduceWord64 (node : Node 64) : Option (Node 64) :=
  match node with
  | .binop .add left right => reduceInt64Add G left right
  | .binop .sub left right => reduceInt64Sub G left right
  | .binop .mul left right => reduceInt64Mul G (word64Adapter G) left right
  | .binop .and left right => reduceWordNAnd G (word64Adapter G) left right
  | .binop .or left right => reduceWordNOr G (word64Adapter G) left right
  | .binop .xor left right => reduceWordNXor G (word64Adapter G) left right
  | .binop .shl left right => reduceWord64Shl G (word64Adapter G) left right
  | .binop .shr left right => reduceWord64Shr left right
  | .binop .sar left right => reduceWord64Sar left right
  | .binop .sarShiftOutZeros left right => reduceWord64Sar left right
  | .changeInt32ToInt64 input => reduceChangeInt32ToInt64 input
  | .changeUint32ToUint64 input => reduceChangeUint32ToUint64 input
  | _ => none

theorem reduceWord32_sound (node : Node 32) : node.Sound (reduceWord32 G node) := by
  unfold reduceWord32
  split
  · exact reduceInt32Add_sound G _ _
  · exact reduceInt32Sub_sound G _ _
  · exact reduceIntNMul_sound G (reduceWord32Shl_sound G _) _ _
  · exact reduceWord32And_sound G _ _ _
  · exact reduceWordNOr_sound G _ _ _
  · exact reduceWord32Xor_sound G _ _ _
  · exact reduceWord32Shl_sound G _ _ _
  · exact reduceWord32Shr_sound G _ _
  · exact reduceWord32Sar_sound G (.inl rfl) _ _
  · exact reduceWord32Sar_sound G (.inr rfl) _ _
  · exact reduceWord32Ror_sound _ _
  · exact reduceWord32Equal_sound G _ _ _
  · exact reduceWord64Equal_sound G _ _ _
  · exact reduceTruncateInt64ToInt32_sound G _
  · exact Sound.none

theorem reduceWord64_sound (node : Node 64) : node.Sound (reduceWord64 G node) := by
  unfold reduceWord64
  split
  · exact reduceInt64Add_sound G _ _
  · exact reduceInt64Sub_sound G _ _
  · exact reduceIntNMul_sound G (reduceWord64Shl_sound G _) _ _
  · exact reduceWordNAnd_sound G _ _ _
  · exact reduceWordNOr_sound G _ _ _
  · exact reduceWordNXor_sound G _ _ _
  · exact reduceWord64Shl_sound G _ _ _
  · exact reduceWord64Shr_sound _ _
  · exact reduceWord64Sar_sound (.inl rfl) _ _
  · exact reduceWord64Sar_sound (.inr rfl) _ _
  · exact reduceChangeInt32ToInt64_sound _
  · exact reduceChangeUint32ToUint64_sound _
  · exact Sound.none

/-- Whatever the word reducers return has, under every assignment of words, the word of the node it
replaces. -/
theorem reduceWord_sound :
    (∀ node : Node 32, node.Sound (reduceWord32 G node)) ∧ ∀ node : Node 64, node.Sound (reduceWord64 G node) :=
  ⟨reduceWord32_sound G, reduceWord64_sound G⟩

/-- `x - y == 0` becomes `x == y`. -/
theorem reduceWord_sound_equal_of_sub :
    reduceWord32 treeGraph (.compare .equal (.binop .sub (.leaf 0) (.leaf 1)) (.constant 0#32)) =
        some (.compare .equal (.leaf (w := 32) 0) (.leaf 1)) ∧
      (Node.compare .equal (.binop .sub (.leaf 0) (.leaf 1)) (.constant 0#32)).Refines
        (.compare .equal (.leaf (w := 32) 0) (.leaf 1)) :=
  ⟨rfl, (reduceWord_sound treeGraph).1 _ _ rfl⟩

end V8Core.Compiler
