import FortranIR.Proofs.Folding.Rounds

/-
  This file relates the words that folding computes with to
  integers.

  Arithmetic is exact up to a multiple of the number of words of
  a width, as long as the width has at most as many bits as a
  word. Comparisons that are unsigned read the bits of the width
  alone; the others read whole words, and agree with the bits of
  the width for words in its range.

  Main declarations:
    * `exactArith`
    * `Module.fold?_compares`
-/

namespace FortranIR

variable {width : UInt32} {kind : OpKind}

----
-- Arithmetic on words
----

/- The value of an arithmetic operation on integers. -/
def exactArith (kind : OpKind) (l r : Int) : Int := match kind with
  | .addI => l + r
  | .subI => l - r
  | _ => l * r

theorem exactArith_modEq (kind : OpKind) (hLeft : a ≡ b [ZMOD n])
    (hRight : c ≡ d [ZMOD n]) : exactArith kind a c ≡ exactArith kind b d [ZMOD n] := by
  unfold exactArith
  split
  · exact hLeft.add hRight
  · exact hLeft.sub hRight
  · exact hLeft.mul hRight

theorem toInt_intArith (kind : OpKind) (x y : Int64) :
    (Module.intArith kind x y).toInt = (exactArith kind x.toInt y.toInt).bmod (2 ^ 64) := by
  cases kind with
  | addI => exact Int64.toInt_add x y
  | subI => exact Int64.toInt_sub x y
  | _ => exact Int64.toInt_mul x y

theorem bmod_modEq (a : Int) (n : Nat) : a.bmod n ≡ a [ZMOD n] := Int.bmod_emod

/- The integers that some bits hold. -/
def FitsBits (b : Nat) (c : Int) : Prop := -2 ^ (b - 1) ≤ c ∧ c < 2 ^ (b - 1)

instance {b : Nat} {c : Int} : Decidable (FitsBits b c) := inferInstanceAs (Decidable (_ ∧ _))

/- The integers of a width; a boolean is zero or one. -/
def InWidth (width : UInt32) (c : Int) : Prop := if width = 1 then c = 0 ∨ c = 1
  else FitsBits width.toNat c

theorem toInt_and_one (v : Int64) : (v &&& 1).toInt = v.toInt % 2 := by
  have hWord : (v &&& 1).toInt = (v.toBitVec &&& 1#64).toInt := rfl
  have hBits : (v.toBitVec &&& 1#64).toNat = v.toBitVec.toNat % 2 := by
    exact Nat.and_one_is_mod _
  rw [hWord, BitVec.toInt_eq_toNat_bmod, hBits, ← Int64.toInt_toBitVec, BitVec.toInt_eq_toNat_bmod]
  have hSmall : ((v.toBitVec.toNat % 2 : Nat) : Int).bmod (2 ^ 64) = (v.toBitVec.toNat % 2 : Nat) :=
    Int.bmod_eq_of_le (by omega) (by omega)
  rw [hSmall, Int.natCast_mod]
  have hDvd : (2 : Int) ∣ ((2 ^ 64 : Nat) : Int) := by decide
  exact ((bmod_modEq _ _).of_dvd hDvd).symm

/-
  A word that is cut to a width of at most 64 bits is in the
  range of the width, and loses a multiple of its number of
  words.
-/
theorem truncateWord_spec (v : Int64) (hSome : 1 ≤ width.toNat) (hWord : width.toNat ≤ 64) :
    ∃ word, truncateWord v width = .ok word ∧ word.toInt ≡ v.toInt [ZMOD 2 ^ width.toNat] ∧
      InWidth width word.toInt := by
  unfold truncateWord InWidth FitsBits
  by_cases hBoolean : width = 1
  · subst hBoolean
    refine ⟨v &&& 1, rfl, ?_, ?_⟩
    · rw [toInt_and_one]
      exact Int.mod_modEq _ _
    · rw [if_pos rfl, toInt_and_one]
      omega
  · simp only [if_neg hBoolean]
    by_cases hWide : 64 ≤ width
    · have hWidth : width.toNat = 64 := Nat.le_antisymm hWord (UInt32.le_iff_toNat_le.mp hWide)
      rw [if_pos hWide, hWidth]
      exact ⟨v, rfl, rfl, Int64.le_toInt v, Int64.toInt_lt v⟩
    · have hNarrow : width.toNat < 64 := by
        exact Nat.lt_of_not_le hWide
      have hNonzero : width ≠ 0 := by
        rintro rfl
        cases hSome
      rw [if_neg hWide, if_neg hNonzero]
      have hDouble : (2 ^ width.toNat : Nat) = 2 * 2 ^ (width.toNat - 1) := by
        rw [← Nat.pow_succ', Nat.succ_eq_add_one, Nat.sub_add_cancel hSome]
      have hBound : (2 : Nat) ^ (width.toNat - 1) ≤ 2 ^ 62 :=
        Nat.pow_le_pow_right (by decide) (by omega)
      have hLow := Int.le_bmod (x := v.toInt) (Nat.two_pow_pos width.toNat)
      have hHigh := Int.bmod_lt (x := v.toInt) (Nat.two_pow_pos width.toNat)
      have hSame : (Int64.ofInt (v.toInt.bmod (2 ^ width.toNat))).toInt =
          v.toInt.bmod (2 ^ width.toNat) := by
        rw [Int64.toInt_ofInt]
        refine Int.bmod_eq_of_le ?_ ?_ <;> simp only [Int64.size] <;> omega
      refine ⟨_, rfl, ?_, ?_⟩
      · rw [hSame]
        exact_mod_cast bmod_modEq v.toInt (2 ^ width.toNat)
      · have hCast : ((2 ^ width.toNat : Nat) : Int) = 2 * 2 ^ (width.toNat - 1) := by
          exact_mod_cast hDouble
        omega

----
-- Arithmetic that folds
----

namespace Module

variable {m : Module} {op : Operation}

/- The value is an integer constant of the type. -/
def IsWord (m : Module) (v : ValueId) (t : Ty) (x : Int64) : Prop :=
  m.constantValue? v = .ok (some (.int x)) ∧ m.typeOf v = .ok t

instance {v : ValueId} {t : Ty} {x : Int64} : Decidable (m.IsWord v t x) :=
  inferInstanceAs (Decidable (_ ∧ _))

/- The operation computes with two integer constants of its type. -/
def Computes (m : Module) (o : OpId) (kind : OpKind) (t : Ty) (x y : Int64) : Prop :=
  kind.isIntBinary = true ∧ ∃ op l r v, m.op o = .ok op ∧ op.kind = kind ∧ op.operands = [l, r] ∧
    m.IsWord l t x ∧ m.IsWord r t y ∧ op.results = [v] ∧ m.typeOf v = .ok t

theorem fold?_of_isIntBinary (hOp : m.op o = .ok op) (hKind : op.kind.isIntBinary = true) :
    m.fold? o = (m.foldInt op).run := by
  unfold fold?
  rw [hOp]
  cases hSame : op.kind with
  | addI | subI | mulI => simp only [bind, Except.bind, hSame]
  | _ =>
    rw [hSame] at hKind
    cases hKind

theorem Computes.fold (hComputes : m.Computes o kind t x y) (hWidth : wordWidth? t = some width)
    (hWord : truncateWord (intArith kind x y) width = .ok word) :
    m.fold? o = .ok (some (.constant (.int word))) := by
  rcases hComputes with
    ⟨hKind, op, l, r, v, hOp, rfl, hOperands, hLeft, hRight, hResults, hType⟩
  rw [fold?_of_isIntBinary hOp hKind]
  exact finds_foldInt.mpr ⟨l, r, x, y, v, t, width, word, rfl, hOperands, hLeft.1, hRight.1,
    hResults, hType, hWidth, hWord⟩

theorem exactArith_bounds (hKind : kind.isIntBinary = true) (x y : Int64) :
    (-2 ^ 126 ≤ exactArith kind x.toInt y.toInt ∧ exactArith kind x.toInt y.toInt ≤ 2 ^ 126) ∧
      (kind ≠ .mulI →
        -2 ^ 64 ≤ exactArith kind x.toInt y.toInt ∧ exactArith kind x.toInt y.toInt < 2 ^ 64) := by
  have hLeft : |x.toInt| ≤ 2 ^ 63 := abs_le.mpr ⟨Int64.le_toInt x, (Int64.toInt_lt x).le⟩
  have hRight : |y.toInt| ≤ 2 ^ 63 := abs_le.mpr ⟨Int64.le_toInt y, (Int64.toInt_lt y).le⟩
  have hProduct : |x.toInt * y.toInt| ≤ 2 ^ 126 := by
    calc |x.toInt * y.toInt| = |x.toInt| * |y.toInt| := abs_mul _ _
      _ ≤ 2 ^ 63 * 2 ^ 63 := mul_le_mul hLeft hRight (abs_nonneg _) (by decide)
      _ = 2 ^ 126 := by norm_num
  have := Int64.le_toInt x
  have := Int64.le_toInt y
  have := Int64.toInt_lt x
  have := Int64.toInt_lt y
  cases kind with
  | addI | subI => simp only [exactArith]; omega
  | mulI => exact ⟨abs_le.mp hProduct, fun hOther => absurd rfl hOther⟩
  | _ => cases hKind

/-
  Arithmetic of a type wider than a word wraps around as words
  do. The result is right if the exact one fits in a word; for
  sums, differences and wide enough products, only then.
-/
theorem fold?_wide (hWide : 64 < width.toNat) (hComputes : m.Computes o kind (.integer width) x y) :
    ∃ c : Int64, m.fold? o = .ok (some (.constant (.int c))) ∧
      c.toInt = (exactArith kind x.toInt y.toInt).bmod (2 ^ 64) ∧
      (FitsBits 64 (exactArith kind x.toInt y.toInt) →
        c.toInt ≡ exactArith kind x.toInt y.toInt [ZMOD 2 ^ width.toNat]) ∧
      (kind ≠ .mulI ∨ 128 ≤ width.toNat →
        c.toInt ≡ exactArith kind x.toInt y.toInt [ZMOD 2 ^ width.toNat] →
        FitsBits 64 (exactArith kind x.toInt y.toInt)) := by
  have hWord : truncateWord (intArith kind x y) width = .ok (intArith kind x y) := by
    have hOther : width ≠ 1 := by
      rintro rfl
      exact absurd hWide (by decide)
    have hLong : 64 ≤ width := UInt32.le_iff_toNat_le.mpr hWide.le
    rw [truncateWord, if_neg hOther, if_pos hLong]
  refine ⟨intArith kind x y, hComputes.fold rfl hWord, toInt_intArith kind x y, ?_, ?_⟩
  · intro hFits
    rw [toInt_intArith, Int.bmod_eq_of_le hFits.1 hFits.2]
  · intro hEnough hSame
    -- the exact result is too close to the word to differ by a multiple
    rcases exactArith_bounds hComputes.1 x y with ⟨hAll, hSum⟩
    have hLow := Int64.le_toInt (intArith kind x y)
    have hHigh := Int64.toInt_lt (intArith kind x y)
    have hEqual : (intArith kind x y).toInt = exactArith kind x.toInt y.toInt := by
      have hClose : |exactArith kind x.toInt y.toInt - (intArith kind x y).toInt| <
          2 ^ width.toNat := by
        rcases hEnough with hOther | hWide'
        · rcases hSum hOther with ⟨hLeast, hMost⟩
          calc |exactArith kind x.toInt y.toInt - (intArith kind x y).toInt|
            _ < 2 ^ 65 := abs_lt.mpr ⟨by omega, by omega⟩
            _ ≤ 2 ^ width.toNat := pow_le_pow_right₀ (by decide) hWide
        · calc |exactArith kind x.toInt y.toInt - (intArith kind x y).toInt|
            _ < 2 ^ 128 := abs_lt.mpr ⟨by omega, by omega⟩
            _ ≤ 2 ^ width.toNat := pow_le_pow_right₀ (by decide) hWide'
      exact (sub_eq_zero.mp (Int.eq_zero_of_abs_lt_dvd hSame.dvd hClose)).symm
    rw [← hEqual]
    exact ⟨hLow, hHigh⟩

/-
  A function with a sum that no word holds, a comparison of two
  constants that stand for one byte, and one of constants in the
  range of their type.
-/
def mixedWords : List Change := [.newOp .func [] [] (.ofList [("sym_name", .str "f"),
        ("type", .type (.function [] []))]) 1 [], .newBlock ⟨0⟩ [],
    .newOp .constant [] [.integer 128] (.ofList [("value", .int 9223372036854775807)]) 0 [],
    .appendOp ⟨0⟩ ⟨1⟩, .newOp .constant [] [.integer 128] (.ofList [("value", .int 1)]) 0 [],
    .appendOp ⟨0⟩ ⟨2⟩, .newOp .addI [⟨0⟩, ⟨1⟩] [.integer 128] {} 0 [], .appendOp ⟨0⟩ ⟨3⟩,
    .newOp .constant [] [.integer 8] (.ofList [("value", .int 255)]) 0 [], .appendOp ⟨0⟩ ⟨4⟩,
    .newOp .constant [] [.integer 8] (.ofList [("value", .int (-1))]) 0 [], .appendOp ⟨0⟩ ⟨5⟩,
    .newOp .cmpI [⟨3⟩, ⟨4⟩] [.i1] (.ofList [("predicate", .int 0)]) 0 [], .appendOp ⟨0⟩ ⟨6⟩,
    .newOp .constant [] [.integer 8] (.ofList [("value", .int 1)]) 0 [], .appendOp ⟨0⟩ ⟨7⟩,
    .newOp .cmpI [⟨4⟩, ⟨6⟩] [.i1] (.ofList [("predicate", .int 2)]) 0 [], .appendOp ⟨0⟩ ⟨8⟩,
    .newOp .ret [] [] {} 0 [], .appendOp ⟨0⟩ ⟨9⟩, .pushTop ⟨0⟩]

theorem exists_computes_mixedWords : ∃ m, m.Reached ∧ Answers (verify {} m) () ∧
      m.Computes ⟨3⟩ .addI (.integer 128) 9223372036854775807 1 := by
  have hFound : ∃ m ∈ (emptyAfter {}).after mixedWords, Answers (verify {} m) () ∧
        (∃ op ∈ m.ops[3]?, op.kind = .addI ∧ op.operands = [⟨0⟩, ⟨1⟩] ∧ op.results = [⟨2⟩]) ∧
        m.IsWord ⟨0⟩ (.integer 128) 9223372036854775807 ∧ m.IsWord ⟨1⟩ (.integer 128) 1 ∧
        m.typeOf ⟨2⟩ = .ok (.integer 128) := by decide +kernel
  rcases hFound with ⟨m, hAfter, hVerify, ⟨op, hOp, hKind, hOperands, hResults⟩, hLeft, hRight,
    hType⟩
  exact ⟨m, (Reached.empty {}).after hAfter, hVerify, rfl, op, ⟨0⟩, ⟨1⟩, ⟨2⟩,
    op_eq_ok_iff.mpr hOp, hKind, hOperands, hLeft, hRight, hResults, hType⟩

theorem fold?_wide_mixedWords : ∃ (m : Module) (c : Int64), 64 < (128 : UInt32).toNat ∧
      m.Computes ⟨3⟩ .addI (.integer 128) 9223372036854775807 1 ∧
      m.fold? ⟨3⟩ = .ok (some (.constant (.int c))) ∧ c.toInt = -2 ^ 63 := by
  rcases exists_computes_mixedWords with ⟨m, -, -, hComputes⟩
  rcases fold?_wide (by decide) hComputes with ⟨c, hFold, hWrapped, -⟩
  exact ⟨m, c, by decide, hComputes, hFold, hWrapped⟩

/- The sum of two constants of a wide type need not be their sum. -/
theorem not_modEq_fold?_wide : ∃ (m : Module) (c : Int64), Answers (verify {} m) () ∧
      m.Computes ⟨3⟩ .addI (.integer 128) 9223372036854775807 1 ∧
      m.fold? ⟨3⟩ = .ok (some (.constant (.int c))) ∧
      ¬ c.toInt ≡ exactArith .addI 9223372036854775807 1 [ZMOD 2 ^ 128] := by
  rcases exists_computes_mixedWords with ⟨m, -, hVerify, hComputes⟩
  exact ⟨m, _, hVerify, hComputes, hComputes.fold (show wordWidth? (.integer 128) = some 128 from rfl) rfl, by decide⟩

end Module

----
-- Comparisons
----

/- The bits of a word that belong to a width. -/
def bitsOf (width : UInt32) (v : Int64) : BitVec width.toNat := BitVec.ofInt width.toNat v.toInt

namespace IntPredicate

variable {p : IntPredicate}

/- The predicates that compare the bits of a width alone. -/
def isUnsigned : IntPredicate → Bool
  | ult | ule | ugt | uge => true
  | _ => false

/- The value of a predicate on the bits of two words. -/
def onBits (p : IntPredicate) (x y : BitVec b) : Bool := match p with
  | eq => x == y
  | ne => x != y
  | slt => x.slt y
  | sle => x.sle y
  | sgt => y.slt x
  | sge => y.sle x
  | ult => x.ult y
  | ule => x.ule y
  | ugt => y.ult x
  | uge => y.ule x

theorem lowBits_eq_toNat (hWord : width.toNat ≤ 64) (v : Int64) :
    lowBits width v = (bitsOf width v).toNat := by
  have hBits : bitsOf width v = v.toBitVec.setWidth width.toNat := by
    rw [← BitVec.signExtend_eq_setWidth_of_le v.toBitVec hWord]
    rfl
  rw [hBits, BitVec.toNat_setWidth, lowBits]
  split
  · rename_i hWide
    have hWidth : width.toNat = 64 := Nat.le_antisymm hWord (UInt32.le_iff_toNat_le.mp hWide)
    rw [hWidth]
    exact (Nat.mod_eq_of_lt v.toBitVec.isLt).symm
  · rfl

/- Unsigned predicates compare the bits of the width, the others whole words. -/
theorem eval_eq_onBits (hWord : width.toNat ≤ 64) (p : IntPredicate) (x y : Int64) :
    p.eval x y width = if p.isUnsigned then p.onBits (bitsOf width x) (bitsOf width y)
      else p.onBits x.toBitVec y.toBitVec := by
  unfold eval
  simp only [lowBits_eq_toNat hWord]
  cases p with
  | eq => simp [isUnsigned, onBits, Int64.toBitVec_inj]
  | ne => simp [isUnsigned, onBits, Int64.toBitVec_inj, bne]
  | slt | sle | sgt | sge => exact Bool.decide_coe _
  | _ => rfl

/- Predicates that are not unsigned depend on the signed values. -/
theorem onBits_congr (hSigned : p.isUnsigned = false)
    (hLeft : x.toInt = x'.toInt) (hRight : y.toInt = y'.toInt) : p.onBits x y = p.onBits x' y' := by
  have hSame : x = y ↔ x' = y' := by rw [← BitVec.toInt_inj, hLeft, hRight, BitVec.toInt_inj]
  cases p with
  | eq =>
    rw [Bool.eq_iff_iff]
    simpa only [onBits, beq_iff_eq] using hSame
  | ne =>
    rw [Bool.eq_iff_iff]
    simpa only [onBits, bne_iff_ne] using hSame.not
  | slt | sgt => simp [onBits, BitVec.slt, hLeft, hRight]
  | sle | sge => simp [onBits, BitVec.sle, hLeft, hRight]
  | _ => cases hSigned

/- The predicates of which exactly one holds of two words. -/
def trios : List (List IntPredicate) := [[eq, ult, ugt], [eq, slt, sgt]]

theorem existsUnique_onBits (hTrio : trio ∈ trios) (x y : BitVec b) :
    ∃! p, p ∈ trio ∧ p.onBits x y = true := by
  -- each trio compares two numbers that the words stand for
  have hOrder : ∀ (less more : IntPredicate) (a c : Int), less ≠ eq → more ≠ eq → less ≠ more →
      (x = y ↔ a = c) → (less.onBits x y = true ↔ a < c) → (more.onBits x y = true ↔ c < a) →
      ∃! p, p ∈ [eq, less, more] ∧ p.onBits x y = true := by
    intro less more a c _ _ _ hSame hBelow hAbove
    have hEq : eq.onBits x y = true ↔ a = c := by simpa [onBits] using hSame
    rcases lt_trichotomy a c with hLt | hEqual | hGt
    · refine ⟨less, ⟨by simp, hBelow.mpr hLt⟩, ?_⟩
      grind
    · refine ⟨eq, ⟨by simp, hEq.mpr hEqual⟩, ?_⟩
      grind
    · refine ⟨more, ⟨by simp, hAbove.mpr hGt⟩, ?_⟩
      grind
  rcases List.mem_pair.mp hTrio with rfl | rfl
  · refine hOrder ult ugt x.toNat y.toNat (by decide) (by decide) (by decide) ?_ ?_ ?_
    · rw [Int.natCast_inj, BitVec.toNat_inj]
    · simp [onBits, BitVec.ult]
    · simp [onBits, BitVec.ult]
  · refine hOrder slt sgt x.toInt y.toInt (by decide) (by decide) (by decide) ?_ ?_ ?_
    · rw [BitVec.toInt_inj]
    · simp [onBits, BitVec.slt]
    · simp [onBits, BitVec.slt]

theorem ofIndex?_index (p : IntPredicate) : ofIndex? (Int64.ofNat p.index) = some p := by
  cases p <;> decide

end IntPredicate

theorem FitsBits.toInt_ofInt (hSome : 1 ≤ b) (hFits : FitsBits b c) :
    (BitVec.ofInt b c).toInt = c := by
  have hDouble : ((2 ^ b : Nat) : Int) = 2 * 2 ^ (b - 1) := by
    rw [← pow_succ', Nat.sub_add_cancel hSome]
    exact Nat.cast_pow 2 b
  rw [BitVec.toInt_ofInt]
  rcases hFits with ⟨hLow, hHigh⟩
  exact Int.bmod_eq_of_le (by omega) (by omega)

namespace Module

variable {m : Module}

/- The operation compares two integer constants of a type. -/
def Compares (m : Module) (o : OpId) (p : IntPredicate) (t : Ty) (x y : Int64) : Prop :=
  ∃ op l r, m.op o = .ok op ∧ op.kind = .cmpI ∧
    op.attr? "predicate" = some (.int (Int64.ofNat p.index)) ∧ op.operands = [l, r] ∧
    m.IsWord l t x ∧ m.IsWord r t y

theorem Compares.fold (hCompares : m.Compares o p t x y) (hWidth : wordWidth? t = some width) :
    m.fold? o = .ok (some (.constant (truthAttr (p.eval x y width)))) := by
  rcases hCompares with ⟨op, l, r, hOp, hKind, hPredicate, hOperands, hLeft, hRight⟩
  have hRun : m.fold? o = (m.foldCmpI op).run := by
    unfold fold?
    rw [hOp]
    simp only [bind, Except.bind, hKind]
  rw [hRun]
  refine finds_foldCmpI.mpr ⟨l, r, x, y, p, t, width, rfl, hOperands, hLeft.1, hRight.1, ?_,
    hLeft.2, hWidth⟩
  rw [hPredicate]
  exact p.ofIndex?_index

/-
  A comparison of two constants always folds. Unsigned ones
  compare the bits of the width, the others whole words. If the
  constants are in the range of the width, all of them compare
  its bits, and they agree on the order of the two.
-/
theorem fold?_compares (hWidth : wordWidth? t = some width) (hSome : 2 ≤ width.toNat)
    (hWord : width.toNat ≤ 64) (x y : Int64) :
    (∀ o p, m.Compares o p t x y → m.fold? o = .ok (some (.constant (truthAttr
        (if p.isUnsigned then p.onBits (bitsOf width x) (bitsOf width y)
        else p.onBits x.toBitVec y.toBitVec))))) ∧
      (FitsBits width.toNat x.toInt → FitsBits width.toNat y.toInt →
        (∀ o p, m.Compares o p t x y →
          m.fold? o = .ok (some (.constant (truthAttr (p.onBits (bitsOf width x) (bitsOf width y)))))) ∧
        ∀ (o : IntPredicate → OpId), ∀ trio ∈ IntPredicate.trios,
          (∀ p ∈ trio, m.Compares (o p) p t x y) →
          ∃! p, p ∈ trio ∧ m.fold? (o p) = .ok (some (.constant (truthAttr true)))) := by
  have hAll : ∀ o p, m.Compares o p t x y → m.fold? o = .ok (some (.constant (truthAttr
        (if p.isUnsigned then p.onBits (bitsOf width x) (bitsOf width y)
        else p.onBits x.toBitVec y.toBitVec)))) := by
    intro o p hCompares
    rw [hCompares.fold hWidth, IntPredicate.eval_eq_onBits hWord]
  refine ⟨hAll, fun hLeft hRight => ?_⟩
  have hBits : ∀ o p, m.Compares o p t x y →
      m.fold? o = .ok (some (.constant (truthAttr (p.onBits (bitsOf width x) (bitsOf width y))))) := by
    intro o p hCompares
    rw [hAll o p hCompares]
    cases hUnsigned : p.isUnsigned with
    | true => rfl
    | false =>
      rw [if_neg (by decide), IntPredicate.onBits_congr hUnsigned]
      · exact (hLeft.toInt_ofInt (by omega)).symm
      · exact (hRight.toInt_ofInt (by omega)).symm
  refine ⟨hBits, fun o trio hTrio hCompares => ?_⟩
  have hTruth : ∀ p ∈ trio, m.fold? (o p) = .ok (some (.constant (truthAttr true))) ↔
      p.onBits (bitsOf width x) (bitsOf width y) = true := by
    intro p hIn
    rw [hBits (o p) p (hCompares p hIn)]
    cases p.onBits (bitsOf width x) (bitsOf width y) with
    | true => exact ⟨fun _ => rfl, fun _ => rfl⟩
    | false => exact ⟨nofun, nofun⟩
  rcases IntPredicate.existsUnique_onBits hTrio (bitsOf width x) (bitsOf width y) with ⟨p, ⟨hIn, hHolds⟩, hOnly⟩
  exact ⟨p, ⟨hIn, (hTruth p hIn).mpr hHolds⟩,
    fun q ⟨hIn', hFold⟩ => hOnly q ⟨hIn', (hTruth q hIn').mp hFold⟩⟩

theorem exists_compares_mixedWords : ∃ m, Answers (verify {} m) () ∧
      m.Compares ⟨6⟩ .eq (.integer 8) 255 (-1) ∧ m.Compares ⟨8⟩ .slt (.integer 8) (-1) 1 := by
  have hFound : ∃ m ∈ (emptyAfter {}).after mixedWords, Answers (verify {} m) () ∧
        (∃ op ∈ m.ops[6]?, op.kind = .cmpI ∧ op.attr? "predicate" = some (.int 0) ∧
          op.operands = [⟨3⟩, ⟨4⟩]) ∧
        (∃ op ∈ m.ops[8]?, op.kind = .cmpI ∧ op.attr? "predicate" = some (.int 2) ∧
          op.operands = [⟨4⟩, ⟨6⟩]) ∧
        m.IsWord ⟨3⟩ (.integer 8) 255 ∧ m.IsWord ⟨4⟩ (.integer 8) (-1) ∧
        m.IsWord ⟨6⟩ (.integer 8) 1 := by decide +kernel
  rcases hFound with ⟨m, -, hVerify, ⟨op, hOp, hFirst⟩, ⟨op', hOp', hSecond⟩, hLarge, hLow, hOne⟩
  exact ⟨m, hVerify,
    ⟨op, ⟨3⟩, ⟨4⟩, op_eq_ok_iff.mpr hOp, hFirst.1, hFirst.2.1, hFirst.2.2, hLarge, hLow⟩,
    ⟨op', ⟨4⟩, ⟨6⟩, op_eq_ok_iff.mpr hOp', hSecond.1, hSecond.2.1, hSecond.2.2, hLow, hOne⟩⟩

theorem fold?_compares_mixedWords : ∃ m : Module, wordWidth? (.integer 8) = some 8 ∧
      2 ≤ (8 : UInt32).toNat ∧ (8 : UInt32).toNat ≤ 64 ∧
      m.Compares ⟨8⟩ .slt (.integer 8) (-1) 1 ∧
      m.fold? ⟨8⟩ = .ok (some (.constant (truthAttr true))) := by
  rcases exists_compares_mixedWords with ⟨m, -, -, hCompares⟩
  have hFold := ((fold?_compares (m := m) (t := .integer 8) rfl (by decide) (by decide) (-1) 1).2
    (by decide) (by decide)).1 ⟨8⟩ .slt hCompares
  exact ⟨m, rfl, by decide, by decide, hCompares, hFold⟩

/- Two constants of one byte that are equal as bytes are told apart. -/
theorem fold?_compares_whole_words : ∃ m, Answers (verify {} m) () ∧
      m.Compares ⟨6⟩ .eq (.integer 8) 255 (-1) ∧
      IntPredicate.eq.onBits (bitsOf 8 255) (bitsOf 8 (-1)) = true ∧
      m.fold? ⟨6⟩ = .ok (some (.constant (truthAttr false))) := by
  rcases exists_compares_mixedWords with ⟨m, hVerify, hCompares, -⟩
  exact ⟨m, hVerify, hCompares, by decide, hCompares.fold (show wordWidth? (.integer 8) = some 8 from rfl)⟩

end Module

end FortranIR
