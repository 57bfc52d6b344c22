import XPath.Eval.Execute

/-!
# Errors found while an expression runs

The operations on values and items fail with errors of types, values and missing context. None of them is a
static error: those are found when an expression is compiled, before anything is evaluated.
-/

namespace XPath

def Dynamic {α : Type} (r : Except Error α) : Prop :=
  ∀ e, r = .error e → e.isStatic = false

theorem Error.isStatic_format (code : ErrorCode) (args : List String) :
    (Error.format code args).isStatic = code.isStatic := by
  cases code <;> rfl

namespace Dynamic

variable {α β : Type}

theorem ok (a : α) : Dynamic (.ok a) :=
  nofun

theorem error (h : e.isStatic = false) : Dynamic (.error e : Except Error α) := by
  rintro _ ⟨⟩
  exact h

theorem format (h : code.isStatic = false) (args : List String) :
    Dynamic (.error (.format code args) : Except Error α) :=
  error ((Error.isStatic_format code args).trans h)

theorem map (h : Dynamic r) (f : α → β) : Dynamic (f <$> r) := by
  cases r with
  | ok a => exact ok _
  | error e => exact error (h e rfl)

theorem bind (h : Dynamic r) (hf : ∀ a, Dynamic (f a)) : Dynamic (r >>= f) := by
  cases r with
  | ok a => exact hf a
  | error e => exact error (h e rfl)

end Dynamic

/-! ## Truth and single values -/

theorem AtomicValue.truth_dynamic (a : AtomicValue) : Dynamic a.truth := by
  cases a <;> first
    | exact .ok _
    | exact .format rfl _

theorem effectiveBoolean_dynamic (items : List Item) : Dynamic (effectiveBoolean items) := by
  unfold effectiveBoolean
  split
  · exact .ok _
  · exact .ok _
  · exact AtomicValue.truth_dynamic _
  · exact .format rfl _

theorem Selection.ofItems_dynamic (items : List Item) : Dynamic (Selection.ofItems items) := by
  unfold Selection.ofItems
  split
  · exact .ok _
  · exact .ok _
  · exact .ok _
  · exact (effectiveBoolean_dynamic items).map _

theorem atomizeOptional_dynamic (what : String) (items : List Item) : Dynamic (atomizeOptional what items) := by
  unfold atomizeOptional
  split
  · exact .ok _
  · exact .ok _
  · exact .format rfl _

theorem castUntyped_dynamic (s : String) (t : AtomicType) : Dynamic (castUntyped s t) := by
  unfold castUntyped
  split
  · exact .ok _
  · exact .format rfl _

/-! ## Comparisons -/

theorem AtomicValue.relate_dynamic (a b : AtomicValue) : Dynamic (a.relate b) := by
  unfold AtomicValue.relate
  split
  case h_11 =>
    split
    · exact .ok _
    · split
      · exact .ok _
      · exact .format rfl _
  all_goals exact .ok _

theorem Relation.test_dynamic (op : CompOp) (r : Relation) : Dynamic (r.test op) := by
  cases r with
  | ordered o => cases o <;> exact .ok _
  | equality same =>
    cases op with
    | eq | ne => exact .ok _
    | _ => exact .format rfl _

theorem valueCompare_dynamic (op : CompOp) (a b : AtomicValue) : Dynamic (valueCompare op a b) :=
  (a.relate_dynamic b).bind fun r => r.test_dynamic op

theorem generalCompare_dynamic (op : CompOp) (a b : AtomicValue) : Dynamic (generalCompare op a b) := by
  unfold generalCompare
  split
  · exact valueCompare_dynamic op _ _
  · exact (castUntyped_dynamic _ _).bind fun _ => valueCompare_dynamic op _ _
  · exact (castUntyped_dynamic _ _).bind fun _ => valueCompare_dynamic op _ _
  · exact valueCompare_dynamic op _ _

/-! ## Arithmetic -/

section

variable (op : ArithOp)

include op

theorem orOverflow_dynamic (a : Option α) : Dynamic (orOverflow op a) := by
  cases a with
  | some a => exact .ok _
  | none => exact .format rfl _

theorem integerArith_dynamic (x y : Int64) : Dynamic (integerArith op x y) := by
  unfold integerArith
  split
  case h_1 | h_2 | h_3 => exact (orOverflow_dynamic _ _).map _
  all_goals split
  all_goals first
    | exact .format rfl _
    | exact .ok _
    | exact (orOverflow_dynamic _ _).map _
    | exact (orOverflow_dynamic _ _).bind fun _ => (orOverflow_dynamic _ _).map _

theorem checkedMagnitude_dynamic (i : Option Int) : Dynamic (checkedMagnitude op i) := by
  refine (orOverflow_dynamic op i).bind fun i => ?_
  split
  · exact .ok _
  · exact .format rfl _

theorem floatArith_dynamic (x y : Float) (double : Bool) : Dynamic (floatArith op x y double) := by
  unfold floatArith
  split
  · split
    · exact .format rfl _
    · exact (checkedMagnitude_dynamic op _).map _
  · split
    · exact .format rfl _
    · dsimp only
      split
      · exact .ok _
      · split
        · exact .ok _
        · exact .format rfl _

theorem scaleFactor_dynamic (n : AtomicValue) : Dynamic (scaleFactor op n) := by
  unfold scaleFactor
  dsimp only
  split
  · exact .format rfl _
  · split
    · split
      · exact .format rfl _
      · exact .ok _
    · exact .ok _

theorem scaleBy_dynamic (d n : AtomicValue) : Dynamic (scaleBy op d n) := by
  unfold scaleBy
  split
  · exact (scaleFactor_dynamic op n).bind fun _ =>
      (checkedMagnitude_dynamic op _).bind fun _ => (orOverflow_dynamic op _).map _
  · exact (scaleFactor_dynamic op n).bind fun _ => (checkedMagnitude_dynamic op _).map _
  · exact .format rfl _

theorem elapsed_dynamic (s : Int64) : Dynamic (elapsed op s) := by
  unfold elapsed
  split
  · exact .ok _
  · exact .format rfl _

theorem shiftBy_dynamic (a b : AtomicValue) : Dynamic (shiftBy op a b) := by
  unfold shiftBy
  split
  · exact (elapsed_dynamic op _).bind fun _ => (orOverflow_dynamic op _).map _
  · exact (elapsed_dynamic op _).bind fun _ => (orOverflow_dynamic op _).bind fun _ => .ok _
  · exact (elapsed_dynamic op _).bind fun _ => .ok _
  · exact (orOverflow_dynamic op _).map _
  · exact (orOverflow_dynamic op _).map _
  · exact .format rfl _

omit op in
theorem difference_dynamic (x y : Option Calendar.DateTime) : Dynamic (difference x y) :=
  (orOverflow_dynamic _ x).bind fun _ => (orOverflow_dynamic _ y).bind fun _ => .ok _

theorem quotient_dynamic (x y : Int) : Dynamic (quotient op x y) := by
  unfold quotient
  split
  · exact .format rfl _
  · exact .ok _

theorem numericArith_dynamic (a b : AtomicValue) : Dynamic (numericArith op a b) := by
  unfold numericArith
  split
  · exact integerArith_dynamic op _ _
  · exact floatArith_dynamic op _ _ _

theorem arithmetic_dynamic (a b : AtomicValue) : Dynamic (arithmetic op a b) := by
  have hundefined : Dynamic (.error (undefinedOperator op a b) : Except Error AtomicValue) := .format rfl _
  unfold arithmetic
  split
  · exact numericArith_dynamic op a b
  · split
    case h_1 | h_2 | h_3 | h_4 => exact (orOverflow_dynamic _ _).map _
    case h_5 | h_6 => exact quotient_dynamic _ _ _
    case h_7 | h_8 | h_9 => exact difference_dynamic _ _
    case h_10 =>
      split
      · split
        · exact shiftBy_dynamic _ _ _
        · exact shiftBy_dynamic _ _ _
        · split
          · exact shiftBy_dynamic _ _ _
          · exact hundefined
        · exact hundefined
      · exact shiftBy_dynamic _ _ _
    case h_11 => exact shiftBy_dynamic _ _ _
    case h_12 =>
      split
      · exact scaleBy_dynamic _ _ _
      · split
        · exact scaleBy_dynamic _ _ _
        · exact hundefined
    case h_13 =>
      split
      · exact scaleBy_dynamic _ _ _
      · exact hundefined
    case h_14 => exact hundefined

end

theorem negate_dynamic (a : AtomicValue) : Dynamic (negate a) := by
  unfold negate
  split
  · exact (orOverflow_dynamic _ _).map _
  · exact .ok _
  · exact .ok _
  · exact (orOverflow_dynamic _ _).map _
  · exact (orOverflow_dynamic _ _).map _
  · exact .format rfl _

/-- A failure of arithmetic is reported as a type error, or as it is. -/
theorem Dynamic.arithmeticFailure (h : Dynamic r) : Dynamic (r.mapError XPath.arithmeticFailure) := by
  cases r with
  | ok a => exact .ok _
  | error e =>
    refine .error ?_
    unfold XPath.arithmeticFailure
    split
    · rfl
    · rfl
    · exact h e rfl

/-! ## Operands and the focus -/

theorem numericOperand_dynamic (a : AtomicValue) : Dynamic (numericOperand a) := by
  unfold numericOperand
  split
  · exact castUntyped_dynamic _ _
  · exact .ok _

theorem rangeBound_dynamic (a : AtomicValue) : Dynamic (rangeBound a) := by
  unfold rangeBound
  split
  · exact .ok _
  · split
    · exact .ok _
    · exact .format rfl _
  case h_3 | h_4 =>
    split
    · split
      · exact .ok _
      · exact .format rfl _
    · exact .format rfl _
  · exact .format rfl _

theorem optionalBound_dynamic (a : Option AtomicValue) : Dynamic (optionalBound a) := by
  cases a with
  | none => exact .ok _
  | some a => exact (rangeBound_dynamic a).bind fun _ => .ok _

theorem unionNodes_dynamic : ∀ items : List Item, Dynamic (unionNodes items)
  | [] => .ok _
  | .node _ :: rest => (unionNodes_dynamic rest).bind fun _ => .ok _
  | .atomic _ :: _ => .format rfl _

theorem Focus.root_dynamic (focus : Focus) : Dynamic focus.root := by
  unfold Focus.root
  split
  · exact .ok _
  · exact .format rfl _
  · exact .format rfl _

theorem Focus.requireItem_dynamic (focus : Focus) : Dynamic focus.requireItem := by
  unfold Focus.requireItem
  split
  · exact .ok _
  · exact .format rfl _

end XPath
