import XPath.Proofs.Doubles

/-!
# Comparisons are coherent

Reading a comparison from the other side gives the same answer, and the six operators fit together as they do for
an order in which only NaN stands apart (`comparisons_coherent`).
-/

namespace XPath

/-! ## Both sides -/

/-- The operator that asks the same of the operands in the other order. -/
def CompOp.mirror : CompOp → CompOp
  | eq => eq
  | ne => ne
  | lt => gt
  | le => ge
  | gt => lt
  | ge => le

def Relation.mirror : Relation → Relation
  | ordered o => ordered (o.map Ordering.swap)
  | equality same => equality same

/-- One truth value, or errors of one code. -/
inductive SameOutcome : Except Error Bool → Except Error Bool → Prop
  | ok (v : Bool) : SameOutcome (.ok v) (.ok v)
  | error {e e' : Error} (code : e.code = e'.code) : SameOutcome (.error e) (.error e')

theorem SameOutcome.format (code : ErrorCode) (args args' : List String) :
    SameOutcome (.error (.format code args)) (.error (.format code args')) :=
  @SameOutcome.error (.format code args) (.format code args') rfl

theorem Relation.test_mirror (op : CompOp) (r : Relation) : SameOutcome (r.test op) (r.mirror.test op.mirror) := by
  match r with
  | ordered (some o) => cases o <;> cases op <;> exact .ok _
  | ordered none => cases op <;> exact .ok _
  | equality same =>
    cases op with
    | eq | ne => exact .ok _
    | lt | le | gt | ge => exact .format ..

/-! ## Values -/

theorem Calendar.Moment.compare_swap (x y : Calendar.Moment) : y.compare x = (x.compare y).swap := by
  simp only [Calendar.Moment.compare, Ordering.swap_then, ← @Std.OrientedCmp.eq_swap Int,
    ← @Std.OrientedCmp.eq_swap Nat]

theorem compareInstants_swap (x y : Option Calendar.DateTime) : compareInstants y x = (compareInstants x y).swap := by
  cases x <;> cases y <;> try rfl
  exact Calendar.Moment.compare_swap _ _

namespace AtomicValue

variable {a b : AtomicValue} {o o' : Ordering} {r : Relation}

def isNaN : AtomicValue → Bool
  | decimal x | double x => x.isNaN
  | _ => false

/-- Two values are related alike from both sides, and are without an order only where one is NaN. -/
structure RelatesBy (a b : AtomicValue) (r : Relation) : Prop where
  forth : a.relate b = .ok r
  back : b.relate a = .ok r.mirror
  unordered : r = .ordered none ↔ a.isNaN ∨ b.isNaN

def Comparable (a b : AtomicValue) : Prop :=
  ∃ r, RelatesBy a b r

theorem Comparable.ofOrdering (forth : a.relate b = .ok (.ordered (some o)))
    (back : b.relate a = .ok (.ordered (some o'))) (swap : o' = o.swap) (ha : a.isNaN = false)
    (hb : b.isNaN = false) : Comparable a b :=
  ⟨_, forth, by rw [back, swap]; rfl, by simp [ha, hb]⟩

theorem Comparable.ofFloats {x y : Float} (forth : a.relate b = .ok (.ordered (compareFloats x y)))
    (back : b.relate a = .ok (.ordered (compareFloats y x))) (ha : x.isNaN = a.isNaN) (hb : y.isNaN = b.isNaN) :
    Comparable a b :=
  ⟨_, forth, by rw [back, compareFloats_swap]; rfl, by rw [Relation.ordered.injEq, compareFloats_eq_none_iff, ha, hb]⟩

theorem Comparable.ofEquality {same : Bool} (forth : a.relate b = .ok (.equality same))
    (back : b.relate a = .ok (.equality same)) (ha : a.isNaN = false) (hb : b.isNaN = false) : Comparable a b :=
  ⟨_, forth, back, by simp [ha, hb]⟩

/-- Two values are comparable, or refused from both sides with one code. -/
theorem comparable_or_error (a b : AtomicValue) : Comparable a b ∨
    ∃ args args', a.relate b = .error (.format .XPTY0004 args) ∧ b.relate a = .error (.format .XPTY0004 args') := by
  cases a <;> cases b <;> try exact .inr ⟨_, _, rfl, rfl⟩
  all_goals left
  case integer.integer | boolean.boolean | yearMonthDuration.yearMonthDuration | dayTimeDuration.dayTimeDuration |
      string.string | string.untypedAtomic | string.anyURI | untypedAtomic.string | untypedAtomic.untypedAtomic |
      untypedAtomic.anyURI | anyURI.string | anyURI.untypedAtomic | anyURI.anyURI =>
    exact .ofOrdering rfl rfl Std.OrientedCmp.eq_swap rfl rfl
  case dateTime.dateTime => exact .ofOrdering rfl rfl (Calendar.Moment.compare_swap _ _) rfl rfl
  case date.date | time.time => exact .ofOrdering rfl rfl (compareInstants_swap _ _) rfl rfl
  case yearMonthDuration.dayTimeDuration | dayTimeDuration.yearMonthDuration => exact .ofEquality rfl rfl rfl rfl
  case qname.qname p q =>
    refine .ofEquality rfl ?_ rfl rfl
    simp only [relate, @BEq.comm _ _ _ q.uri, @BEq.comm _ _ _ q.localName]
  case decimal.decimal | decimal.double | double.decimal | double.double => exact .ofFloats rfl rfl rfl rfl
  case integer.decimal | integer.double => exact .ofFloats rfl rfl (isNaN_ofInt _) rfl
  case decimal.integer | double.integer => exact .ofFloats rfl rfl rfl (isNaN_ofInt _)

end AtomicValue

/-! ## Operators -/

/-- How the answers of the six operators fit together: as for one order, in which less, equal and greater all fail
only if the operands are unordered. -/
structure Coherent (answer : CompOp → Except Error Bool) (unordered : Bool) : Prop where
  ne : ∀ v, answer .ne = .ok v ↔ answer .eq = .ok !v
  le : ∀ v, answer .le = .ok v ↔ ∃ less same, answer .lt = .ok less ∧ answer .eq = .ok same ∧ v = (less || same)
  ge : ∀ v, answer .ge = .ok v ↔ ∃ more same, answer .gt = .ok more ∧ answer .eq = .ok same ∧ v = (more || same)
  lt : ∀ less, answer .lt = .ok less → ∃ same more, answer .eq = .ok same ∧ answer .gt = .ok more ∧
    [less, same, more].count true = if unordered then 0 else 1

theorem Coherent.ofErrors {answer : CompOp → Except Error Bool} {unordered : Bool}
    (h : ∀ op, ∃ e, answer op = .error e) : Coherent answer unordered := by
  have hne : ∀ op v, answer op ≠ .ok v := fun op v hv => by
    obtain ⟨e, he⟩ := h op
    cases he.symm.trans hv
  exact ⟨fun v => iff_of_false (hne _ _) (hne _ _), fun v => iff_of_false (hne _ _) fun ⟨_, _, hlt, _⟩ => hne _ _ hlt,
    fun v => iff_of_false (hne _ _) fun ⟨_, _, hgt, _⟩ => hne _ _ hgt, fun v hv => absurd hv (hne _ _)⟩

theorem Relation.coherent {r : Relation} {unordered : Bool} (h : r = .ordered none ↔ unordered = true) :
    Coherent (r.test ·) unordered := by
  match r with
  | ordered none =>
    obtain rfl : unordered = true := h.1 rfl
    constructor <;> simp [test]
  | ordered (some o) =>
    obtain rfl : unordered = false := by simpa using h
    cases o <;> constructor <;> simp [test, CompOp.holds]
  | equality same =>
    constructor <;> simp [test]

theorem valueCompare_eq (op : CompOp) {a b : AtomicValue} {r : Relation} (h : a.relate b = .ok r) :
    valueCompare op a b = r.test op := by
  rw [valueCompare, h]
  rfl

theorem valueCompare_of_error (op : CompOp) {a b : AtomicValue} {e : Error} (h : a.relate b = .error e) :
    valueCompare op a b = .error e := by
  rw [valueCompare, h]
  rfl

theorem valueCompare_mirror (op : CompOp) (a b : AtomicValue) :
    SameOutcome (valueCompare op a b) (valueCompare op.mirror b a) := by
  obtain ⟨r, h⟩ | ⟨args, args', h, h'⟩ := a.comparable_or_error b
  · rw [valueCompare_eq op h.forth, valueCompare_eq op.mirror h.back]
    exact r.test_mirror op
  · rw [valueCompare_of_error op h, valueCompare_of_error op.mirror h']
    exact .format ..

theorem valueCompare_coherent (a b : AtomicValue) : Coherent (valueCompare · a b) (a.isNaN || b.isNaN) := by
  obtain ⟨r, h⟩ | ⟨args, args', h, -⟩ := a.comparable_or_error b
  · simp only [valueCompare_eq _ h.forth]
    exact Relation.coherent (by rw [h.unordered, Bool.or_eq_true])
  · exact .ofErrors fun op => ⟨_, valueCompare_of_error op h⟩

/-! ## General comparison -/

/-- The value as it is compared with another one: untyped text takes on the other's type. -/
def AtomicValue.facing (a b : AtomicValue) : Except Error AtomicValue :=
  match a, b with
  | .untypedAtomic _, .untypedAtomic _ => .ok a
  | .untypedAtomic s, b => castUntyped s b.type
  | a, _ => .ok a

/-- One of the values that are compared in the end is NaN. -/
def AtomicValue.unorderedFacing (a b : AtomicValue) : Bool :=
  match a.facing b, b.facing a with
  | .ok x, .ok y => x.isNaN || y.isNaN
  | _, _ => false

theorem generalCompare_eq (op : CompOp) (a b : AtomicValue) :
    generalCompare op a b = (do valueCompare op (← a.facing b) (← b.facing a)) := by
  cases a <;> cases b <;> rfl

/-- At most one of the two is cast. -/
theorem AtomicValue.facing_eq_self (a b : AtomicValue) : a.facing b = .ok a ∨ b.facing a = .ok b := by
  cases a with
  | untypedAtomic s => cases b <;> exact .inr rfl
  | _ => exact .inl rfl

/-- What is compared in the end are two values, unless the cast fails. -/
theorem generalCompare_cases (a b : AtomicValue) : (∃ x y, a.facing b = .ok x ∧ b.facing a = .ok y ∧
      ∀ op, generalCompare op a b = valueCompare op x y ∧ generalCompare op b a = valueCompare op y x) ∨
    ∃ e, ∀ op, generalCompare op a b = .error e ∧ generalCompare op b a = .error e := by
  simp only [generalCompare_eq]
  cases hx : a.facing b with
  | error e =>
    have hy := (a.facing_eq_self b).resolve_left (by rw [hx]; nofun)
    exact .inr ⟨e, fun op => ⟨rfl, by rw [hy]; rfl⟩⟩
  | ok x =>
    cases hy : b.facing a with
    | error e => exact .inr ⟨e, fun op => ⟨rfl, rfl⟩⟩
    | ok y => exact .inl ⟨x, y, rfl, rfl, fun op => ⟨rfl, rfl⟩⟩

/-- Comparisons do not depend on the side from which they are read, and their operators fit together. -/
theorem comparisons_coherent (a b : AtomicValue) :
    (∀ op, SameOutcome (valueCompare op a b) (valueCompare op.mirror b a)) ∧
    (∀ op, SameOutcome (generalCompare op a b) (generalCompare op.mirror b a)) ∧
    Coherent (valueCompare · a b) (a.isNaN || b.isNaN) ∧
    Coherent (generalCompare · a b) (a.unorderedFacing b) := by
  refine ⟨fun op => valueCompare_mirror op a b, ?_, valueCompare_coherent a b, ?_⟩
  · intro op
    obtain ⟨x, y, -, -, h⟩ | ⟨e, h⟩ := generalCompare_cases a b
    · rw [(h op).1, (h op.mirror).2]
      exact valueCompare_mirror op x y
    · rw [(h op).1, (h op.mirror).2]
      exact .error rfl
  · obtain ⟨x, y, hx, hy, h⟩ | ⟨e, h⟩ := generalCompare_cases a b
    · have hnan : a.unorderedFacing b = (x.isNaN || y.isNaN) := by
        rw [AtomicValue.unorderedFacing, hx, hy]
      simp only [fun op => (h op).1, hnan]
      exact valueCompare_coherent x y
    · exact .ofErrors fun op => ⟨e, (h op).1⟩

theorem comparisons_coherent_nan :
    valueCompare .lt (.double Decimal.nan) (.integer 1) = .ok false ∧
      ∃ same more, valueCompare .eq (.double Decimal.nan) (.integer 1) = .ok same ∧
        valueCompare .gt (.double Decimal.nan) (.integer 1) = .ok more ∧ [false, same, more].count true = 0 := by
  have hlt : valueCompare .lt (.double Decimal.nan) (.integer 1) = .ok false := by rfl
  obtain ⟨same, more, heq, hgt, hcount⟩ :=
    (comparisons_coherent (.double Decimal.nan) (.integer 1)).2.2.1.lt false hlt
  have hnan : (AtomicValue.double Decimal.nan).isNaN = true := by rfl
  rw [hnan] at hcount
  exact ⟨hlt, same, more, heq, hgt, hcount⟩

end XPath
