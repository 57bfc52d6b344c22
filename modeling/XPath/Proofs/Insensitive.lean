import XPath.Proofs.Keepers
import XPath.Proofs.Refinement

/-!
# Expressions that do not depend on the focus

An expression that is not marked as depending on the focus has the same value with every focus, if the
functions that are not flagged ignore theirs (`Program.Honest.read_eq`). So a predicate that is not marked
makes the same selection at every item, and a cursor may keep the first one.

To say that keeping it makes no difference, `Program.reevaluating` marks all predicates, so that each of
them is evaluated at every item. A query has the same results with these marks. The two programs are
compared in environments, where evaluating a predicate leaves no trace. Evaluating anew can only need more
depth: whenever it gets to the end, keeping the selections does so at the same depth. The other way round
the depth that is needed is found level by level, since a predicate is evaluated below the pull that asks
for it.
-/

namespace XPath

open Option

variable {c : StaticContext} {x : Except Error Selection} {q : Query} {C : Terms} {e : ExprId}
  {n n' bound depth : Nat} {s s' : Store} {σ : Slots}

/-! ## What the marks promise -/

/-- The marks of a program are right, and its functions keep to their flags. -/
structure Program.Honest (p : Program) : Prop where
  marked : ∀ e, p.MarkedAt e
  calls : ∀ e name f, p.form? e = some (.call name (some f)) → f.Honest

theorem Compiled.honest {x : Expr} (hq : compile c x = .ok q) (hf : ∀ f, c.Callable f → f.Honest) :
    q.program.Honest where
  marked := marked_of_compile hq
  calls := by
    intro e name f hform
    have hcompiled := compiled_of_compile hq
    have hcallable : q.program.static.Callable f := hcompiled.filled e _ hform
    rw [hcompiled.static] at hcallable
    exact hf f hcallable

theorem Program.Honest.focusless {p : Program} (h : p.Honest) (hform : ∀ e, C.left.form? e = p.form? e)
    (hchildren : ∀ e, C.left.children e = p.children e)
    (hfree : ∀ e, C.free e ↔ p.isContextSensitive e = false) : C.Focusless := by
  have hdepends : ∀ e, C.free e → p.dependsOnFocus e = false := fun e he =>
    (h.marked e).symm.trans ((hfree e).mp he)
  refine ⟨?_, ?_, ?_, ?_, ?_⟩
  · intro e he
    have hfalse := hdepends e he
    rw [hform]
    constructor
    all_goals
      intro hown
      unfold Program.dependsOnFocus at hfalse
      rw [hown] at hfalse
      cases hfalse
  · intro e plan he hpath
    have hfalse := hdepends e he
    rw [hform] at hpath
    unfold Program.dependsOnFocus at hfalse
    rw [hpath] at hfalse
    cases hstart : plan.start with
    | context | root => simp [hstart] at hfalse
    | expr x =>
      simp only [hstart] at hfalse
      exact ⟨x, rfl, (hfree x).mpr hfalse⟩
  · intro e steps c he hfilter hc
    have hfalse := hdepends e he
    rw [hform] at hfilter
    rw [hchildren, ← List.head?_eq_getElem?] at hc
    unfold Program.dependsOnFocus at hfalse
    rw [hfilter] at hfalse
    simp only [hc, any_some] at hfalse
    exact (hfree c).mpr hfalse
  · intro e name f he hcall
    have hfalse := hdepends e he
    rw [hform] at hcall
    unfold Program.dependsOnFocus at hfalse
    rw [hcall] at hfalse
    simp only [any_some, Bool.or_eq_false_iff] at hfalse
    exact h.calls e name f hcall hfalse.1
  · intro e form he hown hpath hfilter c hc
    have hfalse := hdepends e he
    rw [hform] at hown
    rw [hchildren] at hc
    have hany : (p.children e).any p.isContextSensitive = false := by
      unfold Program.dependsOnFocus at hfalse
      rw [hown] at hfalse
      cases form with
      | contextItem | root => cases hfalse
      | path plan => exact absurd rfl (hpath plan)
      | filter steps => exact absurd rfl (hfilter steps)
      | call name function =>
        simp only [Bool.or_eq_false_iff] at hfalse
        exact hfalse.2
      | _ => exact hfalse
    rw [List.any_eq_false] at hany
    exact (hfree c).mpr (Bool.not_eq_true _ ▸ hany c hc)

/-! ## One expression, two foci -/

section

variable {p : Program}

/-- The terms on which one expression is executed with two foci. -/
def Terms.anyFocus (p : Program) : Terms :=
  .alone p (fun _ => True) (fun e => p.isContextSensitive e = false) false False fun _ _ _ _ => False

theorem Program.Honest.steady (h : p.Honest) : Steady (.anyFocus p) False (fun _ => .inSlots) Eq where
  pred := by
    intro n n' hn
    exact Nat.succ.inj hn
  fuelLe := fun _ _ hn => .inl hn
  atomics := fun _ => trivial
  docWise := fun _ _ _ _ => trivial
  parallel := Terms.parallel_alone fun _ h => h
  keeping := Terms.keeping_alone False _ Eq
  calls := fun _ _ _ _ => .level (fun _ => Script.sound_true _) id
  focusless := h.focusless (fun _ => rfl) (fun _ => rfl) fun _ => Iff.rfl
  pairs := fun _ _ _ _ _ _ _ _ _ hpair => hpair.elim
  kept := Terms.OnSlots.kept ⟨rfl, fun _ _ h => h⟩

/-- The focus makes no difference to the value of an expression that is not marked, nor to what its
evaluation leaves in the slots. -/
theorem Program.Honest.read_eq (h : p.Honest) (he : p.isContextSensitive e = false) (fuel : Nat)
    (focus focus' : Focus) (s : Store) : (((machine fuel p).read e focus) s).map (fun r => (r.1, r.2.slots)) =
      (((machine fuel p).read e focus') s).map (fun r => (r.1, r.2.slots)) := by
  have hst : Abreast (.anyFocus p) none (fun _ _ => True) s s :=
    ⟨fun _ => rfl, nofun, fun _ _ _ _ _ => trivial, trivial⟩
  have hread := h.steady.read (rfl : fuel = fuel) rfl Envs.level_none (rfl : e = e)
    (fun hfree => absurd he hfree : FociFor (.anyFocus p) _ none e focus focus') hst
  exact hread.outcome_eq fun _ _ hst => hst.shared rfl

end

/-! ## Programs with more marks -/

/-- The right program has more marks than the left one, but not on the bodies of loops. -/
structure Raised (p q : Program) : Prop where
  static : q.static = p.static
  form : ∀ e, q.form? e = p.form? e
  children : ∀ e, q.children e = p.children e
  names : q.variableNames = p.variableNames
  marks : ∀ e, p.isContextSensitive e = true → q.isContextSensitive e = true
  bodies : ∀ e name b body, p.form? e = some (.forEach name b) → (p.children e)[1]? = some body →
    q.isContextSensitive body = p.isContextSensitive body

theorem Raised.refl (p : Program) : Raised p p :=
  ⟨rfl, fun _ => rfl, fun _ => rfl, rfl, fun _ h => h, fun _ _ _ _ _ _ => rfl⟩

/-- What is kept on both sides, or only where there are fewer marks. -/
theorem Raised.kept {p q : Program} (h : Raised p q) (e : ExprId) (sel : Selection) : q.kept e sel = p.kept e sel ∨
      p.isContextSensitive e = false ∧ q.kept e sel = none ∧ p.kept e sel = some sel := by
  unfold Program.kept
  cases hp : p.isContextSensitive e with
  | true =>
    rw [h.marks e hp]
    exact .inl rfl
  | false =>
    cases q.isContextSensitive e with
    | true => exact .inr ⟨rfl, rfl, rfl⟩
    | false => exact .inl rfl

/-- A program in which a predicate that is not marked keeps its selection. -/
theorem Program.kept_of_insensitive {p : Program} (he : p.isContextSensitive e = false) (sel : Selection) :
    p.kept e sel = some sel := by
  unfold Program.kept
  rw [he]
  rfl

/-- The terms on which programs are compared that differ from `p` in their marks. -/
def Terms.remarked (p l r : Program)
    (keeps : Option Slots → ExprId → ExprId → Option Selection → Option Selection → Prop) : Terms :=
  ⟨l, r, fun _ => True, Eq, Eq, keeps, fun e => p.isContextSensitive e = false, true, False,
    fun _ _ _ _ => False, Eq⟩

section

variable {p l r : Program}
  {keeps : Option Slots → ExprId → ExprId → Option Selection → Option Selection → Prop}
  {deep : Nat → Nat → Prop}

theorem Terms.parallel_remarked (hl : Raised p l) (hr : Raised p r) : (Terms.remarked p l r keeps).Parallel where
  settings := congrArg StaticContext.settings (hl.static.trans hr.static.symm)
  form := by
    rintro e _ rfl
    have hsame : l.form? e = r.form? e := (hl.form e).trans (hr.form e).symm
    unfold Terms.remarked
    rw [hsame]
    exact .refl (.refl (fun _ => rfl) fun _ => rfl) _
  children := by
    rintro e _ rfl
    have hsame : l.children e = r.children e := (hl.children e).trans (hr.children e).symm
    unfold Terms.remarked
    rw [hsame]
    exact .refl fun _ _ _ => rfl
  loops := by
    rintro e _ name b body body' rfl hform hbody hbody'
    change l.form? e = some (.forEach name b) at hform
    change (l.children e)[1]? = some body at hbody
    change (r.children e)[1]? = some body' at hbody'
    rw [hl.form] at hform
    rw [hl.children] at hbody
    rw [hr.children] at hbody'
    cases hbody.symm.trans hbody'
    have hleft := hl.bodies e name b body hform hbody
    have hright := hr.bodies e name b body hform hbody
    exact ⟨hleft.trans hright.symm, fun hfree => hleft.trans hfree⟩

theorem Raised.cell_eq (hl : Raised p l) (hr : Raised p r) (name : ExpandedName) : l.cell name = r.cell name :=
  congrArg (List.idxOf name) (hl.names.trans hr.names.symm)

theorem Terms.lexical_remarked (hl : Raised p l) (hr : Raised p r) : (Terms.remarked p l r keeps).Lexical where
  pinned := rfl
  lookup := by
    rintro name σ _ rfl
    exact congrArg σ.get? (hl.cell_eq hr name)
  extend := by
    rintro b _ σ _ item rfl rfl
    exact congrArg (σ.set · [item]) (hl.cell_eq hr b.name)
  pairs := fun _ _ _ _ _ _ _ h => h

theorem Program.Honest.steady_remarked (h : p.Honest)
    (hgrows : ∀ e name f, p.form? e = some (.call name (some f)) → f.Grows) (hl : Raised p l)
    (hr : Raised p r) (hpred : ∀ n n', deep (n + 1) (n' + 1) → deep n n') (hle : ∀ n n', deep n n' → n ≤ n')
    (hkeeping : (Terms.remarked p l r keeps).Keeping True Variables.lexical deep) :
    Steady (.remarked p l r keeps) True Variables.lexical deep where
  pred := hpred
  fuelLe := fun n n' hn => .inr ⟨trivial, hle n n' hn⟩
  atomics := fun _ => trivial
  docWise := fun _ _ _ _ => trivial
  parallel := Terms.parallel_remarked hl hr
  keeping := hkeeping
  calls := by
    intro e name f hform
    change l.form? e = some (.call name (some f)) at hform
    rw [hl.form] at hform
    exact .deeper (fun _ => Script.sound_true _) (hgrows e name f hform) False.elim
  focusless := h.focusless hl.form hl.children fun _ => Iff.rfl
  pairs := fun _ _ _ _ _ _ _ _ _ hpair => hpair.elim
  kept := (Terms.lexical_remarked hl hr).kept

/-! ## Selections that are made again -/

/-- The predicate makes this selection in the environment, at some depth up to a bound. -/
def Program.Selects (p : Program) (bound : Nat) (σ : Slots) (e : ExprId) (sel : Selection) : Prop :=
  ∃ n ≤ bound, ∃ c s s', s.slots = σ ∧
    (machineWith Variables.lexical n p).selection e c s = some (.ok sel, s')

/-- What a comparison of two such programs rests on. -/
structure Program.Reliable (p : Program) : Prop where
  honest : p.Honest
  grows : ∀ e name f, p.form? e = some (.call name (some f)) → f.Grows

/-- A program at two depths. -/
theorem Program.Reliable.deeper (h : p.Reliable) (hl : Raised p l) :
    Steady (.remarked p l l fun _ _ _ => Eq) True Variables.lexical (· ≤ ·) :=
  h.honest.steady_remarked h.grows hl hl (fun _ _ => Nat.le_of_succ_le_succ) (fun _ _ h => h)
    (Terms.keeping_alone True _ _)

/-- Evaluating a predicate that is not marked, at two depths and two items. Of the group sizes one side is
known to keep its own. -/
theorem Steady.selection_free (hs : Steady C True Variables.lexical deep) (hpinned : C.pinned = true)
    (hn : deep n n') (htwin : C.twin e e') (hfree : C.free e) {c d : Cursor}
    (hslots : s.slots = t.slots) (hlevel : C.level s.slots s.slots) (hsound : s.slots.Sound C.Ok)
    (sizes : Option Nat → Option Nat → Prop) (hsizes : sizes s.groupSize t.groupSize)
    (hrun : (machineWith Variables.lexical n C.left).selection e c s = some (x, s')) :
    ∃ t', (machineWith Variables.lexical n' C.right).selection e' d t = some (x, t') ∧
      s'.slots = s.slots ∧ t'.slots = t.slots ∧ sizes s'.groupSize t'.groupSize := by
  have hst : Abreast C (some (s.slots, s.slots)) sizes s t := .inEnvironment rfl hslots.symm hsound hsizes
  have henv : (some (s.slots, s.slots)).isSome = C.pinned := hpinned.symm
  have hselect := selection_steady (hs.steady hn) henv (Envs.level_some hlevel) htwin
    (fun h => absurd hfree h : FociFor C sizes _ e (.current c) (.current d)) hst
  obtain ⟨t', hrun', hst'⟩ := hselect.ends_same hrun
  obtain ⟨hleft, hright⟩ := hst'.pinned _ _ rfl
  exact ⟨t', hrun', hleft, hright.trans hslots, hst'.sizes⟩

/-- A selection that a predicate makes it makes everywhere in the environment, and evaluating it leaves
nothing behind. -/
theorem Program.Reliable.select_same (h : p.Reliable) (hl : Raised p l) (he : p.isContextSensitive e = false)
    (hsel : l.Selects bound σ e sel) {c : Cursor} (hs : s.slots = σ)
    (hrun : (machineWith Variables.lexical n l).selection e c s = some (x, s')) :
    x = .ok sel ∧ s'.slots = s.slots ∧ s'.groupSize = s.groupSize := by
  obtain ⟨k, -, d, t, t', ht, hrun'⟩ := hsel
  rcases Nat.le_total n k with hnk | hkn
  · obtain ⟨t'', hx, hslots, -, hsize⟩ := (h.deeper hl).selection_free rfl hnk (rfl : e = e) he
      (hs.trans ht.symm) rfl (fun _ _ _ _ _ => trivial)
      (fun a _ => a = s.groupSize) rfl hrun
    obtain ⟨rfl, -⟩ := Prod.mk.inj (some.inj (hrun'.symm.trans hx))
    exact ⟨rfl, hslots, hsize⟩
  · obtain ⟨s'', hx, -, hslots, hsize⟩ := (h.deeper hl).selection_free rfl hkn (rfl : e = e) he
      (ht.trans hs.symm) rfl (fun _ _ _ _ _ => trivial)
      (fun _ b => b = s.groupSize) rfl hrun'
    obtain ⟨rfl, rfl⟩ := Prod.mk.inj (some.inj (hrun.symm.trans hx))
    exact ⟨rfl, hslots, hsize⟩

/-! ## Evaluating anew beside keeping -/

/-- The left side may have kept nothing where the right side has kept a selection. -/
def KeptRight (p l : Program) (env : Option Slots) (e _ : ExprId) (a b : Option Selection) : Prop :=
  a = b ∨ a = none ∧ p.isContextSensitive e = false ∧
    ∃ σ sel bound, env = some σ ∧ b = some sel ∧ l.Selects bound σ e sel

theorem Program.Reliable.keeping_right (h : p.Reliable) (hl : Raised p l) :
    (Terms.remarked p l p (KeptRight p l)).Keeping True Variables.lexical Eq where
  start := fun _ _ _ _ => .inl rfl
  same := by
    rintro env e _ a b (hab | ⟨hnone, -⟩)
    · exact some.inj hab
    · cases hnone
  learn := by
    rintro n n' env e _ c s sel s' - henv rfl hfixes hrun
    rcases hl.kept e sel with hsame | ⟨he, hnone, hsome⟩
    · exact .inl hsame
    · obtain ⟨σ, rfl⟩ := isSome_iff_exists.mp henv
      exact .inr ⟨hnone, he, σ, sel, n, rfl, hsome, n, .refl, c, s, s', hfixes σ rfl, hrun⟩
  left := by
    rintro n n' env e e' sel c s - (hab | ⟨-, he, σ, sel', bound, rfl, hsel', hknown⟩) hfixes
    · cases hab
    cases hsel'
    refine ⟨trivial, ?_⟩
    intro x s' hrun
    obtain ⟨rfl, hslots, hsize⟩ := h.select_same hl he hknown (hfixes σ rfl) hrun
    refine ⟨rfl, hslots, hsize, ?_⟩
    rcases hl.kept e sel with hsame | ⟨-, hnone, -⟩
    · exact .inl (hsame.trans (Program.kept_of_insensitive he sel))
    · exact .inr ⟨hnone, he, σ, sel, bound, rfl, rfl, hknown⟩
  right := by
    rintro n n' env e e' sel d t - - (hab | ⟨hnone, -⟩) -
    · cases hab
    · cases hnone

/-- The right side makes a selection again that the left one has kept, if it has so much depth. -/
def Repeats (p r : Program) (bound depth : Nat) : Prop :=
  ∀ {σ : Slots} {e : ExprId} {sel : Selection}, p.isContextSensitive e = false → p.Selects bound σ e sel →
    ∀ n ≥ depth, ∀ d t, t.slots = σ →
      ∃ t', (machineWith Variables.lexical n r).selection e d t = some (.ok sel, t') ∧
        t'.slots = t.slots ∧ t'.groupSize = t.groupSize

/-- The right side may have kept nothing where the left side has kept a selection. -/
def KeptLeft (p : Program) (bound : Nat) (env : Option Slots) (e _ : ExprId) (a b : Option Selection) : Prop :=
  a = b ∨ b = none ∧ p.isContextSensitive e = false ∧
    ∃ σ sel, env = some σ ∧ a = some sel ∧ p.Selects bound σ e sel

theorem Repeats.keeping_left (hr : Raised p r) (h : Repeats p r bound depth) :
    (Terms.remarked p p r (KeptLeft p bound)).Keeping True Variables.lexical
      fun n n' => n ≤ bound + 1 ∧ depth + n ≤ n' where
  start := fun _ _ _ _ => .inl rfl
  same := by
    rintro env e _ a b (hab | ⟨hnone, -⟩)
    · exact some.inj hab
    · cases hnone
  learn := by
    rintro n n' env e _ c s sel s' hn henv rfl hfixes hrun
    rcases hr.kept e sel with hsame | ⟨he, hnone, hsome⟩
    · exact .inl hsame.symm
    · obtain ⟨σ, rfl⟩ := isSome_iff_exists.mp henv
      refine .inr ⟨hnone, he, σ, sel, rfl, hsome, n, ?_, c, s, s', hfixes σ rfl, hrun⟩
      exact Nat.le_of_succ_le_succ hn.1
  left := by
    rintro n n' env e e' sel c s - (hab | ⟨hnone, -⟩) -
    · cases hab
    · cases hnone
  right := by
    rintro n n' env e _ sel d t hn rfl (hab | ⟨-, he, σ, sel', rfl, hsel', hknown⟩) hfixes
    · cases hab
    cases hsel'
    obtain ⟨t', hrun, hslots, hsize⟩ := h he hknown n' (by omega) d t (hfixes σ rfl).symm
    refine ⟨t', hrun, hslots, hsize, ?_⟩
    rcases hr.kept e sel with hsame | ⟨-, hnone, -⟩
    · exact .inl ((Program.kept_of_insensitive he sel).symm.trans hsame.symm)
    · exact .inr ⟨hnone, he, σ, sel, rfl, rfl, hknown⟩

theorem Program.Reliable.steady_left (h : p.Reliable) (hr : Raised p r) (hrepeats : Repeats p r bound depth) :
    Steady (.remarked p p r (KeptLeft p bound)) True Variables.lexical
      fun n n' => n ≤ bound + 1 ∧ depth + n ≤ n' := by
  refine h.honest.steady_remarked h.grows (.refl p) hr ?_ ?_ (hrepeats.keeping_left hr)
  · intro n n' hn
    omega
  · intro n n' hn
    omega

/-- One more level of depth on the left needs so much more on the right. -/
theorem Program.Reliable.exists_repeats (h : p.Reliable) (hr : Raised p r) (bound : Nat) :
    ∃ depth, Repeats p r bound depth := by
  induction bound with
  | zero =>
    refine ⟨0, ?_⟩
    rintro σ e sel - ⟨n, hn, c, s, s', -, hrun⟩
    rw [Nat.le_zero.mp hn] at hrun
    cases hrun
  | succ bound ih =>
    obtain ⟨depth, hrepeats⟩ := ih
    refine ⟨depth + bound + 1, ?_⟩
    rintro σ e sel he ⟨n, hn, c, s, s', hs, hrun⟩ n' hn' d t ht
    have hdeep : n ≤ bound + 1 ∧ depth + n ≤ n' := by omega
    obtain ⟨t', hrun', -, hslots, hsize⟩ := (h.steady_left hr hrepeats).selection_free rfl hdeep
      (rfl : e = e) he (hs.trans ht.symm) rfl (fun _ _ _ _ _ => trivial)
      (fun _ b => b = t.groupSize) rfl hrun
    exact ⟨t', hrun', hslots, hsize⟩

theorem Steady.value_remarked (hs : Steady (.remarked p l r keeps) True Variables.lexical deep)
    (hn : deep n n') {x : Except Error (List Item)}
    (hx : ((lexicalMachine n l).read e (.fixed focus) (.ofSlots σ)).map (·.1) = some x) :
    ((lexicalMachine n' r).read e (.fixed focus) (.ofSlots σ)).map (·.1) = some x := by
  obtain ⟨⟨_, s'⟩, hrun, rfl⟩ := map_eq_some_iff.mp hx
  have hst : Abreast (.remarked p l r keeps) (some (σ, σ)) Eq (.ofSlots σ) (.ofSlots σ) :=
    .inEnvironment rfl rfl (fun _ _ _ _ _ => trivial) rfl
  have hfoci : FociFor (.remarked p l r keeps) Eq (some (σ, σ)) e (.fixed focus) (.fixed focus) :=
    fun _ => .fixed fun _ _ => trivial
  obtain ⟨t', hrun', -⟩ :=
    (hs.read hn rfl (Envs.level_some rfl) (rfl : e = e) hfoci hst).ends_same hrun
  exact congrArg (Option.map (·.1)) hrun'

/-- An expression has a value with one program if it has it with the other. -/
theorem Program.Reliable.read_iff (h : p.Reliable) (hr : Raised p r) (e : ExprId) (focus : Snapshot)
    (σ : Slots) (x : Except Error (List Item)) :
    (∃ n, ((lexicalMachine n p).read e (.fixed focus) (.ofSlots σ)).map (·.1) = some x) ↔
      ∃ n, ((lexicalMachine n r).read e (.fixed focus) (.ofSlots σ)).map (·.1) = some x := by
  constructor
  · rintro ⟨n, hx⟩
    obtain ⟨depth, hrepeats⟩ := h.exists_repeats hr n
    exact ⟨depth + n, (h.steady_left hr hrepeats).value_remarked ⟨Nat.le_succ n, .refl⟩ hx⟩
  · rintro ⟨n, hx⟩
    have hsteady := h.honest.steady_remarked h.grows hr (.refl p) (fun _ _ => Nat.succ.inj)
      (fun _ _ => Nat.le_of_eq) (h.keeping_right hr)
    exact ⟨n, hsteady.value_remarked rfl hx⟩

end

/-! ## Queries that evaluate every predicate at every item -/

def Form.steps : Form → List Step
  | .path plan => plan.steps
  | .filter steps => steps
  | _ => []

def Program.isPredicate (p : Program) (e : ExprId) : Bool :=
  p.nodes.any fun node => decide (Step.predicate e ∈ node.form.steps)

/-- The program with every predicate marked as depending on the focus, so that none is kept. -/
def Program.reevaluating (p : Program) : Program :=
  { p with nodes := p.nodes.mapIdx fun e node =>
      { node with contextSensitive := node.contextSensitive || p.isPredicate e } }

def Query.reevaluating (q : Query) : Query :=
  { q with program := q.program.reevaluating }

namespace Program

theorem nodes_reevaluating (p : Program) (e : ExprId) : p.reevaluating.nodes[e]? = (p.nodes[e]?).map fun node =>
      { node with contextSensitive := node.contextSensitive || p.isPredicate e } := by
  simp [reevaluating]

theorem exists_steps_of_isPredicate {p : Program} (h : p.isPredicate e = true) :
    ∃ i form, p.form? i = some form ∧ .predicate e ∈ form.steps := by
  obtain ⟨i, hi, hstep⟩ := Array.any_iff_exists.mp h
  refine ⟨i, p.nodes[i].form, ?_, of_decide_eq_true hstep.2.2⟩
  unfold form?
  rw [Array.getElem?_eq_getElem hi]
  rfl

end Program

theorem Form.Filled.mem_of_predicate {form : Form}
    (h : form.Filled p children) (he : .predicate e ∈ form.steps) : e ∈ children := by
  have hpart : ∀ {steps : List Step}, .predicate e ∈ steps → e ∈ steps.filterMap Step.expr? :=
    fun hmem => List.mem_filterMap.mpr ⟨_, hmem, rfl⟩
  cases form with
  | path plan => exact h.2 (List.mem_append_right _ (hpart he))
  | filter steps => exact h.1 (hpart he)
  | _ => cases he

/-- The body of a loop is nobody's predicate, since an expression has one parent. -/
theorem Compiled.raised (h : Compiled c q) : Raised q.program q.program.reevaluating where
  static := rfl
  form := by
    intro e
    unfold Program.form?
    rw [Program.nodes_reevaluating, map_map]
    rfl
  children := by
    intro e
    unfold Program.children
    rw [Program.nodes_reevaluating]
    cases q.program.nodes[e]? <;> rfl
  names := by
    refine Program.variableNames_congr rfl ?_
    intro e
    rw [Program.nodes_reevaluating, map_map]
    rfl
  marks := by
    intro e he
    unfold Program.isContextSensitive at he ⊢
    rw [Program.nodes_reevaluating]
    cases hnode : q.program.nodes[e]? with
    | none =>
      rw [hnode] at he
      cases he
    | some node =>
      rw [hnode] at he
      change (node.contextSensitive || _) = true
      rw [show node.contextSensitive = true from he, Bool.true_or]
  bodies := by
    intro e name b body hform hbody
    have hnot : q.program.isPredicate body = false := by
      refine Bool.eq_false_iff.mpr fun hpredicate => ?_
      obtain ⟨i, form, hi, hstep⟩ := Program.exists_steps_of_isPredicate hpredicate
      have hchild := (h.filled i form hi).mem_of_predicate hstep
      obtain rfl := h.separate i e body hchild (List.mem_of_getElem? hbody)
      cases hi.symm.trans hform
      cases hstep
    unfold Program.isContextSensitive
    rw [Program.nodes_reevaluating, hnot]
    cases q.program.nodes[body]? with
    | none => rfl
    | some node => exact Bool.or_false _

/-- An expression that is not marked as depending on the focus gives the same items or the same error with
every focus, if functions that are not flagged ignore it. So it makes no difference that a predicate which
is not marked is evaluated for the first item only: a query has the result that it has if every predicate
is evaluated at every item. -/
theorem Query.insensitive_sound {x : Expr} (hq : compile c x = .ok q) (hf : ∀ f, c.Callable f → f.Honest) :
    (∀ e, q.program.isContextSensitive e = false → ∀ (fuel : Nat) (focus focus' : Focus) (s : Store),
      ((machine fuel q.program).read e focus s).map (fun r => (r.1, r.2.slots)) =
        ((machine fuel q.program).read e focus' s).map (fun r => (r.1, r.2.slots))) ∧
    ((∀ f, c.Callable f → f.KeepsReply ∧ f.Grows) → ∀ (focus : Snapshot) (slots : Slots)
      (result : Except Error (List Item)),
      (∃ fuel, (q.evaluateOn fuel focus slots).map (·.1) = some result) ↔
        ∃ fuel, (q.reevaluating.evaluateOn fuel focus slots).map (·.1) = some result) := by
  have hhonest := Compiled.honest hq hf
  refine ⟨fun e he => hhonest.read_eq he, ?_⟩
  intro hkeeps focus slots result
  have hcompiled := compiled_of_compile hq
  obtain ⟨top, htop, hplaced⟩ := hcompiled.placed
  have hraised := hcompiled.raised
  obtain rfl := hcompiled.static
  have hreply : ∀ f, q.program.static.Callable f → f.KeepsReply := fun f hf => (hkeeps f hf).1
  have hgrows : ∀ e name f, q.program.form? e = some (.call name (some f)) → f.Grows :=
    fun e name f hform => (hkeeps f (hcompiled.filled e _ hform)).2
  have hslots := fun fuel => Query.evaluateOn_of_placed hreply hcompiled.external htop hplaced fuel focus
    slots
  have hslots' := fun fuel => Query.evaluateOn_of_placed (q := q.reevaluating) hreply hcompiled.external
    htop (hplaced.congr hraised.static hraised.form hraised.children hraised.names) fuel focus slots
  simp only [hslots, hslots']
  exact Program.Reliable.read_iff ⟨hhonest, hgrows⟩ hraised q.root focus (q.environment slots) result

/-- `(1, 2, 3)[some $x in (2, 3) satisfies $x eq 3]`: a predicate with a loop that does not look at the
focus. -/
def loopInPredicate : Expr :=
  let number (i : Int64) : Expr := .literal (.integer i)
  let matching : Expr :=
    .quantified .some [.mk (.unprefixed "x") (.sequence [number 2, number 3])]
      (.binary (.compare .value .eq) (.variable (.unprefixed "x")) (number 3))
  .filter (.sequence [number 1, number 2, number 3]) [matching]

/-- The predicate, node number 10, is kept, and the query has its result also if it is not. -/
theorem Query.insensitive_loopInPredicate :
    ∃ q, compile .standard loopInPredicate = .ok q ∧
      (∀ f, StaticContext.standard.Callable f → f.Honest) ∧
      (∀ f, StaticContext.standard.Callable f → f.KeepsReply ∧ f.Grows) ∧
      q.program.isPredicate 10 = true ∧ q.program.isContextSensitive 10 = false ∧
      ((machine 40 q.program).read 10 (.fixed (.single none)) (.ofSlots (.ofSize 1))).map
          (fun r => (r.1, r.2.slots)) =
        ((machine 40 q.program).read 10 (.fixed (.single (some (.ofNat 7)))) (.ofSlots (.ofSize 1))).map
          (fun r => (r.1, r.2.slots)) ∧
      ∃ result, (∃ fuel, (q.evaluateOn fuel (.single none) (.ofSize 1)).map (·.1) = some result) ∧
        ∃ fuel, (q.reevaluating.evaluateOn fuel (.single none) (.ofSize 1)).map (·.1) = some result := by
  have hrun : ((compile .standard loopInPredicate).toOption.any fun q =>
      q.program.isPredicate 10 && !q.program.isContextSensitive 10 &&
        ((q.evaluateOn 40 (.single none) (.ofSize 1)).map (·.1)).isSome) = true := by decide +kernel
  obtain ⟨q, hq, hrun⟩ := exists_ok_of_check hrun
  simp only [Bool.and_eq_true, Bool.not_eq_true'] at hrun
  obtain ⟨⟨hpredicate, hmark⟩, hsome⟩ := hrun
  obtain ⟨result, hresult⟩ := isSome_iff_exists.mp hsome
  have hhonest : ∀ f, StaticContext.standard.Callable f → f.Honest :=
    fun _ => CoreFunction.standard_honest
  have hkeeps : ∀ f, StaticContext.standard.Callable f → f.KeepsReply ∧ f.Grows :=
    fun _ => CoreFunction.standard_keepsReply_grows
  have hsound := insensitive_sound hq hhonest
  exact ⟨q, hq, hhonest, hkeeps, hpredicate, hmark, hsound.1 10 hmark 40 _ _ _, result,
    ⟨40, hresult⟩, (hsound.2 hkeeps _ _ result).mp ⟨40, hresult⟩⟩

end XPath
