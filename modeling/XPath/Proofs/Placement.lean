import XPath.Proofs.Lexical

/-!
# Where expressions keep their variables

While an expression runs it writes slots of an interval only. `Placed` says so of a bound program: the
variables of an expression's loops lie in its interval, variables that it refers to resolve in the scope
around it, and parts that can be in flight at the same time have intervals of their own. Parts that run one
after the other share theirs.
-/

namespace XPath

variable {lo hi : Nat} {fs : List ExprId} {p : Program} {Fit : FunctionEntry → Prop}

def Step.expr? : Step → Option ExprId
  | .predicate e | .expr e _ => some e
  | _ => none

def Form.loopBinding? : Form → Option Binding
  | .forEach _ binding | .quantified _ _ binding => binding
  | _ => none

def Apart (P : Nat → Nat → ExprId → Prop) : Nat → Nat → List ExprId → Prop
  | lo, hi, [] => lo ≤ hi
  | lo, hi, e :: es => ∃ mid, lo ≤ mid ∧ P lo mid e ∧ Apart P mid hi es

namespace Apart

variable {P Q : Nat → Nat → ExprId → Prop} {es : List ExprId}

theorem le : ∀ {lo hi : Nat}, Apart P lo hi es → lo ≤ hi := by
  induction es with
  | nil => exact fun h => h
  | cons e es ih =>
    rintro lo hi ⟨mid, hmid, -, hes⟩
    exact Nat.le_trans hmid (ih hes)

theorem lower (hP : ∀ l l' h e, l' ≤ l → P l h e → P l' h e) {lo' : Nat} (hlo : lo' ≤ lo)
    (h : Apart P lo hi es) : Apart P lo' hi es := by
  cases es with
  | nil => exact Nat.le_trans hlo h
  | cons e es =>
    obtain ⟨mid, hmid, he, hes⟩ := h
    exact ⟨mid, Nat.le_trans hlo hmid, hP _ _ _ _ hlo he, hes⟩

theorem split : ∀ {lo : Nat}, Apart P lo hi (es ++ fs) → ∃ mid, Apart P lo mid es ∧ Apart P mid hi fs := by
  induction es with
  | nil => exact fun {lo} h => ⟨lo, .refl, h⟩
  | cons e es ih =>
    rintro lo ⟨m, hm, he, hes⟩
    obtain ⟨mid, hes, hfs⟩ := ih hes
    exact ⟨mid, ⟨m, hm, he, hes⟩, hfs⟩

theorem sublist (hP : ∀ l l' h e, l' ≤ l → P l h e → P l' h e)
    (hsub : fs.Sublist es) : ∀ {lo hi : Nat}, Apart P lo hi es → Apart P lo hi fs := by
  induction hsub with
  | slnil => exact fun h => h
  | cons e hsub ih =>
    rintro lo hi ⟨mid, hmid, -, hes⟩
    exact (ih hes).lower hP hmid
  | cons_cons e hsub ih =>
    rintro lo hi ⟨mid, hmid, he, hes⟩
    exact ⟨mid, hmid, he, ih hes⟩

end Apart

def PathStart.expr? : PathStart → Option ExprId
  | .expr e => some e
  | _ => none

/-- What a path evaluates, in the order of its steps. -/
def PathPlan.parts (plan : PathPlan) : List ExprId :=
  plan.start.expr?.toList ++ plan.steps.filterMap Step.expr?

/-- A loop at a binding: the source lies below the variable's slot and the body above it. -/
structure PlacedLoop (P : List Binding → Nat → Nat → ExprId → Prop) (p : Program)
    (scope : List Binding) (lo hi : Nat) (e : ExprId) (b : Binding) (source body : ExprId) : Prop where
  children : p.children e = [source, body]
  name : b.name ∈ p.variableNames
  lower : lo ≤ b.slot
  upper : b.slot < hi
  source : P scope lo b.slot source
  body : P (b :: scope) (b.slot + 1) hi body

/-- The expression is in its place, looking at most so many levels deep. All functions that it calls are
`Fit`. -/
def PlacedAt (p : Program) (Fit : FunctionEntry → Prop) : Nat → List Binding → Nat → Nat → ExprId → Prop
  | 0, _, _, _, _ => False
  | n + 1, scope, lo, hi, e =>
    match p.form? e with
    | none => False
    | some (.variable name binding) => ∃ b, binding = some b ∧ p.bindingOf scope name = some b
    | some (.call _ function) =>
      ∃ f, function = some f ∧ Fit f ∧ Apart (PlacedAt p Fit n scope) lo hi (p.children e)
    | some (.path plan) => Apart (PlacedAt p Fit n scope) lo hi plan.parts
    | some (.filter steps) =>
      ∃ source, (p.children e)[0]? = some source ∧
        Apart (PlacedAt p Fit n scope) lo hi (source :: steps.filterMap Step.expr?)
    | some (.forEach _ binding) | some (.quantified _ _ binding) =>
      ∃ b source body, binding = some b ∧ PlacedLoop (PlacedAt p Fit n) p scope lo hi e b source body
    | some _ => ∀ c ∈ p.children e, PlacedAt p Fit n scope lo hi c

def Placed (p : Program) (Fit : FunctionEntry → Prop) (scope : List Binding) (lo hi : Nat) (e : ExprId) : Prop :=
  ∃ n, PlacedAt p Fit n scope lo hi e

theorem PlacedAt.lower {n : Nat} :
    ∀ {scope : List Binding} {lo lo' hi : Nat} {e : ExprId}, lo' ≤ lo → PlacedAt p Fit n scope lo hi e →
      PlacedAt p Fit n scope lo' hi e := by
  induction n with
  | zero => exact fun _ h => h
  | succ n ih =>
    intro scope lo lo' hi e hlo h
    have hapart : ∀ es, Apart (PlacedAt p Fit n scope) lo hi es →
        Apart (PlacedAt p Fit n scope) lo' hi es :=
      fun es hes => Apart.lower (P := PlacedAt p Fit n scope) (fun _ _ _ _ => ih) hlo hes
    unfold PlacedAt at h ⊢
    cases hform : p.form? e with
    | none =>
      rw [hform] at h
      exact h
    | some form =>
      rw [hform] at h
      cases form with
      | «variable» name binding => exact h
      | call name function =>
        obtain ⟨f, hf, hfit, hargs⟩ := h
        exact ⟨f, hf, hfit, hapart _ hargs⟩
      | path plan => exact hapart _ h
      | filter steps =>
        obtain ⟨source, hsource, hparts⟩ := h
        exact ⟨source, hsource, hapart _ hparts⟩
      | forEach name binding | quantified q name binding =>
        obtain ⟨b, source, body, hb, hloop⟩ := h
        exact ⟨b, source, body, hb, { hloop with
          lower := Nat.le_trans hlo hloop.lower
          source := ih hlo hloop.source }⟩
      | _ => exact fun c hc => ih hlo (h c hc)

/-- Being in place does not depend on the marks. -/
theorem Placed.congr {q : Program} (hstatic : q.static = p.static) (hform : ∀ e, q.form? e = p.form? e)
    (hchildren : ∀ e, q.children e = p.children e) (hnames : q.variableNames = p.variableNames)
    {scope : List Binding} {e : ExprId} (h : Placed p Fit scope lo hi e) : Placed q Fit scope lo hi e := by
  have hbinding : q.bindingOf = p.bindingOf := by
    funext scope name
    unfold Program.bindingOf
    rw [hstatic]
  have hloop : ∀ (P : List Binding → Nat → Nat → ExprId → Prop), PlacedLoop P q = PlacedLoop P p := by
    intro P
    funext scope lo hi e b source body
    refine propext ⟨fun h => { h with children := ?_, name := ?_ },
      fun h => { h with children := ?_, name := ?_ }⟩
    · exact (hchildren e).symm.trans h.children
    · exact hnames ▸ h.name
    · exact (hchildren e).trans h.children
    · exact hnames ▸ h.name
  have hplaced : ∀ n, PlacedAt q Fit n = PlacedAt p Fit n := by
    intro n
    induction n with
    | zero => rfl
    | succ n ih =>
      funext scope lo hi e
      simp only [PlacedAt, ih, hform, hchildren, hbinding, hloop]
  obtain ⟨n, h⟩ := h
  exact ⟨n, hplaced n ▸ h⟩

end XPath
