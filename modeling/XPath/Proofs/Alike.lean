import XPath.Proofs.Lexical
import XPath.Proofs.Stages

/-!
# Cursors that deliver the same

Two runs are compared: of one program or of two programs in which the same expressions have other numbers,
at two depths, on stores that differ in what does not matter, with foci that show the same. `Alike` relates
the cursors of two such runs. They are equal up to the numbers of expressions and four more things:

- a loop's focus does not matter if its body is free of the focus,
- a predicate may be evaluated once on one side and at every item on the other,
- the copy of a cursor stands in scopes of its own, which changes nothing where slots are never written,
- what is in progress may have been computed again.

The comparison can also carry a property of items (`Ok`), so that comparing a run with itself shows that
only such items occur in it; and it can record on the left what the sequences in progress were started
from.
-/

namespace XPath

variable {σ τ : Slots} {Ok : Item → Prop} {R : ExprId → ExprId → Prop} {pinned : Bool} {l l' : Looping}

/-- A record of what sequences in progress were started from, in slots that may be fixed, and how many
items have been read from them. -/
abbrev Record := Option Slots → Beginning → Cursor → Nat → Prop

def noRecord : Record :=
  fun _ _ _ _ => True

structure Terms where
  left : Program
  right : Program
  Ok : Item → Prop
  /-- Expressions of the two programs that stand for each other. -/
  twin : ExprId → ExprId → Prop
  /-- Bindings of loop variables that stand for each other. -/
  binds : Binding → Binding → Prop
  /-- What may be kept of the selections of two predicates, in slots that may be fixed. -/
  keeps : Option Slots → ExprId → ExprId → Option Selection → Option Selection → Prop
  /-- Expressions on the left whose value does not depend on the focus. -/
  free : ExprId → Prop
  /-- Slots are never written. -/
  pinned : Bool
  /-- Functions return no argument that they have pulled. -/
  strict : Prop
  /-- Foci that are known to show the same, where so much is known of the group sizes in the stores. -/
  pair : (Option Nat → Option Nat → Prop) → Option Slots → Focus → Focus → Prop
  /-- Slots of the two sides that stand for each other, where slots are never written. -/
  level : Slots → Slots → Prop

/-- The slots of the two sides, where slots are never written. They may differ while cursors are pulled
that stand in scopes of their own. -/
abbrev Envs := Option (Slots × Slots)

namespace Envs

def Level (env : Envs) (C : Terms) : Prop :=
  ∀ σ τ, env = some (σ, τ) → C.level σ τ

def left (env : Envs) : Option Slots :=
  env.map Prod.fst

theorem level_none {C : Terms} : Level none C :=
  nofun

theorem level_some {C : Terms} (h : C.level σ τ) : Level (some (σ, τ)) C := by
  rintro _ _ ⟨⟩
  exact h

theorem isSome_left (env : Envs) : env.left.isSome = env.isSome :=
  Option.isSome_map

end Envs

def Slots.Sound (Ok : Item → Prop) (σ : Slots) : Prop :=
  ∀ k items, σ.get? k = some items → ∀ i ∈ items, Ok i

theorem Slots.Sound.set (h : σ.Sound Ok) {k : Nat} {items : List Item} (hitems : ∀ i ∈ items, Ok i) :
    (σ.set k items).Sound Ok := by
  intro j items' hj
  by_cases hjk : j = k
  · subst hjk
    rw [Slots.get?_set_self] at hj
    cases hj
    exact hitems
  · rw [Slots.get?_set_ne σ hjk] at hj
    exact h j items' hj

/-- The foci of two loops: the same, unless the body is free of it. -/
def Terms.SameSnapshot (C : Terms) (body : ExprId) (x y : Snapshot) : Prop :=
  ¬ C.free body → x = y ∧ ∀ i, x.item = some i → C.Ok i

/-- Loops that do the same, with expressions and variables that stand for each other. -/
inductive Terms.SameLoop (C : Terms) : Looping → Looping → Prop
  | forEach {body body' b b' x y} (twins : C.twin body body') (binds : C.binds b b')
      (focus : C.SameSnapshot body x y) : SameLoop C (.forEach body b x) (.forEach body' b' y)
  | step {e e'} (twins : C.twin e e') : SameLoop C (.step e) (.step e')

theorem Terms.SameLoop.grouped {C : Terms} (h : C.SameLoop l l') : l.grouped = l'.grouped := by
  cases h <;> rfl

theorem Terms.SameLoop.isSome_beginning? {C : Terms} (h : C.SameLoop l l') {c d : Cursor}
    (hcd : c.current = d.current) : (l.beginning? c).isSome = (l'.beginning? d).isSome := by
  cases h with
  | forEach => rw [Looping.beginning?, Looping.beginning?, Option.isSome_map, Option.isSome_map, hcd]
  | step => rfl

inductive Alike (C : Terms) (rec : Record) : Envs → Cursor → Cursor → Prop
  | leaf {env c} (h : Leaf C.Ok c) : Alike C rec env c c
  | concat {env gone gone' rest rest'} (pos : Nat) (fin : Bool)
      (goneLength : gone.length = gone'.length) (restLength : rest.length = rest'.length)
      (spent : ∀ (i : Nat) c d, gone[i]? = some c → gone'[i]? = some d → Alike C rec env c d)
      (left : ∀ (i : Nat) c d, rest[i]? = some c → rest'[i]? = some d → Alike C rec env c d) :
      Alike C rec env (.concat gone rest pos fin) (.concat gone' rest' pos fin)
  | stage {env c d} (st : Stage) (fin : Bool) (sound : st.Sound C.Ok) (input : Alike C rec env c d) :
      Alike C rec env (st.on c fin) (st.on d fin)
  | predicate {env e e' c d fixed fixed'} (inputPos : Nat) (size : Option Nat) (pos : Nat) (fin : Bool)
      (level : env.Level C) (twins : C.twin e e') (kept : C.keeps env.left e e' fixed fixed')
      (input : Alike C rec env c d) :
      Alike C rec env (.predicate e c inputPos fixed size pos fin)
        (.predicate e' d inputPos fixed' size pos fin)
  | loop {env l l' c d run} (pos : Nat) (fin : Bool) (level : env.Level C)
      (idle : run = .idle ∨ ∃ e, run = .failed e) (same : C.SameLoop l l') (source : Alike C rec env c d) :
      Alike C rec env (l.on c run pos fin) (l'.on d run pos fin)
  | running {env l l' c d i j k st} (pos : Nat) (level : env.Level C) (same : C.SameLoop l l')
      (begun : l.beginning? c = some st) (origin : rec env.left st i k) (source : Alike C rec env c d)
      (inner : Alike C rec env i j) :
      Alike C rec env (l.on c (.running i k) pos false) (l'.on d (.running j k) pos false)
  | scope {σ c d} (sound : σ.Sound C.Ok) (inner : Alike C rec none c d) :
      Alike C rec none (.scope C.left σ c) (.scope C.right σ d)
  /-- Where slots are never written, a scope may stand on one side only. -/
  | scopeLeft {σ σ' τ c d} (sound : σ'.Sound C.Ok) (inner : Alike C rec (some (σ', τ)) c d) :
      Alike C rec (some (σ, τ)) (.scope C.left σ' c) d
  | scopeRight {σ τ τ' c d} (inner : Alike C rec (some (σ, τ')) c d) :
      Alike C rec (some (σ, τ)) c (.scope C.right τ' d)

namespace Alike

variable {C : Terms} {rec : Record} {env : Envs} {c d : Cursor}

theorem current_eq (h : Alike C rec env c d) : c.current = d.current := by
  induction h with
  | leaf h => rfl
  | @concat _ gone gone' rest rest' pos fin goneLength restLength spent left ihSpent ihLeft =>
    cases fin with
    | true => rfl
    | false =>
      match rest, rest' with
      | [], [] => rfl
      | c :: cs, d :: ds => exact ihLeft 0 c d rfl rfl
  | stage st fin sound input ih => exact st.current_on ih
  | predicate inputPos size pos fin level twins kept input ih =>
    cases fin with
    | true => rfl
    | false => exact ih
  | loop => rw [(Looping.wraps_on _ ..).1, (Looping.wraps_on _ ..).1]
  | running pos level same begun origin source inner ihSource ihInner =>
    rw [(Looping.wraps_on _ ..).1, (Looping.wraps_on _ ..).1]
    exact ihInner
  | scope sound inner ih | scopeLeft sound inner ih | scopeRight inner ih => exact ih

theorem position_eq (h : Alike C rec env c d) : c.position = d.position := by
  induction h with
  | stage st fin sound input ih => exact st.position_on ih
  | loop | running => rw [(Looping.wraps_on _ ..).2, (Looping.wraps_on _ ..).2]
  | scope sound inner ih | scopeLeft sound inner ih | scopeRight inner ih => exact ih
  | _ => rfl

theorem sound (h : Alike C rec env c d) : ∀ i, c.current = some i → C.Ok i := by
  induction h with
  | leaf h => exact h.current_ok
  | @concat _ gone gone' rest rest' pos fin goneLength restLength spent left ihSpent ihLeft =>
    intro i hi
    cases fin with
    | true => cases hi
    | false =>
      match rest, rest' with
      | [], [] => cases hi
      | c :: cs, d :: ds => exact ihLeft 0 c d rfl rfl i hi
  | stage st fin sound input ih => exact sound.current_ok ih
  | predicate inputPos size pos fin level twins kept input ih =>
    intro i hi
    cases fin with
    | true => cases hi
    | false => exact ih i hi
  | loop pos fin level idle same source ih =>
    rw [(Looping.wraps_on _ ..).1]
    rcases idle with rfl | ⟨e, rfl⟩ <;> exact nofun
  | running pos level same begun origin source inner ihSource ihInner =>
    rw [(Looping.wraps_on _ ..).1]
    exact ihInner
  | scope sound inner ih | scopeLeft sound inner ih | scopeRight inner ih => exact ih

theorem mono {rec' : Record} (hrec : ∀ env st c k, rec env st c k → rec' env st c k)
    (h : Alike C rec env c d) : Alike C rec' env c d := by
  induction h with
  | leaf h => exact .leaf h
  | concat pos fin goneLength restLength spent left ihSpent ihLeft =>
    exact .concat pos fin goneLength restLength ihSpent ihLeft
  | stage st fin sound input ih => exact .stage st fin sound ih
  | predicate inputPos size pos fin level twins kept input ih =>
    exact .predicate inputPos size pos fin level twins kept ih
  | loop pos fin level idle same source ih => exact .loop pos fin level idle same ih
  | running pos level same begun origin source inner ihSource ihInner =>
    exact .running pos level same begun (hrec _ _ _ _ origin) ihSource ihInner
  | scope sound inner ih => exact .scope sound ih
  | scopeLeft sound inner ih => exact .scopeLeft sound ih
  | scopeRight inner ih => exact .scopeRight ih

theorem forget (h : Alike C rec env c d) : Alike C noRecord env c d :=
  h.mono fun _ _ _ _ _ => trivial

theorem plain (h : Plain C.Ok c) : Alike C rec env c c :=
  .leaf h.leaf

theorem scopeBoth {σ' : Slots} (sound : σ'.Sound C.Ok) (inner : Alike C rec (some (σ', σ')) c d) :
    Alike C rec (some (σ, τ)) (.scope C.left σ' c) (.scope C.right σ' d) :=
  .scopeLeft sound (.scopeRight inner)

/-- Induction on the outermost scopes. -/
theorem peel {motive : ∀ env c d, Alike C rec env c d → Prop}
    (bare : ∀ {env c d} (h : Alike C rec env c d), (∀ q σ c₀, c ≠ .scope q σ c₀) →
      (∀ q σ d₀, d ≠ .scope q σ d₀) → motive env c d h)
    (scope : ∀ {σ : Slots} {c d} (sound : σ.Sound C.Ok) (inner : Alike C rec none c d), motive _ _ _ inner →
      motive _ _ _ (.scope sound inner))
    (scopeLeft : ∀ {σ σ' τ : Slots} {c d} (sound : σ'.Sound C.Ok) (inner : Alike C rec (some (σ', τ)) c d),
      motive _ _ _ inner → motive (some (σ, τ)) _ _ (.scopeLeft sound inner))
    (scopeRight : ∀ {σ τ τ' c d} (inner : Alike C rec (some (σ, τ')) c d), motive _ _ _ inner →
      motive (some (σ, τ)) _ _ (.scopeRight inner)) (h : Alike C rec env c d) : motive env c d h := by
  induction h with
  | scope sound inner ih => exact scope sound inner ih
  | scopeLeft sound inner ih => exact scopeLeft sound inner ih
  | scopeRight inner ih => exact scopeRight inner ih
  | leaf h => exact bare _ (fun _ _ _ => h.ne_scope) fun _ _ _ => h.ne_scope
  | stage st => exact bare _ (fun _ _ _ => st.on_ne_scope) fun _ _ _ => st.on_ne_scope
  | loop | running => exact bare _ (fun _ _ _ => Looping.on_ne_scope _) fun _ _ _ => Looping.on_ne_scope _
  | concat | predicate => exact bare _ nofun nofun

end Alike

/-! ## Stores and foci -/

/-- Stores with the same slots, or with the given ones if slots are never written. -/
structure Abreast (C : Terms) (env : Envs) (sizes : Option Nat → Option Nat → Prop) (s t : Store) : Prop where
  shared : env = none → s.slots = t.slots
  pinned : ∀ σ τ, env = some (σ, τ) → s.slots = σ ∧ t.slots = τ
  sound : s.slots.Sound C.Ok
  sizes : sizes s.groupSize t.groupSize

def Along (C : Terms) (rec : Record) (env : Envs) (sizes : Option Nat → Option Nat → Prop) : CursorRel :=
  fun c s d t => Alike C rec env c d ∧ Abreast C env sizes s t

inductive Foci (C : Terms) (sizes : Option Nat → Option Nat → Prop) (env : Envs) : Focus → Focus → Prop
  | fixed {snap : Snapshot} (sound : ∀ i, snap.item = some i → C.Ok i) :
      Foci C sizes env (.fixed snap) (.fixed snap)
  | current {c d : Cursor} (h : Alike C noRecord env c d) (same : ∀ a b, sizes a b ↔ a = b) :
      Foci C sizes env (.current c) (.current d)
  | pair {f f' : Focus} (h : C.pair sizes env.left f f') : Foci C sizes env f f'

def FociFor (C : Terms) (sizes : Option Nat → Option Nat → Prop) (env : Envs) (e : ExprId) (f f' : Focus) : Prop :=
  ¬ C.free e → Foci C sizes env f f'

/-! ## Programs side by side -/

/-- Steps that do the same, with expressions that stand for each other. -/
inductive Step.Twins (R : ExprId → ExprId → Prop) : Step → Step → Prop
  | axis (axis : Axis) (test : Option NodeTest) : Twins R (.axis axis test) (.axis axis test)
  | descent (tests : List NodeTest) : Twins R (.descent tests) (.descent tests)
  | position (n : Nat) : Twins R (.position n) (.position n)
  | predicate {e e' : ExprId} (h : R e e') : Twins R (.predicate e) (.predicate e')
  | expr {e e' : ExprId} (nodesOnly : Bool) (h : R e e') :
      Twins R (.expr e nodesOnly) (.expr e' nodesOnly)

/-- Forms that compute the same from children that stand for each other. A variable may have any slot if
slots are never written. -/
inductive Form.Twins (R : ExprId → ExprId → Prop) (B : Binding → Binding → Prop) (pinned : Bool) :
    Form → Form → Prop
  | direct {form : Form} (h : form.isDirect = true) : Twins R B pinned form form
  | variable (name : ExpandedName) {b b' : Option Binding} (same : pinned = false → b = b') :
      Twins R B pinned (.variable name b) (.variable name b')
  | call (name : ExpandedName) (f : Option FunctionEntry) : Twins R B pinned (.call name f) (.call name f)
  | path {plan plan' : PathPlan} (start : plan.start.Alike R plan'.start)
      (steps : Matched (fun _ => Step.Twins R) plan.steps plan'.steps)
      (flags : plan.sort = plan'.sort ∧ plan.startNodesOnly = plan'.startNodesOnly) :
      Twins R B pinned (.path plan) (.path plan')
  | filter {steps steps' : List Step} (all : Matched (fun _ => Step.Twins R) steps steps') :
      Twins R B pinned (.filter steps) (.filter steps')
  | forEach (var var' : ExpandedName) {b b' : Option Binding} (bound : BoundAlike B b b') :
      Twins R B pinned (.forEach var b) (.forEach var' b')
  | quantified (q : Quantifier) (var var' : ExpandedName) {b b' : Option Binding}
      (bound : BoundAlike B b b') : Twins R B pinned (.quantified q var b) (.quantified q var' b')
  | sequence : Twins R B pinned .sequence .sequence

/-- The two programs of a comparison, expression by expression. -/
structure Terms.Parallel (C : Terms) : Prop where
  settings : C.left.static.settings = C.right.static.settings
  form : ∀ e e', C.twin e e' →
    BoundAlike (Form.Twins C.twin C.binds C.pinned) (C.left.form? e) (C.right.form? e')
  children : ∀ e e', C.twin e e' →
    Matched (fun _ => C.twin) (C.left.children e) (C.right.children e')
  /-- Loops take the same of their focus along for their bodies. -/
  loops : ∀ e e' name b body body', C.twin e e' → C.left.form? e = some (.forEach name b) →
    (C.left.children e)[1]? = some body → (C.right.children e')[1]? = some body' →
    C.left.isContextSensitive body = C.right.isContextSensitive body' ∧
      (C.free body → C.left.isContextSensitive body = false)

def Terms.alone (p : Program) (Ok : Item → Prop) (free : ExprId → Prop) (pinned : Bool) (strict : Prop)
    (pair : (Option Nat → Option Nat → Prop) → Option Slots → Focus → Focus → Prop) : Terms :=
  ⟨p, p, Ok, Eq, Eq, fun _ _ _ => Eq, free, pinned, strict, pair, Eq⟩

theorem Step.Twins.refl (hR : ∀ e, R e e) (step : Step) : step.Twins R step := by
  cases step with
  | axis ax test => exact .axis ax test
  | descent tests => exact .descent tests
  | position n => exact .position n
  | predicate e => exact .predicate (hR e)
  | expr e nodesOnly => exact .expr nodesOnly (hR e)

theorem Form.Twins.refl {B : Binding → Binding → Prop} (hR : ∀ e, R e e) (hB : ∀ b, B b b) (form : Form) :
    form.Twins R B pinned form := by
  have hsteps (steps : List Step) : Matched (fun _ => Step.Twins R) steps steps :=
    .refl fun _ step _ => .refl hR step
  cases form with
  | «variable» name b => exact .variable name fun _ => rfl
  | call name f => exact .call name f
  | path plan => exact .path (.refl fun e _ => hR e) (hsteps _) ⟨rfl, rfl⟩
  | filter steps => exact .filter (hsteps _)
  | forEach var b => exact .forEach var var (.refl hB b)
  | quantified q var b => exact .quantified q var var (.refl hB b)
  | sequence => exact .sequence
  | _ => exact .direct rfl

/-- A program beside itself. -/
theorem Terms.parallel_alone {p : Program} {free : ExprId → Prop} {strict : Prop}
    {pair : (Option Nat → Option Nat → Prop) → Option Slots → Focus → Focus → Prop}
    (hfree : ∀ e, free e → p.isContextSensitive e = false) : (Terms.alone p Ok free pinned strict pair).Parallel where
  settings := rfl
  form := by
    rintro e _ rfl
    exact .refl (.refl (fun _ => rfl) fun _ => rfl) _
  children := by
    rintro e _ rfl
    exact .refl fun _ _ _ => rfl
  loops := by
    rintro e _ name b body body' rfl - hbody hbody'
    cases hbody.symm.trans hbody'
    exact ⟨rfl, hfree body⟩

end XPath
