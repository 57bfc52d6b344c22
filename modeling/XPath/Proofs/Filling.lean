import XPath.Proofs.Layout

/-!
# What binding makes of the nodes

Binding goes over every node of the main expression once. What it makes of a form depends only on what is below
the node: `Form.Fills` says what that is. After everything below it a node is marked as depending on the focus
or not (`MarkedAt`). It fails where a variable is in the scope of no loop that binds its name and is not
external either (`ScopedAt`), or where a call does not resolve.

All of this is about the nodes of an interval, so it is the same in programs that agree on the interval.
-/

namespace XPath

open List

variable {steps : List Step} {old form : Form} {i : ExprId}

/-! ## Forms before and after -/

/-- A path is sorted unless its steps keep the order of its start. -/
def PathPlan.Decided (p : Program) (plan : PathPlan) : Prop :=
  plan.sort = false → isOrdered plan.steps (p.startFacts plan.start) = true

/-- A function that a call can resolve to. -/
def StaticContext.Callable (c : StaticContext) (f : FunctionEntry) : Prop :=
  ∃ name arity, c.functions.resolve name arity c.settings.defaultFunctionNamespace = .ok f

/-- What binding fills in: a path has been decided, a call has a function that is registered, what the
steps of a path or filter evaluate are children still, and the steps of a filter do not navigate. -/
def Form.Filled (p : Program) (children : List ExprId) : Form → Prop
  | .path plan => plan.Decided p ∧ plan.parts ⊆ children
  | .filter steps => steps.filterMap Step.expr? ⊆ children ∧ ∀ s ∈ steps, s.isFilter = true
  | .call _ (some f) => p.static.Callable f
  | _ => True

/-- The binding of a loop variable: its type is that of the items of the source. -/
structure Binding.OfLoop (q : Program) (children : List ExprId) (var : ExpandedName) (b : Binding) : Prop where
  name : b.name = var
  itemType : ∀ source, children[0]? = some source → b.itemType = q.itemType source

def Form.Fills (q : Program) (children : List ExprId) : Form → Form → Prop
  | .variable name _, new => ∃ b, b.name = name ∧ new = .variable name (some b)
  | .call name _, new =>
    ∃ f, q.static.functions.resolve name children.length q.static.settings.defaultFunctionNamespace = .ok f ∧
      new = .call name (some f)
  | .path plan, new => new = .path (q.planPath plan)
  | .filter steps, new => new = .filter (fuse q.literalPosition steps)
  | .forEach var _, new => ∃ b, b.OfLoop q children var ∧ new = .forEach var (some b)
  | .quantified k var _, new => ∃ b, b.OfLoop q children var ∧ new = .quantified k var (some b)
  | form, new => new = form

def Program.FilledAt (p q : Program) (e : ExprId) : Prop :=
  ∀ form, p.form? e = some form → ∃ new, q.form? e = some new ∧ form.Fills q (q.children e) new

def Form.startsOrdered : Form → Bool
  | .path _ | .union => true
  | _ => false

theorem Program.startFacts_expr (p : Program) (e : ExprId) : p.startFacts (.expr e) =
      if (p.form? e).map Form.startsOrdered = some true then ⟨true, false, false⟩ else .nothing := by
  unfold startFacts
  cases h : p.form? e with
  | none => simp [h]
  | some form => cases form <;> simp [h, Form.startsOrdered]

/-- The names of a program come from the forms of its nodes, number by number. -/
theorem Program.variableNames_congr {p q : Program} (hstatic : q.static = p.static)
    (hnodes : ∀ i : ExprId, (q.nodes[i]?).map (·.form.loopVariable?) =
      (p.nodes[i]?).map (·.form.loopVariable?)) : q.variableNames = p.variableNames := by
  have hmap : q.nodes.toList.map (·.form.loopVariable?) = p.nodes.toList.map (·.form.loopVariable?) := by
    refine ext_getElem? fun i => ?_
    rw [getElem?_map, getElem?_map, Array.getElem?_toList, Array.getElem?_toList]
    exact hnodes i
  have hloops := congrArg (filterMap id) hmap
  rw [filterMap_map, filterMap_map] at hloops
  unfold variableNames
  rw [hstatic]
  exact congrArg (p.static.settings.externals ++ ·) hloops

/-! ## Shortened chains

A shortened chain evaluates some of the expressions of the chain, in the same order: literal positions are
not evaluated any more.
-/

theorem fixPositions_sublist (literal : ExprId → Option Nat) (steps : List Step) :
    ((fixPositions literal steps).filterMap Step.expr?).Sublist (steps.filterMap Step.expr?) := by
  induction steps with
  | nil => exact List.Sublist.slnil
  | cons step steps ih =>
    cases step with
    | axis ax test | descent tests | position n => exact ih
    | predicate e =>
      unfold fixPositions
      rw [map_cons]
      dsimp only
      cases literal e with
      | none => exact ih.cons_cons e
      | some n => exact ih.cons e
    | expr e nodesOnly => exact ih.cons_cons e

theorem mergeRuns_sublist (steps : List Step) :
    ∀ k, ((mergeRuns k steps).filterMap Step.expr?).Sublist (steps.filterMap Step.expr?) := by
  induction steps with
  | nil =>
    intro k
    cases k <;> exact List.Sublist.slnil
  | cons step steps ih =>
    intro k
    have hdrop : (steps.filterMap Step.expr?).Sublist ((step :: steps).filterMap Step.expr?) :=
      (sublist_cons_self step steps).filterMap _
    -- a step in front that evaluates nothing, or the step itself
    have hcons : ∀ (front : Step) k, front.expr? = none ∨ front = step →
        ((front :: mergeRuns k steps).filterMap Step.expr?).Sublist
          ((step :: steps).filterMap Step.expr?) := by
      rintro front k (hnone | rfl)
      · rw [filterMap_cons_none hnone]
        exact (ih k).trans hdrop
      · cases hexpr : front.expr? with
        | none =>
          rw [filterMap_cons_none hexpr, filterMap_cons_none hexpr]
          exact ih k
        | some e =>
          rw [filterMap_cons_some hexpr, filterMap_cons_some hexpr]
          exact (ih k).cons_cons e
    cases k with
    | succ k => exact (ih k).trans hdrop
    | zero =>
      unfold mergeRuns
      split
      · split
        · exact hcons step 0 (.inr rfl)
        · exact hcons _ 1 (.inl rfl)
        · exact hcons _ _ (.inl rfl)
      · exact hcons step 0 (.inr rfl)

theorem fuse_sublist (literal : ExprId → Option Nat) (steps : List Step) :
    ((fuse literal steps).filterMap Step.expr?).Sublist (steps.filterMap Step.expr?) :=
  (mergeRuns_sublist _ 0).trans (fixPositions_sublist literal steps)

/-- A chain of filters has no runs to merge. -/
theorem fuse_filters (literal : ExprId → Option Nat)
    (h : ∀ s ∈ steps, s.isFilter = true) : ∀ s ∈ fuse literal steps, s.isFilter = true := by
  induction steps with
  | nil => exact h
  | cons step steps ih =>
    obtain ⟨hstep, hsteps⟩ := forall_mem_cons.mp h
    cases step with
    | position n => exact forall_mem_cons.mpr ⟨rfl, ih hsteps⟩
    | predicate e =>
      unfold fuse fixPositions
      rw [map_cons]
      dsimp only
      cases literal e with
      | none | some n => exact forall_mem_cons.mpr ⟨rfl, ih hsteps⟩
    | _ => cases hstep

theorem filterMap_markNodesOnly (steps : List Step) :
    (markNodesOnly steps).filterMap Step.expr? = steps.filterMap Step.expr? := by
  induction steps with
  | nil => rfl
  | cons step steps ih =>
    cases step with
    | axis ax test | descent tests | position n => exact ih
    | predicate e | expr e nodesOnly => exact congrArg (e :: ·) ih

theorem Program.planPath_sublist (p : Program) (plan : PathPlan) : (p.planPath plan).parts.Sublist plan.parts := by
  unfold planPath PathPlan.parts
  rw [filterMap_markNodesOnly]
  exact (fuse_sublist _ _).append_left _

theorem Program.planPath_decided (p : Program) (plan : PathPlan) : (p.planPath plan).Decided p := by
  intro hsort
  unfold planPath at hsort ⊢
  rw [Bool.or_eq_false_iff, Bool.not_eq_false'] at hsort
  exact hsort.1

/-- What has been filled in is decided, resolved and made of children, if it was laid out. -/
theorem Form.Fills.filled (hfits : old.Fits children) (h : old.Fills q children new) : new.Filled q children := by
  cases old with
  | path plan =>
    obtain rfl := h
    exact ⟨q.planPath_decided plan, fun _ hx => hfits.1 ▸ (q.planPath_sublist plan).subset hx⟩
  | filter steps =>
    obtain rfl := h
    obtain ⟨⟨source, rfl⟩, hfilters⟩ := hfits
    exact ⟨fun x hx => .tail _ ((fuse_sublist _ steps).subset hx), fuse_filters _ hfilters⟩
  | call name function =>
    obtain ⟨f, hf, rfl⟩ := h
    exact ⟨_, _, hf⟩
  | «variable» name binding | forEach name binding | quantified q name binding =>
    obtain ⟨b, -, rfl⟩ := h
    trivial
  | _ =>
    obtain rfl := h
    trivial

/-! ## Programs of one shape -/

namespace Program

def Agree (on : ExprId → Prop) (p q : Program) : Prop :=
  ∀ i, on i → q.nodes[i]? = p.nodes[i]?

/-- Two programs of one shape; the forms of their nodes may differ. -/
structure Kin (p q : Program) : Prop where
  static : q.static = p.static
  size : q.size = p.size
  children : ∀ i, q.children i = p.children i

namespace Kin

variable {p q r : Program}

theorem refl (p : Program) : Kin p p :=
  ⟨rfl, rfl, fun _ => rfl⟩

theorem trans (h : Kin p q) (h' : Kin q r) : Kin p r :=
  ⟨h'.static.trans h.static, h'.size.trans h.size, fun i => (h'.children i).trans (h.children i)⟩

theorem symm (h : Kin p q) : Kin q p :=
  ⟨h.static.symm, h.size.symm, fun i => (h.children i).symm⟩

theorem modify (p : Program) (e : ExprId) (hf : ∀ node, (f node).children = node.children) : Kin p (p.modify e f) :=
  ⟨rfl, size_modify p e f, children_modify hf⟩

end Kin

variable {p q : Program} {e : ExprId}

theorem form?_eq_of_nodes (h : q.nodes[i]? = p.nodes[i]?) : q.form? i = p.form? i := by
  unfold form?
  rw [h]

theorem isContextSensitive_eq_of_nodes (h : q.nodes[i]? = p.nodes[i]?) :
    q.isContextSensitive i = p.isContextSensitive i := by
  unfold isContextSensitive
  rw [h]

/-- What one change to a node leaves alone. -/
theorem agree_modify (p : Program) (e : ExprId) (f : ExprNode → ExprNode) : Agree (· ≠ e) p (p.modify e f) := by
  intro i hi
  rw [nodes_modify, if_neg (Ne.symm hi)]

theorem form?_setForm (hold : p.form? e = some old) : (p.setForm e form).form? e = some form := by
  unfold form? at hold ⊢
  unfold setForm
  rw [nodes_modify, if_pos rfl]
  cases hnode : p.nodes[e]? with
  | none =>
    rw [hnode] at hold
    cases hold
  | some node => rfl

theorem lt_size_of_form? (h : p.form? e = some form) : e < p.size := by
  obtain ⟨node, hnode, -⟩ := Option.map_eq_some_iff.mp h
  exact (Array.getElem?_eq_some_iff.mp hnode).1

end Program

open Program

/-! ## What types and plans depend on -/

section

variable {p q : Program} {lo hi : Nat} {e : ExprId}

theorem Program.Descending.inside (hdesc : p.Descending lo hi) (he : Inside lo hi e) :
    ∀ c ∈ p.children e, Inside lo hi c := by
  intro c hc
  obtain ⟨hlo, hlt⟩ := hdesc e he.1 he.2 c hc
  exact ⟨hlo, Nat.lt_trans hlt he.2⟩

theorem returnTypeFrom_congr (hkin : Kin p q) (hagree : Agree (Inside lo hi) p q) (hdesc : p.Descending lo hi) :
    ∀ (fuel : Nat) {e : ExprId}, Inside lo hi e → q.returnTypeFrom fuel e = p.returnTypeFrom fuel e := by
  intro fuel
  induction fuel with
  | zero => exact fun _ => rfl
  | succ fuel ih =>
    intro e he
    have hchildren : (q.children e).map (q.returnTypeFrom fuel) =
        (p.children e).map (p.returnTypeFrom fuel) := by
      rw [hkin.children e]
      exact map_congr_left fun c hc => ih (hdesc.inside he c hc)
    unfold Program.returnTypeFrom
    rw [form?_eq_of_nodes (hagree e he), hchildren]

theorem itemTypeFrom_congr (hkin : Kin p q) (hagree : Agree (Inside lo hi) p q) (hdesc : p.Descending lo hi) :
    ∀ (fuel : Nat) {e : ExprId}, Inside lo hi e → q.itemTypeFrom fuel e = p.itemTypeFrom fuel e := by
  intro fuel
  induction fuel with
  | zero => exact fun _ => rfl
  | succ fuel ih =>
    intro e he
    have hbelow : ∀ c ∈ p.children e, q.itemTypeFrom fuel c = p.itemTypeFrom fuel c :=
      fun c hc => ih (hdesc.inside he c hc)
    have hreturn : q.returnType e = p.returnType e := by
      unfold Program.returnType
      rw [hkin.size]
      exact returnTypeFrom_congr hkin hagree hdesc p.size he
    unfold Program.itemTypeFrom
    rw [form?_eq_of_nodes (hagree e he), hkin.children e, hreturn]
    split
    · cases hbody : (p.children e)[1]? with
      | none => rfl
      | some body => exact hbelow body (mem_of_getElem? hbody)
    · cases hsource : (p.children e).head? with
      | none => rfl
      | some source => exact hbelow source (mem_of_head? hsource)
    · rw [map_congr_left hbelow]
    · rfl

theorem itemType_congr (hkin : Kin p q) (hagree : Agree (Inside lo hi) p q)
    (hdesc : p.Descending lo hi) (he : Inside lo hi e) : q.itemType e = p.itemType e := by
  unfold Program.itemType
  rw [hkin.size]
  exact itemTypeFrom_congr hkin hagree hdesc p.size he

theorem fuse_congr
    (h : ∀ e ∈ steps.filterMap Step.expr?, literal' e = literal e) : fuse literal' steps = fuse literal steps := by
  have hfix : fixPositions literal' steps = fixPositions literal steps := by
    refine map_congr_left ?_
    intro s hs
    cases s with
    | predicate e =>
      dsimp only
      rw [h e (mem_filterMap.mpr ⟨_, hs, rfl⟩)]
    | _ => rfl
  unfold fuse
  rw [hfix]

theorem literalPosition_congr (h : q.form? e = p.form? e) : q.literalPosition e = p.literalPosition e := by
  unfold Program.literalPosition
  rw [h]

theorem planPath_congr (hstatic : q.static = p.static)
    (h : ∀ e ∈ plan.parts, q.form? e = p.form? e) : q.planPath plan = p.planPath plan := by
  have hsteps : fuse q.literalPosition plan.steps = fuse p.literalPosition plan.steps :=
    fuse_congr fun e he => literalPosition_congr (h e (mem_append_right _ he))
  have hstart : q.startFacts plan.start = p.startFacts plan.start := by
    cases hs : plan.start with
    | context | root => rfl
    | expr e =>
      have hmem : e ∈ plan.parts := by
        refine mem_append_left _ ?_
        rw [hs]
        exact mem_singleton_self e
      rw [Program.startFacts_expr, Program.startFacts_expr, h e hmem]
  unfold Program.planPath
  rw [hsteps, hstart, hstatic]

end

/-! ## Scopes -/

/-- Every variable below the node is bound by a loop around it, or external. -/
def ScopedAt (p : Program) : Nat → List ExpandedName → ExprId → Prop
  | 0, _, _ => False
  | n + 1, names, e =>
    match p.form? e with
    | some (.variable name _) => name ∈ names ∨ name ∈ p.static.settings.externals
    | some (.forEach var _) | some (.quantified _ var _) =>
      ∃ source body, p.children e = [source, body] ∧ ScopedAt p n names source ∧
        ScopedAt p n (var :: names) body
    | _ => ∀ c ∈ p.children e, ScopedAt p n names c

theorem scopedAt_congr (hkin : Kin p q) (hagree : Agree (Inside lo hi) p q) (hdesc : p.Descending lo hi) :
    ∀ (n : Nat) {names : List ExpandedName} {e : ExprId}, Inside lo hi e →
      (ScopedAt q n names e ↔ ScopedAt p n names e) := by
  intro n
  induction n with
  | zero => exact fun _ => Iff.rfl
  | succ n ih =>
    intro names e he
    have hbelow : ∀ c ∈ p.children e, ∀ names, ScopedAt q n names c ↔ ScopedAt p n names c :=
      fun c hc names => ih (hdesc.inside he c hc)
    have hloop : ∀ var, (∃ source body, p.children e = [source, body] ∧ ScopedAt q n names source ∧
        ScopedAt q n (var :: names) body) ↔
        ∃ source body, p.children e = [source, body] ∧ ScopedAt p n names source ∧
          ScopedAt p n (var :: names) body := by
      intro var
      refine exists_congr fun source => exists_congr fun body => and_congr_right fun hchildren => ?_
      rw [hchildren] at hbelow
      exact and_congr (hbelow source mem_cons_self _)
        (hbelow body (.tail _ (.head _)) _)
    unfold ScopedAt
    rw [form?_eq_of_nodes (hagree e he), hkin.children e, hkin.static]
    split
    · exact Iff.rfl
    · exact hloop _
    · exact hloop _
    · exact forall₂_congr fun c hc => hbelow c hc names

theorem scoped_pair_iff {P Q : ExprId → Prop} : (P source ∧ Q body) ↔ ∃ i j, [source, body] = [i, j] ∧ P i ∧ Q j := by
  constructor
  · exact fun h => ⟨source, body, rfl, h⟩
  · rintro ⟨i, j, heq, h⟩
    cases heq
    exact h

def Program.CallsFound (p : Program) (lo hi : Nat) : Prop :=
  ∀ i, Inside lo hi i → ∀ name f, p.form? i = some (.call name f) →
    ∃ entry, p.static.functions.resolve name (p.children i).length
      p.static.settings.defaultFunctionNamespace = .ok entry

theorem errorCode_format (code : ErrorCode) (args : List String) : (Error.format code args).errorCode = code := by
  cases code <;> rfl

/-! ## Marks -/

namespace Program

def MarkedAt (p : Program) (e : ExprId) : Prop :=
  p.isContextSensitive e = p.dependsOnFocus e

def StartsInside (p : Program) (e : ExprId) : Prop :=
  ∀ plan x, p.form? e = some (.path plan) → plan.start = .expr x → x ∈ p.children e

variable {p q : Program} {e : ExprId}

theorem dependsOnFocus_congr (hform : q.form? e = p.form? e) (hchildren : q.children e = p.children e)
    (hmarks : ∀ c ∈ p.children e, q.isContextSensitive c = p.isContextSensitive c)
    (hstart : p.StartsInside e) : q.dependsOnFocus e = p.dependsOnFocus e := by
  have hany : (p.children e).any q.isContextSensitive = (p.children e).any p.isContextSensitive := by
    rw [Bool.eq_iff_iff, any_eq_true, any_eq_true]
    exact exists_congr fun c => and_congr_right fun hc => by rw [hmarks c hc]
  unfold dependsOnFocus
  rw [hform, hchildren, hany]
  cases hcase : p.form? e with
  | none => rfl
  | some form =>
    cases form with
    | path plan =>
      dsimp only
      cases hs : plan.start with
      | context | root => rfl
      | expr x => exact hmarks x (hstart plan x hcase hs)
    | filter steps =>
      cases hc : p.children e with
      | nil => rfl
      | cons c cs => exact hmarks c (hc ▸ (.head _))
    | _ => rfl

/-- A number without a node is marked right. -/
theorem markedAt_of_none (h : p.nodes[e]? = none) : p.MarkedAt e := by
  simp [MarkedAt, isContextSensitive, dependsOnFocus, form?, children, h]

theorem isContextSensitive_mark (p : Program) (e : ExprId) : (p.modify e fun node =>
      { node with contextSensitive := p.dependsOnFocus e, bound := true }).isContextSensitive e =
      p.dependsOnFocus e := by
  cases hnode : p.nodes[e]? with
  | none =>
    rw [← markedAt_of_none hnode]
    simp [isContextSensitive, nodes_modify, hnode]
  | some node => simp [isContextSensitive, nodes_modify, hnode]

/-- What binding makes of a path starts where the path did. -/
theorem startsInside_of_filled (hfits : p.FitsAt e) (hfilled : p.FilledAt q e)
    (hchildren : q.children e = p.children e) : q.StartsInside e := by
  obtain ⟨old, hold, hfit⟩ := hfits
  obtain ⟨new, hnew, hfills⟩ := hfilled old hold
  intro plan x hplan hx
  cases hnew.symm.trans hplan
  cases old with
  | path plan' =>
    cases hfills
    have hstart : plan'.start = .expr x := hx
    rw [hchildren, ← hfit.1, PathPlan.parts, hstart]
    exact mem_append_left _ (mem_singleton_self x)
  | filter steps => cases hfills
  | «variable» name binding | call name function | forEach name binding | quantified q name binding =>
    obtain ⟨_, _, h⟩ := hfills
    cases h
  | _ => cases hfills

end Program

end XPath
