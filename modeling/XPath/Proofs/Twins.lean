import XPath.Proofs.Drains
import XPath.Proofs.Scoping

/-!
# One expression in two programs

An expression that is compiled as part of two others has other numbers in the two programs, and its variables
may have other slots. `Counterparts` are the nodes that spell out the same expression. Binding fills in the
same on both sides (`Form.Echoes.fills`), and the marks are the same (`Counterparts.marks`). So in an
environment that both programs read alike, counterparts compute the same (`steady_twins`).
-/

namespace XPath

open List Option

open Program

variable {form new form' : Form} {cs cs' : List ExprId} {s : PathStart} {α β : Type} {x : Expr}
  {twin : ExprId → ExprId → Prop} {g : List Item} {ins outs : List (List Item)}

/-! ## Nodes that spell out the same -/

/-- Forms that two layouts give to one expression, where `R` relates the nodes below. -/
inductive Form.Echoes (R : ExprId → ExprId → Prop) : Form → Form → Prop
  | same {form : Form} (path : ∀ plan, form ≠ .path plan) (filter : ∀ steps, form ≠ .filter steps) :
      Echoes R form form
  | path {start start' : PathStart} {steps steps' : List Step} (first : start.Alike R start')
      (rest : List.Forall₂ (Step.Twins R) steps steps') :
      Echoes R (.path ⟨start, steps, false, true, false⟩) (.path ⟨start', steps', false, true, false⟩)
  | filter {steps steps' : List Step} (all : List.Forall₂ (Step.Twins R) steps steps') :
      Echoes R (.filter steps) (.filter steps')

section

variable (At At' : ExprId → Form → List ExprId → Prop) (c : StaticContext)

def Counterparts (e e' : ExprId) : Prop :=
  ∃ x, Spells At c x e ∧ Spells At' c x e'

def Echoing (e e' : ExprId) : Prop :=
  ∃ form form' cs cs', At e form cs ∧ At' e' form' cs' ∧ form.Echoes (Counterparts At At' c) form' ∧
    List.Forall₂ (Counterparts At At' c) cs cs'

end

section

variable {At At' : ExprId → Form → List ExprId → Prop} {c : StaticContext} {e e' : ExprId}
  {R : ExprId → ExprId → Prop}

theorem Echoing.same (h : At e form cs) (h' : At' e' form cs') (hpath : ∀ plan, form ≠ .path plan)
    (hfilter : ∀ steps, form ≠ .filter steps) (hcs : List.Forall₂ (Counterparts At At' c) cs cs') :
    Echoing At At' c e e' :=
  ⟨form, form, cs, cs', h, h', .same hpath hfilter, hcs⟩

theorem forall₂_filterMap_expr? {steps steps' : List Step} (h : List.Forall₂ (Step.Twins R) steps steps') :
    List.Forall₂ R (steps.filterMap Step.expr?) (steps'.filterMap Step.expr?) := by
  induction h with
  | nil => exact .nil
  | cons hstep _ ih =>
    cases hstep with
    | axis | descent | position => exact ih
    | predicate h | expr nodesOnly h => exact .cons h ih

theorem forall₂_predicates {ids ids' : List ExprId} (h : List.Forall₂ R ids ids') :
    List.Forall₂ (Step.Twins R) (ids.map .predicate) (ids'.map .predicate) := by
  induction h with
  | nil => exact .nil
  | cons h _ ih => exact .cons (.predicate h) ih

theorem SpellsAll.counterparts {xs : List Expr} :
    ∀ {ids ids' : List ExprId}, SpellsAll At c xs ids → SpellsAll At' c xs ids' →
      List.Forall₂ (Counterparts At At' c) ids ids' := by
  induction xs with
  | nil =>
    intro ids ids' h h'
    rw [SpellsAll] at h h'
    rw [h, h']
    exact .nil
  | cons x xs ih =>
    intro ids ids' h h'
    rw [SpellsAll] at h h'
    obtain ⟨i, is, hx, hxs, rfl⟩ := h
    obtain ⟨i', is', hx', hxs', rfl⟩ := h'
    exact .cons ⟨x, hx, hx'⟩ (ih hxs hxs')

theorem SpellsSteps.counterparts {steps : List PathStep} :
    ∀ {out out' : List Step}, SpellsSteps At c steps out → SpellsSteps At' c steps out' →
      List.Forall₂ (Step.Twins (Counterparts At At' c)) out out' := by
  induction steps with
  | nil =>
    intro out out' h h'
    rw [SpellsSteps] at h h'
    rw [h, h']
    exact .nil
  | cons step steps ih =>
    intro out out' h h'
    cases step with
    | axis a test predicates =>
      rw [SpellsSteps] at h h'
      obtain ⟨t, ids, tail, ht, hids, htail, rfl⟩ := h
      obtain ⟨t', ids', tail', ht', hids', htail', rfl⟩ := h'
      obtain rfl : t = t' := Except.ok.inj (ht.symm.trans ht')
      exact .cons (.axis a (some t))
        (rel_append (forall₂_predicates (hids.counterparts hids')) (ih htail htail'))
    | expr x =>
      rw [SpellsSteps] at h h'
      obtain ⟨i, tail, hx, htail, rfl⟩ := h
      obtain ⟨i', tail', hx', htail', rfl⟩ := h'
      exact .cons (.expr false ⟨x, hx, hx'⟩) (ih htail htail')

theorem SpellsStart.counterparts {start : Start} {s' : PathStart} {first first' : List Step}
    (h : SpellsStart At c start s first) (h' : SpellsStart At' c start s' first') :
    s.Alike (Counterparts At At' c) s' ∧ List.Forall₂ (Step.Twins (Counterparts At At' c)) first first' := by
  cases start with
  | root =>
    rw [SpellsStart] at h h'
    obtain ⟨rfl, rfl⟩ := h
    obtain ⟨rfl, rfl⟩ := h'
    exact ⟨.root, .nil⟩
  | rootDescendant =>
    rw [SpellsStart] at h h'
    obtain ⟨rfl, rfl⟩ := h
    obtain ⟨rfl, rfl⟩ := h'
    exact ⟨.root, .cons (.axis _ _) .nil⟩
  | relative =>
    rw [SpellsStart] at h h'
    obtain ⟨rfl, rfl⟩ := h
    obtain ⟨rfl, rfl⟩ := h'
    exact ⟨.context, .nil⟩
  | expr x =>
    rw [SpellsStart] at h h'
    obtain ⟨i, hx, rfl, rfl⟩ := h
    obtain ⟨i', hx', rfl, rfl⟩ := h'
    exact ⟨.expr ⟨x, hx, hx'⟩, .nil⟩

theorem PathStart.Alike.expr? {start start' : PathStart} (h : start.Alike R start') :
    List.Forall₂ R start.expr?.toList start'.expr?.toList := by
  cases h with
  | context | root => exact .nil
  | expr h => exact .cons h .nil

/-- The node of a path with steps. -/
theorem SpellsPath.of_ne_nil {steps : List Step} (hsteps : steps ≠ []) (h : SpellsPath At s steps e) :
    At e (.path ⟨s, steps, false, true, false⟩) (s.expr?.toList ++ steps.filterMap Step.expr?) := by
  cases steps with
  | nil => exact absurd rfl hsteps
  | cons step steps => cases s <;> exact h

theorem SpellsLoop.echoing {q : Option Quantifier} {bindings : List VarBinding} {body : Expr}
    (whole : List VarBinding → Expr)
    (hwhole : ∀ {At bindings e}, SpellsLoop At c q bindings (Spells At c body) e → Spells At c (whole bindings) e)
    (h : SpellsLoop At c q bindings (Spells At c body) e)
    (h' : SpellsLoop At' c q bindings (Spells At' c body) e') : Echoing At At' c e e' := by
  have hpath : ∀ var plan, loopForm q var ≠ .path plan := by cases q <;> nofun
  have hfilter : ∀ var steps, loopForm q var ≠ .filter steps := by cases q <;> nofun
  match bindings, h, h' with
  | [], h, _ =>
    rw [SpellsLoop] at h
    exact h.elim
  | [.mk name source], h, h' =>
    rw [SpellsLoop] at h h'
    obtain ⟨var, i, j, hvar, hsource, hbody, hat⟩ := h
    obtain ⟨var', i', j', hvar', hsource', hbody', hat'⟩ := h'
    obtain rfl : var = var' := Except.ok.inj (hvar.symm.trans hvar')
    exact .same hat hat' (hpath var) (hfilter var)
      (.cons ⟨source, hsource, hsource'⟩ (.cons ⟨body, hbody, hbody'⟩ .nil))
  | .mk name source :: next :: rest, h, h' =>
    rw [SpellsLoop] at h h'
    case x_3 => exact cons_ne_nil next rest
    case x_3 => exact cons_ne_nil next rest
    obtain ⟨var, i, j, hvar, hsource, hrest, hat⟩ := h
    obtain ⟨var', i', j', hvar', hsource', hrest', hat'⟩ := h'
    obtain rfl : var = var' := Except.ok.inj (hvar.symm.trans hvar')
    exact .same hat hat' (hpath var) (hfilter var)
      (.cons ⟨source, hsource, hsource'⟩ (.cons ⟨whole (next :: rest), hwhole hrest, hwhole hrest'⟩ .nil))

/-- Nodes that spell out the same expression have the same form. Paths without steps and filters without
predicates have no node of their own. -/
theorem Spells.echoing : ∀ (x : Expr) {e e' : ExprId}, Spells At c x e → Spells At' c x e' → Echoing At At' c e e'
  | .literal l, e, e', h, h' => by
    rw [Spells] at h h'
    exact .same h h' (by cases l <;> nofun) (by cases l <;> nofun) .nil
  | .contextItem, e, e', h, h' => by
    rw [Spells] at h h'
    exact .same h h' nofun nofun .nil
  | .variable q, e, e', h, h' => by
    rw [Spells] at h h'
    obtain ⟨name, hname, hat⟩ := h
    obtain ⟨name', hname', hat'⟩ := h'
    obtain rfl : name = name' := Except.ok.inj (hname.symm.trans hname')
    exact .same hat hat' nofun nofun .nil
  | .call q args, e, e', h, h' => by
    rw [Spells] at h h'
    obtain ⟨name, ids, hname, hargs, hat⟩ := h
    obtain ⟨name', ids', hname', hargs', hat'⟩ := h'
    obtain rfl : name = name' := Except.ok.inj (hname.symm.trans hname')
    exact .same hat hat' nofun nofun (hargs.counterparts hargs')
  | .sequence items, e, e', h, h' => by
    rw [Spells] at h h'
    obtain ⟨ids, hitems, hat⟩ := h
    obtain ⟨ids', hitems', hat'⟩ := h'
    exact .same hat hat' nofun nofun (hitems.counterparts hitems')
  | .binary op l r, e, e', h, h' => by
    rw [Spells] at h h'
    obtain ⟨i, j, hl, hr, hat⟩ := h
    obtain ⟨i', j', hl', hr', hat'⟩ := h'
    exact .same hat hat' (by cases op <;> nofun) (by cases op <;> nofun)
      (.cons ⟨l, hl, hl'⟩ (.cons ⟨r, hr, hr'⟩ .nil))
  | .negate x, e, e', h, h' => by
    rw [Spells] at h h'
    obtain ⟨i, hx, hat⟩ := h
    obtain ⟨i', hx', hat'⟩ := h'
    exact .same hat hat' nofun nofun (.cons ⟨x, hx, hx'⟩ .nil)
  | .ifThenElse x y z, e, e', h, h' => by
    rw [Spells] at h h'
    obtain ⟨i, j, k, hx, hy, hz, hat⟩ := h
    obtain ⟨i', j', k', hx', hy', hz', hat'⟩ := h'
    exact .same hat hat' nofun nofun (.cons ⟨x, hx, hx'⟩ (.cons ⟨y, hy, hy'⟩ (.cons ⟨z, hz, hz'⟩ .nil)))
  | .forEach bindings body, e, e', h, h' => by
    rw [Spells] at h h'
    refine SpellsLoop.echoing (.forEach · body) ?_ h h'
    intro At bindings e h
    rw [Spells]
    exact h
  | .quantified q bindings body, e, e', h, h' => by
    rw [Spells] at h h'
    refine SpellsLoop.echoing (.quantified q · body) ?_ h h'
    intro At bindings e h
    rw [Spells]
    exact h
  | .path start steps, e, e', h, h' => by
    rw [Spells] at h h'
    obtain ⟨s, first, rest, hstart, hsteps, hpath⟩ := h
    obtain ⟨s', first', rest', hstart', hsteps', hpath'⟩ := h'
    obtain ⟨hs, hfirst⟩ := hstart.counterparts hstart'
    have htwins : List.Forall₂ (Step.Twins (Counterparts At At' c)) (first ++ rest) (first' ++ rest') :=
      rel_append hfirst (hsteps.counterparts hsteps')
    by_cases hnil : first ++ rest = []
    · have hnil' : first' ++ rest' = [] := by
        rw [hnil] at htwins
        exact forall₂_nil_left_iff.mp htwins
      rw [hnil] at hpath
      rw [hnil'] at hpath'
      cases hs with
      | context | root => exact .same hpath hpath' nofun nofun .nil
      | expr =>
        match start, hstart, hstart' with
        | .expr x, hstart, hstart' =>
          rw [SpellsStart] at hstart hstart'
          obtain ⟨i, hx, hi, -⟩ := hstart
          obtain ⟨i', hx', hi', -⟩ := hstart'
          cases hi
          cases hi'
          rw [show e = _ from hpath, show e' = _ from hpath']
          exact Spells.echoing x hx hx'
        | .root, hstart, _ | .rootDescendant, hstart, _ | .relative, hstart, _ =>
          rw [SpellsStart] at hstart
          cases hstart.1
    · have hcons' : first' ++ rest' ≠ [] := by
        intro hnil'
        rw [hnil'] at htwins
        exact hnil (forall₂_nil_right_iff.mp htwins)
      exact ⟨_, _, _, _, hpath.of_ne_nil hnil, hpath'.of_ne_nil hcons', .path hs htwins,
        rel_append hs.expr? (forall₂_filterMap_expr? htwins)⟩
  | .filter base predicates, e, e', h, h' => by
    rw [Spells] at h h'
    obtain ⟨i, ids, hbase, hids, hfilter⟩ := h
    obtain ⟨i', ids', hbase', hids', hfilter'⟩ := h'
    have htwins := hids.counterparts hids'
    cases htwins with
    | nil =>
      rw [show e = i from hfilter, show e' = i' from hfilter']
      exact Spells.echoing base hbase hbase'
    | cons hid htail =>
      exact ⟨_, _, _, _, hfilter, hfilter', .filter (forall₂_predicates (.cons hid htail)),
        .cons ⟨base, hbase, hbase'⟩ (.cons hid htail)⟩

theorem Counterparts.echoing (h : Counterparts At At' c e e') : Echoing At At' c e e' := by
  obtain ⟨x, hx, hx'⟩ := h
  exact Spells.echoing x hx hx'

end

/-! ## What is filled in -/

/-- The form without what binding fills in. -/
def Form.sketch : Form → Form
  | .variable name _ => .variable name none
  | .call name _ => .call name none
  | .path _ => .path ⟨.context, [], false, false, false⟩
  | .filter _ => .filter []
  | .forEach var _ => .forEach var none
  | .quantified q var _ => .quantified q var none
  | form => form

theorem Form.Fills.sketch_eq {q : Program} (h : form.Fills q cs new) : new.sketch = form.sketch := by
  cases form with
  | «variable» name b =>
    obtain ⟨b, -, rfl⟩ := h
    rfl
  | call name f =>
    obtain ⟨f, -, rfl⟩ := h
    rfl
  | forEach var b | quantified k var b =>
    obtain ⟨b, -, rfl⟩ := h
    rfl
  | _ =>
    subst h
    rfl

theorem Form.Echoes.sketch_eq {R : ExprId → ExprId → Prop} (h : form.Echoes R form') : form.sketch = form'.sketch := by
  cases h <;> rfl

theorem Form.loopVariable?_sketch (form : Form) : form.sketch.loopVariable? = form.loopVariable? := by
  cases form <;> rfl

section

variable {q q' : Program} {e e' : ExprId}

theorem Form.sketch_eq_literal_iff {a : AtomicValue} : form.sketch = .literal a ↔ form = .literal a := by
  cases form <;> simp [Form.sketch]

theorem Program.literalPosition_eq_none (h : ∀ a, q.form? e ≠ some (.literal a)) : q.literalPosition e = none := by
  unfold Program.literalPosition
  split
  · next hform => exact absurd hform (h _)
  · next hform => exact absurd hform (h _)
  · next hform => exact absurd hform (h _)
  · rfl

theorem literalPosition_of_sketch (h : (q.form? e).map Form.sketch = (q'.form? e').map Form.sketch) :
    q.literalPosition e = q'.literalPosition e' := by
  have hform : ∀ a, q.form? e = some (.literal a) ↔ q'.form? e' = some (.literal a) := by
    intro a
    have hliteral : ∀ {form : Option Form}, form.map Form.sketch = some (.literal a) ↔ form = some (.literal a) := by
      intro form
      cases form with
      | none => simp
      | some form => simp [Form.sketch_eq_literal_iff]
    rw [← hliteral, h, hliteral]
  by_cases hliteral : ∃ a, q.form? e = some (.literal a)
  · obtain ⟨a, ha⟩ := hliteral
    unfold Program.literalPosition
    rw [ha, (hform a).mp ha]
  · have hnone := not_exists.mp hliteral
    rw [literalPosition_eq_none hnone, literalPosition_eq_none fun a ha => hnone a ((hform a).mpr ha)]

theorem startFacts_of_sketch (h : (q.form? e).map Form.sketch = (q'.form? e').map Form.sketch) :
    q.startFacts (.expr e) = q'.startFacts (.expr e') := by
  have hsketch : Form.startsOrdered = Form.startsOrdered ∘ Form.sketch := by
    funext form
    cases form <;> rfl
  rw [startFacts_expr, startFacts_expr, hsketch, ← Option.map_map, ← Option.map_map, h]

end

section

variable {R : ExprId → ExprId → Prop} {steps steps' : List Step} {step step' : Step}

theorem Step.Twins.isFilter_eq (h : step.Twins R step') : step.isFilter = step'.isFilter := by
  cases h <;> rfl

section

variable (h : List.Forall₂ (Step.Twins R) steps steps')

include h

theorem any_navigates_eq : steps.any (!·.isFilter) = steps'.any (!·.isFilter) := by
  induction h with
  | nil => rfl
  | cons hstep _ ih => rw [any_cons, any_cons, hstep.isFilter_eq, ih]

omit h in
theorem forall₂_fixPositions {literal literal' : ExprId → Option Nat}
    (hliteral : ∀ e e', R e e' → literal e = literal' e') (h : List.Forall₂ (Step.Twins R) steps steps') :
    List.Forall₂ (Step.Twins R) (fixPositions literal steps) (fixPositions literal' steps') := by
  induction h with
  | nil => exact .nil
  | cons hstep _ ih =>
    refine .cons ?_ ih
    cases hstep with
    | axis ax test => exact .axis ax test
    | descent tests => exact .descent tests
    | position n => exact .position n
    | expr nodesOnly h => exact .expr nodesOnly h
    | @predicate e e' h =>
      dsimp only
      rw [← hliteral e e' h]
      cases literal e with
      | none => exact .predicate h
      | some n => exact .position n

theorem startsWithFilter_eq : startsWithFilter steps = startsWithFilter steps' := by
  cases h with
  | nil => rfl
  | cons hstep _ => exact hstep.isFilter_eq

theorem childRun_eq : childRun steps = childRun steps' := by
  induction h with
  | nil => rfl
  | cons hstep htail ih =>
    cases hstep with
    | axis ax test =>
      cases ax with
      | child =>
        unfold childRun
        rw [startsWithFilter_eq htail, ih]
      | _ => rfl
    | descent | position | predicate | expr => rfl

omit h in
theorem Step.Twins.reachesAll_eq (h : step.Twins R step') : step.reachesAll = step'.reachesAll := by
  cases h <;> rfl

theorem forall₂_mergeRuns (k : Nat) : List.Forall₂ (Step.Twins R) (mergeRuns k steps) (mergeRuns k steps') := by
  induction h generalizing k with
  | nil =>
    exact .nil
  | cons hstep htail ih =>
    cases k with
    | succ k => exact ih k
    | zero =>
      unfold mergeRuns
      rw [hstep.reachesAll_eq, startsWithFilter_eq htail, childRun_eq htail]
      split
      · split
        · exact .cons hstep (ih 0)
        · exact .cons (.axis _ _) (ih 1)
        · exact .cons (.descent _) (ih _)
      · exact .cons hstep (ih 0)

theorem forall₂_markNodesOnly : List.Forall₂ (Step.Twins R) (markNodesOnly steps) (markNodesOnly steps') := by
  induction h with
  | nil => exact .nil
  | cons hstep htail ih =>
    cases hstep with
    | axis ax test => exact .cons (.axis ax test) ih
    | descent tests => exact .cons (.descent tests) ih
    | position n => exact .cons (.position n) ih
    | predicate h => exact .cons (.predicate h) ih
    | expr nodesOnly h =>
      unfold markNodesOnly
      rw [any_navigates_eq htail]
      exact .cons (.expr _ h) ih

theorem isOrdered_eq (facts : OrderFacts) : isOrdered steps facts = isOrdered steps' facts := by
  induction h generalizing facts with
  | nil => rfl
  | cons hstep _ ih =>
    have hafter : ∀ {step step'}, Step.Twins R step step' → facts.after step = facts.after step' := by
      intro step step' h
      cases h <;> rfl
    unfold isOrdered at ih ⊢
    rw [foldl_cons, foldl_cons, hafter hstep]
    exact ih _

end

theorem matched_of_forall₂ {R : α → β → Prop} {as : List α} {bs : List β} (h : List.Forall₂ R as bs) :
    Matched (fun _ => R) as bs := by
  induction h with
  | nil => exact .nil
  | cons h _ ih => exact .cons h ih

structure SameVariable (q q' : Program) (b b' : Binding) : Prop where
  name : b.name = b'.name
  left : b.name ∈ q.variableNames
  right : b.name ∈ q'.variableNames

/-- Binding fills in the same in two layouts of one expression. -/
theorem Form.Echoes.fills {q q' : Program} {new' : Form} (h : form.Echoes R form') (hstatic : q.static = q'.static)
    (hsketch : ∀ e e', R e e' → (q.form? e).map Form.sketch = (q'.form? e').map Form.sketch)
    (hlength : cs.length = cs'.length) (hnew : form.Fills q cs new) (hnew' : form'.Fills q' cs' new')
    (hvar : ∀ var, new.loopVariable? = some var → var ∈ q.variableNames)
    (hvar' : ∀ var, new'.loopVariable? = some var → var ∈ q'.variableNames) :
    new.Twins R (SameVariable q q') true new' := by
  have hliteral : ∀ e e', R e e' → q.literalPosition e = q'.literalPosition e' :=
    fun e e' he => literalPosition_of_sketch (hsketch e e' he)
  have hloop : ∀ {var b b'}, b.OfLoop q cs var → b'.OfLoop q' cs' var → var ∈ q.variableNames →
      var ∈ q'.variableNames → SameVariable q q' b b' :=
    fun hb hb' h h' => ⟨hb.name.trans hb'.name.symm, hb.name ▸ h, hb.name ▸ h'⟩
  cases h with
  | @path start start' _ _ first rest =>
    have hsteps : List.Forall₂ (Step.Twins R) _ _ :=
      forall₂_markNodesOnly (forall₂_mergeRuns (forall₂_fixPositions hliteral rest) 0)
    obtain rfl := hnew
    obtain rfl := hnew'
    refine .path first (matched_of_forall₂ hsteps) ⟨?_, ?_⟩
    · have hfacts : q.startFacts start = q'.startFacts start' := by
        cases first with
        | context | root => rfl
        | expr he => exact startFacts_of_sketch (hsketch _ _ he)
      unfold planPath
      rw [hstatic, hfacts]
      exact congrArg (fun ordered => !ordered || _) (isOrdered_eq hsteps _)
    · unfold planPath
      have hany := any_navigates_eq hsteps
      cases first with
      | context | root => rfl
      | expr he => exact hany
  | filter all =>
    obtain rfl := hnew
    obtain rfl := hnew'
    exact .filter (matched_of_forall₂ (forall₂_mergeRuns (forall₂_fixPositions hliteral all) 0))
  | same hpath hfilter =>
    cases form with
    | «variable» name b =>
      obtain ⟨b, hb, rfl⟩ := hnew
      obtain ⟨b', hb', rfl⟩ := hnew'
      exact .variable name nofun
    | call name f =>
      obtain ⟨f, hf, rfl⟩ := hnew
      obtain ⟨f', hf', rfl⟩ := hnew'
      rw [hstatic, hlength] at hf
      obtain rfl : f = f' := Except.ok.inj (hf.symm.trans hf')
      exact .call name (some f)
    | path plan => exact absurd rfl (hpath plan)
    | filter steps => exact absurd rfl (hfilter steps)
    | forEach var b =>
      obtain ⟨b, hb, rfl⟩ := hnew
      obtain ⟨b', hb', rfl⟩ := hnew'
      exact .forEach var var (hloop hb hb' (hvar var rfl) (hvar' var rfl))
    | quantified k var b =>
      obtain ⟨b, hb, rfl⟩ := hnew
      obtain ⟨b', hb', rfl⟩ := hnew'
      exact .quantified k var var (hloop hb hb' (hvar var rfl) (hvar' var rfl))
    | sequence =>
      obtain rfl := hnew
      obtain rfl := hnew'
      exact .sequence
    | _ =>
      obtain rfl := hnew
      obtain rfl := hnew'
      exact .direct rfl

end

/-! ## Compiled programs -/

/-- A program and the layout that it has been filled in from. -/
structure FilledIn (c : StaticContext) (p q : Program) : Prop where
  static : q.static = c
  children : ∀ e, q.children e = p.children e
  form : ∀ {e form}, p.form? e = some form → ∃ new, q.form? e = some new ∧ form.Fills q (q.children e) new
  descending : ∀ e i : Nat, i ∈ q.children e → i < e
  start : ∀ {e plan i}, q.form? e = some (.path plan) → plan.start = .expr i → i ∈ q.children e
  marked : ∀ e, q.MarkedAt e

def Mention.loop? : Mention → Option ExpandedName
  | .loop var => some var
  | .call .. => none

theorem LaidOut.variableNames_eq {c : StaticContext} {root : ExprId} {p : Program} (h : LaidOut c x root p) :
    p.variableNames = c.settings.externals ++ (x.mentions c).filterMap Mention.loop? := by
  have hnodes : p.nodes.toList.map some = (range p.size).map (p.nodes[·]?) := by
    refine ext_getElem? fun i => ?_
    by_cases hi : i < p.size
    · have hi' : i < p.nodes.size := hi
      simp [hi, hi']
    · have hi' : ¬ i < p.nodes.size := hi
      simp [hi, hi']
  have hloops : p.nodes.toList.filterMap (·.form.loopVariable?) = p.mentions.filterMap Mention.loop? := by
    have hmap : p.nodes.toList.filterMap (·.form.loopVariable?) =
        (p.nodes.toList.map some).filterMap (·.bind (·.form.loopVariable?)) := by
      rw [filterMap_map]
      rfl
    rw [hmap, hnodes, filterMap_map, Program.mentions, filterMap_filterMap]
    refine filterMap_congr ?_
    intro i _
    unfold mentionAt form?
    dsimp only [Function.comp_apply]
    cases p.nodes[i]? with
    | none => rfl
    | some node =>
      dsimp only [map_some, bind_some]
      cases node.form <;> rfl
  unfold variableNames
  rw [h.static, hloops, h.mentions]

theorem filledIn_of_compile {c : StaticContext} {q : Query} (hq : compile c x = .ok q) :
    ∃ p, LaidOut c x q.root p ∧ FilledIn c p q.program ∧
      q.program.variableNames = c.settings.externals ++ (x.mentions c).filterMap Mention.loop? := by
  obtain ⟨p, hlaid, hkin, hfilled⟩ := filled_of_compile hq
  have hform : ∀ {e form}, p.form? e = some form →
      ∃ new, q.program.form? e = some new ∧ form.Fills q.program (q.program.children e) new := by
    intro e form he
    refine hfilled e ?_ form he
    obtain ⟨node, hnode, -⟩ := map_eq_some_iff.mp he
    exact (Array.getElem?_eq_some_iff.mp hnode).1
  have hcompiled := compiled_of_compile hq
  refine ⟨p, hlaid, ⟨hkin.static.trans hlaid.static, hkin.children, hform, hcompiled.descending, ?_,
    marked_of_compile hq⟩, ?_⟩
  · intro e plan i he hstart
    refine (hcompiled.filled e _ he).2 (mem_append_left _ ?_)
    rw [hstart]
    exact mem_singleton_self i
  · rw [← hlaid.variableNames_eq]
    refine variableNames_congr hkin.static fun i => ?_
    cases hp : p.nodes[i]? with
    | none =>
      have hsize : p.nodes.size ≤ i := Array.getElem?_eq_none_iff.mp hp
      have hsize' : q.program.nodes.size ≤ i := by
        have := hkin.size
        unfold Program.size at this
        omega
      rw [Array.getElem?_eq_none hsize']
    | some node =>
      obtain ⟨new, hnew, hfills⟩ := hform (show p.form? i = some node.form by rw [form?, hp]; rfl)
      obtain ⟨node', hnode', rfl⟩ := map_eq_some_iff.mp hnew
      rw [hnode']
      dsimp only [map_some]
      rw [← Form.loopVariable?_sketch, hfills.sketch_eq, Form.loopVariable?_sketch]

section

variable {c : StaticContext} {p p' q q' : Program} {e e' : ExprId}

theorem Counterparts.sketch_eq (h : FilledIn c p q) (h' : FilledIn c p' q')
    (he : Counterparts p.At p'.At c e e') : (q.form? e).map Form.sketch = (q'.form? e').map Form.sketch := by
  obtain ⟨form, form', cs, cs', ⟨hform, -⟩, ⟨hform', -⟩, hechoes, -⟩ := he.echoing
  obtain ⟨new, hnew, hfills⟩ := h.form hform
  obtain ⟨new', hnew', hfills'⟩ := h'.form hform'
  rw [hnew, hnew', map_some, map_some, hfills.sketch_eq, hfills'.sketch_eq, hechoes.sketch_eq]

/-- What counterparts have become. -/
theorem Counterparts.twins (h : FilledIn c p q) (h' : FilledIn c p' q') (he : Counterparts p.At p'.At c e e') :
    ∃ new new', q.form? e = some new ∧ q'.form? e' = some new' ∧
      new.Twins (Counterparts p.At p'.At c) (SameVariable q q') true new' ∧
      List.Forall₂ (Counterparts p.At p'.At c) (q.children e) (q'.children e') := by
  obtain ⟨form, form', _, _, ⟨hform, rfl⟩, ⟨hform', rfl⟩, hechoes, hchildren⟩ := he.echoing
  obtain ⟨new, hnew, hfills⟩ := h.form hform
  obtain ⟨new', hnew', hfills'⟩ := h'.form hform'
  rw [← h.children, ← h'.children] at hchildren
  refine ⟨new, new', hnew, hnew', ?_, hchildren⟩
  exact hechoes.fills (h.static.trans h'.static.symm) (fun _ _ => Counterparts.sketch_eq h h')
    hchildren.length_eq hfills hfills' (fun _ => mem_variableNames hnew) (fun _ => mem_variableNames hnew')

theorem any_marks_eq {R : ExprId → ExprId → Prop} (h : List.Forall₂ R cs cs')
    (hmarks : ∀ i ∈ cs, ∀ i', R i i' → q.isContextSensitive i = q'.isContextSensitive i') :
    cs.any q.isContextSensitive = cs'.any q'.isContextSensitive := by
  induction h with
  | nil => rfl
  | cons hi _ ih =>
    rw [any_cons, any_cons, hmarks _ mem_cons_self _ hi,
      ih fun i hi => hmarks i (.tail _ hi)]

/-- Counterparts are marked alike: by induction on the node, since what is below it comes before it. -/
theorem Counterparts.marks (h : FilledIn c p q) (h' : FilledIn c p' q') :
    ∀ {e e' : ExprId}, Counterparts p.At p'.At c e e' → q.isContextSensitive e = q'.isContextSensitive e' := by
  intro e
  induction e using Nat.strongRecOn with
  | ind e ih =>
    intro e' he
    obtain ⟨new, new', hnew, hnew', htwins, hchildren⟩ := he.twins h h'
    have hbelow : ∀ i ∈ q.children e, ∀ i', Counterparts p.At p'.At c i i' →
        q.isContextSensitive i = q'.isContextSensitive i' := by
      exact fun i hi i' hii => ih i (h.descending e i hi) hii
    have hany := any_marks_eq hchildren hbelow
    rw [h.marked, h'.marked]
    unfold dependsOnFocus
    rw [hnew, hnew', hany]
    cases htwins with
    | direct hdirect =>
      cases new with
      | call | path | filter => cases hdirect
      | _ => rfl
    | «variable» name hb | call name f | forEach var var' hb | quantified k var var' hb | sequence => rfl
    | filter all =>
      generalize hcs : q.children e = cs at hchildren hbelow
      generalize q'.children e' = cs' at hchildren
      cases hchildren with
      | nil => rfl
      | cons hi _ => exact hbelow _ mem_cons_self _ hi
    | @path plan plan' start steps flags =>
      dsimp only
      cases hs : plan.start with
      | context | root =>
        rw [hs] at start
        generalize plan'.start = s' at start
        cases start
        rfl
      | expr i =>
        rw [hs] at start
        generalize plan'.start = s' at start
        cases start with
        | expr hi => exact hbelow i (h.start hnew hs) _ hi

/-! ## Runs of counterparts -/

/-- Environments of two programs in which every name stands for the same. -/
def SameValues (q q' : Program) (σ τ : Slots) : Prop :=
  ∀ name, σ.get? (q.cell name) = τ.get? (q'.cell name)

/-- External variables come first, and other variables have no values to begin with. -/
theorem SameValues.external {σ : Slots} (hq : q.static = c) (hq' : q'.static = c)
    (hσ : ∀ i, c.settings.externals.length ≤ i → σ.get? i = none) : SameValues q q' σ σ := by
  subst hq
  intro name
  unfold cell variableNames
  rw [hq', idxOf_append, idxOf_append]
  split
  · rfl
  · rw [hσ _ (Nat.le_add_left ..), hσ _ (Nat.le_add_left ..)]

theorem SameValues.symm {σ τ : Slots} (h : SameValues q q' σ τ) : SameValues q' q τ σ :=
  fun name => (h name).symm

theorem SameValues.set {b b' : Binding} {σ τ : Slots} (h : SameValues q q' σ τ) (hb : SameVariable q q' b b')
    (v : List Item) : SameValues q q' (σ.set (q.cell b.name) v) (τ.set (q'.cell b'.name) v) := by
  intro name
  rw [← hb.name]
  by_cases hname : name = b.name
  · rw [hname, Slots.get?_set_self, Slots.get?_set_self]
  · rw [Slots.get?_set_ne _ (cell_ne hb.left hname), Slots.get?_set_ne _ (cell_ne hb.right hname)]
    exact h name

/-- The terms on which two programs are compared that hold the same expressions. -/
def Terms.twins (q q' : Program) (twin : ExprId → ExprId → Prop) : Terms :=
  ⟨q, q', fun _ => True, twin, SameVariable q q', fun _ _ _ => Eq, fun _ => False, true, False,
    fun _ _ _ _ => False, SameValues q q'⟩

theorem Terms.parallel_twins (h : FilledIn c p q) (h' : FilledIn c p' q') :
    (Terms.twins q q' (Counterparts p.At p'.At c)).Parallel where
  settings := congrArg StaticContext.settings (h.static.trans h'.static.symm)
  form := by
    intro e e' he
    obtain ⟨new, new', hnew, hnew', htwins, -⟩ := Counterparts.twins h h' he
    change BoundAlike _ (q.form? e) (q'.form? e')
    rw [hnew, hnew']
    exact htwins
  children := by
    intro e e' he
    obtain ⟨-, -, -, -, -, hchildren⟩ := Counterparts.twins h h' he
    exact matched_of_forall₂ hchildren
  loops := by
    intro e e' name b body body' he _ hbody hbody'
    obtain ⟨-, -, -, -, -, hchildren⟩ := Counterparts.twins h h' he
    have hpair := (matched_of_forall₂ hchildren).2 1 body body' hbody hbody'
    exact ⟨Counterparts.marks h h' hpair, False.elim⟩

theorem Terms.keeping_twins (h : FilledIn c p q) (h' : FilledIn c p' q') :
    (Terms.twins q q' (Counterparts p.At p'.At c)).Keeping False Variables.lexical Eq where
  start := fun _ _ _ _ => rfl
  same := fun _ _ _ _ _ h => some.inj h
  learn := by
    intro n n' env e e' c s sel s' _ _ he _ _
    change q.kept e sel = q'.kept e' sel
    unfold Program.kept
    rw [Counterparts.marks h h' he]
  left := nofun
  right := nofun

theorem Terms.lexical_twins : (Terms.twins q q' twin).Lexical where
  pinned := rfl
  lookup := fun name _ _ h => h name
  extend := fun _ _ _ _ item hb h => h.set hb [item]
  pairs := fun _ _ _ _ _ _ _ h => h

theorem steady_twins (h : FilledIn c p q) (h' : FilledIn c p' q') :
    Steady (Terms.twins q q' (Counterparts p.At p'.At c)) False Variables.lexical Eq where
  pred := fun _ _ => Nat.succ.inj
  fuelLe := fun _ _ hn => .inl hn
  atomics := fun _ => trivial
  docWise := fun _ _ _ _ => trivial
  parallel := Terms.parallel_twins h h'
  keeping := Terms.keeping_twins h h'
  calls := fun _ _ _ _ => .level (fun _ => Script.sound_true _) id
  focusless := Terms.focusless_of_not fun _ h => h
  pairs := fun _ _ _ _ _ _ _ _ _ hpair => hpair.elim
  kept := Terms.lexical_twins.kept

theorem abreast_twins (σ τ : Slots) : Abreast (.twins q q' twin) (some (σ, τ)) Eq (.ofSlots σ) (.ofSlots τ) :=
  .inEnvironment rfl rfl (fun _ _ _ _ _ => trivial) rfl

theorem foci_twins {env : Envs} (snap : Snapshot) : FociFor (.twins q q' twin) Eq env e (.fixed snap) (.fixed snap) :=
  fun _ => .fixed fun _ _ => trivial

/-- Where all of it can be read, the value of an expression is what is read. -/
theorem Program.delivers_iff_read (hp : q.Pure) {σ : Slots} {snap : Snapshot} : q.Delivers σ e snap g ↔
      ∃ n s, (lexicalMachine n q).read e (.fixed snap) (.ofSlots σ) = some (.ok g, s) := by
  constructor
  · intro h
    obtain ⟨N, hN⟩ := h.exists_depth hp
    generalize hdepth : N + g.length + 2 = depth
    obtain ⟨c, t, out, hrun, -, -, hreads, rfl⟩ := hN depth 0 _ (.ofSlots σ) .fixed (by omega) rfl
      snap.fits_none
    have hroom : out.length < (lexicalMachine depth q).fuel := by
      rw [length_map] at hdepth
      rw [lexicalMachine, fuel_machineWith]
      omega
    obtain ⟨s, hdrain⟩ := hreads.drain hroom
    refine ⟨depth, s, ?_⟩
    rw [Calls.read, Eval.bind_of_ok hrun, hdrain]
    rfl
  · rintro ⟨n, s, hrun⟩
    obtain ⟨c, t, hexec, hdrain⟩ := Eval.of_bind hrun
    obtain ⟨out, hreads, rfl⟩ := Calls.reads_of_drain_ok hdrain
    have hslots : t.slots = σ := (execute_replicable hp (.fixed fun _ _ => trivial) rfl hexec).1
    exact delivers_of_execute (B := 0) hp .fixed rfl snap.fits_none hexec ⟨n, t, hslots, hreads⟩

end

theorem exists_some_iff {x : Option (α × β)} {a : α} : (∃ b, x = some (a, b)) ↔ x.map (·.1) = some a := by
  match x with
  | none | some (r, s) => simp

/-- Two programs with environments in which their variables have the same values, with the layouts that they have
been filled in from. -/
structure Companions (c : StaticContext) (p p' q q' : Program) (σ τ : Slots) : Prop where
  left : FilledIn c p q
  right : FilledIn c p' q'
  values : SameValues q q' σ τ
  pure : q.Pure
  pure' : q'.Pure

namespace Companions

variable {c : StaticContext} {p p' q q' : Program} {e e' : ExprId} {σ τ : Slots} {snap : Snapshot}

section

variable (h : Companions c p p' q q' σ τ)

include h

theorem steady : Steady (Terms.twins q q' (Counterparts p.At p'.At c)) False Variables.lexical Eq :=
  steady_twins h.left h.right

theorem delivers_iff (he : Counterparts p.At p'.At c e e') : q.Delivers σ e snap g ↔ q'.Delivers τ e' snap g := by
  have hread : ∀ n, ((lexicalMachine n q).read e (.fixed snap) (.ofSlots σ)).map (·.1) =
      ((lexicalMachine n q').read e' (.fixed snap) (.ofSlots τ)).map (·.1) := fun n =>
    (h.steady.read (rfl : n = n) rfl (Envs.level_some h.values) he (foci_twins snap)
      (abreast_twins σ τ)).value_eq fun _ _ _ _ h => h.1
  simp only [Program.delivers_iff_read h.pure, Program.delivers_iff_read h.pure', exists_some_iff, hread]

theorem decides_iff (he : Counterparts p.At p'.At c e e')
    {x : Except Error Selection} : q.Decides σ e snap x ↔ q'.Decides τ e' snap x := by
  have hselect : ∀ n, ((lexicalMachine n q).select e (.fixed snap) (.ofSlots σ)).map (·.1) =
      ((lexicalMachine n q').select e' (.fixed snap) (.ofSlots τ)).map (·.1) := fun n =>
    (h.steady.select (rfl : n = n) rfl (Envs.level_some h.values) he (foci_twins snap)
      (abreast_twins σ τ)).value_eq fun _ _ _ _ h => h.1
  simp only [Program.Decides, exists_some_iff, hselect]

theorem turns_iff {step step' : Step} (hstep : step.Twins (Counterparts p.At p'.At c) step') :
    step.Turns q σ ins outs ↔ step'.Turns q' τ ins outs := by
  cases hstep with
  | axis | descent | position => exact Iff.rfl
  | predicate he =>
    have hdecides : q.Decides σ _ = q'.Decides τ _ := funext fun _ => funext fun _ => propext (h.decides_iff he)
    simp only [Step.Turns, hdecides]
  | expr nodesOnly he =>
    have hdelivers : q.Delivers σ _ = q'.Delivers τ _ :=
      funext fun _ => funext fun _ => propext (h.delivers_iff he)
    simp only [Step.Turns, hdelivers]

theorem turnAll_iff {steps steps' : List Step}
    (hsteps : List.Forall₂ (Step.Twins (Counterparts p.At p'.At c)) steps steps') :
    TurnAll q σ steps ins outs ↔ TurnAll q' τ steps' ins outs := by
  induction hsteps generalizing ins with
  | nil =>
    constructor
    all_goals
      rintro ⟨⟩
      exact .nil
  | cons hstep _ ih =>
    constructor
    · rintro ⟨⟩
      next first rest => exact .cons ((h.turns_iff hstep).mp first) (ih.mp rest)
    · rintro ⟨⟩
      next first rest => exact .cons ((h.turns_iff hstep).mpr first) (ih.mpr rest)

end

end Companions

/-- Compiled in one context, programs begin with the same values of their variables. -/
theorem companions_of_compile {c : StaticContext} {x' : Expr} {q q' : Query} (hq : compile c x = .ok q)
    (hq' : compile c x' = .ok q') (hf : ∀ f, c.Callable f → f.KeepsReply ∧ f.Grows) {σ : Slots}
    (hσ : ∀ i, c.settings.externals.length ≤ i → σ.get? i = none) :
    ∃ p p', LaidOut c x q.root p ∧ LaidOut c x' q'.root p' ∧ Companions c p p' q.program q'.program σ σ := by
  obtain ⟨p, hlaid, hfilled, -⟩ := filledIn_of_compile hq
  obtain ⟨p', hlaid', hfilled', -⟩ := filledIn_of_compile hq'
  exact ⟨p, p', hlaid, hlaid', hfilled, hfilled', .external hfilled.static hfilled'.static hσ,
    (compiled_of_compile hq).pure hf, (compiled_of_compile hq').pure hf⟩

end XPath
