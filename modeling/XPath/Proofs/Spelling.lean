import XPath.Proofs.Layout

/-!
# How expressions are spelled out

`Spells` says by which nodes an expression is spelled out, in terms of a predicate on nodes: of a program as it
is laid out, or of what binding makes of it. Names are resolved in a static context, and several variables of
one loop are nested loops.

Lowering appends nodes that spell out the expression, and nothing else; it fails only if a prefix is not
declared or a loop has no variable (`lower_spells`). The loops and calls of an expression come in the order of
`Expr.mentions`. That something is spelled out is stated of every program that has grown since, so that it need
not be carried over to each of them.
-/

namespace XPath

open List

variable {start : Start} {s : PathStart} {first : List Step}

/-! ## Nodes -/

/-- What the surroundings have to know of a node: the variable of a loop, or a call. -/
inductive Mention where
  | loop (var : ExpandedName)
  | call (name : ExpandedName) (arity : Nat)

def Form.mention? (arity : Nat) : Form → Option Mention
  | .forEach var _ | .quantified _ var _ => some (.loop var)
  | .call name _ => some (.call name arity)
  | _ => none

namespace Program

def At (p : Program) (e : ExprId) (form : Form) (cs : List ExprId) : Prop :=
  p.form? e = some form ∧ p.children e = cs

def mentionAt (p : Program) (e : ExprId) : Option Mention :=
  (p.form? e).bind (·.mention? (p.children e).length)

def mentions (p : Program) : List Mention :=
  (range p.size).filterMap p.mentionAt

end Program

section

variable (At : ExprId → Form → List ExprId → Prop) (c : StaticContext)

def SpellsPath : PathStart → List Step → ExprId → Prop
  | .root, [], e => At e .root []
  | .context, [], e => At e .contextItem []
  | .expr i, [], e => e = i
  | start, steps, e =>
    At e (.path ⟨start, steps, false, true, false⟩) (start.expr?.toList ++ steps.filterMap Step.expr?)

/-- The node of a filter. Without predicates it is what is filtered. -/
def SpellsFilter (i : ExprId) : List ExprId → ExprId → Prop
  | [], e => e = i
  | ids, e => At e (.filter (ids.map .predicate)) (i :: ids)

mutual

/-- The expression is spelled out by the node and what is below it. -/
def Spells : Expr → ExprId → Prop
  | .literal l, e => At e l.form []
  | .contextItem, e => At e .contextItem []
  | .variable q, e => ∃ name, c.expand q = .ok name ∧ At e (.variable name none) []
  | .call q args, e =>
    ∃ name ids, c.expand q = .ok name ∧ SpellsAll args ids ∧ At e (.call name none) ids
  | .sequence items, e => ∃ ids, SpellsAll items ids ∧ At e .sequence ids
  | .binary op l r, e => ∃ i j, Spells l i ∧ Spells r j ∧ At e op.form [i, j]
  | .negate x, e => ∃ i, Spells x i ∧ At e .negate [i]
  | .ifThenElse x y z, e =>
    ∃ i j k, Spells x i ∧ Spells y j ∧ Spells z k ∧ At e .ifThenElse [i, j, k]
  | .forEach bindings body, e => SpellsLoop none bindings (Spells body) e
  | .quantified q bindings body, e => SpellsLoop (some q) bindings (Spells body) e
  | .path start steps, e =>
    ∃ s first rest, SpellsStart start s first ∧ SpellsSteps steps rest ∧ SpellsPath At s (first ++ rest) e
  | .filter base predicates, e =>
    ∃ i ids, Spells base i ∧ SpellsAll predicates ids ∧ SpellsFilter At i ids e

def SpellsAll : List Expr → List ExprId → Prop
  | [], ids => ids = []
  | x :: xs, ids => ∃ i is, Spells x i ∧ SpellsAll xs is ∧ ids = i :: is

def SpellsLoop (q : Option Quantifier) : List VarBinding → (ExprId → Prop) → ExprId → Prop
  | [], _, _ => False
  | [.mk name source], body, e =>
    ∃ var i j, c.expand name = .ok var ∧ Spells source i ∧ body j ∧ At e (loopForm q var) [i, j]
  | .mk name source :: rest, body, e =>
    ∃ var i j, c.expand name = .ok var ∧ Spells source i ∧ SpellsLoop q rest body j ∧
      At e (loopForm q var) [i, j]

/-- Where a path starts, and the step that this may bring along. -/
def SpellsStart : Start → PathStart → List Step → Prop
  | .root, s, first => s = .root ∧ first = []
  | .rootDescendant, s, first => s = .root ∧ first = [.axis .descendantOrSelf (some .anyNode)]
  | .relative, s, first => s = .context ∧ first = []
  | .expr x, s, first => ∃ i, Spells x i ∧ s = .expr i ∧ first = []

/-- The steps of a path, each axis before its predicates. -/
def SpellsSteps : List PathStep → List Step → Prop
  | [], steps => steps = []
  | .axis a test predicates :: rest, steps =>
    ∃ t ids tail, c.nodeTest test = .ok t ∧ SpellsAll predicates ids ∧ SpellsSteps rest tail ∧
      steps = .axis a (some t) :: (ids.map .predicate ++ tail)
  | .expr x :: rest, steps =>
    ∃ i tail, Spells x i ∧ SpellsSteps rest tail ∧ steps = .expr i false :: tail

end

end

theorem SpellsAll.length_eq (h : SpellsAll At c xs ids) : ids.length = xs.length := by
  induction xs generalizing ids with
  | nil =>
    rw [SpellsAll] at h
    rw [h]
    rfl
  | cons x xs ih =>
    rw [SpellsAll] at h
    obtain ⟨i, is, -, his, rfl⟩ := h
    rw [length_cons, length_cons, ih his]

/-- What a start brings along evaluates nothing. -/
theorem SpellsStart.filterMap_first (h : SpellsStart At c start s first) : first.filterMap Step.expr? = [] := by
  cases start with
  | root | rootDescendant | relative =>
    rw [SpellsStart] at h
    rw [h.2]
    rfl
  | expr x =>
    rw [SpellsStart] at h
    obtain ⟨i, -, -, rfl⟩ := h
    rfl

/-! ## What an expression mentions, and whether its names resolve -/

section

variable (c : StaticContext)

mutual

/-- The loops and calls of an expression, innermost ones first, in the order in which they are laid out. -/
def Expr.mentions : Expr → List Mention
  | .literal _ | .contextItem | .variable _ => []
  | .call q args => mentionsAll args ++ (c.expand q).toOption.toList.map (.call · args.length)
  | .sequence items => mentionsAll items
  | .binary _ l r => l.mentions ++ r.mentions
  | .negate x => x.mentions
  | .ifThenElse x y z => x.mentions ++ y.mentions ++ z.mentions
  | .forEach bindings body | .quantified _ bindings body => mentionsLoop bindings body.mentions
  | .path start steps => start.mentions ++ mentionsSteps steps
  | .filter base predicates => base.mentions ++ mentionsAll predicates

def mentionsAll : List Expr → List Mention
  | [] => []
  | x :: xs => x.mentions ++ mentionsAll xs

def mentionsLoop : List VarBinding → List Mention → List Mention
  | [], body => body
  | .mk name source :: rest, body =>
    source.mentions ++ mentionsLoop rest body ++ (c.expand name).toOption.toList.map .loop

def Start.mentions : Start → List Mention
  | .root | .rootDescendant | .relative => []
  | .expr x => x.mentions

def mentionsSteps : List PathStep → List Mention
  | [] => []
  | .axis _ _ predicates :: rest => mentionsAll predicates ++ mentionsSteps rest
  | .expr x :: rest => x.mentions ++ mentionsSteps rest

end

mutual

/-- All prefixes are declared, and every loop has a variable. -/
def Expr.Resolves : Expr → Prop
  | .literal _ | .contextItem => True
  | .variable q => ∃ name, c.expand q = .ok name
  | .call q args => (∃ name, c.expand q = .ok name) ∧ ResolveAll args
  | .sequence items => ResolveAll items
  | .binary _ l r => l.Resolves ∧ r.Resolves
  | .negate x => x.Resolves
  | .ifThenElse x y z => x.Resolves ∧ y.Resolves ∧ z.Resolves
  | .forEach bindings body | .quantified _ bindings body =>
    bindings ≠ [] ∧ ResolveBindings bindings ∧ body.Resolves
  | .path start steps => start.Resolves ∧ ResolveSteps steps
  | .filter base predicates => base.Resolves ∧ ResolveAll predicates

def ResolveAll : List Expr → Prop
  | [] => True
  | x :: xs => x.Resolves ∧ ResolveAll xs

def ResolveBindings : List VarBinding → Prop
  | [] => True
  | .mk name source :: rest => (∃ var, c.expand name = .ok var) ∧ source.Resolves ∧ ResolveBindings rest

def Start.Resolves : Start → Prop
  | .root | .rootDescendant | .relative => True
  | .expr x => x.Resolves

def ResolveSteps : List PathStep → Prop
  | [] => True
  | .axis _ test predicates :: rest =>
    (∃ t, c.nodeTest test = .ok t) ∧ ResolveAll predicates ∧ ResolveSteps rest
  | .expr x :: rest => x.Resolves ∧ ResolveSteps rest

end

end

namespace Program

variable {p p' : Program} {form : Form} {cs : List ExprId}

/-- Appending a node appends what it mentions. -/
theorem mentions_of_topped (h : Topped p p' form cs) :
    p'.mentions = p.mentions ++ (form.mention? cs.length).toList := by
  unfold mentions
  rw [h.size, range_succ, filterMap_append]
  congr 1
  · refine filterMap_congr ?_
    intro i hi
    unfold mentionAt
    rw [h.oldForm i (mem_range.mp hi), h.oldChildren i (mem_range.mp hi)]
  · have htop : p'.mentionAt p.size = form.mention? cs.length := by
      unfold mentionAt
      rw [h.form, h.children]
      rfl
    cases hm : form.mention? cs.length with
    | none => rw [filterMap_cons_none (htop.trans hm)]; rfl
    | some m => rw [filterMap_cons_some (htop.trans hm)]; rfl

end Program

/-! ## Lowering -/

namespace Lowering

def Ends {α : Type} (x : Lowering α) (p : Program) (Q : α → Program → Prop) (E : Prop) : Prop :=
  match x p with
  | .ok (a, p') => Q a p'
  | .error _ => E

namespace Ends

variable {α β : Type} {p : Program} {Q : α → Program → Prop} {E E' : Prop}

theorem mono {x : Lowering α} (h : x.Ends p R E) (hQ : ∀ a p', R a p' → Q a p') (hE : E → E') : x.Ends p Q E' := by
  unfold Ends at *
  split at h
  · exact hQ _ _ h
  · exact hE h

theorem bind {f : β → Lowering α} (hx : x.Ends p R E')
    (hE : E' → E) (hf : ∀ b p', R b p' → (f b).Ends p' Q E) : (x >>= f).Ends p Q E := by
  have hbind : (x >>= f) p = (x p).bind fun r => f r.1 r.2 := rfl
  unfold Ends at *
  rw [hbind]
  cases hxp : x p with
  | error err =>
    rw [hxp] at hx
    exact hE hx
  | ok r =>
    rw [hxp] at hx
    exact hf r.1 r.2 hx

theorem pure (h : Q a p) : (Pure.pure a : Lowering α).Ends p Q E :=
  h

theorem throw (h : E) : (MonadExcept.throw err : Lowering α).Ends p Q E :=
  h

/-- Resolving a name changes nothing. -/
theorem resolve {r : StaticContext → Except Error α} (hc : p.static = c) :
    (do r (← get).static : Lowering α).Ends p (fun a p' => p' = p ∧ r c = .ok a) (¬ ∃ a, r c = .ok a) := by
  have hrun : (do r (← get).static : Lowering α) p = (r c).bind fun a => .ok (a, p) := hc ▸ rfl
  unfold Ends
  rw [hrun]
  cases hr : r c with
  | error err => exact nofun
  | ok a => exact ⟨rfl, rfl⟩

end Ends

end Lowering

open Lowering

/-- What has been appended: the nodes without a parent from `p₀` on, and those since `p`, what they mention, and
what is spelled out by them. -/
structure Laying (p₀ p : Program) (ms : List Mention) (es : List ExprId)
    (S : (ExprId → Form → List ExprId → Prop) → Prop) (p' : Program) : Prop where
  more : Grown p p'
  mentions : p'.mentions = p.mentions ++ ms
  appended : Appended p₀ es p'
  spelled : ∀ q, Grown p' q → S q.At

section

variable {p₀ p p₁ p₂ : Program} {ms ms' : List Mention} {es es' cs : List ExprId} {form : Form}
  {S S' : (ExprId → Form → List ExprId → Prop) → Prop}

theorem Laying.none (h : Appended p₀ es p) (hS : ∀ At, S At) : Laying p₀ p [] es S p :=
  ⟨.refl p, (append_nil _).symm, h, fun _ _ => hS _⟩

theorem Laying.trans (h : Laying p₀ p ms es S p₁) (h' : Laying p₀ p₁ ms' es' S' p₂) :
    Laying p₀ p (ms ++ ms') es' (fun At => S At ∧ S' At) p₂ where
  more := h.more.trans h'.more
  mentions := by rw [h'.mentions, h.mentions, append_assoc]
  appended := h'.appended
  spelled := fun q hq => ⟨h.spelled q (h'.more.trans hq), h'.spelled q hq⟩

theorem Laying.imp (h : Laying p₀ p ms es S p₁) (hms : ms = ms') (hS : ∀ At, S At → S' At) : Laying p₀ p ms' es S' p₁ :=
  ⟨h.more, hms ▸ h.mentions, h.appended, fun q hq => hS _ (h.spelled q hq)⟩

theorem addNodeWith_ends (h : Appended p₀ es' p) (hes : es' = es ++ cs) (hfits : form.Fits cs)
    (hQ : ∀ e p', Laying p₀ p (form.mention? cs.length).toList (es ++ [e]) (fun At => At e form cs) p' → Q e p') :
    (addNodeWith form cs).Ends p Q E := by
  obtain ⟨p', hadd, htop, happended⟩ := (hes ▸ h).exists_addWith hfits
  have hrun : addNodeWith form cs p = .ok (p.size, p') := by
    change ((p.addWith form cs).2.bind fun a => .ok (a, (p.addWith form cs).1)) = .ok (p.size, p')
    rw [hadd]
    rfl
  unfold Ends
  rw [hrun]
  refine hQ _ _ ⟨htop.grown hfits, Program.mentions_of_topped htop, happended, fun q hq => ?_⟩
  have hlt : p.size < p'.size := Nat.lt_of_lt_of_eq .refl htop.size.symm
  exact ⟨(hq.form _ hlt).trans htop.form, (hq.children _ hlt).trans htop.children⟩

theorem addNode_ends (h : Appended p₀ es p) (hfits : form.Fits [])
    (hQ : ∀ e p', Laying p₀ p (form.mention? 0).toList (es ++ [e]) (fun At => At e form []) p' → Q e p') :
    (addNode form).Ends p Q E :=
  addNodeWith_ends h (append_nil es).symm hfits hQ

theorem foldl_pushPredicates (ids : List ExprId) : ∀ parts : ChainParts,
    ids.foldl (fun c e => c.pushExpr (.predicate e) e) parts =
      ⟨(ids.map .predicate).reverse ++ parts.steps, ids.reverse ++ parts.children⟩ := by
  induction ids with
  | nil => exact fun _ => rfl
  | cons id ids ih =>
    intro parts
    rw [foldl_cons, ih, map_cons, reverse_cons, reverse_cons, append_assoc,
      append_assoc]
    rfl

theorem finishPath_ends {start : PathStart}
    (h : Appended p₀ (es ++ (start.expr?.toList ++ steps.filterMap Step.expr?)) p)
    (hfirst : ∀ s ∈ steps.head?, s.isFilter = false) :
    (finishPath start ⟨steps.reverse, (start.expr?.toList ++ steps.filterMap Step.expr?).reverse⟩).Ends p
      (fun e p' => Laying p₀ p [] (es ++ [e]) (fun At => SpellsPath At start steps e) p') False := by
  cases hsteps : steps with
  | nil =>
    subst hsteps
    cases start with
    | root | context => exact addNodeWith_ends h rfl trivial fun _ _ h => h
    | expr i => exact .pure (.none h fun _ => rfl)
  | cons step rest =>
    have hne : steps.reverse ≠ [] := by
      rw [hsteps]
      exact reverse_ne_nil_iff.mpr (cons_ne_nil _ _)
    have hfinish : finishPath start
        ⟨steps.reverse, (start.expr?.toList ++ steps.filterMap Step.expr?).reverse⟩ =
        addNodeWith (.path ⟨start, steps, false, true, false⟩)
          (start.expr?.toList ++ steps.filterMap Step.expr?) := by
      unfold finishPath
      cases hrev : steps.reverse with
      | nil => exact absurd hrev hne
      | cons last front =>
        dsimp only
        rw [← hrev, reverse_reverse, reverse_reverse]
    rw [← hsteps, hfinish]
    rw [hsteps] at hfirst
    refine addNodeWith_ends h rfl ⟨rfl, rfl, step, rest, hsteps, hfirst step rfl⟩ fun e p' hat => ?_
    refine hat.imp rfl fun At hat => ?_
    rw [hsteps] at hat ⊢
    cases start <;> exact hat

end

/-- A loop without a binding mentions its variable. -/
theorem mention_loopForm (q : Option Quantifier) (var : ExpandedName) (arity : Nat) :
    (loopForm q var).mention? arity = some (.loop var) := by
  cases q <;> rfl

/-- A path does not begin with a filter. -/
theorem SpellsSteps.head_isFilter (hstart : SpellsStart At c start s first)
    (hsteps : SpellsSteps At c steps rest) : ∀ x ∈ (first ++ rest).head?, x.isFilter = false := by
  have hrest : ∀ x ∈ rest.head?, x.isFilter = false := by
    match steps with
    | [] =>
      rw [SpellsSteps] at hsteps
      rw [hsteps]
      exact nofun
    | .axis a test predicates :: _ =>
      rw [SpellsSteps] at hsteps
      obtain ⟨t, ids, tail, -, -, -, rfl⟩ := hsteps
      rintro x ⟨⟩
      rfl
    | .expr y :: _ =>
      rw [SpellsSteps] at hsteps
      obtain ⟨i, tail, -, -, rfl⟩ := hsteps
      rintro x ⟨⟩
      rfl
  cases start with
  | root | relative =>
    rw [SpellsStart] at hstart
    rw [hstart.2]
    exact hrest
  | rootDescendant =>
    rw [SpellsStart] at hstart
    rw [hstart.2]
    rintro x ⟨⟩
    rfl
  | expr y =>
    rw [SpellsStart] at hstart
    obtain ⟨i, -, -, rfl⟩ := hstart
    exact hrest

mutual

/-- Lowering appends nodes that spell out the expression, unless a name does not resolve. -/
theorem lower_spells (x : Expr) {p₀ p : Program} {es : List ExprId} (h : Appended p₀ es p) :
    (lower x).Ends p (fun e p' => Laying p₀ p (x.mentions p₀.static) (es ++ [e]) (Spells · p₀.static x e) p')
      (¬ x.Resolves p₀.static) := by
  cases x with
  | literal l =>
    rw [lower]
    refine addNode_ends h l.fits fun e p' hat => hat.imp ?_ fun _ h => h
    cases l <;> rfl
  | contextItem => exact addNode_ends h trivial fun _ _ h => h
  | «variable» q =>
    rw [lower]
    refine .bind (.resolve (r := (·.expand q)) h.grown.static) id ?_
    rintro name _ ⟨rfl, hname⟩
    exact addNode_ends h rfl fun e p' hat => hat.imp rfl fun _ hat => ⟨name, hname, hat⟩
  | call q args =>
    rw [lower]
    refine .bind (.resolve (r := (·.expand q)) h.grown.static) (fun hq h => hq h.1) ?_
    rintro name _ ⟨rfl, hname⟩
    refine .bind (lowerAll_spells args h) (fun hargs h => hargs h.2) ?_
    intro ids p₁ hargs
    refine addNodeWith_ends hargs.appended rfl rfl fun e p₂ hat => ?_
    refine (hargs.trans hat).imp ?_ fun _ ⟨hargs, hat⟩ => ⟨name, ids, hname, hargs, hat⟩
    rw [Expr.mentions, hname, (hargs.spelled p₁ (.refl p₁)).length_eq]
    rfl
  | sequence items =>
    rw [lower]
    refine .bind (lowerAll_spells items h) id ?_
    intro ids p₁ hitems
    refine addNodeWith_ends hitems.appended rfl trivial fun e p₂ hat => ?_
    exact (hitems.trans hat).imp (append_nil _) fun _ h => ⟨ids, h⟩
  | binary op l r =>
    rw [lower]
    refine .bind (lower_spells l h) (fun hl h => hl h.1) ?_
    intro i p₁ hl
    refine .bind (lower_spells r hl.appended) (fun hr h => hr h.2) ?_
    intro j p₂ hr
    refine addNodeWith_ends hr.appended (append_assoc ..) (op.fits i j) fun e p₃ hat => ?_
    refine ((hl.trans hr).trans hat).imp ?_ fun _ ⟨⟨hl, hr⟩, hat⟩ => ⟨i, j, hl, hr, hat⟩
    cases op <;> exact append_nil _
  | negate x =>
    rw [lower]
    refine .bind (lower_spells x h) id ?_
    intro i p₁ hx
    refine addNodeWith_ends hx.appended rfl ⟨i, rfl⟩ fun e p₂ hat => ?_
    exact (hx.trans hat).imp (append_nil _) fun _ h => ⟨i, h⟩
  | ifThenElse x y z =>
    rw [lower]
    refine .bind (lower_spells x h) (fun hx h => hx h.1) ?_
    intro i p₁ hx
    refine .bind (lower_spells y hx.appended) (fun hy h => hy h.2.1) ?_
    intro j p₂ hy
    refine .bind (lower_spells z hy.appended) (fun hz h => hz h.2.2) ?_
    intro k p₃ hz
    refine addNodeWith_ends hz.appended ((append_assoc ..).trans (append_assoc ..)) ⟨i, j, k, rfl⟩
      fun e p₄ hat => ?_
    exact (((hx.trans hy).trans hz).trans hat).imp (append_nil _)
      fun _ ⟨⟨⟨hx, hy⟩, hz⟩, hat⟩ => ⟨i, j, k, hx, hy, hz, hat⟩
  | forEach bindings body | quantified q bindings body =>
    refine (lowerLoop_spells _ bindings (fun h => lower_spells body h) h).mono (fun _ _ h => h) ?_
    rintro (hnil | hbindings | hbody) ⟨h₁, h₂, h₃⟩
    exacts [h₁ hnil, hbindings h₂, hbody h₃]
  | path start steps =>
    rw [lower]
    refine .bind (lowerStart_spells start h) (fun hstart h => hstart h.1) ?_
    rintro ⟨s, parts⟩ p₁ ⟨first, hparts, hstart⟩
    refine .bind (lowerSteps_spells steps parts hstart.appended) (fun hsteps h => hsteps h.2) ?_
    rintro parts' p₂ ⟨rest, hparts', hsteps⟩
    dsimp only at hparts hstart
    subst hparts hparts'
    have hboth := (hstart.trans hsteps).spelled p₂ (.refl p₂)
    have hexprs : (first ++ rest).filterMap Step.expr? = rest.filterMap Step.expr? := by
      rw [filterMap_append, hboth.1.filterMap_first, nil_append]
    have hsingle : s.expr?.toList.reverse = s.expr?.toList := by cases s <;> rfl
    rw [← reverse_append, ← hsingle, ← reverse_append, ← hexprs]
    have happended := hsteps.appended
    rw [append_assoc, ← hexprs] at happended
    refine (finishPath_ends happended (hboth.2.head_isFilter hboth.1)).mono ?_ False.elim
    exact fun e p₃ hpath => ((hstart.trans hsteps).trans hpath).imp (append_nil _)
      fun _ ⟨⟨hstart, hsteps⟩, hpath⟩ => ⟨s, first, rest, hstart, hsteps, hpath⟩
  | filter base predicates =>
    rw [lower]
    refine .bind (lower_spells base h) (fun hbase h => hbase h.1) ?_
    intro i p₁ hbase
    refine .bind (lowerAll_spells predicates hbase.appended) (fun hpredicates h => hpredicates h.2) ?_
    intro ids p₂ hpredicates
    have hboth := hbase.trans hpredicates
    cases ids with
    | nil =>
      refine .pure ⟨hboth.more, hboth.mentions, ?_, fun q hq => ?_⟩
      · rw [← append_nil (es ++ [i])]
        exact hboth.appended
      · exact ⟨i, [], (hboth.spelled q hq).1, (hboth.spelled q hq).2, rfl⟩
    | cons id ids =>
      have hfits : Form.Fits (i :: id :: ids) (.filter ((id :: ids).map .predicate)) := by
        refine ⟨⟨i, (filterMap_predicates _).symm ▸ rfl⟩, fun s hs => ?_⟩
        obtain ⟨id, -, rfl⟩ := mem_map.mp hs
        rfl
      refine addNodeWith_ends hboth.appended (append_assoc ..) hfits fun e p₃ hat => ?_
      exact (hboth.trans hat).imp (append_nil _)
        fun _ ⟨⟨hbase, hpredicates⟩, hat⟩ => ⟨i, id :: ids, hbase, hpredicates, hat⟩

theorem lowerAll_spells (xs : List Expr) {es : List ExprId} (h : Appended p₀ es p) :
    (lowerAll xs).Ends p
      (fun ids p' => Laying p₀ p (mentionsAll p₀.static xs) (es ++ ids) (SpellsAll · p₀.static xs ids) p')
      (¬ ResolveAll p₀.static xs) := by
  cases xs with
  | nil =>
    rw [lowerAll]
    exact .pure (.none ((append_nil es).symm ▸ h) fun _ => rfl)
  | cons x xs =>
    rw [lowerAll]
    refine .bind (lower_spells x h) (fun hx h => hx h.1) ?_
    intro i p₁ hx
    refine .bind (lowerAll_spells xs hx.appended) (fun hxs h => hxs h.2) ?_
    intro is p₂ hxs
    have hboth := hx.trans hxs
    refine .pure ⟨hboth.more, hboth.mentions, ?_, fun q hq => ?_⟩
    · rw [append_cons]
      exact hboth.appended
    · exact ⟨i, is, (hboth.spelled q hq).1, (hboth.spelled q hq).2, rfl⟩

theorem lowerLoop_spells (q : Option Quantifier) (bindings : List VarBinding) {body : Lowering ExprId}
    {ms : List Mention} {S : (ExprId → Form → List ExprId → Prop) → ExprId → Prop} {E : Prop} {p₀ : Program}
    (hbody : ∀ {p : Program} {es : List ExprId}, Appended p₀ es p →
      body.Ends p (fun e p' => Laying p₀ p ms (es ++ [e]) (S · e) p') E)
    {p : Program} {es : List ExprId} (h : Appended p₀ es p) : (lowerLoop q bindings body).Ends p
      (fun e p' => Laying p₀ p (mentionsLoop p₀.static bindings ms) (es ++ [e])
        (fun At => SpellsLoop At p₀.static q bindings (S At) e) p')
      (bindings = [] ∨ ¬ ResolveBindings p₀.static bindings ∨ E) := by
  cases bindings with
  | nil =>
    rw [lowerLoop]
    exact .throw (.inl rfl)
  | cons binding rest =>
    obtain ⟨name, source⟩ := binding
    cases rest with
    | nil =>
      rw [lowerLoop]
      refine .bind (lower_spells source h) (fun hsource => .inr (.inl fun h => hsource h.2.1)) ?_
      intro i p₁ hsource
      refine .bind (hbody hsource.appended) (fun hE => .inr (.inr hE)) ?_
      intro j p₂ hS
      refine .bind (.resolve (r := (·.expand name)) hS.appended.grown.static)
        (fun hname => .inr (.inl fun h => hname h.1)) ?_
      rintro var _ ⟨rfl, hvar⟩
      refine addNodeWith_ends hS.appended (append_assoc ..) (loopForm_fits q var i j) fun e p₃ hat => ?_
      refine ((hsource.trans hS).trans hat).imp ?_
        fun _ ⟨⟨hsource, hS⟩, hat⟩ => ⟨var, i, j, hvar, hsource, hS, hat⟩
      rw [mentionsLoop, mentionsLoop, hvar, mention_loopForm]
      rfl
    | cons next rest =>
      rw [lowerLoop]
      case x_2 => exact cons_ne_nil next rest
      refine .bind (lower_spells source h) (fun hsource => .inr (.inl fun h => hsource h.2.1)) ?_
      intro i p₁ hsource
      refine .bind (lowerLoop_spells q (next :: rest) hbody hsource.appended) ?_ ?_
      · rintro (hnil | hrest | hE)
        · cases hnil
        · exact .inr (.inl fun h => hrest h.2.2)
        · exact .inr (.inr hE)
      intro j p₂ hloop
      refine .bind (.resolve (r := (·.expand name)) hloop.appended.grown.static)
        (fun hname => .inr (.inl fun h => hname h.1)) ?_
      rintro var _ ⟨rfl, hvar⟩
      refine addNodeWith_ends hloop.appended (append_assoc ..) (loopForm_fits q var i j) fun e p₃ hat => ?_
      refine ((hsource.trans hloop).trans hat).imp ?_ ?_
      · rw [mentionsLoop, hvar, mention_loopForm]
        rfl
      · rintro At ⟨⟨hsource, hloop⟩, hat⟩
        rw [SpellsLoop]
        case x_3 => exact cons_ne_nil next rest
        exact ⟨var, i, j, hvar, hsource, hloop, hat⟩

theorem lowerStart_spells (start : Start) (h : Appended p₀ es p) :
    (lowerStart start).Ends p (fun r p' => ∃ first, r.2 = ⟨first.reverse, r.1.expr?.toList⟩ ∧
        Laying p₀ p (start.mentions p₀.static) (es ++ r.1.expr?.toList) (SpellsStart · p₀.static start r.1 first) p')
      (¬ start.Resolves p₀.static) := by
  have hnone : Appended p₀ (es ++ []) p := (append_nil es).symm ▸ h
  cases start with
  | root | relative => exact .pure ⟨[], rfl, .none hnone fun _ => ⟨rfl, rfl⟩⟩
  | rootDescendant => exact .pure ⟨[_], rfl, .none hnone fun _ => ⟨rfl, rfl⟩⟩
  | expr x =>
    rw [lowerStart]
    refine .bind (lower_spells x h) id ?_
    exact fun i p₁ hx => .pure ⟨[], rfl, hx.imp rfl fun _ hx => ⟨i, hx, rfl, rfl⟩⟩

theorem lowerSteps_spells (steps : List PathStep) (parts : ChainParts) {p₀ p : Program} {es : List ExprId}
    (h : Appended p₀ es p) : (lowerSteps steps parts).Ends p (fun parts' p' => ∃ rest,
        parts' = ⟨rest.reverse ++ parts.steps, (rest.filterMap Step.expr?).reverse ++ parts.children⟩ ∧
        Laying p₀ p (mentionsSteps p₀.static steps) (es ++ rest.filterMap Step.expr?)
          (SpellsSteps · p₀.static steps rest) p') (¬ ResolveSteps p₀.static steps) := by
  cases steps with
  | nil =>
    rw [lowerSteps]
    exact .pure ⟨[], rfl, .none ((append_nil es).symm ▸ h) fun _ => rfl⟩
  | cons step rest =>
    cases step with
    | axis ax test predicates =>
      rw [lowerSteps]
      refine .bind (.resolve (r := (·.nodeTest test)) h.grown.static) (fun htest h => htest h.1) ?_
      rintro t _ ⟨rfl, ht⟩
      refine .bind (lowerAll_spells predicates h) (fun hpredicates h => hpredicates h.2.1) ?_
      intro ids p₁ hpredicates
      rw [foldl_pushPredicates]
      refine (lowerSteps_spells rest _ hpredicates.appended).mono ?_ fun hrest h => hrest h.2.2
      rintro parts' p₂ ⟨tail, rfl, htail⟩
      have hexprs : (Step.axis ax (some t) :: (ids.map .predicate ++ tail)).filterMap Step.expr? =
          ids ++ tail.filterMap Step.expr? := by
        rw [filterMap_cons_none rfl, filterMap_append, filterMap_predicates]
      refine ⟨.axis ax (some t) :: (ids.map .predicate ++ tail), ?_, ?_⟩
      · rw [hexprs]
        simp [ChainParts.push]
      · rw [hexprs, ← append_assoc]
        exact (hpredicates.trans htail).imp rfl fun _ ⟨hpredicates, htail⟩ =>
          ⟨t, ids, tail, ht, hpredicates, htail, rfl⟩
    | expr x =>
      rw [lowerSteps]
      refine .bind (lower_spells x h) (fun hx h => hx h.1) ?_
      intro i p₁ hx
      refine (lowerSteps_spells rest _ hx.appended).mono ?_ fun hrest h => hrest h.2
      rintro parts' p₂ ⟨tail, rfl, htail⟩
      have hexprs : (Step.expr i false :: tail).filterMap Step.expr? = [i] ++ tail.filterMap Step.expr? :=
        rfl
      refine ⟨.expr i false :: tail, ?_, ?_⟩
      · rw [hexprs]
        simp [ChainParts.pushExpr]
      · rw [hexprs, ← append_assoc]
        exact (hx.trans htail).imp rfl fun _ ⟨hx, htail⟩ => ⟨i, tail, hx, htail, rfl⟩

end

/-! ## Expressions laid out -/

/-- A program that is nothing but the layout of an expression. -/
structure LaidOut (c : StaticContext) (x : Expr) (root : ExprId) (p : Program) : Prop where
  appended : Appended (.empty c) [root] p
  spells : Spells p.At c x root
  mentions : p.mentions = x.mentions c

section

variable {c : StaticContext} {x : Expr} {root : ExprId} {p : Program}

theorem lower_ends (c : StaticContext) (x : Expr) : (lower x).Ends (.empty c) (LaidOut c x) (¬ x.Resolves c) := by
  have hempty : Appended (.empty c) [] (.empty c) := ⟨.refl _, rfl, nofun⟩
  exact (lower_spells x hempty).mono (fun _ p h => ⟨h.appended, h.spelled p (.refl p), h.mentions⟩) id

namespace LaidOut

section

variable (h : LaidOut c x root p)

include h

theorem static : p.static = c :=
  h.appended.grown.static

theorem laid : Laid p 0 p.size root := by
  obtain ⟨top, -, hlaid, htop⟩ := h.appended.laid
  obtain rfl : top = p.size := htop
  exact hlaid

theorem fits (hi : i < p.size) : p.FitsAt i :=
  h.appended.grown.fits i (Nat.zero_le i) hi

theorem descending (e i : Nat) (hi : i ∈ p.children e) : i < e := by
  by_cases he : e < p.size
  · exact (h.laid.family.1 e (Nat.zero_le e) he i hi).2
  · unfold Program.children at hi
    rw [Array.getElem?_eq_none (Nat.le_of_not_lt he)] at hi
    cases hi

theorem root_lt : root < p.size :=
  (InRow.inside h.appended.laid).1 root (.head _) |>.2

end

end LaidOut

end

end XPath
