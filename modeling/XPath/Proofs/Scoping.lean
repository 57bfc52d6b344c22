import XPath.Proofs.Binding

/-!
# Scopes of variables

`Expr.InScope` is about expressions as they are written: every reference to a variable stands in the body of a
loop over that name, or names an external variable. Binding decides exactly this (`Spells.scoped`), so an
expression whose other names resolve compiles if and only if its variables are in scope.
-/

namespace XPath

open List

open Program

variable {i j : ExprId} {At : ExprId → Form → List ExprId → Prop}

/-! ## References in expressions -/

section

variable (c : StaticContext)

mutual

/-- Every reference is to a variable of a loop around it, of which `names` are known, or to an external one. The
source of a loop is not in the scope of its variable. -/
def Expr.InScope : Expr → List ExpandedName → Prop
  | .literal _, _ | .contextItem, _ => True
  | .variable q, names => ∀ name, c.expand q = .ok name → name ∈ names ∨ name ∈ c.settings.externals
  | .call _ args, names | .sequence args, names => InScopeAll args names
  | .binary _ l r, names => l.InScope names ∧ r.InScope names
  | .negate x, names => x.InScope names
  | .ifThenElse x y z, names => x.InScope names ∧ y.InScope names ∧ z.InScope names
  | .forEach bindings body, names | .quantified _ bindings body, names =>
    InScopeLoop bindings body.InScope names
  | .path start steps, names => start.InScope names ∧ InScopeSteps steps names
  | .filter base predicates, names => base.InScope names ∧ InScopeAll predicates names

def InScopeAll : List Expr → List ExpandedName → Prop
  | [], _ => True
  | x :: xs, names => x.InScope names ∧ InScopeAll xs names

/-- Each variable is in scope in the sources after its own, and in the body. -/
def InScopeLoop : List VarBinding → (List ExpandedName → Prop) → List ExpandedName → Prop
  | [], body, names => body names
  | .mk name source :: rest, body, names =>
    source.InScope names ∧ ∀ var, c.expand name = .ok var → InScopeLoop rest body (var :: names)

def Start.InScope : Start → List ExpandedName → Prop
  | .root, _ | .rootDescendant, _ | .relative, _ => True
  | .expr x, names => x.InScope names

def InScopeSteps : List PathStep → List ExpandedName → Prop
  | [], _ => True
  | .axis _ _ predicates :: rest, names => InScopeAll predicates names ∧ InScopeSteps rest names
  | .expr x :: rest, names => x.InScope names ∧ InScopeSteps rest names

end

end

/-! ## References in programs -/

section

variable {c : StaticContext} {p : Program} {n : Nat} {names : List ExpandedName} {e : ExprId} {form : Form}
  {cs : List ExprId}

/-- Of most nodes only the children matter. -/
theorem scopedAt_children (hat : p.At e form cs) (hvar : ∀ name b, form ≠ .variable name b)
    (hloop : form.loopVariable? = none) : ScopedAt p (n + 1) names e ↔ ∀ i ∈ cs, ScopedAt p n names i := by
  obtain ⟨hform, rfl⟩ := hat
  conv_lhs => unfold ScopedAt
  rw [hform]
  cases form with
  | «variable» name b => exact absurd rfl (hvar name b)
  | forEach var b | quantified q var b => cases hloop
  | _ => exact Iff.rfl

theorem scopedAt_loop (hat : p.At e (loopForm q var) [i, j]) :
    ScopedAt p (n + 1) names e ↔ ScopedAt p n names i ∧ ScopedAt p n (var :: names) j := by
  obtain ⟨hform, hchildren⟩ := hat
  conv_lhs => unfold ScopedAt
  rw [hform, hchildren]
  cases q <;> exact scoped_pair_iff.symm

theorem SpellsPath.node_or_start (h : SpellsPath At start steps e) :
    (∃ form, At e form (start.expr?.toList ++ steps.filterMap Step.expr?) ∧
      (∀ name b, form ≠ .variable name b) ∧ form.loopVariable? = none) ∨ start = .expr e ∧ steps = [] := by
  match start, steps, h with
  | .root, [], h | .context, [], h => exact .inl ⟨_, h, nofun, rfl⟩
  | .expr _, [], rfl => exact .inr ⟨rfl, rfl⟩
  | .root, _ :: _, h | .context, _ :: _, h | .expr _, _ :: _, h => exact .inl ⟨_, h, nofun, rfl⟩

theorem SpellsFilter.node_or_source (h : SpellsFilter At i ids e) :
    At e (.filter (ids.map .predicate)) (i :: ids) ∨ i = e ∧ ids = [] := by
  match ids, h with
  | [], rfl => exact .inr ⟨rfl, rfl⟩
  | _ :: _, h => exact .inl h

end

theorem forall_mem_pair {P : ExprId → Prop} : (∀ x ∈ [i, j], P x) ↔ P i ∧ P j :=
  forall_mem_cons.trans (and_congr_right' forall_mem_singleton)

theorem forall_ok_iff {x : Except Error α} (h : x = .ok a) {P : α → Prop} : (∀ b, x = .ok b → P b) ↔ P a := by
  subst h
  exact ⟨fun hP => hP a rfl, fun hP b hb => Except.ok.inj hb ▸ hP⟩

section

variable {c : StaticContext} {p : Program}

theorem Program.At.below (hat : p.At e form cs)
    (hdesc : ∀ e i : Nat, i ∈ p.children e → i < e) (hn : e < n + 1) : ∀ i ∈ cs, i < n := by
  intro i hi
  exact Nat.lt_of_lt_of_le (hdesc e i (hat.2 ▸ hi)) (Nat.le_of_lt_succ hn)

/-- A program under the context, in which numbers fall from a node to its children. -/
structure Program.Sinks (p : Program) (c : StaticContext) : Prop where
  static : p.static = c
  lt : ∀ e i : Nat, i ∈ p.children e → i < e

mutual

/-- The references below a node are those of the expression that it spells out. -/
theorem Spells.scoped (hp : p.Sinks c) : ∀ (x : Expr) {e n : Nat} {names : List ExpandedName}, Spells p.At c x e →
    e < n →
      (ScopedAt p n names e ↔ x.InScope c names)
  | _, _, 0, _, _, hn => absurd hn (Nat.not_lt_zero _)
  | .literal l, e, n + 1, names, hat, hn => by
    refine (scopedAt_children hat ?_ ?_).trans ?_
    · cases l <;> exact nofun
    · cases l <;> rfl
    · exact iff_of_true nofun trivial
  | .contextItem, e, n + 1, names, hat, hn =>
    (scopedAt_children hat nofun rfl).trans (iff_of_true nofun trivial)
  | .variable q, e, n + 1, names, ⟨name, hname, hat⟩, hn => by
    conv_lhs => unfold ScopedAt
    rw [hat.1, hp.static]
    exact (forall_ok_iff (P := fun name => name ∈ names ∨ name ∈ c.settings.externals) hname).symm
  | .call q args, e, n + 1, names, ⟨name, ids, hname, hargs, hat⟩, hn =>
    (scopedAt_children hat nofun rfl).trans (SpellsAll.scoped hp args hargs (hat.below hp.lt hn))
  | .sequence items, e, n + 1, names, ⟨ids, hitems, hat⟩, hn =>
    (scopedAt_children hat nofun rfl).trans (SpellsAll.scoped hp items hitems (hat.below hp.lt hn))
  | .binary op l r, e, n + 1, names, ⟨i, j, hl, hr, hat⟩, hn => by
    obtain ⟨hi, hj⟩ := forall_mem_pair.mp (hat.below hp.lt hn)
    refine (scopedAt_children hat ?_ ?_).trans (forall_mem_pair.trans ?_)
    · cases op <;> exact nofun
    · cases op <;> rfl
    · exact and_congr (Spells.scoped hp l hl hi) (Spells.scoped hp r hr hj)
  | .negate x, e, n + 1, names, ⟨i, hx, hat⟩, hn =>
    (scopedAt_children hat nofun rfl).trans ((forall_mem_singleton).trans
      (Spells.scoped hp x hx (hat.below hp.lt hn i (.head _))))
  | .ifThenElse x y z, e, n + 1, names, ⟨i, j, k, hx, hy, hz, hat⟩, hn => by
    obtain ⟨hi, hjk⟩ := forall_mem_cons.mp (hat.below hp.lt hn)
    obtain ⟨hj, hk⟩ := forall_mem_pair.mp hjk
    refine (scopedAt_children hat nofun rfl).trans (forall_mem_cons.trans ?_)
    exact and_congr (Spells.scoped hp x hx hi) (forall_mem_pair.trans
      (and_congr (Spells.scoped hp y hy hj) (Spells.scoped hp z hz hk)))
  | .forEach bindings body, e, n + 1, names, h, hn =>
    SpellsLoop.scoped hp none bindings (fun hj hlt => Spells.scoped hp body hj hlt) h hn
  | .quantified q bindings body, e, n + 1, names, h, hn =>
    SpellsLoop.scoped hp (some q) bindings (fun hj hlt => Spells.scoped hp body hj hlt) h hn
  | .path start steps, e, n + 1, names, ⟨s, first, rest, hstart, hsteps, hpath⟩, hn => by
    have hparts : s.expr?.toList ++ (first ++ rest).filterMap Step.expr? =
        s.expr?.toList ++ rest.filterMap Step.expr? := by
      rw [filterMap_append, hstart.filterMap_first, nil_append]
    -- a path without steps is its start, and has no node of its own
    have hscoped : ∃ m, (∀ i ∈ s.expr?.toList ++ rest.filterMap Step.expr?, i < m) ∧
        (ScopedAt p (n + 1) names e ↔
          ∀ i ∈ s.expr?.toList ++ rest.filterMap Step.expr?, ScopedAt p m names i) := by
      rcases hpath.node_or_start with ⟨form, hat, hvar, hloop⟩ | ⟨rfl, hnil⟩
      · rw [hparts] at hat
        exact ⟨n, hat.below hp.lt hn, scopedAt_children hat hvar hloop⟩
      · obtain ⟨-, rfl⟩ := append_eq_nil_iff.mp hnil
        exact ⟨n + 1, forall_mem_singleton.mpr hn, forall_mem_singleton.symm⟩
    obtain ⟨m, hm, hscoped⟩ := hscoped
    obtain ⟨hm₁, hm₂⟩ := forall_mem_append.mp hm
    exact hscoped.trans (forall_mem_append.trans
      (and_congr (SpellsStart.scoped hp start hstart hm₁) (SpellsSteps.scoped hp steps hsteps hm₂)))
  | .filter base predicates, e, n + 1, names, ⟨i, ids, hbase, hpredicates, hfilter⟩, hn => by
    rcases hfilter.node_or_source with hat | ⟨rfl, rfl⟩
    · obtain ⟨hi, hids⟩ := forall_mem_cons.mp (hat.below hp.lt hn)
      exact (scopedAt_children hat nofun rfl).trans (forall_mem_cons.trans
        (and_congr (Spells.scoped hp base hbase hi)
          (SpellsAll.scoped hp predicates hpredicates hids)))
    · have hnone : (∀ i ∈ [], ScopedAt p 0 names i) ↔ InScopeAll c predicates names :=
        SpellsAll.scoped hp predicates hpredicates nofun
      exact (Spells.scoped hp base hbase hn).trans
        (and_iff_left (hnone.mp nofun)).symm

theorem SpellsAll.scoped (hp : p.Sinks c) :
    ∀ (xs : List Expr) {ids : List ExprId} {n : Nat} {names : List ExpandedName}, SpellsAll p.At c xs ids →
      (∀ i ∈ ids, i < n) → ((∀ i ∈ ids, ScopedAt p n names i) ↔ InScopeAll c xs names)
  | [], _, _, _, rfl, _ => iff_of_true nofun trivial
  | x :: xs, _, n, names, ⟨i, is, hx, hxs, rfl⟩, hn => by
    obtain ⟨hi, his⟩ := forall_mem_cons.mp hn
    exact forall_mem_cons.trans
      (and_congr (Spells.scoped hp x hx hi) (SpellsAll.scoped hp xs hxs his))

theorem SpellsLoop.scoped (hp : p.Sinks c) (q : Option Quantifier) :
    ∀ (bindings : List VarBinding) {body : ExprId → Prop} {inScope : List ExpandedName → Prop},
      (∀ {j n : Nat} {names : List ExpandedName}, body j → j < n → (ScopedAt p n names j ↔ inScope names)) →
      ∀ {e n : Nat} {names : List ExpandedName}, SpellsLoop p.At c q bindings body e → e < n →
        (ScopedAt p n names e ↔ InScopeLoop c bindings inScope names)
  | [], _, _, _, _, _, _, h, _ => h.elim
  | _, _, _, _, _, 0, _, _, hn => absurd hn (Nat.not_lt_zero _)
  | [.mk name source], _, inScope, hbody, e, n + 1, names, ⟨var, i, j, hvar, hsource, hj, hat⟩, hn => by
    obtain ⟨hi, hlt⟩ := forall_mem_pair.mp (hat.below hp.lt hn)
    have hrest := forall_ok_iff (P := fun var => InScopeLoop c [] inScope (var :: names)) hvar
    exact (scopedAt_loop hat).trans
      (and_congr (Spells.scoped hp source hsource hi) ((hbody hj hlt).trans hrest.symm))
  | .mk name source :: b :: rest, _, inScope, hbody, e, n + 1, names, ⟨var, i, j, hvar, hsource, hj, hat⟩, hn => by
    obtain ⟨hi, hlt⟩ := forall_mem_pair.mp (hat.below hp.lt hn)
    have hrest := forall_ok_iff (P := fun var => InScopeLoop c (b :: rest) inScope (var :: names)) hvar
    exact (scopedAt_loop hat).trans
      (and_congr (Spells.scoped hp source hsource hi)
        ((SpellsLoop.scoped hp q (b :: rest) hbody hj hlt).trans hrest.symm))

theorem SpellsStart.scoped (hp : p.Sinks c) :
    ∀ (start : Start) {s : PathStart} {first : List Step} {n : Nat} {names : List ExpandedName},
      SpellsStart p.At c start s first → (∀ i ∈ s.expr?.toList, i < n) →
        ((∀ i ∈ s.expr?.toList, ScopedAt p n names i) ↔ start.InScope c names)
  | .root, _, _, _, _, ⟨rfl, _⟩, _ | .rootDescendant, _, _, _, _, ⟨rfl, _⟩, _
  | .relative, _, _, _, _, ⟨rfl, _⟩, _ => iff_of_true nofun trivial
  | .expr x, _, _, _, _, ⟨i, hx, rfl, _⟩, hn =>
    forall_mem_singleton.trans (Spells.scoped hp x hx (hn i (.head _)))

theorem SpellsSteps.scoped (hp : p.Sinks c) : ∀ (steps : List PathStep) {out : List Step} {n : Nat}
    {names : List ExpandedName},
      SpellsSteps p.At c steps out → (∀ i ∈ out.filterMap Step.expr?, i < n) →
        ((∀ i ∈ out.filterMap Step.expr?, ScopedAt p n names i) ↔ InScopeSteps c steps names)
  | [], _, _, _, rfl, _ => iff_of_true nofun trivial
  | .axis a test predicates :: rest, _, n, names, ⟨t, ids, tail, _, hpredicates, hrest, rfl⟩, hn => by
    have hparts : (Step.axis a (some t) :: (ids.map .predicate ++ tail)).filterMap Step.expr? =
        ids ++ tail.filterMap Step.expr? := by
      rw [filterMap_cons_none rfl, filterMap_append, filterMap_predicates]
    rw [hparts] at hn ⊢
    obtain ⟨hids, htail⟩ := forall_mem_append.mp hn
    exact forall_mem_append.trans
      (and_congr (SpellsAll.scoped hp predicates hpredicates hids)
        (SpellsSteps.scoped hp rest hrest htail))
  | .expr x :: rest, _, n, names, ⟨i, tail, hx, hrest, rfl⟩, hn => by
    obtain ⟨hi, htail⟩ := forall_mem_cons.mp hn
    exact forall_mem_cons.trans
      (and_congr (Spells.scoped hp x hx hi) (SpellsSteps.scoped hp rest hrest htail))

end

end

/-! ## Compiling -/

section

variable {c : StaticContext} {x : Expr} {root : ExprId} {p : Program}

/-- All calls of the program resolve if those of the expression do. -/
theorem LaidOut.callsFound (h : LaidOut c x root p) (hcalls : ∀ name arity, .call name arity ∈ x.mentions c →
      ∃ f, c.functions.resolve name arity c.settings.defaultFunctionNamespace = .ok f) :
    p.CallsFound 0 p.size := by
  intro i hi name f hform
  rw [h.static]
  refine hcalls name _ ?_
  rw [← h.mentions]
  refine mem_filterMap.mpr ⟨i, mem_range.mpr hi.2, ?_⟩
  unfold Program.mentionAt
  rw [hform]
  rfl

/-- An expression whose prefixes and calls resolve compiles if its variables are in scope, and otherwise an
undeclared variable is reported. -/
theorem compile_judges (hcollation : c.settings.collation = codepointCollation) (hresolves : x.Resolves c)
    (hcalls : ∀ name arity, .call name arity ∈ x.mentions c →
      ∃ f, c.functions.resolve name arity c.settings.defaultFunctionNamespace = .ok f) :
    (x.InScope c [] → ∃ q, compile c x = .ok q) ∧
      (¬ x.InScope c [] → ∃ err, compile c x = .error err ∧ err.errorCode = .XPST0008) := by
  have hends := lower_ends c x
  unfold Lowering.Ends at hends
  cases hlower : lower x (.empty c) with
  | error err =>
    rw [hlower] at hends
    exact absurd hresolves hends
  | ok r =>
    obtain ⟨root, p⟩ := r
    rw [hlower] at hends
    have hlaid : LaidOut c x root p := hends
    have hjudges := hlaid.binds.congr (hlaid.spells.scoped ⟨hlaid.static, hlaid.descending⟩ x hlaid.root_lt)
    unfold Binds Binder.Ends at hjudges
    rw [compile_eq hcollation hlower]
    unfold Program.bind
    cases hbind : (Binder.bindNode p.size root).run.run ⟨p, [], 0, 0⟩ with
    | mk r s =>
      rw [hbind] at hjudges
      cases r with
      | ok reached => exact ⟨fun _ => ⟨_, rfl⟩, fun hout => absurd hjudges.2 hout⟩
      | error err =>
        obtain ⟨hout, hcode⟩ := hjudges (hlaid.callsFound hcalls)
        exact ⟨fun hin => absurd hin hout, fun _ => ⟨err, rfl, hcode⟩⟩

end

end XPath
