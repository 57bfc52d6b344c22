import XPath.Proofs.ContractForms
import XPath.Proofs.Refinement

/-!
# Contracts with environments

A contract of a program says which items its expressions deliver and its variables have. It is kept on the machine
with environments, where an environment has to provide the variables in scope with items of theirs. If what every
form delivers, given what its parts deliver, is what the contract says (`Form.Gives`), then the contract is lawful,
and so is the accord that it makes.
-/

namespace XPath

open List

variable {steps : List Step} {q : Program} {caches : Array Cache} {s : Store} {w : Watch}

/-! ## Contracts -/

structure Contract where
  /-- The functions that may be called. -/
  Fit : FunctionEntry → Prop
  /-- The errors that may occur. -/
  Err : Error → Prop
  /-- The items that an expression may deliver. -/
  Value : ExprId → Item → Prop
  /-- The items that a variable may have. -/
  Var : Binding → Item → Prop

namespace Contract

/-- All variables that the expression refers to are in scope. -/
def Scoped (K : Contract) (p : Program) (vars : List Binding) (e : ExprId) : Prop :=
  ∃ lo hi, Placed p K.Fit vars lo hi e

/-- The environment has a value for every variable in scope, with items of that variable. -/
def Provides (K : Contract) (p : Program) (vars : List Binding) (env : Slots) : Prop :=
  ∀ name b, p.bindingOf vars name = some b →
    ∃ items, env.get? (p.cell name) = some items ∧ ∀ i ∈ items, K.Var b i

theorem Provides.extend {K : Contract} {p : Program} {vars : List Binding} {env : Slots}
    (h : K.Provides p vars env) {b : Binding} {item : Item} (hname : b.name ∈ p.variableNames)
    (hitem : K.Var b item) : K.Provides p (b :: vars) (env.set (p.cell b.name) [item]) := by
  intro name b' hb'
  by_cases hn : b.name = name
  · have hbind : p.bindingOf (b :: vars) name = some b := by
      simp [Program.bindingOf, hn]
    cases hbind.symm.trans hb'
    refine ⟨[item], ?_, forall_mem_singleton.mpr hitem⟩
    rw [← hn, Slots.get?_set_self]
  · have hbind : p.bindingOf (b :: vars) name = p.bindingOf vars name := by
      simp [Program.bindingOf, hn]
    rw [hbind] at hb'
    rw [Slots.get?_set_ne env (Program.cell_ne hname (fun e => hn e.symm))]
    exact h name b' hb'

end Contract

def Form.Operands (children : List ExprId) : Form → Prop
  | .arithmetic _ | .and | .or | .compare _ _ | .range | .forEach _ _ | .quantified _ _ _ =>
    ∃ left right, children = [left, right]
  | .negate => ∃ operand, children = [operand]
  | .ifThenElse => ∃ cond yes no, children = [cond, yes, no]
  | .filter steps => ∀ s ∈ steps, s.isFilter = true
  | _ => True

structure Contract.Lawful (K : Contract) (p : Program) : Prop where
  dynamic : ∀ e : Error, e.isStatic = false → K.Err e
  operands : ∀ e form, p.form? e = some form → form.Operands (p.children e)
  value : ∀ e form, p.form? e = some form → ∀ item i, form.Gives K.Value item (p.children e) i → K.Value e i
  «variable» : ∀ e name b, p.form? e = some (.variable name (some b)) → ∀ i, K.Var b i → K.Value e i
  call : ∀ e name f, p.form? e = some (.call name (some f)) →
    ∀ site, (f.body site).Ends K.Err (Reply.Of (K.Value e))
  loop : ∀ e form b source body, p.form? e = some form → form.loopBinding? = some b →
    p.children e = [source, body] → ∀ i, K.Value source i → K.Var b i

/-! ## Scopes of the parts -/

section

variable {p : Program} {K : Contract} {vars : List Binding} {e : ExprId} {Value : ExprId → Item → Prop}

/-- The parts of an expression are in place, and so are its variables and functions. -/
def Form.Placed (p : Program) (K : Contract) (vars : List Binding) (children : List ExprId) : Form → Prop
  | .variable name binding => ∃ b, binding = some b ∧ p.bindingOf vars name = some b
  | .call _ function => (∃ f, function = some f) ∧ ∀ c ∈ children, K.Scoped p vars c
  | .path plan => ∀ c ∈ plan.parts, K.Scoped p vars c
  | .filter steps => ∃ source, children[0]? = some source ∧ K.Scoped p vars source ∧
      ∀ c ∈ steps.filterMap Step.expr?, K.Scoped p vars c
  | .forEach _ binding | .quantified _ _ binding => ∃ b source body, binding = some b ∧
      children = [source, body] ∧ b.name ∈ p.variableNames ∧ K.Scoped p vars source ∧
      K.Scoped p (b :: vars) body
  | _ => ∀ c ∈ children, K.Scoped p vars c

theorem Apart.exists {P : Nat → Nat → ExprId → Prop} {es : List ExprId} :
    ∀ {lo hi : Nat}, Apart P lo hi es → ∀ e ∈ es, ∃ l h, P l h e := by
  induction es with
  | nil => exact nofun
  | cons e es ih =>
    rintro lo hi ⟨mid, -, he, hes⟩ c hc
    rcases mem_cons.mp hc with rfl | hc
    · exact ⟨lo, mid, he⟩
    · exact ih hes c hc

theorem Contract.Scoped.placed (h : K.Scoped p vars e) :
    ∃ form, p.form? e = some form ∧ form.Placed p K vars (p.children e) := by
  obtain ⟨lo, hi, n, h⟩ := h
  cases n with
  | zero => exact h.elim
  | succ n =>
    have hscoped : ∀ {l h vars c}, PlacedAt p K.Fit n vars l h c → K.Scoped p vars c :=
      fun h => ⟨_, _, n, h⟩
    have hparts : ∀ {es}, Apart (PlacedAt p K.Fit n vars) lo hi es → ∀ c ∈ es, K.Scoped p vars c := by
      intro es hes c hc
      obtain ⟨l, h, hc⟩ := hes.exists c hc
      exact hscoped hc
    unfold PlacedAt at h
    cases hform : p.form? e with
    | none =>
      rw [hform] at h
      exact h.elim
    | some form =>
      rw [hform] at h
      refine ⟨form, rfl, ?_⟩
      cases form with
      | «variable» name binding => exact h
      | call name function =>
        obtain ⟨f, hf, -, hargs⟩ := h
        exact ⟨⟨f, hf⟩, hparts hargs⟩
      | path plan => exact hparts h
      | filter steps =>
        obtain ⟨source, hsource, happart⟩ := h
        obtain ⟨hs, hsteps⟩ := forall_mem_cons.mp (hparts happart)
        exact ⟨source, hsource, hs, hsteps⟩
      | forEach name binding | quantified q name binding =>
        obtain ⟨b, source, body, hb, hloop⟩ := h
        exact ⟨b, source, body, hb, hloop.children, hloop.name, hscoped hloop.source, hscoped hloop.body⟩
      | _ => exact fun c hc => hscoped (h c hc)

/-! ## Chains -/

/-- Filters deliver what they get. -/
theorem foldl_gives_filters :
    ∀ {V : Item → Prop}, (∀ s ∈ steps, s.isFilter = true) → steps.foldl (Step.Gives Value) V = V := by
  induction steps with
  | nil => exact fun _ => rfl
  | cons s steps ih =>
    intro V hs
    obtain ⟨hfilter, hs⟩ := forall_mem_cons.mp hs
    have hsame : s.Gives Value V = V := by
      cases s with
      | position n | predicate e => rfl
      | _ => cases hfilter
    rw [foldl_cons, hsame]
    exact ih hs

/-- A chain that ends in navigation delivers nodes. -/
theorem foldl_gives_nodes {V : Item → Prop} {i : Item} (h : yieldsNodes steps = true)
    (hi : steps.foldl (Step.Gives Value) V i) : ∃ n, i = .node n := by
  induction steps using reverseRecOn with
  | nil => cases h
  | append_singleton steps s ih =>
    rw [foldl_append] at hi
    have hfilter : s.isFilter = true → yieldsNodes steps = true := by
      intro hs
      unfold yieldsNodes at h ⊢
      rw [filter_append, filter_cons_of_neg (by simp [hs]), filter_nil, append_nil] at h
      exact h
    cases s with
    | axis ax test | descent tests => exact hi
    | position n | predicate e => exact ih (hfilter rfl) hi
    | expr e nodesOnly =>
      unfold yieldsNodes at h
      rw [filter_append, filter_cons_of_pos rfl, getLast?_append_of_ne_nil _ (by simp)] at h
      cases h

/-! ## The accord of a contract -/

def Contract.accord (K : Contract) (p : Program) (caches : Array Cache) : Accord where
  Own := fun _ => False
  others := caches
  others' := caches
  Err := K.Err
  Provides := fun _ => K.Provides p
  Scoped := fun q vars e => q = p ∧ K.Scoped p vars e
  Looped := fun q vars b body => q = p ∧ b.name ∈ p.variableNames ∧ K.Scoped p (b :: vars) body
  Value := K.Value
  Var := K.Var

/-- What a form of a lawful contract asks of its parts. -/
theorem Contract.Lawful.kept (hL : K.Lawful p) {form : Form} (hform : p.form? e = some form)
    (hplaced : form.Placed p K vars (p.children e)) :
    form.Kept (K.accord p caches) p vars (p.children e) (K.Value e) := by
  have hops := hL.operands e form hform
  have hcount : form.arity ≤ (p.children e).length := by
    cases form with
    | arithmetic | and | or | compare | range | forEach | quantified =>
      obtain ⟨l, r, hlr⟩ := hops
      exact hlr ▸ .refl
    | negate =>
      obtain ⟨c, hc⟩ := hops
      exact hc ▸ .refl
    | ifThenElse =>
      obtain ⟨cond, yes, no, hchildren⟩ := hops
      exact hchildren ▸ .refl
    | filter steps =>
      obtain ⟨source, hsource, -⟩ := hplaced
      exact (List.getElem?_eq_some_iff.mp hsource).1
    | _ => exact Nat.zero_le _
  refine ⟨hL.value e form hform, fun i hi hnone => ?_, ?_, ?_⟩
  · exact absurd (Nat.lt_of_lt_of_le hi hcount) (Nat.not_lt.mpr (getElem?_eq_none_iff.mp hnone))
  · intro c hc
    refine ⟨rfl, ?_⟩
    cases form with
    | «variable» => cases hc
    | call => exact hplaced.2 c hc
    | filter steps =>
      obtain ⟨source, hsource, hscoped, hsteps⟩ := hplaced
      rcases mem_append.mp hc with hc | hc
      · cases hsource.symm.trans (Option.mem_toList.mp hc)
        exact hscoped
      · exact hsteps c hc
    | forEach | quantified =>
      obtain ⟨b, source, body, -, hchildren, -, hsource, -⟩ := hplaced
      have hc := Option.mem_toList.mp hc
      rw [hchildren] at hc
      cases hc
      exact hsource
    | _ => exact hplaced c hc
  · cases form with
    | call name function =>
      obtain ⟨⟨f, rfl⟩, -⟩ := hplaced
      refine ⟨nofun, ?_⟩
      rintro _ ⟨⟩
      exact hL.call e name f hform
    | forEach name binding | quantified k name binding =>
      obtain ⟨b, source, body, rfl, hchildren, hname, -, hbody⟩ := hplaced
      have hvar := hL.loop e _ b source body hform rfl hchildren
      rw [hchildren]
      refine ⟨nofun, ?_, ?_⟩
      · rintro _ _ ⟨⟩ ⟨⟩
        exact ⟨rfl, hname, hbody⟩
      · rintro _ _ ⟨⟩ ⟨⟩
        exact hvar
    | _ => trivial

/-- What the watch asks is what the contract promises. -/
structure Watch.Grants (w : Watch) (K : Contract) (p : Program) : Prop where
  item : ∀ b i, K.Var b i → w.item b i
  execution : ∀ {n : Nat} {vars : List Binding} {e : ExprId} {focus : Focus} {s s' : Store}
    {r : Except Error Cursor}, K.Provides p vars s.slots → K.Scoped p vars e →
    (lexicalMachine n p).execute e focus s = some (r, s') → K.Provides p vars s'.slots →
    Fulfils K.Err (Sound (K.accord p s'.caches) p vars (K.Value e)) r → w.execution p e focus s r s'

theorem Watch.idle_grants (K : Contract) (p : Program) : Watch.idle.Grants K p :=
  ⟨fun _ _ _ => trivial, fun _ _ _ _ _ => trivial⟩

/-- The accord of a lawful contract is lawful with environments. -/
theorem Contract.Lawful.accord (hL : K.Lawful p) (hw : w.Grants K p) (caches : Array Cache) :
    (K.accord p caches).Lawful .lexical w where
  dynamic := hL.dynamic
  own := fun h => h.elim
  missing := by
    rintro _ vars e ⟨rfl, he⟩ hnone
    obtain ⟨form, hform, -⟩ := he.placed
    cases hnone.symm.trans hform
  kept := by
    rintro _ vars e ⟨rfl, he⟩ form hform
    obtain ⟨form', hform', hplaced⟩ := he.placed
    cases hform.symm.trans hform'
    exact hL.kept hform hplaced
  lookup := by
    rintro _ vars e name binding ⟨rfl, he⟩ hform
    obtain ⟨form, hform', hplaced⟩ := he.placed
    cases hform.symm.trans hform'
    obtain ⟨b, rfl, hb⟩ := hplaced
    refine .get fun s t hst => ?_
    obtain ⟨items, hget, hitems⟩ := hst.2 name b hb
    rw [← hst.1.slots, hget]
    exact .pure fun i hi => hL.variable e name b hform i (hitems i hi)
  iterate := by
    rintro q vars b body item focus run run' ⟨rfl, hname, hbody⟩ hitem hfocus hrun
    refine .get fun s t hst => ?_
    have hp' := hst.2.extend hname hitem
    have hfocus' : (focus.within q s.slots).Sound (K.accord q caches) q (b :: vars) := by
      cases focus with
      | fixed snap => exact hfocus
      | current c =>
        obtain ⟨U, hc⟩ := hfocus
        exact ⟨U, .scope hst.2 hc⟩
    rw [← hst.1.slots]
    refine .bind (.lift (Ensures.onSlots hp' (hrun ⟨rfl, hbody⟩ hfocus'))) ?_
    rintro ⟨r, σ⟩ ⟨hr, -⟩
    refine .bind (.except hr) ?_
    intro value hvalue
    exact .pure (.scope hp' hvalue)
  item := fun _ hitem => hw.item _ _ hitem
  execution := by
    rintro n _ vars e focus s s' t t' r hst ⟨rfl, he⟩ hfocus hexec hst' hr
    obtain ⟨rfl, -⟩ := hst.1.eq
    obtain ⟨rfl, hs'⟩ := hst'.1.eq
    exact hw.execution hst.2 he hexec hst'.2 (hs' ▸ hr)

theorem Contract.Lawful.evaluate (hL : K.Lawful p) (hw : w.Grants K p) (n : Nat) (he : K.Scoped p [] e)
    (hp : K.Provides p [] s.slots) {focus : Snapshot} (hfocus : ∀ err, focus.last = .error err → K.Err err) :
    (do (w.machine .lexical n p).drain (← (w.machine .lexical n p).execute e (.fixed focus)) : Eval _) s =
        (do (lexicalMachine n p).drain (← (lexicalMachine n p).execute e (.fixed focus)) : Eval _) s ∧
      ∀ r s', (do (lexicalMachine n p).drain (← (lexicalMachine n p).execute e (.fixed focus)) : Eval _) s =
        some (r, s') → Fulfils K.Err (fun items => ∀ i ∈ items, K.Value e i) r := by
  have hm := (hL.accord hw s.caches).serving n
  have hfixed : (Focus.fixed focus).Sound (K.accord p s.caches) p [] := hfocus
  have hrun := EnsuresEval.bind (hm.execute ⟨rfl, he⟩ hfixed) (fun _ hc => hm.drain hc) s s
    ⟨.self, hp⟩
  refine ⟨?_, ?_⟩
  · refine (hrun.mono ?_).eq
    rintro r s' _ t' ⟨⟨rfl, -⟩, hst'⟩
    exact ⟨rfl, hst'.1.eq.1⟩
  · intro r s' hr
    obtain ⟨_, t', -, ⟨rfl, hr⟩, -⟩ := hrun.of_some hr
    exact hr

end

end XPath
