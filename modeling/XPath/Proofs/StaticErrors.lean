import XPath.Proofs.ContractQueries

/-!
# Static errors are found by compiling

Compiling decides whether all variables are in scope (`compile_judges`). What it accepts raises no static error
when it is evaluated: every operand, function and variable is there. The contract for this allows all errors but
static ones, and nothing else is said in it. That a reference to a variable finds its value each time it is executed
is asked by a watch.
-/

namespace XPath

theorem Script.Keeps.ends {α : Type} {onFocus : Bool} {Err : Error → Prop} {P Q : α → Prop} {s : Script α}
    (h : s.Keeps onFocus Err P) (hQ : ∀ a, P a → Q a) : s.Ends Err Q := by
  induction s with
  | done a => exact hQ a h
  | raise e => exact h
  | exhausted => trivial
  | current i k ih | fork i k ih => exact fun r => ih r (h r)
  | advance i k ih | take i limit k ih | drain i k ih => exact fun r hr => ih r (h r hr)
  | contextItem k ih | position k ih => exact fun r => ih r (h.2 r)
  | last k ih => exact fun r hr => ih r (h.2 r hr)

/-! ## Evaluations without static errors -/

/-- All functions may be called that are there, and only static errors are excluded. -/
def Contract.noStaticErrors (c : StaticContext) : Contract :=
  ⟨c.Callable, fun e => e.isStatic = false, fun _ _ => True, fun _ _ => True⟩

/-- Each time a reference to a variable is executed it has a value. -/
def Watch.onVariables : Watch :=
  ⟨fun p e _ _ r _ => ∀ name b, p.form? e = some (.variable name b) → ∃ c, r = .ok c, fun _ _ => True⟩

section

variable {c : StaticContext} {x : Expr} {q : Query}

theorem callable_core (hcore : c.functions = coreFunctions) {f : FunctionEntry} (hf : c.Callable f) :
    f.KeepsReply ∧ ∀ site, (f.body site).Ends (fun e => e.isStatic = false) (Reply.Of fun _ => True) := by
  have hall : coreFunctions.All fun _ f =>
      f.KeepsReply ∧ ∀ site, (f.body site).Ends (fun e => e.isStatic = false) (Reply.Of fun _ => True) := by
    refine CoreFunction.registry_all fun entry hentry =>
      ⟨CoreFunction.table_keepsReply entry hentry, fun site => ?_⟩
    refine (CoreFunction.table_keeps (fun _ h => h) entry hentry site).ends ?_
    intro reply _
    cases reply with
    | items values => exact fun _ _ => trivial
    | argument i => exact fun _ => trivial
  exact hf.of_all (hcore ▸ hall)

theorem Contract.noStaticErrors_lawful (hq : compile c x = .ok q) (hcore : c.functions = coreFunctions) :
    (noStaticErrors c).Lawful q.program where
  dynamic := fun _ h => h
  operands := operands_of_compile hq
  value := fun _ _ _ _ _ _ => trivial
  «variable» := fun _ _ _ _ _ _ => trivial
  loop := fun _ _ _ _ _ _ _ _ _ _ => trivial
  call := by
    intro e name f hform site
    have hcompiled := compiled_of_compile hq
    have hcallable : c.Callable f := hcompiled.static ▸ hcompiled.filled e _ hform
    exact (callable_core hcore hcallable).2 site

/-- On environments that provide the scope a reference always has a value. -/
theorem Watch.onVariables_grants (c : StaticContext) (p : Program) :
    Watch.onVariables.Grants (.noStaticErrors c) p where
  item := fun _ _ _ => trivial
  execution := by
    intro n vars e focus s s' r hp he hrun hp' hr name b hform
    obtain ⟨form, hform', hplaced⟩ := he.placed
    cases hform.symm.trans hform'
    obtain ⟨b, rfl, hb⟩ := hplaced
    obtain ⟨items, hitems, -⟩ := hp name b hb
    cases n with
    | zero => cases hrun
    | succ n =>
      have hlookup : (lexicalMachine n p).perform p e focus s = some (.ok (.ofItems items), s) := by
        unfold Calls.perform lexicalMachine
        rw [hform, vars_machineWith]
        have hvalue : (Variables.lexical p).lookup name (some b) s = some (.ok items, s) := by
          unfold Variables.lexical
          dsimp only
          rw [Eval.bind_get, hitems]
          rfl
        dsimp only
        rw [Eval.bind_of_ok hvalue]
        rfl
      cases hlookup.symm.trans hrun
      exact ⟨_, rfl⟩

def Watches.onVariables : Watches :=
  ⟨.onVariables, .onVariables, rfl⟩

theorem Watches.onVariables_concur (p : Program) (Fit : FunctionEntry → Prop) : Watches.onVariables.Concur p Fit := by
  intro gen vars lo hi env e focus focus' sizes s t s' t' r r' _ _ _ _ hr
  match r, r' with
  | .ok c, .ok c' => exact ⟨fun _ _ _ _ => ⟨c', rfl⟩, fun _ _ _ _ => ⟨c, rfl⟩⟩
  | .error err, .error err' =>
    refine ⟨fun h name b hform => ?_, fun h name b hform => ?_⟩
    all_goals
      obtain ⟨_, h⟩ := h name b hform
      cases h

end

/-- All calls resolve to functions. -/
def Expr.CallsResolve (c : StaticContext) (x : Expr) : Prop :=
  ∀ name arity, .call name arity ∈ x.mentions c →
    ∃ f, c.functions.resolve name arity c.settings.defaultFunctionNamespace = .ok f

/-- All static errors are found by compiling. An expression whose other names resolve compiles if and only if its
variables are in scope, and is refused with the code for undeclared variables otherwise. What has been compiled and
has its external variables never fails with a static error, as far as the core functions are called, and each time
a reference to a variable is executed it has a value. -/
theorem compile_finds_staticErrors (c : StaticContext) (x : Expr) :
    (c.settings.collation = codepointCollation → x.Resolves c → x.CallsResolve c →
      ((∃ q, compile c x = .ok q) ↔ x.InScope c []) ∧
        (¬ x.InScope c [] → ∃ err, compile c x = .error err ∧ err.errorCode = .XPST0008)) ∧
    ∀ q, compile c x = .ok q → c.functions = coreFunctions →
      ∀ values slots, q.createSlots values = .ok slots →
      ∀ (fuel : Nat) (focus : Snapshot), (∀ err, focus.last = .error err → err.isStatic = false) →
        (∀ err, (q.evaluateOn fuel focus slots).map (·.1) = some (.error err) → err.isStatic = false) ∧
          q.evaluateUnder .onVariables fuel focus slots = (q.evaluateOn fuel focus slots).map (·.1) := by
  refine ⟨?_, ?_⟩
  · intro hcollation hresolves hcalls
    obtain ⟨hin, hout⟩ := compile_judges hcollation hresolves hcalls
    refine ⟨⟨?_, hin⟩, hout⟩
    rintro ⟨q, hq⟩
    refine Classical.byContradiction fun hscope => ?_
    obtain ⟨err, herr, -⟩ := hout hscope
    cases hq.symm.trans herr
  · intro q hq hcore values slots hslots fuel focus hfocus
    have hprovides := q.provides_environment hq hslots (K := .noStaticErrors c) fun _ _ _ => trivial
    have hwatched := q.evaluateUnder_eq hq (fun f hf => (callable_core hcore hf).1) rfl
      (Contract.noStaticErrors_lawful hq hcore) (Watches.onVariables_concur _ _) (Watch.onVariables_grants c _)
      hprovides hfocus fuel
    exact ⟨fun err herr => hwatched.2 _ herr, hwatched.1⟩

def contextWithVariable : StaticContext :=
  StaticContext.standard.withVariable ⟨none, "e"⟩

/-- `for $x in ($e, 2), $y in 1 to $x return count(($x, $y))`. -/
def nestedLoops : Expr :=
  let var (name : String) : Expr := .variable (.unprefixed name)
  let number (i : Int64) : Expr := .literal (.integer i)
  .forEach
    [.mk (.unprefixed "x") (.sequence [var "e", number 2]),
      .mk (.unprefixed "y") (.binary .range (number 1) (var "x"))]
    (.call (.unprefixed "count") [.sequence [var "x", var "y"]])

/-- `for $x in $x return 1`: the source of a loop is not in its scope. -/
def variableInSource : Expr :=
  .forEach [.mk (.unprefixed "x") (.variable (.unprefixed "x"))] (.literal (.integer 1))

/-- The loops compile, and all references in their evaluation have values; the other expression is refused. -/
theorem compile_finds_staticErrors_nestedLoops :
    (∃ q, compile contextWithVariable nestedLoops = .ok q ∧
      ∃ slots, q.createSlots [(⟨none, "e"⟩, [.ofNat 3])] = .ok slots ∧
        ∃ items, items.length = 5 ∧
          (q.evaluateOn 40 (.single none) slots).map (·.1) = some (.ok items) ∧
          q.evaluateUnder .onVariables 40 (.single none) slots = some (.ok items)) ∧
      ∃ err, compile contextWithVariable variableInSource = .error err ∧ err.errorCode = .XPST0008 := by
  refine ⟨?_, ?_⟩
  · have hresolves : nestedLoops.Resolves contextWithVariable :=
      ⟨nofun, ⟨⟨_, rfl⟩, ⟨⟨_, rfl⟩, trivial, trivial⟩, ⟨_, rfl⟩, ⟨trivial, _, rfl⟩, trivial⟩, ⟨_, rfl⟩,
        ⟨⟨_, rfl⟩, ⟨_, rfl⟩, trivial⟩, trivial⟩
    have hcalls : nestedLoops.CallsResolve contextWithVariable := by
      intro name arity hmem
      have hmentions : nestedLoops.mentions contextWithVariable =
          [.call ⟨none, "count"⟩ 1, .loop ⟨none, "y"⟩, .loop ⟨none, "x"⟩] := rfl
      rw [hmentions] at hmem
      simp only [List.mem_cons, Mention.call.injEq, reduceCtorEq, List.not_mem_nil, or_false] at hmem
      obtain ⟨rfl, rfl⟩ := hmem
      exact ⟨_, rfl⟩
    have hscope : nestedLoops.InScope contextWithVariable [] := by
      refine ⟨⟨?_, trivial, trivial⟩, ?_⟩
      · rintro _ ⟨⟩
        exact .inr (.head _)
      · rintro _ ⟨⟩
        refine ⟨⟨trivial, ?_⟩, ?_⟩
        · rintro _ ⟨⟩
          exact .inl (.head _)
        · rintro _ ⟨⟩
          refine ⟨⟨?_, ?_, trivial⟩, trivial⟩
          · rintro _ ⟨⟩
            exact .inl (.tail _ (.head _))
          · rintro _ ⟨⟩
            exact .inl (.head _)
    have hfound := compile_finds_staticErrors contextWithVariable nestedLoops
    obtain ⟨q, hq⟩ := (hfound.1 rfl hresolves hcalls).1.mpr hscope
    have hrun : ((compile contextWithVariable nestedLoops).toOption.any fun q =>
        (q.createSlots [(⟨none, "e"⟩, [.ofNat 3])]).toOption.any fun slots =>
          ((q.evaluateOn 40 (.single none) slots).map (·.1)).any fun r =>
            r.toOption.any fun items => items.length == 5) = true := by decide +kernel
    rw [hq] at hrun
    obtain ⟨slots, hslots, hrun⟩ := exists_ok_of_check (x := q.createSlots _) hrun
    obtain ⟨r, hvalue, hrun⟩ := (Option.any_eq_true _ _).mp hrun
    obtain ⟨items, rfl, hlength⟩ := exists_ok_of_check hrun
    obtain ⟨-, hwatched⟩ := hfound.2 q hq rfl _ slots hslots 40 (.single none) nofun
    exact ⟨q, hq, slots, hslots, items, beq_iff_eq.mp hlength, hvalue, hwatched.trans hvalue⟩
  · have hresolves : variableInSource.Resolves contextWithVariable :=
      ⟨nofun, ⟨⟨_, rfl⟩, ⟨_, rfl⟩, trivial⟩, trivial⟩
    have hcalls : variableInSource.CallsResolve contextWithVariable := by
      intro name arity hmem
      have hmentions : variableInSource.mentions contextWithVariable = [.loop ⟨none, "x"⟩] := rfl
      rw [hmentions] at hmem
      cases List.mem_singleton.mp hmem
    have hscope : ¬ variableInSource.InScope contextWithVariable [] := by
      rintro ⟨hsource, -⟩
      rcases hsource ⟨none, "x"⟩ rfl with h | h
      · cases h
      · exact absurd (List.mem_singleton.mp h) (by decide)
    exact ((compile_finds_staticErrors contextWithVariable variableInSource).1 rfl hresolves hcalls).2 hscope

end XPath
