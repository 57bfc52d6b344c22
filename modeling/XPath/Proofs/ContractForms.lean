import Mathlib.Data.List.Induction
import XPath.Proofs.ContractCursors
import XPath.Proofs.Placement

/-!
# Expressions keep their contracts

What every form delivers, given what its parts deliver, has to be what the accord says (`Form.Kept`), and the
functions that are called have to reply and fail as it says (`Script.Ends`). If the variables are kept as it says,
too, then the accord is lawful, and the machine keeps it at every depth (`Accord.Lawful.serving`).
-/

namespace XPath

open List

variable {α : Type} {Err : Error → Prop} {E : Store → Store → Prop} {i count : Nat} {op : CompOp}
  {name : ExpandedName} {binding : Option Binding} {s t : Store}

/-! ## Laws -/

section

variable (A : Accord) (q : Program) (vars : List Binding) (children : List ExprId)

/-- The parts of a form that are executed in its own scope. -/
def Form.ownParts : Form → List ExprId
  | .variable _ _ => []
  | .path plan => plan.parts
  | .filter steps => children[0]?.toList ++ steps.filterMap Step.expr?
  | .forEach _ _ | .quantified _ _ _ => children[0]?.toList
  | _ => children

variable {children} in
theorem Form.mem_ownParts {form : Form} (h : form.isDirect = true) (hc : c ∈ children) :
    c ∈ form.ownParts children := by
  cases form with
  | «variable» | path | filter | forEach | quantified => cases h
  | _ => exact hc

structure Accord.Loop (what : String) (binding : Option Binding) : Prop where
  unbound : binding = none → A.Err (unbound what)
  looped : ∀ b body, binding = some b → children[1]? = some body → A.Looped q vars b body
  var : ∀ b source, binding = some b → children[0]? = some source → ∀ i, A.Value source i → A.Var b i

def Form.Bound (V : Item → Prop) : Form → Prop
  | .call name function => (function = none → A.Err (unbound (name.text ++ "()"))) ∧
      ∀ f, function = some f → ∀ site, (f.body site).Ends A.Err (Reply.Of V)
  | .forEach _ binding => A.Loop q vars children "for variable" binding
  | .quantified _ _ binding => A.Loop q vars children "quantified variable" binding
  | _ => True

/-- What a form asks of its parts, so that it delivers items of `V`; operands may be missing only where the lack of
one may occur. -/
structure Form.Kept (V : Item → Prop) (form : Form) : Prop where
  gives : ∀ item i, form.Gives A.Value item children i → V i
  missing : ∀ i, i < form.arity → children[i]? = none → A.Err (XPath.unbound "operand")
  placed : ∀ c ∈ form.ownParts children, A.Scoped q vars c
  bound : form.Bound A q vars children V

end

/-- Where every item and every error may occur, a form asks for its loop only. -/
theorem Form.kept_of_free {children : List ExprId}
    {V : Item → Prop} (herr : ∀ e, A.Err e) (hscoped : ∀ e, A.Scoped q vars e) (hvar : ∀ b i, A.Var b i)
    (hV : ∀ i, V i) {form : Form} (hloop : ∀ b, form.loopBinding? = some b → ∀ body, A.Looped q vars b body) :
    form.Kept A q vars children V := by
  refine ⟨fun _ i _ => hV i, fun _ _ _ => herr _, fun c _ => hscoped c, ?_⟩
  cases form with
  | call name function => exact ⟨fun _ => herr _, fun f _ site => Script.ends_of_free herr hV _⟩
  | forEach name b | quantified k name b =>
    refine ⟨fun _ => herr _, ?_, fun b _ _ _ i _ => hvar b i⟩
    rintro b body rfl -
    exact hloop b rfl body
  | _ => trivial

/-! ## Chains -/

section

variable {A : Accord} {q : Program} {vars : List Binding}

theorem Sound.chain :
    ∀ {V : Item → Prop} {c : Cursor}, (∀ e ∈ steps.filterMap Step.expr?, A.Scoped q vars e) →
      Sound A q vars V c →
      Sound A q vars (steps.foldl (Step.Gives A.Value) V) (Calls.chain perGroup c steps) := by
  induction steps with
  | nil => exact fun _ hc => hc
  | cons step steps ih =>
    intro V c hsteps hc
    have hnodes : ∀ n, (fun i => ∃ n, i = Item.node n) (.node n) := fun n => ⟨n, rfl⟩
    cases step with
    | axis ax test => exact ih hsteps (.stage (.axis ax _ .ended none 0) false hnodes hc)
    | descent tests => exact ih hsteps (.stage (.descent tests none none 0) false hnodes hc)
    | position n => exact ih hsteps (.stage (.nth n perGroup 0 false 0) false (fun _ h => h) hc)
    | predicate e =>
      obtain ⟨he, hsteps⟩ := forall_mem_cons.mp hsteps
      exact ih hsteps (.predicate 0 none none 0 false he hc)
    | expr e nodesOnly =>
      obtain ⟨he, hsteps⟩ := forall_mem_cons.mp hsteps
      have hthrough : Sound A q vars (A.Value e) (.through e c) :=
        .loop (l := .step e) 0 false ⟨he, fun _ h => h⟩ hc nofun nofun
      refine ih hsteps ?_
      cases nodesOnly with
      | true => exact .stage .nodesOnly false (fun _ h => h) hthrough
      | false => exact hthrough

end

/-! ## Forms -/

namespace Serving

section

variable {A : Accord} {m m' : Program → Calls} {q : Program} {vars : List Binding} {V : Item → Prop}
  {focus : Focus} {e : ExprId} {children : List ExprId} {form : Form} (hm : Serving A m m')
  (hfocus : focus.Sound A q vars)

theorem given {o : Option α} (hnone : o = none → Err (unbound what))
    {f g : α → Eval β} (k : ∀ a, o = some a → EnsuresEval E Err (f a) (g a) Q) :
    EnsuresEval E Err (do f (← Calls.bound what o)) (do g (← Calls.bound what o)) Q := by
  cases o with
  | none => exact .throw (hnone rfl)
  | some a => exact k a rfl

include hm

theorem tandem : Tandem hm.law A.Value (fun e => A.Joint q vars (A.Value e))
    (fun e => A.Tracks q vars (A.Value e)) (A.Beside q vars) (m q) (m' q) where
  fuel := hm.fuelLe q
  pulls := fun _ => hm.keepsUp
  stores := fun _ _ _ _ h => h.2
  fresh := fun hF hE => ⟨hF, hE⟩

include hfocus

theorem sameFocus : SameFocus hm.law (fun _ => True) (A.Beside q vars) (m q) (m' q) focus focus where
  item := rfl
  position := rfl
  sound := fun _ _ => trivial
  last := fun _ _ hst => ((hm.last hfocus).related hst).mono (fun _ _ _ _ h => ⟨h.1.1, h.2⟩) fun _ _ h => h

theorem executes (he : A.Scoped q vars e) :
    Executes hm.law (A.Joint q vars (A.Value e)) (A.Beside q vars) (m q) (m' q) focus focus e e :=
  fun _ _ hst => (hm.execute he hfocus).related hst

theorem matched (hchildren : ∀ c ∈ children, A.Scoped q vars c) :
    Matched (fun _ e e' => Executes hm.law (A.Joint q vars (A.Value e)) (A.Beside q vars)
      (m q) (m' q) focus focus e e') children children :=
  .refl fun _ c hc => hm.executes hfocus (hchildren c (mem_of_getElem? hc))

theorem executeAll (hchildren : ∀ c ∈ children, A.Scoped q vars c) (hst : A.Beside q vars s t) :
    RelatedEval hm.law (Sure (fun cs => ∀ c ∈ cs, ∃ e ∈ children, Sound A q vars (A.Value e) c) (A.Beside q vars))
      (A.Beside q vars) ((m q).executeAll focus children) ((m' q).executeAll focus children) s t := by
  have hexecutes : Matched (fun i => Executes hm.law
      (fun c d => c = d ∧ ∃ e ∈ children, Sound A q vars (A.Value e) c) (A.Beside q vars) (m q) (m' q) focus focus)
      children children := by
    refine .refl fun i e he s t hst => ?_
    have hmem := mem_of_getElem? he
    exact (hm.executes hfocus (hchildren e hmem) s t hst).mono
      (fun _ _ _ _ h => ⟨⟨h.1.1, e, hmem, h.1.2⟩, h.2⟩) fun _ _ h => h
  refine (executeAll_related hexecutes hst).mono ?_ fun _ _ h => h
  rintro cs s ds t ⟨-, hcs, hst⟩
  obtain ⟨rfl, hall⟩ := hcs.eq
  exact ⟨⟨rfl, hall⟩, hst⟩

theorem runScript (script : Script Reply) (hs : script.Ends A.Err (Reply.Of V)) {args : List Cursor}
    (hargs : ∀ c ∈ args, ∃ U, Sound A q vars U c) (hst : A.Beside q vars s t) :
    RelatedEval hm.law (A.Tracks q vars V) (A.Beside q vars)
      ((m q).runScript focus script args.toArray) ((m' q).runScript focus script args.toArray) s t := by
  have hsame := hm.sameFocus hfocus
  have hanswers : Answers hm.law False (fun _ => True) V (A.Joint q vars V) (A.Beside q vars)
      (fun _ c d => c = d ∧ ∃ U, Sound A q vars U c) (fun _ c _ d _ => c = d ∧ ∃ U, Sound A q vars U c)
      (m q) (m' q) focus focus := by
    refine ⟨fun _ _ _ _ => ⟨rfl, fun _ => True, .leaf .empty⟩, ?_, ?_, ?_, ?_, ?_⟩
    · rintro i c s _ t ⟨rfl, -⟩
      exact ⟨rfl, fun _ _ => trivial⟩
    · rintro i c s _ t hst ⟨rfl, U, hc⟩
      refine (hm.next hc s t hst).mono ?_
      rintro x s _ t ⟨⟨rfl, hc, herr⟩, hst⟩
      exact ⟨rfl, rfl, rfl, ⟨fun _ _ => trivial, herr⟩, ⟨rfl, U, hc⟩, hst, fun _ _ _ _ h => h⟩
    · rintro i c s _ t hst ⟨rfl, U, hc⟩
      refine (hm.clone hc s t hst).mono ?_
      rintro d s _ t ⟨⟨rfl, hd⟩, hst⟩
      exact ⟨fun _ => ⟨rfl, U, hd q vars⟩, hst, fun _ _ _ _ h => h⟩
    · intro s t hst
      exact (hsame.last s t hst).mono (fun _ _ _ _ h => ⟨h.1, h.2, fun _ _ _ _ h => h⟩)
        fun _ _ h => ⟨h, fun _ _ _ _ h => h⟩
    · rintro i c s _ t ⟨rfl, U, hc⟩ - hV
      exact ⟨rfl, hc.mono fun i _ => hV i⟩
  exact runScript_related hanswers (hm.fuelLe q) (fun c hc => ⟨rfl, .leaf (hc.mono fun _ h => h.2).leaf⟩) rfl rfl
    (fun _ _ => trivial) (.refl _ script) script.sound_true hs nofun
    (.start hst (.refl fun _ c hc => ⟨rfl, hargs c (mem_of_getElem? hc)⟩) fun _ _ _ h => h)

theorem path (h : (Form.path plan).Kept A q vars children V)
    (hst : A.Beside q vars s t) : RelatedEval hm.law (A.Tracks q vars V) (A.Beside q vars)
      ((m q).path focus unique plan) ((m' q).path focus unique plan) s t := by
  obtain ⟨hstart, hsteps⟩ := forall_mem_append.mp h.placed
  refine path_related (S := A.Joint q vars fun _ => True) (fun _ => hm.sameFocus hfocus)
    (fun _ _ _ _ => trivial) (.refl fun e he s t hst => ?_) ⟨rfl, rfl⟩ (fun c hc => ⟨rfl, .leaf hc.leaf⟩) ?_ ?_ ?_ hst
  · have hscoped : A.Scoped q vars e := hstart e (by rw [he]; exact mem_singleton_self e)
    exact (hm.executes hfocus hscoped s t hst).mono
      (fun _ _ _ _ h => ⟨⟨h.1.1, h.1.2.mono fun _ _ => trivial⟩, h.2⟩) fun _ _ h => h
  · rintro c _ ⟨rfl, hc⟩
    exact ⟨rfl, .stage .nodesOnly false (fun _ h => h) hc⟩
  · rintro c _ ⟨rfl, hc⟩
    exact ⟨rfl, (hc.chain hsteps).mono (h.gives none)⟩
  · rintro c _ ⟨rfl, hc⟩
    exact ⟨rfl, .stage (.unsorted unique none 0) false ⟨fun _ h => h, nofun⟩ hc⟩

theorem forForm (h : (Form.forEach name binding).Kept A q vars children V) (hst : A.Beside q vars s t) :
    RelatedEval hm.law (A.Tracks q vars V) (A.Beside q vars)
      ((m q).forForm q focus binding children) ((m' q).forForm q focus binding children) s t := by
  refine forForm_related (B := Eq) (G := fun _ x y => x = y ∧ ∀ e, x.last = .error e → A.Err e)
    (S := fun c d => c = d ∧ ∃ e, children[0]? = some e ∧ Sound A q vars (A.Value e) c)
    (.refl (fun _ => rfl) binding) h.bound.unbound rfl h.missing ?_ ?_ ?_ hst
  · rintro body _ s t hbody hbody' hst
    cases hbody.symm.trans hbody'
    refine (snapshot_related (hm.sameFocus hfocus) _ hst).mono ?_
    rintro x s _ t ⟨rfl, -, hlast, hst⟩
    exact ⟨⟨rfl, hlast⟩, hst⟩
  · rintro e _ he he' s t hst
    cases he.symm.trans he'
    exact (hm.executes hfocus (h.placed e (Option.mem_toList.mpr he)) s t hst).mono
      (fun _ _ _ _ h => ⟨⟨h.1.1, e, he, h.1.2⟩, h.2⟩) fun _ _ h => h
  · rintro b _ body _ snap _ c _ hb rfl hbody hbody' ⟨rfl, hlast⟩ ⟨rfl, e, he, hc⟩
    cases hbody.symm.trans hbody'
    exact ⟨rfl, .loop (l := .forEach body b snap) 0 false ⟨h.bound.looped b body hb hbody, hlast,
      fun i hi => h.gives none i ⟨body, hbody, hi⟩, h.bound.var b e hb he⟩ hc nofun nofun⟩

theorem deviates (hloop : A.Looped q vars b body) (usual : Bool)
    (hc : Sound A q vars (A.Var b) c) (hst : A.Beside q vars s t) :
    RelatedEval hm.law (Same (A.Beside q vars)) (A.Beside q vars) ((m q).deviates focus b body usual (m q).fuel c)
      ((m' q).deviates focus b body usual (m' q).fuel c) s t := by
  refine deviates_related (J := A.Tracks q vars (A.Var b)) (V := fun c d v s w t =>
      A.Tracks q vars (A.Value body) v s w t ∧ A.Tracks q vars (A.Var b) c s d t) (hm.fuelLe q) hm.keepsUp
    (fun _ _ _ _ h => h.2) ?_ (fun _ _ _ _ _ _ h => h.2) ?_ (hm.fuelLe q) ⟨⟨rfl, hc⟩, hst⟩
  · rintro c d v s w t ⟨hvw, hcd, -⟩
    refine (hm.keepsUp v s w t hvw).mono ?_
    intro x s y t hxy
    exact ⟨hxy.outcome, hxy.current, hxy.position, ⟨fun _ _ => trivial, hxy.allowed.2⟩, hxy.rel, hcd, hxy.rel.2⟩
  · rintro c s _ t item ⟨⟨rfl, hc⟩, hst⟩ - hitem
    exact ((hm.iterate hloop hitem hfocus).related hst).mono (fun _ _ _ _ h => ⟨h, ⟨rfl, hc⟩, h.2⟩) fun _ _ h => h

theorem quantifiedForm (h : (Form.quantified k name binding).Kept A q vars children V)
    (hst : A.Beside q vars s t) : RelatedEval hm.law (A.Tracks q vars V) (A.Beside q vars)
      ((m q).quantifiedForm focus k binding children) ((m' q).quantifiedForm focus k binding children) s t := by
  refine .bind (bound_related (.refl (fun _ => rfl) binding) h.bound.unbound hst) ?_
  rintro b s _ t ⟨⟨hb, -, rfl⟩, hst⟩
  refine .bind (childAt_related rfl (h.missing 1 Nat.one_lt_two) hst) ?_
  rintro body s _ t ⟨hbody, hbody', hst⟩
  cases hbody.symm.trans hbody'
  refine .bind (childAt_related rfl (h.missing 0 Nat.zero_lt_two) hst) ?_
  rintro e s _ t ⟨he, he', hst⟩
  cases he.symm.trans he'
  refine .bind (hm.executes hfocus (h.placed e (Option.mem_toList.mpr he)) s t hst) ?_
  rintro c s _ t ⟨⟨rfl, hc⟩, hst⟩
  refine .bind (hm.deviates hfocus (h.bound.looped b body hb hbody) _ (hc.mono (h.bound.var b e hb he)) hst) ?_
  rintro d s _ t ⟨rfl, hst⟩
  exact .pure ⟨⟨rfl, .ofItem (h.gives none _ ⟨_, rfl⟩)⟩, hst⟩

/-! ## All forms -/

theorem perform (he : A.Scoped q vars e) (hnone : q.form? e = none → A.Err (unbound "operand"))
    (hkept : ∀ form, q.form? e = some form → form.Kept A q vars (q.children e) (A.Value e)) :
    A.Evals m m' q vars (·.perform q e focus) (Sound A q vars (A.Value e)) := by
  refine .of_related (R := A.Tracks q vars (A.Value e)) (d := hm.dynamic) ?_ fun _ _ _ _ h => h
  intro s t hst
  cases hform : q.form? e with
  | none =>
    unfold Calls.perform
    rw [hform]
    exact .throw (hnone hform) hst
  | some form =>
    have h := hkept form hform
    by_cases hdirect : form.isDirect = true
    · refine hm.tandem.perform_direct hform hform hdirect (fun _ => hm.sameFocus hfocus)
        ⟨hm.matched hfocus fun c hc => h.placed c (Form.mem_ownParts hdirect hc), h.missing⟩
        (fun c hc => ⟨rfl, .leaf (hc.mono (h.gives _)).leaf⟩) ?_ hst
      rintro rfl e₀ c _ hchild ⟨rfl, hc⟩
      exact ⟨rfl, hc.mono fun i hi => h.gives none i ⟨e₀, hchild, hi⟩⟩
    unfold Calls.perform
    rw [hform]
    cases form with
    | «variable» name binding =>
      refine .bind ((hm.lookup he hform).related hst) ?_
      rintro items s _ t ⟨⟨rfl, hitems⟩, hst⟩
      exact .pure ⟨⟨rfl, .ofItems hitems⟩, hst⟩
    | call name function =>
      refine .bind (bound_related (.refl (fun _ => rfl) function) h.bound.1 hst) ?_
      rintro f s _ t ⟨⟨hf, -, rfl⟩, hst⟩
      refine .bind (hm.executeAll hfocus h.placed hst) ?_
      rintro args s _ t ⟨⟨rfl, hargs⟩, hst⟩
      rw [hm.fuel]
      refine hm.runScript hfocus _ (h.bound.2 f hf _) ?_ hst
      intro c hc
      obtain ⟨e', -, hc⟩ := hargs c hc
      exact ⟨_, hc⟩
    | path plan => exact hm.path hfocus h hst
    | filter steps =>
      obtain ⟨hsource, hsteps⟩ := forall_mem_append.mp h.placed
      refine .bind (childAt_related rfl (h.missing 0 Nat.zero_lt_one) hst) ?_
      rintro x s _ t ⟨hx, hx', hst⟩
      cases hx.symm.trans hx'
      refine .bind (hm.executes hfocus (hsource x (Option.mem_toList.mpr hx)) s t hst) ?_
      rintro c s _ t ⟨⟨rfl, hc⟩, hst⟩
      have hparts : Sound A q vars (A.Value x) (.ofParts [c]) :=
        .concat 0 false nofun (forall_mem_singleton.mpr hc)
      exact .pure ⟨⟨rfl, (hparts.chain hsteps).mono fun i hi => h.gives none i ⟨x, hx, hi⟩⟩, hst⟩
    | forEach name binding => exact hm.forForm hfocus h hst
    | quantified k name binding => exact hm.quantifiedForm hfocus h hst
    | sequence =>
      refine .bind (hm.executeAll hfocus h.placed hst) ?_
      rintro cs s _ t ⟨⟨rfl, hcs⟩, hst⟩
      refine .pure ⟨⟨rfl, .concat 0 false nofun ?_⟩, hst⟩
      intro c hc
      obtain ⟨e', he', hc⟩ := hcs c hc
      exact hc.mono fun i hi => h.gives none i ⟨e', he', hi⟩
    | _ => exact absurd rfl hdirect

end

end Serving

/-! ## All depths -/

/-- The accord follows from what forms, functions and variables do, and the watch asks no more. -/
structure Accord.Lawful (A : Accord) (keeper : Program → Variables) (w : Watch) : Prop where
  dynamic : ∀ e : Error, e.isStatic = false → A.Err e
  own : ∀ {id : Nat}, A.Own id → A.Shares
  missing : ∀ {q : Program} {vars : List Binding} {e : ExprId}, A.Scoped q vars e → q.form? e = none →
    A.Err (unbound "operand")
  kept : ∀ {q : Program} {vars : List Binding} {e : ExprId}, A.Scoped q vars e → ∀ form, q.form? e = some form →
    form.Kept A q vars (q.children e) (A.Value e)
  lookup : ∀ {q : Program} {vars : List Binding} {e : ExprId} {name : ExpandedName} {binding : Option Binding},
    A.Scoped q vars e → q.form? e = some (.variable name binding) →
    EnsuresEval (A.Beside q vars) A.Err ((keeper q).lookup name binding) ((keeper q).lookup name binding)
      fun items => ∀ i ∈ items, A.Value e i
  iterate : ∀ {q : Program} {vars : List Binding} {b : Binding} {body : ExprId} {item : Item} {focus : Focus}
    {run run' : Focus → Eval Cursor}, A.Looped q vars b body → A.Var b item → focus.Sound A q vars →
    (∀ {vars focus}, A.Scoped q vars body → focus.Sound A q vars →
      EnsuresEval (A.Beside q vars) A.Err (run focus) (run' focus) (Sound A q vars (A.Value body))) →
    EnsuresEval (A.Beside q vars) A.Err ((keeper q).iterate b item focus run)
      ((keeper q).iterate b item focus run') (Sound A q vars (A.Value body))
  item : ∀ {q : Program} {vars : List Binding} {b : Binding} {body : ExprId} {item : Item},
    A.Looped q vars b body → A.Var b item → w.item b item
  execution : ∀ {n : Nat} {q : Program} {vars : List Binding} {e : ExprId} {focus : Focus} {s s' t t' : Store}
    {r : Except Error Cursor}, A.Beside q vars s t → A.Scoped q vars e → focus.Sound A q vars →
    (machineWith keeper n q).execute e focus s = some (r, s') → A.Beside q vars s' t' →
    Fulfils A.Err (Sound A q vars (A.Value e)) r → w.execution q e focus t r t'

section

variable {A : Accord} {keeper : Program → Variables} {w : Watch} {n : Nat} {vars : List Binding}
  {V : Item → Prop} {c : Cursor}

/-- Scopes are peeled off without going deeper, so the induction is on the cursor. -/
theorem Serving.next_succ (hm : Serving A (machineWith keeper n) (w.machine keeper n)) (hc : Sound A q vars V c) :
    Ensures (A.Beside q vars) ((machineWith keeper (n + 1) q).next c) ((w.machine keeper (n + 1) q).next c)
      (Delivered A q vars V) := by
  induction hk : sizeOf c using Nat.strongRecOn generalizing q vars c with
  | ind k ih =>
    rcases hc.scopes with hbare | ⟨q', vars', σ, c₀, rfl, provides, inner⟩
    · rw [next_bare _ _ _ hbare, Watch.next_bare hbare]
      exact hm.pull hc hbare
    · intro s t hst
      rw [next_scope, Watch.next_scope]
      refine (ih (sizeOf c₀) (by rw [← hk]; simp +arith) inner rfl _ _ ⟨hst.1.withSlots σ, provides⟩).map ?_
      rintro ⟨c', r⟩ s' _ t' ⟨⟨rfl, hc', herr⟩, hst'⟩
      exact ⟨⟨by rw [hst'.1.slots], .scope hst'.2 hc', herr⟩, hst.1.outOfScope hst'.1, hst.2⟩

theorem Serving.clone_succ (hm : Serving A (machineWith keeper n) (w.machine keeper n)) (hc : Sound A q vars V c) :
    Ensures (A.Beside q vars) ((machineWith keeper (n + 1) q).clone c) ((w.machine keeper (n + 1) q).clone c)
      (Portable A V) := by
  induction hk : sizeOf c using Nat.strongRecOn generalizing q vars c with
  | ind k ih =>
    rcases hc.scopes with hbare | ⟨q', vars', σ, c₀, rfl, provides, inner⟩
    · rw [clone_bare _ _ _ hbare, Watch.clone_bare hbare]
      exact hm.copy hc hbare
    · intro s t hst
      rw [clone_scope, Watch.clone_scope]
      refine (ih (sizeOf c₀) (by rw [← hk]; simp +arith) inner rfl _ _ ⟨hst.1.withSlots σ, provides⟩).map ?_
      rintro d s' _ t' ⟨hd, hst'⟩
      exact ⟨hd, hst.1.outOfScope hst'.1, hst.2⟩

theorem Serving.execute_succ (hA : A.Lawful keeper w) (hm : Serving A (machineWith keeper n) (w.machine keeper n))
    (he : A.Scoped q vars e) (hfocus : focus.Sound A q vars) :
    EnsuresEval (A.Beside q vars) A.Err ((machineWith keeper (n + 1) q).execute e focus)
      ((w.machine keeper (n + 1) q).execute e focus) (Sound A q vars (A.Value e)) := by
  intro s t hst
  have hexec : (machineWith keeper (n + 1) q).execute e focus s = (machineWith keeper n q).perform q e focus s :=
    rfl
  rw [hexec, Watch.execute_succ]
  have hrun := hm.perform hfocus he (hA.missing he) (hA.kept he) s t hst
  dsimp only at hrun
  cases hx : (machineWith keeper n q).perform q e focus s with
  | none =>
    rw [hx] at hrun
    have hy : (w.machine keeper n q).perform q e focus t = none := by
      cases hy : (w.machine keeper n q).perform q e focus t with
      | none => rfl
      | some y => rw [hy] at hrun; cases hrun; contradiction
    rw [Eval.provided_of_none hy]
    exact .neither
  | some x =>
    obtain ⟨_, t', hy, ⟨rfl, hr⟩, hst'⟩ := hrun.of_some hx
    rw [Eval.provided_of_some hy (hA.execution hst he hfocus (hexec.trans hx) hst' hr)]
    exact .both ⟨⟨rfl, hr⟩, hst'⟩

/-- The machine keeps a lawful accord, and a watch that asks no more sees nothing amiss. -/
theorem Accord.Lawful.serving (hA : A.Lawful keeper w) (n : Nat) :
    Serving A (machineWith keeper n) (w.machine keeper n) := by
  have hvars : ∀ n q, (machineWith keeper n q).vars = keeper q ∧ (w.machine keeper n q).vars = w.vars (keeper q) :=
    fun n q => ⟨vars_machineWith _ _ _, Watch.vars_machine⟩
  have hfuel : ∀ n q, (w.machine keeper n q).fuel = (machineWith keeper n q).fuel :=
    fun n q => Watch.fuel_machine.trans (fuel_machineWith _ _ _).symm
  have hlookup : ∀ n {q vars e name binding}, A.Scoped q vars e → q.form? e = some (.variable name binding) →
      EnsuresEval (A.Beside q vars) A.Err ((machineWith keeper n q).vars.lookup name binding)
        ((w.machine keeper n q).vars.lookup name binding) fun items => ∀ i ∈ items, A.Value e i := by
    intro n q vars e name binding he hform
    rw [(hvars n q).1, (hvars n q).2]
    exact hA.lookup he hform
  have hiterate : ∀ n, (∀ {q vars e focus}, A.Scoped q vars e → focus.Sound A q vars →
        EnsuresEval (A.Beside q vars) A.Err ((machineWith keeper n q).execute e focus)
          ((w.machine keeper n q).execute e focus) (Sound A q vars (A.Value e))) →
      ∀ {q vars b body item focus}, A.Looped q vars b body → A.Var b item → focus.Sound A q vars →
        EnsuresEval (A.Beside q vars) A.Err
          ((machineWith keeper n q).vars.iterate b item focus ((machineWith keeper n q).execute body))
          ((w.machine keeper n q).vars.iterate b item focus ((w.machine keeper n q).execute body))
          (Sound A q vars (A.Value body)) := by
    intro n hexec q vars b body item focus hloop hitem hfocus
    rw [(hvars n q).1, (hvars n q).2, Watch.iterate_of_item (hA.item hloop hitem)]
    exact hA.iterate hloop hitem hfocus fun he hf => hexec he hf
  induction n with
  | zero =>
    exact ⟨hA.dynamic, hA.own, hfuel 0, fun _ => .outOfFuel, fun _ => .outOfFuel, fun _ _ => .outOfFuel,
      hlookup 0, hiterate 0 fun _ _ => .outOfFuel⟩
  | succ n ih =>
    exact ⟨hA.dynamic, hA.own, hfuel _, ih.next_succ, ih.clone_succ, ih.execute_succ hA, hlookup _,
      hiterate _ (ih.execute_succ hA)⟩

end

end XPath
