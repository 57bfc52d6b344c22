import Mathlib.Data.List.Induction
import Mathlib.Data.List.Infix
import XPath.Proofs.Scoping
import XPath.Proofs.StepFailures

/-!
# Type errors of paths

Where the start, the predicates and the expression steps of a path raise no errors of their own
(`PathPlan.Quiet`), the path can still meet an atomic value where a node must stand. Three mechanisms decide
what happens then: the checks that binding has put below every step that needs nodes (`PathPlan.Checked`), the
check that a step along an axis makes itself, and the sort, which does not take nodes together with atomic
values. `Query.path_type_errors` says what they come to: an axis meets an atomic value only in the context
item, an atomic value that is delivered too early fails the path, and what a path delivers is of one kind.
-/

namespace XPath

open List

variable {post rest : List Step} {b e : ExprId} {nodesOnly : Bool} {first step : Step} {x : Expr} {q : Query}
  {M : Calls} {value : Cursor} {items : List Item}

/-! ## Plans of compiled paths -/

def Step.walks : Step → Bool
  | .axis _ _ | .descent _ => true
  | _ => false

/-- A path begins with a step that is no filter. What it starts from, and every expression step with such a step
after it, is checked for nodes. It is left unsorted only if its steps keep order. -/
structure PathPlan.Checked (plan : PathPlan) : Prop where
  first : ∃ first rest, plan.steps = first :: rest ∧ first.isFilter = false
  start : ∀ b, plan.start = .expr b → plan.startNodesOnly = true
  marked : ∀ pre b nodesOnly post, plan.steps = pre ++ .expr b nodesOnly :: post →
    nodesOnly = post.any (!·.isFilter)
  unsorted : plan.sort = false → ∃ facts, isOrdered plan.steps facts = true

theorem any_markNodesOnly (steps : List Step) : (markNodesOnly steps).any (!·.isFilter) = steps.any (!·.isFilter) := by
  induction steps with
  | nil => rfl
  | cons step steps ih => cases step <;> exact congrArg (Bool.or _) ih

theorem nodesOnly_of_markNodesOnly
    (h : markNodesOnly steps = pre ++ .expr b nodesOnly :: post) : nodesOnly = post.any (!·.isFilter) := by
  induction steps generalizing pre with
  | nil => exact absurd h.symm (append_ne_nil_of_right_ne_nil _ (cons_ne_nil _ _))
  | cons step steps ih =>
    have hcons : ∃ first, markNodesOnly (step :: steps) = first :: markNodesOnly steps ∧
        ∀ b nodesOnly, first = .expr b nodesOnly → nodesOnly = steps.any (!·.isFilter) := by
      cases step with
      | expr b flag => exact ⟨_, rfl, fun _ _ h => (Step.expr.inj h).2.symm⟩
      | axis | descent | position | predicate => exact ⟨_, rfl, nofun⟩
    obtain ⟨first, heq, hfirst⟩ := hcons
    rw [heq] at h
    cases pre with
    | nil =>
      obtain ⟨rfl, rfl⟩ := cons.inj h
      rw [any_markNodesOnly]
      exact hfirst b nodesOnly rfl
    | cons _ pre => exact ih (cons.inj h).2

theorem first_of_fuse (literal : ExprId → Option Nat) (rest : List Step) (hfirst : first.isFilter = false) :
    ∃ first' rest', fuse literal (first :: rest) = first' :: rest' ∧ first'.isFilter = false := by
  unfold fuse
  have hfixed : fixPositions literal (first :: rest) = first :: fixPositions literal rest := by
    cases first <;> first | rfl | cases hfirst
  rw [hfixed, mergeRuns]
  split
  · split
    · exact ⟨_, _, rfl, hfirst⟩
    · exact ⟨_, _, rfl, rfl⟩
    · exact ⟨_, _, rfl, rfl⟩
  · exact ⟨_, _, rfl, hfirst⟩

theorem first_of_markNodesOnly (hfirst : first.isFilter = false) :
    ∃ first' rest', markNodesOnly (first :: rest) = first' :: rest' ∧ first'.isFilter = false := by
  cases first with
  | axis | descent | expr => exact ⟨_, _, rfl, rfl⟩
  | position | predicate => cases hfirst

theorem Program.checked_planPath (p : Program) (hsteps : plan.steps = first :: rest)
    (hfirst : first.isFilter = false) : (p.planPath plan).Checked := by
  have hhead : ∃ first rest, (p.planPath plan).steps = first :: rest ∧ first.isFilter = false := by
    obtain ⟨first', rest', hfuse, hfirst'⟩ := first_of_fuse p.literalPosition rest hfirst
    change ∃ first rest, markNodesOnly (fuse p.literalPosition plan.steps) = first :: rest ∧ _
    rw [hsteps, hfuse]
    exact first_of_markNodesOnly hfirst'
  refine ⟨hhead, ?_, fun _ _ _ _ h => nodesOnly_of_markNodesOnly h, fun h => ⟨_, p.planPath_decided plan h⟩⟩
  intro b hb
  obtain ⟨first', rest', heq, hfirst'⟩ := hhead
  obtain ⟨start, steps⟩ := plan
  cases (hb : start = .expr b)
  change (p.planPath _).steps.any (!·.isFilter) = true
  rw [heq, any_cons, hfirst']
  rfl

theorem checked_of_compile (hq : compile c x = .ok q)
    (hform : q.program.form? e = some (.path plan)) : plan.Checked := by
  obtain ⟨p, raw, -, -, -, hfits, hfills⟩ := raw_of_compile hq hform
  cases raw with
  | path raw =>
    obtain ⟨-, -, first, rest, hsteps, hfirst⟩ := hfits
    cases (hfills : Form.path plan = .path (q.program.planPath raw))
    exact q.program.checked_planPath hsteps hfirst
  | «variable» | call | forEach | quantified =>
    obtain ⟨_, -, h⟩ := hfills
    cases h
  | _ => cases hfills

/-! ## The cursors of a path -/

namespace PathPlan

/-- The cursor that the path starts from, before it is checked for nodes, and the store that it is left in. -/
def Begins (plan : PathPlan) (M : Calls) (f : Focus) (s : Store) (start : Cursor) (t : Store) : Prop :=
  match plan.start with
  | .context => ∃ i, f.item? = some i ∧ start = .ofItem i ∧ t = s
  | .root => ∃ n, f.item? = some (.node n) ∧ start = .ofItem (.node n.root) ∧ t = s
  | .expr b => M.execute b f s = some (.ok start, t)

def source (plan : PathPlan) (start : Cursor) : Cursor :=
  match plan.start with
  | .expr _ => if plan.startNodesOnly then .requireNodes start else start
  | _ => start

def upTo (plan : PathPlan) (start : Cursor) (pre : List Step) : Cursor :=
  Calls.chain true (plan.source start) pre

/-- The start is read to its end. A step comes to an end or an error where what it draws on does, which goes without
saying for positions. Where a predicate or an expression step fails, what it draws on fails with the same error: it
raises none of its own. -/
structure Quiet (plan : PathPlan) (p : Program) (start : Cursor) (t : Store) : Prop where
  begun : ∃ m ins, (machine m p).Reads start t ins (.ok ())
  ends : ∀ pre step, pre ++ [step] <+: plan.steps → (∀ k, step ≠ .position k) →
    (∃ m ins r, (machine m p).Reads (plan.upTo start pre) t ins r) →
      ∃ m out r, (machine m p).Reads (plan.upTo start (pre ++ [step])) t out r
  predicate : ∀ pre b, pre ++ [.predicate b] <+: plan.steps → ∀ m out err,
    (machine m p).Reads (plan.upTo start (pre ++ [.predicate b])) t out (.error err) →
      ∃ m ins, (machine m p).Reads (plan.upTo start pre) t ins (.error err)
  expr : ∀ pre b nodesOnly, pre ++ [.expr b nodesOnly] <+: plan.steps → ∀ m out err,
    (machine m p).Reads (.through b (plan.upTo start pre)) t out (.error err) →
      ∃ m ins, (machine m p).Reads (plan.upTo start pre) t ins (.error err)

/-- The context item is atomic, and the first step walks from it. -/
def MeetsAtomic (plan : PathPlan) (f : Focus) : Prop :=
  plan.start = .context ∧ (∃ a, f.item? = some (.atomic a)) ∧
    ∃ first rest, plan.steps = first :: rest ∧ first.walks = true

/-- The start, or an expression step with a later step that is no filter, delivers an atomic value. -/
def DeliversAtomic (plan : PathPlan) (p : Program) (start : Cursor) (t : Store) : Prop :=
  (∃ b m ins, plan.start = .expr b ∧ (machine m p).Reads start t ins (.ok ()) ∧ ∃ x ∈ ins, x.1.isNode = false) ∨
    ∃ pre b nodesOnly post m out r, plan.steps = pre ++ .expr b nodesOnly :: post ∧
      post.any (!·.isFilter) = true ∧ (machine m p).Reads (.through b (plan.upTo start pre)) t out r ∧
        ∃ x ∈ out, x.1.isNode = false

/-- Nodes and atomic values come together in what the steps deliver. -/
def DeliversMixed (plan : PathPlan) (p : Program) (start : Cursor) (t : Store) : Prop :=
  ∃ m out r, (machine m p).Reads (plan.upTo start plan.steps) t out r ∧ (∃ x ∈ out, x.1.isNode = true) ∧
    ∃ x ∈ out, x.1.isNode = false

/-- What becomes of the items of the last step, if it ends so. -/
def outcome (plan : PathPlan) (unique : Bool) (items : List Item) (r : Except Error Unit) : Except Error (List Item) :=
  if plan.sort then arranged unique items r else r.map fun _ => items

theorem upTo_append {plan : PathPlan} {start : Cursor} (pre post : List Step) :
    plan.upTo start (pre ++ post) = Calls.chain true (plan.upTo start pre) post :=
  foldl_append

theorem upTo_concat {plan : PathPlan} {start : Cursor} (pre : List Step) (step : Step) :
    plan.upTo start (pre ++ [step]) = Calls.instantiate true (plan.upTo start pre) step :=
  upTo_append pre [step]

/-- What is left for a later step that is no filter delivers nodes only, unless it is the context item. -/
theorem Checked.ofNodes {plan : PathPlan} (h : plan.Checked) {start : Cursor}
    (hsteps : plan.steps = pre ++ post) (hpost : post.any (!·.isFilter) = true)
    (hsource : pre = [] → (plan.source start).OfNodes) : (plan.upTo start pre).OfNodes := by
  induction pre using reverseRecOn generalizing post with
  | nil => exact hsource rfl
  | append_singleton pre step ih =>
    rw [append_assoc] at hsteps
    rw [upTo_concat]
    have hbefore : step.isFilter = true → (plan.upTo start pre).OfNodes := by
      intro hstep
      refine ih hsteps (by rw [singleton_append, any_cons, hpost, Bool.or_true]) ?_
      rintro rfl
      obtain ⟨first, rest, heq, hfirst⟩ := h.first
      rw [hsteps] at heq
      cases heq
      rw [hfirst] at hstep
      cases hstep
    cases step with
    | axis a test => exact .axis
    | descent tests => exact .descent
    | position k => exact .sifts .nth (hbefore rfl)
    | predicate b => exact .sifts .predicate (hbefore rfl)
    | expr b nodesOnly =>
      rw [h.marked pre b nodesOnly post hsteps, hpost]
      exact .nodesOnly

/-- A path that keeps order delivers nodes only. -/
theorem ofNodes_of_isOrdered {plan : PathPlan} {start : Cursor} {steps : List Step}
    (h : isOrdered steps facts = true) (hsteps : steps.any (!·.isFilter) = true) : (plan.upTo start steps).OfNodes := by
  induction steps using reverseRecOn with
  | nil => cases hsteps
  | append_singleton pre step ih =>
    unfold isOrdered at h ih
    rw [foldl_append, foldl_cons, foldl_nil] at h
    rw [any_append, Bool.or_eq_true] at hsteps
    rw [upTo_concat]
    cases step with
    | axis a test => exact .axis
    | descent tests => exact .descent
    | position k => exact .sifts .nth (ih h (hsteps.resolve_right Bool.false_ne_true))
    | predicate b => exact .sifts .predicate (ih h (hsteps.resolve_right Bool.false_ne_true))
    | expr b nodesOnly => cases h

end PathPlan

/-! ## How a path ends -/

section

variable {p : Program} {Fit : FunctionEntry → Prop} {scope : List Binding} {lo hi n m : Nat} {plan : PathPlan}
  {start c : Cursor} {f : Focus} {s t : Store} {steps pre : List Step} {out ins : List (Item × Nat)}
  {r : Except Error Unit} {err : Error}

theorem primed_of_instantiate (h : (Calls.instantiate true c step).Primed p Fit scope lo hi) :
    ∃ hi', c.Primed p Fit scope lo hi' := by
  cases step with
  | axis | descent | position | predicate => exact h.input (.head _)
  | expr b nodesOnly =>
    cases nodesOnly with
    | false => exact h.input (.head _)
    | true =>
      obtain ⟨hi', h⟩ := h.input (.head _)
      exact h.input (.head _)

theorem primed_of_chain (h : (Calls.chain true c steps).Primed p Fit scope lo hi) :
    ∃ hi', c.Primed p Fit scope lo hi' := by
  induction steps generalizing c with
  | nil => exact ⟨hi, h⟩
  | cons step steps ih =>
    obtain ⟨hi', h⟩ := ih h
    exact primed_of_instantiate h

/-- A step that walks from nodes only ends as they end. -/
theorem reads_source_of_walks (hstep : step.walks = true) (hc : c.OfNodes)
    (hreads : (machine (n + 1) p).Reads (Calls.instantiate true c step) t out r) :
    ∃ ins, (machine n p).Reads c t ins r := by
  cases step with
  | axis a test => exact (Wander.axis a (test.getD .anyNode)).reads_source hc hreads
  | descent tests => exact (Wander.descent tests).reads_source hc hreads
  | position | predicate | expr => cases hstep

/-- A path of a compiled program that has been started: its cursors are computed ones. -/
structure PathPlan.Prepared (plan : PathPlan) (p : Program) (Fit : FunctionEntry → Prop) (scope : List Binding)
    (lo : Nat) (start : Cursor) : Prop where
  pure : p.Pure
  reliable : p.Reliable
  fit : ∀ f, Fit f → f.KeepsReply
  within : ScopeFor p scope lo
  checked : plan.Checked
  primed : ∃ hi, (plan.upTo start plan.steps).Primed p Fit scope lo hi

namespace PathPlan.Prepared

variable (h : plan.Prepared p Fit scope lo start)

include h

theorem primed_upTo (hpre : pre <+: plan.steps) : ∃ hi, (plan.upTo start pre).Primed p Fit scope lo hi := by
  obtain ⟨post, hpost⟩ := hpre
  obtain ⟨hi, hprimed⟩ := h.primed
  rw [← hpost, upTo_append] at hprimed
  exact primed_of_chain hprimed

theorem primed_through (hpre : pre ++ [.expr b nodesOnly] <+: plan.steps) :
    ∃ hi, (Cursor.through b (plan.upTo start pre)).Primed p Fit scope lo hi := by
  obtain ⟨hi, hprimed⟩ := h.primed_upTo hpre
  rw [upTo_concat] at hprimed
  cases nodesOnly with
  | false => exact ⟨hi, hprimed⟩
  | true => exact hprimed.input (.head _)

theorem primed_start : ∃ hi, start.Primed p Fit scope lo hi := by
  obtain ⟨hi, hprimed⟩ := h.primed_upTo nil_prefix
  change (plan.source start).Primed p Fit scope lo hi at hprimed
  unfold PathPlan.source at hprimed
  split at hprimed
  · split at hprimed
    · exact hprimed.input (.head _)
    · exact ⟨hi, hprimed⟩
  · exact ⟨hi, hprimed⟩

theorem unique (hpre : pre <+: plan.steps) (hreads : (machine n p).Reads (plan.upTo start pre) t out r)
    (hreads' : (machine m p).Reads (plan.upTo start pre) t ins r') : out = ins ∧ r = r' := by
  obtain ⟨hi, hprimed⟩ := h.primed_upTo hpre
  exact hprimed.reads_unique h.pure h.fit h.within hreads hreads'

/-- All steps come to an end or an error. -/
theorem readable (hquiet : plan.Quiet p start t) (hpre : pre <+: plan.steps) :
    ∃ m out r, (machine m p).Reads (plan.upTo start pre) t out r := by
  induction pre using reverseRecOn with
  | nil =>
    obtain ⟨m, ins, hins⟩ := hquiet.begun
    change ∃ m out r, (machine m p).Reads (plan.source start) t out r
    unfold PathPlan.source
    split
    · split
      · obtain ⟨out, r, hout, -⟩ := reads_requireNodes hins
        exact ⟨m + 1, out, r, hout⟩
      · exact ⟨m, ins, _, hins⟩
    · exact ⟨m, ins, _, hins⟩
  | append_singleton pre step ih =>
    have hpre' : pre <+: plan.steps := (prefix_append pre [step]).trans hpre
    cases step with
    | position k =>
      obtain ⟨m, ins, r, hins⟩ := ih hpre'
      obtain ⟨hi, hprimed⟩ := h.primed_upTo hpre'
      obtain ⟨groups, hgroups, rfl⟩ := hprimed.exists_groups hins
      obtain ⟨N, hN⟩ := hprimed.reads_deeper h.pure h.fit h.within hins
      rw [upTo_concat]
      exact ⟨_, _, r, reads_pick_perGroup hgroups (hN (max N ((inGroups groups).length + 2)) (Nat.le_max_left ..))
        (Nat.le_max_right ..)⟩
    | _ => exact hquiet.ends pre _ hpre nofun (ih hpre')

/-- Steps come to an end without an error only if the steps before them do. -/
theorem reads_ok (hsteps : pre ++ post <+: plan.steps)
    (hreads : (machine n p).Reads (plan.upTo start (pre ++ post)) t out (.ok ())) :
    ∃ m ins, (machine m p).Reads (plan.upTo start pre) t ins (.ok ()) := by
  obtain ⟨env, hagrees⟩ := h.within.exists_agrees t.slots
  obtain ⟨hi, hprimed⟩ := h.primed_upTo hsteps
  obtain ⟨hi', hprimed'⟩ := h.primed_upTo ((prefix_append pre post).trans hsteps)
  have hlexical := (hprimed.reads_iff (t := .ofSlots env) h.fit h.within.below hagrees rfl).mp hreads
  obtain ⟨groups, hgives, -⟩ := hprimed.ready.gives ⟨n, .ofSlots env, rfl, hlexical⟩
  rw [upTo_append] at hgives
  obtain ⟨ins, hins, -⟩ := (gives_chain_iff h.pure h.reliable hprimed'.ready).mp hgives
  obtain ⟨m, u, hu, hread⟩ := hins.yields
  exact ⟨m, _, (hprimed'.reads_iff h.fit h.within.below hagrees hu).mpr hread⟩

/-- The first step fails at once on an atomic context item, and so do all steps after it. -/
theorem meetsAtomic (hbegins : plan.Begins M f s start t) (hmeets : plan.MeetsAtomic f)
    (hpre : pre <+: plan.steps) (hne : pre ≠ []) :
    ∃ m err, (machine (m + 2) p).Reads (plan.upTo start pre) t [] (.error err) ∧ err.errorCode = .XPTY0020 := by
  obtain ⟨hstart, ⟨a, ha⟩, first, rest, hsteps, hfirst⟩ := hmeets
  have hatomic : start = .ofItem (.atomic a) := by
    unfold PathPlan.Begins at hbegins
    rw [hstart] at hbegins
    obtain ⟨i, hi, rfl, -⟩ := hbegins
    cases ha.symm.trans hi
    rfl
  have hsource : plan.source start = .ofItem (.atomic a) := by
    unfold PathPlan.source
    rw [hstart, hatomic]
  have hfailed : ∃ err, (machine 3 p).Reads (Calls.instantiate true (.ofItem (.atomic a)) first) t [] (.error err) ∧
      err.errorCode = .XPTY0020 := by
    cases first with
    | axis ax test | descent tests => exact ⟨_, .failed, errorCode_format .XPTY0020 _⟩
    | position | predicate | expr => cases hfirst
  obtain ⟨err, hread, hcode⟩ := hfailed
  obtain ⟨first', pre, rfl⟩ := exists_cons_of_ne_nil hne
  obtain ⟨post, hpost⟩ := hpre
  rw [hsteps] at hpost
  obtain ⟨rfl, -⟩ := cons.inj hpost
  obtain ⟨m, hchain⟩ := reads_chain_of_failed hread pre
  refine ⟨m, err, ?_, hcode⟩
  unfold PathPlan.upTo
  rw [hsource]
  exact hchain

theorem ofNodes_source (hbegins : plan.Begins M f s start t)
    (hcontext : plan.start = .context → ∃ n, f.item? = some (.node n)) : (plan.source start).OfNodes := by
  unfold PathPlan.Begins at hbegins
  unfold PathPlan.source
  cases hstart : plan.start with
  | context =>
    rw [hstart] at hbegins
    obtain ⟨i, hi, rfl, -⟩ := hbegins
    obtain ⟨m, hm⟩ := hcontext hstart
    cases hm.symm.trans hi
    exact .items fun i hi => mem_singleton.mp hi ▸ rfl
  | root =>
    rw [hstart] at hbegins
    obtain ⟨m, -, rfl, -⟩ := hbegins
    exact .items fun i hi => mem_singleton.mp hi ▸ rfl
  | expr b =>
    rw [h.checked.start b hstart]
    exact .nodesOnly

/-- A reading of the source fails only where it is checked for nodes. -/
theorem source_failed (hquiet : plan.Quiet p start t) (hbegins : plan.Begins M f s start t)
    (hreads : (machine m p).Reads (plan.source start) t out (.error err)) : err.errorCode = .XPTY0019 := by
  have hitem : ∀ i, ¬ (machine m p).Reads (.ofItem i) t out (.error err) := by
    intro i hreads
    cases m with
    | zero => cases hreads
    | succ m =>
      cases hreads with
      | item _ rest => cases rest
  unfold PathPlan.source at hreads
  unfold PathPlan.Begins at hbegins
  cases hstart : plan.start with
  | context =>
    rw [hstart] at hreads hbegins
    obtain ⟨i, -, rfl, -⟩ := hbegins
    exact absurd hreads (hitem i)
  | root =>
    rw [hstart] at hreads hbegins
    obtain ⟨i, -, rfl, -⟩ := hbegins
    exact absurd hreads (hitem _)
  | expr b =>
    rw [hstart] at hreads
    rw [h.checked.start b hstart, if_pos rfl] at hreads
    cases m with
    | zero => cases hreads
    | succ m =>
      rcases Calls.Reads.source (fun hw hx => drawn_checksNodes hw hx) rfl hreads with
        ⟨ins, hins⟩ | ⟨_, hcode, heq⟩
      · obtain ⟨hi, hprimed⟩ := h.primed_start
        obtain ⟨m', ins', hins'⟩ := hquiet.begun
        cases (hprimed.reads_unique h.pure h.fit h.within hins hins').2
      · cases heq
        exact hcode

/-- Where steps fail, an atomic value has been met. -/
theorem failed_cases (hquiet : plan.Quiet p start t) (hbegins : plan.Begins M f s start t)
    (hpre : pre <+: plan.steps) (hreads : (machine m p).Reads (plan.upTo start pre) t out (.error err)) :
    err.errorCode = .XPTY0019 ∨ err.errorCode = .XPTY0020 ∧ plan.MeetsAtomic f := by
  -- By induction on the steps. Each of them passes the error of its input on, except for the checks.
  induction pre using reverseRecOn generalizing m out with
  | nil => exact .inl (h.source_failed hquiet hbegins hreads)
  | append_singleton pre step ih =>
    have hpre' : pre <+: plan.steps := (prefix_append pre [step]).trans hpre
    cases m with
    | zero => cases hreads
    | succ m =>
      by_cases hwalks : step.walks = true
      · by_cases hmeets : plan.MeetsAtomic f
        · obtain ⟨m', err', hfailed, hcode⟩ := h.meetsAtomic hbegins hmeets hpre (concat_ne_nil _ _)
          cases (h.unique hpre hreads hfailed).2
          exact .inr ⟨hcode, hmeets⟩
        · obtain ⟨post, hpost⟩ := hpre
          rw [append_assoc] at hpost
          have hnodes : (plan.upTo start pre).OfNodes := by
            refine h.checked.ofNodes hpost.symm (any_eq_true.mpr ⟨step, (.head _), ?_⟩) ?_
            · cases step <;> first | rfl | cases hwalks
            · rintro rfl
              refine h.ofNodes_source hbegins fun hcontext => ?_
              unfold PathPlan.Begins at hbegins
              rw [hcontext] at hbegins
              obtain ⟨i, hi, -⟩ := hbegins
              cases i with
              | node n => exact ⟨n, hi⟩
              | atomic a => exact absurd ⟨hcontext, ⟨a, hi⟩, step, post, hpost.symm, hwalks⟩ hmeets
          rw [upTo_concat] at hreads
          obtain ⟨ins, hins⟩ := reads_source_of_walks hwalks hnodes hreads
          exact ih hpre' hins
      · cases step with
        | axis | descent => exact absurd rfl hwalks
        | position k =>
          rw [upTo_concat] at hreads
          rcases Calls.Reads.source (fun hw hx => drawn_picksFrom hw hx) ⟨_, _, _, rfl⟩ hreads with
            ⟨ins, hins⟩ | ⟨_, hfalse, -⟩
          · exact ih hpre' hins
          · exact hfalse.elim
        | predicate b =>
          obtain ⟨m', ins, hins⟩ := hquiet.predicate pre b hpre _ _ _ hreads
          exact ih hpre' hins
        | expr b nodesOnly =>
          have hthrough : ∀ {m out}, (machine m p).Reads (.through b (plan.upTo start pre)) t out (.error err) →
              err.errorCode = .XPTY0019 ∨ err.errorCode = .XPTY0020 ∧ plan.MeetsAtomic f := by
            intro m out hreads
            obtain ⟨m', ins, hins⟩ := hquiet.expr pre b nodesOnly hpre _ _ _ hreads
            exact ih hpre' hins
          rw [upTo_concat] at hreads
          cases nodesOnly with
          | false => exact hthrough hreads
          | true =>
            rcases Calls.Reads.source (fun hw hx => drawn_checksNodes hw hx) rfl hreads with
              ⟨ins, hins⟩ | ⟨_, hcode, heq⟩
            · exact hthrough hins
            · cases heq
              exact .inl hcode

/-- Steps that come after a failing check fail. -/
theorem failed_of_check (hquiet : plan.Quiet p start t) (hbegins : plan.Begins M f s start t)
    (hsteps : plan.steps = pre ++ post) (hpre : (machine m p).Reads (plan.upTo start pre) t ins (.error err))
    (hmeets : ¬ plan.MeetsAtomic f) (hreads : (machine n p).Reads (plan.upTo start plan.steps) t out r) :
    ∃ err, r = .error err ∧ err.errorCode = .XPTY0019 := by
  cases r with
  | ok _ =>
    rw [hsteps] at hreads
    obtain ⟨m', ins', hins'⟩ := h.reads_ok (hsteps ▸ prefix_refl _) hreads
    cases (h.unique ⟨post, hsteps.symm⟩ hpre hins').2
  | error err =>
    rcases h.failed_cases hquiet hbegins (prefix_refl _) hreads with hcode | ⟨-, h'⟩
    · exact ⟨err, rfl, hcode⟩
    · exact absurd h' hmeets

/-- An atomic value that is delivered too early fails a check. -/
theorem deliversAtomic (hbegins : plan.Begins M f s start t) (hatomic : plan.DeliversAtomic p start t) :
    ¬ plan.MeetsAtomic f ∧ ∃ pre post m ins err, plan.steps = pre ++ post ∧
      (machine m p).Reads (plan.upTo start pre) t ins (.error err) := by
  rcases hatomic with
    ⟨b, m, ins, hstart, hins, hatomic⟩ | ⟨pre, b, nodesOnly, post, m, out, r, hsteps, hpost, hout, hatomic⟩
  · refine ⟨fun hmeets => ?_, [], plan.steps, ?_⟩
    · cases hstart.symm.trans hmeets.1
    · obtain ⟨out, _, hread, hfails⟩ := reads_requireNodes hins
      obtain ⟨err, rfl, -⟩ := hfails hatomic
      refine ⟨m + 1, out, err, rfl, ?_⟩
      change (machine (m + 1) p).Reads (plan.source start) t out (.error err)
      unfold PathPlan.source
      rw [hstart]
      rw [h.checked.start b hstart]
      exact hread
  · have hconcat : plan.steps = (pre ++ [.expr b nodesOnly]) ++ post := by
      rw [hsteps, append_assoc, singleton_append]
    have hpre : pre ++ [.expr b nodesOnly] <+: plan.steps := ⟨post, hconcat.symm⟩
    refine ⟨fun hmeets => ?_, pre ++ [.expr b nodesOnly], post, ?_⟩
    · -- an expression step after a first step that has failed at once delivers nothing
      cases pre with
      | nil =>
        obtain ⟨-, -, first, rest, heq, hwalks⟩ := hmeets
        rw [hsteps] at heq
        cases heq
        cases hwalks
      | cons first pre =>
        have hprefix : first :: pre <+: plan.steps := (prefix_append _ _).trans hpre
        obtain ⟨m', err, hfailed, -⟩ := h.meetsAtomic hbegins hmeets hprefix (cons_ne_nil _ _)
        obtain ⟨hi, hprimed⟩ := h.primed_through hpre
        have hthrough := reads_through_of_failed (e := b) hfailed
        obtain ⟨rfl, -⟩ := hprimed.reads_unique h.pure h.fit h.within hout hthrough
        obtain ⟨x, hx, -⟩ := hatomic
        cases hx
    · obtain ⟨ins, _, hread, hfails⟩ := reads_requireNodes hout
      obtain ⟨err, rfl, -⟩ := hfails hatomic
      refine ⟨m + 1, ins, err, hconcat, ?_⟩
      rw [upTo_concat, h.checked.marked pre b nodesOnly post hsteps, hpost]
      exact hread

theorem drains_iff {unique : Bool}
    (hvalue : value = if plan.sort then .inOrder unique (plan.upTo start plan.steps) else plan.upTo start plan.steps)
    (hprimed : ∃ hi, value.Primed p Fit scope lo hi)
    (hreads : (machine m p).Reads (plan.upTo start plan.steps) t out r) :
    (∃ m t', (machine m p).drain value t = some (res, t')) ↔ res = plan.outcome unique (out.map Prod.fst) r := by
  obtain ⟨hi, hprimed⟩ := hprimed
  unfold PathPlan.outcome
  cases hsort : plan.sort with
  | false =>
    rw [hsort, if_neg Bool.false_ne_true] at hvalue
    subst hvalue
    exact hprimed.drains_iff_of_reads h.pure h.fit h.within hreads
  | true =>
    rw [hsort, if_pos rfl] at hvalue
    subst hvalue
    obtain ⟨hi', hinput⟩ := h.primed
    obtain ⟨N, hN⟩ := hinput.reads_deeper h.pure h.fit h.within hreads
    have hfuel : out.length < (machine (max N (out.length + 1) + 1) p).fuel := by
      change out.length < max N (out.length + 1)
      omega
    obtain ⟨out', r', hread, heq⟩ := reads_inOrder unique (hN (max N (out.length + 1) + 1) (by omega)) hfuel
    rw [if_pos rfl, ← heq]
    exact hprimed.drains_iff_of_reads h.pure h.fit h.within hread

end PathPlan.Prepared

end

/-! ## Compiled paths -/

theorem PathPlan.outcome_failed {plan : PathPlan} (h : plan.outcome unique items r = .error err) :
    r = .error err ∨ err.errorCode = .XPTY0018 ∧ (∃ i ∈ items, i.isNode = true) ∧ ∃ i ∈ items, i.isNode = false := by
  unfold PathPlan.outcome arranged at h
  have hmap : ∀ {f : Unit → List Item}, r.map f = .error err → r = .error err := by
    intro f h
    cases r with
    | ok _ => cases h
    | error _ => exact congrArg Except.error (Except.error.inj h)
  split at h
  · split at h
    · next hmixed =>
      rw [Bool.and_eq_true, any_eq_true, any_eq_true] at hmixed
      obtain ⟨hnode, i, hi, hatomic⟩ := hmixed
      cases h
      exact .inr ⟨errorCode_format .XPTY0018 _, hnode, i, hi, Bool.not_eq_true' _ ▸ hatomic⟩
    · exact .inl (hmap h)
  · exact .inl (hmap h)

theorem arranged_ok (h : arranged unique items r = .ok items') :
    (∀ i ∈ items', i.isNode = true) ∨ (∀ i ∈ items', i.isNode = false) ∧ items' = items := by
  unfold arranged at h
  split at h
  · cases h
  · next hmixed =>
    cases r with
    | error err => cases h
    | ok _ =>
      cases h
      cases hatomic : items.any (!·.isNode) with
      | false =>
        left
        intro i hi
        obtain ⟨n, -, rfl⟩ := mem_map.mp hi
        rfl
      | true =>
        rw [hatomic, Bool.and_true] at hmixed
        right
        refine ⟨fun i hi => ?_, rfl⟩
        exact Bool.eq_false_of_not_eq_true fun hnode => hmixed (any_eq_true.mpr ⟨i, hi, hnode⟩)

theorem Calls.path_failed {m : Calls} {err : Error} (h : m.path focus unique plan s = some (.error err, s'))
    (hstart : ∀ b, plan.start = .expr b → ∃ start t, m.execute b focus s = some (.ok start, t)) :
    focus.item? = none ∧ err = missingContext ∨
      plan.start = .root ∧ (∃ a, focus.item? = some (.atomic a)) ∧ err = .format .XPTY0020 ["root"] := by
  unfold Calls.path Focus.requireItem Focus.root at h
  cases hs : plan.start with
  | context =>
    rw [hs] at h
    cases hitem : focus.item? with
    | none =>
      rw [hitem] at h
      cases h
      exact .inl ⟨rfl, rfl⟩
    | some i =>
      rw [hitem] at h
      cases h
  | root =>
    rw [hs] at h
    cases hitem : focus.item? with
    | none =>
      rw [hitem] at h
      cases h
      exact .inl ⟨rfl, rfl⟩
    | some i =>
      rw [hitem] at h
      cases i with
      | node n => cases h
      | atomic a =>
        cases h
        exact .inr ⟨rfl, ⟨a, rfl⟩, rfl⟩
  | expr b =>
    obtain ⟨start, t, hrun⟩ := hstart b hs
    rw [hs] at h
    cases (Eval.bind_of_ok hrun).symm.trans h

theorem PathPlan.begins_of_path
    (h : M.path f unique plan s = some (.ok value, t)) : ∃ start, plan.Begins M f s start t ∧
      value = if plan.sort then .inOrder unique (plan.upTo start plan.steps) else plan.upTo start plan.steps := by
  obtain ⟨source, rfl, hstart⟩ := Calls.path_cases h
  unfold PathPlan.upTo PathPlan.source PathPlan.Begins
  rcases hstart with ⟨i, hplan, hi, rfl, rfl⟩ | ⟨r, hplan, hr, rfl, rfl⟩ | ⟨b, start, hplan, hexec, rfl⟩
  · rw [hplan]
    exact ⟨_, ⟨i, hi, rfl, rfl⟩, rfl⟩
  · rw [hplan]
    exact ⟨_, ⟨r, hr, rfl, rfl⟩, rfl⟩
  · rw [hplan]
    exact ⟨start, hexec, rfl⟩

theorem execute_path
    (hplan : p.form? e = some (.path plan)) (n : Nat) (f : Focus) : (machineWith keeper (n + 1) p).execute e f =
      (machineWith keeper n p).path f p.static.settings.uniqueNodes plan := by
  change (machineWith keeper n p).perform p e f = _
  unfold Calls.perform
  rw [hplan]

theorem prepared_of_execute (hq : compile c x = .ok q)
    (hf : ∀ f, c.Callable f → f.KeepsReply ∧ f.Grows ∧ f.Honest) (he : q.program.Occurs q.root e)
    (hplan : q.program.form? e = some (.path plan))
    (hrun : (machine (n + 1) q.program).execute e f s = some (.ok value, t)) :
    ∃ start scope lo, plan.Begins (machine n q.program) f s start t ∧
      plan.Prepared q.program c.Callable scope lo start ∧
      (∃ hi, value.Primed q.program c.Callable scope lo hi) ∧
      value = if plan.sort then .inOrder q.program.static.settings.uniqueNodes (plan.upTo start plan.steps)
        else plan.upTo start plan.steps := by
  obtain ⟨hcompiled, hreply, hpure, hreliable⟩ := reliable_of_compile hq hf
  obtain ⟨scope, lo, hi, hle, hscope, hplaced⟩ := hcompiled.seated.occurs he
  have hvalue := execute_primed (hcompiled.tame hreply) (n + 1) (hplaced.within hle) hrun
  rw [machine, execute_path hplan] at hrun
  obtain ⟨start, hbegins, hchain⟩ := PathPlan.begins_of_path hrun
  refine ⟨start, scope, lo, hbegins, ⟨hpure, hreliable, hreply, hscope, checked_of_compile hq hplan, ?_⟩,
    ⟨hi, hvalue⟩, hchain⟩
  split at hchain
  · rw [hchain] at hvalue
    exact hvalue.input (.head _)
  · exact ⟨hi, hchain ▸ hvalue⟩

/-- In a context in which neither the start nor any predicate or expression step of a path raises an error of its
own: executing the path meets an atomic value just if the path is absolute and the context item is atomic, and a
step meets one just if it is the first and the context item is atomic. An atomic value that the start or an
expression step delivers to a later step fails the path, and no walk ever starts from it. What the path is drained
to is nodes only, or atomic values only and these as the last step has delivered them. -/
theorem Query.path_type_errors {c : StaticContext} (hq : compile c x = .ok q)
    (hf : ∀ f, c.Callable f → f.KeepsReply ∧ f.Grows ∧ f.Honest) (he : q.program.Occurs q.root e)
    {plan : PathPlan} (hplan : q.program.form? e = some (.path plan)) {n : Nat} {f : Focus} {s : Store}
    (hstart : ∀ b, plan.start = .expr b → ∃ start t, (machine n q.program).execute b f s = some (.ok start, t)) :
    ((∃ err t, (machine (n + 1) q.program).execute e f s = some (.error err, t) ∧ err.errorCode = .XPTY0020) ↔
      plan.start = .root ∧ ∃ a, f.item? = some (.atomic a)) ∧
    ∀ value t, (machine (n + 1) q.program).execute e f s = some (.ok value, t) →
      ∃ start, plan.Begins (machine n q.program) f s start t ∧ (plan.Quiet q.program start t →
        ((∃ m err t', (machine m q.program).drain value t = some (.error err, t') ∧ err.errorCode = .XPTY0020) ↔
          plan.MeetsAtomic f) ∧
        (plan.DeliversAtomic q.program start t → ∃ err,
          (∀ res, (∃ m t', (machine m q.program).drain value t = some (res, t')) ↔ res = .error err) ∧
          (err.errorCode = .XPTY0019 ∨ err.errorCode = .XPTY0018 ∧ plan.DeliversMixed q.program start t)) ∧
        (∀ pre step post, plan.steps = pre ++ step :: post → step.walks = true →
          (pre = [] → plan.start ≠ .context) → ∀ m u items c' u',
            (machine m q.program).Takes (plan.upTo start pre) u items c' u' → ∀ i ∈ items, i.isNode = true) ∧
        ∀ m items t', (machine m q.program).drain value t = some (.ok items, t') →
          (∀ i ∈ items, i.isNode = true) ∨ (∀ i ∈ items, i.isNode = false) ∧
            ∃ m out, (machine m q.program).Reads (plan.upTo start plan.steps) t out (.ok ()) ∧
              items = out.map Prod.fst) := by
  have hchecked := checked_of_compile hq hplan
  refine ⟨?_, ?_⟩
  · rw [machine, execute_path hplan]
    constructor
    · rintro ⟨err, t, hrun, hcode⟩
      rcases Calls.path_failed hrun hstart with ⟨-, rfl⟩ | ⟨hroot, hatomic, -⟩
      · rw [missingContext, errorCode_format] at hcode
        cases hcode
      · exact ⟨hroot, hatomic⟩
    · rintro ⟨hroot, a, ha⟩
      refine ⟨.format .XPTY0020 ["root"], s, ?_, errorCode_format .XPTY0020 _⟩
      unfold Calls.path Focus.root
      rw [hroot, ha]
      rfl
  · intro value t hrun
    obtain ⟨start, scope, lo, hbegins, hprepared, hvalue, hchain⟩ := prepared_of_execute hq hf he hplan hrun
    refine ⟨start, hbegins, fun hquiet => ?_⟩
    obtain ⟨m, out, r, hreads⟩ := hprepared.readable hquiet (prefix_refl _)
    have hdrains : ∀ res, (∃ m t', (machine m q.program).drain value t = some (res, t')) ↔
        res = plan.outcome q.program.static.settings.uniqueNodes (out.map Prod.fst) r :=
      fun _ => hprepared.drains_iff hchain hvalue hreads
    refine ⟨⟨?_, ?_⟩, ?_, ?_, ?_⟩
    · rintro ⟨m', err, t', hdrain, hcode⟩
      rcases PathPlan.outcome_failed ((hdrains _).mp ⟨m', t', hdrain⟩).symm with rfl | ⟨hcode', -⟩
      · rcases hprepared.failed_cases hquiet hbegins (prefix_refl _) hreads with hcode' | ⟨-, hmeets⟩
        · cases hcode.symm.trans hcode'
        · exact hmeets
      · cases hcode.symm.trans hcode'
    · intro hmeets
      obtain ⟨first, rest, hsteps, -⟩ := hchecked.first
      obtain ⟨m', err, hfailed, hcode⟩ := hprepared.meetsAtomic hbegins hmeets (prefix_refl _)
        (hsteps ▸ cons_ne_nil _ _)
      obtain ⟨rfl, rfl⟩ := hprepared.unique (prefix_refl _) hreads hfailed
      obtain ⟨m', t', hdrain⟩ := (hdrains _).mpr rfl
      have houtcome : plan.outcome q.program.static.settings.uniqueNodes [] (.error err) = .error err := by
        unfold PathPlan.outcome
        cases plan.sort <;> rfl
      exact ⟨m', err, t', houtcome ▸ hdrain, hcode⟩
    · intro hatomic
      obtain ⟨hmeets, pre, post, m', ins, err, hsteps, hcheck⟩ := hprepared.deliversAtomic hbegins hatomic
      obtain ⟨err, rfl, hcode⟩ := hprepared.failed_of_check hquiet hbegins hsteps hcheck hmeets hreads
      cases houtcome : plan.outcome q.program.static.settings.uniqueNodes (out.map Prod.fst) (.error err) with
      | ok items =>
        unfold PathPlan.outcome arranged at houtcome
        split at houtcome
        · split at houtcome <;> cases houtcome
        · cases houtcome
      | error err' =>
        refine ⟨err', fun res => houtcome ▸ hdrains res, ?_⟩
        rcases PathPlan.outcome_failed houtcome with heq | ⟨hcode', ⟨i, hi, hnode⟩, j, hj, hnot⟩
        · cases heq
          exact .inl hcode
        · obtain ⟨y, hy, rfl⟩ := mem_map.mp hi
          obtain ⟨z, hz, rfl⟩ := mem_map.mp hj
          exact .inr ⟨hcode', m, out, _, hreads, ⟨y, hy, hnode⟩, z, hz, hnot⟩
    · intro pre step post hsteps hwalks hcontext m' u items c' u' htakes
      refine (hchecked.ofNodes hsteps ?_ ?_).takes htakes
      · refine any_eq_true.mpr ⟨step, (.head _), ?_⟩
        cases step <;> first | rfl | cases hwalks
      · exact fun hnil => hprepared.ofNodes_source hbegins fun h => absurd h (hcontext hnil)
    · intro m' items t' hdrain
      have houtcome := (hdrains _).mp ⟨m', t', hdrain⟩
      unfold PathPlan.outcome at houtcome
      cases hsort : plan.sort with
      | true =>
        rw [hsort, if_pos rfl] at houtcome
        rcases arranged_ok houtcome.symm with hnodes | ⟨hatomic, rfl⟩
        · exact .inl hnodes
        · cases r with
          | ok _ => exact .inr ⟨hatomic, m, out, hreads, rfl⟩
          | error err =>
            unfold arranged at houtcome
            split at houtcome <;> cases houtcome
      | false =>
        rw [hsort, if_neg Bool.false_ne_true] at houtcome
        obtain ⟨facts, hordered⟩ := hchecked.unsorted hsort
        obtain ⟨first, rest, hsteps, hfirst⟩ := hchecked.first
        have hany : plan.steps.any (!·.isFilter) = true := by
          rw [hsteps, any_cons, hfirst]
          rfl
        cases r with
        | error err => cases houtcome
        | ok _ =>
          cases houtcome
          left
          intro i hi
          obtain ⟨y, hy, rfl⟩ := mem_map.mp hi
          exact (PathPlan.ofNodes_of_isOrdered hordered hany).reads hreads y hy

/-- Whether all goes well where errors would be the path's own, at the depth of the machine. -/
def PathPlan.runsQuietly (plan : PathPlan) (M : Calls) (start : Cursor) (t : Store) : Bool :=
  let succeeds (c : Cursor) : Bool := (M.drain c t).any fun x => x.1.isOk
  succeeds start && plan.steps.inits.all fun pre =>
    (M.drain (plan.upTo start pre) t).isSome &&
      match pre.getLast? with
      | some (.predicate _) => succeeds (plan.upTo start pre)
      | some (.expr b _) => succeeds (.through b (plan.upTo start pre.dropLast))
      | _ => true

theorem PathPlan.Prepared.quiet_of_runsQuietly
    {plan : PathPlan} {start : Cursor} {t : Store} (h : plan.Prepared p Fit scope lo start)
    (hquiet : plan.runsQuietly (machine m p) start t = true) : plan.Quiet p start t := by
  have hreads : ∀ {c : Cursor}, ((machine m p).drain c t).any (fun x => x.1.isOk) = true →
      ∃ out, (machine m p).Reads c t out (.ok ()) := by
    intro c hok
    cases hdrain : (machine m p).drain c t with
    | none => cases hdrain ▸ hok
    | some x =>
      obtain ⟨_ | items, t'⟩ := x
      · cases hdrain ▸ hok
      · obtain ⟨out, hout, -⟩ := Calls.reads_of_drain_ok hdrain
        exact ⟨out, hout⟩
  have hnever : ∀ {c : Cursor}, (∃ hi, c.Primed p Fit scope lo hi) →
      ((machine m p).drain c t).any (fun x => x.1.isOk) = true →
      ∀ {m out err}, ¬ (machine m p).Reads c t out (.error err) := by
    rintro c ⟨hi, hprimed⟩ hok m' out err herr
    obtain ⟨out', hout'⟩ := hreads hok
    cases (hprimed.reads_unique h.pure h.fit h.within herr hout').2
  unfold PathPlan.runsQuietly at hquiet
  rw [Bool.and_eq_true, all_eq_true] at hquiet
  obtain ⟨hstart, hsteps⟩ := hquiet
  have hstep := fun pre (hpre : pre <+: plan.steps) =>
    (Bool.and_eq_true _ _ ▸ hsteps pre ((mem_inits pre plan.steps).mpr hpre))
  refine ⟨⟨m, hreads hstart⟩, ?_, ?_, ?_⟩
  · intro pre step hpre _ _
    obtain ⟨⟨res, t'⟩, hdrain⟩ := Option.isSome_iff_exists.mp (hstep _ hpre).1
    obtain ⟨out, r, hout, -⟩ := Calls.reads_of_drain hdrain
    exact ⟨m, out, r, hout⟩
  · intro pre b hpre m' out err herr
    have hlast := (hstep _ hpre).2
    rw [getLast?_concat] at hlast
    exact absurd herr (hnever (h.primed_upTo hpre) hlast)
  · intro pre b nodesOnly hpre m' out err herr
    have hlast := (hstep _ hpre).2
    rw [getLast?_concat, dropLast_concat] at hlast
    exact absurd herr (hnever (h.primed_through hpre) hlast)

/-- `child::*[position() = last()]/(., 1)/child::*` -/
def childrenOfMixed : Expr :=
  let atLast : Expr :=
    .binary (.compare .general .eq) (.call (.unprefixed "position") []) (.call (.unprefixed "last") [])
  .path .relative [.axis .child .anyName [atLast],
    .expr (.sequence [.contextItem, .literal (.integer 1)]), .axis .child .anyName []]

/-- The step before the last, started at an item, runs without an error and delivers an atomic value. -/
def Query.mixesBeforeLast (q : Query) (focus : Focus) (item : Item) : Bool :=
  match q.program.form? q.root, (machine 40 q.program).execute q.root focus (.ofSlots (.ofSize 0)) with
  | some (.path plan), some (.ok _, t) =>
    match plan.start, plan.steps with
    | .context, [first, second, .expr b _, .axis _ _] =>
      plan.runsQuietly (machine 40 q.program) (.ofItem item) t &&
        ((machine 40 q.program).drain (.through b (plan.upTo (.ofItem item) [first, second])) t).any
          (·.1.toOption.any (·.any (!·.isNode)))
    | _, _ => false
  | _, _ => false

/-- An atomic value after a node: the path fails, whichever way it is drained. -/
theorem Query.path_type_errors_childrenOfMixed :
    ∃ q plan value start t, compile .standard childrenOfMixed = .ok q ∧
      q.program.form? q.root = some (.path plan) ∧
      (machine 40 q.program).execute q.root
        (.fixed (.single (some (.node (.rootOf (.build 0 .attributed)))))) (.ofSlots (.ofSize 0)) =
          some (.ok value, t) ∧
      plan.Quiet q.program start t ∧ plan.DeliversAtomic q.program start t ∧ ∃ err,
        (∀ res, (∃ m t', (machine m q.program).drain value t = some (res, t')) ↔ res = .error err) ∧
        (err.errorCode = .XPTY0019 ∨ err.errorCode = .XPTY0018 ∧ plan.DeliversMixed q.program start t) := by
  let item : Item := .node (.rootOf (.build 0 .attributed))
  let focus : Focus := .fixed (.single (some item))
  have hrun : ((compile .standard childrenOfMixed).toOption.any (·.mixesBeforeLast focus item)) = true :=
    by decide +kernel
  have hf := CoreFunction.standard_callable
  obtain ⟨q, hq, hrun⟩ := exists_ok_of_check hrun
  unfold mixesBeforeLast at hrun
  split at hrun
  · next plan value t hplan hexecute =>
    split at hrun
    · next first second b nodesOnly a test hstart hsteps =>
      rw [Bool.and_eq_true] at hrun
      obtain ⟨hquietly, hdrain⟩ := hrun
      have hitem : ∀ {M : Calls} {start t}, plan.Begins M focus (.ofSlots (.ofSize 0)) start t →
          start = .ofItem item := by
        intro M start t hbegins
        unfold PathPlan.Begins at hbegins
        rw [hstart] at hbegins
        obtain ⟨i, hi, rfl, -⟩ := hbegins
        cases hi
        rfl
      obtain ⟨start, scope, lo, hbegins, hprepared, -⟩ := prepared_of_execute hq hf .refl hplan hexecute
      obtain rfl := hitem hbegins
      have hquiet := hprepared.quiet_of_runsQuietly hquietly
      have hatomic : plan.DeliversAtomic q.program (.ofItem item) t := by
        obtain ⟨⟨res, t'⟩, hresult, hdrain⟩ := (Option.any_eq_true _ _).mp hdrain
        obtain ⟨items, hitems, hdrain⟩ := exists_ok_of_check hdrain
        cases hitems
        obtain ⟨out, hout, rfl⟩ := Calls.reads_of_drain_ok hresult
        obtain ⟨i, hi, hnot⟩ := any_eq_true.mp hdrain
        obtain ⟨y, hy, rfl⟩ := mem_map.mp hi
        exact .inr ⟨[first, second], b, nodesOnly, [.axis a test], 40, out, .ok (), hsteps, rfl, hout,
          y, hy, Bool.not_eq_true' _ ▸ hnot⟩
      obtain ⟨start, hbegins', hdrained⟩ := (path_type_errors hq hf .refl hplan
        fun b hb => by cases hstart.symm.trans hb).2 value t hexecute
      obtain rfl := hitem hbegins'
      exact ⟨q, plan, value, .ofItem item, t, hq, hplan, hexecute, hquiet, hatomic,
        (hdrained hquiet).2.1 hatomic⟩
    · cases hrun
  · cases hrun

end XPath
