import XPath.Proofs.PathComposition

/-!
# Steps that are kept apart

No steps are merged across a predicate, and one that holds of every item leaves the groups before it as they
are. So a path with `descendant-or-self::node()[true()]` shows what merging has changed. The items that come to
the step after the child steps are the same, in another order and in other groups. A step along an axis does not
notice, nor does an expression that does not ask where its item stands; from there on the steps see the same
groups in another order (`agree_unmerged`). An expression that does ask can tell
(`Query.evaluate_unmerged_positions`).
-/

namespace XPath

open List

open Program

variable {p : Program} {σ : Slots} {F : Forest} {e t : ExprId} {snap : Snapshot} {test : Option NodeTest}
  {before after steps : List Step} {A B ins outs : List (List Item)}

/-! ## Items that are delivered in an environment -/

theorem Terms.lexical_ofItems (p : Program) (Ok : Item → Prop) : (Terms.ofItems p Ok true).Lexical :=
  .alone fun _ _ _ _ _ h => h

theorem Closed.of_delivers {Ok : Item → Prop} (h : Closed p Ok) (hp : p.Pure) (hσ : σ.Sound Ok)
    (hsnap : ∀ i, snap.item = some i → Ok i) {g : List Item} (hg : p.Delivers σ e snap g) : ∀ i ∈ g, Ok i := by
  obtain ⟨n, s, hrun⟩ := (delivers_iff_read hp).mp hg
  have hsteady := h.steady (Terms.lexical_ofItems p Ok).kept
  have hst : Abreast (.ofItems p Ok true) (some (σ, σ)) Eq (.ofSlots σ) (.ofSlots σ) :=
    .inEnvironment rfl rfl hσ rfl
  have hread := hsteady.read_sound (rfl : n = n) rfl (Envs.level_some rfl) (rfl : e = e) (fun _ => .fixed hsnap) hst
  obtain ⟨r, t, hr, hsettled⟩ := Related.of_some hread hrun
  obtain ⟨rfl, -⟩ := Prod.mk.inj (Option.some.inj (hr.symm.trans hrun))
  exact hsettled.value.1.2

/-- Every step keeps to the documents of the forest, if functions and variables do. -/
theorem Step.keeps_covers (h : Closed p F.Covers) (hp : p.Pure) (hσ : σ.Sound F.Covers) (step : Step) :
    step.Keeps p σ F.Covers := by
  have hdoc : ∀ {n m : Node}, m.doc = n.doc → F.Covers (.node n) → F.Covers (.node m) :=
    fun hdoc hn => (congrArg F.Has hdoc).mpr hn
  cases step with
  | axis a test => exact keeps_axis hdoc a test
  | position k => exact keeps_position k
  | predicate e => exact keeps_predicate e
  | descent tests =>
    intro ins outs hins hturns
    refine FansOut.keeps hturns (fun n g hg hn m hm => ?_) hins
    refine hdoc (hg.doc_eq (I := fun w => ∀ x ∈ w, x.node.doc = n.doc) ?_ (by simp) m hm) hn
    intro w w' m hw hnext
    obtain ⟨x, hx, hxm⟩ := Option.map_eq_some_iff.mp hnext
    obtain ⟨y, hy, hyx⟩ := Option.bind_eq_some_iff.mp hx
    cases hxm
    have hx := (DescentWalk.next?_doc hyx).trans (hw y hy)
    exact ⟨hx, by simpa using hx⟩
  | expr e nodesOnly =>
    rintro ins _ hins ⟨groups, hgroups, rfl, -⟩
    have hfoci : ∀ snap ∈ ins.flatMap fociOf, ∀ i, snap.item = some i → F.Covers i := by
      intro snap hsnap i hi
      have hmem := mem_map_of_mem (f := Snapshot.item) hsnap
      rw [map_item_fociOf, hi, mem_map] at hmem
      obtain ⟨i', hmem, hi'⟩ := hmem
      exact Option.some.inj hi' ▸ hins i' hmem
    rw [flatten_present]
    generalize ins.flatMap fociOf = snaps at hgroups hfoci
    induction hgroups with
    | nil => exact nofun
    | cons hg _ ih =>
      obtain ⟨hfirst, hrest⟩ := forall_mem_cons.mp hfoci
      exact forall_mem_append.mpr ⟨h.of_delivers hp hσ hfirst hg, ih hrest⟩

/-! ## A predicate that holds of every item -/

/-- `true()` -/
def alwaysTrue : Expr :=
  .call (.unprefixed "true") []

/-- `true()` is the function that it should be. -/
def StaticContext.HasTrue (c : StaticContext) : Prop :=
  ∃ f, c.functions.resolve (.unqualified "true") 0 c.settings.defaultFunctionNamespace = .ok f ∧
    ∀ call, f.body call = CoreFunction.reply (.boolean true)

section

variable {c : StaticContext} {q : Program}

theorem form_alwaysTrue (hfilled : FilledIn c p q) (hc : c.HasTrue) (ht : Spells p.At c alwaysTrue t) :
    ∃ name f, q.form? t = some (.call name (some f)) ∧ q.children t = [] ∧
      ∀ call, f.body call = CoreFunction.reply (.boolean true) := by
  obtain ⟨f, hf, hbody⟩ := hc
  rw [alwaysTrue, Spells] at ht
  obtain ⟨name, ids, hname, hids, hform, hchildren⟩ := ht
  rw [SpellsAll] at hids
  obtain rfl : ExpandedName.unqualified "true" = name := Except.ok.inj hname
  rw [← hfilled.children, hids] at hchildren
  obtain ⟨new, hnew, f', hf', rfl⟩ := hfilled.form hform
  rw [hchildren, hfilled.static] at hf'
  obtain rfl : f = f' := Except.ok.inj (hf.symm.trans hf')
  exact ⟨_, f, hnew, hchildren, hbody⟩

theorem decides_alwaysTrue (hfilled : FilledIn c p q) (hc : c.HasTrue) (ht : Spells p.At c alwaysTrue t) :
    q.Decides σ t snap (.ok (.always true)) := by
  obtain ⟨name, f, hform, hchildren, hbody⟩ := form_alwaysTrue hfilled hc ht
  have hexecute : (lexicalMachine 5 q).execute t (.fixed snap) (.ofSlots σ) =
      some (.ok (.ofAtomic (.boolean true)), .ofSlots σ) := by
    change (lexicalMachine 4 q).perform q t (.fixed snap) (.ofSlots σ) = _
    unfold Calls.perform
    rw [hform, hchildren]
    change (lexicalMachine 4 q).runScript (.fixed snap) (f.body _) _ (.ofSlots σ) = _
    rw [hbody]
    rfl
  refine ⟨5, .ofSlots σ, ?_⟩
  unfold Calls.select
  rw [Eval.bind_of_ok hexecute]
  rfl

end

/-- A predicate that accepts every item leaves groups as they are. -/
theorem turns_of_accepts_all (hp : p.Pure) {sel : Selection} (hdecides : ∀ snap, p.Decides σ t snap (.ok sel))
    (hsel : ∀ k, sel.accepts k = true) : (Step.predicate t).Turns p σ ins outs ↔ outs = present ins := by
  have hleaves : ∀ {size g k left}, LeavesOf (p.Decides σ t) size k g left (.ok ()) ↔ left = g := by
    intro size g k left
    constructor
    · intro h
      generalize hr : Except.ok () = r at h
      induction h with
      | done => rfl
      | failed => cases hr
      | kept _ _ _ ih => rw [ih hr]
      | dropped h accepts =>
        cases h.unique hp (hdecides _)
        rw [hsel] at accepts
        cases accepts
    · rintro rfl
      induction left generalizing k with
      | nil => exact .done
      | cons i g ih => exact .kept (hdecides _) (hsel k) ih
  have hlefts : ∀ lefts, List.Forall₂ (fun g left => LeavesOf (p.Decides σ t) (.ok g.length) 1 g left (.ok ()))
      ins lefts ↔ lefts = ins := by
    intro lefts
    refine (forall₂_iff_eq_map (f := id) fun g _ left => hleaves).trans ?_
    rw [map_id]
  unfold Step.Turns
  simp only [hlefts, exists_eq_left]

/-! ## Chains with the step and without -/

/-- A step before one that navigates has to deliver nodes. -/
def Step.passingNodes : Step → Step
  | .expr e _ => .expr e true
  | s => s

theorem markNodesOnly_append {s : Step} (hfilter : s.isFilter = false) (hexpr : s.isExpr = false) :
    markNodesOnly (before ++ s :: after) = before.map Step.passingNodes ++ s :: markNodesOnly after := by
  induction before with
  | nil =>
    cases s with
    | expr => cases hexpr
    | _ => rfl
  | cons first before ih =>
    cases first with
    | expr e nodesOnly =>
      have hany : (before ++ s :: after).any (!·.isFilter) = true := by simp [hfilter]
      rw [cons_append, markNodesOnly, hany, ih]
      rfl
    | _ => exact congrArg _ ih

theorem markNodesOnly_children (run : List (Option NodeTest)) :
    markNodesOnly (run.map (.axis .child) ++ after) = run.map (.axis .child) ++ markNodesOnly after := by
  induction run with
  | nil => rfl
  | cons test run ih => exact congrArg _ ih

theorem startsWithFilter_append {s : Step} (hs : s.isFilter = false) :
    startsWithFilter (before ++ s :: after) = startsWithFilter before := by
  cases before with
  | nil => exact hs
  | cons => rfl

/-- A run ends before a step to every descendant. -/
theorem childRun_append : childRun (before ++ .axis .descendantOrSelf test :: after) = childRun before := by
  fun_induction childRun before with
  | case1 test rest h =>
    rw [cons_append, childRun, startsWithFilter_append rfl, if_pos h]
  | case2 test rest h ih =>
    rw [cons_append, childRun, startsWithFilter_append rfl, if_neg h, ih]
  | case3 before h =>
    cases before with
    | nil => rfl
    | cons step rest =>
      cases step with
      | axis a test =>
        cases a with
        | child => exact absurd rfl (h test rest)
        | _ => rfl
      | _ => rfl

theorem length_childRun_le (steps : List Step) : (childRun steps).length ≤ steps.length := by
  have happend := congrArg length (childRun_append_drop steps).1
  rw [length_append, length_map] at happend
  omega

theorem mergeRuns_append : ∀ {k : Nat}, k ≤ before.length →
    mergeRuns k (before ++ .axis .descendantOrSelf test :: after) =
      mergeRuns k before ++ mergeRuns 0 (.axis .descendantOrSelf test :: after) := by
  induction before with
  | nil =>
    intro k hk
    obtain rfl := Nat.le_zero.mp hk
    cases after <;> rfl
  | cons s before ih =>
    intro k hk
    cases k with
    | succ k => exact ih (Nat.le_of_succ_le_succ hk)
    | zero =>
      have hrun := length_childRun_le before
      rw [cons_append, mergeRuns, mergeRuns, startsWithFilter_append rfl, childRun_append]
      split
      · split
        · rw [ih (Nat.zero_le _), cons_append]
        · next h => rw [ih (by rw [h] at hrun; exact hrun), cons_append]
        · rw [ih hrun, cons_append]
      · rw [ih (Nat.zero_le _), cons_append]

/-- No run is merged that follows no step to every descendant. -/
theorem mergeRuns_childRun (steps : List Step) : mergeRuns 0 steps =
      (childRun steps).map (.axis .child) ++ mergeRuns 0 (steps.drop (childRun steps).length) := by
  fun_induction childRun steps with
  | case1 => rfl
  | case2 test rest h ih => exact congrArg _ ih
  | case3 => rfl

/-- No run is merged with a step before a predicate. -/
theorem mergeRuns_predicate (test : Option NodeTest) :
    mergeRuns 0 (.axis .descendantOrSelf test :: .predicate t :: after) =
      .axis .descendantOrSelf test :: .predicate t :: mergeRuns 0 after := by
  rw [mergeRuns]
  simp [startsWithFilter, Step.isFilter, mergeRuns, Step.reachesAll]

theorem Merges.refl {P : Step → Prop} : ∀ steps : List Step, Merges P steps steps
  | [] => .nil
  | s :: steps => .cons s (refl steps)

theorem Agree.prepend {steps' : List Step} (h : ∀ mid, TurnAll p σ before ins mid → Agree p σ steps steps' mid mid) :
    Agree p σ (before ++ steps) (before ++ steps') ins ins where
  forth := by
    intro outs hturn
    obtain ⟨mid, hmid, hrest⟩ := turnAll_append_iff.mp hturn
    obtain ⟨outs', hrest', hperm⟩ := (h mid hmid).forth hrest
    exact ⟨outs', turnAll_append_iff.mpr ⟨mid, hmid, hrest'⟩, hperm⟩
  back := by
    intro outs' hturn
    obtain ⟨mid, hmid, hrest'⟩ := turnAll_append_iff.mp hturn
    obtain ⟨outs, hrest, hperm⟩ := (h mid hmid).back hrest'
    exact ⟨outs, turnAll_append_iff.mpr ⟨mid, hmid, hrest⟩, hperm⟩

/-- A predicate that holds of every item may be left out after a step along an axis. -/
theorem turnAll_accepts_all_iff (hp : p.Pure) {sel : Selection}
    (hdecides : ∀ snap, p.Decides σ t snap (.ok sel)) (hsel : ∀ k, sel.accepts k = true) {a : Axis} :
    TurnAll p σ (.axis a test :: .predicate t :: after) ins outs ↔ TurnAll p σ (.axis a test :: after) ins outs := by
  have hsame : ∀ {mid}, (Step.axis a test).Turns p σ ins mid → present mid = mid := by
    rintro _ ⟨nodes, groups, -, -, rfl⟩
    exact filter_eq_self.mpr fun g hg => (mem_filter.mp hg).2
  constructor
  · rintro (_ | ⟨hfirst, _ | ⟨hsecond, hrest⟩⟩)
    rw [turns_of_accepts_all hp hdecides hsel, hsame hfirst] at hsecond
    exact .cons hfirst (hsecond ▸ hrest)
  · rintro (_ | ⟨hfirst, hrest⟩)
    refine .cons hfirst (.cons ?_ hrest)
    rw [turns_of_accepts_all hp hdecides hsel, hsame hfirst]

/-- The first step of a chain takes its items one by one after merging and marking if it does so before. -/
theorem scatters_head (h : ∀ s ∈ steps.head?, s.Scatters p σ) :
    ∀ s ∈ (markNodesOnly (mergeRuns 0 steps)).head?, s.Scatters p σ := by
  have hmark : ∀ {s : Step} {rest}, s.Scatters p σ → ∀ s' ∈ (markNodesOnly (s :: rest)).head?, s'.Scatters p σ := by
    intro s rest hs s' hs'
    cases s with
    | expr e nodesOnly | _ =>
      cases hs'
      exact hs
  cases steps with
  | nil => exact nofun
  | cons s rest =>
    rcases mergeRuns_cons s rest with heq | ⟨-, -, heq⟩
    · rw [heq]
      exact hmark (h s rfl)
    · rw [heq]
      refine hmark ?_
      unfold mergedStep
      split <;> trivial

theorem startsWithFilter_of_head {s : Step} (h : steps.head? = some s) : startsWithFilter steps = s.isFilter := by
  cases steps with
  | nil => cases h
  | cons =>
    cases h
    rfl

/-- Whether the child steps after a step to every descendant are merged with it or kept apart by a predicate
that holds of every item, the chain makes the same of its groups, in some order: if the step after them takes
its items one by one. -/
theorem agree_unmerged (hp : p.Pure) {sel : Selection} (hdecides : ∀ snap, p.Decides σ t snap (.ok sel))
    (hsel : ∀ k, sel.accepts k = true) (hkeeps : ∀ step : Step, step.Keeps p σ F.Covers)
    (htest : test.all NodeTest.isAnyNode = true)
    (hnext : childRun after ≠ [] → ∀ s ∈ (after.drop (childRun after).length).head?, s.Scatters p σ)
    (hins : ∀ i ∈ ins.flatten, F.Covers i) :
    Agree p σ (markNodesOnly (mergeRuns 0 (before ++ .axis .descendantOrSelf test :: .predicate t :: after)))
      (markNodesOnly (mergeRuns 0 (before ++ .axis .descendantOrSelf test :: after))) ins ins := by
  have hunmerged : markNodesOnly (mergeRuns 0 (before ++ .axis .descendantOrSelf test :: .predicate t :: after)) =
      (mergeRuns 0 before).map Step.passingNodes ++ .axis .descendantOrSelf test :: .predicate t ::
        markNodesOnly (mergeRuns 0 after) := by
    rw [mergeRuns_append (Nat.zero_le _), mergeRuns_predicate, markNodesOnly_append rfl rfl]
    rfl
  obtain ⟨merged, hmerged, hmerges⟩ : ∃ merged,
      markNodesOnly (mergeRuns 0 (before ++ .axis .descendantOrSelf test :: after)) =
        (mergeRuns 0 before).map Step.passingNodes ++ merged ∧
      Merges (Step.Scatters p σ) (.axis .descendantOrSelf test :: markNodesOnly (mergeRuns 0 after)) merged := by
    rw [mergeRuns_append (Nat.zero_le _)]
    rcases mergeRuns_cons (.axis .descendantOrSelf test) after with heq | ⟨-, hrun, heq⟩
    · rw [heq, markNodesOnly_append rfl rfl]
      exact ⟨_, rfl, .refl _⟩
    · have hstep : ∀ run, (mergedStep run).isFilter = false ∧ (mergedStep run).isExpr = false := by
        intro run
        unfold mergedStep
        split <;> exact ⟨rfl, rfl⟩
      rw [heq, markNodesOnly_append (hstep _).1 (hstep _).2, mergeRuns_childRun after, markNodesOnly_children]
      exact ⟨_, rfl, .run htest hrun (scatters_head (hnext hrun)) (.refl _)⟩
  rw [hunmerged, hmerged]
  refine .prepend fun mid hmid => ?_
  have hagree := hmerges.agree hp (fun s _ => hkeeps s) (hmid.keeps (fun s _ => hkeeps s) hins) (.inl (.refl mid))
  constructor
  · exact fun h => hagree.forth ((turnAll_accepts_all_iff hp hdecides hsel).mp h)
  · intro outs' h
    obtain ⟨outs, hturn, hperm⟩ := hagree.back h
    exact ⟨outs, (turnAll_accepts_all_iff hp hdecides hsel).mpr hturn, hperm⟩

/-! ## Order and starts -/

theorem Step.any_isExpr_mergeRuns (steps : List Step) :
    (markNodesOnly (mergeRuns 0 steps)).any Step.isExpr = steps.any Step.isExpr := by
  have hmark : ∀ steps : List Step, (markNodesOnly steps).any isExpr = steps.any isExpr := by
    intro steps
    induction steps with
    | nil => rfl
    | cons s steps ih => cases s <;> exact congrArg _ ih
  have hmerges : Merges (fun _ => True) steps (mergeRuns 0 steps) :=
    merges_mergeRuns _ .refl fun _ _ _ _ _ _ _ _ => trivial
  rw [hmark]
  generalize mergeRuns 0 steps = merged at hmerges
  induction hmerges with
  | nil => rfl
  | cons s _ ih => rw [any_cons, any_cons, ih]
  | @run test run rest rest' all some next tail ih =>
    have hmerged : (mergedStep run).isExpr = false := by
      unfold mergedStep
      split <;> rfl
    have hrun : (run.map (Step.axis .child)).any isExpr = false := by simp [isExpr]
    rw [any_cons, any_cons, any_append, hmerged, hrun, ih]
    rfl

/-- Nothing is known of the order after an expression. -/
theorem isOrdered_of_isExpr (hexpr : steps.any Step.isExpr = true) (facts : OrderFacts) :
    isOrdered steps facts = false := by
  have hnothing : ∀ steps : List Step, steps.foldl OrderFacts.after .nothing = .nothing := by
    intro steps
    induction steps with
    | nil => rfl
    | cons s steps ih =>
      have hs : OrderFacts.nothing.after s = .nothing := by
        cases s with
        | axis a => cases a <;> rfl
        | _ => rfl
      rw [foldl_cons, hs, ih]
  unfold isOrdered
  induction steps generalizing facts with
  | nil => cases hexpr
  | cons s steps ih =>
    cases s with
    | expr e nodesOnly =>
      rw [foldl_cons]
      exact congrArg OrderFacts.ordered (hnothing steps)
    | _ => exact ih hexpr _

theorem Counterparts.symm {At At' : ExprId → Form → List ExprId → Prop} {c : StaticContext} {e e' : ExprId}
    (h : Counterparts At At' c e e') : Counterparts At' At c e' e := by
  obtain ⟨x, hx, hx'⟩ := h
  exact ⟨x, hx', hx⟩

namespace Companions

variable {c : StaticContext} {p p' q q' : Program} {e e' : ExprId} {τ : Slots}

section

variable (h : Companions c p p' q q' σ τ)

include h

theorem symm : Companions c p' p q' q τ σ :=
  ⟨h.right, h.left, h.values.symm, h.pure', h.pure⟩

theorem offers (he : Counterparts p.At p'.At c e e') {groups : List (List Item)}
    (hoffers : q.Offers σ e snap groups) : q'.Offers τ e' snap groups := by
  obtain ⟨n, s, d, hrun, hgroups, m, s', hs', hreads⟩ := hoffers
  have hexec := (h.steady.steady (rfl : n = n)).execute (recorded_noRecord _ _) rfl
    (Envs.level_some h.values) he (foci_twins snap) _ _ (abreast_twins σ τ)
  obtain ⟨x, t, hrun', hsettled⟩ := Related.of_some hexec hrun
  cases hsettled with
  | @ok _ _ d' _ hmade =>
    have hst : Abreast (.twins q q' (Counterparts p.At p'.At c)) (some (σ, τ)) Eq s' { s' with slots := τ } :=
      .inEnvironment hs' rfl (fun _ _ _ _ _ => trivial) rfl
    exact ⟨n, t, d', hrun', hgroups, m, _, rfl,
      hreads.keepsUp ((h.steady.steady (rfl : m = m)).next (recorded_noRecord _ _) rfl) ⟨hmade.1, hst⟩⟩

theorem offers_iff (he : Counterparts p.At p'.At c e e') {groups : List (List Item)} :
    q.Offers σ e snap groups ↔ q'.Offers τ e' snap groups :=
  ⟨h.offers he, h.symm.offers he.symm⟩

theorem startsFrom_iff {plan plan' : PathPlan} (hstart : plan.start.Alike (Counterparts p.At p'.At c) plan'.start)
    (hnodes : plan.startNodesOnly = plan'.startNodesOnly) :
    plan.StartsFrom q σ snap ins ↔ plan'.StartsFrom q' τ snap ins := by
  unfold PathPlan.StartsFrom
  rw [hnodes]
  generalize plan.start = s at hstart
  generalize plan'.start = s' at hstart
  cases hstart with
  | context | root => rfl
  | expr he => exact and_congr_left fun _ => h.offers_iff he

end

end Companions

/-! ## Results in another order -/

/-- The same items, and if they are nodes in the same order. -/
def SameSorted (items items' : List Item) : Prop :=
  items.Perm items' ∧ ((∀ i ∈ items, i.isNode = true) → items = items')

theorem SameSorted.symm {items items' : List Item} (h : SameSorted items items') : SameSorted items' items := by
  obtain ⟨hperm, hnodes⟩ := h
  exact ⟨hperm.symm, fun h => (hnodes fun i hi => h i (hperm.mem_iff.mp hi)).symm⟩

theorem Forest.arranged_perm {unique : Bool} {items items' found : List Item} (hperm : items.Perm items')
    (hitems : ∀ i ∈ items, F.Covers i) (h : arranged unique items (.ok ()) = .ok found) :
    ∃ found', arranged unique items' (.ok ()) = .ok found' ∧ SameSorted found found' := by
  have hany : ∀ P : Item → Bool, items.any P = items'.any P := fun P => hperm.any_eq
  unfold arranged at h ⊢
  rw [← hany, ← hany]
  split at h
  · cases h
  · next hmixed =>
    rw [if_neg hmixed]
    refine ⟨_, rfl, ?_⟩
    cases h
    split
    · next hatomic =>
      refine ⟨hperm, fun hnodes => ?_⟩
      obtain ⟨i, hi, hatomic⟩ := any_eq_true.mp hatomic
      rw [hnodes i hi] at hatomic
      cases hatomic
    · next hatomic =>
      have hnode : ∀ i ∈ items, i.isNode = true := by simpa using hatomic
      obtain ⟨nodes, rfl⟩ := exists_nodes_of_isNode hnode
      obtain ⟨nodes', rfl, hnodes⟩ := exists_nodes_of_perm hperm rfl
      rw [filterMap_node?_map, filterMap_node?_map, F.inDocumentOrder_eq_of_perm hnodes
        (fun n hn => hitems _ (mem_map_of_mem hn)) unique]
      exact ⟨.refl _, fun _ => rfl⟩

/-! ## Written paths -/

section

variable {At : ExprId → Form → List ExprId → Prop} {c : StaticContext} {written : List PathStep}

def PathStep.isBareChild : PathStep → Bool
  | .axis .child _ [] => true
  | _ => false

/-- An expression after a run of child steps. -/
theorem SpellsSteps.exists_expr {literal : ExprId → Option Nat} {nodesOnly : Bool} : ∀ {steps : List Step},
    SpellsSteps At c written steps →
      ((fixPositions literal steps).drop (childRun (fixPositions literal steps)).length).head? =
        some (.expr e nodesOnly) →
      ∃ children x rest, written = children ++ .expr x :: rest ∧ (∀ s ∈ children, s.isBareChild = true) ∧
        (childRun (fixPositions literal steps) ≠ [] → children ≠ []) ∧ Spells At c x e := by
  induction written with
  | nil =>
    intro steps h hhead
    rw [SpellsSteps] at h
    subst h
    cases hhead
  | cons step written ih =>
    intro steps h hhead
    cases step with
    | expr x =>
      rw [SpellsSteps] at h
      obtain ⟨i, tail, hx, -, rfl⟩ := h
      cases hhead
      exact ⟨[], x, written, rfl, by rintro _ ⟨⟩, fun h => absurd rfl h, hx⟩
    | axis a test predicates =>
      rw [SpellsSteps] at h
      obtain ⟨t, ids, tail, -, hids, htail, rfl⟩ := h
      have hcons : fixPositions literal (.axis a (some t) :: (ids.map .predicate ++ tail)) =
          .axis a (some t) :: fixPositions literal (ids.map .predicate ++ tail) := rfl
      rw [hcons] at hhead ⊢
      cases a with
      | child =>
        rw [childRun] at hhead ⊢
        split at hhead
        · cases hhead
        · next hfilter =>
          obtain rfl : ids = [] := by
            cases ids with
            | nil => rfl
            | cons i ids =>
              refine absurd ?_ hfilter
              change ((literal i).elim (Step.predicate i) .position).isFilter = true
              cases literal i <;> rfl
          obtain rfl : predicates = [] := length_eq_zero_iff.mp hids.length_eq.symm
          obtain ⟨children, x, rest, rfl, hchildren, -, hx⟩ := ih htail hhead
          exact ⟨_ :: children, x, rest, rfl, forall_mem_cons.mpr ⟨rfl, hchildren⟩,
            fun _ => cons_ne_nil _ _, hx⟩
      | _ => cases hhead

theorem SpellsSteps.any_isExpr (hexpr : written.any (!·.isAxis) = true) :
    ∀ {steps : List Step}, SpellsSteps At c written steps → steps.any Step.isExpr = true := by
  induction written with
  | nil => cases hexpr
  | cons step written ih =>
    intro steps h
    cases step with
    | expr x =>
      rw [SpellsSteps] at h
      obtain ⟨i, tail, -, -, rfl⟩ := h
      rfl
    | axis a test predicates =>
      rw [SpellsSteps] at h
      obtain ⟨t, ids, tail, -, -, htail, rfl⟩ := h
      rw [any_cons, any_append, ih hexpr htail, Bool.or_true, Bool.or_true]

end

theorem any_isExpr_fixPositions (literal : ExprId → Option Nat) (steps : List Step) :
    (fixPositions literal steps).any Step.isExpr = steps.any Step.isExpr := by
  induction steps with
  | nil => rfl
  | cons s steps ih =>
    cases s with
    | predicate e =>
      have hs : ((literal e).elim (Step.predicate e) .position).isExpr = false := by
        cases literal e <;> rfl
      change (_ :: fixPositions literal steps).any _ = _
      rw [any_cons, ih, hs]
      rfl
    | _ => exact congrArg _ ih

/-- `descendant-or-self::node()` with these predicates -/
def everywhere (predicates : List Expr) : PathStep :=
  .axis .descendantOrSelf (.kind .anyNode) predicates

/-- A path with `descendant-or-self::node()` between the steps before it and the steps after it. At the beginning
`//` stands for it, too. -/
def Expr.Spans (x : Expr) (start : Start) (before after : List PathStep) : Prop :=
  x = .path start (before ++ everywhere [] :: after) ∨ x = .path .rootDescendant after ∧ start = .root ∧ before = []

section

variable {c : StaticContext} {q : Program} {start : Start} {before after : List PathStep}

/-- The plan of a path around `descendant-or-self::node()`. -/
theorem FilledIn.plan_everywhere (h : FilledIn c p q) {predicates : List Expr}
    (hx : Spells p.At c (.path start (before ++ everywhere predicates :: after)) e) :
    ∃ s first steps ids tail, SpellsStart p.At c start s first ∧ SpellsSteps p.At c before steps ∧
      SpellsAll p.At c predicates ids ∧ SpellsSteps p.At c after tail ∧
      q.form? e = some (.path (q.planPath ⟨s, (first ++ steps) ++
        .axis .descendantOrSelf (some .anyNode) :: (ids.map .predicate ++ tail), false, true, false⟩)) := by
  obtain ⟨s, first, whole, hstart, hwhole, hform⟩ := h.path_form (by simp) hx
  obtain ⟨steps, rest, hsteps, hrest, rfl⟩ := hwhole.exists_append
  rw [everywhere, SpellsSteps] at hrest
  obtain ⟨t, ids, tail, ht, hids, htail, rfl⟩ := hrest
  obtain rfl : NodeTest.anyNode = t := Except.ok.inj ht
  rw [← append_assoc] at hform
  exact ⟨s, first, steps, ids, tail, hstart, hsteps, hids, htail, hform⟩

theorem FilledIn.plan_of_spans (h : FilledIn c p q) {x : Expr} (hspans : x.Spans start before after)
    (hafter : after ≠ []) (hx : Spells p.At c x e) :
    ∃ s first steps tail, SpellsStart p.At c start s first ∧ SpellsSteps p.At c before steps ∧
      SpellsSteps p.At c after tail ∧ q.form? e = some (.path (q.planPath ⟨s, (first ++ steps) ++
        .axis .descendantOrSelf (some .anyNode) :: tail, false, true, false⟩)) := by
  rcases hspans with rfl | ⟨rfl, rfl, rfl⟩
  · obtain ⟨s, first, steps, ids, tail, hstart, hsteps, hids, htail, hform⟩ := h.plan_everywhere hx
    rw [SpellsAll] at hids
    subst hids
    exact ⟨s, first, steps, tail, hstart, hsteps, htail, hform⟩
  · obtain ⟨s, first, tail, hstart, htail, hform⟩ := h.path_form hafter hx
    rw [SpellsStart] at hstart
    obtain ⟨rfl, rfl⟩ := hstart
    exact ⟨.root, [], [], tail, by rw [SpellsStart]; exact ⟨rfl, rfl⟩, by rw [SpellsSteps], htail, hform⟩

end

def PathStart.isExpr : PathStart → Bool
  | .expr _ => true
  | _ => false

theorem PathStart.Alike.isExpr_eq {R : ExprId → ExprId → Prop} {s s' : PathStart} (h : s.Alike R s') :
    s.isExpr = s'.isExpr := by
  cases h <;> rfl

/-- A path with an expression among its steps sorts its result, and it starts from nodes. -/
theorem Program.planPath_of_isExpr (q : Program) (plan : PathPlan) (hexpr : plan.steps.any Step.isExpr = true) :
    (q.planPath plan).sort = true ∧ (q.planPath plan).startNodesOnly = plan.start.isExpr := by
  have hany : (markNodesOnly (fuse q.literalPosition plan.steps)).any Step.isExpr = true := by
    rw [fuse, Step.any_isExpr_mergeRuns, any_isExpr_fixPositions, hexpr]
  have hnavigates : (markNodesOnly (fuse q.literalPosition plan.steps)).any (!·.isFilter) = true := by
    obtain ⟨s, hs, hexpr⟩ := any_eq_true.mp hany
    refine any_eq_true.mpr ⟨s, hs, ?_⟩
    cases s with
    | expr => rfl
    | _ => cases hexpr
  unfold planPath
  dsimp only
  rw [isOrdered_of_isExpr hany, hnavigates, Bool.and_true]
  exact ⟨rfl, by cases plan.start <;> rfl⟩

theorem PathPlan.outcome_of_sort {plan : PathPlan} (h : plan.sort = true) : plan.outcome = arranged := by
  funext unique items r
  rw [outcome, if_pos h]

/-- In the query, the value of the expression depends on the item of its focus and not on where it stands. -/
def Query.Unplaced (q : Query) (c : StaticContext) (x : Expr) : Prop :=
  ∀ p e σ, FilledIn c p q.program → Spells p.At c x e → q.program.Unplaced σ e

section

variable {c : StaticContext} {q q' : Query} {x : Expr} {start : Start} {before after : List PathStep}

/-- The chain of a path with `true()` after `descendant-or-self::node()` and the chain of the path without. -/
theorem agree_everywhere {p q : Program} (hfilled : FilledIn c p q) (hpure : q.Pure)
    (hkept : ∀ step : Step, step.Keeps q σ F.Covers) (hc : c.HasTrue) (ht : Spells p.At c alwaysTrue t)
    {front tail : List Step} (htail : SpellsSteps p.At c after tail)
    (hunplaced : ∀ children y rest, after = children ++ .expr y :: rest → children ≠ [] →
      (∀ s ∈ children, s.isBareChild = true) → ∀ e, Spells p.At c y e → q.Unplaced σ e)
    (hins : ∀ i ∈ ins.flatten, F.Covers i) : Agree q σ
      (markNodesOnly (fuse q.literalPosition (front ++ .axis .descendantOrSelf
        (some .anyNode) :: .predicate t :: tail)))
      (markNodesOnly (fuse q.literalPosition (front ++ .axis .descendantOrSelf (some .anyNode) :: tail))) ins ins := by
  obtain ⟨name, f, hcall, -, -⟩ := form_alwaysTrue hfilled hc ht
  have hnone : q.literalPosition t = none := literalPosition_eq_none (by simp [hcall])
  have hpredicate : fixPositions q.literalPosition
      (front ++ .axis .descendantOrSelf (some .anyNode) :: .predicate t :: tail) =
      fixPositions q.literalPosition front ++ .axis .descendantOrSelf (some .anyNode) :: .predicate t ::
        fixPositions q.literalPosition tail := by
    rw [fixPositions_append]
    change _ ++ _ :: (q.literalPosition t).elim _ _ :: _ = _
    rw [hnone]
    rfl
  unfold fuse
  rw [hpredicate, fixPositions_append]
  refine agree_unmerged hpure (fun _ => decides_alwaysTrue hfilled hc ht) (fun _ => rfl) hkept rfl ?_ hins
  intro hrun s hs
  have hfilter := (childRun_append_drop (fixPositions q.literalPosition tail)).2 hrun
  cases s with
  | axis | descent => trivial
  | position | predicate =>
    rw [startsWithFilter_of_head hs] at hfilter
    cases hfilter
  | expr e nodesOnly =>
    obtain ⟨children, y, rest, hafter, hchildren, hne, hy⟩ := htail.exists_expr hs
    intro snap snap' g
    exact hunplaced children y rest hafter (hne hrun) hchildren e hy

variable (hf : ∀ f, c.Callable f → f.KeepsReply ∧ f.Grows ∧ f.Honest)
    (hcalls : ∀ f, c.Callable f → ∀ call, (f.body call).Sound F.Covers) (hc : c.HasTrue)
    (hspans : x.Spans start before after) (hexpr : after.any (!·.isAxis) = true)
    (hq : compile c x = .ok q)
    (hq' : compile c (.path start (before ++ everywhere [alwaysTrue] :: after)) = .ok q')
    (hunplaced : ∀ children y rest, after = children ++ .expr y :: rest → children ≠ [] →
      (∀ s ∈ children, s.isBareChild = true) → q'.Unplaced c y)
    (hexternal : ∀ i, c.settings.externals.length ≤ i → σ.get? i = none) (hσ : σ.Sound F.Covers)
    (hsnap : ∀ i, snap.item = some i → F.Covers i)

include hf hcalls hc hspans hexpr hq hq' hunplaced hexternal hσ hsnap

/-- The two paths start from the same groups, and both sort what chains make of them that agree. -/
theorem delivers_iff_of_spans : ∃ (plan : PathPlan) (merged : List Step),
      (∀ items, q.program.Delivers σ q.root snap items ↔ ∃ ins outs, plan.StartsFrom q'.program σ snap ins ∧
        TurnAll q'.program σ merged ins outs ∧
        arranged c.settings.uniqueNodes outs.flatten (.ok ()) = .ok items) ∧
      (∀ items, q'.program.Delivers σ q'.root snap items ↔ ∃ ins outs, plan.StartsFrom q'.program σ snap ins ∧
        TurnAll q'.program σ plan.steps ins outs ∧
        arranged c.settings.uniqueNodes outs.flatten (.ok ()) = .ok items) ∧
      ∀ ins, plan.StartsFrom q'.program σ snap ins →
        Agree q'.program σ plan.steps merged ins ins ∧
        ∀ outs, TurnAll q'.program σ plan.steps ins outs → ∀ i ∈ outs.flatten, F.Covers i := by
  obtain ⟨hcompiled, hreply, -, hr⟩ := reliable_of_compile hq hf
  obtain ⟨hcompiled', -, -, hr'⟩ := reliable_of_compile hq' hf
  obtain ⟨p, p', hlaid, hlaid', hpair⟩ :=
    companions_of_compile hq hq' (fun f h => ⟨(hf f h).1, (hf f h).2.1⟩) hexternal
  have hafter : after ≠ [] := by
    rintro rfl
    cases hexpr
  obtain ⟨s, first, steps, tail, hs, hsteps, htail, hform⟩ := hpair.left.plan_of_spans hspans hafter hlaid.spells
  obtain ⟨s', first', steps', ids, tail', hs', hsteps', hids, htail', hform'⟩ :=
    hpair.right.plan_everywhere hlaid'.spells
  rw [SpellsAll] at hids
  obtain ⟨t, _, ht, hnil, rfl⟩ := hids
  rw [SpellsAll] at hnil
  subst hnil
  -- the chain of the first query, in the second program
  have hliteral := fun e e' (he : Counterparts p.At p'.At c e e') =>
    literalPosition_of_sketch (Counterparts.sketch_eq hpair.left hpair.right he)
  obtain ⟨hstart, hfirst⟩ := hs.counterparts hs'
  have htwins := forall₂_markNodesOnly (forall₂_mergeRuns (forall₂_fixPositions hliteral (rel_append
    (rel_append hfirst (hsteps.counterparts hsteps'))
    (.cons (.axis .descendantOrSelf (some .anyNode)) (htail.counterparts htail')))) 0)
  obtain ⟨hsort, hnodes⟩ := q.program.planPath_of_isExpr ⟨s, (first ++ steps) ++
    .axis .descendantOrSelf (some .anyNode) :: tail, false, true, false⟩ (by simp [htail.any_isExpr hexpr])
  obtain ⟨hsort', hnodes'⟩ := q'.program.planPath_of_isExpr ⟨s', (first' ++ steps') ++
    .axis .descendantOrSelf (some .anyNode) :: .predicate t :: tail', false, true, false⟩
    (by simp [htail'.any_isExpr hexpr])
  refine ⟨q'.program.planPath ⟨s', (first' ++ steps') ++
      .axis .descendantOrSelf (some .anyNode) :: .predicate t :: tail', false, true, false⟩,
    markNodesOnly (fuse q'.program.literalPosition ((first' ++ steps') ++
      .axis .descendantOrSelf (some .anyNode) :: tail')),
    fun items => ?_, fun items => ?_, fun ins hins => ?_⟩
  · rw [hcompiled.delivers_path_iff hpair.pure hr hreply .refl hform, hpair.left.static, PathPlan.outcome_of_sort hsort]
    refine exists_congr fun ins => exists_congr fun outs => and_congr ?_ (and_congr_left' ?_)
    · exact hpair.startsFrom_iff hstart (by rw [hnodes, hnodes', hstart.isExpr_eq])
    · exact hpair.turnAll_iff htwins
  · rw [hcompiled'.delivers_path_iff hpair.pure' hr' hreply .refl hform', hpair.right.static]
    rw [← PathPlan.outcome_of_sort hsort']
    rfl
  · have hclosed := hcompiled'.closed_covers hcalls
    have hkept := Step.keeps_covers hclosed hpair.pure' hσ
    have hcovers := hins.covers hsnap fun b _ g hg => hclosed.of_delivers hpair.pure' hσ hsnap hg
    refine ⟨?_, fun outs hturn => hturn.keeps (fun s _ => hkept s) hcovers⟩
    exact agree_everywhere hpair.right hpair.pure' hkept hc ht htail'
      (fun children y rest h hne hchildren e hy => hunplaced children y rest h hne hchildren p' e σ hpair.right hy)
      hcovers

theorem delivers_unmerged : (∀ items, q.program.Delivers σ q.root snap items →
      ∃ items', q'.program.Delivers σ q'.root snap items' ∧ SameSorted items items') ∧
    ∀ items', q'.program.Delivers σ q'.root snap items' →
      ∃ items, q.program.Delivers σ q.root snap items ∧ SameSorted items items' := by
  obtain ⟨plan, merged, hmerged, hapart, hagree⟩ :=
    delivers_iff_of_spans hf hcalls hc hspans hexpr hq hq' hunplaced hexternal hσ hsnap
  constructor
  · intro items h
    obtain ⟨ins, outs, hins, hturn, harranged⟩ := (hmerged items).mp h
    obtain ⟨outs', hturn', hperm⟩ := (hagree ins hins).1.back hturn
    have hcovers := (hagree ins hins).2 outs' hturn'
    obtain ⟨items', harranged', hsame⟩ :=
      F.arranged_perm hperm.symm (fun i hi => hcovers i (hperm.mem_iff.mpr hi)) harranged
    exact ⟨items', (hapart items').mpr ⟨ins, outs', hins, hturn', harranged'⟩, hsame⟩
  · intro items' h
    obtain ⟨ins, outs', hins, hturn', harranged'⟩ := (hapart items').mp h
    obtain ⟨outs, hturn, hperm⟩ := (hagree ins hins).1.forth hturn'
    obtain ⟨items, harranged, hsame⟩ := F.arranged_perm hperm ((hagree ins hins).2 outs' hturn') harranged'
    exact ⟨items, (hmerged items).mpr ⟨ins, outs, hins, hturn, harranged⟩, hsame.symm⟩

end

/-! ## Queries -/

theorem Query.exists_fillSlots_iff {values : List (ExpandedName × List Item)} {names : List ExpandedName} :
    ∀ {slot : Nat} {slots : Slots}, (∃ filled, fillSlots values names slot slots = .ok filled) ↔
      ∀ name ∈ names, (values.lookup name).isSome = true := by
  induction names with
  | nil => exact iff_of_true ⟨_, rfl⟩ nofun
  | cons name names ih =>
    intro slot slots
    rw [forall_mem_cons, fillSlots]
    cases values.lookup name with
    | none => simp
    | some value => simp [ih]

theorem StaticContext.sound_externalSlots {Ok : Item → Prop} (c : StaticContext)
    {values : List (ExpandedName × List Item)}
    (hvalues : ∀ name items, values.lookup name = some items → ∀ i ∈ items, Ok i) :
    (c.externalSlots values).Sound Ok := by
  intro k items hk
  have hget := Slots.values_of_get? hk
  obtain ⟨name, -, hname⟩ : ∃ name, c.settings.externals[k]? = some name ∧ values.lookup name = some items := by
    simpa [externalSlots] using hget
  exact hvalues name items hname

/-- A query is evaluated without an error if its external variables have values and its main expression does not
fail. -/
theorem Compiled.evaluate_iff {c : StaticContext} {q : Query} (hq : Compiled c q) (hp : q.program.Pure)
    (hf : ∀ f, c.Callable f → f.KeepsReply) {focus : Snapshot} {values : List (ExpandedName × List Item)}
    {items : List Item} : (∃ n, q.evaluate n focus values = some (.ok items)) ↔
      (∀ name ∈ c.settings.externals, (values.lookup name).isSome = true) ∧
        q.program.Delivers (c.externalSlots values) q.root focus items := by
  have hcreate : (∃ slots, q.createSlots values = .ok slots) ↔
      ∀ name ∈ c.settings.externals, (values.lookup name).isSome = true := by
    unfold Query.createSlots
    rw [hq.static]
    exact Query.exists_fillSlots_iff
  have henv : ∀ {slots}, q.createSlots values = .ok slots → q.environment slots = c.externalSlots values :=
    hq.environment_of_createSlots
  constructor
  · rintro ⟨n, hrun⟩
    obtain ⟨slots, left, hslots, hrun⟩ := Query.exists_slots_of_evaluate hrun
    rw [← henv hslots]
    exact ⟨hcreate.mp ⟨slots, hslots⟩, (hq.evaluates_iff hp hf).mp ⟨n, left, hrun⟩⟩
  · rintro ⟨hvalues, hdelivers⟩
    obtain ⟨slots, hslots⟩ := hcreate.mpr hvalues
    rw [← henv hslots] at hdelivers
    obtain ⟨n, left, hrun⟩ := (hq.evaluates_iff hp hf).mpr hdelivers
    refine ⟨n, ?_⟩
    unfold Query.evaluate
    rw [hslots]
    exact congrArg (Option.map _) hrun

/-- A predicate `true()` after `descendant-or-self::node()`, which keeps the child steps after it from being
merged with it, does not change whether a path with a later expression step can be evaluated, nor its items, nor
their order if they are nodes: if the expression directly after the child steps does not ask where its item
stands. -/
theorem Query.evaluate_path_unmerged {c : StaticContext}
    (hf : ∀ f, c.Callable f → f.KeepsReply ∧ f.Grows ∧ f.Honest) {trees : Nat → Option Fragment}
    (hcalls : ∀ f, c.Callable f → ∀ call, (f.body call).Sound (Forest.ofTrees trees).Covers) (hc : c.HasTrue)
    {x : Expr} {start : Start} {before after : List PathStep} (hspans : x.Spans start before after)
    (hexpr : after.any (!·.isAxis) = true) {q q' : Query} (hq : compile c x = .ok q)
    (hq' : compile c (.path start (before ++ everywhere [alwaysTrue] :: after)) = .ok q')
    (hunplaced : ∀ children y rest, after = children ++ .expr y :: rest → children ≠ [] →
      (∀ s ∈ children, s.isBareChild = true) → q'.Unplaced c y)
    {focus : Snapshot} (hfocus : ∀ i, focus.item = some i → (Forest.ofTrees trees).Covers i)
    {values : List (ExpandedName × List Item)}
    (hvalues : ∀ name items, values.lookup name = some items → ∀ i ∈ items, (Forest.ofTrees trees).Covers i) :
    ((∃ n items, q.evaluate n focus values = some (.ok items)) ↔
      ∃ n items, q'.evaluate n focus values = some (.ok items)) ∧
    ∀ n n' items items', q.evaluate n focus values = some (.ok items) →
      q'.evaluate n' focus values = some (.ok items') → SameSorted items items' := by
  obtain ⟨hcompiled, hreply, hpure, -⟩ := reliable_of_compile hq hf
  obtain ⟨hcompiled', -, hpure', -⟩ := reliable_of_compile hq' hf
  have hiff := @Compiled.evaluate_iff _ _ hcompiled hpure hreply focus values
  have hiff' := @Compiled.evaluate_iff _ _ hcompiled' hpure' hreply focus values
  obtain ⟨hforth, hback⟩ := delivers_unmerged hf hcalls hc hspans hexpr hq hq' hunplaced
    (c.get?_externalSlots values) (c.sound_externalSlots hvalues) hfocus
  constructor
  · rw [exists_comm, exists_comm (α := Nat)]
    simp only [hiff, hiff', exists_and_left]
    refine and_congr_right fun _ => ⟨?_, ?_⟩
    · rintro ⟨items, h⟩
      obtain ⟨items', h', -⟩ := hforth items h
      exact ⟨items', h'⟩
    · rintro ⟨items', h'⟩
      obtain ⟨items, h, -⟩ := hback items' h'
      exact ⟨items, h⟩
  · intro n n' items items' hrun hrun'
    obtain ⟨items'', h', hsame⟩ := hforth items (hiff.mp ⟨n, hrun⟩).2
    rwa [h'.unique hpure' (hiff'.mp ⟨n', hrun'⟩).2] at hsame

theorem Query.unplaced_contextItem (q : Query) (c : StaticContext) : q.Unplaced c .contextItem := by
  intro p e σ hfilled hx snap snap' g hitem
  rw [Spells] at hx
  obtain ⟨new, hnew, hfills⟩ := hfilled.form hx.1
  obtain rfl : new = .contextItem := hfills
  have hexecute : ∀ n, (lexicalMachine n q.program).execute e (.fixed snap) =
      (lexicalMachine n q.program).execute e (.fixed snap') := by
    intro n
    cases n with
    | zero => rfl
    | succ n =>
      change (lexicalMachine n q.program).perform q.program e (.fixed snap) =
        (lexicalMachine n q.program).perform q.program e (.fixed snap')
      unfold Calls.perform
      rw [hnew]
      simp only [Focus.requireItem, Focus.item?, hitem]
  simp only [Program.Delivers, hexecute]
  exact id

/-- `child::*/./position()` -/
def placesOfChildren : List PathStep :=
  [.axis .child .anyName [], .expr .contextItem, .expr (.call (.unprefixed "position") [])]

theorem Query.evaluate_path_unmerged_placesOfChildren :
    let focus : Snapshot := .single (some (.node (.rootOf (.build 0 .layered))))
    ∃ q q' items items', compile .standard (.path .rootDescendant placesOfChildren) = .ok q ∧
      compile .standard (.path .root (everywhere [alwaysTrue] :: placesOfChildren)) = .ok q' ∧
      q.evaluate 40 focus [] = some (.ok items) ∧ q'.evaluate 40 focus [] = some (.ok items') ∧
      items.length = 3 ∧ SameSorted items items' := by
  intro focus
  obtain ⟨q, q', items, items', hq, hq', hitems, hitems', hlength⟩ :=
    @exists_results_of_check .standard (.path .rootDescendant placesOfChildren)
      (.path .root (everywhere [alwaysTrue] :: placesOfChildren)) focus 3 (by decide +kernel)
  refine ⟨q, q', items, items', hq, hq', hitems, hitems', hlength, ?_⟩
  have htrue : StaticContext.standard.HasTrue := ⟨_, rfl, fun _ => rfl⟩
  have hspans : (Expr.path .rootDescendant placesOfChildren).Spans .root [] placesOfChildren :=
    .inr ⟨rfl, rfl, rfl⟩
  have hunplaced : ∀ children y rest, placesOfChildren = children ++ .expr y :: rest → children ≠ [] →
      (∀ s ∈ children, s.isBareChild = true) → q'.Unplaced .standard y := by
    intro children y rest heq hne hbare
    obtain _ | ⟨s, _ | ⟨s', children⟩⟩ := children
    · exact absurd rfl hne
    · cases heq
      exact q'.unplaced_contextItem _
    · cases (cons.inj (cons.inj heq).2).1
      cases hbare _ (.tail _ (.head _))
  exact (evaluate_path_unmerged CoreFunction.standard_callable
    (fun _ => CoreFunction.standard_sound fun _ => trivial) htrue hspans rfl hq hq' hunplaced covers_layered
    (by simp)).2 _ _ _ _ hitems hitems'

/-- `<r><x><a/></x><y><a/></y></r>` -/
def Fragment.apart : Fragment :=
  let element (name : String) (content : List Fragment) : Fragment := .element ⟨none, name, none⟩ [] [] content
  element "r" [element "x" [element "a" []], element "y" [element "a" []]]

/-- `child::a/position()` -/
def placesOfNamed : List PathStep :=
  [.axis .child (.name ⟨none, "a", none⟩) [], .expr (.call (.unprefixed "position") [])]

/-- The first query counts two items, the second twice one. -/
def Query.countsApart (q q' : Query) (focus : Snapshot) : Bool :=
  match q.evaluate 40 focus [], q'.evaluate 40 focus [] with
  | some (.ok [.atomic (.integer a), .atomic (.integer b)]),
    some (.ok [.atomic (.integer a'), .atomic (.integer b')]) => decide ((a, b, a', b') = (1, 2, 1, 1))
  | _, _ => false

/-- An expression directly after the child steps can tell: the elements that one step finds are counted together,
and the children of each node are counted apart. -/
theorem Query.evaluate_unmerged_positions :
    let focus : Snapshot := .single (some (.node (.rootOf (.build 0 .apart))))
    ∃ q q', compile .standard (.path .rootDescendant placesOfNamed) = .ok q ∧
      compile .standard (.path .root (everywhere [alwaysTrue] :: placesOfNamed)) = .ok q' ∧
      q.evaluate 40 focus [] = some (.ok [.atomic (.integer 1), .atomic (.integer 2)]) ∧
      q'.evaluate 40 focus [] = some (.ok [.atomic (.integer 1), .atomic (.integer 1)]) := by
  intro focus
  have hrun : ((compile .standard (.path .rootDescendant placesOfNamed)).toOption.any fun q =>
      (compile .standard (.path .root (everywhere [alwaysTrue] :: placesOfNamed))).toOption.any
        (q.countsApart · focus)) = true := by decide +kernel
  obtain ⟨q, hq, hrun⟩ := exists_ok_of_check hrun
  obtain ⟨q', hq', hrun⟩ := exists_ok_of_check hrun
  unfold countsApart at hrun
  split at hrun
  · next a b a' b' hitems hitems' =>
    cases of_decide_eq_true hrun
    exact ⟨q, q', hq, hq', hitems, hitems'⟩
  · cases hrun

end XPath
