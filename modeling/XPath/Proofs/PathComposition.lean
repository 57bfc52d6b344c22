import XPath.Proofs.Fusing
import XPath.Proofs.PathResults

/-!
# Paths of paths

Steps treat groups one by one, so a chain that begins with a step along an axis treats items one by one
(`TurnAll.mem_iff`): what it finds depends on the items before it, and not on their order, their groups or how
often they come. So with repeats dropped a path may be cut in two at any place where a step along an axis
follows, and the first part evaluated as a path of its own (`Query.evaluate_path_append`). The two forms are
shortened differently, and either may be sorted where the other is not.
-/

namespace XPath

open List

open Program

variable {p : Program} {σ : Slots} {F : Forest} {steps rest : List Step} {A B ins outs : List (List Item)}
  {x : Item} {plan : PathPlan} {s : PathStart} {first : List Step} {Ok : Item → Prop}
  {values : List (ExpandedName × List Item)} {slots : Slots} {fuel : Nat} {focus : Snapshot}

/-! ## Item by item -/

theorem exists_append_of_forall₂ {α β : Type} {R : α → β → Prop} {as bs : List α} :
    ∀ {cs : List β}, List.Forall₂ R (as ++ bs) cs →
      ∃ ds es, List.Forall₂ R as ds ∧ List.Forall₂ R bs es ∧ cs = ds ++ es := by
  induction as with
  | nil => exact fun h => ⟨[], _, .nil, h, rfl⟩
  | cons a as ih =>
    intro cs h
    cases h with
    | cons hac htail =>
      obtain ⟨ds, es, hds, hes, rfl⟩ := ih htail
      exact ⟨_ :: ds, es, .cons hac hds, hes, rfl⟩

theorem present_append (A B : List (List Item)) : present (A ++ B) = present A ++ present B :=
  filter_append ..

theorem FansOut.exists_append {R : Node → List Node → Prop} (h : FansOut R (A ++ B) outs) :
    ∃ C D, FansOut R A C ∧ FansOut R B D ∧ outs = C ++ D := by
  obtain ⟨nodes, groups, hnodes, hgroups, rfl⟩ := h
  rw [flatten_append] at hnodes
  obtain ⟨left, right, rfl, hleft, hright⟩ := append_eq_map_iff.mp hnodes
  obtain ⟨C, D, hC, hD, rfl⟩ := exists_append_of_forall₂ hgroups
  refine ⟨_, _, ⟨left, C, hleft.symm, hC, rfl⟩, ⟨right, D, hright.symm, hD, rfl⟩, ?_⟩
  rw [map_append, present_append]

/-- A step treats the groups before it one by one. -/
theorem Step.Turns.exists_append {step : Step} (h : step.Turns p σ (A ++ B) outs) :
    ∃ C D, step.Turns p σ A C ∧ step.Turns p σ B D ∧ outs = C ++ D := by
  cases step with
  | axis a test | descent tests => exact FansOut.exists_append h
  | position k =>
    obtain rfl := h
    refine ⟨_, _, rfl, rfl, ?_⟩
    rw [filterMap_append, map_append]
  | predicate e =>
    obtain ⟨lefts, hlefts, rfl⟩ := h
    obtain ⟨C, D, hC, hD, rfl⟩ := exists_append_of_forall₂ hlefts
    exact ⟨_, _, ⟨C, hC, rfl⟩, ⟨D, hD, rfl⟩, present_append C D⟩
  | expr e nodesOnly =>
    obtain ⟨groups, hgroups, rfl, hnodes⟩ := h
    rw [flatMap_append] at hgroups
    obtain ⟨C, D, hC, hD, rfl⟩ := exists_append_of_forall₂ hgroups
    rw [present_append] at hnodes
    refine ⟨_, _, ⟨C, hC, rfl, ?_⟩, ⟨D, hD, rfl, ?_⟩, present_append C D⟩
    · exact fun h g hg => hnodes h g (mem_append_left _ hg)
    · exact fun h g hg => hnodes h g (mem_append_right _ hg)

theorem TurnAll.exists_append (h : TurnAll p σ steps (A ++ B) outs) :
    ∃ C D, TurnAll p σ steps A C ∧ TurnAll p σ steps B D ∧ outs = C ++ D := by
  induction steps generalizing A B with
  | nil =>
    cases h
    exact ⟨A, B, .nil, .nil, rfl⟩
  | cons step steps ih =>
    cases h with
    | cons first rest =>
      obtain ⟨C, D, hC, hD, rfl⟩ := first.exists_append
      obtain ⟨C', D', hC', hD', rfl⟩ := ih rest
      exact ⟨C', D', .cons hC hC', .cons hD hD', rfl⟩

theorem TurnAll.eq_nil (hp : p.Pure) (h : TurnAll p σ steps [] outs) : outs = [] := by
  obtain ⟨C, D, hC, hD, rfl⟩ := TurnAll.exists_append (A := []) (B := []) h
  exact append_eq_nil_iff.mpr ⟨append_left_eq_self.mp (h.unique hp hD),
    append_right_eq_self.mp (h.unique hp hC)⟩

section

variable {a : Axis} {test : Option NodeTest}

/-- A step along an axis does not see groups. -/
theorem TurnAll.regroup (h : TurnAll p σ (.axis a test :: rest) A outs) (hflatten : A.flatten = B.flatten) :
    TurnAll p σ (.axis a test :: rest) B outs := by
  cases h with
  | cons first rest =>
    obtain ⟨nodes, groups, hnodes, hgroups, rfl⟩ := first
    exact .cons ⟨nodes, groups, hflatten.symm.trans hnodes, hgroups, rfl⟩ rest

/-- What is found is what is found from one of the items. -/
theorem TurnAll.mem_iff (hp : p.Pure) (h : TurnAll p σ (.axis a test :: rest) A outs) : x ∈ outs.flatten ↔
      ∃ i ∈ A.flatten, ∃ found, TurnAll p σ (.axis a test :: rest) [[i]] found ∧ x ∈ found.flatten := by
  have hsingle : (A.flatten.map ([·])).flatten = A.flatten := by
    rw [← flatMap_def]
    exact flatMap_singleton' _
  replace h := h.regroup hsingle.symm
  generalize A.flatten = items at h
  induction items generalizing outs with
  | nil =>
    obtain rfl := h.eq_nil hp
    simp
  | cons i items ih =>
    obtain ⟨C, D, hC, hD, rfl⟩ := TurnAll.exists_append (A := [[i]]) h
    have hfirst : x ∈ C.flatten ↔ ∃ found, TurnAll p σ (.axis a test :: rest) [[i]] found ∧ x ∈ found.flatten := by
      constructor
      · exact fun hx => ⟨C, hC, hx⟩
      · rintro ⟨found, hfound, hx⟩
        rwa [hC.unique hp hfound]
    rw [flatten_append, mem_append, hfirst, exists_mem_cons_iff]
    exact or_congr_right (ih hD)

/-- The items that come after a step along an axis and filters are nodes. -/
theorem TurnAll.isNode (h : TurnAll p σ (.axis a test :: rest) A outs)
    (hrest : ∀ s ∈ rest, s.Keeps p σ fun i => i.isNode = true) : ∀ i ∈ outs.flatten, i.isNode = true := by
  cases h with
  | cons first tail =>
    refine tail.keeps hrest ?_
    obtain ⟨nodes, groups, -, -, rfl⟩ := first
    rw [flatten_present, ← map_flatten]
    intro i hi
    obtain ⟨n, -, rfl⟩ := mem_map.mp hi
    rfl

end

/-! ## Sorted results -/

theorem Forest.mem_inDocumentOrder_iff {nodes : List Node} (hnodes : ∀ n ∈ nodes, F.Has n.doc) {unique : Bool}
    {n : Node} : n ∈ inDocumentOrder unique nodes ↔ n ∈ nodes := by
  refine ⟨mem_of_mem_inDocumentOrder, fun hn => ?_⟩
  have hsorted : n ∈ nodes.mergeSort Node.precedesOrSame := mem_mergeSort.mpr hn
  cases unique with
  | false => exact hsorted
  | true =>
    obtain ⟨m, hm, heq⟩ := exists_mem_dropRepeats _ n hsorted
    have hm' : m ∈ nodes := mem_mergeSort.mp ((dropRepeats_sublist _).mem hm)
    exact F.eq_of_compare_eq (hnodes m hm') (hnodes n hn) heq ▸ hm

theorem Forest.mem_outcome_iff {unique : Bool} {items items' : List Item} (hitems : ∀ i ∈ items, F.Covers i)
    (h : plan.outcome unique items (.ok ()) = .ok items') : x ∈ items' ↔ x ∈ items := by
  unfold PathPlan.outcome at h
  split at h
  · unfold arranged at h
    split at h
    · cases h
    · have hitems' := Except.ok.inj h
      split at hitems'
      · rw [← hitems']
      · next hatomic =>
        have hnode : ∀ i ∈ items, i.isNode = true := by simpa using hatomic
        obtain ⟨nodes, rfl⟩ := exists_nodes_of_isNode hnode
        rw [filterMap_node?_map] at hitems'
        have hhas : ∀ n ∈ nodes, F.Has n.doc := fun n hn => hitems _ (mem_map_of_mem hn)
        rw [← hitems']
        simp only [mem_map, F.mem_inDocumentOrder_iff hhas]
  · cases h
    exact Iff.rfl

/-! ## Paths along axes -/

def PathStep.isAxis : PathStep → Bool
  | .axis .. => true
  | .expr _ => false

section

variable {At : ExprId → Form → List ExprId → Prop} {c : StaticContext} {written before after : List PathStep}

theorem SpellsSteps.exists_append (h : SpellsSteps At c (before ++ after) steps) :
    ∃ first second, SpellsSteps At c before first ∧ SpellsSteps At c after second ∧ steps = first ++ second := by
  induction before generalizing steps with
  | nil => exact ⟨[], _, by rw [SpellsSteps], h, rfl⟩
  | cons step before ih =>
    cases step with
    | axis a test predicates =>
      rw [cons_append, SpellsSteps] at h
      obtain ⟨t, ids, tail, ht, hids, htail, rfl⟩ := h
      obtain ⟨first, second, hfirst, hsecond, rfl⟩ := ih htail
      refine ⟨.axis a (some t) :: (ids.map .predicate ++ first), second, ?_, hsecond, ?_⟩
      · rw [SpellsSteps]
        exact ⟨t, ids, first, ht, hids, hfirst, rfl⟩
      · rw [cons_append, append_assoc]
    | expr x =>
      rw [cons_append, SpellsSteps] at h
      obtain ⟨i, tail, hx, htail, rfl⟩ := h
      obtain ⟨first, second, hfirst, hsecond, rfl⟩ := ih htail
      refine ⟨.expr i false :: first, second, ?_, hsecond, rfl⟩
      rw [SpellsSteps]
      exact ⟨i, first, hx, hfirst, rfl⟩

theorem SpellsSteps.eq_nil (h : SpellsSteps At c written []) : written = [] := by
  match written with
  | [] => rfl
  | .axis a test predicates :: written =>
    rw [SpellsSteps] at h
    obtain ⟨_, _, _, _, _, _, hcons⟩ := h
    cases hcons
  | .expr x :: written =>
    rw [SpellsSteps] at h
    obtain ⟨_, _, _, _, hcons⟩ := h
    cases hcons

theorem SpellsSteps.isPlain (haxes : ∀ s ∈ written, s.isAxis = true) :
    ∀ {steps : List Step}, SpellsSteps At c written steps → ∀ s ∈ steps, s.isPlain = true := by
  induction written with
  | nil =>
    intro steps h
    rw [SpellsSteps] at h
    subst h
    rintro _ ⟨⟩
  | cons step written ih =>
    obtain ⟨hstep, htail⟩ := forall_mem_cons.mp haxes
    intro steps h
    cases step with
    | expr x => cases hstep
    | axis a test predicates =>
      rw [SpellsSteps] at h
      obtain ⟨t, ids, tail, -, -, hspells, rfl⟩ := h
      refine forall_mem_cons.mpr ⟨rfl, forall_mem_append.mpr ⟨?_, ih htail hspells⟩⟩
      intro s hs
      obtain ⟨id, -, rfl⟩ := mem_map.mp hs
      rfl

theorem SpellsSteps.exists_axis (haxes : ∀ s ∈ written, s.isAxis = true) (hne : written ≠ []) {steps : List Step}
    (h : SpellsSteps At c written steps) : ∃ a test rest, steps = .axis a test :: rest := by
  cases written with
  | nil => exact absurd rfl hne
  | cons step written =>
    cases step with
    | axis a test predicates =>
      rw [SpellsSteps] at h
      obtain ⟨t, ids, tail, -, -, -, rfl⟩ := h
      exact ⟨a, some t, _, rfl⟩
    | expr x => cases haxes _ (.head _)

theorem SpellsStart.isPlain {start : Start} (h : SpellsStart At c start s first) :
    ∀ step ∈ first, step.isPlain = true := by
  cases start with
  | root =>
    rw [SpellsStart] at h
    obtain ⟨-, rfl⟩ := h
    rintro _ ⟨⟩
  | rootDescendant =>
    rw [SpellsStart] at h
    obtain ⟨-, rfl⟩ := h
    exact fun _ hs => mem_singleton.mp hs ▸ rfl
  | relative =>
    rw [SpellsStart] at h
    obtain ⟨-, rfl⟩ := h
    rintro _ ⟨⟩
  | expr x =>
    rw [SpellsStart] at h
    obtain ⟨-, -, -, rfl⟩ := h
    rintro _ ⟨⟩

end

theorem FilledIn.path_form {c : StaticContext} {p q : Program} (h : FilledIn c p q) {start : Start}
    {written : List PathStep} (hne : written ≠ []) {e : ExprId} (hx : Spells p.At c (.path start written) e) :
    ∃ s first steps, SpellsStart p.At c start s first ∧ SpellsSteps p.At c written steps ∧
      q.form? e = some (.path (q.planPath ⟨s, first ++ steps, false, true, false⟩)) := by
  rw [Spells] at hx
  obtain ⟨s, first, steps, hstart, hsteps, hpath⟩ := hx
  have hcons : first ++ steps ≠ [] := by
    intro hnil
    obtain ⟨-, rfl⟩ := append_eq_nil_iff.mp hnil
    exact hne hsteps.eq_nil
  obtain ⟨new, hnew, hfills⟩ := h.form (hpath.of_ne_nil hcons).1
  obtain rfl := hfills
  exact ⟨s, first, steps, hstart, hsteps, hnew⟩

theorem exists_plan_of_compile {c : StaticContext} {start : Start} {written : List PathStep} (hne : written ≠ [])
    {q : Query} (hq : compile c (.path start written) = .ok q) :
    ∃ plan, q.program.form? q.root = some (.path plan) := by
  obtain ⟨p, hlaid, hfilled, -⟩ := filledIn_of_compile hq
  obtain ⟨s, first, steps, -, -, hform⟩ := hfilled.path_form hne hlaid.spells
  exact ⟨_, hform⟩

theorem Merges.mem {P : Step → Prop} {steps steps' : List Step} (h : Merges P steps steps') {s : Step}
    (hs : s ∈ steps') : s ∈ steps ∨ ∃ run, s = mergedStep run := by
  induction h with
  | nil => cases hs
  | cons s₀ tail ih =>
    rcases mem_cons.mp hs with rfl | hs
    · exact .inl (.head _)
    · exact (ih hs).imp (.tail _) id
  | @run test run rest rest' all some next tail ih =>
    rcases mem_cons.mp hs with rfl | hs
    · exact .inr ⟨run, rfl⟩
    · refine (ih hs).imp (fun hs => ?_) id
      exact .tail _ (mem_append_right _ hs)

theorem markNodesOnly_of_not_isExpr (h : ∀ s ∈ steps, s.isExpr = false) : markNodesOnly steps = steps := by
  induction steps with
  | nil => exact rfl
  | cons s steps ih =>
    obtain ⟨hs, hsteps⟩ := forall_mem_cons.mp h
    cases s with
    | expr => cases hs
    | _ => exact congrArg _ (ih hsteps)

/-- The chain of a path along axes is shortened and nothing else. -/
theorem Program.planPath_steps (q : Program) (hplain : ∀ s ∈ plan.steps, s.isPlain = true) :
    (q.planPath plan).steps = fuse q.literalPosition plan.steps := by
  refine markNodesOnly_of_not_isExpr fun s hs => ?_
  have hmerges : Merges (fun _ => True) (fixPositions q.literalPosition plan.steps)
      (fuse q.literalPosition plan.steps) :=
    merges_mergeRuns _ .refl fun _ _ _ _ _ _ _ _ => trivial
  rcases hmerges.mem hs with hs | ⟨run, rfl⟩
  · rcases mem_fixPositions hplain hs with hs | ⟨k, rfl⟩
    · cases s <;> first | rfl | cases hs
    · rfl
  · unfold mergedStep
    split <;> rfl

section

variable {c : StaticContext} {q : Query} {e : ExprId} {snap : Snapshot} {items : List Item}

/-- A path along axes delivers what its steps find, as they were before they were shortened. -/
theorem Compiled.delivers_axes (hq : Compiled c q) (hp : q.program.Pure) (hr : q.program.Reliable)
    (hf : ∀ f, c.Callable f → f.KeepsReply) (he : q.program.Occurs q.root e)
    (hplain : ∀ s ∈ plan.steps, s.isPlain = true) (hplan : q.program.form? e = some (.path (q.program.planPath plan)))
    (hins : ∀ ins, (q.program.planPath plan).StartsFrom q.program σ snap ins → ∀ i ∈ ins.flatten, F.Covers i)
    (h : q.program.Delivers σ e snap items) : ∃ ins outs, (q.program.planPath plan).StartsFrom q.program σ snap ins ∧
      TurnAll q.program σ (fixPositions q.program.literalPosition plan.steps) ins outs ∧
      (∀ i ∈ items, F.Covers i) ∧ ∀ x, x ∈ items ↔ x ∈ outs.flatten := by
  obtain ⟨ins, outs, hstart, hturn, houtcome⟩ := (hq.delivers_path_iff hp hr hf he hplan).mp h
  rw [q.program.planPath_steps hplain] at hturn
  obtain ⟨raw, hraw, hperm⟩ := (agree_mergeRuns hp hplain (hins ins hstart)).back hturn
  have hcovers := hraw.keeps (keeps_fixPositions (fun hdoc hn => (congrArg F.Has hdoc).mpr hn) hplain)
    (hins ins hstart)
  have hmem : ∀ x, x ∈ items ↔ x ∈ raw.flatten := by
    intro x
    rw [hperm.mem_iff]
    exact F.mem_outcome_iff (fun i hi => hcovers i (hperm.mem_iff.mpr hi)) houtcome
  exact ⟨ins, raw, hstart, hraw, fun i hi => hcovers i ((hmem i).mp hi), hmem⟩

theorem Query.sound_of_createSlots (hvalues : ∀ name items, values.lookup name = some items → ∀ i ∈ items, Ok i)
    (h : q.createSlots values = .ok slots) : slots.Sound Ok := by
  intro k items hk
  obtain ⟨hheld, hrest⟩ := fillSlots_get? h
  by_cases hlt : k < q.program.static.settings.externals.length
  · obtain ⟨value, hlookup, hget⟩ := hheld k _ (getElem?_eq_getElem hlt)
    rw [Nat.zero_add, hk] at hget
    cases hget
    exact hvalues _ _ hlookup
  · rw [hrest k (by omega)] at hk
    have hempty := Slots.values_of_get? hk
    simp [Slots.ofSize, Array.getElem?_replicate] at hempty

theorem Query.exists_slots_of_evaluate (h : q.evaluate fuel focus values = some (.ok items)) :
    ∃ slots left, q.createSlots values = .ok slots ∧ q.evaluateOn fuel focus slots = some (.ok items, left) := by
  unfold evaluate at h
  split at h
  · cases h
  · next slots hslots =>
    obtain ⟨left, hrun⟩ := exists_some_iff.mpr h
    exact ⟨slots, left, hslots, hrun⟩

/-- The nodes that a query gives are in order, if its main expression is a path. -/
theorem Compiled.increasing (hq : Compiled c q) (hunique : c.settings.uniqueNodes = true)
    (hcalls : ∀ f, c.Callable f → ∀ call, (f.body call).Sound F.Covers)
    (hplan : q.program.form? q.root = some (.path plan)) (hfocus : ∀ i, focus.item = some i → F.Covers i)
    {left : Slots} (hslots : slots.Sound F.Covers) (hrun : q.evaluateOn fuel focus slots = some (.ok items, left)) :
    (items.filterMap Item.node?).Pairwise fun a b => a.compare b = .lt := by
  have hsorting : q.program.Sorting :=
    ⟨by rw [hq.static]; exact hunique, fun e plan hform => (hq.filled e _ hform).1⟩
  obtain ⟨⟨r, s⟩, hrun, hr⟩ := Option.map_eq_some_iff.mp hrun
  obtain ⟨rfl, -⟩ := Prod.mk.inj hr
  obtain ⟨value, t, hexec, hdrain⟩ := Eval.of_bind hrun
  have hfixed : (Focus.fixed focus).Intact q.program F.Covers := hfocus
  exact increasing_of_drain (hq.closed_covers hcalls) hsorting hplan rfl hfixed hslots hexec hdrain

end

instance : Std.Irrefl fun a b : Node => a.compare b = .lt where
  irrefl a h := by
    rw [Node.compare_eq_lt_iff] at h
    omega

instance : Std.Antisymm fun a b : Node => a.compare b = .lt where
  antisymm a b h h' := by
    rw [Node.compare_eq_lt_iff] at h h'
    omega

/-- Nodes in order are known by which they are. -/
theorem eq_of_increasing {items items' : List Item} (hnodes : ∀ i ∈ items, i.isNode = true)
    (hnodes' : ∀ i ∈ items', i.isNode = true) (h : (items.filterMap Item.node?).Pairwise fun a b => a.compare b = .lt)
    (h' : (items'.filterMap Item.node?).Pairwise fun a b => a.compare b = .lt)
    (hmem : ∀ x, x ∈ items ↔ x ∈ items') : items = items' := by
  obtain ⟨nodes, rfl⟩ := exists_nodes_of_isNode hnodes
  obtain ⟨nodes', rfl⟩ := exists_nodes_of_isNode hnodes'
  rw [filterMap_node?_map] at h h'
  refine congrArg _ (h.eq_of_mem_iff h' fun n => ?_)
  simpa using hmem (.node n)

/-! ## Cutting a path in two -/

theorem fixPositions_append (literal : ExprId → Option Nat) (steps steps' : List Step) :
    fixPositions literal (steps ++ steps') = fixPositions literal steps ++ fixPositions literal steps' :=
  map_append

/-- What a path starts from does not depend on the program, unless it starts from an expression. -/
theorem PathPlan.StartsFrom.unique {plan' : PathPlan} {q q' : Program} {snap : Snapshot}
    (h : plan.StartsFrom q σ snap A) (h' : plan'.StartsFrom q' σ snap B) (hstart : plan.start = plan'.start)
    (hexpr : ∀ b, plan.start ≠ .expr b) : A = B := by
  unfold PathPlan.StartsFrom at h h'
  rw [← hstart] at h'
  cases hs : plan.start with
  | context =>
    rw [hs] at h h'
    obtain ⟨i, hi, rfl⟩ := h
    obtain ⟨i', hi', rfl⟩ := h'
    cases hi.symm.trans hi'
    rfl
  | root =>
    rw [hs] at h h'
    obtain ⟨n, hn, rfl⟩ := h
    obtain ⟨n', hn', rfl⟩ := h'
    cases hn.symm.trans hn'
    rfl
  | expr b => exact absurd hs (hexpr b)

/-- The context item, the root of its tree or the value of an expression is started from. -/
theorem PathPlan.StartsFrom.covers {q : Program} {snap : Snapshot} (h : plan.StartsFrom q σ snap ins)
    (hsnap : ∀ i, snap.item = some i → F.Covers i)
    (hexpr : ∀ b, plan.start = .expr b → ∀ g, q.Delivers σ b snap g → ∀ i ∈ g, F.Covers i) :
    ∀ i ∈ ins.flatten, F.Covers i := by
  unfold PathPlan.StartsFrom at h
  cases hs : plan.start with
  | context =>
    rw [hs] at h
    obtain ⟨i, hi, rfl⟩ := h
    simpa using hsnap i hi
  | root =>
    rw [hs] at h
    obtain ⟨n, hn, rfl⟩ := h
    have hroot : F.Covers (.node n.root) := (congrArg F.Has (Node.root_doc n)).mpr (hsnap _ hn)
    simpa using hroot
  | expr b =>
    rw [hs] at h
    exact hexpr b hs _ h.1.delivers

theorem SpellsStart.not_expr {At : ExprId → Form → List ExprId → Prop} {c : StaticContext} {start : Start}
    (hstart : ∀ x, start ≠ .expr x) (h : SpellsStart At c start s first) : ∀ b, s ≠ .expr b := by
  cases start with
  | expr x => exact absurd rfl (hstart x)
  | root | rootDescendant | relative =>
    rw [SpellsStart] at h
    rw [h.1]
    rintro _ ⟨⟩

theorem PathStart.Alike.eq {R : ExprId → ExprId → Prop} {s' : PathStart} (h : s.Alike R s')
    (hexpr : ∀ b, s ≠ .expr b) : s = s' := by
  cases h with
  | context | root => rfl
  | expr => exact absurd rfl (hexpr _)

section

variable {c : StaticContext} {q q' : Query} {start : Start} {before after : List PathStep} {snap : Snapshot}
  {items items' : List Item}

/-- Whether a path along axes is cut in two or not, it delivers the same nodes. -/
theorem mem_iff_of_delivers_append (hf : ∀ f, c.Callable f → f.KeepsReply ∧ f.Grows ∧ f.Honest)
    (hstart : ∀ x, start ≠ .expr x) (hbefore : before ≠ []) (hafter : after ≠ [])
    (haxes : ∀ s ∈ before ++ after, s.isAxis = true) (hq : compile c (.path (.expr (.path start before)) after) = .ok q)
    (hq' : compile c (.path start (before ++ after)) = .ok q') (hsnap : ∀ i, snap.item = some i → F.Covers i)
    (hexternal : ∀ i, c.settings.externals.length ≤ i → σ.get? i = none)
    (h : q.program.Delivers σ q.root snap items) (h' : q'.program.Delivers σ q'.root snap items') :
    (∀ i ∈ items, i.isNode = true) ∧ ∀ x, x ∈ items ↔ x ∈ items' := by
  obtain ⟨haxesBefore, haxesAfter⟩ := forall_mem_append.mp haxes
  obtain ⟨hcompiled, hreply, -, hr⟩ := reliable_of_compile hq hf
  obtain ⟨hcompiled', -, -, hr'⟩ := reliable_of_compile hq' hf
  obtain ⟨p, p', hlaid, hlaid', hpair⟩ :=
    companions_of_compile hq hq' (fun f h => ⟨(hf f h).1, (hf f h).2.1⟩) hexternal
  -- the three paths: the nested one, the one it starts from, and the whole
  obtain ⟨s, first, second, hs, hsecond, hform⟩ := hpair.left.path_form hafter hlaid.spells
  rw [SpellsStart] at hs
  obtain ⟨i, hinner, rfl, rfl⟩ := hs
  obtain ⟨s, first, steps, hs, hsteps, hform₀⟩ := hpair.left.path_form hbefore hinner
  obtain ⟨s', first', whole, hs', hwhole, hform'⟩ := hpair.right.path_form (by simp [hafter]) hlaid'.spells
  obtain ⟨steps', second', hsteps', hsecond', rfl⟩ := hwhole.exists_append
  obtain ⟨hsame, hfirst⟩ := hs.counterparts hs'
  obtain rfl := hsame.eq (hs.not_expr hstart)
  -- what they make of their groups
  have hplain := forall_mem_append.mpr ⟨hs.isPlain, hsteps.isPlain haxesBefore⟩
  have hplain' := forall_mem_append.mpr ⟨hs'.isPlain, hwhole.isPlain haxes⟩
  obtain ⟨ins', outs', hins', hturn', -, hmem'⟩ := hcompiled'.delivers_axes hpair.pure' hr' hreply .refl hplain'
    hform' (fun _ h => h.covers hsnap fun b hb => absurd hb (hs'.not_expr hstart b)) h'
  have hoccurs : q.program.Occurs q.root i := by
    refine .single ?_
    unfold Program.parts
    rw [hform]
    exact mem_append_left _ (mem_singleton_self i)
  have hinner : ∀ {found : List Item}, q.program.Delivers σ i snap found → ∃ ins outs, _ ∧ _ ∧ _ ∧ _ :=
    fun hfound => hcompiled.delivers_axes hpair.pure hr hreply hoccurs hplain hform₀
      (fun _ h => h.covers hsnap fun b hb => absurd hb (hs.not_expr hstart b)) hfound
  obtain ⟨ins, outs, hins, hturn, -, hmem⟩ := hcompiled.delivers_axes hpair.pure hr hreply .refl
    (hsecond.isPlain haxesAfter) hform (fun ins hins => by
      obtain ⟨-, -, -, -, hcovers, -⟩ := hinner hins.1.delivers
      exact hcovers) h
  obtain ⟨ins₀, outs₀, hins₀, hturn₀, -, hmem₀⟩ := hinner hins.1.delivers
  obtain rfl : ins₀ = ins' := hins₀.unique hins' rfl (hs.not_expr hstart)
  -- the whole, cut at the same place
  have hliteral := fun e e' (he : Counterparts p.At p'.At c e e') =>
    literalPosition_of_sketch (Counterparts.sketch_eq hpair.left hpair.right he)
  rw [← append_assoc, fixPositions_append] at hturn'
  obtain ⟨mid, hfirstPart, hsecondPart⟩ := turnAll_append_iff.mp hturn'
  have htwins := forall₂_fixPositions hliteral (rel_append hfirst (hsteps.counterparts hsteps'))
  obtain rfl : mid = outs₀ := ((hpair.turnAll_iff htwins).mpr hfirstPart).unique hpair.pure hturn₀
  replace hsecondPart := (hpair.turnAll_iff (forall₂_fixPositions hliteral (hsecond.counterparts hsecond'))).mpr
    hsecondPart
  have hplainAfter := hsecond.isPlain haxesAfter
  obtain ⟨a, test, rest, rfl⟩ := hsecond.exists_axis haxesAfter hafter
  refine ⟨fun x hx => hturn.isNode ?_ x ((hmem x).mp hx), fun x => ?_⟩
  · exact keeps_fixPositions (fun _ _ => rfl) fun s hs => hplainAfter s (.tail _ hs)
  · rw [hmem, hmem', hturn.mem_iff hpair.pure, hsecondPart.mem_iff hpair.pure]
    simp only [hmem₀]

end

/-- With repeats dropped, a path along axes and the path that starts from the first part of it and goes on with
the rest give the same nodes in the same order, whenever both are evaluated without an error. -/
theorem Query.evaluate_path_append {c : StaticContext} (hunique : c.settings.uniqueNodes = true)
    (hf : ∀ f, c.Callable f → f.KeepsReply ∧ f.Grows ∧ f.Honest) {trees : Nat → Option Fragment}
    (hcalls : ∀ f, c.Callable f → ∀ call, (f.body call).Sound (Forest.ofTrees trees).Covers) {start : Start}
    (hstart : ∀ x, start ≠ .expr x) {before after : List PathStep} (hbefore : before ≠ [])
    (hafter : after ≠ []) (haxes : ∀ s ∈ before ++ after, s.isAxis = true) {q q' : Query}
    (hq : compile c (.path (.expr (.path start before)) after) = .ok q)
    (hq' : compile c (.path start (before ++ after)) = .ok q')
    (hfocus : ∀ i, focus.item = some i → (Forest.ofTrees trees).Covers i)
    (hvalues : ∀ name items, values.lookup name = some items → ∀ i ∈ items, (Forest.ofTrees trees).Covers i)
    {fuel' : Nat} {items items' : List Item} (hrun : q.evaluate fuel focus values = some (.ok items))
    (hrun' : q'.evaluate fuel' focus values = some (.ok items')) : items = items' := by
  obtain ⟨hcompiled, hreply, hpure, -⟩ := reliable_of_compile hq hf
  obtain ⟨hcompiled', -, hpure', -⟩ := reliable_of_compile hq' hf
  obtain ⟨slots, left, hslots, hrun⟩ := exists_slots_of_evaluate hrun
  obtain ⟨slots', left', hslots', hrun'⟩ := exists_slots_of_evaluate hrun'
  -- both are evaluated where the variables have the same values
  have hdelivers := (hcompiled.evaluates_iff hpure hreply).mp ⟨_, _, hrun⟩
  have hdelivers' := (hcompiled'.evaluates_iff hpure' hreply).mp ⟨_, _, hrun'⟩
  rw [hcompiled.environment_of_createSlots hslots] at hdelivers
  rw [hcompiled'.environment_of_createSlots hslots'] at hdelivers'
  obtain ⟨hnodes, hmem⟩ :=
    mem_iff_of_delivers_append hf hstart hbefore hafter haxes hq hq' hfocus (c.get?_externalSlots values) hdelivers
      hdelivers'
  -- and both sort what they find
  obtain ⟨plan, hplan⟩ := exists_plan_of_compile hafter hq
  obtain ⟨plan', hplan'⟩ := exists_plan_of_compile (by simp [hafter]) hq'
  refine eq_of_increasing hnodes (fun i hi => hnodes i ((hmem i).mpr hi)) ?_ ?_ hmem
  · exact hcompiled.increasing hunique hcalls hplan hfocus (sound_of_createSlots hvalues hslots) hrun
  · exact hcompiled'.increasing hunique hcalls hplan' hfocus (sound_of_createSlots hvalues hslots') hrun'

/-- `descendant-or-self::node()` -/
def anywhere : List PathStep :=
  [.axis .descendantOrSelf (.kind .anyNode) []]

def layeredTrees (id : Nat) : Option Fragment :=
  if id = 0 then some .layered else none

theorem covers_layered (i : Item) (hi : some (.node (.rootOf (.build 0 .layered))) = some i) :
    (Forest.ofTrees layeredTrees).Covers i := by
  cases hi
  exact ⟨.layered, rfl, by decide, rfl⟩

/-- `child::*/ancestor::*[1]` -/
def parentsOfChildren : List PathStep :=
  [.axis .child .anyName [], .axis .ancestor .anyName [.literal (.integer 1)]]

/-- Two queries that both have a result, the first one of `n` items. -/
theorem exists_results_of_check {c : StaticContext} {x x' : Expr} {focus : Snapshot} {n : Nat}
    (hrun : ((compile c x).toOption.any fun q => (compile c x').toOption.any fun q' =>
      (q.evaluate 40 focus []).any (·.toOption.any fun items =>
        (q'.evaluate 40 focus []).any (·.toOption.any fun _ => items.length == n))) = true) :
    ∃ q q' items items', compile c x = .ok q ∧ compile c x' = .ok q' ∧ q.evaluate 40 focus [] = some (.ok items) ∧
      q'.evaluate 40 focus [] = some (.ok items') ∧ items.length = n := by
  obtain ⟨q, hq, hrun⟩ := exists_ok_of_check hrun
  obtain ⟨q', hq', hrun⟩ := exists_ok_of_check hrun
  obtain ⟨items, hitems, hrun⟩ := exists_some_ok_of_check hrun
  obtain ⟨items', hitems', hrun⟩ := exists_some_ok_of_check hrun
  exact ⟨q, q', items, items', hq, hq', hitems, hitems', beq_iff_eq.mp hrun⟩

/-- The path is cut within the steps that the whole path merges, and a node is found twice. -/
theorem Query.evaluate_path_append_layered :
    let focus : Snapshot := .single (some (.node (.rootOf (.build 0 .layered))))
    ∃ q q' items items',
      compile .standard (.path (.expr (.path .relative anywhere)) parentsOfChildren) = .ok q ∧
      compile .standard (.path .relative (anywhere ++ parentsOfChildren)) = .ok q' ∧
      q.evaluate 40 focus [] = some (.ok items) ∧ q'.evaluate 40 focus [] = some (.ok items') ∧
      items.length = 2 ∧ items = items' := by
  intro focus
  obtain ⟨q, q', items, items', hq, hq', hitems, hitems', hlength⟩ :=
    @exists_results_of_check .standard (.path (.expr (.path .relative anywhere)) parentsOfChildren)
      (.path .relative (anywhere ++ parentsOfChildren)) focus 2 (by cbv)
  refine ⟨q, q', items, items', hq, hq', hitems, hitems', hlength, ?_⟩
  have hstart : ∀ x, Start.relative ≠ .expr x := by rintro _ ⟨⟩
  have hbefore : anywhere ≠ [] := cons_ne_nil _ _
  have hafter : parentsOfChildren ≠ [] := cons_ne_nil _ _
  have haxes : ∀ s ∈ anywhere ++ parentsOfChildren, s.isAxis = true := by
    simp [anywhere, parentsOfChildren, PathStep.isAxis]
  exact evaluate_path_append rfl CoreFunction.standard_callable
    (fun _ => CoreFunction.standard_sound fun _ => trivial) hstart hbefore hafter haxes hq hq' covers_layered
    (by simp) hitems hitems'

end XPath
