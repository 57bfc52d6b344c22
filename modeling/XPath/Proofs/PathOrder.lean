import XPath.Proofs.CoreFunctions
import XPath.Proofs.Deliveries

/-!
# The order of path results

With repeats dropped, a path delivers nodes in document order and no node twice, whether its result is
sorted or not. It is left unsorted only where the steps keep the order of its start (`kept_chain`), and
what is known of the start holds: a single node, or a path or union, which is in order by itself
(`execute_kept`).
-/

namespace XPath

open List

variable {m : Calls} {s s' : Store} {items out : List Item} {focus : Focus} {plan : PathPlan} {d c₀ : Cursor}
  {Ok : Item → Prop} {i : Item} {e : ExprId} {q : Query}

theorem Calls.drain_cases (h : m.drain c s = some (.ok items, s')) :
    ∃ c', m.drainFrom m.fuel c [] s = some ((c', .ok items), s') := by
  obtain ⟨⟨c', r⟩, s₁, hread, h⟩ := Eval.of_bind h
  obtain ⟨rfl, rfl⟩ := Eval.of_liftM h
  exact ⟨c', Eval.of_lift hread⟩

theorem Calls.path_cases (h : m.path focus unique plan s = some (.ok c, s')) :
    ∃ start, c = (if plan.sort then .inOrder unique (chain true start plan.steps)
        else chain true start plan.steps) ∧
      ((∃ i, plan.start = .context ∧ focus.item? = some i ∧ start = .ofItem i ∧ s' = s) ∨
        (∃ n, plan.start = .root ∧ focus.item? = some (.node n) ∧ start = .ofItem (.node n.root) ∧ s' = s) ∨
        ∃ e c₁, plan.start = .expr e ∧ m.execute e focus s = some (.ok c₁, s') ∧
          start = if plan.startNodesOnly then .requireNodes c₁ else c₁) := by
  unfold Calls.path at h
  cases hs : plan.start with
  | context =>
    rw [hs] at h
    obtain ⟨i, s₁, hi, h⟩ := Eval.of_bind h
    obtain ⟨hi, hs₁⟩ := Eval.of_liftM hi
    cases h
    refine ⟨_, rfl, .inl ⟨i, rfl, ?_, rfl, hs₁⟩⟩
    unfold Focus.requireItem at hi
    split at hi
    · next hitem => cases hi; exact hitem
    · cases hi
  | root =>
    rw [hs] at h
    obtain ⟨r, s₁, hr, h⟩ := Eval.of_bind h
    obtain ⟨hr, hs₁⟩ := Eval.of_liftM hr
    cases h
    unfold Focus.root at hr
    split at hr
    · next n hitem =>
      cases hr
      exact ⟨_, rfl, .inr (.inl ⟨n, rfl, hitem, rfl, hs₁⟩)⟩
    · cases hr
    · cases hr
  | expr e =>
    rw [hs] at h
    obtain ⟨c₁, s₁, hc₁, h⟩ := Eval.of_bind h
    cases h
    exact ⟨_, rfl, .inr (.inr ⟨e, c₁, rfl, hc₁, rfl⟩)⟩

/-! ## What is known along a chain -/

/-- The nodes are in the documents of the forest. -/
def Forest.Covers (F : Forest) : Item → Prop
  | .node n => F.Has n.doc
  | .atomic _ => True

/-- What is known holds of the nodes that a cursor delivers. -/
def OrderFacts.Kept (p : Program) (F : Forest) (f : OrderFacts) (c₀ : Cursor) : Prop :=
  ∀ out c, Delivers p F.Covers c₀ out c → f.Holds F (out.filterMap Item.node?)

section

variable {p : Program} {F : Forest} {f : OrderFacts} {c : Cursor}

theorem filterMap_node?_map (nodes : List Node) : (nodes.map Item.node).filterMap Item.node? = nodes := by
  rw [filterMap_map]
  exact filterMap_some

theorem Sifted.holds (h : f.Kept p F c) (hd : Sifted p F.Covers c out d) : f.Holds F (out.filterMap Item.node?) := by
  obtain ⟨-, ins, hins, hsub⟩ := hd
  exact (h ins d hins).sublist (hsub.filterMap _)

section

variable (h : Closed p F.Covers)

include h

theorem Underway.holds (hc : c.Intact p F.Covers) (hf : f.Kept p F c)
 (hd : Underway p F.Covers axis kind c nodes d walk) (test : Option NodeTest) :
    (f.after (.axis axis test)).Holds F nodes := by
  obtain ⟨origins, horigins, hgroups⟩ := hd.groups
  have hholds := hf _ _ horigins
  rw [filterMap_node?_map] at hholds
  refine OrderFacts.holds_after ?_ hholds hgroups test
  intro n hn
  exact (horigins.intact h hc).2 _ (mem_map_of_mem hn)

theorem kept_after (hc : c.Intact p F.Covers) (hf : f.Kept p F c)
    (step : Step) : (f.after step).Kept p F (Calls.instantiate true c step) := by
  intro out c' hout
  cases step with
  | axis axis test =>
    obtain ⟨nodes, d, walk, _, _, rfl, rfl, hunder⟩ := delivers_along h hc hout
    rw [filterMap_node?_map]
    exact hunder.holds h hc hf test
  | descent tests =>
    obtain ⟨nodes, d, walk, _, _, rfl, rfl, hunder⟩ := delivers_descending h hc hout
    rw [filterMap_node?_map]
    exact hunder.holds h hc hf none
  | position k =>
    obtain ⟨d, -, hsifted⟩ := hout.sifted h .nth hc
    exact hsifted.holds hf
  | predicate e =>
    obtain ⟨d, -, hsifted⟩ := hout.sifted h .predicate hc
    exact hsifted.holds hf
  | expr e nodesOnly => exact OrderFacts.holds_nothing _

theorem kept_chain (steps : List Step) : ∀ {f : OrderFacts} {c : Cursor}, c.Intact p F.Covers → f.Kept p F c →
      (steps.foldl OrderFacts.after f).Kept p F (Calls.chain true c steps) := by
  induction steps with
  | nil => exact fun _ hf => hf
  | cons step steps ih =>
    intro f c hc hf
    exact ih (Alike.instantiate (fun _ _ _ _ => rfl) Envs.level_none hc (.refl (fun _ => rfl) step))
      (kept_after h hc hf step)

end

/-! ## Starts and sorted results -/

theorem delivers_ofItems {all : List Item} (h : Delivers p Ok (.ofItems all) out c) :
    ∃ rest cur pos fin, c = .items all rest cur pos fin ∧ out ++ rest = all := by
  induction h with
  | start => exact ⟨all, _, _, _, rfl, rfl⟩
  | @pull out c c' s s' n _ sound run ih =>
    obtain ⟨rest, cur, pos, fin, rfl, hall⟩ := ih
    cases n with
    | zero => cases run
    | succ n =>
      cases rest with
      | nil => cases run
      | cons item rest =>
        cases run
        refine ⟨rest, _, _, _, rfl, ?_⟩
        rw [← hall]
        simp [Cursor.current]

theorem kept_ofItem (item : Item) : OrderFacts.Kept p F ⟨true, true, true⟩ (.ofItem item) := by
  intro out c hout
  obtain ⟨rest, _, _, _, -, hall⟩ := delivers_ofItems hout
  have hsub : out.Sublist [item] := hall ▸ sublist_append_left out rest
  have hnodes := hsub.filterMap Item.node?
  have hpair : ∀ R : Node → Node → Prop, (out.filterMap Item.node?).Pairwise R := by
    intro R
    refine List.Pairwise.sublist hnodes ?_
    cases item with
    | node n => exact pairwise_singleton R n
    | atomic a => exact .nil
  exact ⟨fun _ => hpair _, fun _ => hpair _, fun _ => hpair _⟩

/-- In order, and nothing else is known. -/
theorem kept_of_pairwise (h : ∀ out c', Delivers p F.Covers c out c' →
      (out.filterMap Item.node?).Pairwise fun a b => a.compare b = .lt) :
    OrderFacts.Kept p F ⟨true, false, false⟩ c :=
  fun out c' hout => OrderFacts.holds_of_ordered (h out c' hout)

theorem kept_sorted (nodes : List Node) :
    OrderFacts.Kept p F ⟨true, false, false⟩ (.ofItems ((inDocumentOrder true nodes).map .node)) := by
  refine kept_of_pairwise ?_
  intro out c' hout
  obtain ⟨rest, _, _, _, -, hall⟩ := delivers_ofItems hout
  have hsub : out.Sublist ((inDocumentOrder true nodes).map .node) :=
    hall ▸ sublist_append_left out rest
  have hnodes := hsub.filterMap Item.node?
  rw [filterMap_node?_map] at hnodes
  exact (pairwise_inDocumentOrder nodes).sublist hnodes

/-- The atomic values that are gathered are atomic values. -/
theorem gather_atomics : ∀ {fuel : Nat} {c : Cursor} {nodes : List Node} {atomics : List Item} {s s' : Store}
      {r : List Node × List Item}, atomics.filterMap Item.node? = [] →
      m.gather fuel c nodes atomics s = some (.ok r, s') → r.2.filterMap Item.node? = [] := by
  intro fuel
  induction fuel with
  | zero =>
    intro c nodes atomics s s' r _ hrun
    cases hrun
  | succ fuel ih =>
    intro c nodes atomics s s' r hatomics hrun
    obtain ⟨⟨d, x⟩, s₁, hpull, hrun⟩ := Eval.of_bind hrun
    obtain ⟨b, s₂, hb, hrun⟩ := Eval.of_bind hrun
    cases b with
    | false =>
      cases hrun
      exact hatomics
    | true =>
      rw [if_pos rfl] at hrun
      split at hrun
      · refine ih ?_ hrun
        rw [filterMap_append, hatomics, append_nil]
        match d.current with
        | none | some (.node n) | some (.atomic a) => rfl
      · cases hrun

/-- The items of an ordered cursor are nodes in order, or no nodes at all. -/
theorem arrange_pairwise (h : m.arrange true c s = some (.ok items, s')) :
    (items.filterMap Item.node?).Pairwise fun a b => a.compare b = .lt := by
  obtain ⟨⟨nodes, atomics⟩, s₁, hgather, h⟩ := Eval.of_bind h
  have hatomics := gather_atomics rfl hgather
  dsimp only at h
  split at h
  · cases h
    rw [filterMap_node?_map]
    exact pairwise_inDocumentOrder _
  · cases h
    rw [filterMap_reverse, hatomics]
    exact .nil

theorem delivers_inOrder (h : Delivers p Ok (.inOrder true c₀) out c) : (out = [] ∧ c = .inOrder true c₀) ∨
      ∃ all rest cur pos fin, c = .ordered true (.sorted all rest) cur pos fin ∧ out ++ rest = all ∧
        (all.filterMap Item.node?).Pairwise fun a b => a.compare b = .lt := by
  induction h with
  | start => exact .inl ⟨rfl, rfl⟩
  | @pull out c c' s s' n _ sound run ih =>
    refine .inr ?_
    cases n with
    | zero => cases run
    | succ n =>
      rcases ih with ⟨rfl, rfl⟩ | ⟨all, rest, cur, pos, fin, rfl, hall, hpair⟩
      · obtain ⟨r, s₁, hr, hrun⟩ := Run.of_bind run
        match r with
        | .error e | .ok [] => cases hrun
        | .ok (item :: rest) =>
          cases hrun
          exact ⟨_, rest, _, _, _, rfl, rfl, arrange_pairwise hr⟩
      · cases fin with
        | true => cases run
        | false =>
          cases rest with
          | nil => cases run
          | cons item rest =>
            cases run
            refine ⟨all, rest, _, _, _, rfl, ?_, hpair⟩
            rw [← hall]
            simp [Cursor.current]

theorem kept_inOrder (c : Cursor) : OrderFacts.Kept p F ⟨true, false, false⟩ (.inOrder true c) := by
  refine kept_of_pairwise ?_
  intro out c' hout
  rcases delivers_inOrder hout with ⟨rfl, -⟩ | ⟨all, rest, _, _, _, -, hall, hpair⟩
  · exact .nil
  · have hsub : out.Sublist all := hall ▸ sublist_append_left out rest
    exact hpair.sublist (hsub.filterMap _)

/-! ## Paths -/

/-- The plans of all paths have been decided, and repeats are dropped. -/
structure Program.Sorting (p : Program) : Prop where
  unique : p.static.settings.uniqueNodes = true
  decided : ∀ e plan, p.form? e = some (.path plan) → plan.Decided p

theorem Focus.Intact.item (hfocus : focus.Intact p F.Covers) (hi : focus.item? = some i) : F.Covers i := by
  cases focus with
  | fixed snap => exact hfocus i hi
  | current c => exact hfocus.sound i hi

theorem intact_ofItem (hi : F.Covers i) : (Cursor.ofItem i).Intact p F.Covers := by
  refine .plain (.items fun j hj => ?_)
  rw [mem_singleton.mp hj]
  exact hi

theorem kept_requireNodes (h : Closed p F.Covers) (hc : c.Intact p F.Covers) (hf : f.Kept p F c) :
    f.Kept p F (.requireNodes c) := by
  intro out c' hout
  obtain ⟨d, -, hsifted⟩ := hout.sifted h .nodesOnly hc
  exact hsifted.holds hf

/-- A path or a union delivers nodes in order. -/
theorem execute_kept (h : Closed p F.Covers) (hp : p.Sorting) :
    ∀ {n : Nat} {e : ExprId} {form : Form} {focus : Focus} {s s' : Store} {c : Cursor},
      p.form? e = some form → form.startsOrdered = true → focus.Intact p F.Covers →
      s.slots.Sound F.Covers → (machine n p).execute e focus s = some (.ok c, s') →
      OrderFacts.Kept p F ⟨true, false, false⟩ c := by
  intro n
  induction n with
  | zero =>
    intro e form focus s s' c _ _ _ _ hrun
    cases hrun
  | succ n ih =>
    intro e form focus s s' c hform hstarts hfocus hs hrun
    change (machine n p).perform p e focus s = some (.ok c, s') at hrun
    unfold Calls.perform at hrun
    rw [hform] at hrun
    cases form with
    | union =>
      obtain ⟨nodes, s₁, -, hrun⟩ := Eval.of_bind hrun
      cases hrun
      exact kept_sorted nodes
    | path plan =>
      obtain ⟨start, rfl, hstart⟩ := Calls.path_cases hrun
      rw [hp.unique]
      cases hsort : plan.sort with
      | true => exact kept_inOrder _
      | false =>
        -- Left unsorted, so the steps keep what is known of the start.
        have hknown : start.Intact p F.Covers ∧ (p.startFacts plan.start).Kept p F start := by
          rcases hstart with ⟨i, hplan, hi, rfl, -⟩ | ⟨r, hplan, hr, rfl, -⟩ | ⟨x, c₁, hplan, hexec, rfl⟩
          · rw [hplan]
            exact ⟨intact_ofItem (hfocus.item hi), kept_ofItem i⟩
          · rw [hplan]
            have hroot : F.Covers (.node r.root) :=
              h.docWise r r.root (Node.root_doc r).symm (hfocus.item hr)
            exact ⟨intact_ofItem hroot, kept_ofItem _⟩
          · have hc₁ : c₁.Intact p F.Covers := (XPath.Intact.execute h hfocus hs hexec).1
            have hkept : (p.startFacts plan.start).Kept p F c₁ := by
              rw [hplan, p.startFacts_expr]
              split
              · next hordered =>
                obtain ⟨form, hform, hstarts⟩ := Option.map_eq_some_iff.mp hordered
                exact ih hform hstarts hfocus hs hexec
              · exact fun _ _ _ => OrderFacts.holds_nothing _
            cases plan.startNodesOnly with
            | true => exact ⟨.stage .nodesOnly _ trivial hc₁, kept_requireNodes h hc₁ hkept⟩
            | false => exact ⟨hc₁, hkept⟩
        have hchain := kept_chain h plan.steps hknown.1 hknown.2
        refine kept_of_pairwise ?_
        intro out c' hout
        exact (hchain out c' hout).ordered (hp.decided e plan hform hsort)
    | _ => cases hstarts

/-- What a drain reads, the cursor delivers. -/
theorem delivers_of_drainFrom {m : Nat} :
    ∀ {fuel : Nat} {c c' : Cursor} {out items : List Item} {s s' : Store}, Closed p F.Covers →
      c₀.Intact p F.Covers → Delivers p F.Covers c₀ out c → s.slots.Sound F.Covers →
      (machine m p).drainFrom fuel c out.reverse s = some ((c', .ok items), s') →
      ∃ d, Delivers p F.Covers c₀ items d := by
  intro fuel
  induction fuel with
  | zero =>
    intro c c' out items s s' _ _ _ _ hrun
    cases hrun
  | succ fuel ih =>
    intro c c' out items s s' h hc₀ hout hs hrun
    obtain ⟨⟨d, r⟩, s₁, hpull, hrun⟩ := Run.of_bind hrun
    match r with
    | .error e => cases hrun
    | .ok false =>
      cases hrun
      rw [reverse_reverse]
      exact ⟨c, hout⟩
    | .ok true =>
      obtain ⟨⟨-, hs₁⟩, -⟩ := XPath.Intact.next h ⟨(hout.intact h hc₀).1, hs⟩ hpull
      have hacc : d.current.toList ++ out.reverse = (out ++ d.current.toList).reverse := by
        rw [reverse_append]
        cases d.current <;> rfl
      dsimp only at hrun
      rw [hacc] at hrun
      exact ih h hc₀ (.pull hout hs hpull) hs₁ hrun

/-- What a path or a union is drained to is in order. -/
theorem increasing_of_drain (h : Closed p F.Covers) (hp : p.Sorting) {n m : Nat}
    (hform : p.form? e = some form) (hordered : form.startsOrdered = true) (hfocus : focus.Intact p F.Covers)
    (hs : s.slots.Sound F.Covers) (hrun : (machine n p).execute e focus s = some (.ok c, t))
    (hdrain : (machine m p).drain c t = some (.ok items, t')) :
    (items.filterMap Item.node?).Pairwise fun a b => a.compare b = .lt := by
  obtain ⟨hc, ht⟩ := XPath.Intact.execute h hfocus hs hrun
  obtain ⟨c', hread⟩ := Calls.drain_cases hdrain
  obtain ⟨d, hdelivers⟩ := delivers_of_drainFrom h hc .start ht hread
  exact (execute_kept h hp hform hordered hfocus hs hrun items d hdelivers).ordered rfl

end

/-! ## Compiled paths -/

/-- The documents of given trees, by number. -/
noncomputable def Forest.ofTrees (trees : Nat → Option Fragment) : Forest where
  Has d := ∃ f, trees d.id = some f ∧ f.isProper = true ∧ d = .build d.id f
  stop d :=
    have := Classical.dec (∃ stop, Arena d stop)
    if h : ∃ stop, Arena d stop then h.choose else fun _ => 0
  arena := by
    rintro d ⟨f, -, hf, hd⟩
    have harena : ∃ stop, Arena d stop := hd ▸ Document.exists_arena_build d.id hf
    rw [dif_pos harena]
    exact harena.choose_spec
  ids := by
    rintro d e ⟨f, hf, -, hd⟩ ⟨g, hg, -, he⟩ hid
    rw [hid, hg] at hf
    cases hf
    rw [hd, he, hid]

/-- Only nodes of the forest occur in a run whose functions keep to it. -/
theorem Compiled.closed_covers {F : Forest} (h : Compiled c q)
    (hcalls : ∀ f, c.Callable f → ∀ call, (f.body call).Sound F.Covers) : Closed q.program F.Covers := by
  refine ⟨fun _ => trivial, ?_, ?_⟩
  · intro a b hdoc ha
    change F.Has b.doc
    exact hdoc ▸ ha
  · intro e name f hform
    have hcallable : q.program.static.Callable f := h.filled e _ hform
    rw [h.static] at hcallable
    exact hcalls f hcallable

/-- With repeats dropped, the nodes that a path gives are in document order, and none is given twice. The
path may be any one of a compiled expression, and it is evaluated on trees and slots of any kind. -/
theorem Query.evaluateOn_path_increasing {c : StaticContext} {x : Expr} (hq : compile c x = .ok q)
    (hunique : c.settings.uniqueNodes = true) {trees : Nat → Option Fragment}
    (hcalls : ∀ f, c.Callable f → ∀ call, (f.body call).Sound (Forest.ofTrees trees).Covers)
    (hpath : q.program.form? e = some (.path plan)) {focus : Snapshot}
    (hfocus : ∀ i, focus.item = some i → (Forest.ofTrees trees).Covers i) {slots left : Slots}
    (hslots : slots.Sound (Forest.ofTrees trees).Covers) {fuel : Nat}
    (hrun : q.program.evaluateOn fuel e focus slots = some (.ok items, left)) :
    (items.filterMap Item.node?).Pairwise fun a b => a.compare b = .lt := by
  have hcompiled := compiled_of_compile hq
  have hsorting : q.program.Sorting := by
    refine ⟨by rw [hcompiled.static]; exact hunique, ?_⟩
    exact fun e plan hform => (hcompiled.filled e _ hform).1
  have hclosed := hcompiled.closed_covers hcalls
  obtain ⟨⟨r, s₂⟩, hrun, hr⟩ := Option.map_eq_some_iff.mp hrun
  obtain ⟨rfl, -⟩ := Prod.mk.inj hr
  obtain ⟨c₀, s₁, hexec, hdrain⟩ := Eval.of_bind hrun
  have hfixed : (Focus.fixed focus).Intact q.program (Forest.ofTrees trees).Covers := hfocus
  obtain ⟨hc₀, hs₁⟩ := XPath.Intact.execute hclosed hfixed hslots hexec
  obtain ⟨c', hread⟩ := Calls.drain_cases hdrain
  obtain ⟨d, hdelivers⟩ := delivers_of_drainFrom hclosed hc₀ .start hs₁ hread
  exact (execute_kept hclosed hsorting hpath rfl hfixed hslots hexec items d hdelivers).ordered rfl

/-- `<r><b x="1" y="2"/><c z="3"/></r>` -/
def Fragment.attributed : Fragment :=
  let written (name : String) : QName := ⟨none, name, none⟩
  .element (written "r") [] []
    [.element (written "b") [] [⟨written "x", "1"⟩, ⟨written "y", "2"⟩] [],
      .element (written "c") [] [⟨written "z", "3"⟩] []]

/-- `(child::*)/@*[position() = last()]`, a path in a path. -/
def lastAttributes : Expr :=
  let atLast : Expr :=
    .binary (.compare .general .eq) (.call (.unprefixed "position") []) (.call (.unprefixed "last") [])
  .path (.expr (.path .relative [.axis .child .anyName []])) [.axis .attribute .anyName [atLast]]

def Query.findsUnsorted (q : Query) (focus : Snapshot) : Bool :=
  match q.program.form? q.root, q.program.evaluateOn 40 q.root focus (.ofSize 0) with
  | some (.path plan), some (.ok items, _) => !plan.sort && (items.filterMap Item.node?).length == 2
  | _, _ => false

/-- A path that is left unsorted, since its start is in order. -/
theorem Query.evaluateOn_lastAttributes :
    ∃ q plan items left, compile .standard lastAttributes = .ok q ∧
      q.program.form? q.root = some (.path plan) ∧ plan.sort = false ∧
      q.program.evaluateOn 40 q.root (.single (some (.node (.rootOf (.build 0 .attributed)))))
        (.ofSize 0) = some (.ok items, left) ∧
      (items.filterMap Item.node?).length = 2 ∧
      (items.filterMap Item.node?).Pairwise fun a b => a.compare b = .lt := by
  let focus : Snapshot := .single (some (.node (.rootOf (.build 0 .attributed))))
  have hrun : ((compile .standard lastAttributes).toOption.any (·.findsUnsorted focus)) = true := by decide +kernel
  obtain ⟨q, hq, hrun⟩ := exists_ok_of_check hrun
  unfold findsUnsorted at hrun
  split at hrun
  · next plan items left hplan hitems =>
    simp only [Bool.and_eq_true, Bool.not_eq_true', beq_iff_eq] at hrun
    refine ⟨q, plan, items, left, hq, hplan, hrun.1, hitems, hrun.2, ?_⟩
    let trees : Nat → Option Fragment := fun id => if id = 0 then some .attributed else none
    have hcalls : ∀ f, StaticContext.standard.Callable f → ∀ call,
        (f.body call).Sound (Forest.ofTrees trees).Covers :=
      fun f hf => CoreFunction.standard_sound (fun _ => trivial) hf
    refine evaluateOn_path_increasing hq rfl hcalls hplan ?_ ?_ hitems
    · intro i hi
      cases hi
      exact ⟨.attributed, rfl, by decide, rfl⟩
    · intro k items hk
      cases hk
  · cases hrun

end XPath
