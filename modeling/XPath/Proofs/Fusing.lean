import Mathlib.Data.List.Perm.Basic
import XPath.Proofs.Descents
import XPath.Proofs.Drains
import XPath.Proofs.PositionNumbers

/-!
# Shortened chains

A literal position leaves of a group what the position filter leaves of it, so putting position filters in
does not change what a chain delivers (`turnAll_fixPositions_iff`). A merged run delivers the nodes of the
steps it stands for in another order and in other groups. A step that takes its items one by one turns them
into the same groups, in another order, and from there on every step treats each group by itself; so the
shortened chain delivers the same items, in some order (`Merges.agree`).
-/

namespace XPath

open List

variable {p : Program} {σ : Slots} {F : Forest} {e : ExprId} {steps steps' rest : List Step}
  {A B ins mid outs : List (List Item)} {sel : Selection} {V : Snapshot → Except Error Selection → Prop}
  {n k : Nat} {size : Except Error Nat} {items g : List Item} {nodes : List Node}
  {R : Node → List Node → Prop} {A' groups : List (List Item)} {step s : Step} {run : List (Option NodeTest)}
  {literal : ExprId → Option Nat}

/-! ## Literal positions -/

theorem Program.decides_literal {a : AtomicValue} {snap : Snapshot} (hform : p.form? e = some (.literal a))
    (hsel : Selection.ofItems [.atomic a] = .ok sel) : p.Decides σ e snap (.ok sel) := by
  have hexecute : (lexicalMachine 5 p).execute e (.fixed snap) (.ofSlots σ) =
      some (.ok (.ofAtomic a), .ofSlots σ) := by
    change (lexicalMachine 4 p).perform p e (.fixed snap) (.ofSlots σ) = _
    unfold Calls.perform
    rw [hform]
    rfl
  have htwo : (lexicalMachine 5 p).firstTwo (.ofAtomic a) (.ofSlots σ) = some (.ok [.atomic a], .ofSlots σ) := rfl
  refine ⟨5, .ofSlots σ, ?_⟩
  unfold Calls.select
  rw [Eval.bind_of_ok hexecute, Eval.bind_of_ok htwo, hsel]
  rfl

/-- A selection that accepts one position leaves of a group the item there. -/
theorem leavesOf_position_iff {bound : Nat} (hV : ∀ snap x, V snap x ↔ x = .ok sel)
    (hsel : ∀ k, 0 < k → k < bound → sel.accepts k = (k == n)) :
    ∀ {g left : List Item} {k : Nat}, 0 < k → k + g.length ≤ bound →
      (LeavesOf V size k g left (.ok ()) ↔ left = (if k ≤ n then g[n - k]? else none).toList) := by
  intro g
  induction g with
  | nil =>
    intro left k hk hbound
    rw [getElem?_nil, ite_self]
    constructor
    · intro h
      cases h
      rfl
    · rintro rfl
      exact .done
  | cons i g ih =>
    intro left k hk hbound
    rw [length_cons] at hbound
    have haccepts := hsel k hk (by omega)
    have hrest := fun left => @ih left (k + 1) (Nat.succ_pos k) (by omega)
    by_cases hkn : k = n
    · subst hkn
      rw [if_pos .refl, Nat.sub_self, getElem?_cons_zero]
      rw [beq_self_eq_true] at haccepts
      have hnone : ∀ left, LeavesOf V size (k + 1) g left (.ok ()) ↔ left = [] := fun left => by
        rw [hrest, if_neg (Nat.not_succ_le_self k)]
        rfl
      constructor
      · intro h
        cases h with
        | kept h accepts rest => rw [(hnone _).mp rest]; rfl
        | dropped h accepts rest =>
          cases (hV _ _).mp h
          rw [haccepts] at accepts
          cases accepts
      · rintro rfl
        exact .kept ((hV _ _).mpr rfl) haccepts ((hnone []).mpr rfl)
    · rw [beq_eq_false_iff_ne.mpr hkn] at haccepts
      have hsame : (if k ≤ n then (i :: g)[n - k]? else none) = if k + 1 ≤ n then g[n - (k + 1)]? else none := by
        by_cases hle : k ≤ n
        · have hlt : k + 1 ≤ n := by omega
          rw [if_pos hle, if_pos hlt, show n - k = (n - (k + 1)) + 1 by omega, getElem?_cons_succ]
        · rw [if_neg hle, if_neg (by omega)]
      rw [hsame, ← hrest]
      constructor
      · intro h
        cases h with
        | kept h accepts rest =>
          cases (hV _ _).mp h
          rw [haccepts] at accepts
          cases accepts
        | dropped h accepts rest => exact rest
      · exact fun h => .dropped ((hV _ _).mpr rfl) haccepts h

theorem present_ordinal (k : Nat) (groups : List (List Item)) :
    present (groups.map fun g => (ordinal g k).toList) = (groups.filterMap (ordinal · k)).map ([·]) := by
  induction groups with
  | nil => rfl
  | cons g groups ih =>
    rw [map_cons, filterMap_cons]
    cases hg : ordinal g k with
    | none => exact ih
    | some i => exact congrArg ([i] :: ·) ih

theorem forall₂_iff_eq_map {α β : Type} {R : α → β → Prop} {f : α → β} {l : List α} {u : List β}
    (h : ∀ a ∈ l, ∀ b, R a b ↔ b = f a) : List.Forall₂ R l u ↔ u = l.map f := by
  induction l generalizing u with
  | nil => exact forall₂_nil_left_iff
  | cons a l ih =>
    obtain ⟨ha, hl⟩ := forall_mem_cons.mp h
    constructor
    · rintro (_ | ⟨hb, hrest⟩)
      rw [(ha _).mp hb, (ih hl).mp hrest, map_cons]
    · rintro rfl
      exact .cons ((ha _).mpr rfl) ((ih hl).mpr rfl)

/-- A literal position and the position filter leave the same. -/
theorem turns_literalPosition_iff (hp : p.Pure) (h : p.literalPosition e = some n)
    (hsmall : ∀ g ∈ ins, g.length < 2 ^ 53) :
    (Step.predicate e).Turns p σ ins outs ↔ (Step.position n).Turns p σ ins outs := by
  obtain ⟨a, sel, hform, hsel, haccepts⟩ := p.accepts_of_literalPosition h
  have hV : ∀ snap x, p.Decides σ e snap x ↔ x = .ok sel := fun snap x =>
    ⟨fun h => h.unique hp (Program.decides_literal hform hsel),
      fun h => h ▸ Program.decides_literal hform hsel⟩
  have hleft : ∀ g ∈ ins, ∀ left,
      LeavesOf (p.Decides σ e) (.ok g.length) 1 g left (.ok ()) ↔ left = (ordinal g n).toList := by
    intro g hg left
    have hlength := hsmall g hg
    rw [leavesOf_position_iff hV haccepts Nat.one_pos (by omega)]
    cases n with
    | zero => rfl
    | succ n => rw [if_pos (Nat.le_add_left 1 n)]; rfl
  have hlefts : ∀ lefts, List.Forall₂ (fun g left => LeavesOf (p.Decides σ e) (.ok g.length) 1 g left (.ok ()))
      ins lefts ↔ lefts = ins.map fun g => (ordinal g n).toList :=
    fun lefts => forall₂_iff_eq_map hleft
  unfold Step.Turns
  constructor
  · rintro ⟨lefts, h, rfl⟩
    rw [(hlefts lefts).mp h, present_ordinal]
  · intro h
    exact ⟨_, (hlefts _).mpr rfl, h.trans (present_ordinal n ins).symm⟩

/-- Literal positions may be put in place of predicates, as long as positions can be told apart. -/
theorem turnAll_fixPositions_iff (hp : p.Pure)
    (hsmall : ∀ pre mid, pre <+: steps → TurnAll p σ pre ins mid → ∀ g ∈ mid, g.length < 2 ^ 53) :
    TurnAll p σ steps ins outs ↔ TurnAll p σ (fixPositions p.literalPosition steps) ins outs := by
  induction steps generalizing ins with
  | nil => exact Iff.rfl
  | cons step steps ih =>
    have hrest : ∀ mid, step.Turns p σ ins mid →
        (TurnAll p σ steps mid outs ↔ TurnAll p σ (fixPositions p.literalPosition steps) mid outs) :=
      fun mid hmid => ih fun pre mid' hpre h =>
        hsmall (step :: pre) mid' (cons_prefix_cons.mpr ⟨rfl, hpre⟩) (.cons hmid h)
    have hcons : ∀ step' : Step, (∀ mid, step.Turns p σ ins mid ↔ step'.Turns p σ ins mid) →
        (TurnAll p σ (step :: steps) ins outs ↔
          TurnAll p σ (step' :: fixPositions p.literalPosition steps) ins outs) := by
      intro step' hfirst
      constructor
      · rintro (_ | ⟨hmid, h⟩)
        exact .cons ((hfirst _).mp hmid) ((hrest _ hmid).mp h)
      · rintro (_ | ⟨hmid, h⟩)
        have hmid' := (hfirst _).mpr hmid
        exact .cons hmid' ((hrest _ hmid').mpr h)
    cases step with
    | predicate e =>
      refine hcons ((p.literalPosition e).elim (.predicate e) .position) fun mid => ?_
      cases hliteral : p.literalPosition e with
      | none => rfl
      | some n => exact turns_literalPosition_iff hp hliteral (hsmall [] ins nil_prefix .nil)
    | _ => exact hcons _ fun mid => Iff.rfl

/-! ## Groups in another order -/

theorem exists_nodes_of_isNode (h : ∀ i ∈ items, i.isNode = true) : ∃ nodes : List Node, items = nodes.map .node := by
  induction items with
  | nil => exact ⟨[], rfl⟩
  | cons i items ih =>
    obtain ⟨hi, h⟩ := forall_mem_cons.mp h
    obtain ⟨nodes, rfl⟩ := ih h
    match i, hi with
    | .node n, _ => exact ⟨n :: nodes, rfl⟩

theorem exists_nodes_of_perm {items' : List Item} (h : items.Perm items') (hnodes : items = nodes.map .node) :
    ∃ nodes', items' = nodes'.map .node ∧ nodes.Perm nodes' := by
  have hall : List.Forall₂ (fun i n => i = Item.node n) items nodes := by
    rw [← forall₂_map_right_iff, hnodes]
    exact forall₂_refl _
  obtain ⟨nodes', hall', hperm⟩ := perm_comp_forall₂ h.symm hall
  rw [← forall₂_map_right_iff, forall₂_eq_eq_eq] at hall'
  exact ⟨nodes', hall', hperm.symm⟩

theorem FansOut.perm (h : FansOut R A A') (hAB : A.flatten.Perm B.flatten) : ∃ B', FansOut R B B' ∧ A'.Perm B' := by
  obtain ⟨nodes, groups, hnodes, hgroups, rfl⟩ := h
  obtain ⟨nodes', hnodes', hperm⟩ := exists_nodes_of_perm hAB hnodes
  obtain ⟨groups', hgroups', hperm'⟩ := perm_comp_forall₂ hperm.symm hgroups
  exact ⟨_, ⟨nodes', groups', hnodes', hgroups', rfl⟩, (hperm'.symm.map _).filter _⟩

/-- Every step treats the groups before it one by one. -/
theorem Step.Turns.perm (h : step.Turns p σ A A') (hAB : A.Perm B) : ∃ B', step.Turns p σ B B' ∧ A'.Perm B' := by
  cases step with
  | axis a test | descent tests => exact FansOut.perm h hAB.flatten
  | position k =>
    obtain rfl := h
    exact ⟨_, rfl, (hAB.filterMap _).map _⟩
  | predicate e =>
    obtain ⟨lefts, hlefts, rfl⟩ := h
    obtain ⟨lefts', hlefts', hperm⟩ := perm_comp_forall₂ hAB.symm hlefts
    exact ⟨_, ⟨lefts', hlefts', rfl⟩, hperm.symm.filter _⟩
  | expr e nodesOnly =>
    obtain ⟨groups, hgroups, rfl, hnodes⟩ := h
    obtain ⟨groups', hgroups', hperm⟩ := perm_comp_forall₂ (hAB.symm.flatMap_right fociOf) hgroups
    have hpresent := hperm.symm.filter fun g => !g.isEmpty
    exact ⟨_, ⟨groups', hgroups', rfl, fun h g hg => hnodes h g (hpresent.mem_iff.mpr hg)⟩, hpresent⟩

/-- The value of the expression depends on the item of the focus and not on where it stands. -/
def Program.Unplaced (p : Program) (σ : Slots) (e : ExprId) : Prop :=
  ∀ {snap snap' : Snapshot} {g : List Item}, snap.item = snap'.item → p.Delivers σ e snap g →
    p.Delivers σ e snap' g

/-- The step takes its items one by one, whatever groups they are in. -/
def Step.Scatters (p : Program) (σ : Slots) : Step → Prop
  | .axis _ _ | .descent _ => True
  | .position _ | .predicate _ => False
  | .expr e _ => p.Unplaced σ e

theorem map_item_fociOf (groups : List (List Item)) :
    (groups.flatMap fociOf).map Snapshot.item = groups.flatten.map some := by
  induction groups with
  | nil => rfl
  | cons g groups ih =>
    have hg : (fociOf g).map Snapshot.item = g.map some := by
      rw [fociOf, map_map]
      change map (some ∘ Prod.fst) _ = _
      rw [← map_map, zipIdx_map_fst]
    rw [flatMap_cons, map_append, hg, ih, flatten_cons, map_append]

/-- An expression that does not ask where its item stands computes a group for every item. -/
theorem Program.Unplaced.forall₂_iff (h : p.Unplaced σ e) {outs : List (List Item)} :
    List.Forall₂ (p.Delivers σ e) (groups.flatMap fociOf) outs ↔
      List.Forall₂ (fun i g => ∀ snap : Snapshot, snap.item = some i → p.Delivers σ e snap g) groups.flatten
        outs := by
  have hitem : List.Forall₂ (p.Delivers σ e) (groups.flatMap fociOf) outs ↔
      List.Forall₂ (fun i g => ∀ snap : Snapshot, snap.item = i → p.Delivers σ e snap g)
        ((groups.flatMap fociOf).map Snapshot.item) outs := by
    rw [forall₂_map_left_iff]
    have hiff : ∀ snap g, p.Delivers σ e snap g ↔
        ∀ snap' : Snapshot, snap'.item = snap.item → p.Delivers σ e snap' g :=
      fun snap g => ⟨fun hg snap' hsnap => h hsnap.symm hg, fun hg => hg snap rfl⟩
    exact ⟨fun hall => hall.imp fun snap g => (hiff snap g).mp, fun hall => hall.imp fun snap g => (hiff snap g).mpr⟩
  rw [hitem, map_item_fociOf, forall₂_map_left_iff]

theorem Step.Turns.perm_of_scatters (h : step.Turns p σ A A') (hstep : step.Scatters p σ)
    (hAB : A.flatten.Perm B.flatten) : ∃ B', step.Turns p σ B B' ∧ A'.Perm B' := by
  cases step with
  | axis a test | descent tests => exact FansOut.perm h hAB
  | position k | predicate e => exact hstep.elim
  | expr e nodesOnly =>
    obtain ⟨groups, hgroups, rfl, hnodes⟩ := h
    have hunplaced : p.Unplaced σ e := hstep
    rw [hunplaced.forall₂_iff] at hgroups
    obtain ⟨groups', hgroups', hperm⟩ := perm_comp_forall₂ hAB.symm hgroups
    have hpresent := hperm.symm.filter fun g => !g.isEmpty
    exact ⟨_, ⟨groups', hunplaced.forall₂_iff.mpr hgroups', rfl,
      fun h g hg => hnodes h g (hpresent.mem_iff.mpr hg)⟩, hpresent⟩

/-! ## What holds along a chain -/

/-- If it holds of the items before the step, it holds of the items after it. -/
def Step.Keeps (p : Program) (σ : Slots) (P : Item → Prop) (step : Step) : Prop :=
  ∀ ins outs, (∀ i ∈ ins.flatten, P i) → step.Turns p σ ins outs → ∀ i ∈ outs.flatten, P i

theorem Exhausts.doc_eq {W : Type} {step : W → Option (Node × W)} {d : Document} {I : W → Prop}
    (hstep : ∀ {w w' n}, I w → step w = some (n, w') → n.doc = d ∧ I w') {w : W} {g : List Node}
    (h : Exhausts step w g) (hw : I w) : ∀ n ∈ g, n.doc = d := by
  induction h with
  | nothing h => exact fun n hn => nomatch hn
  | found h rest ih =>
    obtain ⟨hn, hw'⟩ := hstep hw h
    exact forall_mem_cons.mpr ⟨hn, ih hw'⟩

section

variable {P : Item → Prop}

theorem FansOut.keeps (h : FansOut R ins outs) (hR : ∀ n g, R n g → P (.node n) → ∀ m ∈ g, P (.node m))
    (hins : ∀ i ∈ ins.flatten, P i) : ∀ i ∈ outs.flatten, P i := by
  obtain ⟨nodes, groups, hnodes, hgroups, rfl⟩ := h
  rw [hnodes, forall_mem_map] at hins
  rw [flatten_present, ← map_flatten, forall_mem_map]
  clear hnodes
  induction hgroups with
  | nil => exact nofun
  | cons hg _ ih =>
    obtain ⟨hn, hins⟩ := forall_mem_cons.mp hins
    exact forall_mem_append.mpr ⟨hR _ _ hg hn, ih hins⟩

/-- An axis step does not leave the document. -/
theorem Step.keeps_axis (hP : ∀ {n m : Node}, m.doc = n.doc → P (.node n) → P (.node m)) (a : Axis)
    (test : Option NodeTest) : (Step.axis a test).Keeps p σ P := fun _ _ hins h =>
  FansOut.keeps h (fun n _ hg hn m hm =>
    hP (hg.doc_eq Walk.inside_next? (Walk.inside_start a _ n) m hm) hn) hins

theorem Step.keeps_position (k : Nat) : (Step.position k).Keeps p σ P := by
  rintro ins _ hins rfl i hi
  obtain ⟨g, hg, hi⟩ := mem_flatten.mp hi
  obtain ⟨j, hj, rfl⟩ := mem_map.mp hg
  obtain rfl := mem_singleton.mp hi
  obtain ⟨g', hg', hord⟩ := mem_filterMap.mp hj
  cases k with
  | zero => cases hord
  | succ k => exact hins i (mem_flatten_of_mem hg' (mem_of_getElem? hord))

theorem LeavesOf.sublist {left : List Item} {r : Except Error Unit} (h : LeavesOf V size k g left r) :
    left.Sublist g := by
  induction h with
  | done => exact .slnil
  | failed => exact nil_sublist _
  | kept _ _ _ ih => exact ih.cons_cons _
  | dropped _ _ _ ih => exact ih.cons _

theorem Step.keeps_predicate (e : ExprId) : (Step.predicate e).Keeps p σ P := by
  rintro ins _ hins ⟨lefts, hlefts, rfl⟩ i hi
  rw [flatten_present] at hi
  refine hins i (List.Sublist.subset ?_ hi)
  clear hins hi
  induction hlefts with
  | nil => exact .slnil
  | cons h _ ih => exact h.sublist.append ih

theorem TurnAll.keeps (h : TurnAll p σ steps ins outs) (hkeeps : ∀ s ∈ steps, s.Keeps p σ P)
    (hins : ∀ i ∈ ins.flatten, P i) : ∀ i ∈ outs.flatten, P i := by
  induction h with
  | nil => exact hins
  | cons first rest ih =>
    obtain ⟨hs, hkeeps⟩ := forall_mem_cons.mp hkeeps
    exact ih hkeeps (hs _ _ hins first)

end

/-! ## Merged runs -/

def mergedStep : List (Option NodeTest) → Step
  | [test] => .axis .descendant test
  | run => .descent (run.map (·.getD .anyNode))

theorem turns_mergedStep_iff (run : List (Option NodeTest)) :
    (mergedStep run).Turns p σ ins outs ↔ FansOut (MergedReaches (run.map (·.getD .anyNode))) ins outs := by
  match run with
  | [] | [_] | _ :: _ :: _ => exact Iff.rfl

/-- The second chain has merged runs in place of some of the steps of the first one. What comes after a
merged run is as `P` says. -/
inductive Merges (P : Step → Prop) : List Step → List Step → Prop
  | nil : Merges P [] []
  | cons (s : Step) {steps steps' : List Step} (tail : Merges P steps steps') : Merges P (s :: steps) (s :: steps')
  | run {test : Option NodeTest} {run : List (Option NodeTest)} {rest rest' : List Step}
      (all : test.all NodeTest.isAnyNode = true) (some : run ≠ []) (next : ∀ s ∈ rest.head?, P s)
      (tail : Merges P rest rest') :
      Merges P (.axis .descendantOrSelf test :: (run.map (.axis .child) ++ rest)) (mergedStep run :: rest')

theorem childRun_append_drop : ∀ steps : List Step,
    (childRun steps).map (.axis .child) ++ steps.drop (childRun steps).length = steps ∧
      (childRun steps ≠ [] → startsWithFilter (steps.drop (childRun steps).length) = false) := by
  intro steps
  fun_induction childRun steps with
  | case1 test rest h => exact ⟨rfl, fun h => absurd rfl h⟩
  | case2 test rest h ih =>
    obtain ⟨heq, hfilter⟩ := ih
    refine ⟨congrArg (Step.axis .child test :: ·) heq, fun _ => ?_⟩
    rw [length_cons, drop_succ_cons]
    by_cases hrun : childRun rest = []
    · rw [hrun]
      exact Bool.eq_false_iff.mpr h
    · exact hfilter hrun
  | case3 => exact ⟨rfl, fun h => absurd rfl h⟩

theorem mergeRuns_eq_drop : ∀ (k : Nat) (steps : List Step), mergeRuns k steps = mergeRuns 0 (steps.drop k)
  | 0, _ | _ + 1, [] => rfl
  | k + 1, _ :: rest => mergeRuns_eq_drop k rest

/-- A merged step stands before what is left after the run. -/
theorem mergeRuns_cons (s : Step) (rest : List Step) : mergeRuns 0 (s :: rest) = s :: mergeRuns 0 rest ∨
      s.reachesAll = true ∧ childRun rest ≠ [] ∧
        mergeRuns 0 (s :: rest) = mergedStep (childRun rest) :: mergeRuns 0 (rest.drop (childRun rest).length) := by
  rw [mergeRuns]
  split
  · next h =>
    have hall := (Bool.and_eq_true_iff.mp h).1
    match childRun rest with
    | [] => exact .inl rfl
    | [test] | test :: test' :: run =>
      exact .inr ⟨hall, cons_ne_nil _ _, congrArg _ (mergeRuns_eq_drop _ _)⟩
  · exact .inl rfl

/-- Only a step that no filter follows is merged. -/
theorem merges_mergeRuns {P : Step → Prop} (n : Nat) : ∀ {steps : List Step}, steps.length ≤ n →
    (∀ pre test run s post, steps = pre ++ .axis .descendantOrSelf test :: (run.map (.axis .child) ++ s :: post) →
      run ≠ [] → s.isFilter = false → P s) → Merges P steps (mergeRuns 0 steps) := by
  induction n with
  | zero =>
    intro steps hlength _
    obtain rfl := length_eq_zero_iff.mp (Nat.le_zero.mp hlength)
    exact .nil
  | succ n ih =>
    intro steps hlength hP
    match steps with
    | [] => exact .nil
    | s :: rest =>
      rw [length_cons] at hlength
      rcases mergeRuns_cons s rest with heq | ⟨hall, hrun, heq⟩
      · rw [heq]
        exact .cons s (ih (by omega) fun pre test run s' post heq => hP (s :: pre) test run s' post (heq ▸ rfl))
      · rw [heq]
        obtain ⟨happend, hfilter⟩ := childRun_append_drop rest
        generalize childRun rest = run at *
        generalize hrest : rest.drop run.length = rest' at *
        subst happend
        match s, hall with
        | .axis .descendantOrSelf test, hall =>
          refine .run hall hrun ?_ (ih ?_ ?_)
          · intro s hs
            obtain ⟨post, rfl⟩ := head?_eq_some_iff.mp hs
            exact hP [] test run s post rfl hrun (hfilter hrun)
          · rw [length_append] at hlength
            omega
          · intro pre test' run' s post heq
            exact hP (.axis .descendantOrSelf test :: (run.map (.axis .child) ++ pre)) test' run' s post
              (by rw [heq, cons_append, append_assoc])

/-! ## Runs, merged and not -/

/-- A run of child steps, seen on nodes without groups. -/
theorem exists_turnAll_childRun {out : List Node} (h : ChildRuns (run.map (·.getD .anyNode)) nodes out)
    (hins : ins.flatten = nodes.map .node) :
    ∃ mid, TurnAll p σ (run.map (.axis .child)) ins mid ∧ mid.flatten = out.map .node := by
  induction run generalizing ins nodes with
  | nil =>
    obtain rfl : out = nodes := h
    exact ⟨ins, .nil, hins⟩
  | cons test run ih =>
    obtain ⟨groups, hgroups, h⟩ := h
    have hmid : (present (groups.map (·.map Item.node))).flatten = groups.flatten.map .node := by
      rw [flatten_present, map_flatten]
    obtain ⟨mid, hrun, hout⟩ := ih h hmid
    exact ⟨mid, .cons ⟨nodes, groups, hins, hgroups, rfl⟩ hrun, hout⟩

/-- Going to every descendant and through a run of child steps, and the merged step on the same items in
another order. -/
theorem exists_merged_of_perm (hA : ∀ i ∈ A.flatten, F.Covers i) (hnodes : A.flatten = nodes.map .node)
    (hAB : A.flatten.Perm B.flatten) {test : Option NodeTest} (htest : test.all NodeTest.isAnyNode = true)
    (hrun : run ≠ []) : ∃ A' B', TurnAll p σ (.axis .descendantOrSelf test :: run.map (.axis .child)) A A' ∧
      (mergedStep run).Turns p σ B B' ∧ A'.flatten.Perm B'.flatten := by
  have hcovered : ∀ n ∈ nodes, F.Has n.doc := fun n hn => hA (.node n) (hnodes ▸ mem_map_of_mem hn)
  have hany : (test.getD .anyNode).isAnyNode = true := by
    cases test with
    | none => rfl
    | some t => exact htest
  have hrun' : run.map (·.getD .anyNode) ≠ [] := fun h => hrun (map_eq_nil_iff.mp h)
  obtain ⟨below, out, ends, hbelow, hout, hends, hperm⟩ := F.exists_descent hany hrun' hcovered
  have hmid : (present (below.map (·.map Item.node))).flatten = below.flatten.map .node := by
    rw [flatten_present, map_flatten]
  obtain ⟨A', hA', hA'out⟩ := exists_turnAll_childRun (σ := σ) hout hmid
  obtain ⟨nodes', hnodes', hnodesperm⟩ := exists_nodes_of_perm hAB hnodes
  obtain ⟨ends', hends', hendsperm⟩ := perm_comp_forall₂ hnodesperm.symm hends
  refine ⟨A', _, .cons ⟨nodes, below, hnodes, hbelow, rfl⟩ hA',
    (turns_mergedStep_iff run).mpr ⟨nodes', ends', hnodes', hends', rfl⟩, ?_⟩
  rw [hA'out, flatten_present, ← map_flatten]
  exact (hperm.trans hendsperm.flatten.symm).map _

/-- Whatever one chain makes of its groups, the other one makes of its own, in some order. -/
structure Agree (p : Program) (σ : Slots) (steps steps' : List Step) (A B : List (List Item)) : Prop where
  forth : ∀ {outs}, TurnAll p σ steps A outs → ∃ outs', TurnAll p σ steps' B outs' ∧ outs.flatten.Perm outs'.flatten
  back : ∀ {outs'}, TurnAll p σ steps' B outs' → ∃ outs, TurnAll p σ steps A outs ∧ outs.flatten.Perm outs'.flatten

/-- The groups are the same in another order; before a step that does not see groups, the items are. -/
def Shuffled (p : Program) (σ : Slots) (steps : List Step) (A B : List (List Item)) : Prop :=
  A.Perm B ∨ A.flatten.Perm B.flatten ∧ ∀ s ∈ steps.head?, s.Scatters p σ

theorem Shuffled.flatten (h : Shuffled p σ steps A B) : A.flatten.Perm B.flatten :=
  h.elim List.Perm.flatten And.left

theorem Shuffled.symm (h : Shuffled p σ steps A B) : Shuffled p σ steps B A :=
  h.imp List.Perm.symm fun h => ⟨h.1.symm, h.2⟩

theorem Shuffled.turns (h : Shuffled p σ (step :: steps) A B) (hstep : step.Turns p σ A A') :
    ∃ B', step.Turns p σ B B' ∧ A'.Perm B' := by
  rcases h with hperm | ⟨hperm, hnext⟩
  · exact hstep.perm hperm
  · exact hstep.perm_of_scatters (hnext step rfl) hperm

/-- Merging runs changes no more than the order of what a chain delivers. -/
theorem Merges.agree (hp : p.Pure) (h : Merges (Step.Scatters p σ) steps steps') (hkeeps : ∀ s ∈ steps,
    s.Keeps p σ F.Covers)
    (hA : ∀ i ∈ A.flatten, F.Covers i) (hAB : Shuffled p σ steps A B) : Agree p σ steps steps' A B := by
  induction h generalizing A B with
  | nil =>
    constructor
    · rintro _ ⟨⟩
      exact ⟨B, .nil, hAB.flatten⟩
    · rintro _ ⟨⟩
      exact ⟨A, .nil, hAB.flatten⟩
  | cons s tail ih =>
    obtain ⟨hs, hkeeps⟩ := forall_mem_cons.mp hkeeps
    constructor
    · rintro outs (_ | ⟨hfirst, hrest⟩)
      obtain ⟨mid', hfirst', hperm⟩ := hAB.turns hfirst
      obtain ⟨outs', hrest', hout⟩ := (ih hkeeps (hs _ _ hA hfirst) (.inl hperm)).forth hrest
      exact ⟨outs', .cons hfirst' hrest', hout⟩
    · rintro outs' (_ | ⟨hfirst', hrest'⟩)
      obtain ⟨mid, hfirst, hperm⟩ := hAB.symm.turns hfirst'
      obtain ⟨outs, hrest, hout⟩ := (ih hkeeps (hs _ _ hA hfirst) (.inl hperm.symm)).back hrest'
      exact ⟨outs, .cons hfirst hrest, hout⟩
  | @run test run rest rest' all some next tail ih =>
    rw [← cons_append] at hkeeps ⊢
    obtain ⟨hkeepsrun, hkeepsrest⟩ := forall_mem_append.mp hkeeps
    constructor
    · intro outs h
      obtain ⟨mid, hmid, hrest⟩ := turnAll_append_iff.mp h
      obtain ⟨nodes, hnodes⟩ : ∃ nodes : List Node, A.flatten = nodes.map .node := by
        cases hmid with
        | cons first => exact ⟨first.choose, first.choose_spec.choose_spec.1⟩
      obtain ⟨A', B', hA', hB', hperm⟩ := exists_merged_of_perm hA hnodes hAB.flatten all some
      obtain rfl := hmid.unique hp hA'
      obtain ⟨outs', hrest', hout⟩ :=
        (ih hkeepsrest (hmid.keeps hkeepsrun hA) (.inr ⟨hperm, next⟩)).forth hrest
      exact ⟨outs', .cons hB' hrest', hout⟩
    · rintro outs' (_ | ⟨hfirst', hrest'⟩)
      obtain ⟨nodes', -, hnodes', -⟩ := (turns_mergedStep_iff run).mp hfirst'
      obtain ⟨nodes, hnodes, -⟩ := exists_nodes_of_perm hAB.flatten.symm hnodes'
      obtain ⟨A', B', hA', hB', hperm⟩ := exists_merged_of_perm hA hnodes hAB.flatten all some
      obtain rfl := hfirst'.unique hp hB'
      obtain ⟨outs, hrest, hout⟩ :=
        (ih hkeepsrest (hA'.keeps hkeepsrun hA) (.inr ⟨hperm, next⟩)).back hrest'
      exact ⟨outs, turnAll_append_iff.mpr ⟨A', hA', hrest⟩, hout⟩

/-! ## Sorted results -/

/-- In a forest, nodes at one place are one node. -/
theorem Forest.eq_of_compare_eq {a b : Node} (ha : F.Has a.doc) (hb : F.Has b.doc) (h : a.compare b = .eq) : a = b :=
  Node.eq_of_compare_eq (F.ids _ _ ha hb) h

/-- Sorting forgets the order. -/
theorem Forest.inDocumentOrder_eq_of_perm {nodes' : List Node} (h : nodes.Perm nodes')
    (hnodes : ∀ n ∈ nodes, F.Has n.doc) (unique : Bool) :
    inDocumentOrder unique nodes = inDocumentOrder unique nodes' := by
  have heq : nodes.mergeSort Node.precedesOrSame = nodes'.mergeSort Node.precedesOrSame := by
    refine List.Perm.eq_of_pairwise ?_ (pairwise_mergeSort_nodes nodes) (pairwise_mergeSort_nodes nodes')
      ((mergeSort_perm nodes _).trans (h.trans (mergeSort_perm nodes' _).symm))
    intro a b ha hb hab hba
    have ha : F.Has a.doc := hnodes a (mem_mergeSort.mp ha)
    have hb : F.Has b.doc := hnodes b (h.mem_iff.mpr (mem_mergeSort.mp hb))
    refine F.eq_of_compare_eq ha hb ?_
    rw [Node.precedesOrSame_iff, Node.compare_eq_lt_iff, Node.compare_eq_eq_iff, Prod.ext_iff, Prod.ext_iff]
      at hab hba
    rw [Node.compare_eq_eq_iff, Prod.ext_iff, Prod.ext_iff]
    omega
  unfold inDocumentOrder
  rw [heq]

/-! ## Chains of a compiled query -/

def Step.isPlain : Step → Bool
  | .axis _ _ | .predicate _ => true
  | _ => false

theorem Step.keeps_of_isPlain {P : Item → Prop}
    (hP : ∀ {n m : Node}, m.doc = n.doc → P (.node n) → P (.node m)) (hs : s.isPlain = true) : s.Keeps p σ P := by
  match s, hs with
  | .axis a test, _ => exact Step.keeps_axis hP a test
  | .predicate e, _ => exact Step.keeps_predicate e

theorem mem_fixPositions (hsteps : ∀ s ∈ steps, s.isPlain = true) (hs : s ∈ fixPositions literal steps) :
    s.isPlain = true ∨ ∃ k, s = .position k := by
  obtain ⟨s₀, hs₀, rfl⟩ := mem_map.mp hs
  match s₀, hsteps s₀ hs₀ with
  | .axis a test, _ => exact .inl rfl
  | .predicate e, _ =>
    dsimp only
    cases literal e with
    | none => exact .inl rfl
    | some k => exact .inr ⟨k, rfl⟩

theorem keeps_fixPositions {P : Item → Prop} (hP : ∀ {n m : Node}, m.doc = n.doc → P (.node n) → P (.node m))
    (hsteps : ∀ s ∈ steps, s.isPlain = true) : ∀ s ∈ fixPositions literal steps, s.Keeps p σ P := by
  intro s hs
  rcases mem_fixPositions hsteps hs with hs | ⟨k, rfl⟩
  · exact Step.keeps_of_isPlain hP hs
  · exact Step.keeps_position k

/-- Merging the runs of a chain of axis steps and predicates changes no more than the order. -/
theorem agree_mergeRuns (hp : p.Pure) (hsteps : ∀ s ∈ steps, s.isPlain = true) (hins : ∀ i ∈ ins.flatten, F.Covers i) :
    Agree p σ (fixPositions literal steps) (fuse literal steps) ins ins := by
  have hmerges : Merges (Step.Scatters p σ) (fixPositions literal steps) (fuse literal steps) := by
    refine merges_mergeRuns _ .refl ?_
    intro pre test run s post heq _ hfilter
    have hs : s ∈ fixPositions literal steps := by
      rw [heq]
      simp
    rcases mem_fixPositions hsteps hs with hs | ⟨k, rfl⟩
    · match s, hs with
      | .axis a test, _ => trivial
    · cases hfilter
  have hkeeps : ∀ s ∈ fixPositions literal steps, s.Keeps p σ F.Covers :=
    keeps_fixPositions (fun hdoc hn => (congrArg F.Has hdoc).mpr hn) hsteps
  exact hmerges.agree hp hkeeps hins (.inl (.refl ins))

/-- A shortened chain of axis steps and predicates makes of groups what the chain makes of them, in some
order. -/
theorem agree_fuse (hp : p.Pure) (hsteps : ∀ s ∈ steps, s.isPlain = true) (hins : ∀ i ∈ ins.flatten, F.Covers i)
    (hsmall : ∀ pre mid, pre <+: steps → TurnAll p σ pre ins mid → ∀ g ∈ mid, g.length < 2 ^ 53) :
    Agree p σ steps (fuse p.literalPosition steps) ins ins := by
  have hagree : Agree p σ (fixPositions p.literalPosition steps) (fuse p.literalPosition steps) ins ins :=
    agree_mergeRuns hp hsteps hins
  have hiff : ∀ outs, TurnAll p σ steps ins outs ↔ TurnAll p σ (fixPositions p.literalPosition steps) ins outs :=
    fun outs => turnAll_fixPositions_iff hp hsmall
  constructor
  · exact fun h => hagree.forth ((hiff _).mp h)
  · intro outs' h
    obtain ⟨outs, hraw, hperm⟩ := hagree.back h
    exact ⟨outs, (hiff outs).mpr hraw, hperm⟩

/-- The last item of a group stands at the size of the group. -/
theorem exists_mem_inGroups (hg : g ∈ groups) (hne : g ≠ []) : ∃ x ∈ inGroups groups, x.2 = g.length := by
  have hpos : 0 < g.length := length_pos_iff.mpr hne
  have hlast : (g.getLast hne, g.length) ∈ g.zipIdx 1 := by
    rw [mem_zipIdx_iff_le_and_getElem?_sub]
    refine ⟨hpos, ?_⟩
    rw [← getLast?_eq_getElem?, getLast?_eq_some_getLast hne]
  exact ⟨_, mem_flatMap_of_mem hg hlast, rfl⟩

/-- From the same nodes and on the same slots, a chain of axis steps and predicates can be drained just if the
shortened chain can, and then both give the same nodes in document order, each as often. The predicates are
bound in one scope, and positions are small enough to be told apart as numbers. -/
theorem Query.drain_fuse {c : StaticContext} {x : Expr} {q : Query} (hq : compile c x = .ok q)
    (hf : ∀ f, c.Callable f → f.KeepsReply ∧ f.Grows ∧ f.Honest) {steps : List Step}
    (hsteps : ∀ s ∈ steps, s.isPlain = true) {scope : List Binding} {lo hi : Nat}
    (hscope : ScopeFor q.program scope lo)
    (hplaced : Apart (PlacedAt q.program c.Callable k scope) lo hi (steps.filterMap Step.expr?))
    {trees : Nat → Option Fragment} (hnodes : ∀ n ∈ nodes, (Forest.ofTrees trees).Covers (.node n))
    (t : Store) (hsmall : ∀ pre, pre <+: steps → ∀ m out,
      (machine m q.program).Reads (Calls.chain true (.ofItems (nodes.map .node)) pre) t out (.ok ()) →
        ∀ x ∈ out, x.2 < 2 ^ 53) (unique : Bool) : ((∃ m items t', (machine m q.program).drain
        (Calls.chain true (.ofItems (nodes.map .node)) (fuse q.program.literalPosition steps)) t =
          some (.ok items, t')) ↔
      ∃ m items t', (machine m q.program).drain (Calls.chain true (.ofItems (nodes.map .node)) steps) t =
        some (.ok items, t')) ∧
    ∀ m m' items items' t' t'',
      (machine m q.program).drain
        (Calls.chain true (.ofItems (nodes.map .node)) (fuse q.program.literalPosition steps)) t =
          some (.ok items, t') →
      (machine m' q.program).drain (Calls.chain true (.ofItems (nodes.map .node)) steps) t =
        some (.ok items', t'') →
      ∃ found found' : List Node, items = found.map .node ∧ items' = found'.map .node ∧
        inDocumentOrder unique found = inDocumentOrder unique found' := by
  obtain ⟨hcompiled, hreply, hpure, hreliable⟩ := reliable_of_compile hq hf
  obtain ⟨env, hagrees⟩ := hscope.exists_agrees t.slots
  generalize hstart : nodes.map Item.node = start at *
  have hsub : ∀ {steps' : List Step}, (steps'.filterMap Step.expr?).Sublist (steps.filterMap Step.expr?) →
      Apart (PlacedAt q.program c.Callable k scope) lo hi (steps'.filterMap Step.expr?) :=
    fun hsub => hplaced.sublist (fun _ _ _ _ => .lower) hsub
  have hraw := fun items => drains_chain_iff start items hpure hreliable hreply hscope.below hagrees hplaced
  have hfused := fun items => drains_chain_iff start items hpure hreliable hreply hscope.below hagrees
    (hsub (fuse_sublist q.program.literalPosition steps))
  have hins : ∀ i ∈ (present [start]).flatten, (Forest.ofTrees trees).Covers i ∧ i.isNode = true := by
    rw [flatten_present, flatten_singleton, ← hstart, forall_mem_map]
    exact fun n hn => ⟨hnodes n hn, rfl⟩
  have hfew : ∀ pre mid, pre <+: steps → TurnAll q.program env pre (present [start]) mid →
      ∀ g ∈ mid, g.length < 2 ^ 53 := by
    intro pre mid hpre hmid g hg
    obtain ⟨hpresent, m, hreads⟩ := hmid.exists_reads hpure hreliable hreply hscope.below hagrees
      (hsub (hpre.sublist.filterMap _))
    obtain ⟨x, hx, hlength⟩ := exists_mem_inGroups hg (hpresent g hg)
    exact hlength ▸ hsmall pre hpre m _ hreads x hx
  have hagree := agree_fuse hpure hsteps (fun i hi => (hins i hi).1) hfew
  constructor
  · constructor
    · rintro ⟨m, items, t', hdrain⟩
      obtain ⟨outs', hturn, -⟩ := (hfused items).mp ⟨m, t', hdrain⟩
      obtain ⟨outs, hturn, -⟩ := hagree.back hturn
      obtain ⟨m, t', hdrain⟩ := (hraw _).mpr ⟨outs, hturn, rfl⟩
      exact ⟨m, _, t', hdrain⟩
    · rintro ⟨m, items, t', hdrain⟩
      obtain ⟨outs, hturn, -⟩ := (hraw items).mp ⟨m, t', hdrain⟩
      obtain ⟨outs', hturn, -⟩ := hagree.forth hturn
      obtain ⟨m, t', hdrain⟩ := (hfused _).mpr ⟨outs', hturn, rfl⟩
      exact ⟨m, _, t', hdrain⟩
  · intro m m' items items' t' t'' hdrain hdrain'
    obtain ⟨outs, hturn, rfl⟩ := (hfused items).mp ⟨m, t', hdrain⟩
    obtain ⟨outs', hturn', rfl⟩ := (hraw items').mp ⟨m', t'', hdrain'⟩
    obtain ⟨outs₁, hturn₁, hperm⟩ := hagree.back hturn
    obtain rfl := hturn₁.unique hpure hturn'
    have hkept : ∀ i ∈ outs₁.flatten, (Forest.ofTrees trees).Covers i ∧ i.isNode = true := by
      refine hturn'.keeps (fun s hs => Step.keeps_of_isPlain ?_ (hsteps s hs)) hins
      exact fun hdoc h => ⟨(congrArg (Forest.ofTrees trees).Has hdoc).mpr h.1, rfl⟩
    obtain ⟨found', hfound'⟩ := exists_nodes_of_isNode fun i hi => (hkept i hi).2
    obtain ⟨found, hfound, hperm⟩ := exists_nodes_of_perm hperm hfound'
    rw [hfound', forall_mem_map] at hkept
    exact ⟨found, found', hfound, hfound',
      (Forest.inDocumentOrder_eq_of_perm hperm (fun n hn => (hkept n hn).1) unique).symm⟩

/-- `<r><b><c x="1" y="2"/></b><c/></r>` -/
def Fragment.layered : Fragment :=
  let written (name : String) : QName := ⟨none, name, none⟩
  .element (written "r") [] []
    [.element (written "b") [] [] [.element (written "c") [] [⟨written "x", "1"⟩, ⟨written "y", "2"⟩] []],
      .element (written "c") [] [] []]

/-- `descendant-or-self::node()/child::*/child::*/@*[2]` -/
def innerSecondAttributes : Expr :=
  .path .relative [.axis .descendantOrSelf (.kind .anyNode) [], .axis .child .anyName [],
    .axis .child .anyName [], .axis .attribute .anyName [.literal (.integer 2)]]

def innerSecondAttributeSteps : List Step :=
  [.axis .descendantOrSelf none, .axis .child (some (.kind (.element none))),
    .axis .child (some (.kind (.element none))), .axis .attribute none, .predicate 0]

/-- A run of two child steps is merged and a position is put in, from two nodes of which one is below the
other. -/
theorem Query.drain_fuse_layered :
    let nodes : List Node := [.rootOf (.build 0 .layered), ⟨.build 0 .layered, .entry 1⟩]
    let chain (steps : List Step) : Cursor := Calls.chain true (.ofItems (nodes.map .node)) steps
    ∃ q, compile .standard innerSecondAttributes = .ok q ∧
      fuse q.program.literalPosition innerSecondAttributeSteps =
        [.descent [.kind (.element none), .kind (.element none)], .axis .attribute none, .position 2] ∧
      ∀ unique,
        ((∃ m items t', (machine m q.program).drain
            (chain (fuse q.program.literalPosition innerSecondAttributeSteps)) (.ofSlots (.ofSize 0)) =
              some (.ok items, t')) ↔
          ∃ m items t', (machine m q.program).drain (chain innerSecondAttributeSteps) (.ofSlots (.ofSize 0)) =
            some (.ok items, t')) ∧
        ∀ m m' items items' t' t'',
          (machine m q.program).drain (chain (fuse q.program.literalPosition innerSecondAttributeSteps))
            (.ofSlots (.ofSize 0)) = some (.ok items, t') →
          (machine m' q.program).drain (chain innerSecondAttributeSteps) (.ofSlots (.ofSize 0)) =
            some (.ok items', t'') →
          ∃ found found' : List Node, items = found.map .node ∧ items' = found'.map .node ∧
            inDocumentOrder unique found = inDocumentOrder unique found' := by
  intro nodes chain
  have hrun : ((compile .standard innerSecondAttributes).toOption.any fun q =>
      q.program.literalPosition 0 == some 2 && (q.program.children 0).isEmpty &&
        (range 6).all fun k =>
          ((machine 40 q.program).drain (chain (innerSecondAttributeSteps.take k)) (.ofSlots (.ofSize 0))).any
            (·.1.toOption.any (·.length ≤ 10))) = true := by decide +kernel
  have hf := CoreFunction.standard_callable
  obtain ⟨q, hq, hrun⟩ := exists_ok_of_check hrun
  simp only [Bool.and_eq_true, beq_iff_eq, List.isEmpty_iff] at hrun
  obtain ⟨⟨hliteral, hchildren⟩, hdrained⟩ := hrun
  obtain ⟨hcompiled, hreply, hpure, -⟩ := reliable_of_compile hq hf
  have hscope : ScopeFor q.program [] 0 := by
    refine ⟨⟨?_, by rintro _ ⟨⟩⟩, by rintro _ ⟨⟩⟩
    rw [hcompiled.static]
    exact .refl
  have hplaced : Apart (PlacedAt q.program StaticContext.standard.Callable 1 []) 0 0
      (innerSecondAttributeSteps.filterMap Step.expr?) := by
    obtain ⟨a, -, hform, -⟩ := q.program.accepts_of_literalPosition hliteral
    refine ⟨0, .refl, ?_, .refl⟩
    unfold PlacedAt
    rw [hform, hchildren]
    rintro _ ⟨⟩
  have hnodes : ∀ n ∈ nodes,
      (Forest.ofTrees fun id => if id = 0 then some .layered else none).Covers (.node n) := by
    intro n hn
    rcases mem_cons.mp hn with rfl | hn
    · exact ⟨.layered, rfl, by decide, rfl⟩
    · obtain rfl := mem_singleton.mp hn
      exact ⟨.layered, rfl, by decide, rfl⟩
  refine ⟨q, hq, ?_, fun unique => drain_fuse hq hf (by decide) hscope hplaced hnodes _ ?_ unique⟩
  · have hfix : fixPositions q.program.literalPosition innerSecondAttributeSteps =
        innerSecondAttributeSteps.dropLast ++ [.position 2] := by
      simp [fixPositions, innerSecondAttributeSteps, hliteral]
    rw [fuse, hfix]
    decide
  · intro pre hpre m out hreads x hx
    have hlength : pre.length ∈ range 6 := mem_range.mpr (Nat.lt_succ_of_le hpre.length_le)
    have hdrain := all_eq_true.mp hdrained _ hlength
    rw [← prefix_iff_eq_take.mp hpre] at hdrain
    obtain ⟨env, hagrees⟩ := hscope.exists_agrees (.ofSize 0)
    obtain ⟨⟨res, t'⟩, hsome, hdrain⟩ := (Option.any_eq_true _ _).mp hdrain
    obtain ⟨items, hitems, hdrain⟩ := exists_ok_of_check hdrain
    cases hitems
    have hprimed : (chain pre).Primed q.program StaticContext.standard.Callable [] 0 0 :=
      primed_chain (hplaced.sublist (fun _ _ _ _ => .lower) (hpre.sublist.filterMap _))
    have hle := hprimed.position_le_of_drain hpure hreply hscope.below hagrees hsome hreads x hx
    have hten : items.length ≤ 10 := of_decide_eq_true hdrain
    omega

end XPath
