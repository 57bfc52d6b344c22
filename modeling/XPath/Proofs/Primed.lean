import XPath.Proofs.ExecuteInStep
import XPath.Proofs.PathOrder
import XPath.Proofs.PullOutcomes
import XPath.Proofs.Replicas

/-!
# Cursors as expressions compute them

What an expression computes is a cursor from which nothing has been pulled, built from others like it, with
expressions that are in their places (`Cursor.Primed`, `execute_primed`). It stands at position zero, it can
be run on slots as well as in environments, and copies can be made of it. The expressions that an expression
evaluates (`Program.parts`) have their places within the place of the expression, so all of this holds of
every expression that occurs in one that is in its place.
-/

namespace XPath

open List

/-! ## Expressions within expressions -/

def Program.parts (p : Program) (e : ExprId) : List ExprId :=
  match p.form? e with
  | some (.variable ..) => []
  | some (.path plan) => plan.parts
  | some (.filter steps) => (p.children e).take 1 ++ steps.filterMap Step.expr?
  | _ => p.children e

/-- The second expression is the first one or a part of it, at any depth. -/
def Program.Occurs (p : Program) : ExprId → ExprId → Prop :=
  Relation.ReflTransGen fun e part => part ∈ p.parts e

section

variable {p : Program} {Fit : FunctionEntry → Prop} {scope : List Binding} {lo hi lo' hi' k : Nat}
  {e : ExprId} {c d : Cursor}

def PlacedWithin (p : Program) (Fit : FunctionEntry → Prop) (scope : List Binding) (lo hi : Nat) (e : ExprId) : Prop :=
  ∃ lo' hi', lo ≤ lo' ∧ lo' ≤ hi' ∧ hi' ≤ hi ∧ Placed p Fit scope lo' hi' e

theorem Placed.within (h : Placed p Fit scope lo hi e) (hle : lo ≤ hi) : PlacedWithin p Fit scope lo hi e :=
  ⟨lo, hi, .refl, hle, .refl, h⟩

theorem PlacedWithin.widen (h : PlacedWithin p Fit scope lo hi e) (hlo : lo' ≤ lo) (hhi : hi ≤ hi') :
    PlacedWithin p Fit scope lo' hi' e := by
  obtain ⟨l, u, hl, hle, hu, hplaced⟩ := h
  exact ⟨l, u, Nat.le_trans hlo hl, hle, Nat.le_trans hu hhi, hplaced⟩

theorem Apart.placedWithin (h : Apart (PlacedAt p Fit k scope) lo hi es) (he : e ∈ es) :
    PlacedWithin p Fit scope lo hi e := by
  induction es generalizing lo with
  | nil => cases he
  | cons x es ih =>
    obtain ⟨mid, hmid, hx, hes⟩ := h
    rcases mem_cons.mp he with rfl | he
    · exact (Placed.within ⟨k, hx⟩ hmid).widen .refl hes.le
    · exact (ih hes he).widen hmid .refl

/-- A scope whose variables have cells and slots of their own below an interval. -/
structure ScopeFor (p : Program) (scope : List Binding) (lo : Nat) : Prop where
  below : ScopeBelow p scope lo
  names : ∀ b ∈ scope, b.name ∈ p.variableNames

theorem ScopeFor.mono (h : ScopeFor p scope lo) (hlo : lo ≤ lo') : ScopeFor p scope lo' :=
  ⟨h.below.mono hlo, h.names⟩

/-- Whatever the slots hold, some environment agrees with them. -/
theorem ScopeFor.exists_agrees (h : ScopeFor p scope lo) (σ : Slots) : ∃ env, Agrees p scope σ env := by
  refine ⟨⟨(p.variableNames.map fun name => (p.bindingOf scope name).bind fun b => σ.get? b.slot).toArray⟩, ?_⟩
  intro name b hb
  have hname : name ∈ p.variableNames := by
    have hb' := hb
    unfold Program.bindingOf at hb'
    cases hfind : scope.find? (·.name = name) with
    | some b' =>
      have hmem := h.names b' (mem_of_find?_eq_some hfind)
      rwa [show b'.name = name by simpa using find?_some hfind] at hmem
    | none =>
      rw [hfind] at hb'
      obtain ⟨slot, hslot, -⟩ := Option.map_eq_some_iff.mp hb'
      obtain ⟨hlt, hget, -⟩ := findIdx?_eq_some_iff_getElem.mp hslot
      have heq : p.static.settings.externals[slot] = name := by simpa using hget
      exact mem_append_left _ (heq ▸ getElem_mem hlt)
  have hcell : p.variableNames[p.cell name]? = some name := by
    unfold Program.cell
    rw [getElem?_eq_getElem (idxOf_lt_length_of_mem hname)]
    exact congrArg some (getElem_idxOf _)
  change _ = (_ : Option (Option (List Item))).join
  rw [getElem?_toArray, getElem?_map, hcell]
  change _ = (p.bindingOf scope name).bind fun b => σ.get? b.slot
  rw [hb]
  rfl

def Program.Seated (p : Program) (Fit : FunctionEntry → Prop) (e : ExprId) : Prop :=
  ∃ scope lo hi, lo ≤ hi ∧ ScopeFor p scope lo ∧ Placed p Fit scope lo hi e

theorem PlacedWithin.seated (h : PlacedWithin p Fit scope lo hi e) (hscope : ScopeFor p scope lo) : p.Seated Fit e := by
  obtain ⟨l, u, hl, hle, -, hplaced⟩ := h
  exact ⟨scope, l, u, hle, hscope.mono hl, hplaced⟩

/-- The parts of an expression have places within its place. -/
theorem Program.Seated.part (h : p.Seated Fit e) {part : ExprId} (hpart : part ∈ p.parts e) : p.Seated Fit part := by
  obtain ⟨scope, lo, hi, hle, hscope, n, hplaced⟩ := h
  cases n with
  | zero => exact hplaced.elim
  | succ n =>
    unfold PlacedAt at hplaced
    unfold Program.parts at hpart
    cases hform : p.form? e with
    | none =>
      rw [hform] at hplaced
      exact hplaced.elim
    | some form =>
      rw [hform] at hplaced hpart
      cases form with
      | «variable» name binding => cases hpart
      | call name function =>
        obtain ⟨f, -, -, hargs⟩ := hplaced
        exact (hargs.placedWithin hpart).seated hscope
      | path plan => exact (hplaced.placedWithin hpart).seated hscope
      | filter steps =>
        obtain ⟨source, hsource, hparts⟩ := hplaced
        refine (hparts.placedWithin ?_).seated hscope
        rcases mem_append.mp hpart with hpart | hpart
        · cases hchildren : p.children e with
          | nil =>
            rw [hchildren] at hpart
            cases hpart
          | cons x rest =>
            rw [hchildren] at hpart hsource
            cases hsource
            rw [mem_singleton.mp hpart]
            exact .head _
        · exact .tail _ hpart
      | forEach name binding | quantified q name binding =>
        obtain ⟨b, source, body, -, hloop⟩ := hplaced
        rw [hloop.children] at hpart
        rcases mem_cons.mp hpart with rfl | hpart
        · exact ⟨scope, lo, b.slot, hloop.lower, hscope, n, hloop.source⟩
        · obtain rfl := mem_singleton.mp hpart
          refine ⟨b :: scope, b.slot + 1, hi, hloop.upper, ⟨hscope.below.cons hloop.lower, ?_⟩, n,
            hloop.body⟩
          exact forall_mem_cons.mpr ⟨hloop.name, hscope.names⟩
      | _ => exact ⟨scope, lo, hi, hle, hscope, n, hplaced _ hpart⟩

theorem Program.Seated.occurs (h : p.Seated Fit e) {e' : ExprId} (he : p.Occurs e e') : p.Seated Fit e' := by
  induction he with
  | refl => exact h
  | tail _ hpart ih => exact ih.part hpart

/-! ## Computed cursors -/

/-- A cursor that is one group: parts one after the other, and what filters leave of them. -/
inductive Cursor.Flat : Cursor → Prop
  | ofParts (parts : List Cursor) : Flat (.ofParts parts)
  | pick {c : Cursor} (n : Nat) (input : c.Flat) : Flat (.pick n false c)
  | filter {c : Cursor} (e : ExprId) (input : c.Flat) : Flat (.filter e c)

/-- Nothing has been pulled from the cursor, nor from those that it draws on, and its expressions are in
their places. Where a filter takes its input for one group, it is one. -/
inductive Cursor.Primed (p : Program) (Fit : FunctionEntry → Prop) (scope : List Binding)
    (lo : Nat) : Nat → Cursor → Prop
  | empty {hi : Nat} : Primed p Fit scope lo hi .empty
  | ofItems {hi : Nat} (items : List Item) : Primed p Fit scope lo hi (.ofItems items)
  | ofRange {hi : Nat} (first last : Int64) : Primed p Fit scope lo hi (.ofRange first last)
  | ofParts {hi : Nat} {parts : List Cursor} (each : ∀ c ∈ parts, Primed p Fit scope lo hi c) :
      Primed p Fit scope lo hi (.ofParts parts)
  | requireNodes {hi : Nat} {c : Cursor} (input : Primed p Fit scope lo hi c) :
      Primed p Fit scope lo hi (.requireNodes c)
  | along {hi : Nat} {c : Cursor} (axis : Axis) (test : NodeTest)
      (source : Primed p Fit scope lo hi c) : Primed p Fit scope lo hi (.along axis test c)
  | descending {hi : Nat} {c : Cursor} (tests : List NodeTest) (source : Primed p Fit scope lo hi c) :
      Primed p Fit scope lo hi (.descending tests c)
  | pick {hi : Nat} {c : Cursor} {perGroup : Bool} (n : Nat) (flat : perGroup = false → c.Flat)
      (input : Primed p Fit scope lo hi c) : Primed p Fit scope lo hi (.pick n perGroup c)
  | filter {mid lo' hi' hi : Nat} {c : Cursor} {e : ExprId} (nested : Nested lo mid lo' hi' hi)
      (placed : Placed p Fit scope lo' hi' e) (input : Primed p Fit scope lo mid c) :
      Primed p Fit scope lo hi (.filter e c)
  | loop {hi hi' : Nat} {c : Cursor} {body : ExprId} {b : Binding} (focus : Snapshot)
      (name : b.name ∈ p.variableNames) (lower : lo ≤ b.slot) (slot : b.slot < hi') (upper : hi' ≤ hi)
      (placed : Placed p Fit (b :: scope) (b.slot + 1) hi' body)
      (source : Primed p Fit scope lo b.slot c) : Primed p Fit scope lo hi (.loop body b focus c)
  | through {mid lo' hi' hi : Nat} {c : Cursor} {e : ExprId} (nested : Nested lo mid lo' hi' hi)
      (placed : Placed p Fit scope lo' hi' e) (source : Primed p Fit scope lo mid c) :
      Primed p Fit scope lo hi (.through e c)
  | inOrder {hi : Nat} {c : Cursor} (unique : Bool) (input : Primed p Fit scope lo hi c) :
      Primed p Fit scope lo hi (.inOrder unique c)

namespace Cursor.Primed

section

variable (h : c.Primed p Fit scope lo hi)

include h

theorem widen : ∀ {lo' hi' : Nat}, lo' ≤ lo → hi ≤ hi' → c.Primed p Fit scope lo' hi' := by
  induction h with
  | empty => exact fun _ _ => .empty
  | ofItems items => exact fun _ _ => .ofItems items
  | ofRange first last => exact fun _ _ => .ofRange first last
  | ofParts each ih => exact fun hlo hhi => .ofParts fun c hc => ih c hc hlo hhi
  | requireNodes input ih => exact fun hlo hhi => .requireNodes (ih hlo hhi)
  | along axis test source ih => exact fun hlo hhi => .along axis test (ih hlo hhi)
  | descending tests source ih => exact fun hlo hhi => .descending tests (ih hlo hhi)
  | pick n flat input ih => exact fun hlo hhi => .pick n flat (ih hlo hhi)
  | filter nested placed input ih =>
    exact fun hlo hhi => .filter (nested.widen hlo hhi) placed (ih hlo .refl)
  | loop focus name lower slot upper placed source ih =>
    exact fun hlo hhi => .loop focus name (Nat.le_trans hlo lower) slot (Nat.le_trans upper hhi) placed
      (ih hlo .refl)
  | through nested placed source ih =>
    exact fun hlo hhi => .through (nested.widen hlo hhi) placed (ih hlo .refl)
  | inOrder unique input ih => exact fun hlo hhi => .inOrder unique (ih hlo hhi)

theorem position : c.position = 0 := by
  induction h with
  | requireNodes input ih => exact ih
  | _ => rfl

theorem tidy : c.Tidy := by
  cases h with
  | empty => exact fun _ => ⟨rfl, rfl⟩
  | ofRange first last => exact fun h => ⟨h, rfl⟩
  | _ => exact nofun

theorem sim : Sim p Fit gen live (some scope) lo hi env c c := by
  induction h generalizing live with
  | empty => exact .leaf .empty
  | ofItems items => exact .leaf (.items fun _ _ => trivial)
  | ofRange first last => exact .leaf (.range (fun _ => trivial) ..)
  | @ofParts _ parts each ih =>
    refine .concat 0 rfl rfl nofun ?_ ?_
    · intro c d hc hd
      cases hc.symm.trans hd
      exact ih c (mem_of_getElem? hc)
    · intro i c d σ hc hd
      cases hc.symm.trans hd
      exact ih c (mem_of_getElem? hc)
  | requireNodes input ih => exact .stage .nodesOnly ih
  | along axis test source ih => exact .stage (.axis axis test .ended none 0) ih
  | descending tests source ih => exact .stage (.descent tests none none 0) ih
  | pick n flat input ih => exact .stage (.nth n _ 0 false 0) ih
  | filter nested placed input ih => exact .predicate _ _ _ _ nested placed ih
  | loop focus name lower slot upper placed source ih =>
    exact .loop (l := .forEach _ _ focus) 0 (.inl rfl) (.forEach focus name lower slot upper placed) ih
  | through nested placed source ih => exact .loop (l := .step _) 0 (.inl rfl) (.step nested placed) ih
  | inOrder unique input ih => exact .stage (.unsorted unique none 0) ih

theorem standsFor (N : Nat) (σ : Slots) : StandsFor p N σ σ c c := by
  induction h with
  | empty => exact .leaf .empty
  | ofItems items => exact .leaf (.items fun _ _ => trivial)
  | ofRange first last => exact .leaf (.range (fun _ => trivial) ..)
  | @ofParts _ parts each ih =>
    refine .concat 0 false rfl rfl nofun ?_
    intro i c d hc hd
    cases hc.symm.trans hd
    exact ih c (mem_of_getElem? hc)
  | requireNodes input ih => exact .stage .nodesOnly false trivial ih
  | along axis test source ih => exact .stage (.axis axis test .ended none 0) false ⟨trivial, nofun⟩ ih
  | descending tests source ih => exact .stage (.descent tests none none 0) false ⟨nofun, nofun⟩ ih
  | pick n flat input ih => exact .stage (.nth n _ 0 false 0) false trivial ih
  | filter nested placed input ih => exact .predicate 0 none 0 false (Envs.level_some rfl) rfl rfl ih
  | loop focus name lower slot upper placed source ih =>
    exact .loop 0 false (Envs.level_some rfl) (.inl rfl) (Terms.sameLoop_deeper p (.forEach _ _ focus)) ih
  | through nested placed source ih =>
    exact .loop 0 false (Envs.level_some rfl) (.inl rfl) (Terms.sameLoop_deeper p (.step _)) ih
  | inOrder unique input ih => exact .stage (.unsorted unique none 0) false nofun ih

end

/-- The expressions of a chain work above the cursor that the chain starts from. -/
theorem chain : ∀ {mid : Nat} {c : Cursor}, lo ≤ mid →
      Apart (PlacedAt p Fit k scope) mid hi (steps.filterMap Step.expr?) →
      (perGroup = false → c.Flat ∧ ∀ s ∈ steps, s.isFilter = true) → c.Primed p Fit scope lo mid →
      (Calls.chain perGroup c steps).Primed p Fit scope lo hi := by
  induction steps with
  | nil => exact fun hmid happart _ hc => hc.widen .refl happart
  | cons step steps ih =>
    intro mid c hmid happart hflat hc
    have hrest : perGroup = false → ∀ s ∈ steps, s.isFilter = true :=
      fun h => (forall_mem_cons.mp (hflat h).2).2
    -- a step that navigates does not stand in a chain that is one group
    have hnavigates : ∀ {d : Cursor}, step.isFilter = false → perGroup = false →
        d.Flat ∧ ∀ s ∈ steps, s.isFilter = true := by
      intro d hstep h
      cases hstep.symm.trans ((hflat h).2 step (.head _))
    cases step with
    | axis axis test =>
      exact ih hmid happart (hnavigates rfl) (.along axis (test.getD .anyNode) hc)
    | descent tests => exact ih hmid happart (hnavigates rfl) (.descending tests hc)
    | position n =>
      exact ih hmid happart
        (fun h => ⟨by subst h; exact .pick n (hflat rfl).1, hrest h⟩)
        (.pick n (fun h => (hflat h).1) hc)
    | predicate e =>
      obtain ⟨m, hm, hplaced, hsteps⟩ := happart
      exact ih (Nat.le_trans hmid hm) hsteps (fun h => ⟨.filter e (hflat h).1, hrest h⟩)
        (.filter ⟨hmid, .refl, hm, .refl⟩ ⟨k, hplaced⟩ hc)
    | expr e nodesOnly =>
      obtain ⟨m, hm, hplaced, hsteps⟩ := happart
      have hthrough : (Cursor.through e c).Primed p Fit scope lo m :=
        .through ⟨hmid, .refl, hm, .refl⟩ ⟨k, hplaced⟩ hc
      refine ih (Nat.le_trans hmid hm) hsteps (hnavigates rfl) ?_
      cases nodesOnly with
      | true => exact .requireNodes hthrough
      | false => exact hthrough

end Cursor.Primed

end

/-! ## What expressions compute -/

section

variable {keeper : Program → Variables} {m : Calls} {n k : Nat} {p : Program} {Fit : FunctionEntry → Prop}
  {scope : List Binding} {lo hi : Nat} {c : Cursor} {s s' : Store} {e : ExprId} {f : Focus}

/-- The argument that a script returns has not been pulled. -/
theorem runScript_primed (hreply : script.KeepsReply pulled)
    (hargs : ∀ (i : Nat) c, args[i]? = some c → i ∉ pulled → c.Primed p Fit scope lo hi)
    (h : m.runScript f script args s = some (.ok c, s')) : c.Primed p Fit scope lo hi := by
  -- Positions that have been pulled are in the list, and so are those of copies.
  have hset : ∀ {args : Array Cursor} {pulled : List Nat} (i : Nat) (d : Cursor),
      (∀ (i : Nat) c, args[i]? = some c → i ∉ pulled → c.Primed p Fit scope lo hi) →
      ∀ (j : Nat) c, (args.setIfInBounds i d)[j]? = some c → j ∉ i :: pulled →
        c.Primed p Fit scope lo hi := by
    intro args pulled i d hargs j c hj hnot
    obtain ⟨hne, hnot⟩ := ne_and_not_mem_of_not_mem_cons hnot
    rw [Array.getElem?_setIfInBounds_ne (Ne.symm hne)] at hj
    exact hargs j c hj hnot
  induction script generalizing args pulled s with
  | done a =>
    cases a with
    | items items =>
      cases h
      exact .ofItems items
    | argument i =>
      cases h
      cases hi : args[i]? with
      | none => exact .empty
      | some c => exact hargs i c hi hreply
  | raise e | exhausted => cases h
  | advance i k ih =>
    obtain ⟨⟨d, r⟩, s₁, -, h⟩ := Eval.of_bind h
    exact ih r (hreply r) (hset i d hargs) h
  | current i k ih => exact ih _ (hreply _) hargs h
  | take i limit k ih | drain i k ih =>
    obtain ⟨⟨d, r⟩, s₁, -, h⟩ := Eval.of_bind h
    exact ih r (hreply r) (hset i d hargs) h
  | fork i k ih =>
    obtain ⟨d, s₁, -, h⟩ := Eval.of_bind h
    refine ih args.size (hreply _) ?_ h
    intro j c hj hnot
    obtain ⟨hne, hnot⟩ := ne_and_not_mem_of_not_mem_cons hnot
    rw [Array.getElem?_push, if_neg hne] at hj
    exact hargs j c hj hnot
  | contextItem k ih | position k ih => exact ih _ (hreply _) hargs h
  | last k ih =>
    obtain ⟨r, s₁, -, h⟩ := Eval.of_bind h
    exact ih r (hreply r) hargs h

/-- Every expression in its place computes a cursor from which nothing has been pulled. -/
def Calls.Primes (m : Calls) (p : Program) (Fit : FunctionEntry → Prop) : Prop :=
  ∀ {scope : List Binding} {lo hi : Nat} {e : ExprId} {f : Focus} {s : Store} {c : Cursor} {s' : Store},
    PlacedWithin p Fit scope lo hi e → m.execute e f s = some (.ok c, s') → c.Primed p Fit scope lo hi

theorem executeAll_primed (hm : m.Primes p Fit)
    (hes : ∀ e ∈ es, PlacedWithin p Fit scope lo hi e) (h : m.executeAll f es s = some (.ok cs, s')) :
    ∀ c ∈ cs, c.Primed p Fit scope lo hi := by
  induction es generalizing cs s with
  | nil =>
    cases h
    exact nofun
  | cons e es ih =>
    obtain ⟨he, hes⟩ := forall_mem_cons.mp hes
    obtain ⟨c, s₁, hexec, h⟩ := Eval.of_bind h
    obtain ⟨rest, s₂, hall, h⟩ := Eval.of_bind h
    cases h
    exact forall_mem_cons.mpr ⟨hm he hexec, ih hes hall⟩

theorem path_primed (hm : m.Primes p Fit) (hparts : Apart (PlacedAt p Fit k scope) lo hi plan.parts)
    (h : m.path f unique plan s = some (.ok c, s')) : c.Primed p Fit scope lo hi := by
  obtain ⟨start, rfl, hstart⟩ := Calls.path_cases h
  obtain ⟨mid, hmid, hsteps⟩ := Apart.split hparts
  have hfresh : start.Primed p Fit scope lo mid := by
    rcases hstart with ⟨i, -, -, rfl, -⟩ | ⟨r, -, -, rfl, -⟩ | ⟨e, d, hplan, hexec, rfl⟩
    · exact .ofItems _
    · exact .ofItems _
    · have hd : d.Primed p Fit scope lo mid := by
        refine hm (hmid.placedWithin ?_) hexec
        rw [hplan]
        exact mem_singleton_self e
      split
      · exact .requireNodes hd
      · exact hd
  have hchain : (Calls.chain true start plan.steps).Primed p Fit scope lo hi :=
    hfresh.chain hmid.le hsteps nofun
  split
  · exact .inOrder unique hchain
  · exact hchain

theorem tandem_self (m : Calls) (p : Program) (Fit : FunctionEntry → Prop) (scope : List Binding) (lo hi : Nat) :
    Tandem .strict (fun _ _ => True) (fun _ c d => c = d ∧ c.Primed p Fit scope lo hi)
      (fun _ c s d t => c = d ∧ s = t) Eq m m where
  fuel := .inl rfl
  pulls := by
    rintro - c s _ _ ⟨rfl, rfl⟩
    cases m.next c s with
    | none => exact .neither
    | some x => exact .both ⟨rfl, rfl, rfl, Law.allows_free, rfl, rfl⟩
  stores := fun _ _ _ _ h => h.2
  fresh := fun h hst => ⟨h.1, hst⟩

theorem primed_of_plain (h : Plain Ok c) : c.Primed p Fit scope lo hi := by
  rcases h with _ | _ | ⟨-, first, last⟩
  · exact .empty
  · exact .ofItems _
  · exact .ofRange first last

theorem related_self {Q : α → Prop} (hQ : ∀ a s', x s = some (.ok a, s') → Q a) :
    RelatedEval .strict (Sure Q Eq) Eq x x s s := by
  unfold RelatedEval
  cases hrun : x s with
  | none => exact .neither
  | some y =>
    obtain ⟨r, s'⟩ := y
    cases r with
    | ok a => exact .both (.ok ⟨⟨rfl, hQ a s' hrun⟩, rfl⟩)
    | error e => exact .both (.error trivial rfl)

theorem sameFocus_self (m : Calls) (f : Focus) : SameFocus .strict (fun _ => True) Eq m m f f := by
  refine ⟨rfl, rfl, fun _ _ => trivial, ?_⟩
  rintro s _ rfl
  exact (related_self (Q := fun _ => True) fun _ _ _ => trivial).mono (fun _ _ _ _ h => ⟨h.1.1, h.2⟩) fun _ _ h => h

/-- Forms that compute their value at once, or pass on that of a child. -/
theorem perform_direct_primed (hm : m.Primes p Fit) (hform : p.form? e = some form)
    (hdirect : form.isDirect = true) (hchildren : ∀ x ∈ p.children e, PlacedWithin p Fit scope lo hi x)
    (h : m.perform p e f s = some (.ok c, s')) : c.Primed p Fit scope lo hi := by
  have hoperands : Operands .strict (fun _ c d => c = d ∧ c.Primed p Fit scope lo hi) Eq m m f f form.arity
      (p.children e) (p.children e) := by
    refine ⟨.refl fun i x hx => ?_, fun _ _ _ => trivial⟩
    rintro s _ rfl
    exact related_self fun c s' hrun => hm (hchildren x (mem_of_getElem? hx)) hrun
  have hperform := (tandem_self m p Fit scope lo hi).perform_direct
    (R := fun c d => c = d ∧ c.Primed p Fit scope lo hi) hform hform hdirect (fun _ => sameFocus_self m f) hoperands
    (fun c hc => ⟨rfl, primed_of_plain hc⟩) (fun _ _ _ _ _ h => h) (rfl : s = s)
  obtain ⟨r, t', -, hr⟩ := Related.of_some hperform h
  cases hr with
  | ok h => exact h.1.1 ▸ h.1.2

structure Program.Tame (p : Program) (Fit : FunctionEntry → Prop) : Prop where
  filters : ∀ e steps, p.form? e = some (.filter steps) → ∀ s ∈ steps, s.isFilter = true
  replies : ∀ f, Fit f → f.KeepsReply

theorem perform_primed (hm : m.Primes p Fit) (hp : p.Tame Fit)
    (hplaced : PlacedWithin p Fit scope lo hi e) (h : m.perform p e f s = some (.ok c, s')) :
    c.Primed p Fit scope lo hi := by
  obtain ⟨l, u, hl, hle, hu, n, hplaced⟩ := hplaced
  refine Cursor.Primed.widen ?_ hl hu
  cases n with
  | zero => exact hplaced.elim
  | succ n =>
    unfold PlacedAt at hplaced
    cases hform : p.form? e with
    | none =>
      rw [hform] at hplaced
      exact hplaced.elim
    | some form =>
      rw [hform] at hplaced
      have hperform := h
      unfold Calls.perform at h
      rw [hform] at h
      cases form with
      | «variable» name b =>
        obtain ⟨items, s₁, -, h⟩ := Eval.of_bind h
        cases h
        exact .ofItems _
      | call name function =>
        obtain ⟨g, rfl, hfit, hchildren⟩ := hplaced
        obtain ⟨entry, s₁, hentry, h⟩ := Eval.of_bind h
        obtain ⟨args, s₂, hargs, h⟩ := Eval.of_bind h
        obtain ⟨hbound, -⟩ := Eval.of_liftM hentry
        obtain rfl : g = entry := Except.ok.inj hbound
        refine runScript_primed (hp.replies g hfit _) ?_ h
        intro i d hd _
        rw [getElem?_toArray] at hd
        exact executeAll_primed hm (fun x hx => hchildren.placedWithin hx) hargs d
          (mem_of_getElem? hd)
      | path plan => exact path_primed hm hplaced h
      | filter steps =>
        obtain ⟨source, hsource, mid, hmid, hinput, hsteps⟩ := hplaced
        obtain ⟨x, s₁, hx, h⟩ := Eval.of_bind h
        obtain ⟨input, s₂, hexec, hdone⟩ := Eval.of_bind h
        obtain ⟨hx, -⟩ := Eval.of_liftM hx
        unfold Calls.childAt at hx
        rw [hsource] at hx
        cases hx
        cases hdone
        refine Cursor.Primed.chain hmid hsteps ?_ ?_
        · exact fun _ => ⟨.ofParts _, hp.filters e steps hform⟩
        · refine .ofParts ?_
          intro d hd
          rw [mem_singleton.mp hd]
          exact hm (Placed.within ⟨n, hinput⟩ hmid) hexec
      | forEach name b =>
        obtain ⟨b, source, body, rfl, hloop⟩ := hplaced
        obtain ⟨binding, s₁, hb, h⟩ := Eval.of_bind h
        obtain ⟨body', s₂, hbody, h⟩ := Eval.of_bind h
        obtain ⟨source', s₃, hsource, h⟩ := Eval.of_bind h
        obtain ⟨input, s₄, hexec, h⟩ := Eval.of_bind h
        obtain ⟨snap, s₅, -, hdone⟩ := Eval.of_bind h
        obtain ⟨hb, -⟩ := Eval.of_liftM hb
        obtain ⟨hbody, -⟩ := Eval.of_liftM hbody
        obtain ⟨hsource, -⟩ := Eval.of_liftM hsource
        rw [hloop.children] at hbody hsource
        cases hb
        cases hbody
        cases hsource
        cases hdone
        exact .loop snap hloop.name hloop.lower hloop.upper .refl ⟨n, hloop.body⟩
          (hm (Placed.within ⟨n, hloop.source⟩ hloop.lower) hexec)
      | quantified q name b =>
        obtain ⟨binding, s₁, -, h⟩ := Eval.of_bind h
        obtain ⟨body, s₂, -, h⟩ := Eval.of_bind h
        obtain ⟨x, s₃, -, h⟩ := Eval.of_bind h
        obtain ⟨source, s₄, -, h⟩ := Eval.of_bind h
        obtain ⟨found, s₅, -, h⟩ := Eval.of_bind h
        cases h
        exact .ofItems _
      | sequence =>
        obtain ⟨parts, s₁, hparts, h⟩ := Eval.of_bind h
        cases h
        exact .ofParts (executeAll_primed hm (fun x hx => Placed.within ⟨n, hplaced x hx⟩ hle) hparts)
      | _ =>
        exact perform_direct_primed hm hform rfl
          (fun x hx => Placed.within ⟨n, hplaced x hx⟩ hle) hperform

/-- Nothing has been pulled from what an expression computes. -/
theorem execute_primed (hp : p.Tame Fit) (n : Nat) : (machineWith keeper n p).Primes p Fit := by
  induction n with
  | zero =>
    intro scope lo hi e f s c s' hplaced h
    cases h
  | succ n ih => exact fun hplaced h => perform_primed ih hp hplaced h

end

end XPath
