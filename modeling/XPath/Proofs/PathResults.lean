import XPath.Proofs.ContractQueries
import XPath.Proofs.PathErrors
import XPath.Proofs.Twins

/-!
# What a path comes to

In an environment a path that evaluates without an error comes to what its steps make of the groups that it
starts from, sorted if its plan says so (`Compiled.delivers_path_iff`). The main expression of a query comes to
what it delivers in the environment of the external variables (`Query.evaluates_iff`), which depends on the
values that are given and not on the query (`Compiled.environment_of_createSlots`).
-/

namespace XPath

variable {p : Program} {σ : Slots} {e : ExprId} {snap : Snapshot} {c : Cursor} {unique : Bool}
  {groups ins : List (List Item)} {items : List Item} {n : Nat} {f : Focus} {s t : Store} {plan : PathPlan}
  {start : Cursor} {slots : Slots} {values : List (ExpandedName × List Item)}

/-! ## Cursors of paths -/

namespace Cursor.Ready

theorem requireNodes (h : c.Ready p σ) : (Cursor.requireNodes c).Ready p σ := by
  obtain ⟨⟨N, hself⟩, -, hposition⟩ := h
  exact ⟨⟨N, .stage .nodesOnly false trivial hself⟩, nofun, hposition⟩

theorem inOrder (h : c.Ready p σ) (unique : Bool) : (Cursor.inOrder unique c).Ready p σ := by
  obtain ⟨⟨N, hself⟩, -, -⟩ := h
  exact ⟨⟨N, .stage (.unsorted unique none 0) false nofun hself⟩, nofun, rfl⟩

theorem chain (h : c.Ready p σ) (steps : List Step) : (Calls.chain true c steps).Ready p σ := by
  induction steps generalizing c with
  | nil => exact h
  | cons step steps ih => exact ih (h.instantiate step)

end Cursor.Ready

/-! ## Ordered cursors -/

theorem exists_gives_of_inOrder (hc : c.Ready p σ) (h : (Cursor.inOrder unique c).Gives p σ groups) :
    ∃ ins, c.Gives p σ ins ∧ arranged unique ins.flatten (.ok ()) = .ok groups.flatten := by
  obtain ⟨n, s, hs, hreads⟩ := h.yields
  cases n with
  | zero => cases hreads
  | succ n =>
    obtain ⟨ins, hins, harranged⟩ := reads_of_inOrder hreads
    obtain ⟨inGroups, hgives, rfl⟩ := hc.gives ⟨n, s, hs, hins⟩
    refine ⟨inGroups, hgives, ?_⟩
    rw [map_fst_inGroups, map_fst_inGroups] at harranged
    exact harranged

theorem exists_inOrder_gives (hp : p.Pure) (hc : c.Ready p σ) (h : c.Gives p σ ins)
    (hitems : arranged unique ins.flatten (.ok ()) = .ok items) :
    ∃ groups, (Cursor.inOrder unique c).Gives p σ groups ∧ groups.flatten = items := by
  obtain ⟨N, hN⟩ := h.yields.exists_depth hp hc.self
  have hroom : (inGroups ins).length < (lexicalMachine (N + (inGroups ins).length + 2) p).fuel := by
    rw [lexicalMachine, fuel_machineWith]
    omega
  obtain ⟨out, r, hreads, harranged⟩ := reads_inOrder unique (hN _ (by omega) (.ofSlots σ) rfl) hroom
  rw [map_fst_inGroups, hitems] at harranged
  cases r with
  | error err => cases harranged
  | ok _ =>
    obtain ⟨groups, hgives, rfl⟩ := (hc.inOrder unique).gives ⟨_, _, rfl, hreads⟩
    refine ⟨groups, hgives, ?_⟩
    rw [← map_fst_inGroups]
    exact Except.ok.inj harranged

/-! ## Expressions in their places -/

/-- The value of the expression in the focus comes in these groups, without an error. -/
def Program.Offers (p : Program) (σ : Slots) (e : ExprId) (snap : Snapshot) (groups : List (List Item)) : Prop :=
  ∃ n s c, (lexicalMachine n p).execute e (.fixed snap) (.ofSlots σ) = some (.ok c, s) ∧ c.Gives p σ groups

theorem Program.Offers.delivers (h : p.Offers σ e snap groups) : p.Delivers σ e snap groups.flatten := by
  obtain ⟨n, s, c, hrun, hgives⟩ := h
  exact ⟨n, s, c, _, hrun, hgives.yields, (map_fst_inGroups groups).symm⟩

def PathPlan.StartsFrom (plan : PathPlan) (p : Program) (σ : Slots) (snap : Snapshot) (ins : List (List Item)) : Prop :=
  match plan.start with
  | .context => ∃ i, snap.item = some i ∧ ins = [[i]]
  | .root => ∃ n, snap.item = some (.node n) ∧ ins = [[.node n.root]]
  | .expr b => p.Offers σ b snap ins ∧ (plan.startNodesOnly = true → ∀ g ∈ ins, ∀ i ∈ g, i.isNode = true)

section

variable {cx : StaticContext} {x : Expr} {q : Query}

theorem Compiled.ready (hq : Compiled cx q) (hf : ∀ f, cx.Callable f → f.KeepsReply)
    (he : q.program.Occurs q.root e) (hrun : (lexicalMachine n q.program).execute e f s = some (.ok c, t)) :
    c.Ready q.program σ := by
  obtain ⟨scope, lo, hi, hle, -, hplaced⟩ := hq.seated.occurs he
  exact (execute_primed (hq.tame hf) n (hplaced.within hle) hrun).ready

theorem Compiled.offers_of_delivers (hq : Compiled cx q) (hf : ∀ f, cx.Callable f → f.KeepsReply)
    (he : q.program.Occurs q.root e) (h : q.program.Delivers σ e snap items) :
    ∃ groups, q.program.Offers σ e snap groups ∧ items = groups.flatten := by
  obtain ⟨n, s, c, out, hrun, hyields, rfl⟩ := h
  obtain ⟨groups, hgives, rfl⟩ := (hq.ready hf he hrun).gives hyields
  exact ⟨groups, ⟨n, s, c, hrun, hgives⟩, map_fst_inGroups groups⟩

theorem PathPlan.path_of_begins {M : Calls} (h : plan.Begins M f s start t) (unique : Bool) :
    M.path f unique plan s = some (.ok (if plan.sort then .inOrder unique (plan.upTo start plan.steps)
      else plan.upTo start plan.steps), t) := by
  unfold PathPlan.Begins at h
  unfold Calls.path PathPlan.upTo PathPlan.source
  cases hstart : plan.start with
  | context =>
    rw [hstart] at h
    obtain ⟨i, hi, rfl, rfl⟩ := h
    have hitem : f.requireItem = .ok i := by rw [Focus.requireItem, hi]
    rw [hitem]
    rfl
  | root =>
    rw [hstart] at h
    obtain ⟨n, hn, rfl, rfl⟩ := h
    have hroot : f.root = .ok n.root := by rw [Focus.root, hn]
    rw [hroot]
    rfl
  | expr b =>
    rw [hstart] at h
    exact Eval.bind_of_ok h

/-- A path that has been started comes to what its steps make of the groups that it starts from. -/
theorem PathPlan.gives_iff (hp : p.Pure) (hr : p.Reliable) (hsource : (plan.source start).Ready p σ) :
    (∃ groups, (if plan.sort then Cursor.inOrder unique (plan.upTo start plan.steps)
      else plan.upTo start plan.steps).Gives p σ groups ∧ items = groups.flatten) ↔
      ∃ ins outs, (plan.source start).Gives p σ ins ∧ TurnAll p σ plan.steps ins outs ∧
        plan.outcome unique outs.flatten (.ok ()) = .ok items := by
  have hchain : ∀ {outs}, (plan.upTo start plan.steps).Gives p σ outs ↔
      ∃ ins, (plan.source start).Gives p σ ins ∧ TurnAll p σ plan.steps ins outs := gives_chain_iff hp hr hsource
  have hready : (plan.upTo start plan.steps).Ready p σ := hsource.chain plan.steps
  unfold PathPlan.outcome
  cases plan.sort with
  | true =>
    constructor
    · rintro ⟨groups, hgives, rfl⟩
      obtain ⟨outs, houts, harranged⟩ := exists_gives_of_inOrder hready hgives
      obtain ⟨ins, hins, hturn⟩ := hchain.mp houts
      exact ⟨ins, outs, hins, hturn, harranged⟩
    · rintro ⟨ins, outs, hins, hturn, harranged⟩
      obtain ⟨groups, hgives, hflatten⟩ :=
        exists_inOrder_gives hp hready (hchain.mpr ⟨ins, hins, hturn⟩) harranged
      exact ⟨groups, hgives, hflatten.symm⟩
  | false =>
    constructor
    · rintro ⟨groups, hgives, rfl⟩
      obtain ⟨ins, hins, hturn⟩ := hchain.mp hgives
      exact ⟨ins, groups, hins, hturn, rfl⟩
    · rintro ⟨ins, outs, hins, hturn, hitems⟩
      exact ⟨outs, hchain.mpr ⟨ins, hins, hturn⟩, (Except.ok.inj hitems).symm⟩

theorem gives_ofItem_iff (hp : p.Pure) {i : Item} : (Cursor.ofItem i).Gives p σ ins ↔ ins = [[i]] := by
  have hgives : (Cursor.ofItem i).Gives p σ [[i]] := gives_ofItems
  constructor
  · exact fun h => Cursor.Gives.unique hp ready_ofItems h hgives
  · rintro rfl
    exact hgives

theorem Compiled.ready_source (hq : Compiled cx q) (hf : ∀ f, cx.Callable f → f.KeepsReply)
    (he : q.program.Occurs q.root e) (hplan : q.program.form? e = some (.path plan))
    (h : plan.Begins (lexicalMachine n q.program) f s start t) : (plan.source start).Ready q.program σ := by
  unfold PathPlan.Begins at h
  unfold PathPlan.source
  cases hstart : plan.start with
  | context =>
    rw [hstart] at h
    obtain ⟨i, -, rfl, -⟩ := h
    exact ready_ofItems
  | root =>
    rw [hstart] at h
    obtain ⟨r, -, rfl, -⟩ := h
    exact ready_ofItems
  | expr b =>
    rw [hstart] at h
    have hpart : b ∈ q.program.parts e := by
      unfold Program.parts PathPlan.parts
      rw [hplan]
      dsimp only
      rw [hstart]
      exact List.mem_append_left _ (List.mem_singleton_self b)
    have hready := hq.ready (σ := σ) hf (he.tail hpart) h
    dsimp only
    split
    · exact hready.requireNodes
    · exact hready

/-- The groups that a path starts from are those of its source. -/
theorem PathPlan.startsFrom_iff (hp : p.Pure) : plan.StartsFrom p σ snap ins ↔ ∃ n start t,
      plan.Begins (lexicalMachine n p) (.fixed snap) (.ofSlots σ) start t ∧ (plan.source start).Gives p σ ins := by
  unfold PathPlan.StartsFrom PathPlan.Begins PathPlan.source
  cases plan.start with
  | context | root =>
    constructor
    · rintro ⟨i, hi, rfl⟩
      exact ⟨0, _, _, ⟨i, hi, rfl, rfl⟩, (gives_ofItem_iff hp).mpr rfl⟩
    · rintro ⟨n, start, t, ⟨i, hi, rfl, -⟩, hgives⟩
      exact ⟨i, hi, (gives_ofItem_iff hp).mp hgives⟩
  | expr b =>
    have hsource : ∀ {start : Cursor}, (if plan.startNodesOnly then start.requireNodes else start).Gives p σ ins ↔
        start.Gives p σ ins ∧ (plan.startNodesOnly = true → ∀ g ∈ ins, ∀ i ∈ g, i.isNode = true) := by
      intro start
      split
      · next h => rw [gives_requireNodes_iff, forall_prop_of_true h]
      · next h => exact ⟨fun hgives => ⟨hgives, fun h' => absurd h' h⟩, And.left⟩
    constructor
    · rintro ⟨⟨n, t, start, hrun, hgives⟩, hnodes⟩
      exact ⟨n, start, t, hrun, hsource.mpr ⟨hgives, hnodes⟩⟩
    · rintro ⟨n, start, t, hrun, hgives⟩
      obtain ⟨hgives, hnodes⟩ := hsource.mp hgives
      exact ⟨⟨n, t, start, hrun, hgives⟩, hnodes⟩

/-- A path comes to what its steps make of the groups that it starts from. -/
theorem Compiled.delivers_path_iff (hq : Compiled cx q) (hp : q.program.Pure) (hr : q.program.Reliable)
    (hf : ∀ f, cx.Callable f → f.KeepsReply) (he : q.program.Occurs q.root e)
    (hplan : q.program.form? e = some (.path plan)) : q.program.Delivers σ e snap items ↔
      ∃ ins outs, plan.StartsFrom q.program σ snap ins ∧ TurnAll q.program σ plan.steps ins outs ∧
        plan.outcome q.program.static.settings.uniqueNodes outs.flatten (.ok ()) = .ok items := by
  constructor
  · intro h
    obtain ⟨groups, ⟨n, t, value, hrun, hgives⟩, rfl⟩ := hq.offers_of_delivers hf he h
    cases n with
    | zero => cases hrun
    | succ n =>
      rw [lexicalMachine, execute_path hplan] at hrun
      obtain ⟨start, hbegins, rfl⟩ := PathPlan.begins_of_path hrun
      have hready := hq.ready_source (σ := σ) hf he hplan hbegins
      obtain ⟨ins, outs, hins, hturn, hitems⟩ := (PathPlan.gives_iff hp hr hready).mp ⟨groups, hgives, rfl⟩
      exact ⟨ins, outs, (PathPlan.startsFrom_iff hp).mpr ⟨n, start, t, hbegins, hins⟩, hturn, hitems⟩
  · rintro ⟨ins, outs, hstart, hturn, hitems⟩
    obtain ⟨n, start, t, hbegins, hins⟩ := (PathPlan.startsFrom_iff hp).mp hstart
    have hready := hq.ready_source (σ := σ) hf he hplan hbegins
    obtain ⟨groups, hgives, rfl⟩ := (PathPlan.gives_iff hp hr hready).mpr ⟨ins, outs, hins, hturn, hitems⟩
    refine Program.Offers.delivers ⟨n + 1, t, _, ?_, hgives⟩
    rw [lexicalMachine, execute_path hplan]
    exact PathPlan.path_of_begins hbegins _

/-! ## Queries -/

/-- A query comes to what its main expression delivers in the environment of the external variables. -/
theorem Compiled.evaluates_iff (hq : Compiled cx q) (hp : q.program.Pure)
    (hf : ∀ f, cx.Callable f → f.KeepsReply) {focus : Snapshot} :
    (∃ n left, q.evaluateOn n focus slots = some (.ok items, left)) ↔
      q.program.Delivers (q.environment slots) q.root focus items := by
  obtain ⟨top, htop, hplaced⟩ := hq.placed
  have hslots : ∀ n, (q.evaluateOn n focus slots).map (·.1) =
      ((lexicalMachine n q.program).read q.root (.fixed focus) (.ofSlots (q.environment slots))).map (·.1) := by
    obtain ⟨hstatic, hexternal, -⟩ := hq
    subst hstatic
    exact fun n => Query.evaluateOn_of_placed hf hexternal htop hplaced n focus slots
  rw [Program.delivers_iff_read hp]
  refine exists_congr fun n => ?_
  rw [exists_some_iff, exists_some_iff, hslots]

theorem Slots.values_of_get? {i : Nat} (h : slots.get? i = some items) : slots.values[i]? = some (some items) :=
  Option.join_eq_some_iff.mp h

/-- The environment that is made of the values of the external variables. -/
def StaticContext.externalSlots (c : StaticContext) (values : List (ExpandedName × List Item)) : Slots :=
  ⟨(c.settings.externals.map fun name => values.lookup name).toArray⟩

theorem StaticContext.get?_externalSlots (c : StaticContext) (values : List (ExpandedName × List Item)) (i : Nat)
    (hi : c.settings.externals.length ≤ i) : (c.externalSlots values).get? i = none := by
  simp [externalSlots, Slots.get?, List.getElem?_eq_none hi]

/-- The environment of an evaluation is made of the values of the external variables. -/
theorem Compiled.environment_of_createSlots (hq : Compiled cx q) (h : q.createSlots values = .ok slots) :
    q.environment slots = cx.externalSlots values := by
  unfold Query.createSlots at h
  rw [hq.static] at h
  unfold Query.environment
  rw [hq.external]
  refine congrArg Slots.mk (Array.ext_getElem? fun i => ?_)
  have hright : (cx.settings.externals.map fun name => values.lookup name).toArray[i]? =
      cx.settings.externals[i]?.map fun name => values.lookup name := by simp
  rw [hright, Array.getElem?_extract]
  cases hname : cx.settings.externals[i]? with
  | none =>
    have hi : cx.settings.externals.length ≤ i := List.getElem?_eq_none_iff.mp hname
    rw [if_neg (by omega)]
    rfl
  | some name =>
    obtain ⟨items, hlookup, hget⟩ := (Query.fillSlots_get? h).1 i name hname
    rw [Nat.zero_add] at hget
    have hi := (List.getElem?_eq_some_iff.mp hname).1
    have hvalues := Slots.values_of_get? hget
    have hsize := (Array.getElem?_eq_some_iff.mp hvalues).1
    rw [if_pos (by omega), Nat.zero_add, hvalues, Option.map_some, hlookup]

end

end XPath
