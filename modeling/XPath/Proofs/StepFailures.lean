import XPath.Proofs.Drains

/-!
# How steps fail

A step along an axis, a position and a check for nodes pull their input and evaluate nothing else. So they end
as their input ends, unless they meet an atomic value where a node must stand (`Calls.Reads.source`). Cursors
that deliver nodes only are known by their form (`Cursor.OfNodes`). An input that fails at once fails every step
above it at once (`reads_instantiate_of_failed`). An ordered cursor comes to what its input ends in as well,
unless nodes and atomic values meet before that (`drain_inOrder`).
-/

namespace XPath

open List

variable {keeper : Program → Variables} {p : Program} {n : Nat} {c c' d w : Cursor} {s s' : Store} {e : ExprId}
  {out ins : List (Item × Nat)} {r : Except Error Unit} {err : Error} {items : List Item} {M M' : Calls}
  {fuel inputPos pos : Nat} {unique : Bool}

/-! ## Drawing on an input -/

theorem Calls.Takes.reads (h : M.Takes c s items c' s') (hrest : M.Reads c' s' ins r) : ∃ out, M.Reads c s out r := by
  induction h with
  | nothing => exact ⟨ins, hrest⟩
  | @item _ c₁ _ _ _ _ i _ pull current rest ih =>
    obtain ⟨out, hout⟩ := ih hrest
    refine ⟨(i, c₁.position) :: out, ?_⟩
    unfold Calls.Reads
    rw [pull]
    exact .item current hout

theorem reads_of_ended (h : M.next c s = some ((c', .ok false), s')) : M.Reads c s [] (.ok ()) := by
  unfold Calls.Reads
  rw [h]
  exact .ended

theorem reads_of_failed (h : M.next c s = some ((c', .error err), s')) : M.Reads c s [] (.error err) := by
  unfold Calls.Reads
  rw [h]
  exact .failed

/-- A cursor whose pulls draw on its input ends as the input ends, or with an error of its own. -/
theorem Calls.Reads.source
    (hdraws : ∀ {w c s x s'}, W w c → M'.next w s = some (x, s') → M.Drawn W Own c s x s') (hw : W w c)
    (hreads : M'.Reads w s out r) : (∃ ins, M.Reads c s ins r) ∨ ∃ err, Own err ∧ r = .error err := by
  unfold Calls.Reads at hreads
  generalize hx : M'.next w s = x at hreads
  induction hreads generalizing w c s with
  | ended =>
    cases hdraws hw hx with
    | stopped taken pull stop =>
      exact .inl (taken.reads (reads_of_ended pull))
  | @failed _ _ err =>
    cases hdraws hw hx with
    | stopped taken pull stop =>
      exact .inl (taken.reads (reads_of_failed pull))
    | own h => exact .inr ⟨err, h, rfl⟩
  | item hcurrent rest ih =>
    cases hdraws hw hx with
    | item taken held =>
      rcases ih held rfl with ⟨ins, hins⟩ | hown
      · exact .inl (taken.reads hins)
      · exact .inr hown
    | stopped taken pull stop => exact absurd rfl stop

/-! ## Checks -/

def ChecksNodes (w d : Cursor) : Prop :=
  w = .nodesOnly d false

theorem drawn_checksNodes (hw : ChecksNodes w c) (h : (machineWith keeper (n + 1) p).next w s = some (x, s')) :
    (machineWith keeper n p).Drawn ChecksNodes (·.errorCode = .XPTY0019) c s x s' := by
  subst hw
  obtain ⟨⟨c₁, res⟩, s₁, hpull, h⟩ := Run.of_bind h
  match res with
  | .ok false | .error err =>
    cases h
    exact .stopped .nothing hpull nofun
  | .ok true =>
    obtain ⟨i, hi⟩ := current_of_next hpull rfl
    dsimp only at h
    rw [hi] at h
    cases i with
    | atomic a =>
      cases h
      exact .own (errorCode_format .XPTY0019 _)
    | node m =>
      cases h
      exact .item (.item hpull hi .nothing) rfl

/-- An atomic value that is checked for a node is an error. -/
theorem reads_requireNodes (hreads : (machineWith keeper n p).Reads c s ins r) :
    ∃ out r', (machineWith keeper (n + 1) p).Reads (.requireNodes c) s out r' ∧
      ((∃ x ∈ ins, x.1.isNode = false) → ∃ err, r' = .error err ∧ err.errorCode = .XPTY0019) := by
  unfold Calls.Reads at hreads ⊢
  generalize hy : (machineWith keeper n p).next c s = y at hreads
  induction hreads generalizing c s with
  | @ended c' s' =>
    have hnext : (machineWith keeper (n + 1) p).next (.requireNodes c) s =
        some ((.nodesOnly c' true, .ok false), s') := Run.bind_of_some hy
    rw [hnext]
    exact ⟨[], .ok (), .ended, by simp⟩
  | @failed c' s' err =>
    have hnext : (machineWith keeper (n + 1) p).next (.requireNodes c) s =
        some ((.nodesOnly c' true, .error err), s') := Run.bind_of_some hy
    rw [hnext]
    exact ⟨[], .error err, .failed, by simp⟩
  | @item c' s' i rest r hcurrent hrest ih =>
    have hpull : ∀ i', i = i' → (machineWith keeper (n + 1) p).next (.requireNodes c) s =
        match i' with
        | .atomic a => some ((.nodesOnly c' true, .error (.format .XPTY0019 [a.typeName])), s')
        | .node _ => some ((.nodesOnly c' false, .ok true), s') := by
      rintro i' rfl
      refine (Run.bind_of_some hy).trans ?_
      dsimp only
      rw [hcurrent]
      cases i <;> rfl
    cases i with
    | atomic a =>
      rw [hpull _ rfl]
      exact ⟨[], _, .failed, fun _ => ⟨_, rfl, errorCode_format .XPTY0019 _⟩⟩
    | node m =>
      obtain ⟨out, r', hout, hfails⟩ := ih rfl
      rw [hpull _ rfl]
      refine ⟨_, r', .item hcurrent hout, ?_⟩
      rintro ⟨x, hx, hatomic⟩
      rcases mem_cons.mp hx with rfl | hx
      · cases hatomic
      · exact hfails ⟨x, hx, hatomic⟩

/-! ## Nodes only -/

/-- The form of the cursor tells that it delivers nodes only. -/
inductive Cursor.OfNodes : Cursor → Prop
  | items {all rest : List Item} {cur : Option Item} {pos : Nat} {fin : Bool}
      (h : ∀ i ∈ rest, i.isNode = true) : OfNodes (.items all rest cur pos fin)
  | nodesOnly {input : Cursor} {fin : Bool} : OfNodes (.nodesOnly input fin)
  | axis {axis : Axis} {test : NodeTest} {source : Cursor} {walk : Walk} {cur : Option Node} {pos : Nat}
      {fin : Bool} : OfNodes (.axis axis test source walk cur pos fin)
  | descent {tests : List NodeTest} {source : Cursor} {walk : Option DescentWalk} {cur : Option Node} {pos : Nat}
      {fin : Bool} : OfNodes (.descent tests source walk cur pos fin)
  | sifts {c input : Cursor} (hc : c.SiftsFrom input) (h : OfNodes input) : OfNodes c

/-- A pull that gives an item gives a node, and the cursor keeps its form. -/
def Calls.KeepsNodes (M : Calls) : Prop :=
  ∀ {c s c' s'}, c.OfNodes → M.next c s = some ((c', .ok true), s') →
    c'.OfNodes ∧ ∃ n, c'.current = some (.node n)

theorem Calls.KeepsNodes.sifts (hM : M.KeepsNodes) :
    M.Sifts (fun c _ => c.OfNodes) fun c _ => c.OfNodes ∧ ∃ n, c.current = some (.node n) :=
  ⟨fun hc hpull => hM hc hpull, fun hc _ => hc, And.left⟩

theorem keepsNodes (keeper : Program → Variables) (n : Nat) (p : Program) : (machineWith keeper n p).KeepsNodes := by
  induction n with
  | zero =>
    intro c s c' s' _ h
    cases h
  | succ n ih =>
    intro c s c' s' hc h
    obtain ⟨i, hi⟩ := current_of_next h rfl
    cases hc with
    | @items all rest cur pos fin hrest =>
      cases rest with
      | nil => cases h
      | cons j rest =>
        cases h
        obtain ⟨m, rfl⟩ : ∃ m, j = .node m := by
          cases j with
          | node m => exact ⟨m, rfl⟩
          | atomic a => cases hrest _ (.head _)
        exact ⟨.items fun k hk => hrest k (.tail _ hk), m, rfl⟩
    | @nodesOnly input fin =>
      cases fin with
      | true => cases h
      | false =>
        obtain ⟨input', -, hitem⟩ := of_nodesOnlyNext h
        obtain ⟨rfl, hnode⟩ := hitem rfl
        cases i with
        | node m => exact ⟨.nodesOnly, m, hi⟩
        | atomic a => cases hnode _ hi
    | @axis axis test source walk cur pos fin =>
      cases fin with
      | true => cases h
      | false =>
        have hdrawn := Wander.drawn (ω := .axis axis test)
          (fun _ hpull => ⟨trivial, current_of_next hpull rfl⟩) trivial h
        cases hdrawn with
        | stopped _ _ hstop => exact absurd rfl hstop
        | item _ held =>
          obtain ⟨⟨walk', cur', pos', rfl⟩, -⟩ := held
          obtain ⟨m, -, rfl⟩ := Option.map_eq_some_iff.mp hi
          exact ⟨.axis, m, hi⟩
    | @descent tests source walk cur pos fin =>
      cases fin with
      | true => cases h
      | false =>
        have hdrawn := Wander.drawn (ω := .descent tests)
          (fun _ hpull => ⟨trivial, current_of_next hpull rfl⟩) trivial h
        cases hdrawn with
        | stopped _ _ hstop => exact absurd rfl hstop
        | item _ held =>
          obtain ⟨⟨walk', cur', pos', rfl⟩, -⟩ := held
          obtain ⟨m, -, rfl⟩ := Option.map_eq_some_iff.mp hi
          exact ⟨.descent, m, hi⟩
    | sifts hc hinput =>
      obtain ⟨d, hd, hcurrent, hnodes, m, hm⟩ := hc.next (ih.sifts) hinput h
      exact ⟨.sifts hd hnodes, m, hcurrent.trans hm⟩

theorem Cursor.OfNodes.takes (hc : c.OfNodes)
    (h : (machineWith keeper n p).Takes c s items c' s') : ∀ i ∈ items, i.isNode = true := by
  induction h with
  | nothing => exact nofun
  | item pull current rest ih =>
    obtain ⟨hc₁, m, hm⟩ := keepsNodes keeper n p hc pull
    refine forall_mem_cons.mpr ⟨?_, ih hc₁⟩
    cases current.symm.trans hm
    rfl

theorem Cursor.OfNodes.reads (hc : c.OfNodes) (h : (machineWith keeper n p).Reads c s out r) :
    ∀ x ∈ out, x.1.isNode = true := by
  unfold Calls.Reads at h
  generalize hx : (machineWith keeper n p).next c s = x at h
  induction h generalizing c s with
  | ended | failed => exact nofun
  | item hcurrent rest ih =>
    obtain ⟨hc₁, m, hm⟩ := keepsNodes keeper n p hc hx
    refine forall_mem_cons.mpr ⟨?_, ih hc₁ rfl⟩
    cases hcurrent.symm.trans hm
    rfl

/-- A walk from every node of an input that delivers nodes only ends as the input ends. -/
theorem Wander.reads_source (ω : Wander) {w : ω.W} (hc : c.OfNodes)
    (hreads : (machineWith keeper (n + 1) p).Reads (ω.wrap c w none 0 false) s out r) :
    ∃ ins, (machineWith keeper n p).Reads c s ins r := by
  have hkeeps : ∀ {c s c' s'}, c.OfNodes → (machineWith keeper n p).next c s = some ((c', .ok true), s') →
      c'.OfNodes ∧ ∃ i, c'.current = some i := by
    intro c s c' s' hc hpull
    obtain ⟨hc', m, hm⟩ := keepsNodes keeper n p hc hpull
    exact ⟨hc', _, hm⟩
  have hdrawn := Calls.Reads.source (W := fun w c => WalksFrom ω w c ∧ c.OfNodes)
    (fun {w c s x s'} hw hx => by
      obtain ⟨⟨walk, cur, pos, rfl⟩, hc⟩ := hw
      exact ω.drawn hkeeps hc (ω.machine ▸ hx)) ⟨⟨w, none, 0, rfl⟩, hc⟩ hreads
  rcases hdrawn with hins | ⟨_, ⟨-, _, _, _, _, _, hc', hpull, ha⟩, -⟩
  · exact hins
  · obtain ⟨-, m, hm⟩ := keepsNodes keeper n p hc' hpull
    cases hm.symm.trans ha

/-! ## Inputs that fail at once -/

theorem failed_of_reads (h : M.Reads c s [] (.error err)) : ∃ c' s', M.next c s = some ((c', .error err), s') := by
  unfold Calls.Reads at h
  generalize M.next c s = x at h
  cases h
  exact ⟨_, _, rfl⟩

section

variable (h : (machineWith keeper (n + 2) p).Reads c s [] (.error err))

include h

theorem reads_through_of_failed : (machineWith keeper (n + 3) p).Reads (.through e c) s [] (.error err) := by
  obtain ⟨c', s', hpull⟩ := failed_of_reads h
  have hnext : (machineWith keeper (n + 2) p).bodyNext ((machineWith keeper (n + 2) p).startStep e) true (.step e)
      (n + 1) c .idle 0 s = some ((.step e c' .idle 0 true, .error err), s') := Run.bind_of_some hpull
  exact reads_of_failed hnext

theorem reads_requireNodes_of_failed : (machineWith keeper (n + 3) p).Reads (.requireNodes c) s [] (.error err) := by
  obtain ⟨c', s', hpull⟩ := failed_of_reads h
  have hnext : (machineWith keeper (n + 2) p).nodesOnlyNext c s = some ((.nodesOnly c' true, .error err), s') :=
    Run.bind_of_some hpull
  exact reads_of_failed hnext

theorem Wander.reads_of_failed (ω : Wander) :
    (machineWith keeper (n + 3) p).Reads (ω.wrap c ω.stop none 0 false) s [] (.error err) := by
  obtain ⟨c', s', hpull⟩ := failed_of_reads h
  exact XPath.reads_of_failed (ω.machine.trans (ω.next_of_end ω.stopped hpull nofun))

theorem reads_instantiate_of_failed (step : Step) :
    ∃ m, (machineWith keeper (m + 2) p).Reads (Calls.instantiate true c step) s [] (.error err) := by
  obtain ⟨c', s', hpull⟩ := failed_of_reads h
  cases step with
  | axis a test => exact ⟨n + 1, (Wander.axis a _).reads_of_failed h⟩
  | descent tests => exact ⟨n + 1, (Wander.descent tests).reads_of_failed h⟩
  | position k =>
    have hnext : (machineWith keeper (n + 2) p).nthNext k true (n + 1) c 0 false 0 s = _ :=
      nthNext_of_end hpull nofun rfl
    exact ⟨n + 1, reads_of_failed hnext⟩
  | predicate e =>
    have hnext : (machineWith keeper (n + 2) p).predicateNext p e (n + 1) c 0 none none 0 s = _ :=
      predicateNext_of_end hpull nofun
    exact ⟨n + 1, reads_of_failed hnext⟩
  | expr e nodesOnly =>
    cases nodesOnly with
    | false => exact ⟨n + 1, reads_through_of_failed h⟩
    | true => exact ⟨n + 2, reads_requireNodes_of_failed (reads_through_of_failed h)⟩

end

theorem reads_chain_of_failed (h : (machineWith keeper (n + 2) p).Reads c s [] (.error err)) (steps : List Step) :
    ∃ m, (machineWith keeper (m + 2) p).Reads (Calls.chain true c steps) s [] (.error err) := by
  induction steps generalizing c n with
  | nil => exact ⟨n, h⟩
  | cons step steps ih =>
    obtain ⟨m, hstep⟩ := reads_instantiate_of_failed h step
    exact ih hstep

/-! ## Ordered cursors -/

/-- What an ordered cursor makes of these items, if its input ends so. -/
def arranged (unique : Bool) (items : List Item) (r : Except Error Unit) : Except Error (List Item) :=
  if items.any Item.isNode && items.any (!·.isNode) then .error (.format .XPTY0018 [])
  else r.map fun _ =>
    if items.any (!·.isNode) then items else (inDocumentOrder unique (items.filterMap Item.node?)).map .node

/-- The nodes and the atomic values that have been gathered, or why they could not be. -/
def gathered (nodes : List Node) (atomics : List Item) (r : Except Error Unit) : Except Error (List Node × List Item) :=
  if nodes.isEmpty || atomics.isEmpty then r.map fun _ => (nodes, atomics) else .error (.format .XPTY0018 [])

theorem gather_of_item (hpull : M.next c s = some ((c', .ok true), s')) (hi : c'.current = some i) :
    M.gather (fuel + 1) c nodes atomics s =
      (if ((i.node?.toList ++ nodes).isEmpty || ([i].filter (!·.isNode) ++ atomics).isEmpty) = true then
        M.gather fuel c' (i.node?.toList ++ nodes) ([i].filter (!·.isNode) ++ atomics)
      else throw (.format .XPTY0018 [])) s' := by
  rw [Calls.gather, Eval.bind_of_ok (Eval.lift_of_some hpull)]
  dsimp only
  rw [hi]
  cases i <;> rfl

theorem Calls.Reads.gather (hreads : M.Reads c s out r) :
    ∀ {fuel : Nat} {nodes : List Node} {atomics : List Item}, out.length < fuel →
      (nodes.isEmpty || atomics.isEmpty) = true →
      ∃ s', M.gather fuel c nodes atomics s =
        some (gathered ((out.filterMap (·.1.node?)).reverse ++ nodes)
          (((out.map Prod.fst).filter (!·.isNode)).reverse ++ atomics) r, s') := by
  unfold Calls.Reads at hreads
  generalize hx : M.next c s = x at hreads
  induction hreads generalizing c s with
  | @ended c' s' | @failed c' s' err =>
    intro fuel nodes atomics hfuel hone
    obtain ⟨fuel, rfl⟩ := exists_succ_of_lt hfuel
    refine ⟨s', ?_⟩
    rw [Calls.gather, Eval.bind_of_ok (Eval.lift_of_some hx)]
    change _ = some (gathered nodes atomics _, s')
    rw [gathered, if_pos hone]
    rfl
  | @item c' s' i out r hcurrent rest ih =>
    intro fuel nodes atomics hfuel hone
    obtain ⟨fuel, rfl⟩ := exists_succ_of_lt hfuel
    have hnodes : ((((i, c'.position) :: out).filterMap (·.1.node?)).reverse ++ nodes) =
        (out.filterMap (·.1.node?)).reverse ++ (i.node?.toList ++ nodes) := by
      cases i <;> simp [Item.node?]
    have hatomics : (((((i, c'.position) :: out).map Prod.fst).filter (!·.isNode)).reverse ++ atomics) =
        ((out.map Prod.fst).filter (!·.isNode)).reverse ++ ([i].filter (!·.isNode) ++ atomics) := by
      cases i <;> simp [Item.isNode]
    rw [gather_of_item hx hcurrent, hnodes, hatomics]
    generalize i.node?.toList ++ nodes = nodes
    generalize [i].filter (!·.isNode) ++ atomics = atomics
    by_cases hone : (nodes.isEmpty || atomics.isEmpty) = true
    · rw [if_pos hone]
      exact ih rfl (Nat.lt_of_succ_lt_succ hfuel) hone
    · refine ⟨s', ?_⟩
      rw [if_neg hone, gathered, if_neg]
      · rfl
      · simp only [Bool.or_eq_true, List.isEmpty_iff, List.append_eq_nil_iff] at hone ⊢
        exact fun h => hone (h.imp And.right And.right)

theorem gather_of_takes (h : M.Takes c s items c' s') :
    ∀ {fuel : Nat} {nodes : List Node} {atomics : List Item}, items.length ≤ fuel →
      (nodes.isEmpty || atomics.isEmpty) = true → (nodes ≠ [] ∨ ∃ i ∈ items, i.isNode = true) →
      (atomics ≠ [] ∨ ∃ i ∈ items, i.isNode = false) →
      ∃ t, M.gather fuel c nodes atomics s = some (.error (.format .XPTY0018 []), t) := by
  induction h with
  | nothing =>
    intro fuel nodes atomics _ hone hnode hatomic
    simp_all
  | @item c c₁ c' s s₁ s' i items pull current rest ih =>
    intro fuel nodes atomics hfuel hone hnode hatomic
    obtain ⟨fuel, rfl⟩ := exists_succ_of_lt hfuel
    rw [gather_of_item pull current]
    split
    · next hone' =>
      refine ih (Nat.le_of_succ_le_succ hfuel) hone' ?_ ?_
      · cases i <;> simp_all [Item.node?, Item.isNode]
      · cases i <;> simp_all [Item.node?, Item.isNode]
    · exact ⟨s₁, rfl⟩

/-- Gathering comes to nodes and atomic values together, or reads its input to the end. -/
theorem Calls.of_gather :
    ∀ {fuel : Nat} {c : Cursor} {nodes : List Node} {atomics : List Item} {s : Store},
      (machineWith keeper n p).gather fuel c nodes atomics s = some (x, s') →
      (x = .error (.format .XPTY0018 []) ∧ ∃ items c' t, (machineWith keeper n p).Takes c s items c' t ∧
        items.length ≤ fuel ∧ (nodes ≠ [] ∨ ∃ i ∈ items, i.isNode = true) ∧
        (atomics ≠ [] ∨ ∃ i ∈ items, i.isNode = false)) ∨
      ∃ out, (machineWith keeper n p).Reads c s out (x.map fun _ => ()) ∧ out.length < fuel := by
  intro fuel
  induction fuel with
  | zero => exact nofun
  | succ fuel ih =>
    intro c nodes atomics s h
    cases hpull : (machineWith keeper n p).next c s with
    | none =>
      have hnone : (machineWith keeper n p).gather (fuel + 1) c nodes atomics s = none := by
        rw [Calls.gather]
        change (((machineWith keeper n p).next c s).bind _).bind _ = none
        rw [hpull]
        rfl
      cases hnone.symm.trans h
    | some y =>
      obtain ⟨⟨c₁, r⟩, s₁⟩ := y
      match r with
      | .error e =>
        rw [Calls.gather, Eval.bind_of_ok (Eval.lift_of_some hpull)] at h
        cases h
        exact .inr ⟨[], reads_of_failed hpull, Nat.succ_pos fuel⟩
      | .ok false =>
        rw [Calls.gather, Eval.bind_of_ok (Eval.lift_of_some hpull)] at h
        cases h
        exact .inr ⟨[], reads_of_ended hpull, Nat.succ_pos fuel⟩
      | .ok true =>
        obtain ⟨i, hi⟩ := current_of_next hpull rfl
        rw [gather_of_item hpull hi] at h
        split at h
        · rcases ih h with ⟨rfl, items, c', t, htakes, hlength, hnode, hatomic⟩ | ⟨out, hreads, hlength⟩
          · refine .inl ⟨rfl, i :: items, c', t, .item hpull hi htakes, Nat.succ_le_succ hlength, ?_, ?_⟩
            · cases i <;> simp_all [Item.node?, Item.isNode]
            · cases i <;> simp_all [Item.node?, Item.isNode]
          · refine .inr ⟨(i, c₁.position) :: out, ?_, Nat.succ_lt_succ hlength⟩
            unfold Calls.Reads
            rw [hpull]
            exact .item hi hreads
        · cases h
          refine .inl ⟨rfl, [i], c₁, _, .item hpull hi .nothing, Nat.succ_le_succ (Nat.zero_le fuel), ?_, ?_⟩
          · cases i <;> simp_all [Item.node?, Item.isNode]
          · cases i <;> simp_all [Item.node?, Item.isNode]

theorem isEmpty_filterMap_node? (items : List Item) :
    (items.filterMap Item.node?).isEmpty = !items.any Item.isNode := by
  induction items with
  | nil => rfl
  | cons i items ih =>
    cases i with
    | node n => rfl
    | atomic a => exact ih

theorem isEmpty_filter_atomic (items : List Item) : (items.filter (!·.isNode)).isEmpty = !items.any (!·.isNode) := by
  rw [Bool.eq_iff_iff]
  simp

theorem Calls.Reads.arrange (unique : Bool) (hreads : M.Reads c s out r) (hfuel : out.length < M.fuel) :
    ∃ s', M.arrange unique c s = some (arranged unique (out.map Prod.fst) r, s') := by
  have hgather : ∃ s', M.gather M.fuel c [] [] s = some (_, s') := hreads.gather hfuel rfl
  obtain ⟨s', hgather⟩ := hgather
  refine ⟨s', ?_⟩
  have hmap : out.filterMap (·.1.node?) = (out.map Prod.fst).filterMap Item.node? := by
    rw [filterMap_map]
    rfl
  rw [append_nil, append_nil, hmap] at hgather
  generalize out.map Prod.fst = items at hgather ⊢
  unfold gathered at hgather
  rw [isEmpty_reverse, isEmpty_reverse, isEmpty_filterMap_node?, isEmpty_filter_atomic,
    ← Bool.not_and] at hgather
  unfold Calls.arrange arranged
  cases hmixed : items.any Item.isNode && items.any (!·.isNode) with
  | true =>
    rw [hmixed] at hgather
    exact Eval.bind_of_error hgather
  | false =>
    rw [hmixed] at hgather
    cases r with
    | error err => exact Eval.bind_of_error hgather
    | ok _ =>
      rw [Eval.bind_of_ok hgather]
      dsimp only
      rw [isEmpty_reverse, isEmpty_filter_atomic, reverse_reverse, reverse_reverse]
      cases hatomic : items.any (!·.isNode) with
      | false => rfl
      | true =>
        rw [hatomic, Bool.and_true] at hmixed
        have hself : items.filter (!·.isNode) = items := by
          refine filter_eq_self.mpr fun i hi => ?_
          rw [any_eq_false.mp hmixed i hi |> Bool.eq_false_of_not_eq_true]
          rfl
        rw [hself]
        rfl

theorem reads_sorted {all : List Item} : ∀ {rest : List Item} {cur : Option Item} {pos : Nat},
      (machineWith keeper (n + 1) p).Reads (.ordered unique (.sorted all rest) cur pos false) s
        (rest.zipIdx (pos + 1)) (.ok ())
  | [], _, _ => .ended
  | _ :: _, _, _ => .item rfl reads_sorted

theorem reads_inOrder (unique : Bool) (hreads : (machineWith keeper n p).Reads c s out r)
    (hfuel : out.length < (machineWith keeper n p).fuel) :
    ∃ out' r', (machineWith keeper (n + 1) p).Reads (.inOrder unique c) s out' r' ∧
      (r'.map fun _ => out'.map Prod.fst) = arranged unique (out.map Prod.fst) r := by
  obtain ⟨s', harrange⟩ := hreads.arrange unique hfuel
  have hpull : (machineWith keeper (n + 1) p).next (.inOrder unique c) s = _ := Run.bind_of_some harrange
  unfold Calls.Reads
  rw [hpull]
  cases arranged unique (out.map Prod.fst) r with
  | error err => exact ⟨[], .error err, .failed, rfl⟩
  | ok items =>
    cases items with
    | nil => exact ⟨[], .ok (), .ended, rfl⟩
    | cons i rest =>
      refine ⟨(i, 1) :: rest.zipIdx 2, .ok (), .item rfl reads_sorted, ?_⟩
      exact congrArg Except.ok (congrArg (i :: ·) (zipIdx_map_fst ..))

/-- An ordered cursor comes to its end without an error only if its input does. -/
theorem reads_of_inOrder (h : (machineWith keeper (n + 1) p).Reads (.inOrder unique c) s out (.ok ())) :
    ∃ ins, (machineWith keeper n p).Reads c s ins (.ok ()) ∧
      arranged unique (ins.map Prod.fst) (.ok ()) = .ok (out.map Prod.fst) := by
  have hpulled := h
  unfold Calls.Reads at hpulled
  cases harrange : (machineWith keeper n p).arrange unique c s with
  | none =>
    rw [show (machineWith keeper (n + 1) p).next (.inOrder unique c) s = none from Run.bind_of_none harrange]
      at hpulled
    cases hpulled
  | some x =>
    obtain ⟨x, s'⟩ := x
    rw [show (machineWith keeper (n + 1) p).next (.inOrder unique c) s = _ from Run.bind_of_some harrange]
      at hpulled
    cases x with
    | error err => cases hpulled
    | ok items =>
      obtain ⟨x, s₁, hgather, -⟩ := Eval.of_bind harrange
      rcases Calls.of_gather hgather with ⟨hmixed, -⟩ | ⟨ins, hins, hfuel⟩
      · cases hmixed
      · obtain ⟨out', r', hreads, harranged⟩ := reads_inOrder unique hins hfuel
        obtain ⟨rfl, rfl⟩ := Calls.Reading.unique h hreads
        exact ⟨ins, hins, harranged.symm⟩

end XPath
