import XPath.Proofs.Descents

/-!
# Reading a descent

A descent stands for `descendant-or-self::node()` followed by child steps. For every node of its source it
delivers one group, with the nodes that these steps deliver from there (`Calls.reads_descending`). The steps
deliver each node once, but children of a node before what is below its first child; the descent delivers them in
document order.
-/

namespace XPath

open List

variable {keeper : Program → Variables} {p : Program} {k : Nat} {source : Cursor} {s : Store}
  {ins : List (Item × Nat)} {r : Except Error Unit} {tests : List NodeTest}

def Step.spelledOut (tests : List NodeTest) : List Step :=
  .axis .descendantOrSelf (some .anyNode) :: tests.map fun t => .axis .child (some t)

namespace Calls

/-! ## Cursors that are read at all depths from some depth on -/

/-- From some depth on, in all programs and stores, the cursor delivers these groups of nodes. -/
def Lists (keeper : Program → Variables) (c : Cursor) (groups : List (List Node)) : Prop :=
  ∃ K, ∀ k ≥ K, ∀ p s, (machineWith keeper k p).Reads c s (groups.flatMap (numbered 1)) (.ok ())

theorem lists_ofItem (keeper : Program → Variables) (n : Node) : Lists keeper (.ofItem (.node n)) [[n]] := by
  refine ⟨1, fun k hk p s => ?_⟩
  obtain ⟨k, rfl⟩ := Nat.exists_eq_add_of_le' hk
  exact .item rfl .ended

theorem reads_wander (ω : Wander) (hsource : (machineWith keeper k p).Reads source s ins r)
    (hfuel : ins.length + 1 < k) {groups : List (List Node)}
    (hgroups : List.Forall₂ (fun n => Exhausts ω.step (ω.start n)) (leadingNodes ins) groups) :
    (machineWith keeper (k + 1) p).Reads (ω.wrap source ω.stop none 0 false) s (groups.flatMap (numbered 1))
      (if ins.all (·.1.isNode) then r else .error ω.err) := by
  have hroom : ins.length < (machineWith keeper k p).fuel := by
    rw [fuel_machineWith]
    omega
  unfold Reads
  rw [ω.machine]
  exact Wander.reading hsource hroom hgroups (.nothing ω.stopped) hroom

theorem map_fst_numbered (groups : List (List Node)) :
    (groups.flatMap (numbered 1)).map Prod.fst = groups.flatten.map .node := by
  induction groups with
  | nil => rfl
  | cons g groups ih =>
    rw [flatMap_cons, map_append, ih, numbered, zipIdx_map_fst, flatten_cons,
      map_append]

theorem Lists.along {c : Cursor} {ins outs : List (List Node)} {axis : Axis} {test : NodeTest}
    (hc : Lists keeper c ins) (houts : List.Forall₂ (axis.Reaches test) ins.flatten outs) :
    Lists keeper (.along axis test c) outs := by
  obtain ⟨K, hK⟩ := hc
  obtain ⟨hleading, hnodes⟩ := leadingNodes_of_nodes (map_fst_numbered ins)
  refine ⟨max K ((ins.flatMap (numbered 1)).length + 2) + 1, fun k hk p s => ?_⟩
  obtain ⟨k, rfl⟩ := Nat.exists_eq_add_of_le' (Nat.le_trans (Nat.le_add_left 1 _) hk)
  have hreads := reads_wander (.axis axis test) (hK k (by omega) p s) (by omega) (hleading ▸ houts)
  rw [if_pos hnodes] at hreads
  exact hreads

/-- Child steps one after the other on top of a cursor that lists nodes. -/
theorem Lists.childRuns : ∀ {c : Cursor} {ins : List (List Node)} {out : List Node}, Lists keeper c ins →
      ChildRuns tests ins.flatten out →
      ∃ outs, outs.flatten = out ∧
        Lists keeper (chain true c (tests.map fun t => .axis .child (some t))) outs := by
  induction tests with
  | nil => exact fun {c ins out} hc hout => ⟨ins, hout.symm, hc⟩
  | cons t ts ih =>
    rintro c ins out hc ⟨groups, hgroups, hout⟩
    exact ih (hc.along hgroups) hout

/-! ## Descents -/

/-- What a descent finds from a node: the nodes that the steps deliver from there, in document order. -/
structure DescentGroup (keeper : Program → Variables) (tests : List NodeTest) (n : Node) (g : List Node) : Prop where
  ordered : g.Pairwise fun a b => a.compare b = .lt
  reaches : DescentReaches tests n g
  spelledOut : ∃ outs, Lists keeper (chain true (.ofItem (.node n)) (Step.spelledOut tests)) outs ∧
    outs.flatten.Nodup ∧ outs.flatten.Perm g

theorem exists_descentGroup {F : Forest} {n : Node} (hn : F.Has n.doc) (htests : tests ≠ []) :
    ∃ g, DescentGroup keeper tests n g := by
  obtain ⟨ps, hps⟩ := F.exists_below hn
  obtain ⟨out, hout, hnodup, hmem⟩ := hps.exists_childRuns hn tests
  have hself : List.Forall₂ (Axis.descendantOrSelf.Reaches .anyNode) [[n]].flatten [n :: ps.map Prod.fst] :=
    .cons (hps.reaches_descendantOrSelf rfl) .nil
  have hbelow : [n :: ps.map Prod.fst].flatten = n :: ps.map Prod.fst := by simp
  obtain ⟨outs, rfl, houts⟩ := ((lists_ofItem keeper n).along hself).childRuns (hbelow.symm ▸ hout)
  have hordered := (pairwise_cons.mp hps.ordered).2
  have hfound := (nodup_cons.mp hps.nodup).2
  have hsub : ((chainEnds tests ps).map Prod.fst).Sublist (ps.map Prod.fst) := filter_sublist.map _
  refine ⟨(chainEnds tests ps).map Prod.fst, hordered.sublist hsub, hps.descentReaches tests, outs, houts,
    hnodup, ?_⟩
  exact (perm_ext_iff_of_nodup hnodup (hfound.sublist hsub)).mpr fun m =>
    (hmem m).trans (hps.mem_chainEnds_iff htests).symm

/-- A descent delivers, for the nodes of its source in turn, one group with the nodes that the steps it stands for
deliver from there, in document order. An atomic value in the source is an error there. -/
theorem reads_descending (htests : tests ≠ []) (hsource : (machineWith keeper k p).Reads source s ins r)
    (hfuel : ins.length + 1 < k) (hnodes : ∀ n ∈ leadingNodes ins, n.Walkable .child) :
    ∃ groups, List.Forall₂ (DescentGroup keeper tests) (leadingNodes ins) groups ∧
      (machineWith keeper (k + 1) p).Reads (.descending tests source) s (groups.flatMap (numbered 1))
        (if ins.all (·.1.isNode) then r else .error (.format .XPTY0020 [Axis.descendantOrSelf.text])) := by
  have hgroup : ∀ n ∈ leadingNodes ins, ∃ g, DescentGroup keeper tests n g := by
    intro n hn
    obtain ⟨id, f, hf, hdoc⟩ := (hnodes n hn).built
    have hdocs : (Forest.ofTrees fun _ => some f).Has n.doc := ⟨f, rfl, hf, by rw [hdoc]; rfl⟩
    exact exists_descentGroup hdocs htests
  obtain ⟨groups, hgroups⟩ := exists_forall₂ hgroup
  refine ⟨groups, hgroups, ?_⟩
  exact reads_wander (.descent tests) hsource hfuel (hgroups.imp fun _ _ h => h.reaches)

end Calls

/-- `<r a="1"><b><c/></b><d/></r>` -/
def Document.nestedTree : Document :=
  .build 0 (.element ⟨none, "r", none⟩ [] [⟨⟨none, "a", none⟩, "1"⟩]
    [.element ⟨none, "b", none⟩ [] [] [.element ⟨none, "c", none⟩ [] [] []],
      .element ⟨none, "d", none⟩ [] [] []])

/-- From an attribute and from the root element. The child steps deliver the second child of the root before what
is below the first. -/
theorem Calls.reads_descending_nested :
    let source : List Item := [.node ⟨.nestedTree, .entry 1⟩, .node ⟨.nestedTree, .entry 0⟩]
    let element : NodeTest := .name .anyName
    let m := machineWith fun _ => .inSlots
    (∃ groups, List.Forall₂ (DescentGroup (fun _ => .inSlots) [element]) (leadingNodes (source.zipIdx 1)) groups ∧
      (m 7 (.empty .standard)).Reads (.descending [element] (.ofItems source)) (.ofSlots (.ofSize 0))
        (groups.flatMap (numbered 1)) (.ok ())) ∧
    (m 7 (.empty .standard)).Reads (.descending [element] (.ofItems source)) (.ofSlots (.ofSize 0))
      (numbered 1 [⟨.nestedTree, .entry 2⟩, ⟨.nestedTree, .entry 3⟩, ⟨.nestedTree, .entry 4⟩]) (.ok ()) ∧
    (m 7 (.empty .standard)).Reads (chain true (.ofItems source) (Step.spelledOut [element]))
      (.ofSlots (.ofSize 0))
      ([[⟨.nestedTree, .entry 2⟩, ⟨.nestedTree, .entry 4⟩], [⟨.nestedTree, .entry 3⟩]].flatMap (numbered 1))
      (.ok ()) := by
  intro source element m
  refine ⟨reads_descending (k := 6) (r := .ok ()) (by decide) (.item rfl (.item rfl .ended)) (by decide) ?_,
    .item rfl (.item rfl (.item rfl .ended)), .item rfl (.item rfl (.item rfl .ended))⟩
  have hbuilt : ∃ id f, Fragment.isProper f = true ∧ Document.nestedTree = .build id f :=
    ⟨0, _, by decide, rfl⟩
  intro n hn
  rcases mem_cons.mp hn with rfl | hn
  · exact ⟨hbuilt, by unfold Node.Exists; decide, nofun⟩
  rcases mem_cons.mp hn with rfl | hn
  · exact ⟨hbuilt, by unfold Node.Exists; decide, nofun⟩
  cases hn

end XPath
