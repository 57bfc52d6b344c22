import XPath.Proofs.AxisOnward
import XPath.Proofs.Wandering

/-!
# Reading a step along an axis

A step along an axis reads nodes from its source and delivers, for each of them, the nodes of the axis that
the test accepts, as a group of its own (`Calls.reads_along`). `Calls.Reads` follows the pulls of one cursor
to the end or to an error; `Walk.Finds` follows one walk.

The namespace axis keeps to this only at elements with a namespace in scope. At an element where even the
reserved one has been taken back, it delivers a node that stands for no declaration
(`reads_namespaces_of_none`).
-/

namespace XPath

variable {accepts : Node → Bool} {g : List Node} {n : Node} {r : Except Error Unit} {ins : List (Item × Nat)}
  {groups : List (List Node)} {source : Cursor}

/-! ## Reading to the end -/

/-- The pull has come out so, and pulling on gives these items with their positions, then the end or an
error. -/
inductive Calls.Reading (m : Calls) :
    Option (Pulled × Store) → List (Item × Nat) → Except Error Unit → Prop
  | ended {c : Cursor} {s : Store} : Reading m (some ((c, .ok false), s)) [] (.ok ())
  | failed {c : Cursor} {s : Store} {e : Error} : Reading m (some ((c, .error e), s)) [] (.error e)
  | item {c : Cursor} {s : Store} {i : Item} {out : List (Item × Nat)} {r : Except Error Unit}
      (h : c.current = some i) (rest : Reading m (m.next c s) out r) :
      Reading m (some ((c, .ok true), s)) ((i, c.position) :: out) r

/-- Pulling the cursor to its end gives these items with their positions, then the end or an error. -/
def Calls.Reads (m : Calls) (c : Cursor) (s : Store) (out : List (Item × Nat)) (r : Except Error Unit) : Prop :=
  m.Reading (m.next c s) out r

def leadingNodes : List (Item × Nat) → List Node
  | (.node n, _) :: rest => n :: leadingNodes rest
  | _ => []

/-- The items of a group with their positions, the first one at the given position. -/
def numbered (first : Nat) (g : List Node) : List (Item × Nat) :=
  (g.map Item.node).zipIdx first

/-! ## One walk -/

namespace Walk

inductive Finds (accepts : Node → Bool) : Walk → List Node → Prop
  | nothing {w : Walk} (h : w.next? accepts = none) : Finds accepts w []
  | found {w w' : Walk} {n : Node} {g : List Node} (h : w.next? accepts = some (n, w'))
      (rest : Finds accepts w' g) : Finds accepts w (n :: g)

theorem finds_ended (accepts : Node → Bool) : Finds accepts .ended [] :=
  .nothing rfl

theorem Lists.finds {w : Walk} {l : List Node} (h : w.Lists l) (hg : l.filter accepts = g) : w.Finds accepts g := by
  induction g generalizing w l with
  | nil =>
    obtain ⟨n, w', l', -, -, hl⟩ | ⟨hnone, -⟩ := h.next?_cases accepts
    · cases hl.symm.trans hg
    · exact .nothing hnone
  | cons n g ih =>
    obtain ⟨n', w', l', hsome, hw', hl⟩ | ⟨-, hl⟩ := h.next?_cases accepts
    · obtain ⟨rfl, hrest⟩ := List.cons.inj (hl.symm.trans hg)
      exact .found hsome (ih hw' hrest)
    · cases hl.symm.trans hg

end Walk

namespace Axis

instance (axis : Axis) : Std.Asymm axis.Orders where
  asymm a b hab hba := by
    unfold Orders at hab hba
    split at hab
    · rw [if_pos ‹_›, Node.compare_eq_lt_iff] at hba
      rw [Node.compare_eq_lt_iff] at hab
      omega
    · rw [if_neg ‹_›, Node.compare_eq_lt_iff] at hba
      rw [Node.compare_eq_lt_iff] at hab
      omega

/-- What a step along the axis delivers for one node: the nodes of the axis that the test accepts, in the
order of the axis, whether or not the walk is told the kind of node to look for. -/
structure GroupOf (axis : Axis) (test : NodeTest) (n : Node) (g : List Node) : Prop where
  ordered : g.Pairwise axis.Orders
  mem_iff : ∀ m, m ∈ g ↔ axis.Relates n m ∧ test.accepts m axis.principalKind = true
  hinted : (Walk.start axis (test.kind? axis.principalKind) n).Finds
    (test.accepts · axis.principalKind) g
  unhinted : (Walk.start axis none n).Finds (test.accepts · axis.principalKind) g

/-- A list that some walk passes, sifted by the test. -/
theorem Listed.exists_group {axis : Axis} {kind : Option NodeKind} {w : Walk} (h : axis.Listed kind n w)
    (test : NodeTest) (hkind : ∀ m, test.accepts m axis.principalKind = true → kind.all (m.kind = ·) = true) :
    ∃ g, w.Finds (test.accepts · axis.principalKind) g ∧ g.Pairwise axis.Orders ∧
      ∀ m, m ∈ g ↔ axis.Relates n m ∧ test.accepts m axis.principalKind = true := by
  obtain ⟨l, hlists, hpair, hsound, hcomplete⟩ := h
  refine ⟨_, hlists.finds rfl, hpair.filter _, fun m => ?_⟩
  rw [List.mem_filter]
  constructor
  · rintro ⟨hm, haccepts⟩
    exact ⟨hsound m hm, haccepts⟩
  · rintro ⟨hm, haccepts⟩
    exact ⟨hcomplete m hm (hkind m haccepts), haccepts⟩

end Axis

theorem NodeTest.all_kind?_of_accepts {test : NodeTest} {m : Node} {principal : NodeKind}
    (h : test.accepts m principal = true) : (test.kind? principal).all (m.kind = ·) = true := by
  cases test with
  | name t =>
    obtain ⟨hkind, -⟩ := Bool.and_eq_true_iff.mp h
    simpa [kind?] using hkind
  | kind t => exact (Bool.and_eq_true_iff.mp h).1

/-- The node is in a tree that has been built, and the axis is at home there. -/
structure Node.Walkable (axis : Axis) (n : Node) : Prop where
  built : ∃ id f, Fragment.isProper f = true ∧ n.doc = .build id f
  present : n.Exists
  hasNamespace : axis = .namespaces → n.kind = .element → n.HasNamespace

theorem Node.Walkable.exists_groupOf {axis : Axis} (h : n.Walkable axis) (test : NodeTest) :
    ∃ g, axis.GroupOf test n g := by
  obtain ⟨id, f, hf, hdoc⟩ := h.built
  obtain ⟨stop, harena⟩ := Document.exists_arena_build id hf
  rw [← hdoc] at harena
  obtain ⟨g, hinted, hpair, hmem⟩ := (harena.listed h.present axis h.hasNamespace).exists_group test
    fun _ => NodeTest.all_kind?_of_accepts
  have hlisted : axis.Listed none n (.start axis none n) := harena.listed h.present axis h.hasNamespace
  obtain ⟨g', hunhinted, hpair', hmem'⟩ := hlisted.exists_group test fun _ _ => rfl
  -- Both lists are in the strict order of the axis and have the same members.
  have heq : g' = g := hpair'.eq_of_mem_iff hpair fun m => (hmem' m).trans (hmem m).symm
  exact ⟨g, hpair, hmem, hinted, heq ▸ hunhinted⟩

/-! ## The cursor -/

/-- The walk finds these nodes and then no more, where `step` gives the next node and what is left. -/
inductive Exhausts {W : Type} (step : W → Option (Node × W)) : W → List Node → Prop
  | nothing {w : W} (h : step w = none) : Exhausts step w []
  | found {w w' : W} {n : Node} {g : List Node} (h : step w = some (n, w')) (rest : Exhausts step w' g) :
      Exhausts step w (n :: g)

theorem Walk.finds_iff_exhausts {w : Walk} : w.Finds accepts g ↔ Exhausts (Walk.next? accepts) w g := by
  constructor
  · intro h
    induction h with
    | nothing h => exact .nothing h
    | found h rest ih => exact .found h ih
  · intro h
    induction h with
    | nothing h => exact .nothing h
    | found h rest ih => exact .found h ih

section

variable {keeper : Program → Variables} {k : Nat} {p : Program} {axis : Axis} {test : NodeTest} {c : Cursor}
  {s : Store} {fuel pos : Nat}

namespace Wander

variable {ω : Wander} {w : ω.W}

/-- From anywhere in a walk: what is left of it, and then what there is after it. -/
theorem reading_of_exhausts {room : Nat} {out : List (Item × Nat)} (hroom : room < (machineWith keeper k p).fuel)
    (hafter : ∀ {w fuel pos}, room < fuel → ω.step w = none →
      (machineWith keeper (k + 1) p).Reading (ω.next (machineWith keeper k p) fuel c w pos s) out r)
    (hw : Exhausts ω.step w g) (hfuel : room < fuel) :
    (machineWith keeper (k + 1) p).Reading (ω.next (machineWith keeper k p) fuel c w pos s)
      (numbered (pos + 1) g ++ out) r := by
  induction hw generalizing fuel pos with
  | nothing hw => exact hafter hfuel hw
  | @found w w' n g hw rest ih =>
    rw [ω.found hw]
    have hcurrent : (ω.wrap c w' (some n) (pos + 1) false).current = some (.node n) := ω.current
    have hitem := Calls.Reading.item hcurrent (ω.machine ▸ ih hroom)
    rwa [ω.position] at hitem

/-- From anywhere in a walk: what is left of it, and then a group for each node of the source. -/
theorem reading (hsource : (machineWith keeper k p).Reads c s ins r)
    (hroom : ins.length < (machineWith keeper k p).fuel)
    (hgroups : List.Forall₂ (fun n => Exhausts ω.step (ω.start n)) (leadingNodes ins) groups)
    (hw : Exhausts ω.step w g) (hfuel : ins.length < fuel) :
    (machineWith keeper (k + 1) p).Reading (ω.next (machineWith keeper k p) fuel c w pos s)
      (numbered (pos + 1) g ++ groups.flatMap (numbered 1))
      (if ins.all (·.1.isNode) then r else .error ω.err) := by
  unfold Calls.Reads at hsource
  generalize hx : (machineWith keeper k p).next c s = x at hsource
  -- By induction on what is left of the source; the walk from its next node is the walk for `ih`.
  induction hsource generalizing c s groups w g fuel pos with
  | @ended c' s' | @failed c' s' e =>
    refine reading_of_exhausts hroom ?_ hw hfuel
    intro w fuel pos hfuel hw
    obtain ⟨fuel, rfl⟩ := exists_succ_of_lt hfuel
    cases hgroups
    rw [next_of_end hw hx nofun]
    constructor
  | @item c' s' i out r hcur rest ih =>
    refine reading_of_exhausts hroom ?_ hw hfuel
    intro w fuel pos hfuel hw
    obtain ⟨fuel, rfl⟩ := Nat.exists_eq_add_of_lt hfuel
    cases i with
    | atomic a =>
      rw [next_of_atomic hw hx hcur]
      cases hgroups
      exact .failed
    | node n =>
      rw [next_of_node hw hx hcur]
      cases hgroups with
      | cons hg hgroups =>
        exact ih (Nat.lt_of_succ_lt hroom) hgroups hg (Nat.lt_of_succ_lt_succ hfuel) rfl

end Wander

theorem reading_axisNext (hsource : (machineWith keeper k p).Reads source s ins r)
    (hroom : ins.length < (machineWith keeper k p).fuel)
    (hgroups : List.Forall₂ (axis.GroupOf test) (leadingNodes ins) groups) {walk : Walk}
    (hwalk : walk.Finds (test.accepts · axis.principalKind) g) (hfuel : ins.length < fuel) :
    (machineWith keeper (k + 1) p).Reading
      ((machineWith keeper k p).axisNext axis test fuel source walk pos s)
      (numbered (pos + 1) g ++ groups.flatMap (numbered 1))
      (if ins.all (·.1.isNode) then r else .error (.format .XPTY0020 [axis.text])) :=
  Wander.reading (ω := .axis axis test) hsource hroom
    (hgroups.imp fun _ _ h => Walk.finds_iff_exhausts.mp h.hinted) (Walk.finds_iff_exhausts.mp hwalk) hfuel

end

theorem exists_forall₂ {R : Node → List Node → Prop} {nodes : List Node} (h : ∀ n ∈ nodes, ∃ g, R n g) :
    ∃ groups, List.Forall₂ R nodes groups := by
  induction nodes with
  | nil => exact ⟨[], .nil⟩
  | cons n nodes ih =>
    obtain ⟨g, hg⟩ := h n (.head _)
    obtain ⟨groups, hgroups⟩ := ih fun m hm => h m (.tail _ hm)
    exact ⟨g :: groups, .cons hg hgroups⟩

/-- A step along an axis delivers, for the nodes of its source in turn, the nodes of the axis that the test
accepts, and each of these groups is counted from one. An atomic value in the source is an error there. -/
theorem Calls.reads_along {keeper : Program → Variables} {k : Nat} {p : Program} {axis : Axis}
    {test : NodeTest} {s : Store} (hsource : (machineWith keeper k p).Reads source s ins r)
    (hfuel : ins.length + 1 < k) (hnodes : ∀ n ∈ leadingNodes ins, n.Walkable axis) :
    ∃ groups, List.Forall₂ (axis.GroupOf test) (leadingNodes ins) groups ∧
      (machineWith keeper (k + 1) p).Reads (.along axis test source) s (groups.flatMap (numbered 1))
        (if ins.all (·.1.isNode) then r else .error (.format .XPTY0020 [axis.text])) := by
  obtain ⟨groups, hgroups⟩ := exists_forall₂ fun n hn => (hnodes n hn).exists_groupOf test
  refine ⟨groups, hgroups, ?_⟩
  have hroom : ins.length < (machineWith keeper k p).fuel := by
    rw [fuel_machineWith]
    omega
  exact reading_axisNext hsource hroom hgroups (Walk.finds_ended _) hroom

/-- `<r a="1"><b/><c/></r>` -/
def Document.smallTree : Document :=
  .build 0 (.element ⟨none, "r", none⟩ [] [⟨⟨none, "a", none⟩, "1"⟩]
    [.element ⟨none, "b", none⟩ [] [] [], .element ⟨none, "c", none⟩ [] [] []])

/-- What follows an attribute, a namespace and an element, and then an atomic value in the source. -/
theorem Calls.reads_along_following :
    let source : List Item := [.node ⟨.smallTree, .entry 1⟩, .node ⟨.smallTree, .namespaceOf 0 0⟩,
      .node ⟨.smallTree, .entry 2⟩, .ofNat 7]
    let m := machineWith (fun _ => .inSlots)
    ∃ groups, List.Forall₂ (Axis.following.GroupOf .anyNode) (leadingNodes (source.zipIdx 1)) groups ∧
      (m 7 (.empty .standard)).Reads (.along .following .anyNode (.ofItems source))
        (.ofSlots (.ofSize 0)) (groups.flatMap (numbered 1))
        (.error (.format .XPTY0020 ["following"])) := by
  intro source m
  refine reads_along (k := 6) (r := .ok ()) (.item rfl (.item rfl (.item rfl (.item rfl .ended))))
    (by decide) ?_
  have hbuilt : ∃ id f, Fragment.isProper f = true ∧ Document.smallTree = .build id f :=
    ⟨0, _, by decide, rfl⟩
  intro n hn
  rcases List.mem_cons.mp hn with rfl | hn
  · exact ⟨hbuilt, by unfold Node.Exists; decide, nofun⟩
  rcases List.mem_cons.mp hn with rfl | hn
  · exact ⟨hbuilt, by unfold Node.Exists; decide, nofun⟩
  rcases List.mem_cons.mp hn with rfl | hn
  · exact ⟨hbuilt, by unfold Node.Exists; decide, nofun⟩
  cases hn

/-- `<r xmlns:xml=""/>`, where even the reserved prefix is taken back. -/
def Document.bareTree : Document :=
  .build 0 (.element ⟨none, "r", none⟩ [⟨"xml", ""⟩] [] [])

/-- Where no namespace is in scope, the namespace axis has no nodes, but a step along it delivers one. -/
theorem Calls.reads_namespaces_of_none :
    (∀ m, ¬ Axis.namespaces.Relates (.rootOf .bareTree) m) ∧
      (machine 7 (.empty .standard)).Reads
        (.along .namespaces .anyNode (.ofItem (.node (.rootOf .bareTree)))) (.ofSlots (.ofSize 0))
        [(.node ⟨.bareTree, .namespaceOf 0 0⟩, 1)] (.ok ()) := by
  constructor
  · rintro ⟨doc, place⟩ ⟨-, hdecl, hparent⟩
    cases place with
    | entry i => cases hdecl
    | namespaceOf owner k =>
      cases hparent
      have hnone : (Document.bareTree.inScope 0) = [] := by decide
      change ((Document.bareTree.inScope 0)[k]?).isSome = true at hdecl
      rw [hnone] at hdecl
      cases hdecl
  · exact .item rfl .ended

end XPath
