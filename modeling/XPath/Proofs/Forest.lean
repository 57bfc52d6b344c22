import XPath.Plan.Step
import XPath.Proofs.AxisOnward

/-!
# Territories

What a node can reach by going down lies together in document order: no node outside comes in between.
`Within` is this territory of a node, and a node is `Clear` of a later one if its whole territory comes
before it. The walks along each axis are described in these terms, and from that it follows what is known
of the nodes after a step (`holds_after`).

All of this is about the documents of a forest, which are arenas and are known by their numbers.
-/

namespace XPath

open List

variable {a b c x y n : Node} {doc : Document} {i j : Nat} {R S : Node → Node → Prop}

structure Forest where
  Has : Document → Prop
  stop : Document → Nat → Nat
  arena : ∀ d, Has d → Arena d (stop d)
  ids : ∀ d e, Has d → Has e → d.id = e.id → d = e

namespace Forest

variable {F : Forest}

/-! ## Territories -/

inductive Within (F : Forest) : Node → Node → Prop
  | self (a : Node) : Within F a a
  | below {doc : Document} {i j : Nat} {d : NodeData} (entry : doc.nodes[i]? = some d) (lt : i < j)
      (inside : j < F.stop doc i) : Within F (.atEntry doc i) (.atEntry doc j)

def Clear (F : Forest) (a b : Node) : Prop :=
  ∀ x, F.Within a x → x.compare b = .lt

theorem Within.trans (ha : F.Has a.doc) (hab : F.Within a b) (hbc : F.Within b c) : F.Within a c := by
  cases hab with
  | self => exact hbc
  | below entry lt inside =>
    cases hbc with
    | self => exact .below entry lt inside
    | below entry' lt' inside' =>
      have hnested := ((F.arena _ ha).stretch _ _ entry).nested _ lt inside
      exact .below entry (Nat.lt_trans lt lt') (Nat.lt_of_lt_of_le inside' hnested)

theorem Within.compare (h : F.Within b c) (hab : a.compare b = .lt) : a.compare c = .lt := by
  cases h with
  | self => exact hab
  | below entry lt inside => exact Node.compare_lt_trans hab (Node.compare_atEntry.mpr lt)

theorem Clear.compare (h : F.Clear a b) : a.compare b = .lt :=
  h a (.self a)

theorem Clear.within (ha : F.Has a.doc) (h : F.Clear a b) (hx : F.Within a x) (hy : F.Within b y) : F.Clear x y :=
  fun z hz => hy.compare (h z (hx.trans ha hz))

/-- A stretch ends before what comes after it. -/
theorem clear_atEntry (hlt : i < j) (h : F.stop doc i ≤ j) : F.Clear (.atEntry doc i) (.atEntry doc j) := by
  intro x hx
  cases hx with
  | self => exact Node.compare_atEntry.mpr hlt
  | below entry lt inside => exact Node.compare_atEntry.mpr (Nat.lt_of_lt_of_le inside h)

/-- A node with nothing below it is a territory of its own. -/
theorem clear_of_leaf (hleaf : ∀ doc i, a = .atEntry doc i → F.stop doc i = i + 1) (h : a.compare b = .lt) :
    F.Clear a b := by
  intro x hx
  cases hx with
  | self => exact h
  | @below doc i _ _ _ lt inside =>
    have := hleaf doc i rfl
    omega

theorem clear_of_attribute (hn : F.Has n.doc) (hx : Axis.attribute.Relates n x) (h : x.compare b = .lt) :
    F.Clear x b := by
  refine clear_of_leaf ?_ h
  obtain ⟨p, rfl⟩ := Node.exists_place_of_parent? hx.2
  have hA := F.arena x.doc hn
  obtain ⟨d, k, hd, hk, hlo, hhi⟩ := (Node.attribute_iff hA).mp hx
  obtain ⟨e, he, hof⟩ := hA.isAttribute_of_lt hd hlo hhi
  rintro doc i rfl
  obtain rfl := Place.entry.inj (Node.mk.inj hk).2
  exact hA.stop_attribute he hof

theorem clear_of_siblings (hn : F.Has n.doc) (hx : Axis.child.Relates n x) (hy : Axis.child.Relates n y)
    (hxy : x.compare y = .lt) : F.Clear x y := by
  obtain ⟨p, rfl⟩ := Node.exists_place_of_parent? hx.2
  have hA := F.arena x.doc hn
  obtain ⟨_, c, hc, hxc⟩ := (Node.child_iff hA).mp hx
  obtain ⟨_, c', hc', rfl⟩ := (Node.child_iff hA).mp hy
  rw [hxc] at hxy ⊢
  have hlt := Node.compare_atEntry.mp hxy
  obtain ⟨e, he, -⟩ := id hc
  exact clear_atEntry hlt ((hA.stretch p e he).children.apart (hc.mem he) (hc'.mem he) hlt)

theorem within_of_ancestor (hn : F.Has n.doc) (hx : x.IsContent) (h : n.Ancestor x) : F.Within n x := by
  obtain ⟨o, rfl⟩ := h.exists_place
  obtain ⟨k, hk, hlt, hin, hcontent⟩ := (F.arena x.doc hn).below_iff.mp ⟨hx, h⟩
  rw [hk]
  exact .below (Array.getElem?_eq_getElem (Nat.lt_trans hlt hcontent.lt_size)) hlt hin

end Forest

/-! ## Walks -/

namespace Walk

/-- The walk goes on to another one past the nodes. -/
inductive Leads (w : Walk) : List Node → Walk → Prop
  | stay : Leads w [] w
  | pass {seen : List Node} {n : Node} {stride : Stride} (h : Leads w seen (.facing n stride)) :
      Leads w (seen ++ [n]) (.after n stride)

theorem Leads.lists {w w' : Walk} {seen l : List Node} (h : w.Leads seen w') (hl : w.Lists l) :
    ∃ rest, w'.Lists rest ∧ l = seen ++ rest := by
  induction h with
  | stay => exact ⟨l, hl, rfl⟩
  | pass h ih =>
    obtain ⟨rest, hrest, rfl⟩ := ih
    cases hrest with
    | facing h room => exact ⟨_, h, by simp⟩

/-- The nodes that the walk passes are such nodes, and one is so before the other. -/
def Keeps (w : Walk) (R : Node → Node → Prop) (P : Node → Prop) : Prop :=
  ∃ l, w.Lists l ∧ l.Pairwise R ∧ ∀ x ∈ l, P x

variable {w : Walk} {P P' : Node → Prop}

theorem Keeps.imp (h : w.Keeps R P) (hR : ∀ x y, P x → P y → R x y → S x y) (hP : ∀ x, P x → P' x) : w.Keeps S P' := by
  obtain ⟨l, hl, hpair, hall⟩ := h
  exact ⟨l, hl, hpair.imp_of_mem fun ha hb => hR _ _ (hall _ ha) (hall _ hb), fun x hx => hP x (hall x hx)⟩

theorem keeps_ended : Walk.ended.Keeps R P :=
  ⟨[], .ended, .nil, nofun⟩

theorem Sweeps.keeps {r : Nat} (h : w.Sweeps R r P) : w.Keeps R P := by
  obtain ⟨l, hl, -, hpair, hmem⟩ := h
  exact ⟨l, hl, hpair, fun x => (hmem x).mp⟩

end Walk

theorem Axis.Listed.keeps {axis : Axis} {kind : Option NodeKind} {w : Walk} (h : axis.Listed kind n w) :
    w.Keeps axis.Orders (axis.Relates n) := by
  obtain ⟨l, hl, hpair, hall, -⟩ := h
  exact ⟨l, hl, hpair, hall⟩

/-! ## Walks along the axes -/

namespace Forest

variable {F : Forest} {kind : Option NodeKind}

section

variable (hn : F.Has n.doc)

include hn

/-- Walks down start at entries: from anywhere else there is no way down. -/
theorem keeps_down {axis : Axis} 
    (haxis : axis = .child ∨ axis = .attribute ∨ axis = .descendant ∨ axis = .descendantOrSelf) :
    (Walk.start axis kind n).Keeps axis.Orders (axis.Relates n) := by
  cases hd : n.data? with
  | some d =>
    have hexists : n.Exists := by
      obtain ⟨doc, place⟩ := n
      cases place with
      | namespaceOf owner k => cases hd
      | entry i => exact (Array.getElem?_eq_some_iff.mp hd).1
    refine ((F.arena _ hn).listed hexists axis ?_).keeps
    rintro rfl
    simp at haxis
  | none =>
    have hnext : n.nextWithin? 0 = none := by simp [Node.nextWithin?, Node.firstChild?, Node.climbWithin, hd]
    rcases haxis with rfl | rfl | rfl | rfl
    · simp only [Walk.start, Node.firstChild?, hd]
      exact Walk.keeps_ended
    · simp only [Walk.start, Node.firstAttribute?, hd]
      exact Walk.keeps_ended
    · simp only [Walk.start, hnext]
      exact Walk.keeps_ended
    · refine ⟨[n], .facing ?_ (Nat.succ_pos _), pairwise_singleton _ _, ?_⟩
      · simp only [Walk.after, hnext]
        exact .ended
      · exact fun x hx => .inl (mem_singleton.mp hx)

theorem keeps_child : (Walk.start .child kind n).Keeps F.Clear (F.Within n) :=
  (keeps_down hn (.inl rfl)).imp (fun _ _ hx hy => clear_of_siblings hn hx hy)
    fun _ hx => within_of_ancestor hn hx.1 (.parent hx.2)

theorem keeps_attribute : (Walk.start .attribute kind n).Keeps F.Clear (Axis.attribute.Relates n) :=
  (keeps_down hn (.inr (.inl rfl))).imp (fun _ _ hx _ => clear_of_attribute hn hx) fun _ hx => hx

theorem keeps_descendant : (Walk.start .descendant kind n).Keeps (fun a b => a.compare b = .lt) (F.Within n) :=
  (keeps_down hn (.inr (.inr (.inl rfl)))).imp (fun _ _ _ _ h => h) fun _ hx => within_of_ancestor hn hx.1 hx.2

theorem keeps_descendantOrSelf :
    (Walk.start .descendantOrSelf kind n).Keeps (fun a b => a.compare b = .lt) (F.Within n) := by
  refine (keeps_down hn (.inr (.inr (.inr rfl)))).imp (fun _ _ _ _ h => h) ?_
  rintro x (rfl | ⟨hx, ha⟩)
  · exact .self x
  · exact within_of_ancestor hn hx ha

omit hn in
theorem keeps_self : (Walk.start .self kind n).Keeps F.Clear (· = n) :=
  (Walk.sweeps_stay n).keeps

theorem keeps_followingSibling : (Walk.start .followingSibling kind n).Keeps F.Clear fun _ => True := by
  refine (F.arena _ hn).listed_followingSibling.keeps.imp ?_ fun _ _ => trivial
  rintro x y ⟨-, hx, ⟨p, hp, hxp⟩, -⟩ ⟨-, hy, ⟨p', hp', hyp⟩, -⟩ hxy
  cases hp.symm.trans hp'
  exact clear_of_siblings (Node.parent?_doc hp ▸ hn) ⟨hx, hxp⟩ ⟨hy, hyp⟩ hxy

theorem keeps_following : (Walk.start .following kind n).Keeps (fun a b => a.compare b = .lt) fun _ => True := by
  have hA := F.arena _ hn
  have hupon : ∀ o : Option Node, (∀ m, o = some m → Node.IsChildIn n.doc m) →
      (Walk.upon (.onward kind) o).Keeps (fun a b => a.compare b = .lt) fun _ => True := by
    intro o ho
    cases o with
    | none => exact Walk.keeps_ended
    | some m =>
      obtain ⟨p, j, c, hc, rfl⟩ := ho m rfl
      refine ((hA.sweeps_onward kind (hA.content_of_child hc)).facing (Nat.lt_succ_of_le (Nat.sub_le _ _)) ?_).keeps.imp
        (fun _ _ _ _ h => h) fun _ _ => trivial
      rintro _ ⟨k, rfl, -, hlt⟩
      exact Node.compare_atEntry.mpr hlt
  simp only [Walk.start]
  split
  · refine hupon _ fun m hm => ?_
    obtain ⟨p, hp, hm⟩ := Option.bind_eq_some_iff.mp hm
    exact Node.parent?_doc hp ▸ Node.isChildIn_of_following? hm
  · exact hupon _ fun m hm => Node.isChildIn_of_nextAbove hm

end

def Namespaced (n m : Node) : Prop :=
  ∃ doc i j, n = .atEntry doc i ∧ m = ⟨doc, .namespaceOf i j⟩

theorem Namespaced.clear (hx : Namespaced a x) (h : x.compare b = .lt) : F.Clear x b := by
  obtain ⟨doc, i, j, -, rfl⟩ := hx
  exact clear_of_leaf nofun h

theorem keeps_namespaces : (Walk.start .namespaces kind n).Keeps F.Clear (Namespaced n) := by
  by_cases hkind : n.kind = .element
  · obtain ⟨doc, place⟩ := n
    cases place with
    | namespaceOf owner k => cases hkind
    | entry i =>
      have hplace : ∀ m : Node, (∃ j, m = ⟨doc, .namespaceOf i j⟩ ∧ (j = 0 ∨ j < (doc.inScope i).length)) →
          Namespaced (.atEntry doc i) m := fun m ⟨j, hm, _⟩ => ⟨doc, i, j, rfl, hm⟩
      exact (sweeps_firstNamespace hkind).keeps.imp (fun x _ hx _ => (hplace x hx).clear) hplace
  · have hnone := Option.not_isSome_iff_eq_none.mp (mt Node.firstNamespace?_isSome_iff.mp hkind)
    simp only [Walk.start, hnone]
    exact Walk.keeps_ended

/-! ### Attributes and namespaces -/

/-- Entries in order are in different documents or in order in one. -/
theorem compare_atEntry_cases {doc' : Document} (hdoc : F.Has doc) (hdoc' : F.Has doc')
    (h : (Node.atEntry doc i).compare (.atEntry doc' j) = .lt) : doc.id < doc'.id ∨ doc' = doc ∧ i < j := by
  rw [Node.compare_eq_lt_iff] at h
  rcases h with hid | ⟨hid, hlt | ⟨-, hlt⟩⟩
  · exact .inl hid
  · exact .inr ⟨(F.ids doc doc' hdoc hdoc' hid).symm, hlt⟩
  · exact absurd hlt (Nat.lt_irrefl 0)

/-- The attributes of a node come before those of a later one: the later one is not among them, since it
has attributes itself. -/
theorem clear_of_attributes (ha : F.Has a.doc) (hb : F.Has b.doc) (hab : a.compare b = .lt)
    (hx : Axis.attribute.Relates a x) (hy : Axis.attribute.Relates b y) : F.Clear x y := by
  refine clear_of_attribute ha hx ?_
  obtain ⟨p, rfl⟩ := Node.exists_place_of_parent? hx.2
  obtain ⟨q, rfl⟩ := Node.exists_place_of_parent? hy.2
  obtain ⟨d, k, hd, hk, hlo, hhi⟩ := (Node.attribute_iff (F.arena _ ha)).mp hx
  obtain ⟨e, l, he, hl, hlo', hhi'⟩ := (Node.attribute_iff (F.arena _ hb)).mp hy
  rw [hk, hl]
  rcases compare_atEntry_cases ha hb hab with hid | ⟨hdoc, hlt⟩
  · exact Node.compare_eq_lt_iff.mpr (.inl hid)
  · rw [hdoc] at he ⊢
    refine Node.compare_atEntry.mpr (Nat.not_le.mp fun hle => ?_)
    obtain ⟨e', he', hof⟩ := (F.arena _ ha).isAttribute_of_lt hd hlt (by omega)
    cases he.symm.trans he'
    rw [hof.attributes] at hhi'
    exact absurd hlo' (Nat.not_lt.mpr (Nat.le_of_lt_succ hhi'))

theorem Namespaced.clear_of_lt (ha : F.Has a.doc) (hb : F.Has b.doc) (hab : a.compare b = .lt)
    (hx : Namespaced a x) (hy : Namespaced b y) : F.Clear x y := by
  refine hx.clear ?_
  obtain ⟨doc, i, j, rfl, rfl⟩ := hx
  obtain ⟨doc', i', j', rfl, rfl⟩ := hy
  rcases compare_atEntry_cases ha hb hab with hid | ⟨rfl, hlt⟩
  · exact Node.compare_eq_lt_iff.mpr (.inl hid)
  · exact Node.compare_eq_lt_iff.mpr (.inr ⟨rfl, .inl hlt⟩)

end Forest

/-! ## Groups of nodes -/

inductive Groups (V : Node → List Node → Prop) : List Node → List Node → Prop
  | nil : Groups V [] []
  | snoc {origins out : List Node} {n : Node} {g : List Node} (h : Groups V origins out) (hg : V n g) :
      Groups V (origins ++ [n]) (out ++ g)

def Visits (axis : Axis) (kind : Option NodeKind) (n : Node) (g : List Node) : Prop :=
  ∃ seen w, (Walk.start axis kind n).Leads seen w ∧ g.Sublist seen

/-- A relation holds throughout the groups if it holds on each walk and between the nodes of walks from
related origins. -/
theorem Groups.pairwise {axis : Axis} {kind : Option NodeKind} {Q : Node → Node → Prop}
    {origins out : List Node} (h : Groups (Visits axis kind) origins out)
    (hwalk : ∀ n ∈ origins, (Walk.start axis kind n).Keeps R (Q n))
    (hcross : ∀ a ∈ origins, ∀ b ∈ origins, S a b → ∀ x y, Q a x → Q b y → R x y)
    (horigins : origins.Pairwise S) : out.Pairwise R ∧ ∀ x ∈ out, ∃ a ∈ origins, Q a x := by
  induction h with
  | nil => exact ⟨.nil, nofun⟩
  | @snoc origins out n g h hg ih =>
    obtain ⟨hpair, -, hlast⟩ := pairwise_append.mp horigins
    have hn : n ∈ origins ++ [n] := mem_append_right _ (.head _)
    have hleft : ∀ a ∈ origins, a ∈ origins ++ [n] := fun a ha => mem_append_left _ ha
    obtain ⟨hout, hfrom⟩ := ih (fun a ha => hwalk a (hleft a ha))
      (fun a ha b hb => hcross a (hleft a ha) b (hleft b hb)) hpair
    obtain ⟨seen, w, hleads, hsub⟩ := hg
    obtain ⟨l, hl, hpairwise, hall⟩ := hwalk n hn
    obtain ⟨rest, -, rfl⟩ := hleads.lists hl
    have hg := hsub.trans (sublist_append_left seen rest)
    constructor
    · refine pairwise_append.mpr ⟨hout, hpairwise.sublist hg, ?_⟩
      intro x hx y hy
      obtain ⟨a, ha, hax⟩ := hfrom x hx
      exact hcross a (hleft a ha) n hn (hlast a ha n (.head _)) x y hax (hall y (hg.mem hy))
    · intro x hx
      rcases mem_append.mp hx with hx | hx
      · obtain ⟨a, ha, hax⟩ := hfrom x hx
        exact ⟨a, hleft a ha, hax⟩
      · exact ⟨n, hn, hall x (hg.mem hx)⟩

/-- What is known of nodes at some point of a chain holds. -/
structure OrderFacts.Holds (F : Forest) (f : OrderFacts) (nodes : List Node) : Prop where
  ordered : f.ordered = true → nodes.Pairwise fun a b => a.compare b = .lt
  disjoint : f.disjoint = true → nodes.Pairwise F.Clear
  singleton : f.singleton = true → nodes.Pairwise fun _ _ => False

namespace OrderFacts

variable {F : Forest} {f : OrderFacts} {origins out : List Node} {axis : Axis} {kind : Option NodeKind}

theorem holds_nothing (nodes : List Node) : nothing.Holds F nodes :=
  ⟨nofun, nofun, nofun⟩

theorem Holds.sublist {l l' : List Node} (h : f.Holds F l) (hl : l'.Sublist l) : f.Holds F l' :=
  ⟨fun hf => (h.ordered hf).sublist hl, fun hf => (h.disjoint hf).sublist hl,
    fun hf => (h.singleton hf).sublist hl⟩

/-- Steps into the territories of nodes that are clear of each other. -/
theorem pairwise_of_inside (hdocs : ∀ n ∈ origins, F.Has n.doc) (hclear : origins.Pairwise F.Clear)
    (hg : Groups (Visits axis kind) origins out)
    (hwalk : ∀ {n}, F.Has n.doc → (Walk.start axis kind n).Keeps R (F.Within n))
    (hR : ∀ x y, F.Clear x y → R x y) : out.Pairwise R :=
  (hg.pairwise (fun n hn => hwalk (hdocs n hn))
    (fun a ha _ _ hab x y hx hy => hR x y (hab.within (hdocs a ha) hx hy)) hclear).1

theorem pairwise_of_single (hdocs : ∀ n ∈ origins, F.Has n.doc) (hsingle : origins.Pairwise fun _ _ => False)
    (hg : Groups (Visits axis kind) origins out)
    (hwalk : ∀ {n}, F.Has n.doc → (Walk.start axis kind n).Keeps R fun _ => True) : out.Pairwise R :=
  (hg.pairwise (fun n hn => hwalk (hdocs n hn)) (fun _ _ _ _ h => h.elim) hsingle).1

theorem holds_of_clear (h : out.Pairwise F.Clear) (hf : f.singleton = false) : f.Holds F out := by
  refine ⟨fun _ => h.imp Forest.Clear.compare, fun _ => h, ?_⟩
  intro hs
  rw [hf] at hs
  cases hs

theorem holds_of_ordered (h : out.Pairwise fun a b => a.compare b = .lt) : Holds F ⟨true, false, false⟩ out :=
  ⟨fun _ => h, nofun, nofun⟩

/-- What is known after a step along an axis holds of the nodes that the step delivers. -/
theorem holds_after (hdocs : ∀ n ∈ origins, F.Has n.doc) (hf : f.Holds F origins)
    (hg : Groups (Visits axis kind) origins out) (test : Option NodeTest) :
    (f.after (.axis axis test)).Holds F out := by
  have hclear (h : (f.ordered && f.disjoint) = true) : origins.Pairwise F.Clear :=
    hf.disjoint (Bool.and_eq_true_iff.mp h).2
  cases axis with
  | child =>
    simp only [after]
    split
    · next h =>
      exact holds_of_clear (pairwise_of_inside hdocs (hclear h) hg Forest.keeps_child fun _ _ h => h) rfl
    · exact holds_nothing out
  | self =>
    simp only [after]
    split
    · next h =>
      have hout := pairwise_of_inside hdocs (hclear h) hg
        (fun _ => Forest.keeps_self.imp (fun _ _ _ _ h => h) fun x hx => hx ▸ .self x) fun _ _ h => h
      refine ⟨fun _ => hout.imp Forest.Clear.compare, fun _ => hout, fun hs => ?_⟩
      refine pairwise_of_single hdocs (hf.singleton hs) hg fun _ =>
        (Forest.keeps_self (F := F)).imp ?_ fun _ _ => trivial
      -- Two nodes would both be the origin, which is not before itself.
      rintro x y rfl rfl hab
      have hlt := hab.compare
      rw [Node.compare_eq_lt_iff] at hlt
      omega
    · exact holds_nothing out
  | «attribute» =>
    simp only [after]
    split
    · next h =>
      exact holds_of_clear (hg.pairwise (fun n hn => Forest.keeps_attribute (hdocs n hn))
        (fun a ha b hb hab _ _ => Forest.clear_of_attributes (hdocs a ha) (hdocs b hb) hab) (hf.ordered h)).1 rfl
    · exact holds_nothing out
  | namespaces =>
    simp only [after]
    split
    · next h =>
      exact holds_of_clear (hg.pairwise (fun _ _ => Forest.keeps_namespaces)
        (fun a ha b hb hab _ _ => Forest.Namespaced.clear_of_lt (hdocs a ha) (hdocs b hb) hab) (hf.ordered h)).1 rfl
    · exact holds_nothing out
  | descendant =>
    simp only [after]
    split
    · next h =>
      exact holds_of_ordered (pairwise_of_inside hdocs (hclear h) hg Forest.keeps_descendant
        fun _ _ => Forest.Clear.compare)
    · exact holds_nothing out
  | descendantOrSelf =>
    simp only [after]
    split
    · next h =>
      exact holds_of_ordered (pairwise_of_inside hdocs (hclear h) hg Forest.keeps_descendantOrSelf
        fun _ _ => Forest.Clear.compare)
    · exact holds_nothing out
  | followingSibling =>
    simp only [after]
    split
    · next h =>
      exact holds_of_clear (pairwise_of_single hdocs (hf.singleton h) hg Forest.keeps_followingSibling) rfl
    · exact holds_nothing out
  | following =>
    simp only [after]
    split
    · next h => exact holds_of_ordered (pairwise_of_single hdocs (hf.singleton h) hg Forest.keeps_following)
    · exact holds_nothing out
  | _ => exact holds_nothing out

end OrderFacts

end XPath
