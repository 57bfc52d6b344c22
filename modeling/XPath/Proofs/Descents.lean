import XPath.Proofs.Chains

/-!
# Child steps below every descendant

Going to a node and everything below it, and from there through a run of child steps, leads to each node at
most once, since a node has one parent. It leads to the nodes that are deep enough and are accepted by the
tests from the node upwards. A descent checks just that at every node below, so both find the same nodes
(`Forest.exists_descent`), though not in the same order and not in the same groups.
-/

namespace XPath

open List Option

variable {F : Forest} {n m : Node} {doc : Document} {stop : Nat → Nat} {o k : Nat} {y x : Node}
  {test t : NodeTest} {nodes : List Node} {tests : List NodeTest}

/-! ## Levels -/

def Node.Level (n : Node) : Nat → Node → Prop
  | 0, m => m = n
  | k + 1, m => m.IsContent ∧ ∃ y, m.parent? = some y ∧ n.Level k y

theorem Document.Depth.unique (h : Arena doc stop) {c k' : Nat} (hk : doc.Depth o c k)
    (hk' : doc.Depth o c k') : k = k' := by
  induction hk generalizing k' with
  | here =>
    rcases hk'.inside h with ⟨-, rfl⟩ | ⟨hlt, -⟩
    · rfl
    · omega
  | @child p j c k above hchild ih =>
    cases hk' with
    | here =>
      rcases (Document.Depth.child above hchild).inside h with ⟨-, hk⟩ | ⟨hlt, -⟩
      · cases hk
      · omega
    | child above' hchild' =>
      have hparent := Node.parent?_of_child h hchild
      rw [Node.parent?_of_child h hchild'] at hparent
      obtain rfl := Place.entry.inj (Node.mk.inj (some.inj hparent)).2
      rw [ih above']

/-- Levels below an entry are levels of entries. -/
theorem Arena.level_iff (h : Arena doc stop) :
    ∀ {k : Nat} {m : Node}, (Node.atEntry doc o).Level k m ↔ ∃ c, m = .atEntry doc c ∧ doc.Depth o c k
  | 0, m => by
    constructor
    · rintro rfl
      exact ⟨o, rfl, .here⟩
    · rintro ⟨c, rfl, hc⟩
      cases hc
      rfl
  | k + 1, m => by
    constructor
    · rintro ⟨hm, y, hy, hlevel⟩
      obtain ⟨p, rfl, hp⟩ := (h.level_iff).mp hlevel
      obtain ⟨j, c, hchild, rfl⟩ := (Node.child_iff h).mp ⟨hm, hy⟩
      exact ⟨c, rfl, .child hp hchild⟩
    · rintro ⟨c, rfl, hc⟩
      cases hc with
      | child above hchild =>
        obtain ⟨hm, hy⟩ := (Node.child_iff h).mpr ⟨_, c, hchild, rfl⟩
        exact ⟨hm, _, hy, (h.level_iff).mpr ⟨_, rfl, above⟩⟩

/-- The parent of a node of the content exists. -/
theorem Node.IsContent.exists_of_parent? (h : Arena m.doc stop) (hm : m.IsContent) (hn : m.parent? = some n) :
    n.Exists := by
  obtain ⟨i, hi, d, hd, -⟩ := hm.exists_place
  rw [hi] at hn
  obtain ⟨p, hp, rfl⟩ := exists_parent_of_parent? hd hn
  exact Nat.lt_trans (h.parent hd hp).1 (Array.getElem?_eq_some_iff.mp hd).1

theorem Node.Level.doc_eq : ∀ {k : Nat} {m : Node}, n.Level k m → m.doc = n.doc
  | 0, _, h => congrArg Node.doc h
  | _ + 1, _, ⟨_, _, hy, h⟩ => (Node.parent?_doc hy).symm.trans h.doc_eq

/-- Nothing is below a node that is not an entry of its document. -/
theorem Node.not_level_of_bare (hn : F.Has n.doc) (hbare : ∀ i, i < n.doc.size → n ≠ .atEntry n.doc i) :
    ∀ {k : Nat} {m : Node}, ¬ n.Level (k + 1) m
  | 0, m, ⟨hm, y, hy, hlevel⟩ => by
    obtain rfl : y = n := hlevel
    have hdoc : y.doc = m.doc := parent?_doc hy
    have hexists := hm.exists_of_parent? (F.arena _ (hdoc ▸ hn)) hy
    obtain ⟨i, rfl⟩ := exists_place_of_parent? hy
    exact hbare i hexists rfl
  | k + 1, m, ⟨hm, y, hy, hlevel⟩ => not_level_of_bare hn hbare hlevel

/-! ## Walks below a node -/

/-- From a node at some depth the walk comes to these nodes, at these depths. -/
inductive Roams : Node → Nat → List (Node × Nat) → Prop
  | ended {n : Node} {k : Nat} (h : n.nextWithin? k = none) : Roams n k []
  | next {n m : Node} {k j : Nat} {rest : List (Node × Nat)} (h : n.nextWithin? k = some (m, j))
      (tail : Roams m j rest) : Roams n k ((m, j) :: rest)

theorem Walk.Lists.exists_roams {l : List Node} (h : (Walk.after n (.within k)).Lists l) :
    ∃ ps, Roams n k ps ∧ ps.map Prod.fst = l := by
  generalize hw : Walk.after n (.within k) = w at h
  induction h generalizing n k with
  | ended =>
    cases hnext : n.nextWithin? k with
    | none => exact ⟨[], .ended hnext, rfl⟩
    | some x =>
      simp only [Walk.after, hnext] at hw
      cases hw
  | @facing m stride l h room ih =>
    cases hnext : n.nextWithin? k with
    | none =>
      simp only [Walk.after, hnext] at hw
      cases hw
    | some x =>
      obtain ⟨m', j⟩ := x
      simp only [Walk.after, hnext] at hw
      cases hw
      obtain ⟨ps, hps, rfl⟩ := ih rfl
      exact ⟨(m, j) :: ps, .next hnext hps, rfl⟩

theorem Roams.lists {ps : List (Node × Nat)} (h : Roams n k ps) (hroom : ps.length ≤ n.doc.size) :
    (Walk.after n (.within k)).Lists (ps.map Prod.fst) := by
  induction h with
  | ended h =>
    simp only [Walk.after, h]
    exact .ended
  | @next n m k j rest h tail ih =>
    simp only [Walk.after, h]
    have hdoc : m.doc = n.doc := Node.nextWithin?_doc h
    rw [length_cons] at hroom
    refine .facing (ih (by rw [hdoc]; omega)) ?_
    rw [length_map]
    change rest.length < m.doc.size + 1
    rw [hdoc]
    omega

theorem Roams.depth (hA : Arena doc stop) {c : Nat} {ps : List (Node × Nat)} (h : Roams (.atEntry doc c) k ps)
    (hc : doc.Depth o c k) (hsize : c < doc.size) :
    ∀ x ∈ ps, ∃ c, x.1 = .atEntry doc c ∧ doc.Depth o c x.2 ∧ 0 < x.2 := by
  generalize hn : Node.atEntry doc c = n at h
  induction h generalizing c with
  | ended h => exact nofun
  | next h tail ih =>
    subst hn
    rcases Node.nextWithin?_cases hA (Array.getElem?_eq_getElem hsize) hc with
      ⟨k', hnext, hdepth, hk, -⟩ | ⟨hnone, -⟩
    · cases h.symm.trans hnext
      refine forall_mem_cons.mpr ⟨⟨_, rfl, hdepth, hk⟩, ih hdepth ?_ rfl⟩
      cases hdepth with
      | here => cases hk
      | child above hchild => exact (hA.content_of_child hchild).lt_size
    · cases h.symm.trans hnone

theorem Node.firstChild?_of_bare (h : ∀ i, i < n.doc.size → n ≠ .atEntry n.doc i) : n.firstChild? = none := by
  obtain ⟨doc, place⟩ := n
  cases place with
  | namespaceOf owner k => rfl
  | entry i =>
    have hdata : (atEntry doc i).data? = none :=
      Array.getElem?_eq_none_iff.mpr (Nat.not_lt.mp fun hi => h i hi rfl)
    simp only [firstChild?, hdata, bind_none, map_none]

structure Below (n : Node) (ps : List (Node × Nat)) : Prop where
  roams : Roams n 0 ps
  room : ps.length ≤ n.doc.size
  ordered : (n :: ps.map Prod.fst).Pairwise fun a b => a.compare b = .lt
  mem_iff : ∀ {m k}, (m, k) ∈ ps ↔ 0 < k ∧ n.Level k m

theorem Forest.exists_below (hn : F.Has n.doc) : ∃ ps, Below n ps := by
  have hA := F.arena _ hn
  by_cases hentry : ∃ o, o < n.doc.size ∧ n = .atEntry n.doc o
  · obtain ⟨o, ho, hno⟩ := hentry
    obtain ⟨l, hlists, hlength, hpair, hmem⟩ := hA.sweeps_within ho
    rw [← hno] at hlists
    have hfirst : ∀ m ∈ l, n.compare m = .lt := by
      intro m hm
      obtain ⟨k, rfl, hlt, -⟩ := hA.below_iff.mp ((hmem m).mp hm)
      exact hno ▸ Node.compare_atEntry.mpr hlt
    obtain ⟨ps, hps, rfl⟩ := hlists.exists_roams
    have hdepth := Roams.depth hA (hno ▸ hps) .here ho
    refine ⟨ps, hps, ?_, pairwise_cons.mpr ⟨hfirst, hpair⟩, ?_⟩
    · rw [length_map] at hlength
      exact Nat.le_trans hlength (Nat.sub_le _ _)
    · intro m k
      have hlevel : n.Level k m ↔ ∃ c, m = .atEntry n.doc c ∧ n.doc.Depth o c k := by
        conv => lhs; rw [hno]
        exact hA.level_iff
      rw [hlevel]
      constructor
      · intro hmk
        obtain ⟨c, hmc, hc, hk⟩ := hdepth _ hmk
        exact ⟨hk, c, hmc, hc⟩
      · rintro ⟨hk, c, rfl, hc⟩
        have hbelow : Node.atEntry n.doc c ∈ ps.map Prod.fst := by
          refine (hmem _).mpr (hA.below_iff.mpr ⟨c, rfl, ?_⟩)
          cases hc with
          | here => omega
          | child above hchild =>
            rcases (Document.Depth.child above hchild).inside hA with ⟨-, h0⟩ | ⟨hlt, hlt', hle, -⟩
            · cases h0
            · exact ⟨hlt, by omega, hA.content_of_child hchild⟩
        obtain ⟨⟨m, k'⟩, hmk, hm⟩ := mem_map.mp hbelow
        obtain ⟨c', rfl, hc', -⟩ := hdepth _ hmk
        obtain rfl := Place.entry.inj (Node.mk.inj hm).2
        rwa [hc.unique hA hc']
  · have hbare : ∀ i, i < n.doc.size → n ≠ .atEntry n.doc i := fun i hi heq => hentry ⟨i, hi, heq⟩
    refine ⟨[], .ended ?_, Nat.zero_le _, pairwise_singleton _ n, ?_⟩
    · simp only [Node.nextWithin?, Node.firstChild?_of_bare hbare]
      rfl
    · intro m k
      constructor
      · rintro ⟨⟩
      · rintro ⟨hk, hlevel⟩
        obtain ⟨k, rfl⟩ := Nat.exists_eq_add_of_le' hk
        exact absurd hlevel (Node.not_level_of_bare hn hbare)

/-! ## What the steps find below a node -/

def chainEnds (tests : List NodeTest) (ps : List (Node × Nat)) : List (Node × Nat) :=
  ps.filter fun x => DescentWalk.accepts tests ⟨x.1, x.2⟩

/-- What a descent finds next among the nodes ahead of it. -/
theorem Roams.seek_cases (tests : List NodeTest) {n : Node} {ps : List (Node × Nat)} (h : Roams n k ps)
    {fuel : Nat} (hfuel : ps.length < fuel) : (DescentWalk.seek tests fuel ⟨n, k⟩ = none ∧ chainEnds tests ps = []) ∨
      ∃ m j rest, DescentWalk.seek tests fuel ⟨n, k⟩ = some ⟨m, j⟩ ∧ Roams m j rest ∧ m.doc = n.doc ∧
        rest.length ≤ ps.length ∧ chainEnds tests ps = (m, j) :: chainEnds tests rest := by
  induction h generalizing fuel with
  | ended h =>
    obtain ⟨fuel, rfl⟩ := Nat.exists_eq_add_of_le' hfuel
    refine .inl ⟨?_, rfl⟩
    simp only [DescentWalk.seek, h]
  | @next n m k j rest h tail ih =>
    obtain ⟨fuel, rfl⟩ := exists_succ_of_lt hfuel
    rw [length_cons] at hfuel
    have hdoc : m.doc = n.doc := Node.nextWithin?_doc h
    cases haccepts : DescentWalk.accepts tests ⟨m, j⟩ with
    | true =>
      refine .inr ⟨m, j, rest, ?_, tail, hdoc, Nat.le_succ _, filter_cons_of_pos haccepts⟩
      simp only [DescentWalk.seek, h, haccepts, if_true]
    | false =>
      have hskip : DescentWalk.seek tests (fuel + 1) ⟨n, k⟩ = DescentWalk.seek tests fuel ⟨m, j⟩ := by
        conv => lhs; unfold DescentWalk.seek
        simp only [h, haccepts, Bool.false_eq_true, if_false]
      have hfilter : chainEnds tests ((m, j) :: rest) = chainEnds tests rest :=
        filter_cons_of_neg (by rw [haccepts]; exact Bool.false_ne_true)
      rw [hskip, hfilter]
      rcases ih (Nat.lt_of_succ_lt_succ hfuel) with hnone | ⟨m', j', rest', hseek, htail, hdoc', hle, heq⟩
      · exact .inl hnone
      · exact .inr ⟨m', j', rest', hseek, htail, hdoc'.trans hdoc, Nat.le_succ_of_le hle, heq⟩

theorem Roams.exhausts_descent (tests : List NodeTest) {g : List Node} {n : Node} {ps : List (Node × Nat)}
    (h : Roams n k ps) (hroom : ps.length ≤ n.doc.size) (hg : (chainEnds tests ps).map Prod.fst = g) :
    Exhausts (descentStep tests) (some ⟨n, k⟩) g := by
  induction g generalizing n k ps with
  | nil =>
    rcases h.seek_cases tests (Nat.lt_succ_of_le hroom) with ⟨hseek, -⟩ | ⟨m, j, rest, -, -, -, -, heq⟩
    · exact .nothing (by rw [descentStep, bind_some, DescentWalk.next?, hseek]; rfl)
    · rw [heq] at hg
      cases hg
  | cons m g ih =>
    rcases h.seek_cases tests (Nat.lt_succ_of_le hroom) with ⟨-, heq⟩ | ⟨m', j, rest, hseek, htail, hdoc, hle, heq⟩
    · rw [heq] at hg
      cases hg
    · rw [heq, map_cons] at hg
      obtain ⟨rfl, hrest⟩ := cons.inj hg
      have hstep : descentStep tests (some ⟨n, k⟩) = some (m', some ⟨m', j⟩) := by
        rw [descentStep, bind_some, DescentWalk.next?, hseek]
        rfl
      exact .found hstep (ih htail (by rw [hdoc]; omega) hrest)

namespace Below

variable {ps : List (Node × Nat)}

section

variable (h : Below n ps)

include h

theorem mem_iff_level : m ∈ n :: ps.map Prod.fst ↔ ∃ k, n.Level k m := by
  rw [List.mem_cons, List.mem_map]
  constructor
  · rintro (rfl | ⟨⟨m, k⟩, hmk, rfl⟩)
    · exact ⟨0, rfl⟩
    · exact ⟨k, (h.mem_iff.mp hmk).2⟩
  · rintro ⟨k, hk⟩
    match k, hk with
    | 0, hk => exact .inl hk
    | k + 1, hk => exact .inr ⟨(m, k + 1), h.mem_iff.mpr ⟨Nat.succ_pos k, hk⟩, rfl⟩

theorem nodup : (n :: ps.map Prod.fst).Nodup := by
  refine h.ordered.imp ?_
  rintro a b hab rfl
  rw [Node.compare_eq_lt_iff] at hab
  omega

theorem lists : (Walk.facing n (.within 0)).Lists (n :: ps.map Prod.fst) := by
  refine .facing (h.roams.lists h.room) ?_
  rw [length_map]
  exact Nat.lt_succ_of_le h.room

theorem reaches_descendantOrSelf (htest : test.isAnyNode = true) :
    Axis.descendantOrSelf.Reaches test n (n :: ps.map Prod.fst) := by
  refine Walk.finds_iff_exhausts.mp (h.lists.finds ?_)
  refine filter_eq_self.mpr fun m _ => ?_
  match test, htest with
  | .kind .anyNode, _ => rfl

theorem reaches_descendant (test : NodeTest) :
    Axis.descendant.Reaches test n ((ps.map Prod.fst).filter (test.accepts · .element)) :=
  Walk.finds_iff_exhausts.mp ((h.roams.lists h.room).finds rfl)

theorem descentReaches (tests : List NodeTest) : DescentReaches tests n ((chainEnds tests ps).map Prod.fst) :=
  h.roams.exhausts_descent tests h.room rfl

end

end Below

theorem Forest.exists_children (hn : F.Has n.doc) (test : NodeTest) : ∃ g, Axis.child.Reaches test n g ∧ g.Nodup ∧
      ∀ m, m ∈ g ↔ m.IsContent ∧ m.parent? = some n ∧ test.accepts m .element = true := by
  by_cases hexists : n.Exists
  · obtain ⟨g, hfinds, hpair, hmem⟩ := ((F.arena _ hn).listed_child hexists).exists_group test
      fun _ => NodeTest.all_kind?_of_accepts
    refine ⟨g, Walk.finds_iff_exhausts.mp hfinds, ?_, fun m => (hmem m).trans and_assoc⟩
    refine hpair.imp ?_
    rintro a b hab rfl
    exact Std.Asymm.asymm _ _ hab hab
  · have hfirst := Node.firstChild?_of_bare (n := n) fun i hi heq => hexists (by rw [heq]; exact hi)
    refine ⟨[], ?_, nodup_nil, fun m => ⟨(nomatch ·), ?_⟩⟩
    · refine .nothing ?_
      simp only [Walk.start, hfirst]
      rfl
    · rintro ⟨hm, hparent, -⟩
      have hdoc : n.doc = m.doc := Node.parent?_doc hparent
      exact absurd (hm.exists_of_parent? (F.arena _ (hdoc ▸ hn)) hparent) hexists

/-! ## Runs of child steps -/

/-- The node is reached from the first one by child steps with these tests, the last of them first. -/
def Node.Up (x : Node) : List NodeTest → Node → Prop
  | [], m => m = x
  | t :: ts, m => m.IsContent ∧ t.accepts m .element = true ∧ ∃ y, m.parent? = some y ∧ x.Up ts y

theorem Node.up_append : ∀ {ts : List NodeTest} {m : Node}, x.Up (ts ++ [t]) m ↔ ∃ y, x.Up [t] y ∧ y.Up ts m
  | [], m => by
    rw [nil_append]
    constructor
    · exact fun h => ⟨m, h, rfl⟩
    · rintro ⟨y, h, rfl⟩
      exact h
  | t' :: ts, m => by
    rw [cons_append]
    constructor
    · rintro ⟨hm, ht, z, hz, h⟩
      obtain ⟨y, hy, h⟩ := up_append.mp h
      exact ⟨y, hy, hm, ht, z, hz, h⟩
    · rintro ⟨y, hy, hm, ht, z, hz, h⟩
      exact ⟨hm, ht, z, hz, up_append.mpr ⟨y, hy, h⟩⟩

theorem acceptsUpward_cons {ts : List NodeTest} (hy : m.parent? = some y) :
    acceptsUpward (t :: ts) m = true ↔ t.accepts m .element = true ∧ acceptsUpward ts y = true := by
  cases ts with
  | nil => exact ⟨fun h => ⟨h, rfl⟩, And.left⟩
  | cons t' ts =>
    rw [acceptsUpward, hy, any_some, Bool.and_eq_true]
    exact cons_ne_nil t' ts

/-- From somewhere at or below a node, child steps lead just to the nodes that are deep enough and are
accepted from there upwards. -/
theorem Node.exists_level_up_iff : ∀ {ts : List NodeTest} {m : Node},
    (∃ x k, n.Level k x ∧ x.Up ts m) ↔ ∃ k, ts.length ≤ k ∧ n.Level k m ∧ acceptsUpward ts m = true
  | [], m => by
    constructor
    · rintro ⟨_, k, hk, rfl⟩
      exact ⟨k, Nat.zero_le k, hk, rfl⟩
    · rintro ⟨k, -, hk, -⟩
      exact ⟨m, k, hk, rfl⟩
  | t :: ts, m => by
    constructor
    · rintro ⟨x, k, hk, hm, ht, y, hy, hup⟩
      obtain ⟨k', hlength, hk', haccepts⟩ := exists_level_up_iff.mp ⟨x, k, hk, hup⟩
      exact ⟨k' + 1, Nat.succ_le_succ hlength, ⟨hm, y, hy, hk'⟩, (acceptsUpward_cons hy).mpr ⟨ht, haccepts⟩⟩
    · rintro ⟨k, hlength, hk, haccepts⟩
      obtain ⟨k, rfl⟩ := exists_succ_of_lt hlength
      obtain ⟨hm, y, hy, hk⟩ := hk
      obtain ⟨ht, haccepts⟩ := (acceptsUpward_cons hy).mp haccepts
      obtain ⟨x, k', hk', hup⟩ := exists_level_up_iff.mpr ⟨k, Nat.le_of_succ_le_succ hlength, hk, haccepts⟩
      exact ⟨x, k', hk', hm, ht, y, hy, hup⟩

def ChildRuns : List NodeTest → List Node → List Node → Prop
  | [], nodes, out => out = nodes
  | t :: ts, nodes, out => ∃ groups, List.Forall₂ (Axis.child.Reaches t) nodes groups ∧
      ChildRuns ts groups.flatten out

/-- The children of nodes that a test accepts. -/
theorem Forest.exists_childGroups (hnodes : ∀ n ∈ nodes, F.Has n.doc) (test : NodeTest) :
    ∃ groups, List.Forall₂ (Axis.child.Reaches test) nodes groups ∧
      (nodes.Nodup → groups.flatten.Nodup) ∧ ∀ m, m ∈ groups.flatten ↔ ∃ n ∈ nodes, n.Up [test] m := by
  induction nodes with
  | nil => exact ⟨[], .nil, id, fun m => by simp⟩
  | cons n nodes ih =>
    obtain ⟨hn, hnodes⟩ := forall_mem_cons.mp hnodes
    obtain ⟨groups, hgroups, hnodup, hmem⟩ := ih hnodes
    obtain ⟨g, hg, hgnodup, hgmem⟩ := F.exists_children hn test
    have hup : ∀ m, m ∈ g ↔ n.Up [test] m := by
      intro m
      rw [hgmem]
      constructor
      · rintro ⟨hm, hparent, ht⟩
        exact ⟨hm, ht, n, hparent, rfl⟩
      · rintro ⟨hm, ht, y, hparent, rfl⟩
        exact ⟨hm, hparent, ht⟩
    refine ⟨g :: groups, .cons hg hgroups, ?_, ?_⟩
    · intro h
      obtain ⟨hnew, h⟩ := nodup_cons.mp h
      rw [flatten_cons]
      refine hgnodup.append (hnodup h) fun m hm hm' => hnew ?_
      -- a node has one parent
      obtain ⟨-, -, y, hy, rfl⟩ := (hup m).mp hm
      obtain ⟨n', hn', -, -, y', hy', rfl⟩ := (hmem m).mp hm'
      rw [hy] at hy'
      exact some.inj hy' ▸ hn'
    · intro m
      rw [flatten_cons, mem_append, hup, hmem]
      exact (exists_mem_cons_iff (·.Up [test] m) n nodes).symm

theorem Node.Up.doc_eq : ∀ {ts : List NodeTest} {m : Node}, x.Up ts m → m.doc = x.doc
  | [], _, h => congrArg Node.doc h
  | _ :: _, _, ⟨_, _, _, hy, h⟩ => (Node.parent?_doc hy).symm.trans h.doc_eq

/-- A run of child steps leads from nodes in the forest to nodes in the forest, each reached once. -/
theorem Forest.exists_childRuns (tests : List NodeTest) : ∀ {nodes : List Node}, (∀ n ∈ nodes, F.Has n.doc) →
    ∃ out, ChildRuns tests nodes out ∧ (nodes.Nodup → out.Nodup) ∧
      ∀ m, m ∈ out ↔ ∃ n ∈ nodes, n.Up tests.reverse m := by
  induction tests with
  | nil =>
    intro nodes _
    refine ⟨nodes, rfl, id, fun m => ⟨fun hm => ⟨m, hm, rfl⟩, ?_⟩⟩
    rintro ⟨n, hn, rfl⟩
    exact hn
  | cons t ts ih =>
    intro nodes hnodes
    obtain ⟨groups, hgroups, hnodup, hmem⟩ := F.exists_childGroups hnodes t
    have hdocs : ∀ m ∈ groups.flatten, F.Has m.doc := by
      intro m hm
      obtain ⟨n, hn, hup⟩ := (hmem m).mp hm
      exact hup.doc_eq ▸ hnodes n hn
    obtain ⟨out, hout, houtnodup, houtmem⟩ := ih hdocs
    refine ⟨out, ⟨groups, hgroups, hout⟩, houtnodup ∘ hnodup, fun m => ?_⟩
    rw [houtmem, reverse_cons]
    constructor
    · rintro ⟨y, hy, hup⟩
      obtain ⟨n, hn, hy⟩ := (hmem y).mp hy
      exact ⟨n, hn, Node.up_append.mpr ⟨y, hy, hup⟩⟩
    · rintro ⟨n, hn, hup⟩
      obtain ⟨y, hy, hup⟩ := Node.up_append.mp hup
      exact ⟨y, (hmem y).mpr ⟨n, hn, hy⟩, hup⟩

theorem ChildRuns.append :
    ∀ {nodes nodes' out out' : List Node}, ChildRuns tests nodes out → ChildRuns tests nodes' out' →
      ChildRuns tests (nodes ++ nodes') (out ++ out') := by
  induction tests with
  | nil =>
    rintro nodes nodes' _ _ rfl rfl
    rfl
  | cons t ts ih =>
    rintro nodes nodes' out out' ⟨groups, hgroups, h⟩ ⟨groups', hgroups', h'⟩
    refine ⟨groups ++ groups', rel_append hgroups hgroups', ?_⟩
    rw [flatten_append]
    exact ih h h'

/-- The nodes that a step finds that has been merged from a run of child steps below every descendant. -/
def MergedReaches : List NodeTest → Node → List Node → Prop
  | [t] => Axis.descendant.Reaches t
  | ts => DescentReaches ts

/-- A descent finds the nodes that are deep enough and are accepted from there upwards. -/
theorem Below.mem_chainEnds_iff {ps : List (Node × Nat)} (h : Below n ps) (htests : tests ≠ []) :
    m ∈ (chainEnds tests ps).map Prod.fst ↔
      ∃ k, tests.length ≤ k ∧ n.Level k m ∧ acceptsUpward tests.reverse m = true := by
  simp only [chainEnds, DescentWalk.accepts, List.mem_map, List.mem_filter, Bool.and_eq_true,
    decide_eq_true_eq]
  constructor
  · rintro ⟨⟨m, k⟩, ⟨hmk, hlength, haccepts⟩, rfl⟩
    exact ⟨k, hlength, (h.mem_iff.mp hmk).2, haccepts⟩
  · rintro ⟨k, hlength, hk, haccepts⟩
    have hpos : 0 < k := Nat.lt_of_lt_of_le (length_pos_iff.mpr htests) hlength
    exact ⟨(m, k), ⟨h.mem_iff.mpr ⟨hpos, hk⟩, hlength, haccepts⟩, rfl⟩

theorem Below.exists_merged {ps : List (Node × Nat)} (h : Below n ps) (htests : tests ≠ []) :
    ∃ out, MergedReaches tests n out ∧ out.Nodup ∧
      ∀ m, m ∈ out ↔ ∃ k, tests.length ≤ k ∧ n.Level k m ∧ acceptsUpward tests.reverse m = true := by
  have hnodup := (nodup_cons.mp h.nodup).2
  have hmany : ∃ out, DescentReaches tests n out ∧ out.Nodup ∧
      ∀ m, m ∈ out ↔ ∃ k, tests.length ≤ k ∧ n.Level k m ∧ acceptsUpward tests.reverse m = true :=
    ⟨_, h.descentReaches tests, hnodup.sublist (filter_sublist.map _), fun _ =>
      h.mem_chainEnds_iff htests⟩
  match tests, hmany with
  | [], _ => exact absurd rfl htests
  | [t], _ =>
    refine ⟨_, h.reaches_descendant t, hnodup.filter _, fun m => ?_⟩
    rw [List.mem_filter, List.mem_map]
    constructor
    · rintro ⟨⟨⟨m, k⟩, hmk, rfl⟩, haccepts⟩
      obtain ⟨hpos, hk⟩ := h.mem_iff.mp hmk
      exact ⟨k, hpos, hk, haccepts⟩
    · rintro ⟨k, hlength, hk, haccepts⟩
      exact ⟨⟨(m, k), h.mem_iff.mpr ⟨hlength, hk⟩, rfl⟩, haccepts⟩
  | _ :: _ :: _, hmany => exact hmany

/-- Child steps from a node and everything below it find each node once. -/
theorem Below.exists_childRuns {ps : List (Node × Nat)} (h : Below n ps) (hn : F.Has n.doc)
    (tests : List NodeTest) : ∃ out, ChildRuns tests (n :: ps.map Prod.fst) out ∧ out.Nodup ∧
      ∀ m, m ∈ out ↔ ∃ k, tests.length ≤ k ∧ n.Level k m ∧ acceptsUpward tests.reverse m = true := by
  have hdocs : ∀ m ∈ n :: ps.map Prod.fst, F.Has m.doc := by
    intro m hm
    obtain ⟨k, hk⟩ := h.mem_iff_level.mp hm
    exact hk.doc_eq ▸ hn
  obtain ⟨out, hout, hnodup, hmem⟩ := F.exists_childRuns tests hdocs
  refine ⟨out, hout, hnodup h.nodup, fun m => ?_⟩
  rw [hmem, ← length_reverse, ← Node.exists_level_up_iff]
  constructor
  · rintro ⟨x, hx, hup⟩
    obtain ⟨k, hk⟩ := h.mem_iff_level.mp hx
    exact ⟨x, k, hk, hup⟩
  · rintro ⟨x, k, hk, hup⟩
    exact ⟨x, h.mem_iff_level.mpr ⟨k, hk⟩, hup⟩

/-- Child steps from a node and everything below it find what the merged step finds, in some order. -/
theorem Forest.exists_descent (htest : test.isAnyNode = true) (htests : tests ≠ [])
    (hnodes : ∀ n ∈ nodes, F.Has n.doc) :
    ∃ below out ends, List.Forall₂ (Axis.descendantOrSelf.Reaches test) nodes below ∧
      ChildRuns tests below.flatten out ∧ List.Forall₂ (MergedReaches tests) nodes ends ∧
      out.Perm ends.flatten := by
  induction nodes with
  | nil =>
    obtain ⟨out, hout, -, hmem⟩ := F.exists_childRuns tests hnodes
    obtain rfl : out = [] := eq_nil_iff_forall_not_mem.mpr fun m hm => by
      obtain ⟨n, hn, -⟩ := (hmem m).mp hm
      cases hn
    exact ⟨[], [], [], .nil, hout, .nil, .nil⟩
  | cons n nodes ih =>
    obtain ⟨hn, hnodes⟩ := forall_mem_cons.mp hnodes
    obtain ⟨below, out, ends, hbelow, hout, hends, hperm⟩ := ih hnodes
    obtain ⟨ps, hps⟩ := F.exists_below hn
    obtain ⟨out₁, hout₁, hnodup₁, hmem₁⟩ := hps.exists_childRuns hn tests
    obtain ⟨ends₁, hends₁, hnodup₁', hmem₁'⟩ := hps.exists_merged htests
    refine ⟨_ :: below, out₁ ++ out, ends₁ :: ends, .cons (hps.reaches_descendantOrSelf htest) hbelow,
      hout₁.append hout, .cons hends₁ hends, ?_⟩
    have hperm₁ : out₁.Perm ends₁ :=
      (perm_ext_iff_of_nodup hnodup₁ hnodup₁').mpr fun m => (hmem₁ m).trans (hmem₁' m).symm
    exact hperm₁.append hperm

end XPath
