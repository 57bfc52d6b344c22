import XPath.Proofs.Ancestry
import XPath.Proofs.DocumentOrder
import XPath.Tree.Address

/-!
# A built array is its tree in document order

`Fragment.StoredAt` says that an entry holds a fragment: its own data, its attributes and, by number, its
children. `Document.InOrder` is the layout that walks, sorting and dropping repeats rely on. Both hold of
every document that is built from a proper fragment.

Document order itself is told by the way to a node from the root: ways are compared turn by turn, and the
namespace nodes of a node come before its attributes, those before its children (`compareWays`). For nodes
of a built document `Node.compare` is that order, and over documents with different numbers it is a strict
total order.
-/

namespace XPath

open Option Array

variable {p k owner i : Nat} {t u : Turn} {n m a b : Node} {ts : List Turn}
  {docs : Set Document}

/-! ## The layout -/

/-- The layout that walks, sorting and dropping repeats rely on. -/
structure Document.InOrder (doc : Document) : Prop where
  /-- Only the first entry has no parent, and a parent stands before what is below it. -/
  root : ∀ (i : Nat) (d : NodeData), doc.nodes[i]? = some d → (d.parent = none ↔ i = 0)
  parent_lt : ∀ (i : Nat) (d : NodeData) (p : Nat), doc.nodes[i]? = some d → d.parent = some p → p < i
  /-- The attributes of an entry follow it directly. -/
  attributes : ∀ (i : Nat) (d : NodeData) (k a : Nat), doc.nodes[i]? = some d → d.attributes[k]? = some a →
    a = i + 1 + k
  /-- What is below an entry makes a stretch of the array. -/
  stretch : ∀ i, i < doc.size → ∃ stop, i < stop ∧ stop ≤ doc.size ∧
    ∀ j, j < doc.size → (j = i ∨ Node.Ancestor (.atEntry doc i) (.atEntry doc j) ↔ i ≤ j ∧ j < stop)
  ascending : ∀ (i : Nat) (d : NodeData), doc.nodes[i]? = some d →
    d.children.toList.Pairwise (· < ·) ∧ d.attributes.toList.Pairwise (· < ·)
  /-- An entry with a parent is in one of its lists, at its sibling index. -/
  listed : ∀ (i : Nat) (d : NodeData) (p : Nat), doc.nodes[i]? = some d → d.parent = some p → ∃ e,
    doc.nodes[p]? = some e ∧
    if d.kind = .attribute then e.attributes[d.siblingIndex]? = some i
    else e.children[d.siblingIndex]? = some i
  /-- Who is in one of the lists of an entry has it as parent, and its place in the list as sibling
  index. -/
  childOf : ∀ (i : Nat) (d : NodeData) (k c : Nat), doc.nodes[i]? = some d → d.children[k]? = some c → ∃ e,
    doc.nodes[c]? = some e ∧
    e.parent = some i ∧ e.siblingIndex = k ∧ e.kind ≠ .attribute
  attributeOf : ∀ (i : Nat) (d : NodeData) (k a : Nat), doc.nodes[i]? = some d → d.attributes[k]? = some a →
    ∃ e, doc.nodes[a]? = some e ∧ e.parent = some i ∧ e.siblingIndex = k ∧ e.kind = .attribute

/-- The stretches of a row follow each other. -/
theorem Row.pairwise {nodes : Array NodeData} {stop : Nat → Nat} {hi : Nat} :
    ∀ {cs : List Nat} {index lo : Nat}, Row nodes stop p hi index lo cs →
      cs.Pairwise fun a b => stop a ≤ b
  | [], _, _, _ => .nil
  | c :: cs, _, lo, ⟨hc, _, _, hrest⟩ => by
    refine .cons ?_ hrest.pairwise
    intro b hb
    rw [hc]
    exact hrest.le_of_mem hb

namespace Arena

variable {doc : Document} {stop : Nat → Nat} (h : Arena doc stop)

include h

/-- The stretch of a child ends before the next ones begin. -/
theorem stop_le_of_child {l c c' : Nat} (hc : doc.Child p k c) (hc' : doc.Child p l c') (hkl : k < l) :
    stop c ≤ c' := by
  obtain ⟨d, hd, hc⟩ := hc
  obtain ⟨d', hd', hc'⟩ := hc'
  cases hd.symm.trans hd'
  obtain ⟨hk, rfl⟩ := Array.getElem?_eq_some_iff.mp hc
  obtain ⟨hl, rfl⟩ := Array.getElem?_eq_some_iff.mp hc'
  exact List.pairwise_iff_getElem.mp (h.stretch p d hd).children.pairwise k l hk hl hkl

theorem inOrder : doc.InOrder where
  root i d hd := by
    constructor
    · intro hnone
      refine Nat.eq_zero_of_not_pos fun hpos => ?_
      obtain ⟨p, -, hp, -⟩ := h.hangs i d hd hpos
      rw [hnone] at hp
      cases hp
    · rintro rfl
      exact h.root d hd
  parent_lt i d p hd hp := h.parent_lt hd hp
  attributes i d k a hd ha := ((h.stretch i d hd).attributes k a ha).1
  stretch i hi := by
    refine ⟨stop i, h.lt_stop_self hi, h.stop_le hi, ?_⟩
    intro j hj
    have hself := h.lt_stop_self hi
    constructor
    · rintro (rfl | habove)
      · exact ⟨.refl, hself⟩
      · obtain ⟨k, hk, hkj, hjk⟩ := (h.ancestor_iff hj).mp habove
        cases hk
        exact ⟨Nat.le_of_lt hkj, hjk⟩
    · rintro ⟨hij, hjs⟩
      rcases Nat.eq_or_lt_of_le hij with rfl | hij
      · exact .inl rfl
      · exact .inr ((h.ancestor_iff hj).mpr ⟨i, rfl, hij, hjs⟩)
  ascending i d hd := by
    constructor
    · refine List.pairwise_iff_getElem.mpr ?_
      intro k l hk hl hkl
      have hc : doc.Child i k _ := ⟨d, hd, getElem?_eq_getElem hk⟩
      have hc' : doc.Child i l _ := ⟨d, hd, getElem?_eq_getElem hl⟩
      obtain ⟨-, hlt, -⟩ := h.child hc
      exact Nat.lt_of_lt_of_le hlt (h.stop_le_of_child hc hc' hkl)
    · refine List.pairwise_iff_getElem.mpr ?_
      intro k l hk hl hkl
      have hplace := (h.stretch i d hd).attributes
      have ha := (hplace k _ (getElem?_eq_getElem hk)).1
      have hb := (hplace l _ (getElem?_eq_getElem hl)).1
      simp only [getElem_toList]
      omega
  listed i d p hd hp := by
    obtain ⟨p', e, hp', he, -, hmem⟩ := h.hangs i d hd (Nat.zero_lt_of_lt (h.parent_lt hd hp))
    cases hp.symm.trans hp'
    exact ⟨e, he, hmem⟩
  childOf i d k c hd hc := by
    obtain ⟨-, -, -, ⟨e, he, hparent, hindex, hkind⟩, -⟩ := h.child ⟨d, hd, hc⟩
    refine ⟨e, he, hparent, hindex, ?_⟩
    intro hattr
    rw [hattr] at hkind
    cases hkind
  attributeOf i d k a hd ha := by
    obtain ⟨-, e, he, hof⟩ := (h.stretch i d hd).attributes k a ha
    exact ⟨e, he, hof.parent, hof.siblingIndex, hof.kind⟩

end Arena

/-! ## Ways from the root -/

/-- Namespace nodes come first, then attributes, then children; each kind by number. -/
def Turn.rank : Turn → Nat × Nat
  | .namespaceNode k => (0, k)
  | .attribute k => (1, k)
  | .child k => (2, k)

def Turn.compare (t u : Turn) : Ordering :=
  (Ord.compare t.rank.1 u.rank.1).then (Ord.compare t.rank.2 u.rank.2)

/-- The order of two nodes by the ways to them: a node comes before everything below it, and the first
turn that differs decides otherwise. -/
def compareWays : List Turn → List Turn → Ordering
  | [], [] => .eq
  | [], _ :: _ => .lt
  | _ :: _, [] => .gt
  | t :: ts, u :: us => (t.compare u).then (compareWays ts us)

def Node.follow? (n : Node) (ts : List Turn) : Option Node :=
  ts.foldlM Node.turn? n

/-- The node is there: an entry of the array, or one of the namespaces in scope at an entry. -/
def Node.Stands (n : Node) : Prop :=
  match n.place with
  | .entry i => i < n.doc.size
  | .namespaceOf owner k => owner < n.doc.size ∧ k < (n.doc.inScope owner).length

theorem Turn.compare_swap (t u : Turn) : (t.compare u).swap = u.compare t := by
  simp only [compare, Ordering.swap_then, Nat.compare_swap]

theorem Turn.compare_eq_eq_iff : t.compare u = .eq ↔ t = u := by
  cases t <;> cases u <;> simp [compare, rank, Ordering.then_eq_eq]

namespace Node

theorem compare_swap (a b : Node) : (a.compare b).swap = b.compare a := by
  simp only [compare, compareKeys, Ordering.swap_then, Nat.compare_swap]

@[simp] theorem follow?_nil (n : Node) : n.follow? [] = some n := rfl

theorem follow?_cons (n : Node) (t : Turn) (ts : List Turn) :
    n.follow? (t :: ts) = (n.turn? t).bind (·.follow? ts) := rfl

theorem follow?_concat (h : n.follow? ts = some m) (t : Turn) : n.follow? (ts ++ [t]) = m.turn? t := by
  unfold follow? at h ⊢
  simp [List.foldlM_append, h]

/-- No turn leads away from a namespace node. -/
theorem turn?_namespaceOf {doc : Document} (t : Turn) : turn? ⟨doc, .namespaceOf owner k⟩ t = none := by
  cases t <;> rfl

theorem eq_of_follow?_namespaceOf {doc : Document} (h : follow? ⟨doc, .namespaceOf owner k⟩ ts = some m) :
    ts = [] ∧ m = ⟨doc, .namespaceOf owner k⟩ := by
  cases ts with
  | nil => exact ⟨rfl, (some.inj h).symm⟩
  | cons t ts =>
    rw [follow?_cons, turn?_namespaceOf] at h
    cases h

/-- Where the turns from an entry lead. -/
theorem turn?_atEntry {doc : Document} (h : (atEntry doc i).turn? t = some m) :
    (∃ k, t = .namespaceNode k ∧ k < (doc.inScope i).length ∧ m = ⟨doc, .namespaceOf i k⟩) ∨
      (∃ k d a, t = .attribute k ∧ doc.nodes[i]? = some d ∧ d.attributes[k]? = some a ∧
        m = atEntry doc a) ∨
      ∃ k c, t = .child k ∧ doc.Child i k c ∧ m = atEntry doc c := by
  cases t with
  | namespaceNode k =>
    simp only [turn?] at h
    split at h
    · next hk => exact .inl ⟨k, rfl, hk, (some.inj h).symm⟩
    · cases h
  | «attribute» k =>
    obtain ⟨a, ha, rfl⟩ := map_eq_some_iff.mp h
    obtain ⟨d, hd, ha⟩ := bind_eq_some_iff.mp ha
    exact .inr (.inl ⟨k, d, a, rfl, hd, ha, rfl⟩)
  | child k =>
    obtain ⟨c, hc, rfl⟩ := map_eq_some_iff.mp h
    obtain ⟨d, hd, hc⟩ := bind_eq_some_iff.mp hc
    exact .inr (.inr ⟨k, c, rfl, ⟨d, hd, hc⟩, rfl⟩)

end Node

namespace Arena

variable {doc : Document} {stop : Nat → Nat} (h : Arena doc stop)

include h

theorem follow?_within : ∀ {ts : List Turn} {i : Nat} {m : Node}, i < doc.size →
    (Node.atEntry doc i).follow? ts = some m → m.doc = doc ∧ m.Stands ∧ i ≤ m.orderKey.2.1 ∧ m.orderKey.2.1 < stop i
  | [], i, _, hi, hm => by
    cases hm
    exact ⟨rfl, hi, .refl, h.lt_stop_self hi⟩
  | t :: ts, i, m, hi, hm => by
    rw [Node.follow?_cons] at hm
    obtain ⟨n, hn, hm⟩ := bind_eq_some_iff.mp hm
    rcases Node.turn?_atEntry hn with ⟨k, -, hk, rfl⟩ | ⟨k, d, a, -, hd, ha, rfl⟩ | ⟨k, c, -, hc, rfl⟩
    · obtain ⟨-, rfl⟩ := Node.eq_of_follow?_namespaceOf hm
      exact ⟨rfl, ⟨hi, hk⟩, .refl, h.lt_stop_self hi⟩
    · obtain ⟨rfl, e, he, hof⟩ := (h.stretch i d hd).attributes k a ha
      obtain ⟨hdoc, hstands, hlo, hhi⟩ := follow?_within (Array.getElem?_eq_some_iff.mp he).1 hm
      obtain ⟨-, hin, hle, -⟩ := h.parent he hof.parent
      exact ⟨hdoc, hstands, by omega, by omega⟩
    · obtain ⟨hlt, hself, hle, ⟨e, he, -⟩, -⟩ := h.child hc
      obtain ⟨hdoc, hstands, hlo, hhi⟩ := follow?_within (Array.getElem?_eq_some_iff.mp he).1 hm
      exact ⟨hdoc, hstands, by omega, by omega⟩

/-- The keys below a turn from an entry. -/
theorem follow?_turn {d : NodeData} (hd : doc.nodes[i]? = some d)
    (hm : (Node.atEntry doc i).follow? (t :: ts) = some m) : m.doc = doc ∧
      match t with
      | .namespaceNode k => m.orderKey.2 = (i, k + 1)
      | .attribute k => k < d.attributes.size ∧ m.orderKey.2.1 = i + 1 + k
      | .child k => ∃ c, doc.Child i k c ∧ i + 1 + d.attributes.size ≤ c ∧ c ≤ m.orderKey.2.1 ∧
          m.orderKey.2.1 < stop c := by
  rw [Node.follow?_cons] at hm
  obtain ⟨n, hn, hm⟩ := bind_eq_some_iff.mp hm
  rcases Node.turn?_atEntry hn with ⟨k, rfl, hk, rfl⟩ | ⟨k, d', a, rfl, hd', ha, rfl⟩ | ⟨k, c, rfl, hc, rfl⟩
  · obtain ⟨-, rfl⟩ := Node.eq_of_follow?_namespaceOf hm
    exact ⟨rfl, rfl⟩
  · cases hd.symm.trans hd'
    obtain ⟨rfl, e, he, hof⟩ := (h.stretch i d hd).attributes k a ha
    obtain ⟨hdoc, -, hlo, hhi⟩ := h.follow?_within (Array.getElem?_eq_some_iff.mp he).1 hm
    rw [h.stop_attribute he hof] at hhi
    exact ⟨hdoc, (Array.getElem?_eq_some_iff.mp ha).1, by omega⟩
  · obtain ⟨-, -, -, ⟨e, he, -⟩, -⟩ := h.child hc
    obtain ⟨hdoc, -, hlo, hhi⟩ := h.follow?_within (Array.getElem?_eq_some_iff.mp he).1 hm
    exact ⟨hdoc, c, hc, (h.stretch i d hd).children.le_of_mem (hc.mem hd), hlo, hhi⟩

theorem orderKey_of_follow? (hi : i < doc.size) (hm : (Node.atEntry doc i).follow? ts = some m) :
    m.orderKey.1 = doc.id := by
  obtain ⟨hdoc, -⟩ := h.follow?_within hi hm
  rw [← hdoc]
  unfold Node.orderKey
  cases m.place <;> rfl

/-- The earlier of two turns leads to earlier nodes. -/
theorem compare_of_turn_lt {us : List Turn} (hi : i < doc.size) (ha : (Node.atEntry doc i).follow? (t :: ts) = some a)
    (hb : (Node.atEntry doc i).follow? (u :: us) = some b) (htu : t.compare u = .lt) : a.compare b = .lt := by
  have hd := getElem?_eq_getElem hi
  obtain ⟨-, hka⟩ := h.follow?_turn hd ha
  obtain ⟨-, hkb⟩ := h.follow?_turn hd hb
  rw [Node.compare_eq_lt_iff, h.orderKey_of_follow? hi ha, h.orderKey_of_follow? hi hb]
  refine .inr ⟨rfl, ?_⟩
  simp only [Turn.compare, Ordering.then_eq_lt, Nat.compare_eq_lt, Nat.compare_eq_eq] at htu
  cases t <;> cases u <;> simp only [Turn.rank, Prod.ext_iff] at htu hka hkb
  all_goals first
    | omega
    | obtain ⟨c, hc, hle, hlo, hhi⟩ := hkb
      first
        | omega
        | obtain ⟨c', hc', -, -, hhi'⟩ := hka
          have := h.stop_le_of_child hc' hc (by omega)
          omega

/-- A node comes before everything below it. -/
theorem compare_of_below (hi : i < doc.size) (hm : (Node.atEntry doc i).follow? (t :: ts) = some m) :
    (Node.atEntry doc i).compare m = .lt := by
  obtain ⟨-, hkey⟩ := h.follow?_turn (getElem?_eq_getElem hi) hm
  rw [Node.compare_eq_lt_iff, h.orderKey_of_follow? hi hm]
  refine .inr ⟨rfl, ?_⟩
  show i < m.orderKey.2.1 ∨ i = m.orderKey.2.1 ∧ 0 < m.orderKey.2.2
  cases t with
  | namespaceNode k =>
    simp only [Prod.ext_iff] at hkey
    omega
  | «attribute» k => omega
  | child k =>
    obtain ⟨c, -, hle, hlo, -⟩ := hkey
    omega

/-- The order of nodes is that of the ways to them. -/
theorem compare_eq_compareWays : ∀ {ts us : List Turn} {i : Nat} {a b : Node}, i < doc.size →
    (Node.atEntry doc i).follow? ts = some a → (Node.atEntry doc i).follow? us = some b →
    a.compare b = compareWays ts us
  | [], [], _, _, _, _, ha, hb => by
    cases ha
    cases hb
    exact Node.compare_eq_eq_iff.mpr rfl
  | [], _ :: _, _, _, _, hi, ha, hb => by
    cases ha
    exact h.compare_of_below hi hb
  | _ :: _, [], _, _, b, hi, ha, hb => by
    cases hb
    rw [← Node.compare_swap, h.compare_of_below hi ha]
    rfl
  | t :: ts, u :: us, i, a, b, hi, ha, hb => by
    unfold compareWays
    cases htu : t.compare u with
    | lt => exact h.compare_of_turn_lt hi ha hb htu
    | gt =>
      have hut : u.compare t = .lt := by rw [← Turn.compare_swap, htu]; rfl
      rw [← Node.compare_swap, h.compare_of_turn_lt hi hb ha hut]
      rfl
    | eq =>
      obtain rfl := Turn.compare_eq_eq_iff.mp htu
      rw [Node.follow?_cons] at ha hb
      obtain ⟨n, hn, ha⟩ := bind_eq_some_iff.mp ha
      obtain ⟨n', hn', hb⟩ := bind_eq_some_iff.mp hb
      cases hn.symm.trans hn'
      rcases Node.turn?_atEntry hn with ⟨k, -, -, rfl⟩ | ⟨k, d, j, -, hd, hj, rfl⟩ | ⟨k, c, -, hc, rfl⟩
      · obtain ⟨rfl, rfl⟩ := Node.eq_of_follow?_namespaceOf ha
        obtain ⟨rfl, rfl⟩ := Node.eq_of_follow?_namespaceOf hb
        exact Node.compare_eq_eq_iff.mpr rfl
      · obtain ⟨-, e, he, -⟩ := (h.stretch i d hd).attributes k j hj
        exact compare_eq_compareWays (Array.getElem?_eq_some_iff.mp he).1 ha hb
      · obtain ⟨-, -, -, ⟨e, he, -⟩, -⟩ := h.child hc
        exact compare_eq_compareWays (Array.getElem?_eq_some_iff.mp he).1 ha hb

theorem exists_way_entry (i : Nat) (hi : i < doc.size) :
    ∃ ts, (Node.rootOf doc).follow? ts = some (.atEntry doc i) := by
  induction i using Nat.strongRecOn with
  | ind i ih =>
    rcases Nat.eq_zero_or_pos i with rfl | hpos
    · exact ⟨[], rfl⟩
    · have hd := getElem?_eq_getElem hi
      obtain ⟨p, e, -, he, hlt, hmem⟩ := h.hangs i _ hd hpos
      obtain ⟨ts, hts⟩ := ih p hlt (Nat.lt_trans hlt hi)
      have hdata : (Node.atEntry doc p).data? = some e := he
      split at hmem
      · refine ⟨ts ++ [.attribute doc.nodes[i].siblingIndex], ?_⟩
        rw [Node.follow?_concat hts, Node.turn?, hdata, bind_some, hmem]
        rfl
      · refine ⟨ts ++ [.child doc.nodes[i].siblingIndex], ?_⟩
        rw [Node.follow?_concat hts, Node.turn?, hdata, bind_some, hmem]
        rfl

/-- The nodes of a document are the ones that ways from its root lead to. -/
theorem stands_iff_exists_way (hn : n.doc = doc) (hpos : 0 < doc.size) :
    n.Stands ↔ ∃ ts, (Node.rootOf doc).follow? ts = some n := by
  constructor
  · obtain ⟨doc', place⟩ := n
    obtain rfl : doc' = doc := hn
    cases place with
    | entry i => exact h.exists_way_entry i
    | namespaceOf owner k =>
      rintro ⟨howner, hk⟩
      obtain ⟨ts, hts⟩ := h.exists_way_entry owner howner
      refine ⟨ts ++ [.namespaceNode k], ?_⟩
      rw [Node.follow?_concat hts]
      exact if_pos hk
  · rintro ⟨ts, hts⟩
    exact (h.follow?_within hpos hts).2.1

end Arena

/-! ## Documents with different numbers -/

/-- Document order over documents with different numbers. -/
theorem Node.isStrictTotalOrder (hdocs : Set.InjOn Document.id docs) :
    IsStrictTotalOrder {n : Node // n.doc ∈ docs} fun a b => a.1.compare b.1 = .lt where
  trichotomous a b hab hba := by
    refine Subtype.ext (eq_of_compare_eq (hdocs a.2 b.2) ?_)
    rw [← compare_swap] at hba
    cases h : a.1.compare b.1 with
    | lt => exact absurd h hab
    | eq => rfl
    | gt => exact absurd (congrArg Ordering.swap h) hba
  irrefl a ha := by
    rw [compare_eq_eq_iff.mpr rfl] at ha
    cases ha
  trans a b c := compare_lt_trans

/-! ## Built documents -/

theorem Document.size_build_pos (id : Nat) (f : Fragment) : 0 < (build id f).size := by
  obtain ⟨-, -, ⟨hentry, -⟩⟩ := exists_layout_build id f
  exact (Array.getElem?_eq_some_iff.mp hentry).1

/-- A built document is the tree in document order: the first entry holds the fragment, the array has the
layout of a pre-order, the nodes are the ones that ways lead to, their order is that of the ways, and with
other documents of different numbers it is a strict total order that tells apart exactly what is not at
the same place. -/
theorem Document.build_in_documentOrder (id : Nat) (f : Fragment) (hf : f.isProper = true) :
    Fragment.StoredAt (build id f).nodes [] f 0 ∧ (build id f).InOrder ∧
    (∀ n : Node, n.doc = build id f →
      (n.Stands ↔ ∃ ts, (Node.rootOf (build id f)).follow? ts = some n)) ∧
    (∀ ts us a b, (Node.rootOf (build id f)).follow? ts = some a →
      (Node.rootOf (build id f)).follow? us = some b → a.compare b = compareWays ts us) ∧
    ∀ docs : Set Document, Set.InjOn Document.id docs →
      IsStrictTotalOrder {n : Node // n.doc ∈ docs} (fun a b => a.1.compare b.1 = .lt) ∧
      ∀ a b : {n : Node // n.doc ∈ docs}, b.1.compare a.1 = (a.1.compare b.1).swap ∧
        (a.1.compare b.1 = .eq ↔ a.1.samePlace b.1 = true) := by
  obtain ⟨stop, harena⟩ := exists_arena_build id hf
  obtain ⟨-, -, hstored⟩ := exists_layout_build id f
  have hpos := size_build_pos id f
  refine ⟨hstored, harena.inOrder, ?_, ?_, ?_⟩
  · intro n hn
    exact harena.stands_iff_exists_way hn hpos
  · intro ts us a b
    exact harena.compare_eq_compareWays hpos
  · intro docs hdocs
    refine ⟨Node.isStrictTotalOrder hdocs, ?_⟩
    intro a b
    exact ⟨(Node.compare_swap a.1 b.1).symm, Node.samePlace_iff.symm⟩

/-- A list of two items, the second with a note and a declaration of its own. -/
def notedList : Fragment :=
  .element (.unprefixed "list") [⟨"n", "urn:notes"⟩] [⟨.unprefixed "lang", "en"⟩, ⟨.unprefixed "size", "2"⟩]
    [.element (.unprefixed "item") [] [⟨.unprefixed "id", "1"⟩] [.text "one"],
      .element (.unprefixed "item") [⟨"m", "urn:marks"⟩] [⟨.unprefixed "id", "2"⟩]
        [.comment "noted", .text "two"]]

/-- An attribute among the children, before a text. -/
def Fragment.strayAttribute : Fragment :=
  .element (.unprefixed "r") [] [] [.attribute ⟨.unprefixed "a", "1"⟩, .text "t"]

theorem Document.build_in_documentOrder_notedList : notedList.isProper = true ∧ (build 4 notedList).InOrder ∧
    ∃ a b c, (Node.rootOf (build 4 notedList)).follow? [.child 1, .namespaceNode 1] = some a ∧
      (Node.rootOf (build 4 notedList)).follow? [.child 1, .attribute 0] = some b ∧
      (Node.rootOf (build 4 notedList)).follow? [.child 0, .child 0] = some c ∧
      a.compare b = .lt ∧ b.compare c = .gt := by
  obtain ⟨-, hlayout, -, hways, -⟩ := build_in_documentOrder 4 notedList (by decide)
  have ha : (Node.rootOf (build 4 notedList)).follow? [.child 1, .namespaceNode 1] =
      some ⟨build 4 notedList, .namespaceOf 6 1⟩ := rfl
  have hb : (Node.rootOf (build 4 notedList)).follow? [.child 1, .attribute 0] =
      some (.atEntry (build 4 notedList) 7) := by with_unfolding_all rfl
  have hc : (Node.rootOf (build 4 notedList)).follow? [.child 0, .child 0] =
      some (.atEntry (build 4 notedList) 5) := rfl
  exact ⟨by decide, hlayout, _, _, _, ha, hb, hc, hways _ _ _ _ ha hb, hways _ _ _ _ hb hc⟩

end XPath
