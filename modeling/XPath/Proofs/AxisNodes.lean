import XPath.Proofs.Ancestry
import XPath.Proofs.DocumentOrder

/-!
# The nodes of an axis

`Axis.Relates` says which nodes stand in an axis to a node, in terms of parents and of document order.
`Walk.Lists` says which nodes a walk passes on its way to the end. Two rules give the list of a walk that
goes from place to place, up or down the array, where nothing of interest is left out in between.
-/

namespace XPath

variable {i : Nat} {w : Walk} {l : List Node}

namespace Node

theorem compare_atEntry {doc : Document} {j : Nat} : (atEntry doc i).compare (atEntry doc j) = .lt ↔ i < j := by
  simp [compare_eq_lt_iff, orderKey]

def IsContent (n : Node) : Prop :=
  n.kind.isAttributeLike = false

/-- The place is there: an entry of the document, or one of the namespaces in scope at an element. -/
def Exists (n : Node) : Prop :=
  match n.place with
  | .entry i => i < n.doc.size
  | .namespaceOf owner k => (atEntry n.doc owner).kind = .element ∧ k < (n.doc.inScope owner).length

end Node

namespace Axis

def Relates : Axis → Node → Node → Prop
  | .self, n, m => m = n
  | .parent, n, m => n.parent? = some m
  | .ancestor, n, m => m.Ancestor n
  | .ancestorOrSelf, n, m => m = n ∨ m.Ancestor n
  | .child, n, m => m.IsContent ∧ m.parent? = some n
  | .attribute, n, m => m.kind = .attribute ∧ m.parent? = some n
  | .namespaces, n, m => n.kind = .element ∧ m.declaration?.isSome ∧ m.parent? = some n
  | .descendant, n, m => m.IsContent ∧ n.Ancestor m
  | .descendantOrSelf, n, m => m = n ∨ m.IsContent ∧ n.Ancestor m
  | .followingSibling, n, m =>
    n.IsContent ∧ m.IsContent ∧ (∃ p, n.parent? = some p ∧ m.parent? = some p) ∧ n.compare m = .lt
  | .precedingSibling, n, m =>
    n.IsContent ∧ m.IsContent ∧ (∃ p, n.parent? = some p ∧ m.parent? = some p) ∧ m.compare n = .lt
  | .following, n, m => m.IsContent ∧ m.doc = n.doc ∧ n.compare m = .lt ∧ ¬ n.Ancestor m
  | .preceding, n, m => m.IsContent ∧ m.doc = n.doc ∧ m.compare n = .lt ∧ ¬ m.Ancestor n

def Orders (axis : Axis) (a b : Node) : Prop :=
  if axis.isReverse then b.compare a = .lt else a.compare b = .lt

end Axis

/-! ## Walks to the end -/

namespace Walk

/-- The walk passes these nodes and then ends, within its bound. -/
inductive Lists : Walk → List Node → Prop
  | ended : Lists .ended []
  | facing {n : Node} {stride : Stride} {l : List Node} (h : Lists (after n stride) l)
      (room : l.length < bound (.facing n stride)) : Lists (.facing n stride) (n :: l)

theorem Lists.seek_cases {accepts : Node → Bool} (h : w.Lists l) : ∀ {fuel : Nat}, l.length ≤ fuel →
      (∃ n w' l', w.seek accepts fuel = some (n, w') ∧ w'.Lists l' ∧
          l.filter accepts = n :: l'.filter accepts) ∨
        w.seek accepts fuel = none ∧ l.filter accepts = [] := by
  induction h with
  | ended =>
    intro fuel _
    refine .inr ⟨?_, rfl⟩
    cases fuel <;> rfl
  | @facing n stride l h room ih =>
    intro fuel hfuel
    cases fuel with
    | zero => cases hfuel
    | succ fuel =>
      unfold seek
      rw [List.filter_cons]
      cases haccept : accepts n with
      | true => exact .inl ⟨n, _, l, rfl, h, rfl⟩
      | false => exact ih (Nat.le_of_succ_le_succ hfuel)

theorem Lists.next?_cases (h : w.Lists l) (accepts : Node → Bool) :
    (∃ n w' l', w.next? accepts = some (n, w') ∧ w'.Lists l' ∧
        l.filter accepts = n :: l'.filter accepts) ∨
      w.next? accepts = none ∧ l.filter accepts = [] := by
  refine h.seek_cases ?_
  cases h with
  | ended => exact .refl
  | facing h room => exact room

end Walk

/-! ## Walks from place to place -/

/-- The walk passes just the nodes of `Q`, in the order, and they are at most so many. -/
def Walk.Sweeps (w : Walk) (order : Node → Node → Prop) (r : Nat) (Q : Node → Prop) : Prop :=
  ∃ l, w.Lists l ∧ l.length ≤ r ∧ l.Pairwise order ∧ ∀ m, m ∈ l ↔ Q m

namespace Walk.Sweeps

variable {order : Node → Node → Prop} {r : Nat} {Q Q' : Node → Prop}

theorem ended (h : ∀ m, ¬ Q m) : Walk.ended.Sweeps order r Q :=
  ⟨[], .ended, Nat.zero_le _, .nil, fun m => ⟨nofun, fun hm => (h m hm).elim⟩⟩

theorem congr (h : w.Sweeps order r Q) (hQ : ∀ m, Q m ↔ Q' m) : w.Sweeps order r Q' := by
  obtain ⟨l, hlists, hlength, hpair, hmem⟩ := h
  exact ⟨l, hlists, hlength, hpair, fun m => (hmem m).trans (hQ m)⟩

theorem facing {n : Node} {stride : Stride} (h : (after n stride).Sweeps order r Q)
    (hroom : r < bound (.facing n stride)) (hfirst : ∀ m, Q m → order n m) :
    (Walk.facing n stride).Sweeps order (r + 1) fun m => m = n ∨ Q m := by
  obtain ⟨l, hlists, hlength, hpair, hmem⟩ := h
  refine ⟨n :: l, .facing hlists (Nat.lt_of_le_of_lt hlength hroom), Nat.succ_le_succ hlength,
    List.pairwise_cons.mpr ⟨fun m hm => hfirst m ((hmem m).mp hm), hpair⟩, fun m => ?_⟩
  rw [List.mem_cons, hmem]

end Walk.Sweeps

/-- A walk that goes from each such place to the next one in an order of the places. -/
theorem Walk.sweeps_after {N : Nat → Node} {R : Nat → Nat → Prop} {f : Nat → Nat}
    {S : Node → Node → Prop} {I : Nat → Stride → Prop} {P : Nat → Prop}
    (htrans : ∀ {i j k}, R i j → R j k → R i k) (horder : ∀ {i j}, R i j → S (N i) (N j))
    (hstep : ∀ i stride, I i stride →
      (∃ k stride', after (N i) stride = .facing (N k) stride' ∧ I k stride' ∧ P k ∧ R i k ∧
          f k < f i ∧ f k < bound (.facing (N k) stride') ∧
          ∀ m, P m → R i m → m = k ∨ R k m) ∨
        after (N i) stride = .ended ∧ ∀ m, P m → ¬ R i m) :
    ∀ {i : Nat} {stride : Stride}, I i stride →
      (after (N i) stride).Sweeps S (f i) fun m => ∃ k, m = N k ∧ P k ∧ R i k := by
  intro i
  induction hd : f i using Nat.strongRecOn generalizing i with
  | ind d ih =>
    intro stride hI
    rcases hstep i stride hI with ⟨k, stride', hafter, hk, hP, hik, hlt, hroom, hnext⟩ | ⟨hafter, hnone⟩
    · rw [hafter]
      have hrest := (ih (f k) (hd ▸ hlt) rfl hk).facing hroom ?_
      · obtain ⟨l, hlists, hlength, hpair, hmem⟩ := hrest
        refine ⟨l, hlists, by omega, hpair, fun m => (hmem m).trans ⟨?_, ?_⟩⟩
        · rintro (rfl | ⟨j, rfl, hj, hkj⟩)
          · exact ⟨k, rfl, hP, hik⟩
          · exact ⟨j, rfl, hj, htrans hik hkj⟩
        · rintro ⟨j, rfl, hj, hij⟩
          rcases hnext j hj hij with rfl | hkj
          · exact .inl rfl
          · exact .inr ⟨j, rfl, hj, hkj⟩
      · rintro _ ⟨j, rfl, -, hkj⟩
        exact horder hkj
    · rw [hafter]
      refine .ended ?_
      rintro _ ⟨k, -, hk, hik⟩
      exact hnone k hk hik

/-! ## Nodes and places -/

namespace Node

variable {n m : Node} {doc : Document} {stop : Nat → Nat}

theorem isContent_atEntry : (atEntry doc i).IsContent ↔ doc.Content i := by
  constructor
  · intro h
    obtain ⟨k, d, hk, hd⟩ := exists_entry_of_kind h
    obtain rfl : i = k := Place.entry.inj (Node.mk.inj hk).2
    exact ⟨d, hd, kind_atEntry hd ▸ h⟩
  · rintro ⟨d, hd, hkind⟩
    rw [IsContent, kind_atEntry hd]
    exact hkind

theorem IsContent.exists_place (h : n.IsContent) : ∃ i, n = atEntry n.doc i ∧ n.doc.Content i := by
  obtain ⟨i, d, hi, hd⟩ := exists_entry_of_kind h
  exact ⟨i, hi, isContent_atEntry.mp (hi ▸ h)⟩

theorem exists_place_of_parent? (h : n.parent? = some m) : ∃ p, m = atEntry n.doc p := by
  unfold parent? at h
  split at h
  · obtain ⟨p, -, rfl⟩ := Option.map_eq_some_iff.mp h
    exact ⟨p, rfl⟩
  · cases h
    exact ⟨_, rfl⟩

theorem Ancestor.exists_place (h : m.Ancestor n) : ∃ p, m = atEntry n.doc p := by
  induction h with
  | parent h => exact exists_place_of_parent? h
  | above h _ ih =>
    obtain ⟨p, hp⟩ := ih
    exact ⟨p, parent?_doc h ▸ hp⟩

theorem child_iff (h : Arena doc stop) {p : Nat} :
    m.IsContent ∧ m.parent? = some (atEntry doc p) ↔ ∃ j c, doc.Child p j c ∧ m = atEntry doc c := by
  constructor
  · rintro ⟨hcontent, hparent⟩
    obtain ⟨c, hc, d, hd, hkind⟩ := hcontent.exists_place
    obtain rfl : doc = m.doc := parent?_doc hparent
    rw [hc] at hparent
    obtain ⟨p', hp', hp⟩ := exists_parent_of_parent? hd hparent
    obtain rfl : p = p' := Place.entry.inj (Node.mk.inj hp).2
    obtain ⟨-, -, -, hattr | hchild⟩ := h.parent hd hp'
    · rw [hattr] at hkind
      cases hkind
    · exact ⟨_, c, hchild, hc⟩
  · rintro ⟨j, c, hchild, rfl⟩
    exact ⟨isContent_atEntry.mpr (h.content_of_child hchild), parent?_of_child h hchild⟩

/-- The attributes of a node stand right after it. -/
theorem attribute_iff (h : Arena doc stop) : m.kind = .attribute ∧ m.parent? = some (atEntry doc i) ↔
      ∃ d k, doc.nodes[i]? = some d ∧ m = atEntry doc k ∧ i < k ∧ k < i + 1 + d.attributes.size := by
  constructor
  · rintro ⟨hkind, hparent⟩
    obtain ⟨mdoc, place⟩ := m
    obtain rfl : doc = mdoc := parent?_doc hparent
    cases place with
    | namespaceOf owner k => cases hkind
    | entry k =>
      cases he : doc.nodes[k]? with
      | none =>
        have hdata : (atEntry doc k).data? = none := he
        simp only [kind, hdata] at hkind
        cases hkind
      | some e =>
        rw [kind_atEntry he] at hkind
        obtain ⟨p, hp, hpi⟩ := exists_parent_of_parent? he hparent
        obtain rfl : i = p := Place.entry.inj (Node.mk.inj hpi).2
        obtain ⟨hlt, -⟩ := h.parent he hp
        obtain ⟨p, f, hp', hf, -, hhangs⟩ := h.hangs k e he (by omega)
        cases hp.symm.trans hp'
        rw [if_pos hkind] at hhangs
        have hlt' := (Array.getElem?_eq_some_iff.mp hhangs).1
        have hplace := ((h.stretch i f hf).attributes _ _ hhangs).1
        exact ⟨f, k, hf, rfl, hlt, by omega⟩
  · rintro ⟨d, k, hd, rfl, hlo, hhi⟩
    obtain ⟨e, he, hof⟩ := h.isAttribute_of_lt hd hlo hhi
    rw [kind_atEntry he, parent?_atEntry he, hof.kind, hof.parent]
    exact ⟨rfl, rfl⟩

theorem Ancestor.compare (h : Arena n.doc stop) (hn : n.Exists) (ha : m.Ancestor n) : m.compare n = .lt := by
  obtain ⟨ndoc, place⟩ := n
  cases place with
  | entry i =>
    obtain ⟨k, rfl, hlt, -⟩ := (h.ancestor_iff hn).mp ha
    exact compare_atEntry.mpr hlt
  | namespaceOf owner k =>
    -- above a namespace node are its owner and what is above that
    have hle : ∃ j, m = atEntry ndoc j ∧ j ≤ owner := by
      cases ha with
      | parent hp =>
        cases hp
        exact ⟨owner, rfl, .refl⟩
      | above hp ha =>
        cases hp
        have howner : owner < ndoc.size := by
          refine (isContent_atEntry.mp ?_ : ndoc.Content _).lt_size
          rw [IsContent, hn.1]
          rfl
        obtain ⟨j, hj, hlt, -⟩ := (h.ancestor_iff howner).mp ha
        exact ⟨j, hj, Nat.le_of_lt hlt⟩
    obtain ⟨j, rfl, hj⟩ := hle
    refine compare_eq_lt_iff.mpr (.inr ⟨rfl, ?_⟩)
    change j < owner ∨ j = owner ∧ 0 < k + 1
    omega

end Node

end XPath
