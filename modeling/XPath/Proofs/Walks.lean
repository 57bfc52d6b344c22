import XPath.Proofs.Arena
import XPath.Proofs.Moves

/-!
# Moves and walks in an arena

What the moves of a node come to in places of the array. The next node of a pre-order walk is the entry
right after a node's attributes, and a walk below an origin ends where the origin's stretch ends
(`nextWithin?_cases`).
-/

namespace XPath

open Option

variable {i p j c o k : Nat} {d : NodeData} {n m : Node} {kind : Option NodeKind} {boundary : Option Node}

section

variable {doc : Document} {stop : Nat → Nat}

/-! ## Entries -/

namespace Arena

section

variable (h : Arena doc stop)

include h

section

variable (hd : doc.nodes[i]? = some d)

include hd

theorem lt_stop : i + 1 + d.attributes.size ≤ stop i :=
  (h.stretch i d hd).children.le

omit hd in
theorem child (hc : doc.Child p j c) : p < c ∧ c < stop c ∧ stop c ≤ stop p ∧
      (∃ d, doc.nodes[c]? = some d ∧ d.parent = some p ∧ d.siblingIndex = j ∧
        d.kind.isAttributeLike = false) ∧
      ((doc.Child p (j + 1) (stop c) ∧ stop c < stop p) ∨
        (∀ c', ¬ doc.Child p (j + 1) c') ∧ stop c = stop p) := by
  obtain ⟨e, he, hc⟩ := hc
  obtain ⟨hlo, hlt, hle, ⟨d, hd, hparent, hindex⟩, hnext⟩ :=
    (h.stretch p e he).children.getElem? (Array.getElem?_toList ▸ hc)
  obtain ⟨d', hd', hkind⟩ := h.content p e j c he hc
  cases hd.symm.trans hd'
  refine ⟨by omega, hlt, hle, ⟨d, hd, hparent, by omega, hkind⟩, ?_⟩
  simp only [Array.getElem?_toList] at hnext
  rcases hnext with ⟨hnext, hlt'⟩ | ⟨hnext, hend⟩
  · exact .inl ⟨⟨e, he, hnext⟩, hlt'⟩
  · refine .inr ⟨?_, hend⟩
    rintro c' ⟨e', he', hc'⟩
    cases he.symm.trans he'
    rw [hnext] at hc'
    cases hc'

theorem parent (hp : d.parent = some p) :
    p < i ∧ i < stop p ∧ stop i ≤ stop p ∧ (d.kind = .attribute ∨ doc.Child p d.siblingIndex i) := by
  obtain ⟨p', e, hp', he, hlt, hmem⟩ := h.hangs i d hd (Nat.zero_lt_of_lt (h.parent_lt hd hp))
  cases hp.symm.trans hp'
  split at hmem
  · next hkind =>
    have hlt' : i < stop p := by
      have := (Array.getElem?_eq_some_iff.mp hmem).1
      have := ((h.stretch p e he).attributes _ _ hmem).1
      have := h.lt_stop he
      omega
    exact ⟨hlt, hlt', (h.stretch p e he).nested i hlt hlt', .inl hkind⟩
  · obtain ⟨-, hlt', hle, -⟩ := h.child ⟨e, he, hmem⟩
    exact ⟨hlt, Nat.lt_of_lt_of_le hlt' hle, hle, .inr ⟨e, he, hmem⟩⟩

theorem attributeAt (hj : j < d.attributes.size) : d.attributes[j]? = some (i + 1 + j) ∧
      ∃ e, doc.nodes[i + 1 + j]? = some e ∧ e.IsAttributeOf i j := by
  have hget := Array.getElem?_eq_getElem hj
  obtain ⟨ha, hof⟩ := (h.stretch i d hd).attributes j _ hget
  rw [ha] at hget hof
  exact ⟨hget, hof⟩

theorem stop_attribute {owner : Nat}  (hof : d.IsAttributeOf owner j) : stop i = i + 1 := by
  have hrow := (h.stretch i d hd).children
  rw [hof.children, hof.attributes] at hrow
  exact Eq.symm hrow

end

end

end Arena

/-! ## Moves -/

namespace Node

theorem firstChild?_cases (h : Arena doc stop) (hd : doc.nodes[i]? = some d) :
    ((atEntry doc i).firstChild? = some (atEntry doc (i + 1 + d.attributes.size)) ∧
        doc.Child i 0 (i + 1 + d.attributes.size)) ∨
      (atEntry doc i).firstChild? = none ∧ i + 1 + d.attributes.size = stop i := by
  have hdata : (atEntry doc i).data? = some d := hd
  have hrow := (h.stretch i d hd).children
  unfold firstChild?
  rw [hdata, bind_some, ← Array.getElem?_toList]
  cases hcs : d.children.toList with
  | nil =>
    rw [hcs] at hrow
    exact .inr ⟨rfl, hrow⟩
  | cons c cs =>
    rw [hcs] at hrow
    obtain ⟨rfl, -⟩ := hrow
    refine .inl ⟨rfl, d, hd, ?_⟩
    rw [← Array.getElem?_toList, hcs]
    rfl

theorem nextSibling?_cases (h : Arena doc stop) (hc : doc.Child p j c) :
    ((atEntry doc c).nextSibling? = some (atEntry doc (stop c)) ∧ doc.Child p (j + 1) (stop c) ∧
        stop c < stop p) ∨
      (atEntry doc c).nextSibling? = none ∧ stop c = stop p := by
  obtain ⟨-, -, -, ⟨d, hd, hparent, rfl, hkind⟩, hnext⟩ := h.child hc
  obtain ⟨e, he, hc⟩ := hc
  have hdata : (atEntry doc c).data? = some d := hd
  have hsiblings : (atEntry doc c).siblings? = some (e.children, d.siblingIndex) := by
    simp only [siblings?, hdata, hparent, bind_eq_bind, bind_some, he]
    rw [if_neg]
    intro hattr
    rw [hattr] at hkind
    cases hkind
  simp only [nextSibling?, hsiblings, bind_eq_bind, bind_some]
  rcases hnext with ⟨⟨e', he', hnext⟩, hlt⟩ | ⟨hnone, hend⟩
  · cases he.symm.trans he'
    rw [hnext]
    exact .inl ⟨rfl, ⟨e, he, hnext⟩, hlt⟩
  · refine .inr ⟨?_, hend⟩
    cases hnext : e.children[d.siblingIndex + 1]? with
    | none => rfl
    | some c' => exact absurd ⟨e, he, hnext⟩ (hnone c')

end Node

/-! ## Below an origin -/

/-- Entry `c` is `k` levels below entry `o`. -/
inductive Document.Depth (doc : Document) (o : Nat) : Nat → Nat → Prop
  | here : Depth doc o o 0
  | child {p j c k : Nat} (above : Depth doc o p k) (h : doc.Child p j c) : Depth doc o c (k + 1)

theorem Document.Depth.inside (h : Arena doc stop) (hc : doc.Depth o c k) :
    (c = o ∧ k = 0) ∨ (o < c ∧ c < stop c ∧ stop c ≤ stop o ∧ 0 < k) := by
  induction hc with
  | here => exact .inl ⟨rfl, rfl⟩
  | child above hchild ih =>
    obtain ⟨hlt, hlt', hle, -⟩ := h.child hchild
    rcases ih with ⟨rfl, rfl⟩ | ⟨ho, -, hle', -⟩
    · exact .inr ⟨hlt, hlt', hle, Nat.one_pos⟩
    · exact .inr ⟨by omega, hlt', by omega, by omega⟩

namespace Node

theorem parent?_of_child (h : Arena doc stop) (hc : doc.Child p j c) :
    (atEntry doc c).parent? = some (atEntry doc p) := by
  obtain ⟨-, -, -, ⟨d, hd, hparent, -, -⟩, -⟩ := h.child hc
  have hdata : (atEntry doc c).data? = some d := hd
  simp only [parent?, hdata, bind_some, hparent]
  rfl

/-- Climbing from an entry leads to where its stretch ends, if that is still below the origin. -/
theorem climbWithin_cases (h : Arena doc stop) (hc : doc.Depth o c k) :
    (∃ k', climbWithin k (atEntry doc c) = some (atEntry doc (stop c), k') ∧ doc.Depth o (stop c) k' ∧
        0 < k' ∧ stop c < stop o) ∨
      climbWithin k (atEntry doc c) = none ∧ stop c = stop o := by
  induction hc with
  | here => exact .inr ⟨rfl, rfl⟩
  | @child p j c k above hchild ih =>
    unfold climbWithin
    rcases nextSibling?_cases h hchild with ⟨hnext, hchild', hlt⟩ | ⟨hnext, hend⟩
    · rw [hnext]
      refine .inl ⟨k + 1, rfl, .child above hchild', Nat.succ_pos k, ?_⟩
      rcases above.inside h with ⟨rfl, -⟩ | ⟨-, -, hle, -⟩
      · exact hlt
      · exact Nat.lt_of_lt_of_le hlt hle
    · rw [hnext, parent?_of_child h hchild, getD_some, hend]
      exact ih

/-- The next node of a walk below an origin is right after the attributes, if that is still below the
origin. -/
theorem nextWithin?_cases (h : Arena doc stop) (hd : doc.nodes[c]? = some d) (hc : doc.Depth o c k) :
    (∃ k', (atEntry doc c).nextWithin? k = some (atEntry doc (c + 1 + d.attributes.size), k') ∧
        doc.Depth o (c + 1 + d.attributes.size) k' ∧ 0 < k' ∧
        c + 1 + d.attributes.size < stop o) ∨
      (atEntry doc c).nextWithin? k = none ∧ c + 1 + d.attributes.size = stop o := by
  unfold nextWithin?
  rcases firstChild?_cases h hd with ⟨hfirst, hchild⟩ | ⟨hfirst, hend⟩
  · rw [hfirst]
    have hdepth := hc.child hchild
    refine .inl ⟨k + 1, rfl, hdepth, Nat.succ_pos k, ?_⟩
    rcases hdepth.inside h with ⟨-, hk⟩ | ⟨-, hlt, hle, -⟩
    · cases hk
    · omega
  · rw [hfirst, hend]
    exact climbWithin_cases h hc

theorem exists_parent_of_parent? (hd : doc.nodes[i]? = some d) (hm : (atEntry doc i).parent? = some m) :
    ∃ p, d.parent = some p ∧ m = atEntry doc p := by
  have hdata : (atEntry doc i).data? = some d := hd
  simp only [parent?, hdata, bind_some] at hm
  obtain ⟨p, hp, rfl⟩ := map_eq_some_iff.mp hm
  exact ⟨p, hp, rfl⟩

/-- A node that is neither an attribute nor a namespace is an entry. -/
theorem exists_entry_of_kind (h : n.kind.isAttributeLike = false) :
    ∃ i d, n = atEntry n.doc i ∧ n.doc.nodes[i]? = some d := by
  unfold kind at h
  cases hd : n.data? with
  | none =>
    rw [hd] at h
    cases h
  | some d =>
    obtain ⟨doc, place⟩ := n
    cases place with
    | namespaceOf owner k => cases hd
    | entry i => exact ⟨i, d, rfl, hd⟩

end Node

end

end XPath
