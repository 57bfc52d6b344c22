import XPath.Proofs.AxisNodes

/-!
# Walks along the axes, to the end

A walk along an axis passes the nodes of the axis and no others, each one once, in document order or
against it (`Axis.Listed`). Here this is shown for the axes that stay near a node: its ancestors, its
children and siblings, what is attached to it and what is below it.
-/

namespace XPath

open Option

variable {n : Node} {doc : Document} {stop : Nat → Nat} {kind : Option NodeKind} {axis : Axis} {o p j c : Nat}
  {m : Node}

/-- The walk passes nodes of the axis only, in the order of the axis, and all of those that are of the
kind. -/
def Axis.Listed (axis : Axis) (kind : Option NodeKind) (n : Node) (w : Walk) : Prop :=
  ∃ l, w.Lists l ∧ l.Pairwise axis.Orders ∧ (∀ m ∈ l, axis.Relates n m) ∧
    ∀ m, axis.Relates n m → kind.all (m.kind = ·) → m ∈ l

theorem Axis.Listed.exact (hw : w.Sweeps axis.Orders room (axis.Relates n)) : axis.Listed kind n w := by
  obtain ⟨l, hlists, -, hpair, hmem⟩ := hw
  exact ⟨l, hlists, hpair, fun m hm => (hmem m).mp hm, fun m hm _ => (hmem m).mpr hm⟩

theorem Axis.Listed.nothing (h : ∀ m, axis.Relates n m → kind.all (m.kind = ·) → False) : axis.Listed kind n .ended :=
  ⟨[], .ended, .nil, nofun, fun m hm hkind => (h m hm hkind).elim⟩

theorem Walk.sweeps_stay (n : Node) : (Walk.facing n .stay).Sweeps order 1 (· = n) :=
  ⟨[n], .facing .ended (Nat.succ_pos _), .refl, List.pairwise_singleton _ _, fun _ => List.mem_singleton⟩

theorem Arena.listed_self : Axis.self.Listed kind n (.start .self kind n) :=
  .exact (Walk.sweeps_stay n)

theorem Arena.listed_parent : Axis.parent.Listed kind n (.start .parent kind n) := by
  simp only [Walk.start]
  cases hp : n.parent? with
  | none =>
    refine .nothing ?_
    intro m hm
    cases hm.symm.trans hp
  | some p =>
    refine .exact ((Walk.sweeps_stay p).congr fun m => ?_)
    change m = p ↔ n.parent? = some m
    rw [hp, some.injEq, eq_comm]

/-! ### Upward -/

theorem Arena.sweeps_parents (h : Arena doc stop) (ho : o < doc.size) :
    (Walk.after (.atEntry doc o) .parent).Sweeps (fun a b => b.compare a = .lt) o
      (·.Ancestor (.atEntry doc o)) := by
  refine (Walk.sweeps_after (R := (· > ·)) (f := id)
    (I := fun i stride => stride = .parent ∧ i ≤ o ∧ o < stop i) (P := fun k => o < stop k)
    (fun hij hjk => Nat.lt_trans hjk hij) Node.compare_atEntry.mpr ?_
    ⟨rfl, .refl, h.lt_stop_self ho⟩).congr fun m => ?_
  · rintro i stride ⟨rfl, hio, hin⟩
    have hi : i < doc.nodes.size := Nat.lt_of_le_of_lt hio ho
    have hd := Array.getElem?_eq_getElem hi
    simp only [Walk.after]
    rw [Node.parent?_atEntry hd]
    cases hp : doc.nodes[i].parent with
    | some p =>
      obtain ⟨hlt, -, hle, -⟩ := h.parent hd hp
      refine .inl ⟨p, .parent, rfl, ⟨rfl, by omega, by omega⟩, by omega, hlt, hlt,
        Nat.lt_succ_of_lt (Nat.lt_trans hlt hi), fun m hm hmi => ?_⟩
      obtain ⟨p', hp', hle'⟩ := h.parent_ge hd hmi (by omega)
      cases hp.symm.trans hp'
      omega
    | none =>
      refine .inr ⟨rfl, fun m _ hmi => ?_⟩
      obtain ⟨p, -, hp', -⟩ := h.hangs i _ hd (Nat.zero_lt_of_lt hmi)
      cases hp.symm.trans hp'
  · rw [h.ancestor_iff ho]
    exact exists_congr fun k => and_congr_right fun _ => and_comm

section

variable (h : Arena n.doc stop)

include h

theorem Arena.sweeps_above (hn : n.Exists) :
    (Walk.upon .parent n.parent?).Sweeps (fun a b => b.compare a = .lt) n.doc.size (·.Ancestor n) := by
  obtain ⟨ndoc, place⟩ := n
  cases place with
  | entry i =>
    obtain ⟨l, hlists, hlength, hl⟩ := h.sweeps_parents hn
    exact ⟨l, hlists, Nat.le_of_lt (Nat.lt_of_le_of_lt hlength hn), hl⟩
  | namespaceOf owner k =>
    -- above a namespace node are its owner and what is above that
    have howner : owner < ndoc.size := by
      refine (Node.isContent_atEntry.mp ?_ : ndoc.Content _).lt_size
      rw [Node.IsContent, hn.1]
      rfl
    have hroom : owner < Walk.bound (.facing (.atEntry ndoc owner) .parent) := Nat.lt_succ_of_lt howner
    obtain ⟨l, hlists, hlength, hpair, hmem⟩ := (h.sweeps_parents howner).facing hroom
      fun m hm => hm.compare h howner
    refine ⟨l, hlists, Nat.le_trans hlength howner, hpair, fun m => (hmem m).trans ⟨?_, ?_⟩⟩
    · rintro (rfl | ha)
      · exact .parent rfl
      · exact .above rfl ha
    · rintro (hp | ⟨hp, ha⟩)
      · exact .inl (some.inj hp).symm
      · cases hp
        exact .inr ha

theorem Arena.listed_ancestor (hn : n.Exists) : Axis.ancestor.Listed kind n (.start .ancestor kind n) :=
  .exact (h.sweeps_above hn)

theorem Arena.listed_ancestorOrSelf (hn : n.Exists) :
    Axis.ancestorOrSelf.Listed kind n (.start .ancestorOrSelf kind n) :=
  .exact (.facing (h.sweeps_above hn) .refl fun _ hm => hm.compare h hn)

/-! ### Children and siblings -/

omit h in
theorem Arena.sweeps_next (h : Arena doc stop) (hc : doc.Child p j c) :
    (Walk.after (.atEntry doc c) .nextSibling).Sweeps (fun a b => a.compare b = .lt) (doc.size - c)
      fun m => ∃ k, m = .atEntry doc k ∧ (∃ i, doc.Child p i k) ∧ c < k := by
  obtain ⟨e, he, -⟩ := id hc
  have hrow := (h.stretch p e he).children
  refine Walk.sweeps_after (R := (· < ·))
    (I := fun c stride => stride = .nextSibling ∧ ∃ j, doc.Child p j c) Nat.lt_trans Node.compare_atEntry.mpr
    ?_ ⟨rfl, j, hc⟩
  rintro c stride ⟨rfl, j, hc⟩
  have hapart : ∀ m, (∃ i, doc.Child p i m) → c < m → stop c ≤ m := fun m ⟨_, hm⟩ hcm =>
    hrow.apart (hc.mem he) (hm.mem he) hcm
  simp only [Walk.after]
  rcases Node.nextSibling?_cases h hc with ⟨hnext, hc', -⟩ | ⟨hnext, hend⟩
  · rw [hnext]
    have hlt := (h.child hc).2.1
    have hsize : stop c < doc.size := (h.content_of_child hc').lt_size
    refine .inl ⟨stop c, .nextSibling, rfl, ⟨rfl, _, hc'⟩, ⟨_, hc'⟩, hlt, by omega,
      Nat.lt_succ_of_le (Nat.sub_le _ _), fun m hm hcm => ?_⟩
    have := hapart m hm hcm
    omega
  · rw [hnext]
    refine .inr ⟨rfl, fun m hm hcm => ?_⟩
    have := hapart m hm hcm
    obtain ⟨i, hm⟩ := hm
    obtain ⟨-, hlt, hle, -⟩ := h.child hm
    omega

omit h in
theorem Arena.sweeps_previous (h : Arena doc stop) (hc : doc.Child p j c) :
    (Walk.after (.atEntry doc c) .previousSibling).Sweeps (fun a b => b.compare a = .lt) c
      fun m => ∃ k, m = .atEntry doc k ∧ (∃ i, doc.Child p i k) ∧ k < c := by
  obtain ⟨e, he, -⟩ := id hc
  have hrow := (h.stretch p e he).children
  refine Walk.sweeps_after (R := (· > ·)) (f := id)
    (I := fun c stride => stride = .previousSibling ∧ ∃ j, doc.Child p j c)
    (fun hij hjk => Nat.lt_trans hjk hij) Node.compare_atEntry.mpr ?_ ⟨rfl, j, hc⟩
  rintro c stride ⟨rfl, j, hc⟩
  simp only [Walk.after]
  rcases Node.previousSibling?_cases h hc he with ⟨i, b, -, hprev, hb, hstop⟩ | ⟨hprev, hfirst⟩
  · rw [hprev]
    have hlt := (h.child hb).2.1
    refine .inl ⟨b, .previousSibling, rfl, ⟨rfl, i, hb⟩, ⟨i, hb⟩, by omega, hstop ▸ hlt,
      Nat.lt_succ_of_lt (h.content_of_child hb).lt_size, ?_⟩
    rintro m ⟨i, hm⟩ hmc
    have := hrow.apart (hb.mem he) (hm.mem he)
    omega
  · rw [hprev]
    refine .inr ⟨rfl, ?_⟩
    rintro m ⟨i, hm⟩ hmc
    have := hrow.le_of_mem (hm.mem he)
    omega

theorem Arena.listed_child (hn : n.Exists) : Axis.child.Listed kind n (.start .child kind n) := by
  obtain ⟨ndoc, place⟩ := n
  simp only [Walk.start]
  cases place with
  | namespaceOf owner k =>
    refine .nothing ?_
    rintro m ⟨-, hm⟩ -
    obtain ⟨p, hp⟩ := Node.exists_place_of_parent? hm
    cases hp
  | entry p =>
    have hd := Array.getElem?_eq_getElem (show p < ndoc.nodes.size from hn)
    have hchild : ∀ m, Axis.child.Relates (.atEntry ndoc p) m ↔
        ∃ j c, ndoc.Child p j c ∧ m = .atEntry ndoc c := fun m => Node.child_iff h
    rcases Node.firstChild?_cases h hd with ⟨hfirst, hc⟩ | ⟨hfirst, hend⟩
    · rw [hfirst]
      refine .exact (((h.sweeps_next hc).facing (Nat.lt_succ_of_le (Nat.sub_le _ _)) ?_).congr fun m => ?_)
      · rintro _ ⟨k, rfl, -, hlt⟩
        exact Node.compare_atEntry.mpr hlt
      · rw [hchild]
        constructor
        · rintro (rfl | ⟨k, rfl, ⟨i, hk⟩, -⟩)
          · exact ⟨0, _, hc, rfl⟩
          · exact ⟨i, k, hk, rfl⟩
        · rintro ⟨i, k, hk, rfl⟩
          rcases Nat.eq_or_lt_of_le ((h.stretch p _ hd).children.le_of_mem (hk.mem hd)) with rfl | hlt
          · exact .inl rfl
          · exact .inr ⟨k, rfl, ⟨i, hk⟩, hlt⟩
    · rw [hfirst]
      refine .nothing ?_
      intro m hm _
      obtain ⟨j, c, hc, -⟩ := (hchild m).mp hm
      have hle := (h.stretch p _ hd).children.le_of_mem (hc.mem hd)
      obtain ⟨-, hlt, hle', -⟩ := h.child hc
      omega

omit h in
theorem Arena.sibling_iff (h : Arena doc stop) (hc : doc.Child p j c) :
    (m.IsContent ∧ ∃ q, (Node.atEntry doc c).parent? = some q ∧ m.parent? = some q) ↔
      ∃ i k, doc.Child p i k ∧ m = .atEntry doc k := by
  rw [Node.parent?_of_child h hc, ← Node.child_iff h]
  constructor
  · rintro ⟨hm, q, hq, hq'⟩
    cases hq
    exact ⟨hm, hq'⟩
  · rintro ⟨hm, hq⟩
    exact ⟨hm, _, rfl, hq⟩

theorem Node.IsContent.child_or_root (hn : n.IsContent) :
    (∃ p j c, n = .atEntry n.doc c ∧ n.doc.Child p j c) ∨ n.parent? = none := by
  obtain ⟨i, hi, hcontent⟩ := hn.exists_place
  rcases Nat.eq_zero_or_pos i with rfl | hpos
  · refine .inr ?_
    obtain ⟨d, hd, -⟩ := hcontent
    rw [hi, Node.parent?_atEntry hd, h.root d hd]
    rfl
  · obtain ⟨p, j, hchild⟩ := h.exists_child hcontent hpos
    exact .inl ⟨p, j, i, hi, hchild⟩

omit h in
theorem Node.siblings?_of_parent? (h : n.parent? = none) : n.siblings? = none := by
  obtain ⟨ndoc, place⟩ := n
  cases place with
  | namespaceOf owner k => cases h
  | entry i =>
    simp only [parent?, map_eq_none_iff] at h
    unfold siblings?
    cases hd : (atEntry ndoc i).data? with
    | none => rfl
    | some d =>
      rw [hd, bind_some] at h
      simp [h]

/-- Siblings of content, on one side of it. -/
theorem Arena.listed_siblings {R : Nat → Nat → Prop} (hrel : ∀ m, axis.Relates n m ↔ n.IsContent ∧ m.IsContent ∧
      (∃ p, n.parent? = some p ∧ m.parent? = some p) ∧ axis.Orders n m)
    (horders : ∀ {i k}, axis.Orders (.atEntry n.doc i) (.atEntry n.doc k) ↔ R i k)
    (hroot : n.siblings? = none → w = .ended)
    (hchild : ∀ {p j c}, n = .atEntry n.doc c → n.doc.Child p j c → ∃ room, w.Sweeps axis.Orders room
      fun m => ∃ k, m = .atEntry n.doc k ∧ (∃ i, n.doc.Child p i k) ∧ R c k) :
    axis.Listed kind n (if n.kind.isAttributeLike then .ended else w) := by
  cases hkind : n.kind.isAttributeLike with
  | true =>
    refine .nothing ?_
    intro m hm _
    cases ((hrel m).mp hm).1.symm.trans hkind
  | false =>
    rw [if_neg (by simp)]
    rcases Node.IsContent.child_or_root h hkind with ⟨p, j, c, hc, hin⟩ | hparent
    · obtain ⟨room, hw⟩ := hchild hc hin
      refine .exact (hw.congr fun m => ?_)
      rw [hrel]
      generalize n.doc = doc at *
      subst hc
      constructor
      · rintro ⟨k, rfl, ⟨i, hk⟩, hbefore⟩
        obtain ⟨hm, hparent⟩ := (h.sibling_iff hin).mpr ⟨i, k, hk, rfl⟩
        exact ⟨hkind, hm, hparent, horders.mpr hbefore⟩
      · rintro ⟨-, hm, hparent, horder⟩
        obtain ⟨i, k, hk, rfl⟩ := (h.sibling_iff hin).mp ⟨hm, hparent⟩
        exact ⟨k, rfl, ⟨i, hk⟩, horders.mp horder⟩
    · rw [hroot (Node.siblings?_of_parent? hparent)]
      refine .nothing ?_
      intro m hm _
      obtain ⟨-, -, ⟨q, hq, -⟩, -⟩ := (hrel m).mp hm
      cases hq.symm.trans hparent

theorem Arena.listed_followingSibling : Axis.followingSibling.Listed kind n (.start .followingSibling kind n) := by
  refine h.listed_siblings (fun _ => Iff.rfl) Node.compare_atEntry (fun hnone => ?_) ?_
  · simp [Node.nextSibling?, hnone, Walk.upon]
  · intro p j c hc hin
    have hsweeps := h.sweeps_next hin
    rw [← hc] at hsweeps
    exact ⟨_, hsweeps⟩

theorem Arena.listed_precedingSibling : Axis.precedingSibling.Listed kind n (.start .precedingSibling kind n) := by
  refine h.listed_siblings (fun _ => Iff.rfl) Node.compare_atEntry (fun hnone => ?_) ?_
  · simp [Node.previousSibling?, hnone, Walk.upon]
  · intro p j c hc hin
    have hsweeps := h.sweeps_previous hin
    rw [← hc] at hsweeps
    exact ⟨_, hsweeps⟩

/-! ### Attributes and namespaces -/

omit h in
theorem Arena.nextAttribute?_cases (h : Arena doc stop)
    (hd : doc.nodes[i]? = some d) (hlo : i < k) (hhi : k < i + 1 + d.attributes.size) :
    ((Node.atEntry doc k).nextAttribute? = some (.atEntry doc (k + 1)) ∧
        k + 1 < i + 1 + d.attributes.size) ∨
      (Node.atEntry doc k).nextAttribute? = none ∧ k + 1 = i + 1 + d.attributes.size := by
  obtain ⟨e, he, hof⟩ := h.isAttribute_of_lt hd hlo hhi
  have hdata : (Node.atEntry doc k).data? = some e := he
  simp only [Node.nextAttribute?, hdata, bind_eq_bind, bind_some, hof.kind, if_true,
    hof.parent, hd, hof.siblingIndex]
  rcases Nat.lt_or_ge (k - (i + 1) + 1) d.attributes.size with hnext | hnext
  · rw [(h.attributeAt hd hnext).1, show i + 1 + (k - (i + 1) + 1) = k + 1 by omega]
    exact .inl ⟨rfl, by omega⟩
  · rw [Array.getElem?_eq_none hnext]
    exact .inr ⟨rfl, by omega⟩

theorem Arena.listed_attribute (hn : n.Exists) : Axis.attribute.Listed kind n (.start .attribute kind n) := by
  obtain ⟨ndoc, place⟩ := n
  simp only [Walk.start]
  cases place with
  | namespaceOf owner k =>
    refine .nothing ?_
    rintro m ⟨-, hm⟩ -
    obtain ⟨p, hp⟩ := Node.exists_place_of_parent? hm
    cases hp
  | entry i =>
    have hd := Array.getElem?_eq_getElem (show i < ndoc.nodes.size from hn)
    generalize ndoc.nodes[i] = d at hd
    have hdata : (Node.atEntry ndoc i).data? = some d := hd
    simp only [Node.firstAttribute?, hdata, bind_some]
    rcases Nat.eq_zero_or_pos d.attributes.size with hsize | hsize
    · rw [Array.getElem?_eq_none (Nat.le_of_eq hsize)]
      refine .nothing ?_
      intro m hm _
      obtain ⟨e, k, he, -, hlo, hhi⟩ := (Node.attribute_iff h).mp hm
      cases hd.symm.trans he
      omega
    · rw [(h.attributeAt hd hsize).1]
      have hstop : i + 1 + d.attributes.size ≤ ndoc.size := Nat.le_trans (h.lt_stop hd) (h.stop_le hn)
      have hrest := Walk.sweeps_after (R := (· < ·)) (f := (ndoc.size - ·))
        (S := fun a b => a.compare b = .lt)
        (I := fun k stride => stride = .nextAttribute ∧ i < k ∧ k < i + 1 + d.attributes.size)
        (P := (· < i + 1 + d.attributes.size)) Nat.lt_trans Node.compare_atEntry.mpr (by
        rintro k stride ⟨rfl, hlo, hhi⟩
        simp only [Walk.after]
        rcases h.nextAttribute?_cases hd hlo hhi with ⟨hnext, hlt⟩ | ⟨hnext, hend⟩
        · rw [hnext]
          exact .inl ⟨k + 1, .nextAttribute, rfl, ⟨rfl, by omega, hlt⟩, hlt, Nat.lt_succ_self k, by omega,
            Nat.lt_succ_of_le (Nat.sub_le _ _), fun m _ hkm => by omega⟩
        · rw [hnext]
          exact .inr ⟨rfl, fun m hm hkm => by omega⟩) (i := i + 1) ⟨rfl, by omega, by omega⟩
      refine .exact ((hrest.facing (Nat.lt_succ_of_le (Nat.sub_le _ _)) ?_).congr fun m => ?_)
      · rintro _ ⟨k, rfl, -, hlt⟩
        exact Node.compare_atEntry.mpr hlt
      · refine Iff.trans ?_ (Node.attribute_iff h).symm
        constructor
        · rintro (rfl | ⟨k, rfl, hhi, hlo⟩)
          · exact ⟨d, i + 1, hd, rfl, by omega, by omega⟩
          · exact ⟨d, k, hd, rfl, by omega, hhi⟩
        · rintro ⟨e, k, he, rfl, hlo, hhi⟩
          cases hd.symm.trans he
          rcases Nat.eq_or_lt_of_le hlo with rfl | hlt
          · exact .inl rfl
          · exact .inr ⟨k, rfl, hhi, hlt⟩

end

/-- Namespaces in scope, after one of them. -/
theorem sweeps_namespaces :
    (Walk.after ⟨doc, .namespaceOf owner k⟩ .nextNamespace).Sweeps (fun a b => a.compare b = .lt)
      ((doc.inScope owner).length - k)
      fun m => ∃ j, m = ⟨doc, .namespaceOf owner j⟩ ∧ j < (doc.inScope owner).length ∧ k < j := by
  refine Walk.sweeps_after (N := fun j => ⟨doc, .namespaceOf owner j⟩) (R := (· < ·))
    (f := ((doc.inScope owner).length - ·)) (I := fun _ stride => stride = .nextNamespace) Nat.lt_trans ?_ ?_ rfl
  · intro i j hij
    exact Node.compare_eq_lt_iff.mpr (.inr ⟨rfl, .inr ⟨rfl, Nat.succ_lt_succ hij⟩⟩)
  · rintro k _ rfl
    have hafter : Walk.after ⟨doc, .namespaceOf owner k⟩ .nextNamespace =
        .upon .nextNamespace (if k + 1 < (doc.inScope owner).length then
          some ⟨doc, .namespaceOf owner (k + 1)⟩ else none) := rfl
    rw [hafter]
    split
    next hnext =>
      exact .inl ⟨k + 1, .nextNamespace, rfl, rfl, hnext, Nat.lt_succ_self k, by omega,
        Nat.lt_succ_of_le (Nat.sub_le _ _), fun m _ hkm => by omega⟩
    next hnext => exact .inr ⟨rfl, fun m hm hkm => by omega⟩

/-- An element has a namespace in scope, unless the reserved prefix was taken back. -/
def Node.HasNamespace (n : Node) : Prop :=
  ∀ i, n.place = .entry i → n.doc.inScope i ≠ []

/-- The namespaces of an element: the first place is tried in any case. -/
theorem sweeps_firstNamespace (ho : (Node.atEntry doc o).kind = .element) :
    (Walk.start .namespaces kind (.atEntry doc o)).Sweeps (fun a b => a.compare b = .lt)
      ((doc.inScope o).length + 1)
      fun m => ∃ j, m = ⟨doc, .namespaceOf o j⟩ ∧ (j = 0 ∨ j < (doc.inScope o).length) := by
  simp only [Walk.start, Node.firstNamespace?, ho]
  refine ((sweeps_namespaces).facing (Nat.lt_succ_of_le (Nat.sub_le _ _)) ?_).congr fun m => ?_
  · rintro _ ⟨j, rfl, -, hj⟩
    exact Node.compare_eq_lt_iff.mpr (.inr ⟨rfl, .inr ⟨rfl, Nat.succ_lt_succ hj⟩⟩)
  · grind

theorem Node.namespaces_iff (ho : (atEntry doc o).kind = .element) : Axis.namespaces.Relates (.atEntry doc o) m ↔
      ∃ j, m = ⟨doc, .namespaceOf o j⟩ ∧ j < (doc.inScope o).length := by
  constructor
  · rintro ⟨-, hdecl, hparent⟩
    obtain ⟨mdoc, place⟩ := m
    cases place with
    | entry k => cases hdecl
    | namespaceOf owner j =>
      cases hparent
      obtain ⟨d, hd⟩ := isSome_iff_exists.mp hdecl
      exact ⟨j, rfl, (List.getElem?_eq_some_iff.mp hd).1⟩
  · rintro ⟨j, rfl, hj⟩
    have hdecl : Node.declaration? ⟨doc, .namespaceOf o j⟩ = some (doc.inScope o)[j] :=
      List.getElem?_eq_getElem hj
    exact ⟨ho, hdecl ▸ rfl, rfl⟩

theorem Node.firstNamespace?_isSome_iff : n.firstNamespace?.isSome ↔ n.kind = .element := by
  obtain ⟨doc, place⟩ := n
  cases place with
  | namespaceOf owner k => simp [firstNamespace?, kind, data?]
  | entry i =>
    unfold firstNamespace?
    split
    · next hkind => simp [hkind]
    · next hnot => simpa using hnot i rfl

theorem listed_namespaces (hns : n.kind = .element → n.HasNamespace) :
    Axis.namespaces.Listed kind n (.start .namespaces kind n) := by
  by_cases hkind : n.kind = .element
  · obtain ⟨doc, place⟩ := n
    cases place with
    | namespaceOf owner k => cases hkind
    | entry i =>
      have hpos : 0 < (doc.inScope i).length := List.length_pos_of_ne_nil (hns hkind i rfl)
      refine .exact ((sweeps_firstNamespace hkind).congr fun m => ?_)
      rw [Node.namespaces_iff hkind]
      exact exists_congr fun j => and_congr_right fun _ => by omega
  · have hnone := not_isSome_iff_eq_none.mp (mt Node.firstNamespace?_isSome_iff.mp hkind)
    simp only [Walk.start, hnone]
    exact .nothing fun m hm _ => hkind hm.1

/-! ### Below -/

/-- The content below an entry. -/
theorem Arena.below_iff (h : Arena doc stop) : m.IsContent ∧ Node.Ancestor (.atEntry doc o) m ↔
      ∃ k, m = .atEntry doc k ∧ o < k ∧ k < stop o ∧ doc.Content k := by
  constructor
  · rintro ⟨hm, ha⟩
    obtain ⟨k, hk, hcontent⟩ := hm.exists_place
    obtain ⟨p, hp⟩ := ha.exists_place
    obtain rfl : doc = m.doc := (Node.mk.inj hp).1
    rw [hk] at ha
    obtain ⟨o', ho', hlt, hin⟩ := (h.ancestor_iff hcontent.lt_size).mp ha
    obtain rfl : o = o' := Place.entry.inj (Node.mk.inj ho').2
    exact ⟨k, hk, hlt, hin, hcontent⟩
  · rintro ⟨k, rfl, hlt, hin, hcontent⟩
    exact ⟨Node.isContent_atEntry.mpr hcontent, (h.ancestor_iff hcontent.lt_size).mpr ⟨o, rfl, hlt, hin⟩⟩

/-- The content in the stretch of an entry. -/
theorem Arena.sweeps_within (h : Arena doc stop) (ho : o < doc.size) :
    (Walk.after (.atEntry doc o) (.within 0)).Sweeps (fun a b => a.compare b = .lt) (doc.size - o)
      fun m => m.IsContent ∧ Node.Ancestor (.atEntry doc o) m := by
  refine (Walk.sweeps_after (R := (· < ·))
    (I := fun c stride => ∃ k, stride = .within k ∧ doc.Depth o c k ∧ c < stop o)
    (P := fun k => k < stop o ∧ doc.Content k) Nat.lt_trans Node.compare_atEntry.mpr ?_
    ⟨0, rfl, .here, h.lt_stop_self ho⟩).congr fun m => ?_
  · rintro c stride ⟨k, rfl, hdepth, hco⟩
    have hsize : c < doc.nodes.size := Nat.lt_of_lt_of_le hco (h.stop_le ho)
    have hd := Array.getElem?_eq_getElem hsize
    have hbetween : ∀ m, doc.Content m → c < m → c + 1 + doc.nodes[c].attributes.size ≤ m := fun m hm hcm =>
      Nat.not_lt.mp fun hlt => h.not_content_of_lt hd hcm hlt hm
    simp only [Walk.after]
    rcases Node.nextWithin?_cases h hd hdepth with ⟨k', hnext, hdepth', hk', hlt⟩ | ⟨hnext, hend⟩
    · rw [hnext]
      have hcontent : doc.Content (c + 1 + doc.nodes[c].attributes.size) := by
        cases hdepth' with
        | here => exact absurd hk' (Nat.lt_irrefl 0)
        | child above hchild => exact h.content_of_child hchild
      have hlt' : c + 1 + doc.nodes[c].attributes.size < doc.size := hcontent.lt_size
      refine .inl ⟨_, .within k', rfl, ⟨k', rfl, hdepth', hlt⟩, ⟨hlt, hcontent⟩, by omega, by omega,
        Nat.lt_succ_of_le (Nat.sub_le _ _), fun m hm hcm => ?_⟩
      have := hbetween m hm.2 hcm
      omega
    · rw [hnext]
      refine .inr ⟨rfl, fun m hm hcm => ?_⟩
      have := hbetween m hm.2 hcm
      omega
  · rw [h.below_iff]
    exact exists_congr fun k => and_congr_right fun _ => and_comm

theorem Arena.listed_descendant (h : Arena n.doc stop) (hn : n.Exists) :
    Axis.descendant.Listed kind n (.start .descendant kind n) := by
  obtain ⟨ndoc, place⟩ := n
  cases place with
  | entry o => exact .exact (h.sweeps_within hn)
  | namespaceOf owner k =>
    refine .nothing ?_
    rintro m ⟨-, ha⟩ -
    obtain ⟨p, hp⟩ := ha.exists_place
    cases hp

theorem Arena.listed_descendantOrSelf (h : Arena n.doc stop) (hn : n.Exists) :
    Axis.descendantOrSelf.Listed kind n (.start .descendantOrSelf kind n) := by
  obtain ⟨ndoc, place⟩ := n
  cases place with
  | entry o =>
    refine .exact (.facing (h.sweeps_within hn) (Nat.lt_succ_of_le (Nat.sub_le _ _)) ?_)
    rintro m ⟨hm, ha⟩
    obtain ⟨k, rfl, hlt, -⟩ := h.below_iff.mp ⟨hm, ha⟩
    exact Node.compare_atEntry.mpr hlt
  | namespaceOf owner k =>
    refine .exact (.facing (.ended ?_) (Nat.succ_pos _) fun m hm => ?_)
    · rintro m ⟨-, ha⟩
      obtain ⟨p, hp⟩ := ha.exists_place
      cases hp
    · obtain ⟨p, hp⟩ := hm.2.exists_place
      cases hp

end XPath
