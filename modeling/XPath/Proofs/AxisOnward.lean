import XPath.Proofs.AxisLists

/-!
# Walks onward and backward, to the end

The `following` and `preceding` axes, and with them all axes (`Arena.listed`). From an attribute or a
namespace both start at its owner. A hint for the kind of node may make the walk onward pass over nodes of
other kinds, so it changes nothing for a test that accepts one kind only. The search for the next node of a kind
finds the first one in the content that is left (`Node.followingFrom_spec`), and the walk onward repeats it.
-/

namespace XPath

open List

variable {n m : Node} {doc : Document} {stop : Nat → Nat} {kind : Option NodeKind} {boundary : Option Node} {i o : Nat}

/-- Where the content beside a node lies: before it are the stretches that end by `lo`, and after it is what
stands from `hi` on. -/
structure Node.Parts (n : Node) (stop : Nat → Nat) (lo hi : Nat) : Prop where
  after : ∀ {k}, n.doc.Content k →
    (n.compare (.atEntry n.doc k) = .lt ∧ ¬ n.Ancestor (.atEntry n.doc k) ↔ hi ≤ k)
  before : ∀ {k}, n.doc.Content k →
    ((atEntry n.doc k).compare n = .lt ∧ ¬ (atEntry n.doc k).Ancestor n ↔ stop k ≤ lo)

theorem Arena.ancestor_atEntry_iff (h : Arena doc stop) (hk : k < doc.size) :
    Node.Ancestor (.atEntry doc i) (.atEntry doc k) ↔ i < k ∧ k < stop i := by
  rw [h.ancestor_iff hk]
  constructor
  · rintro ⟨i', hi', hlt, hin⟩
    obtain rfl : i = i' := Place.entry.inj (Node.mk.inj hi').2
    exact ⟨hlt, hin⟩
  · exact fun hi => ⟨i, rfl, hi⟩

theorem Arena.parts (h : Arena doc stop) (ho : o < doc.size) : (Node.atEntry doc o).Parts stop o (stop o) := by
  have hself := h.lt_stop_self ho
  refine ⟨fun {k} hk => ?_, fun {k} hk => ?_⟩
  · have hlt : k < doc.size := hk.lt_size
    rw [Node.compare_atEntry, h.ancestor_atEntry_iff hlt]
    omega
  · have hlt := h.lt_stop_self hk.lt_size
    rw [Node.compare_atEntry, h.ancestor_atEntry_iff ho]
    omega

theorem Node.content_iff {P : Node → Prop} {Q : Nat → Prop} (h : ∀ {k}, doc.Content k → (P (.atEntry doc k) ↔ Q k)) :
    m.IsContent ∧ m.doc = doc ∧ P m ↔ ∃ k, m = .atEntry doc k ∧ doc.Content k ∧ Q k := by
  constructor
  · rintro ⟨hm, rfl, hP⟩
    obtain ⟨k, hk, hcontent⟩ := hm.exists_place
    exact ⟨k, hk, hcontent, (h hcontent).mp (hk ▸ hP)⟩
  · rintro ⟨k, rfl, hcontent, hQ⟩
    exact ⟨isContent_atEntry.mpr hcontent, rfl, (h hcontent).mpr hQ⟩

theorem Node.Parts.following_iff {lo hi : Nat} (h : n.Parts stop lo hi) :
    Axis.following.Relates n m ↔ ∃ k, m = .atEntry n.doc k ∧ n.doc.Content k ∧ hi ≤ k :=
  content_iff (P := fun m => n.compare m = .lt ∧ ¬ n.Ancestor m) h.after

theorem Node.Parts.preceding_iff {lo hi : Nat} (h : n.Parts stop lo hi) :
    Axis.preceding.Relates n m ↔ ∃ k, m = .atEntry n.doc k ∧ n.doc.Content k ∧ stop k ≤ lo :=
  content_iff (P := fun m => m.compare n = .lt ∧ ¬ m.Ancestor n) h.before

/-- An attribute or a namespace comes after its owner and before the content below the owner. -/
theorem Node.exists_owner (h : Arena n.doc stop) (hn : n.Exists) (hkind : n.kind.isAttributeLike = true) :
    n.doc.size = 1 ∧ n = .atEntry n.doc 0 ∨
      ∃ p, n.parent? = some (.atEntry n.doc p) ∧ n.doc.Content p ∧ n.Parts stop p (p + 1) := by
  have hparts : ∀ {p : Nat}, n.parent? = some (.atEntry n.doc p) → n.doc.Content p →
      (∀ k, n.doc.Content k → (n.compare (.atEntry n.doc k) = .lt ↔ p < k)) →
      (∀ k, n.doc.Content k → ((atEntry n.doc k).compare n = .lt ↔ k ≤ p)) →
      (∀ m, m.IsContent → ¬ n.Ancestor m) → n.Parts stop p (p + 1) := by
    intro p hparent hp hafter hbefore hbare
    have hup : ∀ k, (atEntry n.doc k).Ancestor n ↔ k ≤ p ∧ p < stop k := by
      intro k
      constructor
      · rintro (hq | ⟨hq, ha⟩)
        · obtain rfl : p = k := Place.entry.inj (Node.mk.inj (Option.some.inj (hparent.symm.trans hq))).2
          exact ⟨.refl, h.lt_stop_self hp.lt_size⟩
        · cases hparent.symm.trans hq
          exact ((h.ancestor_atEntry_iff hp.lt_size).mp ha).imp_left Nat.le_of_lt
      · rintro ⟨hle, hin⟩
        rcases Nat.eq_or_lt_of_le hle with rfl | hlt
        · exact .parent hparent
        · exact .above hparent ((h.ancestor_atEntry_iff hp.lt_size).mpr ⟨hlt, hin⟩)
    refine ⟨fun {k} hk => ?_, fun {k} hk => ?_⟩
    · rw [hafter k hk]
      exact and_iff_left (hbare _ (isContent_atEntry.mpr hk))
    · have hlt := h.lt_stop_self hk.lt_size
      rw [hbefore k hk, hup]
      omega
  obtain ⟨ndoc, place⟩ := n
  cases place with
  | namespaceOf owner k =>
    have howner : ndoc.Content owner := by
      refine isContent_atEntry.mp ?_
      rw [IsContent, hn.1]
      rfl
    refine .inr ⟨owner, rfl, howner, hparts rfl howner ?_ ?_ ?_⟩
    · intro i _
      rw [compare_eq_lt_iff]
      simp [orderKey]
    · intro i _
      rw [compare_eq_lt_iff]
      simp [orderKey, Nat.le_iff_lt_or_eq]
    · intro m _ ha
      obtain ⟨p, hp⟩ := ha.exists_place
      cases hp
  | entry i =>
    have hd := Array.getElem?_eq_getElem (show i < ndoc.nodes.size from hn)
    generalize ndoc.nodes[i] = d at hd
    rw [kind_atEntry hd] at hkind
    rcases Nat.eq_zero_or_pos i with rfl | hpos
    · exact .inl ⟨h.alone d hd hkind, rfl⟩
    · obtain ⟨p, e, hp, he, hlt, hhangs⟩ := h.hangs i d hd hpos
      split at hhangs
      · have hj := (Array.getElem?_eq_some_iff.mp hhangs).1
        obtain ⟨hplace, e', he', hof⟩ := (h.stretch p e he).attributes _ _ hhangs
        have hparent : (atEntry ndoc i).parent? = some (.atEntry ndoc p) := by
          rw [parent?_atEntry hd, hp]
          rfl
        have hstop := h.stop_attribute he' hof
        have hbetween : ∀ k, ndoc.Content k → p < k → i < k := by
          intro k hk hpk
          refine Nat.not_le.mp fun hki => ?_
          exact h.not_content_of_lt he hpk (by omega) hk
        have hcontent : ndoc.Content p := by
          refine ⟨e, he, ?_⟩
          cases hek : e.kind.isAttributeLike with
          | false => rfl
          | true =>
            -- attributes have no attributes, and one at the root stands alone
            rcases Nat.eq_zero_or_pos p with rfl | hppos
            · have halone : ndoc.size = 1 := h.alone e he hek
              have hi : i < ndoc.size := hn
              omega
            · obtain ⟨q, f, hq, hf, -, hhangs'⟩ := h.hangs p e he hppos
              split at hhangs'
              · obtain ⟨-, e'', he'', hof'⟩ := (h.stretch q f hf).attributes _ _ hhangs'
                cases he.symm.trans he''
                rw [hof'.attributes] at hj
                cases hj
              · obtain ⟨-, -, -, ⟨e'', he'', -, -, hk⟩, -⟩ := h.child ⟨f, hf, hhangs'⟩
                cases he.symm.trans he''
                rw [hk] at hek
                cases hek
        refine .inr ⟨p, hparent, hcontent, hparts hparent hcontent ?_ ?_ ?_⟩
        · intro k hk
          rw [compare_atEntry]
          exact ⟨fun hik => Nat.lt_trans hlt hik, hbetween k hk⟩
        · intro k hk
          have := hbetween k hk
          rw [compare_atEntry]
          omega
        · intro m hm ha
          obtain ⟨k, -, hlo, hhi, -⟩ := h.below_iff.mp ⟨hm, ha⟩
          omega
      · obtain ⟨-, -, -, ⟨d', hd', -, -, hk⟩, -⟩ := h.child ⟨e, he, hhangs⟩
        cases hd.symm.trans hd'
        rw [hk] at hkind
        cases hkind

theorem Arena.inner_of_content (h : Arena doc stop) (hi : doc.Content i) : doc.Inner i := by
  rcases Nat.eq_zero_or_pos i with rfl | hpos
  · exact .inl rfl
  · exact .inr (h.exists_child hi hpos)

/-! ## The following node -/

def Document.contentAfter (doc : Document) (i : Nat) : List Node :=
  ((range' (i + 1) (doc.size - (i + 1))).map (Node.atEntry doc)).filter (!·.kind.isAttributeLike)

def Node.firstBefore (kind : Option NodeKind) (boundary : Option Node) (l : List Node) : Option Node :=
  (l.find? fun m => boundary.any m.samePlace || kind.all (m.kind = ·)).filter fun m => !boundary.any m.samePlace

namespace Node

/-- The next node in document order, without a bound on the way. -/
inductive GoesOn : Node → Option Node → Prop
  | child {n m : Node} (h : n.firstChild? = some m) : GoesOn n (some m)
  | climb {n : Node} {r : Option Node} (hnone : n.firstChild? = none) (h : Climbs n r) : GoesOn n r

/-- The search for a node of the kind before the boundary, without a bound on its steps. -/
inductive Searches (kind : Option NodeKind) (boundary : Option Node) : Node → Option Node → Prop
  | ended {n : Node} (h : GoesOn n none) : Searches kind boundary n none
  | barred {n m : Node} (h : GoesOn n (some m)) (hb : boundary.any m.samePlace = true) :
      Searches kind boundary n none
  | found {n m : Node} (h : GoesOn n (some m)) (hb : boundary.any m.samePlace = false)
      (hk : kind.all (m.kind = ·) = true) : Searches kind boundary n (some m)
  | on {n m : Node} {r : Option Node} (h : GoesOn n (some m)) (hb : boundary.any m.samePlace = false)
      (hk : kind.all (m.kind = ·) = false) (rest : Searches kind boundary m r) : Searches kind boundary n r

theorem goesOn_next? (h : Arena doc stop) (hi : i < doc.size) (hinner : doc.Inner i) :
    GoesOn (atEntry doc i) (atEntry doc i).next? := by
  unfold next?
  cases hfirst : (atEntry doc i).firstChild? with
  | some c => exact .child hfirst
  | none => exact .climb hfirst (nextAbove_spec h _ hi hinner (Nat.lt_succ_of_lt hi)).1

theorem contentAfter_of_next? (h : Arena doc stop) (hi : i < doc.size) (hinner : doc.Inner i) :
    (∃ k, (atEntry doc i).next? = some (atEntry doc k) ∧ i < k ∧ k < doc.size ∧ doc.Inner k ∧
        doc.contentAfter i = atEntry doc k :: doc.contentAfter k) ∨
      (atEntry doc i).next? = none ∧ doc.contentAfter i = [] := by
  have hd := Array.getElem?_eq_getElem hi
  -- the entries up to the next node are attributes
  have hskip : ∀ {l : List Nat}, (∀ k ∈ l, i < k ∧ k < i + 1 + doc.nodes[i].attributes.size) →
      (l.map (atEntry doc)).filter (!·.kind.isAttributeLike) = [] := by
    intro l hl
    refine filter_eq_nil_iff.mpr fun m hm => ?_
    obtain ⟨k, hk, rfl⟩ := mem_map.mp hm
    obtain ⟨e, he, hof⟩ := h.isAttribute_of_lt hd (hl k hk).1 (hl k hk).2
    rw [kind_atEntry he, hof.kind]
    decide
  unfold Document.contentAfter
  rcases next?_cases h hd hinner with ⟨hnext, hlt, p, j, hchild⟩ | ⟨hnext, hend⟩
  · refine .inl ⟨_, hnext, by omega, hlt, .inr ⟨p, j, hchild⟩, ?_⟩
    have hcontent : (atEntry doc (i + 1 + doc.nodes[i].attributes.size)).IsContent :=
      isContent_atEntry.mpr (h.content_of_child hchild)
    rw [show doc.size - (i + 1) = doc.nodes[i].attributes.size +
        (doc.size - (i + 1 + doc.nodes[i].attributes.size + 1) + 1) by omega, ← range'_append_1,
      range'_succ, map_append, filter_append, hskip fun k hk => ?_, map_cons,
      filter_cons_of_pos (by rw [hcontent]; rfl)]
    · rfl
    · rw [mem_range'_1] at hk
      omega
  · refine .inr ⟨hnext, hskip fun k hk => ?_⟩
    rw [mem_range'_1] at hk
    omega

/-- The search comes to an end, with the first node of the kind if that is before the boundary. -/
theorem followingFrom_spec (h : Arena doc stop) : ∀ (fuel : Nat) {i : Nat}, i < doc.size → doc.Inner i →
    doc.size ≤ i + fuel →
    followingFrom kind boundary fuel (atEntry doc i) = firstBefore kind boundary (doc.contentAfter i) ∧
      Searches kind boundary (atEntry doc i) (followingFrom kind boundary fuel (atEntry doc i))
  | 0, _, hi, _, hfuel => absurd hi (Nat.not_lt.mpr hfuel)
  | fuel + 1, i, hi, hinner, hfuel => by
    have hgoes := goesOn_next? h hi hinner
    unfold followingFrom
    rcases contentAfter_of_next? h hi hinner with ⟨k, hnext, hik, hk, hinner', hafter⟩ | ⟨hnext, hafter⟩
    · obtain ⟨hspec, hsearch⟩ := followingFrom_spec h fuel hk hinner' (by omega)
      rw [hnext] at hgoes ⊢
      rw [hafter]
      cases hb : boundary.any (atEntry doc k).samePlace with
      | true => exact ⟨by simp [firstBefore, Option.filter, hb], by simpa [hb] using .barred hgoes hb⟩
      | false =>
        cases hkind : kind.all ((atEntry doc k).kind = ·) with
        | true =>
          refine ⟨by simp [firstBefore, Option.filter, hb, hkind], ?_⟩
          simpa [hb, hkind] using .found hgoes hb hkind
        | false =>
          refine ⟨?_, by simpa [hb, hkind] using .on hgoes hb hkind hsearch⟩
          simpa [firstBefore, hb, hkind] using hspec
    · rw [hnext] at hgoes ⊢
      exact ⟨by simp [firstBefore, hafter], .ended hgoes⟩

theorem pairwise_contentAfter (doc : Document) (i : Nat) :
    (doc.contentAfter i).Pairwise (fun a b => a.compare b = .lt) :=
  .filter _ (pairwise_map.mpr ((pairwise_lt_range' 1).imp compare_atEntry.mpr))

theorem mem_contentAfter : m ∈ doc.contentAfter i ↔ m.doc = doc ∧ m.IsContent ∧ (atEntry doc i).compare m = .lt := by
  simp only [Document.contentAfter, mem_filter, mem_map, mem_range'_1, Bool.not_eq_true']
  constructor
  · rintro ⟨⟨k, hk, rfl⟩, hcontent⟩
    exact ⟨rfl, hcontent, compare_atEntry.mpr (by omega)⟩
  · rintro ⟨rfl, hcontent, hlt⟩
    obtain ⟨k, hk, hc⟩ := IsContent.exists_place hcontent
    have hsize := hc.lt_size
    rw [hk, compare_atEntry] at hlt
    exact ⟨⟨k, by omega, hk.symm⟩, hcontent⟩

theorem firstBefore_none (l : List Node) : firstBefore kind none l = l.find? fun m => kind.all (m.kind = ·) := by
  change (l.find? fun m => kind.all (m.kind = ·)).filter (fun _ => true) = _
  cases l.find? fun m => kind.all (m.kind = ·) <;> rfl

end Node

/-! ## Walks -/

/-- Content of the kind, after a place. -/
theorem Arena.sweeps_onward (h : Arena doc stop) (kind : Option NodeKind) (ho : doc.Content o) :
    (Walk.after (.atEntry doc o) (.onward kind)).Sweeps (fun a b => a.compare b = .lt) (doc.size - o)
      fun m => ∃ k, m = .atEntry doc k ∧ (doc.Content k ∧ kind.all ((Node.atEntry doc k).kind = ·)) ∧ o < k := by
  refine Walk.sweeps_after (R := (· < ·))
    (I := fun i stride => stride = .onward kind ∧ doc.Content i) Nat.lt_trans Node.compare_atEntry.mpr ?_ ⟨rfl, ho⟩
  rintro i stride ⟨rfl, hi⟩
  have hkind : (Node.atEntry doc i).kind.isAttributeLike = false := Node.isContent_atEntry.mpr hi
  simp only [Walk.after, Node.following?, hkind, Bool.false_eq_true, if_false]
  rw [(Node.followingFrom_spec h (doc.size + 1) hi.lt_size (h.inner_of_content hi) (by omega)).1, Node.firstBefore_none]
  cases hfind : (doc.contentAfter i).find? fun m => kind.all (m.kind = ·) with
  | none =>
    refine .inr ⟨rfl, ?_⟩
    rintro m ⟨hm, hmkind⟩ him
    exact find?_eq_none.mp hfind _ (Node.mem_contentAfter.mpr
      ⟨rfl, Node.isContent_atEntry.mpr hm, Node.compare_atEntry.mpr him⟩) hmkind
  | some x =>
    obtain ⟨hk, passed, rest, hsplit, hpassed⟩ := find?_eq_some_iff_append.mp hfind
    obtain ⟨rfl, hx, hlt⟩ := Node.mem_contentAfter.mp (mem_of_find?_eq_some hfind)
    obtain ⟨k, hplace, hcontent⟩ := hx.exists_place
    rw [hplace, Node.compare_atEntry] at hlt
    have hsize : k < x.doc.size := hcontent.lt_size
    refine .inl ⟨k, .onward kind, congrArg (Walk.facing · _) hplace, ⟨rfl, hcontent⟩, ⟨hcontent, hplace ▸ hk⟩, hlt,
      by omega, Nat.lt_succ_of_le (Nat.sub_le _ _), ?_⟩
    rintro m ⟨hm, hmkind⟩ him
    have hmem : Node.atEntry x.doc m ∈ passed ++ x :: rest := hsplit ▸ Node.mem_contentAfter.mpr
      ⟨rfl, Node.isContent_atEntry.mpr hm, Node.compare_atEntry.mpr him⟩
    have hpair := Node.pairwise_contentAfter x.doc i
    rw [hsplit] at hpair
    rcases mem_append.mp hmem with hmem | hmem
    · exact absurd hmkind (Bool.not_eq_true _ ▸ (Bool.not_eq_true' _).mp (hpassed _ hmem))
    · rcases mem_cons.mp hmem with heq | hmem
      · exact .inl (Place.entry.inj (Node.mk.inj (heq.trans hplace)).2)
      · have hkm := (pairwise_cons.mp (pairwise_append.mp hpair).2.1).1 _ hmem
        rw [hplace, Node.compare_atEntry] at hkm
        exact .inr hkm

theorem Node.not_content_of_alone (hsize : n.doc.size = 1) (hn : n = .atEntry n.doc 0) (hm : m.IsContent)
    (hdoc : m.doc = n.doc) : m.compare n ≠ .lt ∧ n.compare m ≠ .lt := by
  obtain ⟨k, hk, hcontent⟩ := hm.exists_place
  have hlt := hcontent.lt_size
  rw [hdoc] at hk hlt
  obtain rfl : k = 0 := by omega
  rw [hk, hn, Ne, compare_atEntry]
  exact ⟨Nat.lt_irrefl 0, Nat.lt_irrefl 0⟩

theorem Arena.parent?_of_root (h : Arena n.doc stop) (hsize : n.doc.size = 1) (hn : n = .atEntry n.doc 0) :
    n.parent? = none := by
  have hd := Array.getElem?_eq_getElem (Nat.lt_of_lt_of_eq Nat.one_pos hsize.symm)
  rw [hn, Node.parent?_atEntry hd, h.root _ hd]
  rfl

theorem Arena.listed_following (h : Arena n.doc stop) (hn : n.Exists) :
    Axis.following.Listed kind n (.start .following kind n) := by
  simp only [Walk.start]
  cases hkind : n.kind.isAttributeLike with
  | true =>
    rw [if_pos rfl]
    rcases Node.exists_owner h hn hkind with ⟨hsize, hroot⟩ | ⟨p, hparent, hp, hparts⟩
    · rw [h.parent?_of_root hsize hroot]
      refine .nothing ?_
      rintro m ⟨hm, hdoc, hlt, -⟩ -
      exact (Node.not_content_of_alone hsize hroot hm hdoc).2 hlt
    · rw [hparent]
      obtain ⟨l, hlists, -, hpair, hmem⟩ := h.sweeps_onward kind hp
      refine ⟨l, hlists, hpair, fun m hm => ?_, fun m hm hmkind => ?_⟩
      · obtain ⟨k, rfl, ⟨hk, -⟩, hlt⟩ := (hmem m).mp hm
        exact hparts.following_iff.mpr ⟨k, rfl, hk, hlt⟩
      · obtain ⟨k, rfl, hk, hlt⟩ := hparts.following_iff.mp hm
        exact (hmem _).mpr ⟨k, rfl, ⟨hk, hmkind⟩, hlt⟩
  | false =>
    rw [if_neg (by simp)]
    obtain ⟨o, ho, hcontent⟩ := Node.IsContent.exists_place hkind
    generalize n.doc = doc at *
    subst ho
    have hparts := h.parts hcontent.lt_size
    unfold Node.afterSubtree?
    rcases (Node.nextAbove_spec h (doc.size + 1) hcontent.lt_size (h.inner_of_content hcontent)
      (Nat.lt_succ_of_lt hcontent.lt_size)).2 with ⟨hnext, -, p, j, hchild⟩ | ⟨hnext, hend⟩
    · rw [hnext]
      have hstart := h.content_of_child hchild
      obtain ⟨l, hlists, -, hpair, hmem⟩ := (h.sweeps_onward kind hstart).facing
        (Nat.lt_succ_of_le (Nat.sub_le _ _)) (by
        rintro _ ⟨k, rfl, -, hlt⟩
        exact Node.compare_atEntry.mpr hlt)
      refine ⟨l, hlists, hpair, fun m hm => ?_, fun m hm hmkind => ?_⟩
      · rcases (hmem m).mp hm with rfl | ⟨k, rfl, ⟨hk, -⟩, hlt⟩
        · exact hparts.following_iff.mpr ⟨_, rfl, hstart, .refl⟩
        · exact hparts.following_iff.mpr ⟨k, rfl, hk, Nat.le_of_lt hlt⟩
      · obtain ⟨k, rfl, hk, hle⟩ := hparts.following_iff.mp hm
        rcases Nat.eq_or_lt_of_le hle with rfl | hlt
        · exact (hmem _).mpr (.inl rfl)
        · exact (hmem _).mpr (.inr ⟨k, rfl, ⟨hk, hmkind⟩, hlt⟩)
    · rw [hnext]
      refine .nothing ?_
      intro m hm _
      obtain ⟨k, -, hk, hle⟩ := hparts.following_iff.mp hm
      have hlt : k < doc.size := hk.lt_size
      omega

/-- The content whose stretches end before a place, last one first. -/
theorem Arena.sweeps_back (h : Arena doc stop) (ho : doc.Content o) :
    (Walk.uponBackward ((Node.atEntry doc o).back? 0)).Sweeps (fun a b => b.compare a = .lt) o
      fun m => ∃ k, m = .atEntry doc k ∧ doc.Content k ∧ stop k ≤ o := by
  have hhere : Node.Behind doc stop o o 0 := by
    refine ⟨o, .here, ?_, (fun h => absurd h (Nat.lt_irrefl 0)), .refl⟩
    intro q j hq
    obtain ⟨-, hlt, hle, -⟩ := h.child hq
    omega
  refine Walk.Sweeps.congr (Walk.sweeps_after (R := (· > ·)) (f := id)
    (I := fun i stride => ∃ b, stride = .backward b ∧ Node.Behind doc stop o i b ∧ doc.Content i)
    (fun hij hjk => Nat.lt_trans hjk hij) Node.compare_atEntry.mpr ?_
    ⟨0, rfl, hhere, ho⟩) fun m => exists_congr fun k => and_congr_right fun _ => ⟨And.left, fun hk => ⟨hk, ?_⟩⟩
  · rintro i stride ⟨b, rfl, hi, hc⟩
    simp only [Walk.after, Node.back?]
    rcases Node.stepBack_cases h ho.lt_size (doc.size + 1) (h.inner_of_content hc)
      (Nat.lt_succ_of_lt hc.lt_size) hi with ⟨k, b', hnext, hk, hki, hc', hs', hnone⟩ | ⟨hnext, hnone⟩
    · rw [hnext]
      refine .inl ⟨k, .backward b', rfl, ⟨b', rfl, hk, hc'⟩, ⟨hc', hs'⟩, hki, hki,
        Nat.lt_succ_of_lt hc'.lt_size, ?_⟩
      rintro m ⟨hm, hms⟩ hmi
      have := fun hkm => hnone m hkm hmi hm
      omega
    · rw [hnext]
      refine .inr ⟨rfl, ?_⟩
      rintro m ⟨hm, hms⟩ hmi
      have := hnone m hmi hm
      omega
  · have := h.lt_stop_self hk.1.lt_size
    omega

theorem Arena.listed_preceding (h : Arena n.doc stop) (hn : n.Exists) :
    Axis.preceding.Listed kind n (.start .preceding kind n) := by
  simp only [Walk.start]
  cases hkind : n.kind.isAttributeLike with
  | true =>
    rw [if_pos rfl]
    rcases Node.exists_owner h hn hkind with ⟨hsize, hroot⟩ | ⟨p, hparent, hp, hparts⟩
    · rw [h.parent?_of_root hsize hroot]
      refine .nothing ?_
      rintro m ⟨hm, hdoc, hlt, -⟩ -
      exact (Node.not_content_of_alone hsize hroot hm hdoc).1 hlt
    · rw [hparent]
      exact .exact ((h.sweeps_back hp).congr fun m => hparts.preceding_iff.symm)
  | false =>
    rw [if_neg (by simp)]
    obtain ⟨o, ho, hcontent⟩ := Node.IsContent.exists_place hkind
    generalize n.doc = doc at *
    subst ho
    exact .exact ((h.sweeps_back hcontent).congr fun m => (h.parts hcontent.lt_size).preceding_iff.symm)

/-! ## All axes -/

/-- The walk along an axis passes the nodes of the axis, each one once and in the order of the axis. -/
theorem Arena.listed (h : Arena n.doc stop) (hn : n.Exists) (axis : Axis)
    (hns : axis = .namespaces → n.kind = .element → n.HasNamespace) : axis.Listed kind n (.start axis kind n) := by
  cases axis with
  | child => exact h.listed_child hn
  | descendant => exact h.listed_descendant hn
  | descendantOrSelf => exact h.listed_descendantOrSelf hn
  | parent => exact Arena.listed_parent
  | ancestor => exact h.listed_ancestor hn
  | ancestorOrSelf => exact h.listed_ancestorOrSelf hn
  | followingSibling => exact h.listed_followingSibling
  | following => exact h.listed_following hn
  | precedingSibling => exact h.listed_precedingSibling
  | preceding => exact h.listed_preceding hn
  | «attribute» => exact h.listed_attribute hn
  | namespaces => exact listed_namespaces (hns rfl)
  | self => exact Arena.listed_self

end XPath
