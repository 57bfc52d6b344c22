import XPath.Axis.Walk

/-!
# Moves stay in their document

No move leaves the document of the node it starts from, and so does no walk along an axis. Moves down, aside and
onward lead to children of entries (`Node.IsChildIn`).
-/

namespace XPath

open Option

variable {n m : Node} {kind : Option NodeKind} {boundary : Option Node} {j k : Nat} {d : Document}
  {o : Option (Node × Nat)} {accepts : Node → Bool} {tests : List NodeTest}

/-- Entry `c` is child number `j` of entry `p`. -/
def Document.Child (doc : Document) (p j c : Nat) : Prop :=
  ∃ e, doc.nodes[p]? = some e ∧ e.children[j]? = some c

namespace Node

abbrev atEntry (doc : Document) (i : Nat) : Node := ⟨doc, .entry i⟩

theorem doc_of_map_entryAt {o : Option Nat} (h : o.map n.entryAt = some m) : m.doc = n.doc := by
  obtain ⟨i, -, rfl⟩ := map_eq_some_iff.mp h
  rfl

theorem parent?_doc (h : n.parent? = some m) : m.doc = n.doc := by
  unfold parent? at h
  split at h
  · exact doc_of_map_entryAt h
  · cases h
    rfl

theorem lastChild?_doc (h : n.lastChild? = some m) : m.doc = n.doc :=
  doc_of_map_entryAt h

theorem previousSibling?_doc (h : n.previousSibling? = some m) : m.doc = n.doc := by
  simp only [previousSibling?, bind_eq_bind, bind_eq_some_iff] at h
  obtain ⟨⟨children, i⟩, -, h⟩ := h
  cases i with
  | zero => cases h
  | succ k => exact doc_of_map_entryAt h

theorem firstAttribute?_doc (h : n.firstAttribute? = some m) : m.doc = n.doc :=
  doc_of_map_entryAt h

theorem nextAttribute?_doc (h : n.nextAttribute? = some m) : m.doc = n.doc := by
  simp only [nextAttribute?, bind_eq_bind, bind_eq_some_iff] at h
  obtain ⟨d, -, h⟩ := h
  split at h
  · obtain ⟨parent, -, h⟩ := bind_eq_some_iff.mp h
    exact doc_of_map_entryAt h
  · cases h

theorem firstNamespace?_doc (h : n.firstNamespace? = some m) : m.doc = n.doc := by
  unfold firstNamespace? at h
  split at h
  · cases h
    rfl
  · cases h

theorem nextNamespace?_doc (h : n.nextNamespace? = some m) : m.doc = n.doc := by
  unfold nextNamespace? at h
  split at h
  · split at h
    · cases h
      rfl
    · cases h
  · cases h

theorem topFrom_doc : ∀ (fuel : Nat) (n : Node), (topFrom fuel n).doc = n.doc
  | 0, _ => rfl
  | fuel + 1, n => by
    unfold topFrom
    split
    · next p hp => rw [topFrom_doc fuel p, parent?_doc hp]
    · rfl

theorem root_doc (n : Node) : n.root.doc = n.doc :=
  topFrom_doc _ n

def IsChildIn (doc : Document) (m : Node) : Prop :=
  ∃ p j c, doc.Child p j c ∧ m = atEntry doc c

theorem IsChildIn.doc (h : IsChildIn d m) : m.doc = d := by
  obtain ⟨_, _, _, -, rfl⟩ := h
  rfl

theorem isChildIn_of_firstChild? (h : n.firstChild? = some m) : IsChildIn n.doc m := by
  obtain ⟨doc, place⟩ := n
  obtain ⟨c, hbind, rfl⟩ := map_eq_some_iff.mp h
  obtain ⟨d, hd, hc⟩ := bind_eq_some_iff.mp hbind
  cases place with
  | namespaceOf owner k => cases hd
  | entry i => exact ⟨i, 0, c, ⟨d, hd, hc⟩, rfl⟩

theorem isChildIn_of_siblings? (hs : n.siblings? = some (children, j))
    (h : (children[k]?).map n.entryAt = some m) : IsChildIn n.doc m := by
  simp only [siblings?, bind_eq_bind, bind_eq_some_iff] at hs
  obtain ⟨d, -, p, -, e, he, hs⟩ := hs
  obtain ⟨c, hc, rfl⟩ := map_eq_some_iff.mp h
  split at hs
  · cases hs
  · cases hs
    exact ⟨p, k, c, ⟨e, he, hc⟩, rfl⟩

theorem isChildIn_of_nextSibling? (h : n.nextSibling? = some m) : IsChildIn n.doc m := by
  simp only [nextSibling?, bind_eq_bind, bind_eq_some_iff] at h
  obtain ⟨⟨children, i⟩, hs, h⟩ := h
  exact isChildIn_of_siblings? hs h

theorem isChildIn_of_nextAbove : ∀ {fuel : Nat} {n m : Node}, nextAbove fuel n = some m → IsChildIn n.doc m
  | 0, _, _, h => nomatch h
  | fuel + 1, n, m, h => by
    unfold nextAbove at h
    split at h
    · next k hk => exact some.inj h ▸ isChildIn_of_nextSibling? hk
    · obtain ⟨p, hp, h⟩ := bind_eq_some_iff.mp h
      exact parent?_doc hp ▸ isChildIn_of_nextAbove h

theorem isChildIn_of_next? (h : n.next? = some m) : IsChildIn n.doc m := by
  unfold next? at h
  split at h
  · next c hc => exact some.inj h ▸ isChildIn_of_firstChild? hc
  · exact isChildIn_of_nextAbove h

theorem isChildIn_of_followingFrom :
    ∀ {fuel : Nat} {n m : Node}, followingFrom kind boundary fuel n = some m → IsChildIn n.doc m
  | 0, _, _, h => nomatch h
  | fuel + 1, n, m, h => by
    unfold followingFrom at h
    split at h
    · cases h
    · next k hk =>
      split at h
      · cases h
      · split at h
        · exact some.inj h ▸ isChildIn_of_next? hk
        · exact (isChildIn_of_next? hk).doc ▸ isChildIn_of_followingFrom h

theorem isChildIn_of_following? (h : n.following? kind boundary = some m) : IsChildIn n.doc m := by
  simp only [following?] at h
  split at h
  · obtain ⟨p, hp, h⟩ := bind_eq_some_iff.mp h
    exact parent?_doc hp ▸ isChildIn_of_followingFrom h
  · exact isChildIn_of_followingFrom h

theorem getD_parent?_doc (n : Node) : (n.parent?.getD n).doc = n.doc := by
  cases hp : n.parent? with
  | none => rfl
  | some p => exact parent?_doc hp

theorem climbWithin_doc : ∀ {depth : Nat} {n m : Node} {k : Nat}, climbWithin depth n = some (m, k) → m.doc = n.doc
  | 0, _, _, _, h => nomatch h
  | depth + 1, n, m, k, h => by
    unfold climbWithin at h
    split at h
    · next j hj =>
      obtain ⟨rfl, -⟩ := Prod.mk.inj (some.inj h)
      exact (isChildIn_of_nextSibling? hj).doc
    · rw [climbWithin_doc h, getD_parent?_doc]

theorem nextWithin?_doc (h : n.nextWithin? depth = some (m, k)) : m.doc = n.doc := by
  unfold nextWithin? at h
  split at h
  · next c hc =>
    obtain ⟨rfl, -⟩ := Prod.mk.inj (some.inj h)
    exact (isChildIn_of_firstChild? hc).doc
  · exact climbWithin_doc h

theorem lastWithin_doc : ∀ (fuel : Nat) (n : Node) (levels : Nat), (lastWithin fuel n levels).1.doc = n.doc
  | 0, _, _ => rfl
  | fuel + 1, n, levels => by
    unfold lastWithin
    split
    · next c hc => rw [lastWithin_doc fuel c, lastChild?_doc hc]
    · rfl

theorem stepBack_doc : ∀ {fuel : Nat} {n m : Node} {below k : Nat}, stepBack fuel n below = some (m, k) → m.doc = n.doc
  | 0, _, _, _, _, h => nomatch h
  | fuel + 1, n, m, below, k, h => by
    unfold stepBack at h
    split at h
    · next j hj =>
      have hm : m = (lastWithin j.doc.size j below).1 := by
        rw [some.inj h]
      rw [hm, lastWithin_doc, previousSibling?_doc hj]
    · split at h
      · cases h
      · next p hp => rw [stepBack_doc h, parent?_doc hp]
      · next p b hp =>
        obtain ⟨rfl, -⟩ := Prod.mk.inj (some.inj h)
        exact parent?_doc hp

theorem back?_doc (h : n.back? below = some (m, k)) : m.doc = n.doc :=
  stepBack_doc h

end Node

/-! ## Walks -/

namespace Walk

def Inside (d : Document) : Walk → Prop
  | ended => True
  | facing n _ => n.doc = d

theorem inside_upon {o : Option Node} (h : ∀ n, o = some n → n.doc = d) : (upon stride o).Inside d := by
  cases o with
  | none => trivial
  | some n => exact h n rfl

theorem inside_uponWithin (h : ∀ n k, o = some (n, k) → n.doc = d) : (uponWithin o).Inside d := by
  cases o with
  | none => trivial
  | some r => exact h r.1 r.2 rfl

theorem inside_uponBackward (h : ∀ n k, o = some (n, k) → n.doc = d) : (uponBackward o).Inside d := by
  cases o with
  | none => trivial
  | some r => exact h r.1 r.2 rfl

theorem inside_start (axis : Axis) (kind : Option NodeKind) (origin : Node) :
    (start axis kind origin).Inside origin.doc := by
  unfold start
  match axis with
  | .child => exact inside_upon fun n h => (Node.isChildIn_of_firstChild? h).doc
  | .descendant => exact inside_uponWithin fun n k => Node.nextWithin?_doc
  | .descendantOrSelf => exact rfl
  | .parent | .ancestor => exact inside_upon fun n => Node.parent?_doc
  | .ancestorOrSelf => exact rfl
  | .followingSibling =>
    dsimp only
    split
    · trivial
    · exact inside_upon fun n h => (Node.isChildIn_of_nextSibling? h).doc
  | .following =>
    dsimp only
    split
    · refine inside_upon fun n h => ?_
      obtain ⟨p, hp, h⟩ := bind_eq_some_iff.mp h
      rw [(Node.isChildIn_of_following? h).doc, Node.parent?_doc hp]
    · exact inside_upon fun n h => (Node.isChildIn_of_nextAbove h).doc
  | .precedingSibling =>
    dsimp only
    split
    · trivial
    · exact inside_upon fun n => Node.previousSibling?_doc
  | .preceding =>
    dsimp only
    split
    · refine inside_uponBackward fun n k h => ?_
      obtain ⟨p, hp, h⟩ := bind_eq_some_iff.mp h
      rw [Node.back?_doc h, Node.parent?_doc hp]
    · exact inside_uponBackward fun n k => Node.back?_doc
  | .attribute => exact inside_upon fun n => Node.firstAttribute?_doc
  | .namespaces => exact inside_upon fun n => Node.firstNamespace?_doc
  | .self => exact rfl

theorem inside_after (n : Node) (stride : Stride) : (after n stride).Inside n.doc := by
  cases stride with
  | stay => trivial
  | parent => exact inside_upon fun m => Node.parent?_doc
  | nextSibling => exact inside_upon fun m h => (Node.isChildIn_of_nextSibling? h).doc
  | previousSibling => exact inside_upon fun m => Node.previousSibling?_doc
  | nextAttribute => exact inside_upon fun m => Node.nextAttribute?_doc
  | nextNamespace => exact inside_upon fun m => Node.nextNamespace?_doc
  | within depth => exact inside_uponWithin fun m k => Node.nextWithin?_doc
  | onward kind => exact inside_upon fun m h => (Node.isChildIn_of_following? h).doc
  | backward below => exact inside_uponBackward fun m k => Node.back?_doc

theorem inside_seek : ∀ {fuel : Nat} {w w' : Walk} {n : Node}, w.Inside d → seek accepts fuel w = some (n, w') →
      n.doc = d ∧ w'.Inside d
  | 0, _, _, _, _, h | fuel + 1, ended, _, _, _, h => by simp [seek] at h
  | fuel + 1, facing m stride, w', n, hw, h => by
    have hw : m.doc = d := hw
    unfold seek at h
    split at h
    · obtain ⟨rfl, rfl⟩ := Prod.mk.inj (some.inj h)
      exact ⟨hw, hw ▸ inside_after m stride⟩
    · exact inside_seek (hw ▸ inside_after m stride) h

/-- What a walk delivers, and what is left of it, is in its document. -/
theorem inside_next? {w w' : Walk} (hw : w.Inside d) (h : w.next? accepts = some (n, w')) : n.doc = d ∧ w'.Inside d :=
  inside_seek hw h

end Walk

theorem DescentWalk.seek_doc :
    ∀ {fuel : Nat} {w w' : DescentWalk}, w.seek tests fuel = some w' → w'.node.doc = w.node.doc
  | 0, _, _, h => nomatch h
  | fuel + 1, w, w', h => by
    unfold seek at h
    split at h
    · cases h
    · next n depth hn =>
      split at h
      · cases h
        exact Node.nextWithin?_doc hn
      · rw [seek_doc h]
        exact Node.nextWithin?_doc hn

theorem DescentWalk.next?_doc {w w' : DescentWalk} (h : w.next? tests = some w') : w'.node.doc = w.node.doc :=
  seek_doc h

end XPath
