import XPath.Proofs.AxisCursor
import XPath.Proofs.NamespaceScopes

/-!
# Moving about in a document

Where any number of moves from the root can lead (`Node.travel`), and what the move to the following node
finds: the first node in document order that is of the kind, unless the boundary comes first. A move is done in
place: it tells whether it has succeeded, and leaves a position behind in any case (`Node.move`).
-/

namespace XPath

open Option

variable {doc : Document} {stop : Nat → Nat} {i : Nat} {n m : Node} {kind : Option NodeKind}
  {boundary : Option Node}

namespace Node

/-! ## Moves -/

inductive Move where
  | parent
  | firstChild
  | nextSibling
  | previousSibling
  | firstAttribute
  | nextAttribute
  | firstNamespace
  | nextNamespace
  | root
  | following (kind : Option NodeKind) (boundary : Option Node)

def move? (n : Node) : Move → Option Node
  | .parent => n.parent?
  | .firstChild => n.firstChild?
  | .nextSibling => n.nextSibling?
  | .previousSibling => n.previousSibling?
  | .firstAttribute => n.firstAttribute?
  | .nextAttribute => n.nextAttribute?
  | .firstNamespace => n.firstNamespace?
  | .nextNamespace => n.nextNamespace?
  | .root => some n.root
  | .following kind boundary => n.following? kind boundary

/-- Whether a node has been found, and the position then. -/
def settle (n : Node) : Option Node → Bool × Node
  | some m => (true, m)
  | none => (false, n)

/-- Climbs until there is a next sibling to go to. -/
def climb : Nat → Node → Bool × Node
  | 0, walk => (false, walk)
  | fuel + 1, walk =>
    let (moved, walk) := walk.settle walk.nextSibling?
    if moved then (true, walk)
    else
      let (moved, walk) := walk.settle walk.parent?
      if moved then climb fuel walk else (false, walk)

def search (kind : Option NodeKind) (boundary : Option Node) : Nat → Node → Bool × Node
  | 0, walk => (false, walk)
  | fuel + 1, walk =>
    let (moved, walk) := walk.settle walk.firstChild?
    let (moved, walk) := if moved then (true, walk) else climb (walk.doc.size + 1) walk
    if !moved || boundary.any walk.samePlace then (false, walk)
    else if kind.all (walk.kind = ·) then (true, walk)
    else search kind boundary fuel walk

/-- A copy of the position goes about, and is taken over if the search has succeeded. -/
def moveToFollowing (n : Node) (kind : Option NodeKind) (boundary : Option Node) : Bool × Node :=
  let (moved, walk) := if n.kind.isAttributeLike then n.settle n.parent? else (true, n)
  let (found, walk) := if moved then search kind boundary (n.doc.size + 1) walk else (false, walk)
  if found then (true, walk) else (false, n)

def move (n : Node) : Move → Bool × Node
  | .following kind boundary => n.moveToFollowing kind boundary
  | step => n.settle (n.move? step)

/-- Where the moves lead; after one that fails the others go on from where it has left the position. -/
def travel (n : Node) (moves : List Move) : Node :=
  moves.foldl (fun n step => (n.move step).2) n

/-- The walk has found the node that is looked for; where there is none it has ended anywhere. -/
def Ended (walked : Bool × Node) : Option Node → Prop
  | some m => walked = (true, m)
  | none => walked.1 = false

theorem Ended.taken {walked : Bool × Node} {o : Option Node} (h : Ended walked o) (n : Node) :
    (if walked.1 then (true, walked.2) else (false, n)) = n.settle o := by
  cases o with
  | some m =>
    obtain rfl : walked = (true, m) := h
    rfl
  | none =>
    rw [show walked.1 = false from h]
    rfl

theorem ended_climb : ∀ (fuel : Nat) (n : Node), Ended (climb fuel n) (nextAbove fuel n)
  | 0, _ => rfl
  | fuel + 1, n => by
    unfold climb nextAbove
    cases n.nextSibling? with
    | some m => rfl
    | none =>
      dsimp only [settle]
      rw [if_neg Bool.false_ne_true]
      cases n.parent? with
      | none => rfl
      | some p => exact ended_climb fuel p

theorem ended_search : ∀ (fuel : Nat) (n : Node),
    Ended (search kind boundary fuel n) (followingFrom kind boundary fuel n)
  | 0, _ => rfl
  | fuel + 1, n => by
    have hgo : ∀ m : Node, Ended (if boundary.any m.samePlace then (false, m) else
          if kind.all (m.kind = ·) then (true, m) else search kind boundary fuel m)
        (if boundary.any m.samePlace then none
          else if kind.all (m.kind = ·) then some m else followingFrom kind boundary fuel m) := by
      intro m
      split
      · rfl
      · split
        · rfl
        · exact ended_search fuel m
    unfold search followingFrom next?
    cases n.firstChild? with
    | some c => exact hgo c
    | none =>
      have hclimb := ended_climb (n.doc.size + 1) n
      dsimp only [settle]
      rw [if_neg Bool.false_ne_true, afterSubtree?]
      cases habove : nextAbove (n.doc.size + 1) n with
      | some m =>
        rw [habove] at hclimb
        rw [show climb (n.doc.size + 1) n = (true, m) from hclimb]
        exact hgo m
      | none =>
        rw [habove] at hclimb
        rw [show (climb (n.doc.size + 1) n).1 = false from hclimb]
        rfl

/-- Without success the position is the old one, however far the search has gone. -/
theorem move_eq (n : Node) (step : Move) : n.move step = n.settle (n.move? step) := by
  cases step with
  | following kind boundary =>
    dsimp only [move, moveToFollowing, move?, following?]
    split
    · cases n.parent? with
      | none => rfl
      | some p => exact (ended_search _ p).taken n
    · exact (ended_search _ n).taken n
  | _ => rfl

/-- The place is there, but for a first namespace that may be missing. -/
def Sited (n : Node) : Prop :=
  match n.place with
  | .entry i => i < n.doc.size
  | .namespaceOf owner k =>
    (atEntry n.doc owner).kind = .element ∧ (k = 0 ∨ k < (n.doc.inScope owner).length)

theorem content_of_element (h : (atEntry doc i).kind = .element) : doc.Content i :=
  isContent_atEntry.mp (by rw [IsContent, h]; rfl)

theorem Sited.parent? (h : Layout n.doc stop) (hn : n.Sited) (hm : n.parent? = some m) : m.Sited := by
  obtain ⟨doc, place⟩ := n
  cases place with
  | namespaceOf owner k =>
    cases hm
    exact (content_of_element hn.1).lt_size
  | entry i =>
    have hd := Array.getElem?_eq_getElem (show i < doc.nodes.size from hn)
    obtain ⟨p, hp, rfl⟩ := exists_parent_of_parent? hd hm
    exact Nat.lt_trans (h.parent_lt hd hp) hn

theorem Sited.topFrom : ∀ {fuel : Nat} {n : Node}, Layout n.doc stop → n.Sited → (topFrom fuel n).Sited
  | 0, _, _, hn => hn
  | fuel + 1, n, h, hn => by
    unfold Node.topFrom
    split
    · next p hp => exact Sited.topFrom (parent?_doc hp ▸ h) (hn.parent? h hp)
    · exact hn

/-- One move stays at places that are there. -/
theorem Sited.move? (h : Layout n.doc stop) (hn : n.Sited) {move : Move} (hm : n.move? move = some m) :
    m.doc = n.doc ∧ m.Sited := by
  have hchild : IsChildIn n.doc m → m.doc = n.doc ∧ m.Sited := by
    rintro ⟨p, j, c, ⟨e, he, hc⟩, rfl⟩
    obtain ⟨-, -, -, ⟨d, hd, -⟩, -⟩ := (h.stretch p e he).children.getElem? (Array.getElem?_toList ▸ hc)
    exact ⟨rfl, (Array.getElem?_eq_some_iff.mp hd).1⟩
  have hattribute : ∀ {p : Nat} {e : NodeData} {k a : Nat}, n.doc.nodes[p]? = some e → e.attributes[k]? = some a →
      (atEntry n.doc a).Sited := by
    intro p e k a he ha
    obtain ⟨-, d, hd, -⟩ := (h.stretch p e he).attributes k a ha
    exact (Array.getElem?_eq_some_iff.mp hd).1
  cases move with
  | parent => exact ⟨parent?_doc hm, hn.parent? h hm⟩
  | firstChild => exact hchild (isChildIn_of_firstChild? hm)
  | nextSibling => exact hchild (isChildIn_of_nextSibling? hm)
  | previousSibling =>
    simp only [Node.move?, previousSibling?, bind_eq_bind, bind_eq_some_iff] at hm
    obtain ⟨⟨children, j⟩, hs, hm⟩ := hm
    cases j with
    | zero => cases hm
    | succ k => exact hchild (isChildIn_of_siblings? hs hm)
  | firstAttribute =>
    refine ⟨firstAttribute?_doc hm, ?_⟩
    obtain ⟨a, ha, rfl⟩ := map_eq_some_iff.mp hm
    obtain ⟨d, hd, ha⟩ := bind_eq_some_iff.mp ha
    unfold data? at hd
    split at hd
    · exact hattribute hd ha
    · cases hd
  | nextAttribute =>
    refine ⟨nextAttribute?_doc hm, ?_⟩
    simp only [Node.move?, nextAttribute?, bind_eq_bind, bind_eq_some_iff] at hm
    obtain ⟨d, -, hm⟩ := hm
    split at hm
    · obtain ⟨e, he, hm⟩ := bind_eq_some_iff.mp hm
      obtain ⟨a, ha, rfl⟩ := map_eq_some_iff.mp hm
      obtain ⟨p, -, he⟩ := bind_eq_some_iff.mp he
      exact hattribute he ha
    · cases hm
  | firstNamespace =>
    refine ⟨firstNamespace?_doc hm, ?_⟩
    simp only [Node.move?, firstNamespace?] at hm
    split at hm
    · next i hplace hkind =>
      cases hm
      obtain ⟨doc, place⟩ := n
      obtain rfl : place = .entry i := hplace
      exact ⟨hkind, .inl rfl⟩
    · cases hm
  | nextNamespace =>
    refine ⟨nextNamespace?_doc hm, ?_⟩
    obtain ⟨doc, place⟩ := n
    cases place with
    | entry i => cases hm
    | namespaceOf owner k =>
      simp only [Node.move?, nextNamespace?] at hm
      split at hm
      · next hk =>
        cases hm
        exact ⟨hn.1, .inr hk⟩
      · cases hm
  | root =>
    cases hm
    exact ⟨root_doc n, .topFrom h hn⟩
  | following kind boundary => exact hchild (isChildIn_of_following? hm)

theorem Sited.travel : ∀ (moves : List Move) {n : Node}, Layout n.doc stop → n.Sited →
    (n.travel moves).doc = n.doc ∧ (n.travel moves).Sited
  | [], _, _, hn => ⟨rfl, hn⟩
  | step :: moves, n, h, hn => by
    cases hm : n.move? step with
    | none =>
      have hstep : n.travel (step :: moves) = n.travel moves := by simp [Node.travel, move_eq, settle, hm]
      exact hstep ▸ Sited.travel moves h hn
    | some m =>
      have hstep : n.travel (step :: moves) = m.travel moves := by simp [Node.travel, move_eq, settle, hm]
      obtain ⟨hdoc, hsited⟩ := hn.move? h hm
      rw [hstep, ← hdoc]
      exact Sited.travel moves (hdoc ▸ h) hsited

/-- Where a search starts: attributes and namespaces give way to their owner. -/
def searchStart? (n : Node) : Option Node :=
  if n.kind.isAttributeLike then n.parent? else some n

theorem Sited.searchStart? (h : Arena n.doc stop) (hn : n.Sited) :
    n.searchStart? = none ∨ ∃ i, n.searchStart? = some (atEntry n.doc i) ∧ n.doc.Content i := by
  unfold Node.searchStart?
  split
  · next hkind =>
    obtain ⟨doc, place⟩ := n
    cases place with
    | namespaceOf owner k => exact .inr ⟨owner, rfl, content_of_element hn.1⟩
    | entry i =>
      rcases exists_owner h hn hkind with ⟨hsize, hroot⟩ | ⟨p, hparent, hp, -⟩
      · exact .inl (h.parent?_of_root hsize hroot)
      · exact .inr ⟨p, hparent, hp⟩
  · next hkind =>
    obtain ⟨i, hi, hcontent⟩ := IsContent.exists_place (Bool.eq_false_iff.mpr hkind)
    exact .inr ⟨i, congrArg some hi, hcontent⟩

/-- The move to the following node, from any place: of the content after the start, in document order, it
finds the first node that is of the kind or the boundary, and goes there unless that is the boundary. Otherwise
the position is left as it was. The search comes to an end without any bound. -/
theorem following?_spec (id : Nat) (f : Fragment) (hf : f.isProper = true) (n : Node)
    (hdoc : n.doc = .build id f) (hn : n.Sited) (kind : Option NodeKind) (boundary : Option Node) :
    (n.searchStart? = none ∧ n.following? kind boundary = none ∧ n.move (.following kind boundary) = (false, n)) ∨
      ∃ start l, n.searchStart? = some start ∧ l.Pairwise (fun a b => a.compare b = .lt) ∧
        (∀ m, m ∈ l ↔ m.doc = n.doc ∧ m.IsContent ∧ start.compare m = .lt) ∧
        n.following? kind boundary = firstBefore kind boundary l ∧
        n.move (.following kind boundary) = n.settle (firstBefore kind boundary l) ∧
        Searches kind boundary start (n.following? kind boundary) := by
  obtain ⟨stop, harena⟩ := Document.exists_arena_build id hf
  rw [← hdoc] at harena
  have hbind : n.following? kind boundary =
      n.searchStart?.bind (followingFrom kind boundary (n.doc.size + 1)) := by
    unfold following? Node.searchStart?
    split <;> rfl
  rcases hn.searchStart? harena with hnone | ⟨i, hsome, hcontent⟩
  · rw [hnone, bind_none] at hbind
    refine .inl ⟨hnone, hbind, ?_⟩
    rw [move_eq, move?, hbind]
    rfl
  · obtain ⟨hspec, hsearch⟩ := followingFrom_spec harena (n.doc.size + 1) hcontent.lt_size
      (harena.inner_of_content hcontent) (by omega)
    rw [hsome, bind_some] at hbind
    refine .inr ⟨_, n.doc.contentAfter i, hsome, pairwise_contentAfter _ i, fun m => mem_contentAfter,
      hbind.trans hspec, ?_, hbind ▸ hsearch⟩
    rw [← hspec, ← hbind]
    exact move_eq n _

/-- From the second attribute of the list on to a text before the second item, with nothing between. -/
theorem following?_spec_notedList :
    let n := Node.atEntry (.build 4 notedList) 2
    let boundary := Node.atEntry (.build 4 notedList) 6
    notedList.isProper = true ∧ n.Sited ∧ ∃ start l, n.searchStart? = some start ∧
      (∀ m, m ∈ l ↔ m.doc = n.doc ∧ m.IsContent ∧ start.compare m = .lt) ∧
      n.move (.following (some .text) (some boundary)) = n.settle (firstBefore (some .text) (some boundary) l) := by
  intro n boundary
  have hn : n.Sited := by unfold Node.Sited; decide
  have hproper : notedList.isProper = true := by decide
  rcases following?_spec 4 notedList hproper n rfl hn (some .text) (some boundary) with
    ⟨hnone, -⟩ | ⟨start, l, hstart, -, hl, -, hmove, -⟩
  · cases hnone
  · exact ⟨hproper, hn, start, l, hstart, hl, hmove⟩

/-- The attribute among the children is found, though it is no content and the text after it is. -/
theorem following?_strayAttribute :
    let doc : Document := .build 0 .strayAttribute
    (rootOf doc).move (.following none none) = (true, atEntry doc 1) ∧ (atEntry doc 1).kind = .attribute ∧
      (atEntry doc 2).kind = .text ∧ (rootOf doc).compare (atEntry doc 2) = .lt := by
  intro doc
  exact ⟨rfl, rfl, rfl, rfl⟩

/-! ## Places that are there -/

theorem Sited.exists_of_keepsReserved (h : Layout n.doc stop) (hk : n.doc.KeepsReserved) (hn : n.Sited) : n.Exists := by
  obtain ⟨doc, place⟩ := n
  cases place with
  | entry i => exact hn
  | namespaceOf owner k =>
    obtain ⟨hkind, rfl | hlt⟩ := hn
    · have hsize := (content_of_element hkind).lt_size
      exact ⟨hkind, List.length_pos_of_ne_nil (Document.inScope_ne_nil h hk hsize)⟩
    · exact ⟨hkind, hlt⟩

/-- Wherever moves from the root lead is a place of the document: an entry, or a namespace of an element that
is in scope there, unless it is the first one and nothing is in scope. A namespace that is there has the name
and the value of its declaration, and a move that fails changes nothing. The move to the first namespace
succeeds at elements; if the reserved prefix is nowhere taken back, each of them has a namespace in scope, and
the place is there in any case. -/
theorem travel_sited (id : Nat) (f : Fragment) (moves : List Move) :
    let n := (rootOf (.build id f)).travel moves
    n.doc = .build id f ∧ n.Sited ∧ (∀ step, (n.move step).1 = false → (n.move step).2 = n) ∧
      (n.firstNamespace?.isSome ↔ n.kind = .element) ∧
      (∀ owner k d, n.place = .namespaceOf owner k → (n.doc.inScope owner)[k]? = some d →
        n.localName = d.nsPrefix ∧ n.value = d.uri) ∧
      (n.doc.KeepsReserved → n.Exists ∧
        (n.firstNamespace?.isSome ↔ ∃ i, n.place = .entry i ∧ n.kind = .element ∧ n.doc.inScope i ≠ [])) := by
  obtain ⟨stop, hlayout, -⟩ := Document.exists_layout_build id f
  intro n
  obtain ⟨hdoc, hsited⟩ := Sited.travel moves (n := rootOf (.build id f)) hlayout
    (Document.size_build_pos id f)
  replace hlayout : Layout n.doc stop := hdoc ▸ hlayout
  refine ⟨hdoc, hsited, fun step => ?_, firstNamespace?_isSome_iff, ?_, fun hkeeps => ?_⟩
  · rw [move_eq]
    cases n.move? step with
    | none => exact fun _ => rfl
    | some m => exact fun hfailed => (Bool.noConfusion hfailed)
  · intro owner k d hplace hd
    simp [localName, value, declaration?, hplace, hd]
  · refine ⟨hsited.exists_of_keepsReserved hlayout hkeeps, firstNamespace?_isSome_iff.trans ⟨fun hkind => ?_, ?_⟩⟩
    · obtain ⟨i, hi, hcontent⟩ := IsContent.exists_place (by rw [IsContent, hkind]; rfl)
      have hplace : n.place = .entry i := (Node.mk.inj hi).2
      exact ⟨i, hplace, hkind, Document.inScope_ne_nil hlayout hkeeps hcontent.lt_size⟩
    · rintro ⟨i, -, hkind, -⟩
      exact hkind

theorem travel_sited_notedList :
    ((rootOf (.build 4 notedList)).travel [.firstChild, .nextSibling, .firstNamespace, .nextNamespace,
      .parent, .parent, .parent]).Sited :=
  (travel_sited 4 notedList _).2.1

/-- Where even the reserved prefix is taken back, the move to the first namespace leads to a place that is
not there. -/
theorem travel_bareTree :
    let n := (rootOf .bareTree).travel [.firstNamespace]
    (rootOf .bareTree).firstNamespace?.isSome = true ∧ Document.bareTree.inScope 0 = [] ∧
      n = ⟨.bareTree, .namespaceOf 0 0⟩ ∧ ¬ n.Exists ∧ n.declaration? = none := by
  refine ⟨by decide, by decide, rfl, ?_, by decide⟩
  rintro ⟨-, hlt⟩
  revert hlt
  decide

end Node

end XPath
