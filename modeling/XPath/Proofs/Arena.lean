import Mathlib.Data.List.Forall2
import XPath.Tree.Document

/-!
# How a document lies in its array

The subtree of an entry is a stretch of the array: the entry, then its attributes, then the stretches of
its children one after the other. `Layout` says so of a document, entry by entry, with a function that tells
where each stretch ends. Every document that is built from a fragment is laid out so (`exists_layout_build`). It
is an `Arena` provided that attributes among the fragments stand alone and not among the children of others.
-/

namespace XPath

open List Array

/-! ## Fragments -/

namespace Fragment

mutual

def isProper : Fragment → Bool
  | .document _ _ children | .element _ _ _ children => areContent children
  | _ => true

def areContent : List Fragment → Bool
  | [] => true
  | f :: fs => f.kind != .attribute && f.isProper && areContent fs

end

def content : Fragment → List Fragment
  | .document _ _ children | .element _ _ _ children => children
  | _ => []

theorem isAttributeLike_kind {f : Fragment} (h : f.kind ≠ .attribute) : f.kind.isAttributeLike = false := by
  cases f with
  | «attribute» a => exact absurd rfl h
  | _ => rfl

theorem of_areContent : ∀ {fs : List Fragment}, areContent fs = true →
    ∀ f ∈ fs, f.kind ≠ .attribute ∧ f.isProper = true
  | _ :: _, h, f, hf => by
    simp only [areContent, Bool.and_eq_true, bne_iff_ne] at h
    rcases mem_cons.mp hf with rfl | hf
    · exact h.1
    · exact of_areContent h.2 f hf

theorem isProper_content {f g : Fragment} (h : f.isProper = true) (hg : g ∈ f.content) :
    g.kind ≠ .attribute ∧ g.isProper = true := by
  cases f with
  | document | element => exact of_areContent h g hg
  | _ => cases hg

end Fragment

/-! ## Arenas -/

/-- The children of entry `p` from number `index` on. Their stretches follow each other from `lo` to
`hi`. -/
def Row (nodes : Array NodeData) (stop : Nat → Nat) (p hi : Nat) : Nat → Nat → List Nat → Prop
  | _, lo, [] => lo = hi
  | index, lo, c :: cs =>
    c = lo ∧ lo < stop lo ∧
      (∃ d, nodes[lo]? = some d ∧ d.parent = some p ∧ d.siblingIndex = index) ∧
      Row nodes stop p hi (index + 1) (stop lo) cs

structure NodeData.IsAttributeOf (a : NodeData) (owner index : Nat) : Prop where
  kind : a.kind = .attribute
  parent : a.parent = some owner
  siblingIndex : a.siblingIndex = index
  attributes : a.attributes = #[]
  children : a.children = #[]

structure Stretch (nodes : Array NodeData) (stop : Nat → Nat) (i : Nat) (d : NodeData) : Prop where
  attributes : ∀ j a, d.attributes[j]? = some a →
    a = i + 1 + j ∧ ∃ e, nodes[a]? = some e ∧ e.IsAttributeOf i j
  children : Row nodes stop i (stop i) 0 (i + 1 + d.attributes.size) d.children.toList
  nested : ∀ j, i < j → j < stop i → stop j ≤ stop i

/-- Entry `i` is among the attributes or the children of its parent. -/
def Hangs (nodes : Array NodeData) (i : Nat) (d : NodeData) : Prop :=
  ∃ p e, d.parent = some p ∧ nodes[p]? = some e ∧ p < i ∧
    (d.IsAttributeOf p d.siblingIndex ∧ e.attributes[d.siblingIndex]? = some i ∨
      e.children[d.siblingIndex]? = some i)

/-- The document is laid out in stretches. -/
structure Layout (doc : Document) (stop : Nat → Nat) : Prop where
  stretch : ∀ i d, doc.nodes[i]? = some d → Stretch doc.nodes stop i d
  held : ∀ i d, doc.nodes[i]? = some d → 0 < i → Hangs doc.nodes i d
  root : ∀ d, doc.nodes[0]? = some d → d.parent = none
  all : stop 0 = doc.size

/-- No attribute is among the children of an entry, and one at the root stands alone. -/
structure Arena (doc : Document) (stop : Nat → Nat) : Prop extends Layout doc stop where
  content : ∀ (p : Nat) (d : NodeData) (j c : Nat), doc.nodes[p]? = some d → d.children[j]? = some c →
    ∃ e : NodeData, doc.nodes[c]? = some e ∧ e.kind.isAttributeLike = false
  alone : ∀ d : NodeData, doc.nodes[0]? = some d → d.kind.isAttributeLike = true → doc.size = 1

theorem Layout.parent_lt (h : Layout doc stop) {d : NodeData}
    (hd : doc.nodes[i]? = some d) (hp : d.parent = some p) : p < i := by
  rcases Nat.eq_zero_or_pos i with rfl | hpos
  · rw [h.root d hd] at hp
    cases hp
  · obtain ⟨p', e, hp', -, hlt, -⟩ := h.held i d hd hpos
    cases hp.symm.trans hp'
    exact hlt

theorem Arena.hangs (h : Arena doc stop) (i : Nat) (d : NodeData)
    (hd : doc.nodes[i]? = some d) (hpos : 0 < i) : ∃ p e, d.parent = some p ∧ doc.nodes[p]? = some e ∧ p < i ∧
      if d.kind = .attribute then e.attributes[d.siblingIndex]? = some i
      else e.children[d.siblingIndex]? = some i := by
  obtain ⟨p, e, hp, he, hlt, ⟨hof, hmem⟩ | hmem⟩ := h.held i d hd hpos
  · exact ⟨p, e, hp, he, hlt, if_pos hof.kind ▸ hmem⟩
  · obtain ⟨d', hd', hkind⟩ := h.content p e _ i he hmem
    cases hd.symm.trans hd'
    refine ⟨p, e, hp, he, hlt, ?_⟩
    rw [if_neg (by rintro hattr; rw [hattr] at hkind; cases hkind)]
    exact hmem

/-! ## What is stored -/

/-- Entry `i` holds the fragment, whose names are read under the declarations `scopes`. -/
inductive Fragment.StoredAt (nodes : Array NodeData) :
    List (List NamespaceDecl) → Fragment → Nat → Prop
  | mk {scopes : List (List NamespaceDecl)} {f : Fragment} {i : Nat} {e : NodeData}
      (entry : nodes[i]? = some e) (kind : e.kind = f.kind)
      (name : e.name = f.resolvedName (f.namespaces :: scopes)) (value : e.value = f.value)
      (namespaces : e.namespaces = f.namespaces)
      (attributeCount : e.attributes.size = f.attributes.length)
      (attributeAt : ∀ (k : Nat) (a : AttributeDecl) (j : Nat), f.attributes[k]? = some a → e.attributes[k]? = some j →
        ∃ d : NodeData, nodes[j]? = some d ∧ d.kind = .attribute ∧
          d.name = some (resolveAttributeName (f.namespaces :: scopes) a.name) ∧ d.value = a.value)
      (childCount : e.children.size = f.content.length)
      (childAt : ∀ (k : Nat) (g : Fragment) (c : Nat), f.content[k]? = some g → e.children[k]? = some c →
        StoredAt nodes (f.namespaces :: scopes) g c) :
      StoredAt nodes scopes f i

/-- What holds of the first entry and the fragment there, and passes on to children, holds of all entries but the
attributes of others. -/
theorem Layout.induct (h : Layout doc stop)
    {P : List (List NamespaceDecl) → Fragment → Nat → Prop} (hf : f.StoredAt doc.nodes [] 0) (top : P [] f 0)
    (below : ∀ scopes (g g' : Fragment) p (j c : Nat) e d, P scopes g p → doc.nodes[p]? = some e →
      e.children[j]? = some c → g.content[j]? = some g' → g'.StoredAt doc.nodes (g.namespaces :: scopes) c →
        doc.nodes[c]? = some d →
      d.parent = some p → P (g.namespaces :: scopes) g' c) (i : Nat) {d : NodeData} (hd : doc.nodes[i]? = some d) :
    d.kind = .attribute ∧ d.children = #[] ∨ ∃ scopes g, g.StoredAt doc.nodes scopes i ∧ P scopes g i := by
  induction i using Nat.strongRecOn generalizing d with
  | ind i ih =>
    rcases Nat.eq_zero_or_pos i with rfl | hpos
    · exact .inr ⟨[], f, hf, top⟩
    obtain ⟨p, e, hp, he, hlt, ⟨hof, -⟩ | hmem⟩ := h.held i d hd hpos
    · exact .inl ⟨hof.kind, hof.children⟩
    rcases ih p hlt he with ⟨-, hnone⟩ | ⟨scopes, g, hstored, hg⟩
    · rw [hnone] at hmem
      cases hmem
    · obtain ⟨hentry, -, -, -, -, -, -, hcount, hbelow⟩ := hstored
      cases hentry.symm.trans he
      have hj := (Array.getElem?_eq_some_iff.mp hmem).1
      have hcontent := List.getElem?_eq_getElem (hcount ▸ hj)
      have hstored := hbelow _ _ i hcontent hmem
      exact .inr ⟨_, _, hstored, below _ _ _ _ _ _ _ _ hg he hmem hcontent hstored hd hp⟩

/-! ## Rows -/

section

variable {nodes : Array NodeData} {stop stop' : Nat → Nat} {p hi : Nat}

theorem Row.le : ∀ {cs : List Nat} {index lo : Nat}, Row nodes stop p hi index lo cs → lo ≤ hi
  | [], _, _, h => Nat.le_of_eq h
  | _ :: _, _, _, ⟨_, hlt, _, hrest⟩ => Nat.le_trans (Nat.le_of_lt hlt) hrest.le

theorem Row.congr : ∀ {cs : List Nat} {index lo : Nat}, Row nodes stop p hi index lo cs →
    (∀ j, lo ≤ j → j < hi → stop' j = stop j) → Row nodes stop' p hi index lo cs
  | [], _, _, h, _ => h
  | _ :: _, _, lo, ⟨hc, hlt, hd, hrest⟩, hstop => by
    have hlo : stop' lo = stop lo := hstop lo .refl (Nat.lt_of_lt_of_le hlt hrest.le)
    refine ⟨hc, hlo ▸ hlt, hd, ?_⟩
    rw [hlo]
    refine hrest.congr ?_
    intro j hj
    exact hstop j (Nat.le_trans (Nat.le_of_lt hlt) hj)

/-- What a row says of one of its members. -/
theorem Row.getElem? : ∀ {cs : List Nat} {index lo j c : Nat}, Row nodes stop p hi index lo cs → cs[j]? = some c →
    lo ≤ c ∧ c < stop c ∧ stop c ≤ hi ∧
      (∃ d, nodes[c]? = some d ∧ d.parent = some p ∧ d.siblingIndex = index + j) ∧
      ((cs[j + 1]? = some (stop c) ∧ stop c < hi) ∨ cs[j + 1]? = none ∧ stop c = hi)
  | x :: cs, index, lo, 0, c, ⟨hx, hlt, hd, hrest⟩, hc => by
    obtain rfl : x = c := Option.some.inj hc
    subst hx
    refine ⟨.refl, hlt, hrest.le, hd, ?_⟩
    match cs, hrest with
    | [], hend => exact .inr ⟨rfl, hend⟩
    | y :: cs, ⟨hy, hlt', _, hrest'⟩ =>
      exact .inl ⟨congrArg some hy, Nat.lt_of_lt_of_le hlt' hrest'.le⟩
  | x :: cs, index, lo, j + 1, c, ⟨hx, hlt, hd, hrest⟩, hc => by
    obtain ⟨hlo, hlt', hhi, ⟨d, hd', hp, hi⟩, hnext⟩ := hrest.getElem? hc
    exact ⟨Nat.le_trans (Nat.le_of_lt hlt) hlo, hlt', hhi, ⟨d, hd', hp, by omega⟩, hnext⟩

end

/-! ## Flattening a fragment -/

theorem length_attributeNodes (scopes : List (List NamespaceDecl)) (owner : Nat) :
    ∀ (k : Nat) (as : List AttributeDecl), (attributeNodes scopes owner k as).length = as.length
  | _, [] => rfl
  | k, _ :: as => congrArg (· + 1) (length_attributeNodes scopes owner (k + 1) as)

theorem getElem?_attributeNodes (scopes : List (List NamespaceDecl)) (owner : Nat) :
    ∀ (k : Nat) (as : List AttributeDecl) (j : Nat) (a : AttributeDecl), as[j]? = some a →
      ∃ d, (attributeNodes scopes owner k as)[j]? = some d ∧ d.IsAttributeOf owner (k + j) ∧
        d.name = some (resolveAttributeName scopes a.name) ∧ d.value = a.value
  | _, _ :: _, 0, _, rfl => ⟨_, rfl, ⟨rfl, rfl, rfl, rfl, rfl⟩, rfl, rfl⟩
  | k, _ :: as, j + 1, a, h => by
    obtain ⟨d, hd, hof, hdata⟩ := getElem?_attributeNodes scopes owner (k + 1) as j a h
    rw [Nat.add_right_comm, Nat.add_assoc] at hof
    exact ⟨d, hd, hof, hdata⟩

namespace Fragment

/-- The entry of a fragment at a place, before its children are known. -/
def entry (f : Fragment) (scopes : List (List NamespaceDecl)) (parent : Option Nat) (index here : Nat) : NodeData :=
  { kind := f.kind, name := f.resolvedName scopes, value := f.value, parent := parent,
    siblingIndex := index, children := #[],
    attributes := (List.range f.attributes.length).toArray.map (here + 1 + ·),
    namespaces := f.namespaces }

/-- The entry of a fragment and its attributes, appended. -/
def opened (f : Fragment) (scopes : List (List NamespaceDecl)) (parent : Option Nat) (index : Nat)
    (nodes : Array NodeData) : Array NodeData :=
  nodes.push (f.entry scopes parent index nodes.size) ++
    attributeNodes scopes nodes.size 0 f.attributes

section

variable (f : Fragment) (scopes : List (List NamespaceDecl)) (parent : Option Nat) (index : Nat)
  (nodes : Array NodeData)

theorem toList_opened : (f.opened scopes parent index nodes).toList =
    nodes.toList ++ f.entry scopes parent index nodes.size ::
      attributeNodes scopes nodes.size 0 f.attributes := by
  simp [opened]

theorem size_opened : (f.opened scopes parent index nodes).size = nodes.size + 1 + f.attributes.length := by
  rw [← length_toList, toList_opened, length_append, length_cons, length_attributeNodes,
    length_toList]
  omega

theorem getElem?_opened_lt (h : i < nodes.size) : (f.opened scopes parent index nodes)[i]? = nodes[i]? := by
  rw [← Array.getElem?_toList, toList_opened, List.getElem?_append_left (by simpa using h),
    getElem?_toList]

theorem getElem?_opened_size :
    (f.opened scopes parent index nodes)[nodes.size]? = some (f.entry scopes parent index nodes.size) := by
  rw [← Array.getElem?_toList, toList_opened, List.getElem?_append_right (by simp), Array.length_toList,
    Nat.sub_self]
  rfl

theorem getElem?_opened_attribute (ha : f.attributes[j]? = some a) :
    ∃ d, (f.opened scopes parent index nodes)[nodes.size + 1 + j]? = some d ∧ d.IsAttributeOf nodes.size j ∧
      d.name = some (resolveAttributeName scopes a.name) ∧ d.value = a.value := by
  obtain ⟨d, hd, hof, hdata⟩ := getElem?_attributeNodes scopes nodes.size 0 f.attributes j a ha
  refine ⟨d, ?_, Nat.zero_add j ▸ hof, hdata⟩
  have hj : nodes.size + 1 + j - nodes.toList.length = j + 1 := by
    rw [length_toList]
    omega
  rw [← Array.getElem?_toList, toList_opened, List.getElem?_append_right (by rw [Array.length_toList]; omega),
    hj]
  exact hd

/-- What is below a fragment has been appended, too; with the places of its children. -/
def filled : Array NodeData × Array Nat :=
  flattenAll (f.namespaces :: scopes) nodes.size 0 f.content
    (f.opened (f.namespaces :: scopes) parent index nodes) #[]

theorem flatten_eq :
    f.flatten scopes parent index nodes = (f.filled scopes parent index nodes).1.modify nodes.size fun d =>
      { d with children := (f.filled scopes parent index nodes).2 } := by
  have hleaf : (f.opened (f.namespaces :: scopes) parent index nodes).modify nodes.size
      (fun d => { d with children := #[] }) = f.opened (f.namespaces :: scopes) parent index nodes := by
    refine ext_getElem? fun i => ?_
    rw [Array.getElem?_modify]
    split
    · next hi =>
      subst hi
      rw [getElem?_opened_size]
      rfl
    · rfl
  cases f with
  | document ns as children | element q ns as children => unfold flatten; rfl
  | _ =>
    exact hleaf.symm

end

end Fragment

/-! ## Stretches of a fragment -/

structure Lengthened (before after : Array NodeData) : Prop where
  size : before.size ≤ after.size
  kept : ∀ i, i < before.size → after[i]? = before[i]?

theorem Lengthened.trans (hab : Lengthened a b) (hbc : Lengthened b c) : Lengthened a c := by
  refine ⟨Nat.le_trans hab.size hbc.size, ?_⟩
  intro i hi
  rw [hbc.kept i (Nat.lt_of_lt_of_le hi hab.size), hab.kept i hi]

def AgreeOn (lo hi : Nat) (a b : Array NodeData) : Prop :=
  ∀ i, lo ≤ i → i < hi → a[i]? = b[i]?

/-- The entries from `lo` to `hi` are laid out in stretches, and all but the top ones hang from others. -/
def Spread (nodes : Array NodeData) (stop : Nat → Nat) (lo hi : Nat) (tops : List Nat) : Prop :=
  ∀ i, lo ≤ i → i < hi → ∃ d, nodes[i]? = some d ∧ stop i ≤ hi ∧ Stretch nodes stop i d ∧
    (i ∈ tops ∨ Hangs nodes i d)

/-- One stretch has been appended, which holds the fragment. The children of its parent need not be known yet, so
what is said holds of all arrays that agree on the stretch. -/
def LaysOne (scopes : List (List NamespaceDecl)) (f : Fragment) (parent : Option Nat) (index : Nat)
    (before after : Array NodeData) : Prop :=
  Lengthened before after ∧ before.size < after.size ∧
    ∃ stop : Nat → Nat, stop before.size = after.size ∧
      ∀ nodes, AgreeOn before.size after.size nodes after →
        (∃ d, nodes[before.size]? = some d ∧ d.parent = parent ∧ d.siblingIndex = index ∧
          d.kind = f.kind) ∧
        f.StoredAt nodes scopes before.size ∧ Spread nodes stop before.size after.size [before.size]

def LaysRow (scopes : List (List NamespaceDecl)) (fs : List Fragment) (p index : Nat)
    (before after : Array NodeData) (places : List Nat) : Prop :=
  Lengthened before after ∧
    ∃ stop : Nat → Nat, ∀ nodes, AgreeOn before.size after.size nodes after →
      Row nodes stop p after.size index before.size places ∧
      List.Forall₂ (Fragment.StoredAt nodes scopes) fs places ∧ Spread nodes stop before.size after.size places

theorem Stretch.congr
    (h : Stretch nodes stop i d) (hle : stop i ≤ hi) (hstop : ∀ j, i ≤ j → j < hi → stop' j = stop j) :
    Stretch nodes stop' i d := by
  have hlt : i < stop i := by
    have := h.children.le
    omega
  have hi : stop' i = stop i := hstop i .refl (by omega)
  refine ⟨h.attributes, ?_, ?_⟩
  · rw [hi]
    refine h.children.congr ?_
    intro j hj hj'
    exact hstop j (by omega) (by omega)
  · intro j hj hj'
    rw [hi] at hj' ⊢
    rw [hstop j (by omega) (by omega)]
    exact h.nested j hj hj'

theorem exists_glued (f g : Nat → Nat) (m : Nat) : ∃ h : Nat → Nat, (∀ j, j < m → h j = f j) ∧ ∀ j, m ≤ j → h j = g j :=
  ⟨fun j => if j < m then f j else g j, fun _ hj => if_pos hj, fun _ hj => if_neg (Nat.not_lt.mpr hj)⟩

section

variable {scopes : List (List NamespaceDecl)} {f : Fragment} {fs : List Fragment} {parent : Option Nat}
  {p index : Nat}

theorem LaysRow.nil (nodes : Array NodeData) : LaysRow scopes [] p index nodes nodes [] :=
  ⟨⟨.refl, fun _ _ => rfl⟩, id, fun _ _ => ⟨rfl, .nil, fun _ hlo hhi => absurd hhi (Nat.not_lt.mpr hlo)⟩⟩

theorem LaysRow.cons {before mid after : Array NodeData} (hone : LaysOne scopes f (some p) index before mid)
    (hrow : LaysRow scopes fs p (index + 1) mid after places) :
    LaysRow scopes (f :: fs) p index before after (before.size :: places) := by
  obtain ⟨happ, hlt, stop₁, htop, hone⟩ := hone
  obtain ⟨happ', stop₂, hrow⟩ := hrow
  obtain ⟨stop, hfirst, hrest⟩ := exists_glued stop₁ stop₂ mid.size
  refine ⟨happ.trans happ', stop, ?_⟩
  intro nodes hagree
  have hmid : AgreeOn before.size mid.size nodes mid := by
    intro i hlo hhi
    rw [hagree i hlo (Nat.lt_of_lt_of_le hhi happ'.size), happ'.kept i hhi]
  obtain ⟨⟨d, hd, hparent, hindex, -⟩, hstored, hspread⟩ := hone nodes hmid
  obtain ⟨hrow, hstored', hspread'⟩ := hrow nodes fun i hlo => hagree i (Nat.le_trans happ.size hlo)
  have htop' : stop before.size = mid.size := (hfirst _ hlt).trans htop
  refine ⟨?_, .cons hstored hstored', ?_⟩
  · refine ⟨rfl, htop' ▸ hlt, ⟨d, hd, hparent, hindex⟩, ?_⟩
    rw [htop']
    exact hrow.congr fun j hj _ => hrest j hj
  · intro i hlo hhi
    by_cases hi : i < mid.size
    · obtain ⟨e, he, hle, hstretch, hhangs⟩ := hspread i hlo hi
      refine ⟨e, he, ?_, hstretch.congr hle fun j _ hj => hfirst j hj, hhangs.imp_left ?_⟩
      · rw [hfirst i hi]
        exact Nat.le_trans hle happ'.size
      · intro hmem
        rw [mem_singleton.mp hmem]
        exact .head _
    · have hi := Nat.not_lt.mp hi
      obtain ⟨e, he, hle, hstretch, hhangs⟩ := hspread' i hi hhi
      refine ⟨e, he, hrest i hi ▸ hle, hstretch.congr hle fun j hj _ => hrest j (Nat.le_trans hi hj),
        hhangs.imp_left (.tail _)⟩

/-- A fragment's entry and attributes, then the stretches of its children. The children are entered into
the entry in the end. -/
theorem LaysRow.one {inner : List (List NamespaceDecl)} (hinner : inner = f.namespaces :: scopes)
    (hrow : LaysRow inner f.content nodes.size 0 (f.opened inner parent index nodes) full places.toList) :
    LaysOne scopes f parent index nodes (full.modify nodes.size fun d => { d with children := places }) := by
  obtain ⟨happ, below, hrow⟩ := hrow
  have hsize := f.size_opened inner parent index nodes
  have hle := happ.size
  have hself : full[nodes.size]? = some (f.entry inner parent index nodes.size) := by
    rw [happ.kept _ (by omega), f.getElem?_opened_size]
  obtain ⟨front, hhere, hattributes⟩ :=
    exists_glued (fun _ => full.size) (· + 1) (nodes.size + 1)
  obtain ⟨stop, hfront, hbelow⟩ := exists_glued front below (nodes.size + 1 + f.attributes.length)
  have hstop : stop nodes.size = full.size := by
    rw [hfront _ (by omega), hhere _ (by omega)]
  unfold LaysOne
  rw [size_modify]
  refine ⟨⟨by rw [size_modify]; omega, ?_⟩, by omega, stop, hstop, ?_⟩
  · intro i hi
    rw [Array.getElem?_modify, if_neg (by omega), happ.kept i (by omega), f.getElem?_opened_lt _ _ _ _ hi]
  · intro final hagree
    have hothers : ∀ i, nodes.size < i → i < full.size → final[i]? = full[i]? := by
      intro i hlo hhi
      rw [hagree i (by omega) hhi, Array.getElem?_modify, if_neg (by omega)]
    have hnode : final[nodes.size]? =
        some { f.entry inner parent index nodes.size with children := places } := by
      rw [hagree _ .refl (by omega), Array.getElem?_modify, if_pos rfl, hself]
      rfl
    have hattribute : ∀ {j a}, f.attributes[j]? = some a →
        ∃ d, final[nodes.size + 1 + j]? = some d ∧ d.IsAttributeOf nodes.size j ∧
          d.name = some (resolveAttributeName inner a.name) ∧ d.value = a.value := by
      intro j a ha
      have hj := (List.getElem?_eq_some_iff.mp ha).1
      obtain ⟨d, hd, hdata⟩ := f.getElem?_opened_attribute inner parent index nodes ha
      exact ⟨d, by rw [hothers _ (by omega) (by omega), happ.kept _ (by omega), hd], hdata⟩
    obtain ⟨hrow, hstored, hspread⟩ := hrow final fun i hlo hhi => hothers i (by omega) hhi
    rw [hsize] at hrow hspread
    have hcount : (f.entry inner parent index nodes.size).attributes.size = f.attributes.length := by
      simp [Fragment.entry]
    have hplace : ∀ j, j < f.attributes.length →
        (f.entry inner parent index nodes.size).attributes[j]? = some (nodes.size + 1 + j) := by
      intro j hj
      simp [Fragment.entry, hj]
    have hend : ∀ j, nodes.size + 1 ≤ j → j < nodes.size + 1 + f.attributes.length → stop j = j + 1 := by
      intro j hj hj'
      rw [hfront j hj', hattributes j hj]
    refine ⟨⟨_, hnode, rfl, rfl, rfl⟩, ?_, ?_⟩
    · subst hinner
      refine .mk hnode rfl rfl rfl rfl hcount ?_ hstored.length_eq.symm ?_
      · intro k a j ha hj
        cases (hplace k (List.getElem?_eq_some_iff.mp ha).1).symm.trans hj
        obtain ⟨d, hd, hof, hdata⟩ := hattribute ha
        exact ⟨d, hd, hof.kind, hdata⟩
      · intro k g c hg hc
        obtain ⟨hk, rfl⟩ := List.getElem?_eq_some_iff.mp hg
        obtain ⟨hk', rfl⟩ := Array.getElem?_eq_some_iff.mp hc
        exact hstored.get hk hk'
    intro i hlo hhi
    rcases Nat.lt_or_ge i (nodes.size + 1) with hi | hi
    · obtain rfl : i = nodes.size := by omega
      refine ⟨_, hnode, Nat.le_of_eq hstop, ⟨?_, ?_, ?_⟩, .inl (.head _)⟩
      · intro j a ha
        have hj : j < f.attributes.length := by
          rw [← hcount]
          exact (Array.getElem?_eq_some_iff.mp ha).1
        cases (hplace j hj).symm.trans ha
        obtain ⟨e, he, hof, -⟩ := hattribute (getElem?_eq_getElem hj)
        exact ⟨rfl, e, he, hof⟩
      · rw [hstop]
        exact hcount ▸ hrow.congr fun j hj _ => hbelow j hj
      · intro j hj hj'
        rw [hstop] at hj' ⊢
        rcases Nat.lt_or_ge j (nodes.size + 1 + f.attributes.length) with hj'' | hj''
        · rw [hend j hj hj'']
          exact hj'
        · obtain ⟨-, -, hle, -⟩ := hspread j hj'' hj'
          rw [hbelow j hj'']
          exact hle
    rcases Nat.lt_or_ge i (nodes.size + 1 + f.attributes.length) with hi' | hi'
    · obtain ⟨j, rfl⟩ := Nat.exists_eq_add_of_le hi
      have hj : j < f.attributes.length := by omega
      obtain ⟨a, ha, hof, -⟩ := hattribute (getElem?_eq_getElem hj)
      have hend := hend _ hi hi'
      refine ⟨a, ha, by omega, ⟨?_, ?_, fun k hk hk' => by omega⟩,
        .inr ⟨nodes.size, _, hof.parent, hnode, by omega, .inl ⟨hof.siblingIndex ▸ hof, ?_⟩⟩⟩
      · intro k b hb
        rw [hof.attributes] at hb
        cases hb
      · rw [hof.children, hof.attributes]
        exact hend.symm
      · rw [hof.siblingIndex]
        exact hplace j hj
    · obtain ⟨d, hd, hend, hstretch, htop⟩ := hspread i hi' hhi
      refine ⟨d, hd, hbelow i hi' ▸ hend, hstretch.congr hend fun j hj _ => hbelow j (by omega), .inr ?_⟩
      rcases htop with hmem | hheld
      · obtain ⟨j, hj⟩ := getElem?_of_mem hmem
        obtain ⟨-, -, -, ⟨e, he, hparent, hindex⟩, -⟩ := hrow.getElem? hj
        cases hd.symm.trans he
        refine ⟨nodes.size, _, hparent, hnode, by omega, .inr ?_⟩
        rw [hindex, Nat.zero_add]
        exact getElem?_toList ▸ hj
      · exact hheld

end

namespace Fragment

theorem laysOne_flatten_of_row (h : ∃ more, (f.filled scopes parent index nodes).2.toList = [] ++ more ∧
      LaysRow (f.namespaces :: scopes) f.content nodes.size 0
        (f.opened (f.namespaces :: scopes) parent index nodes) (f.filled scopes parent index nodes).1 more) :
    LaysOne scopes f parent index nodes (f.flatten scopes parent index nodes) := by
  obtain ⟨more, hmore, hrow⟩ := h
  rw [nil_append] at hmore
  rw [flatten_eq]
  exact LaysRow.one rfl (hmore ▸ hrow)

mutual

theorem laysOne_flatten : ∀ (f : Fragment) (scopes : List (List NamespaceDecl)) (parent : Option Nat)
    (index : Nat) (nodes : Array NodeData),
    LaysOne scopes f parent index nodes (f.flatten scopes parent index nodes)
  | .document _ _ children, _, _, _, _ | .element _ _ _ children, _, _, _, _ =>
    laysOne_flatten_of_row (laysRow_flattenAll children _ _ _ _ _)
  | .attribute _, _, _, _, _ | .text _, _, _, _, _ | .comment _, _, _, _, _ | .instruction _ _, _, _, _, _ =>
    laysOne_flatten_of_row ⟨[], rfl, .nil _⟩

theorem laysRow_flattenAll : ∀ (fs : List Fragment) (scopes : List (List NamespaceDecl)) (p index : Nat)
    (nodes : Array NodeData) (places : Array Nat),
    ∃ more, (flattenAll scopes p index fs nodes places).2.toList = places.toList ++ more ∧
      LaysRow scopes fs p index nodes (flattenAll scopes p index fs nodes places).1 more
  | [], _, _, _, nodes, _ => ⟨[], (append_nil _).symm, .nil nodes⟩
  | f :: fs, scopes, p, index, nodes, places => by
    obtain ⟨more, hmore, hrow⟩ := laysRow_flattenAll fs scopes p (index + 1)
      (f.flatten scopes (some p) index nodes) (places.push nodes.size)
    refine ⟨nodes.size :: more, ?_, .cons (laysOne_flatten f scopes (some p) index nodes) hrow⟩
    rw [flattenAll, hmore, Array.toList_push, List.append_assoc]
    rfl

end

end Fragment

theorem Fragment.size_flatten_attribute {f : Fragment} (h : f.kind.isAttributeLike = true) :
    (f.flatten [] none 0 #[]).size = 1 := by
  cases f with
  | «attribute» a =>
    rw [flatten_eq, size_modify]
    exact size_opened _ _ _ _ _
  | _ => cases h

/-- A built document is laid out in stretches, and the first entry holds the fragment. -/
theorem Document.exists_layout_build (id : Nat) (f : Fragment) :
    ∃ stop, Layout (.build id f) stop ∧ f.StoredAt (build id f).nodes [] 0 := by
  obtain ⟨-, -, stop, hstop, hlays⟩ := f.laysOne_flatten [] none 0 #[]
  obtain ⟨⟨d, hd, hparent, -⟩, hstored, hspread⟩ := hlays (f.flatten [] none 0 #[]) fun _ _ _ => rfl
  have hentry : ∀ i e, (f.flatten [] none 0 #[])[i]? = some e →
      Stretch (f.flatten [] none 0 #[]) stop i e ∧
        (i ∈ [0] ∨ Hangs (f.flatten [] none 0 #[]) i e) := by
    intro i e he
    obtain ⟨e', he', -, hstretch, htop⟩ :=
      hspread i (Nat.zero_le i) (Array.getElem?_eq_some_iff.mp he).1
    cases he'.symm.trans he
    exact ⟨hstretch, htop⟩
  refine ⟨stop, ⟨fun i e he => (hentry i e he).1, ?_, ?_, hstop⟩, hstored⟩
  · intro i e he hi
    rcases (hentry i e he).2 with hmem | hheld
    · exact absurd (mem_singleton.mp hmem) (Nat.ne_of_gt hi)
    · exact hheld
  · intro e he
    cases hd.symm.trans he
    exact hparent

theorem Document.exists_arena_build (id : Nat) {f : Fragment} (hf : f.isProper = true) :
    ∃ stop, Arena (.build id f) stop := by
  obtain ⟨stop, hlayout, hstored⟩ := exists_layout_build id f
  refine ⟨stop, hlayout, ?_, ?_⟩
  · intro p d j c hd hc
    rcases hlayout.induct (P := fun _ g _ => g.isProper = true) hstored hf
      (fun _ g g' _ _ _ _ _ hg _ _ hcontent _ _ _ => (g.isProper_content hg
        (mem_of_getElem? hcontent)).2) p hd with
      ⟨-, hnone⟩ | ⟨scopes, g, hstored, hg⟩
    · rw [hnone] at hc
      cases hc
    · obtain ⟨hentry, -, -, -, -, -, -, hcount, hbelow⟩ := hstored
      cases hentry.symm.trans hd
      have hj := (Array.getElem?_eq_some_iff.mp hc).1
      have hcontent := List.getElem?_eq_getElem (hcount ▸ hj)
      obtain ⟨he, hkind, -⟩ := hbelow _ _ c hcontent hc
      exact ⟨_, he, hkind ▸ Fragment.isAttributeLike_kind (g.isProper_content hg (mem_of_getElem? hcontent)).1⟩
  · intro d hd halone
    obtain ⟨hentry, hkind, -⟩ := hstored
    cases hentry.symm.trans hd
    exact Fragment.size_flatten_attribute (hkind ▸ halone)

end XPath
