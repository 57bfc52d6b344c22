import XPath.Proofs.AxisCursor
import XPath.Proofs.PreOrder

/-!
# Namespaces in scope

A prefix is looked up in two ways. While a document is built it is looked up in the stack of declarations
that are open (`Fragment.openAt`); afterwards `Document.inScope` walks up from an element. Both take the
nearest declaration of a prefix, and none if that one takes the prefix back, so the name of an element is in
the namespace that its namespace axis shows.
-/

namespace XPath

open List Option

variable {d : NamespaceDecl} {scopes : List (List NamespaceDecl)} {doc : Document} {stop : Nat → Nat} {i : Nat}

/-! ## Collecting declarations -/

namespace Document

theorem addDecls_append : ∀ (as bs : List NamespaceDecl) (seen : List String) (found : List NamespaceDecl),
    addDecls (as ++ bs) seen found = addDecls bs (addDecls as seen found).1 (addDecls as seen found).2
  | [], _, _, _ => rfl
  | a :: as, bs, seen, found => by
    simp only [cons_append, addDecls]
    split
    · exact addDecls_append as bs _ _
    · exact addDecls_append as bs _ _

theorem mem_addDecls_seen {x : String} : ∀ {ds : List NamespaceDecl} {seen : List String}
    {found : List NamespaceDecl}, x ∈ (addDecls ds seen found).1 ↔ x ∈ seen ∨ ∃ d ∈ ds, d.nsPrefix = x
  | [], _, _ => by simp [addDecls]
  | d :: ds, seen, found => by
    rw [addDecls]
    split
    · rw [mem_addDecls_seen]
      grind
    · rw [mem_addDecls_seen]
      grind

/-- A declaration is collected if it is the first one of its prefix, the prefix is new, and there is a URI. -/
theorem mem_addDecls : ∀ {ds : List NamespaceDecl} {seen : List String} {found : List NamespaceDecl},
    d ∈ (addDecls ds seen found).2 ↔ d ∈ found ∨
      d.nsPrefix ∉ seen ∧ ds.find? (·.nsPrefix == d.nsPrefix) = some d ∧ d.uri.isEmpty = false
  | [], _, _ => by simp [addDecls]
  | a :: ds, seen, found => by
    rw [addDecls, find?_cons]
    split
    · next hseen =>
      rw [mem_addDecls]
      split <;> grind
    · next hseen =>
      rw [mem_addDecls]
      split <;> grind

theorem nodup_addDecls : ∀ {ds : List NamespaceDecl} {seen : List String} {found : List NamespaceDecl},
    (∀ d ∈ found, d.nsPrefix ∈ seen) → (found.map (·.nsPrefix)).Nodup →
    ((addDecls ds seen found).2.map (·.nsPrefix)).Nodup
  | [], _, _, _, h => h
  | a :: ds, seen, found, hfound, h => by
    rw [addDecls]
    split
    · exact nodup_addDecls hfound h
    · next hseen =>
      refine nodup_addDecls ?_ ?_
      · grind
      · split
        · exact h
        · rw [map_append, nodup_append]
          grind

/-- The declarations on the way from an entry up to the root, innermost first. -/
inductive ScopesUp (doc : Document) : Option Nat → List (List NamespaceDecl) → Prop
  | top : ScopesUp doc none []
  | entry {i : Nat} {d : NodeData} {scopes : List (List NamespaceDecl)} (hd : doc.nodes[i]? = some d)
      (above : ScopesUp doc d.parent scopes) : ScopesUp doc (some i) (d.namespaces :: scopes)

theorem declsUp_eq (h : Layout doc stop) {o : Option Nat} (hs : doc.ScopesUp o scopes) :
    ∀ {fuel : Nat} (seen : List String) (found : List NamespaceDecl), (∀ i, o = some i → i < fuel) →
      doc.declsUp fuel o seen found = addDecls scopes.flatten seen found := by
  induction hs with
  | top =>
    intro fuel seen found _
    cases fuel <;> rfl
  | @entry i d scopes hd above ih =>
    intro fuel seen found hfuel
    obtain ⟨fuel, rfl⟩ := Nat.exists_eq_add_one_of_ne_zero (Nat.ne_of_gt (Nat.zero_lt_of_lt (hfuel i rfl)))
    simp only [declsUp, hd, flatten_cons, addDecls_append]
    refine ih _ _ fun p hp => ?_
    have := h.parent_lt hd hp
    have := hfuel i rfl
    omega

/-- The namespaces in scope are the first declarations of their prefixes, those without a URI left out. -/
theorem inScope_spec (h : Layout doc stop) (hi : i < doc.size) (hs : doc.ScopesUp (some i) scopes) :
    ((doc.inScope i).map (·.nsPrefix)).Nodup ∧ ∀ d : NamespaceDecl, d.nsPrefix ≠ "xml" →
      (d ∈ doc.inScope i ↔
        scopes.flatten.find? (·.nsPrefix == d.nsPrefix) = some d ∧ d.uri.isEmpty = false) := by
  have hups : doc.declsUp doc.size (some i) [] [] = addDecls scopes.flatten [] [] :=
    declsUp_eq h hs [] [] fun k hk => some.inj hk ▸ hi
  have hnodup : ((addDecls scopes.flatten [] []).2.map (·.nsPrefix)).Nodup :=
    nodup_addDecls nofun .nil
  simp only [inScope, hups]
  split
  · refine ⟨hnodup, fun d _ => ?_⟩
    rw [mem_addDecls]
    grind
  · next hxml =>
    refine ⟨?_, fun d hd => ?_⟩
    · rw [map_append, nodup_append]
      refine ⟨hnodup, nodup_singleton _, ?_⟩
      grind [mem_addDecls, mem_addDecls_seen]
    · rw [mem_append, mem_addDecls]
      grind

/-- No declaration takes the reserved prefix back. -/
def KeepsReserved (doc : Document) : Prop :=
  ∀ (i : Nat) (e : NodeData), doc.nodes[i]? = some e →
    ∀ d ∈ e.namespaces, d.nsPrefix = "xml" → d.uri.isEmpty = false

theorem KeepsReserved.of_scopesUp (hk : doc.KeepsReserved) {o : Option Nat} (hs : doc.ScopesUp o scopes) :
    ∀ d ∈ scopes.flatten, d.nsPrefix = "xml" → d.uri.isEmpty = false := by
  induction hs with
  | top => exact nofun
  | entry hd above ih =>
    intro d hmem
    rcases mem_append.mp hmem with h | h
    · exact hk _ _ hd d h
    · exact ih d h

theorem exists_scopesUp (h : Layout doc stop) (i : Nat) : i < doc.size → ∃ scopes, doc.ScopesUp (some i) scopes := by
  induction i using Nat.strongRecOn with
  | ind i ih =>
    intro hi
    have hd := Array.getElem?_eq_getElem (show i < doc.nodes.size from hi)
    have habove : ∃ scopes, doc.ScopesUp doc.nodes[i].parent scopes := by
      cases hp : doc.nodes[i].parent with
      | none => exact ⟨[], .top⟩
      | some p =>
        have hlt := h.parent_lt hd hp
        exact ih p hlt (Nat.lt_trans hlt hi)
    obtain ⟨scopes, hs⟩ := habove
    exact ⟨_, .entry hd hs⟩

/-- Unless the reserved prefix is taken back, some namespace is in scope everywhere. -/
theorem inScope_ne_nil (h : Layout doc stop) (hk : doc.KeepsReserved) (hi : i < doc.size) : doc.inScope i ≠ [] := by
  obtain ⟨scopes, hs⟩ := exists_scopesUp h i hi
  have hups : doc.declsUp doc.size (some i) [] [] = addDecls scopes.flatten [] [] :=
    declsUp_eq h hs [] [] fun k hk => some.inj hk ▸ hi
  simp only [inScope, hups]
  split
  · next hxml =>
    obtain hnil | ⟨d, hd, hxml⟩ := mem_addDecls_seen.mp hxml
    · cases hnil
    · cases hfind : scopes.flatten.find? (·.nsPrefix == "xml") with
      | none => exact absurd (beq_iff_eq.mpr hxml) (find?_eq_none.mp hfind d hd)
      | some e =>
        have he : e.nsPrefix = "xml" := by simpa using find?_some hfind
        refine ne_nil_of_mem (mem_addDecls.mpr (.inr ⟨not_mem_nil, he ▸ hfind, ?_⟩))
        exact hk.of_scopesUp hs e (mem_of_find?_eq_some hfind) he
  · simp

end Document

/-! ## Open declarations -/

/-- The fragment that child numbers lead to, with the declarations that are open there, innermost first. -/
def Fragment.openAt : List (List NamespaceDecl) → Fragment → List Nat → Option (Fragment × List (List NamespaceDecl))
  | scopes, f, [] => some (f, f.namespaces :: scopes)
  | scopes, f, k :: ks => f.content[k]?.bind fun g => openAt (f.namespaces :: scopes) g ks

theorem Fragment.openAt_concat {g g' : Fragment} {k : Nat} (hg : g.content[k]? = some g') :
    ∀ {ks : List Nat} {scopes open' : List (List NamespaceDecl)} {f : Fragment},
      openAt scopes f ks = some (g, open') → openAt scopes f (ks ++ [k]) = some (g', g'.namespaces :: open')
  | [], scopes, open', f, h => by
    obtain ⟨rfl, rfl⟩ := Prod.mk.inj (some.inj h)
    simp [openAt, hg]
  | j :: ks, scopes, open', f, h => by
    obtain ⟨f', hf', h⟩ := bind_eq_some_iff.mp h
    rw [cons_append, openAt, hf']
    exact openAt_concat hg h

/-- Every entry but an attribute stands for a fragment on some way down, and the declarations open there are those
above the entry. -/
theorem Document.exists_openAt {id : Nat} {f : Fragment} (h : Layout (build id f) stop)
    (hf : f.StoredAt (build id f).nodes [] 0) {e : NodeData} (he : (build id f).nodes[i]? = some e)
    (hkind : e.kind ≠ .attribute) : ∃ ks g scopes,
      g.StoredAt (build id f).nodes scopes i ∧ f.openAt [] ks = some (g, g.namespaces :: scopes) ∧
      (Node.rootOf (build id f)).follow? (ks.map .child) = some (.atEntry (build id f) i) ∧
      (build id f).ScopesUp (some i) (g.namespaces :: scopes) := by
  have hups : ∀ {scopes : List (List NamespaceDecl)} {g : Fragment} {c : Nat} {d : NodeData},
      g.StoredAt (build id f).nodes scopes c → (build id f).nodes[c]? = some d →
        (build id f).ScopesUp d.parent scopes → (build id f).ScopesUp (some c) (g.namespaces :: scopes) := by
    rintro scopes g c d ⟨hentry, -, -, -, hns, -⟩ hd habove
    cases hentry.symm.trans hd
    exact hns ▸ .entry hd habove
  refine (h.induct (P := fun scopes g i => ∃ ks, f.openAt [] ks = some (g, g.namespaces :: scopes) ∧
      (Node.rootOf (build id f)).follow? (ks.map .child) = some (.atEntry (build id f) i) ∧
      (build id f).ScopesUp (some i) (g.namespaces :: scopes)) hf ?_ ?_ i he).elim
    (fun hattr => absurd hattr.1 hkind) ?_
  · have hfirst := hf
    obtain ⟨hentry, -⟩ := hfirst
    exact ⟨[], rfl, rfl, hups hf hentry (h.root _ hentry ▸ .top)⟩
  · rintro scopes g g' p j c e d ⟨ks, hopen, hway, habove⟩ he hc hcontent hstored hd hparent
    refine ⟨ks ++ [j], Fragment.openAt_concat hcontent hopen, ?_, hups hstored hd (hparent ▸ habove)⟩
    have hdata : (Node.atEntry (build id f) p).data? = some e := he
    rw [map_append, map_singleton, Node.follow?_concat hway]
    simp only [Node.turn?, hdata, bind_some, hc]
    rfl
  · rintro ⟨scopes, g, hstored, ks, hopen, hway, habove⟩
    exact ⟨ks, g, scopes, hstored, hopen, hway, habove⟩

theorem resolvePrefix_eq_some_iff {p uri : String} (hp : p ≠ "xml") : resolvePrefix p scopes = some uri ↔
    scopes.flatten.find? (·.nsPrefix == p) = some ⟨p, uri⟩ ∧ uri.isEmpty = false := by
  unfold resolvePrefix
  rw [if_neg hp]
  cases hfind : scopes.flatten.find? (·.nsPrefix == p) with
  | none => simp
  | some d =>
    obtain ⟨q, u⟩ := d
    obtain rfl : q = p := by simpa using find?_some hfind
    grind

/-- The namespace nodes of an element, found by name. The one that is there without a declaration has no name. -/
theorem Document.find?_namespaces {nodes : List Node} {p : String} {o : Option String}
    (hnodes : ∀ m, m ∈ nodes ↔ ∃ j, m = ⟨doc, .namespaceOf i j⟩ ∧ (j = 0 ∨ j < (doc.inScope i).length))
    (ho : ∀ uri, ⟨p, uri⟩ ∈ doc.inScope i ↔ o = some uri) (hp : doc.inScope i ≠ [] ∨ p ≠ "") :
    (nodes.find? (·.localName = p)).map (·.value) = o := by
  cases hfind : nodes.find? (·.localName = p) with
  | some m =>
    have hlocal : m.localName = p := by simpa using find?_some hfind
    obtain ⟨j, rfl, hj⟩ := (hnodes m).mp (mem_of_find?_eq_some hfind)
    cases hd : (doc.inScope i)[j]? with
    | some d =>
      have hdecl : Node.declaration? ⟨doc, .namespaceOf i j⟩ = some d := hd
      simp only [Node.localName, hdecl, elim_some] at hlocal
      simp only [Node.value, hdecl, elim_some, map_some]
      exact ((ho d.uri).mp (hlocal ▸ mem_of_getElem? hd)).symm
    | none =>
      have hlength := getElem?_eq_none_iff.mp hd
      have hnil : doc.inScope i = [] := eq_nil_of_length_eq_zero (by omega)
      have hdecl : Node.declaration? ⟨doc, .namespaceOf i j⟩ = none := hd
      simp only [Node.localName, hdecl, elim_none] at hlocal
      exact absurd hlocal.symm (hp.resolve_left (not_not_intro hnil))
  | none =>
    cases o with
    | none => rfl
    | some uri =>
      obtain ⟨j, hj⟩ := getElem?_of_mem ((ho uri).mpr rfl)
      have hm : (⟨doc, .namespaceOf i j⟩ : Node) ∈ nodes :=
        (hnodes _).mpr ⟨j, rfl, .inr (List.getElem?_eq_some_iff.mp hj).1⟩
      have hdecl : Node.declaration? ⟨doc, .namespaceOf i j⟩ = some ⟨p, uri⟩ := hj
      have hnot := find?_eq_none.mp hfind _ hm
      simp [Node.localName, hdecl] at hnot

/-- The two ways to look up a prefix agree. Every element of a built document stands for an element of the
fragment, at the end of a way down. At most one declaration of a prefix is in scope there, and it is the one
that the declarations open on that way give. So the name of the element is in the namespace that its own
namespace axis has for the prefix, and in none if the axis has no such node. Only where no namespace at all is in
scope has the axis a node that stands for none, and it goes by the empty prefix. -/
theorem Document.inScope_agrees (id : Nat) (f : Fragment) (i : Nat)
    (hi : (Node.atEntry (build id f) i).kind = .element) :
    ∃ ks q ns as content scopes nodes,
      f.openAt [] ks = some (.element q ns as content, scopes) ∧
      (Node.rootOf (build id f)).follow? (ks.map .child) = some (.atEntry (build id f) i) ∧
      (((build id f).inScope i).map (·.nsPrefix)).Nodup ∧
      (∀ p uri, p ≠ "xml" → (⟨p, uri⟩ ∈ (build id f).inScope i ↔ resolvePrefix p scopes = some uri)) ∧
      (Walk.start .namespaces none (.atEntry (build id f) i)).Lists nodes ∧
      (Node.atEntry (build id f) i).name =
        some ⟨q.nsPrefix, q.localName, resolvePrefix (q.nsPrefix.getD "") scopes⟩ ∧
      (q.nsPrefix.getD "" ≠ "xml" → (build id f).inScope i ≠ [] ∨ q.nsPrefix.getD "" ≠ "" →
        (Node.atEntry (build id f) i).uri =
          (nodes.find? (·.localName = q.nsPrefix.getD "")).map (·.value)) := by
  obtain ⟨stop, hlayout, hfirst⟩ := exists_layout_build id f
  obtain ⟨e, he, -⟩ : (build id f).Content i := Node.isContent_atEntry.mp (by rw [Node.IsContent, hi]; rfl)
  have hkind : e.kind = .element := (Node.kind_atEntry he).symm.trans hi
  obtain ⟨ks, g, scopes, ⟨hentry, hstored, hname, -⟩, hopen, hway, hups⟩ :=
    exists_openAt hlayout hfirst he (by rw [hkind]; decide)
  cases hentry.symm.trans he
  cases g with
  | element q ns as content =>
    have hdata : (Node.atEntry (build id f) i).data? = some _ := he
    obtain ⟨hnodup, hscope⟩ := inScope_spec hlayout (Array.getElem?_eq_some_iff.mp he).1 hups
    have hmem : ∀ p uri, p ≠ "xml" →
        (⟨p, uri⟩ ∈ (build id f).inScope i ↔ resolvePrefix p (ns :: scopes) = some uri) := fun p uri hp =>
      (hscope ⟨p, uri⟩ hp).trans (resolvePrefix_eq_some_iff hp).symm
    obtain ⟨nodes, hlists, -, -, hnodes⟩ := @sweeps_firstNamespace (build id f) none i hi
    refine ⟨ks, q, ns, as, content, _, nodes, hopen, hway, hnodup, hmem, hlists, ?_, fun hp hsome => ?_⟩
    · simp [Node.name, hi, Node.nsPrefix, Node.localName,
        Node.uri, hdata, hname, Fragment.resolvedName, resolveElementName, Fragment.namespaces]
    · rw [find?_namespaces hnodes (fun uri => hmem _ uri hp) hsome]
      simp [Node.uri, hdata, hname, Fragment.resolvedName, resolveElementName, Fragment.namespaces]
  | _ => cases hkind.symm.trans hstored

/-- A prefix that is declared twice and taken back below, and a default namespace that is declared anew. -/
def Fragment.redeclared : Fragment :=
  .element (.prefixed "p" "r") [⟨"p", "urn:one"⟩, ⟨"p", "urn:two"⟩, ⟨"", "urn:outer"⟩] []
    [.element (.unprefixed "c") [⟨"p", ""⟩, ⟨"", "urn:inner"⟩] [] [.element (.prefixed "p" "g") [] [] []]]

theorem Document.inScope_agrees_redeclared :
    let n := Node.atEntry (build 0 .redeclared) 1
    n.kind = .element ∧ ∃ ks g scopes nodes, Fragment.redeclared.openAt [] ks = some (g, scopes) ∧
      (Node.rootOf (build 0 .redeclared)).follow? (ks.map .child) = some n ∧
      (∀ uri, ⟨"p", uri⟩ ∈ (build 0 .redeclared).inScope 1 ↔ resolvePrefix "p" scopes = some uri) ∧
      (Walk.start .namespaces none n).Lists nodes ∧ n.uri = some "urn:inner" ∧
      n.uri = (nodes.find? (·.localName = "")).map (·.value) := by
  intro n
  have hqname : n.name = some ⟨none, "c", some "urn:inner"⟩ := by decide
  obtain ⟨ks, q, ns, as, content, scopes, nodes, hopen, hway, -, hmem, hlists, hname, huri⟩ :=
    inScope_agrees 0 .redeclared 1 (by decide)
  have hq : q.nsPrefix = none := (QName.mk.inj (some.inj (hname.symm.trans hqname))).1
  rw [hq] at huri
  exact ⟨by decide, ks, _, scopes, nodes, hopen, hway, fun uri => hmem "p" uri (by decide), hlists, by decide,
    huri (by decide) (.inl (by decide))⟩

/-- An element in no namespace whose axis has a node for the empty prefix. -/
theorem Document.inScope_agrees_bareTree :
    let n := Node.rootOf .bareTree
    n.kind = .element ∧ n.name = some ⟨none, "r", none⟩ ∧ bareTree.inScope 0 = [] ∧
      ∃ nodes, (Walk.start .namespaces none n).Lists nodes ∧
        (nodes.find? (·.localName = "")).map (·.value) = some "" := by
  refine ⟨by decide, by decide, by decide, [⟨.bareTree, .namespaceOf 0 0⟩], ?_, by decide⟩
  exact .facing .ended (by decide)

end XPath
