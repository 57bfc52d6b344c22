import XPath.Proofs.AxisCursor
import XPath.Proofs.PreOrder

/-!
# String values

The string value of an element or a document is the text below it, collected level by level. It is what a
step along the descendant axis delivers for text, put together.
-/

namespace XPath

open List

variable {doc : Document} {stop : Nat → Nat} {i : Nat} {d : NodeData}

def Document.texts (doc : Document) (lo hi : Nat) : List Node :=
  ((range' lo (hi - lo)).map (Node.atEntry doc)).filter (·.kind = .text)

namespace Document

theorem texts_append {lo mid hi : Nat} (hlo : lo ≤ mid) (hhi : mid ≤ hi) :
    doc.texts lo hi = doc.texts lo mid ++ doc.texts mid hi := by
  obtain ⟨a, rfl⟩ := Nat.exists_eq_add_of_le hlo
  obtain ⟨b, rfl⟩ := Nat.exists_eq_add_of_le hhi
  unfold texts
  rw [Nat.add_sub_cancel_left, Nat.add_sub_cancel_left, Nat.add_assoc, Nat.add_sub_cancel_left,
    ← range'_append_1, map_append, filter_append]

theorem mem_texts {lo hi : Nat} {m : Node} :
    m ∈ doc.texts lo hi ↔ ∃ k, m = .atEntry doc k ∧ lo ≤ k ∧ k < hi ∧ m.kind = .text := by
  simp only [texts, mem_filter, mem_map, mem_range'_1, decide_eq_true_eq]
  constructor
  · rintro ⟨⟨k, hk, rfl⟩, hkind⟩
    exact ⟨k, rfl, by omega, by omega, hkind⟩
  · rintro ⟨k, rfl, hlo, hhi, hkind⟩
    exact ⟨⟨k, by omega, rfl⟩, hkind⟩

/-- The texts of an entry: its own, if it is one, and those of its children. -/
theorem texts_stretch (h : Arena doc stop) (hd : doc.nodes[i]? = some d) :
    doc.texts i (stop i) = (if d.kind = .text then [Node.atEntry doc i] else []) ++
      doc.texts (i + 1 + d.attributes.size) (stop i) := by
  have hattributes : doc.texts (i + 1) (i + 1 + d.attributes.size) = [] := by
    refine eq_nil_iff_forall_not_mem.mpr fun m hm => ?_
    obtain ⟨k, rfl, hlo, hhi, hkind⟩ := mem_texts.mp hm
    obtain ⟨e, he, hof⟩ := h.isAttribute_of_lt hd hlo hhi
    rw [Node.kind_atEntry he, hof.kind] at hkind
    cases hkind
  have hself : doc.texts i (i + 1) = if d.kind = .text then [Node.atEntry doc i] else [] := by
    simp [texts, filter_singleton, Node.kind_atEntry hd, Bool.cond_decide]
  rw [texts_append (Nat.le_succ i) (Nat.le_trans (Nat.le_add_right _ _) (h.lt_stop hd)), hself,
    texts_append (Nat.le_add_right _ _) (h.lt_stop hd), hattributes, nil_append]

/-- The text below an entry is that of the text nodes in its stretch. -/
theorem textBelow_eq (h : Arena doc stop) : ∀ {fuel i : Nat}, i < doc.size → doc.size ≤ i + fuel →
    doc.textBelow fuel i = String.join ((doc.texts i (stop i)).map (·.value))
  | 0, _, hi, hfuel => absurd hi (Nat.not_lt.mpr hfuel)
  | fuel + 1, i, hi, hfuel => by
    have hd := Array.getElem?_eq_getElem (show i < doc.nodes.size from hi)
    generalize doc.nodes[i] = d at hd
    -- the children's texts one after the other, by induction on the row
    have hrow : ∀ {cs : List Nat} {index lo : Nat} (acc : String), i < lo → stop i ≤ doc.size →
        Row doc.nodes stop i (stop i) index lo cs → cs.foldl (fun s c => s ++ doc.textBelow fuel c) acc =
          acc ++ String.join ((doc.texts lo (stop i)).map (·.value)) := by
      intro cs
      induction cs with
      | nil =>
        rintro index lo acc - - rfl
        simp [texts]
      | cons c cs ih =>
        rintro index lo acc hlo hsize ⟨rfl, hlt, -, hrest⟩
        have hle := hrest.le
        rw [foldl_cons, ih _ (by omega) hsize hrest, textBelow_eq h (by omega) (by omega),
          texts_append (Nat.le_of_lt hlt) hle, map_append, String.join_append, String.append_assoc]
    rw [textBelow, hd]
    dsimp only
    rw [← Array.foldl_toList, hrow _ (by omega) (h.stop_le hi) (h.stretch i d hd).children,
      texts_stretch h hd, map_append, String.join_append]
    have hdata : (Node.atEntry doc i).data? = some d := hd
    split
    · next hkind => simp [Node.value, hdata, hkind]
    · rfl

end Document

/-- The string value of an element or a document node is the text of the nodes that a step along the
descendant axis delivers for `text()`, in that order. -/
theorem Node.value_eq_descendantText (id : Nat) (f : Fragment) (hf : f.isProper = true) (i : Nat)
    (hi : (Node.atEntry (.build id f) i).kind = .element ∨ (Node.atEntry (.build id f) i).kind = .document)
    (keeper : Program → Variables) (k : Nat) (p : Program) (s : Store) :
    ∃ g, (machineWith keeper (k + 4) p).Reads
        (.along .descendant (.kind .text) (.ofItem (.node (.atEntry (.build id f) i)))) s
        (numbered 1 g) (.ok ()) ∧
      (Node.atEntry (.build id f) i).value = String.join (g.map (·.value)) := by
  obtain ⟨stop, harena⟩ := Document.exists_arena_build id hf
  have hcontent : (Document.build id f).Content i := by
    refine isContent_atEntry.mp ?_
    rcases hi with hi | hi <;> rw [IsContent, hi] <;> rfl
  have hwalkable : (Node.atEntry (.build id f) i).Walkable .descendant :=
    ⟨⟨id, f, hf, rfl⟩, hcontent.lt_size, by rintro ⟨⟩⟩
  obtain ⟨g, hg⟩ := hwalkable.exists_groupOf (.kind .text)
  have hsource : (machineWith keeper (k + 3) p).Reads (.ofItem (.node (.atEntry (.build id f) i))) s
      [(.node (.atEntry (.build id f) i), 1)] (.ok ()) := .item rfl .ended
  have hroom : 1 < (machineWith keeper (k + 3) p).fuel := by
    rw [fuel_machineWith]
    omega
  refine ⟨g, ?_, ?_⟩
  · rw [show numbered 1 g = numbered (0 + 1) [] ++ [g].flatMap (numbered 1) from (flatMap_singleton ..).symm]
    exact reading_axisNext hsource hroom (.cons hg .nil) (Walk.finds_ended _) hroom
  · have hself : (Document.build id f).texts i (i + 1) = [] := by
      refine eq_nil_iff_forall_not_mem.mpr fun m hm => ?_
      obtain ⟨k, rfl, hlo, hhi, hkind⟩ := Document.mem_texts.mp hm
      obtain rfl : k = i := by omega
      rcases hi with hi | hi <;> cases hi.symm.trans hkind
    have htexts : (Document.build id f).texts i (stop i) = g := by
      rw [Document.texts_append (Nat.le_succ i) (harena.lt_stop_self hcontent.lt_size), hself, nil_append]
      refine List.Pairwise.eq_of_mem_iff ?_ hg.ordered fun m => ?_
      · exact .filter _ (pairwise_map.mpr ((pairwise_lt_range' 1).imp compare_atEntry.mpr))
      · have haccepts : (NodeTest.kind .text).accepts m .element = true ↔ m.kind = .text := by
          simp [NodeTest.accepts, KindTest.accepts, KindTest.kind?]
        refine Document.mem_texts.trans (.trans ?_ (hg.mem_iff m).symm)
        refine .trans ?_ (and_congr harena.below_iff haccepts).symm
        constructor
        · rintro ⟨k, rfl, hlo, hhi, hkind⟩
          exact ⟨⟨k, rfl, hlo, hhi, isContent_atEntry.mp (by rw [IsContent, hkind]; rfl)⟩, hkind⟩
        · rintro ⟨⟨k, rfl, hlo, hhi, -⟩, hkind⟩
          exact ⟨k, rfl, hlo, hhi, hkind⟩
    rw [← htexts, ← Document.textBelow_eq harena hcontent.lt_size (Nat.le_add_left _ _)]
    obtain ⟨d, hd, -⟩ := hcontent
    have hdata : (Node.atEntry (.build id f) i).data? = some d := hd
    rw [kind_atEntry hd] at hi
    rcases hi with hi | hi <;> simp [value, hdata, hi]

/-- The text of both items; their attributes and the comment do not count. -/
theorem Node.value_eq_descendantText_notedList :
    notedList.isProper = true ∧ (Node.atEntry (.build 4 notedList) 0).value = "onetwo" ∧
      ∃ g, (machine 4 (.empty .standard)).Reads
          (.along .descendant (.kind .text) (.ofItem (.node (.atEntry (.build 4 notedList) 0))))
          (.ofSlots (.ofSize 0)) (numbered 1 g) (.ok ()) ∧
        "onetwo" = String.join (g.map (·.value)) := by
  have hvalue : (Node.atEntry (.build 4 notedList) 0).value = "onetwo" := by decide
  obtain ⟨g, hreads, hg⟩ := value_eq_descendantText 4 notedList (by decide) 0 (.inl (by decide))
    (fun _ => .inSlots) 0 (.empty .standard) (.ofSlots (.ofSize 0))
  exact ⟨by decide, hvalue, g, hreads, hvalue ▸ hg⟩

/-- No step goes on from an attribute among the children to the text after it, which counts all the same. -/
theorem Node.value_strayAttribute :
    let n := Node.rootOf (.build 0 .strayAttribute)
    n.value = "t" ∧ (machine 7 (.empty .standard)).Reads (.along .descendant (.kind .text) (.ofItem (.node n)))
      (.ofSlots (.ofSize 0)) [] (.ok ()) := by
  exact ⟨by decide, .ended⟩

end XPath
