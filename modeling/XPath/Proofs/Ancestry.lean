import XPath.Proofs.Walks

/-!
# Where moves lead, exactly

An entry is above another one if the other lies in its stretch (`Arena.ancestor_iff`). With that, the moves
of the walks come down to places: the entry before or after another one with nothing but attributes in
between, and the entry where a stretch ends. Every lemma here says both where a move leads and when there
is nowhere to go.
-/

namespace XPath

open Option Array

variable {k c b i j o below : Nat} {e d : NodeData}

/-- `a` is the parent of `n`, or above the parent of `n`. -/
inductive Node.Ancestor (a : Node) : Node → Prop
  | parent {n : Node} (h : n.parent? = some a) : Ancestor a n
  | above {n p : Node} (h : n.parent? = some p) (ha : Ancestor a p) : Ancestor a n

def Document.Content (doc : Document) (i : Nat) : Prop :=
  ∃ d, doc.nodes[i]? = some d ∧ d.kind.isAttributeLike = false

/-! ## Rows -/

section

variable {nodes : Array NodeData} {stop : Nat → Nat} {p hi : Nat}

theorem Row.covers : ∀ {cs : List Nat} {index lo : Nat}, Row nodes stop p hi index lo cs →
    lo ≤ k → k < hi → ∃ c ∈ cs, c ≤ k ∧ k < stop c
  | [], _, lo, h, hlo, hhi => by
    obtain rfl : lo = hi := h
    omega
  | c :: cs, _, lo, ⟨hc, _, _, hrest⟩, hlo, hhi => by
    subst hc
    rcases Nat.lt_or_ge k (stop c) with hk | hk
    · exact ⟨c, (.head _), hlo, hk⟩
    · obtain ⟨c', hmem, hc'⟩ := hrest.covers hk hhi
      exact ⟨c', .tail _ hmem, hc'⟩

theorem Row.le_of_mem : ∀ {cs : List Nat} {index lo : Nat}, Row nodes stop p hi index lo cs → c ∈ cs → lo ≤ c
  | _ :: _, _, _, ⟨hx, hlt, _, hrest⟩, hc => by
    rcases List.mem_cons.mp hc with rfl | hc
    · exact Nat.le_of_eq hx.symm
    · exact Nat.le_trans (Nat.le_of_lt hlt) (hrest.le_of_mem hc)

theorem Row.apart {a : Nat} : ∀ {cs : List Nat} {index lo : Nat}, Row nodes stop p hi index lo cs →
    a ∈ cs → b ∈ cs → a < b → stop a ≤ b
  | c :: cs, _, lo, ⟨hc, hlt, _, hrest⟩, ha, hb, hab => by
    subst hc
    rcases List.mem_cons.mp hb with rfl | hb'
    · rcases List.mem_cons.mp ha with rfl | ha'
      · exact absurd hab (Nat.lt_irrefl _)
      · have := hrest.le_of_mem ha'
        omega
    · rcases List.mem_cons.mp ha with rfl | ha'
      · exact hrest.le_of_mem hb'
      · exact hrest.apart ha' hb' hab

end

/-! ## Stretches and ancestors -/

section

variable {doc : Document} {stop : Nat → Nat}

theorem Document.Content.lt_size (h : doc.Content i) : i < doc.size := by
  obtain ⟨d, hd, -⟩ := h
  exact (Array.getElem?_eq_some_iff.mp hd).1

theorem Document.Child.mem {p : Nat} (h : doc.Child p j c) (he : doc.nodes[p]? = some e) : c ∈ e.children.toList := by
  obtain ⟨e', he', hc⟩ := h
  cases he.symm.trans he'
  exact List.mem_of_getElem? (getElem?_toList ▸ hc)

namespace Arena

variable (h : Arena doc stop)

include h

theorem stop_le (hi : i < doc.size) : stop i ≤ doc.size := by
  rw [← h.all] at hi ⊢
  rcases Nat.eq_zero_or_pos i with rfl | hpos
  · exact .refl
  · have h0 : 0 < doc.nodes.size := by
      rw [h.all] at hi
      exact Nat.lt_of_le_of_lt (Nat.zero_le i) hi
    exact (h.stretch 0 _ (getElem?_eq_getElem h0)).nested i hpos hi

theorem lt_stop_self (hi : i < doc.size) : i < stop i := by
  have := h.lt_stop (getElem?_eq_getElem hi)
  omega

/-- Only attributes stand between an entry and its first child. -/
theorem isAttribute_of_lt (hd : doc.nodes[i]? = some d) (hlo : i < k) (hhi : k < i + 1 + d.attributes.size) :
    ∃ e, doc.nodes[k]? = some e ∧ e.IsAttributeOf i (k - (i + 1)) := by
  obtain ⟨-, e, he, hof⟩ := h.attributeAt (j := k - (i + 1)) hd (by omega)
  rw [show i + 1 + (k - (i + 1)) = k by omega] at he
  exact ⟨e, he, hof⟩

theorem not_content_of_lt (hd : doc.nodes[i]? = some d) (hlo : i < k) (hhi : k < i + 1 + d.attributes.size) :
    ¬ doc.Content k := by
  obtain ⟨e, he, hof⟩ := h.isAttribute_of_lt hd hlo hhi
  rintro ⟨e', he', hkind⟩
  cases he.symm.trans he'
  rw [hof.kind] at hkind
  cases hkind

theorem content_of_child {p : Nat} (hc : doc.Child p j c) : doc.Content c := by
  obtain ⟨-, -, -, ⟨d, hd, -, -, hkind⟩, -⟩ := h.child hc
  exact ⟨d, hd, hkind⟩

/-- All content but the root is a child. -/
theorem exists_child (hi : doc.Content i) (hpos : 0 < i) : ∃ p j, doc.Child p j i := by
  obtain ⟨d, hd, hkind⟩ := hi
  obtain ⟨p, e, hp, he, hlt, hmem⟩ := h.hangs i d hd hpos
  rw [if_neg (by rintro hattr; rw [hattr] at hkind; cases hkind)] at hmem
  exact ⟨p, _, e, he, hmem⟩

/-- An entry in the stretch of another one has its parent there, too. -/
theorem parent_ge (hd : doc.nodes[i]? = some d) (hlt : k < i) (hin : i < stop k) : ∃ p, d.parent = some p ∧ k ≤ p := by
  obtain ⟨p, e, hp, he, hpi, hmem⟩ := h.hangs i d hd (by omega)
  refine ⟨p, hp, Nat.not_lt.mp fun hpk => ?_⟩
  obtain ⟨-, hin', -, -⟩ := h.parent hd hp
  have hkd := Array.getElem?_eq_getElem (Nat.lt_trans hlt (Array.getElem?_eq_some_iff.mp hd).1)
  have hstretch := h.stretch p e he
  rcases Nat.lt_or_ge k (p + 1 + e.attributes.size) with hk | hk
  · -- an attribute of the parent has no stretch to speak of
    obtain ⟨e', he', hof⟩ := h.isAttribute_of_lt he (by omega) hk
    have := h.stop_attribute he' hof
    omega
  · obtain ⟨c, hc, hck, hkc⟩ := hstretch.children.covers hk (by omega)
    split at hmem
    · have := ((hstretch.attributes _ _ hmem).1)
      have := (Array.getElem?_eq_some_iff.mp hmem).1
      omega
    · have hi : i ∈ e.children.toList := List.mem_of_getElem? (getElem?_toList ▸ hmem)
      have hapart := hstretch.children.apart hc hi (by omega)
      rcases Nat.eq_or_lt_of_le hck with rfl | hck
      · omega
      · have hce := hstretch.children.le_of_mem hc
        have hcd := Array.getElem?_eq_getElem (Nat.lt_trans hck (Array.getElem?_eq_some_iff.mp hkd).1)
        have := (h.stretch c _ hcd).nested k hck hkc
        omega

end Arena

namespace Node

theorem parent?_atEntry (hd : doc.nodes[i]? = some d) : (atEntry doc i).parent? = d.parent.map (atEntry doc) := by
  have hdata : (atEntry doc i).data? = some d := hd
  simp only [parent?, hdata, bind_some]
  rfl

theorem kind_atEntry (hd : doc.nodes[i]? = some d) : (atEntry doc i).kind = d.kind := by
  have hdata : (atEntry doc i).data? = some d := hd
  simp only [kind, hdata]

end Node

/-- The ancestors of an entry are the entries whose stretches it lies in. -/
theorem Arena.ancestor_iff (h : Arena doc stop) (hi : i < doc.size) {a : Node} :
    Node.Ancestor a (.atEntry doc i) ↔ ∃ k, a = .atEntry doc k ∧ k < i ∧ i < stop k := by
  constructor
  · intro ha
    generalize hn : Node.atEntry doc i = n at ha
    induction ha generalizing i with
    | parent hp =>
      subst hn
      have hd := getElem?_eq_getElem hi
      obtain ⟨p, hp', rfl⟩ := Node.exists_parent_of_parent? hd hp
      obtain ⟨hlt, hin, -⟩ := h.parent hd hp'
      exact ⟨p, rfl, hlt, hin⟩
    | above hp _ ih =>
      subst hn
      have hd := getElem?_eq_getElem hi
      obtain ⟨p, hp', rfl⟩ := Node.exists_parent_of_parent? hd hp
      obtain ⟨hlt, hin, -⟩ := h.parent hd hp'
      obtain ⟨k, rfl, hkp, hpk⟩ := ih (Nat.lt_trans hlt hi) rfl
      have hkd := getElem?_eq_getElem (Nat.lt_trans hkp (Nat.lt_trans hlt hi))
      have hnested := (h.stretch k _ hkd).nested p hkp hpk
      exact ⟨k, rfl, Nat.lt_trans hkp hlt, Nat.lt_of_lt_of_le hin hnested⟩
  · rintro ⟨k, rfl, hlt, hin⟩
    induction i using Nat.strongRecOn with
    | ind i ih =>
      have hd := getElem?_eq_getElem hi
      obtain ⟨p, hp, hkp⟩ := h.parent_ge hd hlt hin
      have hmove : (Node.atEntry doc i).parent? = some (.atEntry doc p) := by
        rw [Node.parent?_atEntry hd, hp]
        rfl
      obtain ⟨hpi, -, -⟩ := h.parent hd hp
      rcases Nat.eq_or_lt_of_le hkp with rfl | hkp
      · exact .parent hmove
      · exact .above hmove (ih p hpi (Nat.lt_trans hpi hi) hkp (by omega))

/-! ## Forward -/

def Document.Inner (doc : Document) (i : Nat) : Prop :=
  i = 0 ∨ ∃ p j, doc.Child p j i

theorem Arena.inner_of_child (h : Arena doc stop) {p : Nat} (hc : doc.Child p j c) : doc.Inner p := by
  rcases Nat.eq_zero_or_pos p with rfl | hpos
  · exact .inl rfl
  · obtain ⟨e, he, hmem⟩ := hc
    obtain ⟨q, f, hq, hf, -, hhangs⟩ := h.hangs p e he hpos
    split at hhangs
    · obtain ⟨-, e', he', hof⟩ := (h.stretch q f hf).attributes _ _ hhangs
      cases he.symm.trans he'
      rw [hof.children] at hmem
      cases hmem
    · exact .inr ⟨q, _, f, hf, hhangs⟩

theorem Arena.parent_unique (h : Arena doc stop) {p q : Nat} (hp : doc.Child p j c) (hq : doc.Child q k c) : p = q := by
  obtain ⟨-, -, -, ⟨d, hd, hparent, -⟩, -⟩ := h.child hp
  obtain ⟨-, -, -, ⟨d', hd', hparent', -⟩, -⟩ := h.child hq
  cases hd.symm.trans hd'
  exact some.inj (hparent.symm.trans hparent')

theorem Document.Depth.trans {l : Nat} (hb : doc.Depth o b k) (hc : doc.Depth b c l) : doc.Depth o c (k + l) := by
  induction hc with
  | here => exact hb
  | child above hchild ih => exact .child ih hchild

theorem Document.Depth.under (hc : doc.Depth b c k) (hb : doc.Child o j b) : doc.Depth o c (k + 1) :=
  Nat.add_comm 1 k ▸ (Depth.child .here hb).trans hc

namespace Node

/-- Climbing until there is a next sibling, without a bound on the way. -/
inductive Climbs : Node → Option Node → Prop
  | sibling {n m : Node} (h : n.nextSibling? = some m) : Climbs n (some m)
  | up {n p : Node} {r : Option Node} (hnone : n.nextSibling? = none) (hp : n.parent? = some p)
      (h : Climbs p r) : Climbs n r
  | top {n : Node} (hnone : n.nextSibling? = none) (hp : n.parent? = none) : Climbs n none

/-- Climbing leads to where the stretch ends. -/
theorem nextAbove_spec (h : Arena doc stop) : ∀ (fuel : Nat) {i : Nat}, i < doc.size → doc.Inner i → i < fuel →
    Climbs (atEntry doc i) (nextAbove fuel (atEntry doc i)) ∧
      ((nextAbove fuel (atEntry doc i) = some (atEntry doc (stop i)) ∧ stop i < doc.size ∧
          ∃ p j, doc.Child p j (stop i)) ∨
        nextAbove fuel (atEntry doc i) = none ∧ stop i = doc.size)
  | 0, _, _, _, hfuel => absurd hfuel (Nat.not_lt_zero _)
  | fuel + 1, i, hi, hinner, hfuel => by
    unfold nextAbove
    rcases hinner with rfl | ⟨p, j, hchild⟩
    · have hdata : (atEntry doc 0).data? = some doc.nodes[0] := getElem?_eq_getElem hi
      have hroot := h.root _ (getElem?_eq_getElem hi)
      have hparent : (atEntry doc 0).parent? = none := by simp [parent?, hdata, hroot]
      have hnone : (atEntry doc 0).nextSibling? = none := by simp [nextSibling?, siblings?, hdata, hroot]
      rw [hnone, hparent]
      exact ⟨.top hnone hparent, .inr ⟨rfl, h.all⟩⟩
    · have hlt := (h.child hchild).1
      have hparent := parent?_of_child h hchild
      rcases nextSibling?_cases h hchild with ⟨hnext, hchild', hin⟩ | ⟨hnext, hend⟩
      · rw [hnext]
        refine ⟨.sibling hnext, .inl ⟨rfl, ?_, p, _, hchild'⟩⟩
        exact Nat.lt_of_lt_of_le hin (h.stop_le (Nat.lt_trans hlt hi))
      · obtain ⟨hclimbs, hcases⟩ :=
          nextAbove_spec h fuel (Nat.lt_trans hlt hi) (h.inner_of_child hchild) (by omega)
        rw [hnext, hparent, hend]
        exact ⟨.up hnext hparent hclimbs, hcases⟩

/-- The next node stands right after the attributes. -/
theorem next?_cases (h : Arena doc stop) (hd : doc.nodes[i]? = some d) (hi : doc.Inner i) :
    ((atEntry doc i).next? = some (atEntry doc (i + 1 + d.attributes.size)) ∧
        i + 1 + d.attributes.size < doc.size ∧ ∃ p j, doc.Child p j (i + 1 + d.attributes.size)) ∨
      (atEntry doc i).next? = none ∧ i + 1 + d.attributes.size = doc.size := by
  have hsize : i < doc.size := (Array.getElem?_eq_some_iff.mp hd).1
  unfold next?
  rcases firstChild?_cases h hd with ⟨hfirst, hchild⟩ | ⟨hfirst, hend⟩
  · rw [hfirst]
    obtain ⟨-, -, -, ⟨e, he, -⟩, -⟩ := h.child hchild
    exact .inl ⟨rfl, (Array.getElem?_eq_some_iff.mp he).1, i, 0, hchild⟩
  · rw [hfirst, hend]
    exact (nextAbove_spec h _ hsize hi (Nat.lt_succ_of_lt hsize)).2

/-! ## Backward -/

theorem siblings?_of_child (h : Arena doc stop) {p : Nat} (hc : doc.Child p j c) (he : doc.nodes[p]? = some e) :
    (atEntry doc c).siblings? = some (e.children, j) := by
  obtain ⟨-, -, -, ⟨d, hd, hparent, rfl, hkind⟩, -⟩ := h.child hc
  have hdata : (atEntry doc c).data? = some d := hd
  simp only [siblings?, hdata, hparent, bind_eq_bind, bind_some, he]
  rw [if_neg]
  intro hattr
  rw [hattr] at hkind
  cases hkind

/-- The stretch of the previous sibling ends at a child, and the first child stands right after the
attributes. -/
theorem previousSibling?_cases (h : Arena doc stop) {p : Nat} (hc : doc.Child p j c) (he : doc.nodes[p]? = some e) :
    (∃ i b, j = i + 1 ∧ (atEntry doc c).previousSibling? = some (atEntry doc b) ∧ doc.Child p i b ∧
        stop b = c) ∨
      (atEntry doc c).previousSibling? = none ∧ c = p + 1 + e.attributes.size := by
  have hsiblings := siblings?_of_child h hc he
  have hc' : e.children[j]? = some c := by
    obtain ⟨e', he', hmem⟩ := hc
    cases he.symm.trans he'
    exact hmem
  simp only [previousSibling?, hsiblings, bind_eq_bind, bind_some]
  cases j with
  | zero =>
    refine .inr ⟨rfl, ?_⟩
    have hrow := (h.stretch p e he).children
    rw [← getElem?_toList] at hc'
    cases hcs : e.children.toList with
    | nil =>
      rw [hcs] at hc'
      cases hc'
    | cons x xs =>
      rw [hcs] at hc' hrow
      cases hc'
      exact hrow.1
  | succ i =>
    have hi : i < e.children.size := Nat.lt_of_succ_lt (Array.getElem?_eq_some_iff.mp hc').1
    have hb : doc.Child p i e.children[i] := ⟨e, he, getElem?_eq_getElem hi⟩
    refine .inl ⟨i, e.children[i], rfl, ?_, hb, ?_⟩
    · dsimp only
      rw [getElem?_eq_getElem hi]
      rfl
    · obtain ⟨-, -, -, -, ⟨hnext, -⟩ | ⟨hnone, -⟩⟩ := h.child hb
      · obtain ⟨e', he', hmem⟩ := hnext
        cases he.symm.trans he'
        exact some.inj (hmem.symm.trans hc')
      · exact absurd ⟨e, he, hc'⟩ (hnone c)

/-- The stretch of the last child ends with that of its parent. -/
theorem lastChild?_cases (h : Arena doc stop) (hd : doc.nodes[i]? = some d) :
    (∃ j c, (atEntry doc i).lastChild? = some (atEntry doc c) ∧ doc.Child i j c ∧ stop c = stop i) ∨
      (atEntry doc i).lastChild? = none ∧ i + 1 + d.attributes.size = stop i := by
  have hdata : (atEntry doc i).data? = some d := hd
  have hback : d.children.back? = d.children[d.children.size - 1]? := rfl
  simp only [lastChild?, hdata, bind_some, hback]
  cases hlast : d.children[d.children.size - 1]? with
  | some c =>
    have hchild : doc.Child i (d.children.size - 1) c := ⟨d, hd, hlast⟩
    refine .inl ⟨_, c, rfl, hchild, ?_⟩
    obtain ⟨-, -, -, -, ⟨⟨e, he, hnext⟩, -⟩ | ⟨-, hend⟩⟩ := h.child hchild
    · cases hd.symm.trans he
      have := (Array.getElem?_eq_some_iff.mp hnext).1
      omega
    · exact hend
  | none =>
    refine .inr ⟨rfl, ?_⟩
    have hsize := getElem?_eq_none_iff.mp hlast
    have hnil : d.children.toList = [] := by
      apply List.eq_nil_of_length_eq_zero
      rw [Array.length_toList]
      omega
    have hrow := (h.stretch i d hd).children
    rw [hnil] at hrow
    exact hrow

/-- The last node of a subtree: only its own attributes stand between it and the end of the stretch. -/
theorem lastWithin_cases (h : Arena doc stop) : ∀ (fuel : Nat) {i : Nat} (levels : Nat), i < doc.size →
    doc.size ≤ i + fuel →
    ∃ c k d, lastWithin fuel (atEntry doc i) levels = (atEntry doc c, levels + k) ∧ doc.Depth i c k ∧
      stop c = stop i ∧ doc.nodes[c]? = some d ∧ c + 1 + d.attributes.size = stop c
  | 0, _, _, hi, hfuel => absurd hi (Nat.not_lt.mpr hfuel)
  | fuel + 1, i, levels, hi, hfuel => by
    have hd := getElem?_eq_getElem hi
    unfold lastWithin
    rcases lastChild?_cases h hd with ⟨j, b, hlast, hchild, hstop⟩ | ⟨hlast, hend⟩
    · rw [hlast]
      obtain ⟨hlt, -, -, ⟨e, he, -⟩, -⟩ := h.child hchild
      obtain ⟨c, k, d, hrun, hdepth, hstop', hd', hend⟩ :=
        lastWithin_cases h fuel (levels + 1) (Array.getElem?_eq_some_iff.mp he).1
          (by omega)
      refine ⟨c, k + 1, d, ?_, ?_, hstop'.trans hstop, hd', hend⟩
      · dsimp only
        rw [hrun, Nat.add_assoc, Nat.add_comm 1 k]
      · exact hdepth.under hchild
    · rw [hlast]
      exact ⟨i, 0, _, rfl, .here, rfl, hd, hend⟩

/-- A walk backward from `o` that has come to entry `i`: it is so many levels below an entry whose parent
is above `o`. -/
def Behind (doc : Document) (stop : Nat → Nat) (o i below : Nat) : Prop :=
  ∃ a, doc.Depth a i below ∧ (∀ q j, doc.Child q j a → o < stop q) ∧ (0 < below → stop a ≤ o) ∧ i ≤ o

theorem Behind.sibling (h : Arena doc stop) {p j' : Nat} (hbehind : Behind doc stop o i below)
    (hi : doc.Child p j i) (hb : doc.Child p j' b) (hstop : stop b = i) (hc : doc.Depth b c k) (hco : c ≤ o) :
    Behind doc stop o c (below + k) := by
  obtain ⟨a, hdepth, habove, hpast, hio⟩ := hbehind
  cases hdepth with
  | here =>
    refine ⟨b, (Nat.zero_add k).symm ▸ hc, ?_, fun _ => hstop ▸ hio, hco⟩
    intro q l hq
    obtain rfl := h.parent_unique hb hq
    exact habove p j hi
  | child above hchild =>
    obtain rfl := h.parent_unique hi hchild
    exact ⟨a, (above.child hb).trans hc, habove, fun _ => hpast (Nat.succ_pos _), hco⟩

/-- The parent of what is behind is behind, or it is above `o`. -/
theorem Behind.parent (h : Arena doc stop) {p : Nat} (ho : o < doc.size) (hbehind : Behind doc stop o i below)
    (hi : doc.Child p j i) : (below = 0 ∧ o < stop p ∧ Behind doc stop o p 0) ∨
      ∃ b, below = b + 1 ∧ stop p ≤ o ∧ doc.Content p ∧ Behind doc stop o p b := by
  obtain ⟨a, hdepth, habove, hpast, hio⟩ := hbehind
  obtain ⟨hlt, -⟩ := h.child hi
  cases hdepth with
  | here =>
    have hp := habove p j hi
    refine .inl ⟨rfl, hp, p, .here, ?_, (fun h => absurd h (Nat.lt_irrefl 0)), by omega⟩
    intro q l hq
    obtain ⟨-, -, hle, -⟩ := h.child hq
    exact Nat.lt_of_lt_of_le hp hle
  | child above hchild =>
    obtain rfl := h.parent_unique hi hchild
    have hstop := hpast (Nat.succ_pos _)
    have hle : a ≤ p ∧ stop p ≤ stop a := by
      rcases above.inside h with ⟨rfl, -⟩ | ⟨hlt', -, hle, -⟩
      · exact ⟨.refl, .refl⟩
      · exact ⟨Nat.le_of_lt hlt', hle⟩
    refine .inr ⟨_, rfl, by omega, ?_, a, above, habove, fun _ => hstop, by omega⟩
    rcases h.inner_of_child hi with rfl | ⟨q, l, hq⟩
    · -- the root reaches past every entry
      have := h.all
      have := hle.1
      have := hle.2
      omega
    · exact h.content_of_child hq

/-- One step back: what is passed over is above `o`. -/
theorem stepBack_cases (h : Arena doc stop) (ho : o < doc.size) :
    ∀ (fuel : Nat) {i below : Nat}, doc.Inner i → i < fuel → Behind doc stop o i below →
      (∃ k b, stepBack fuel (atEntry doc i) below = some (atEntry doc k, b) ∧ Behind doc stop o k b ∧
          k < i ∧ doc.Content k ∧ stop k ≤ o ∧ ∀ m, k < m → m < i → doc.Content m → o < stop m) ∨
        stepBack fuel (atEntry doc i) below = none ∧ ∀ m, m < i → doc.Content m → o < stop m
  | 0, _, _, _, hfuel, _ => absurd hfuel (Nat.not_lt_zero _)
  | fuel + 1, i, below, hinner, hfuel, hbehind => by
    obtain ⟨-, -, -, -, hio⟩ := id hbehind
    unfold stepBack
    rcases hinner with rfl | ⟨p, j, hchild⟩
    · have hpos : 0 < doc.nodes.size := Nat.lt_of_le_of_lt (Nat.zero_le o) ho
      have hdata : (atEntry doc 0).data? = some doc.nodes[0] := getElem?_eq_getElem hpos
      have hroot := h.root _ (getElem?_eq_getElem hpos)
      simp [previousSibling?, siblings?, parent?, hdata, hroot]
    · obtain ⟨e, he, hmem⟩ := id hchild
      obtain ⟨hlt, -⟩ := h.child hchild
      rcases previousSibling?_cases h hchild he with ⟨j', b, rfl, hprev, hb, hstop⟩ | ⟨hprev, hfirst⟩
      · rw [hprev]
        obtain ⟨-, hbi, -⟩ := h.child hb
        obtain ⟨c, k, d, hlast, hdepth, hstop', hd, hend⟩ :=
          lastWithin_cases h doc.size below (by omega : b < doc.size) (by omega)
        have hci : c < i := by omega
        refine .inl ⟨c, below + k, congrArg some hlast, ?_, hci, ?_, by omega, ?_⟩
        · exact hbehind.sibling h hchild hb hstop hdepth (by omega)
        · cases hdepth with
          | here => exact h.content_of_child hb
          | child above hchild' => exact h.content_of_child hchild'
        · intro m hlo hhi hm
          exact absurd hm (h.not_content_of_lt hd hlo (by omega))
      · rw [hprev, parent?_of_child h hchild]
        have hbetween : ∀ m, p < m → m < i → ¬ doc.Content m := fun m hlo hhi =>
          h.not_content_of_lt he hlo (by omega)
        rcases hbehind.parent h ho hchild with ⟨rfl, hp, hbehind'⟩ | ⟨b, rfl, hp, hcontent, hbehind'⟩
        · have hpass : ∀ m, p ≤ m → m < i → doc.Content m → o < stop m := by
            intro m hlo hhi hm
            rcases Nat.eq_or_lt_of_le hlo with rfl | hlo
            · exact hp
            · exact absurd hm (hbetween m hlo hhi)
          rcases stepBack_cases h ho fuel (h.inner_of_child hchild) (by omega : p < fuel) hbehind' with
            ⟨k, b, hrun, hk, hkp, hcontent, hstop, hnone⟩ | ⟨hrun, hnone⟩
          · refine .inl ⟨k, b, hrun, hk, by omega, hcontent, hstop, ?_⟩
            intro m hlo hhi hm
            rcases Nat.lt_or_ge m p with hmp | hmp
            · exact hnone m hlo hmp hm
            · exact hpass m hmp hhi hm
          · refine .inr ⟨hrun, ?_⟩
            intro m hhi hm
            rcases Nat.lt_or_ge m p with hmp | hmp
            · exact hnone m hmp hm
            · exact hpass m hmp hhi hm
        · exact .inl ⟨p, b, rfl, hbehind', hlt, hcontent, hp, fun m hlo hhi hm =>
            absurd hm (hbetween m hlo hhi)⟩

end Node

end

end XPath
