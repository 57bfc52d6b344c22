import XPath.Proofs.Unmerged

/-!
# Unions

Sorting depends on the positions of the nodes only: without repeats dropped, on how often each of them comes
(`orderKeys_eq_of_perm`), and with repeats dropped not even on that (`orderKeys_eq_of_mem_iff`). So for a union it
makes no difference in which order its operands come and how they are grouped (`Query.union_laws`).

An ordered cursor gathers what its input delivers before it delivers anything itself, and stops where nodes and
atomic values meet (`fails_inOrder_iff`).
-/

namespace XPath

open List

open Program

variable {a b k : Nat × Nat × Nat} {unique : Bool} {nodes nodes' l l' : List Node} {parts : List (List Node)}

/-! ## Positions -/

/-- Of two positions, the first one is before the second. -/
def KeyBefore (a b : Nat × Nat × Nat) : Prop :=
  Node.compareKeys a b = .lt

theorem keyBefore_iff : KeyBefore a b ↔ a.1 < b.1 ∨ a.1 = b.1 ∧ (a.2.1 < b.2.1 ∨ a.2.1 = b.2.1 ∧ a.2.2 < b.2.2) := by
  simp only [KeyBefore, Node.compareKeys, Ordering.then_eq_lt, Nat.compare_eq_lt, Nat.compare_eq_eq]

instance : Std.Asymm KeyBefore where
  asymm a b hab hba := by
    rw [keyBefore_iff] at hab hba
    omega

theorem isLE_compareKeys_iff : (Node.compareKeys a b).isLE = true ↔ KeyBefore a b ∨ a = b := by
  have heq : Node.compareKeys a b = .eq ↔ a = b := by
    simp only [Node.compareKeys, Ordering.then_eq_eq, Nat.compare_eq_eq, Prod.ext_iff]
  rw [← heq, KeyBefore]
  cases Node.compareKeys a b <;> simp

def orderKeys (nodes : List Node) : List (Nat × Nat × Nat) :=
  nodes.map Node.orderKey

theorem mem_orderKeys_inDocumentOrder : k ∈ orderKeys (inDocumentOrder unique nodes) ↔ k ∈ orderKeys nodes := by
  simp only [orderKeys, mem_map]
  constructor
  · rintro ⟨n, hn, rfl⟩
    exact ⟨n, mem_of_mem_inDocumentOrder hn, rfl⟩
  · rintro ⟨n, hn, rfl⟩
    have hsorted : n ∈ nodes.mergeSort Node.precedesOrSame := mem_mergeSort.mpr hn
    cases unique with
    | false => exact ⟨n, hsorted, rfl⟩
    | true =>
      obtain ⟨m, hm, heq⟩ := exists_mem_dropRepeats _ n hsorted
      exact ⟨m, hm, Node.compare_eq_eq_iff.mp heq⟩

theorem keyBefore_inDocumentOrder (nodes : List Node) : (orderKeys (inDocumentOrder true nodes)).Pairwise KeyBefore :=
  pairwise_map.mpr (pairwise_inDocumentOrder nodes)

/-- With repeats dropped, the same positions are sorted to the same. -/
theorem orderKeys_eq_of_mem_iff (h : ∀ k, k ∈ orderKeys nodes ↔ k ∈ orderKeys nodes') :
    orderKeys (inDocumentOrder true nodes) = orderKeys (inDocumentOrder true nodes') :=
  (keyBefore_inDocumentOrder nodes).eq_of_mem_iff (keyBefore_inDocumentOrder nodes') fun k => by
    rw [mem_orderKeys_inDocumentOrder, mem_orderKeys_inDocumentOrder, h]

/-- If each position comes as often, the positions are sorted to the same. -/
theorem orderKeys_eq_of_perm (h : (orderKeys nodes).Perm (orderKeys nodes')) :
    orderKeys (inDocumentOrder false nodes) = orderKeys (inDocumentOrder false nodes') := by
  have hsorted : ∀ l : List Node,
      (orderKeys (inDocumentOrder false l)).Pairwise fun a b => (Node.compareKeys a b).isLE = true := fun l =>
    pairwise_map.mpr (pairwise_mergeSort_nodes l)
  have hperm : ∀ l : List Node, (orderKeys (inDocumentOrder false l)).Perm (orderKeys l) := fun l =>
    (mergeSort_perm l _).map _
  refine List.Perm.eq_of_pairwise ?_ (hsorted nodes) (hsorted nodes')
    ((hperm nodes).trans (h.trans (hperm nodes').symm))
  intro a b _ _ hab hba
  rw [isLE_compareKeys_iff] at hab hba
  rcases hab with hab | rfl
  · rcases hba with hba | rfl
    · exact (Std.Asymm.asymm _ _ hab hba).elim
    · rfl
  · rfl

theorem dropRepeats_eq_self (h : nodes.Pairwise fun a b => a.compare b = .lt) : dropRepeats nodes = nodes := by
  fun_induction dropRepeats nodes with
  | case1 | case2 => rfl
  | case3 a b rest hab ih =>
    have hlt := (pairwise_cons.mp h).1 b (.head _)
    rw [Node.samePlace_iff.mp hab] at hlt
    cases hlt
  | case4 a b rest hab ih => rw [ih (pairwise_cons.mp h).2]

/-- What is sorted stays as it is. -/
theorem inDocumentOrder_idem (unique : Bool) (nodes : List Node) :
    inDocumentOrder unique (inDocumentOrder unique nodes) = inDocumentOrder unique nodes := by
  cases unique with
  | false => exact mergeSort_of_pairwise (pairwise_mergeSort_nodes nodes)
  | true =>
    have hlt := pairwise_inDocumentOrder nodes
    have hle := hlt.imp fun h => Node.precedesOrSame_iff.mpr (.inl h)
    change dropRepeats ((inDocumentOrder true nodes).mergeSort Node.precedesOrSame) = _
    rw [mergeSort_of_pairwise hle, dropRepeats_eq_self hlt]

/-! ## Operands -/

section

variable {p q : Program} {σ : Slots} {e : ExprId} {snap : Snapshot} {s s' t : Store} {n m : Nat}

/-- In an environment, what can be read is read alike in every store, if there is enough depth. -/
theorem Program.Pure.read_deeper (hp : p.Pure)
    (hread : (lexicalMachine n p).read e (.fixed snap) s = some (r, s')) (hs : s.slots = σ) (ht : t.slots = σ)
    (hnm : n ≤ m) : ∃ t', (lexicalMachine m p).read e (.fixed snap) t = some (r, t') ∧ t'.slots = σ := by
  have hst : Abreast (.deeper p) (some (σ, σ)) (fun _ _ => True) s t := abreast_deeper hs ht trivial
  obtain ⟨t', hread', hst'⟩ := (hp.deeper.read hnm rfl (Envs.level_some rfl) (rfl : e = e)
    (fun _ => .fixed fun _ _ => trivial) hst).ends_same hread
  exact ⟨t', hread', (hst'.pinned σ σ rfl).2⟩

theorem unionNodes_map_node (nodes : List Node) : unionNodes (nodes.map .node) = .ok nodes := by
  induction nodes with
  | nil => rfl
  | cons n nodes ih =>
    rw [map_cons, unionNodes, ih]
    rfl

theorem exists_union (hp : p.Pure) (h : List.Forall₂ (fun e nodes => p.Delivers σ e snap (nodes.map .node)) es parts) :
    ∃ N, ∀ m ≥ N, ∀ t : Store, t.slots = σ →
      ∃ t', (lexicalMachine m p).union (.fixed snap) es t = some (.ok parts.flatten, t') ∧ t'.slots = σ := by
  induction h with
  | nil => exact ⟨0, fun m _ t ht => ⟨t, rfl, ht⟩⟩
  | @cons e nodes es parts hfirst _ ih =>
    obtain ⟨n, s, hread⟩ := (delivers_iff_read hp).mp hfirst
    obtain ⟨N, hN⟩ := ih
    refine ⟨max n N, fun m hm t ht => ?_⟩
    obtain ⟨t₁, hread', ht₁⟩ := hp.read_deeper (m := m) hread rfl ht (by omega)
    obtain ⟨t₂, hrest, ht₂⟩ := hN m (by omega) t₁ ht₁
    obtain ⟨c, t₀, hexec, hdrain⟩ := Eval.of_bind hread'
    refine ⟨t₂, ?_, ht₂⟩
    rw [Calls.union, Eval.bind_of_ok hexec, Eval.bind_of_ok hdrain, unionNodes_map_node]
    refine (Eval.bind_of_ok rfl).trans ?_
    rw [Eval.bind_of_ok hrest]
    rfl

/-- A union comes to the nodes of its operands, sorted and each one once. -/
theorem Program.delivers_union (hp : p.Pure) (hform : p.form? e = some .union)
    (h : List.Forall₂ (fun e nodes => p.Delivers σ e snap (nodes.map .node)) (p.children e) parts) :
    p.Delivers σ e snap ((inDocumentOrder true parts.flatten).map .node) := by
  obtain ⟨N, hN⟩ := exists_union hp h
  obtain ⟨t, hunion, ht⟩ := hN N .refl (.ofSlots σ) rfl
  have hexec : (lexicalMachine (N + 1) p).execute e (.fixed snap) (.ofSlots σ) =
      some (.ok (.ofItems ((inDocumentOrder true parts.flatten).map .node)), t) := by
    change (lexicalMachine N p).perform p e (.fixed snap) _ = _
    unfold Calls.perform
    rw [hform]
    exact Eval.bind_of_ok hunion
  refine ⟨N + 1, t, _, _, hexec, gives_ofItems.yields, ?_⟩
  rw [map_fst_inGroups, flatten_present, flatten_singleton]

end

/-! ## Queries -/

section

variable {c : StaticContext} {focus : Snapshot} {values : List (ExpandedName × List Item)} {x y : Expr}
  {A B : List Node}

def StaticContext.Compiles (c : StaticContext) (x : Expr) : Prop :=
  ∃ q, compile c x = .ok q

/-- The expression compiles, and can be evaluated to these nodes. -/
def StaticContext.Drains (c : StaticContext) (focus : Snapshot) (values : List (ExpandedName × List Item)) (x : Expr)
    (nodes : List Node) : Prop :=
  ∃ q fuel, compile c x = .ok q ∧ q.evaluate fuel focus values = some (.ok (nodes.map .node))

/-- Wherever the expression stands in a query outside of loops, it comes to these nodes. -/
def StaticContext.Comes (c : StaticContext) (focus : Snapshot) (values : List (ExpandedName × List Item)) (x : Expr)
    (nodes : List Node) : Prop :=
  ∀ whole q p e, compile c whole = .ok q → FilledIn c p q.program → Spells p.At c x e →
    q.program.Delivers (c.externalSlots values) e focus (nodes.map .node)

variable (hf : ∀ f, c.Callable f → f.KeepsReply ∧ f.Grows)

include hf

theorem StaticContext.Drains.comes (h : c.Drains focus values x A) : c.Comes focus values x A := by
  obtain ⟨q, fuel, hq, hrun⟩ := h
  have hcompiled := compiled_of_compile hq
  intro whole q' p' e hq' hfilled' hspells
  obtain ⟨p, hlaid, hfilled, -⟩ := filledIn_of_compile hq
  have hpair : Companions c p p' q.program q'.program (c.externalSlots values) (c.externalSlots values) :=
    ⟨hfilled, hfilled', .external hfilled.static hfilled'.static (c.get?_externalSlots values),
      hcompiled.pure hf, (compiled_of_compile hq').pure hf⟩
  have hdelivers := ((hcompiled.evaluate_iff (hcompiled.pure hf) fun f h => (hf f h).1).mp ⟨fuel, hrun⟩).2
  exact (hpair.delivers_iff ⟨x, hlaid.spells, hspells⟩).mp hdelivers

theorem StaticContext.Comes.union (hA : c.Comes focus values x A) (hB : c.Comes focus values y B) :
    c.Comes focus values (.binary .union x y) (inDocumentOrder true (A ++ B)) := by
  intro whole q p e hq hfilled hspells
  rw [Spells] at hspells
  obtain ⟨i, j, hi, hj, hform, hchildren⟩ := hspells
  obtain ⟨_, hnew, rfl⟩ := hfilled.form hform
  have hparts : List.Forall₂ (fun e nodes => q.program.Delivers (c.externalSlots values) e focus (nodes.map .node))
      (q.program.children e) [A, B] := by
    rw [hfilled.children, hchildren]
    exact .cons (hA whole q p i hq hfilled hi) (.cons (hB whole q p j hq hfilled hj) .nil)
  have hunion := Program.delivers_union ((compiled_of_compile hq).pure hf) hnew hparts
  rwa [flatten_cons, flatten_singleton] at hunion

theorem StaticContext.Comes.drains (hz : c.Drains focus values z B) (h : c.Comes focus values x A)
    (hx : c.Compiles x) : c.Drains focus values x A := by
  obtain ⟨q, hq⟩ := hx
  obtain ⟨qz, fuel, hqz, hrun⟩ := hz
  have hiff : ∀ {x : Expr} {q : Query}, compile c x = .ok q → ∀ items, _ := fun hq items =>
    @Compiled.evaluate_iff c _ (compiled_of_compile hq) ((compiled_of_compile hq).pure hf) (fun f h => (hf f h).1)
      focus values items
  obtain ⟨hvalues, -⟩ := (hiff hqz _).mp ⟨fuel, hrun⟩
  obtain ⟨p, hlaid, hfilled, -⟩ := filledIn_of_compile hq
  obtain ⟨n, hrun⟩ := (hiff hq _).mpr ⟨hvalues, h x q p q.root hq hfilled hlaid.spells⟩
  exact ⟨q, n, hq, hrun⟩

end

/-! ## Ordered cursors -/

section

variable {keeper : Program → Variables} {p : Program} {n : Nat} {c c' : Cursor} {s s' : Store}
  {items : List Item} {err : Error}

def Mixed (items : List Item) : Prop :=
  (∃ i ∈ items, i.isNode = true) ∧ ∃ i ∈ items, i.isNode = false

/-- An ordered cursor fails just if it cannot gather its input. -/
theorem next_inOrder_error_iff :
    (∃ d, (machineWith keeper (n + 1) p).next (.inOrder unique c) s = some ((d, .error err), s')) ↔
      (machineWith keeper n p).gather (machineWith keeper n p).fuel c [] [] s = some (.error err, s') := by
  have hnext : ∀ {x t}, (machineWith keeper n p).arrange unique c s = some (x, t) →
      (machineWith keeper (n + 1) p).next (.inOrder unique c) s = _ := fun h => Run.bind_of_some h
  constructor
  · rintro ⟨d, h⟩
    obtain ⟨x, t, harrange, -⟩ := Run.of_bind (x := ((machineWith keeper n p).arrange unique c).run) h
    rw [hnext harrange] at h
    match x with
    | .ok [] | .ok (i :: items) => cases h
    | .error e =>
      cases h
      obtain ⟨y, t, hgather, h⟩ := Run.of_bind (x := ((machineWith keeper n p).gather _ c [] []).run) harrange
      match y with
      | .error e =>
        cases h
        exact hgather
      | .ok (nodes, atomics) =>
        change (if atomics.isEmpty = true then _ else _ : Eval (List Item)) t = _ at h
        split at h <;> cases h
  · intro h
    exact ⟨_, hnext (Eval.bind_of_error h)⟩

/-- An ordered cursor fails with the error for mixed results just if items pulled from its input are nodes and
atomic values, or if the input itself comes to this error. -/
theorem fails_inOrder_iff : (∃ d s', (machineWith keeper (n + 1) p).next (.inOrder unique c) s =
        some ((d, .error (.format .XPTY0018 [])), s')) ↔
      (∃ items c' s', (machineWith keeper n p).Takes c s items c' s' ∧
        items.length ≤ (machineWith keeper n p).fuel ∧ Mixed items) ∨
      ∃ out, (machineWith keeper n p).Reads c s out (.error (.format .XPTY0018 [])) ∧
        out.length < (machineWith keeper n p).fuel := by
  rw [exists_comm]
  simp only [next_inOrder_error_iff]
  constructor
  · rintro ⟨s', h⟩
    refine (Calls.of_gather h).imp_left ?_
    rintro ⟨-, items, c', t, htakes, hlength, hnode, hatomic⟩
    exact ⟨items, c', t, htakes, hlength, hnode.resolve_left (absurd rfl), hatomic.resolve_left (absurd rfl)⟩
  · rintro (⟨items, c', t, htakes, hlength, hnode, hatomic⟩ | ⟨out, hreads, hlength⟩)
    · exact gather_of_takes htakes hlength rfl (.inr hnode) (.inr hatomic)
    · have hgather : ∃ s', (machineWith keeper n p).gather _ c [] [] s = some (_, s') := hreads.gather hlength rfl
      obtain ⟨s', hgather⟩ := hgather
      refine ⟨s', hgather.trans ?_⟩
      unfold gathered
      split <;> rfl

end

/-! ## The laws -/

/-- Nodes at one position are the same node. -/
def Known (nodes : List Node) : Prop :=
  ∀ a ∈ nodes, ∀ b ∈ nodes, a.orderKey = b.orderKey → a = b

theorem Known.eq_of_orderKeys (hknown : Known nodes) :
    ∀ {l l' : List Node}, l ⊆ nodes → l' ⊆ nodes → orderKeys l = orderKeys l' → l = l'
  | [], [], _, _, _ => rfl
  | [], _ :: _, _, _, h | _ :: _, [], _, _, h => nomatch h
  | a :: l, b :: l', hl, hl', h => by
    obtain ⟨hkey, hkeys⟩ := cons.inj h
    obtain ⟨ha, hl⟩ := cons_subset.mp hl
    obtain ⟨hb, hl'⟩ := cons_subset.mp hl'
    rw [hknown a ha b hb hkey, hknown.eq_of_orderKeys hl hl' hkeys]

theorem Known.inDocumentOrder_eq (hknown : Known nodes) (hl : l ⊆ nodes) (hl' : l' ⊆ nodes)
    (h : ∀ k, k ∈ orderKeys l ↔ k ∈ orderKeys l') : inDocumentOrder true l = inDocumentOrder true l' :=
  hknown.eq_of_orderKeys (fun _ hn => hl (mem_of_mem_inDocumentOrder hn))
    (fun _ hn => hl' (mem_of_mem_inDocumentOrder hn)) (orderKeys_eq_of_mem_iff h)

theorem mem_orderKeys_append : k ∈ orderKeys (l ++ l') ↔ k ∈ orderKeys l ∨ k ∈ orderKeys l' := by
  rw [orderKeys, map_append, mem_append]
  rfl

section

variable {A B C : List Node} (hknown : Known (A ++ B ++ C))

include hknown

theorem Known.union_comm : inDocumentOrder true (A ++ B) = inDocumentOrder true (B ++ A) := by
  refine hknown.inDocumentOrder_eq (subset_append_left ..) ?_ fun k => ?_
  · exact append_subset.mpr ⟨fun n hn => by simp [hn], fun n hn => by simp [hn]⟩
  · rw [mem_orderKeys_append, mem_orderKeys_append, or_comm]

theorem Known.union_assoc : inDocumentOrder true (inDocumentOrder true (A ++ B) ++ C) =
      inDocumentOrder true (A ++ inDocumentOrder true (B ++ C)) := by
  refine hknown.inDocumentOrder_eq ?_ ?_ fun k => ?_
  · refine append_subset.mpr ⟨fun n hn => ?_, subset_append_right ..⟩
    exact mem_append_left _ (mem_of_mem_inDocumentOrder hn)
  · rw [append_assoc]
    refine append_subset.mpr ⟨subset_append_left .., fun n hn => ?_⟩
    exact mem_append_right _ (mem_of_mem_inDocumentOrder hn)
  · simp only [mem_orderKeys_append, mem_orderKeys_inDocumentOrder, or_assoc]

theorem Known.union_self : inDocumentOrder true (A ++ A) = inDocumentOrder true A := by
  have hA : A ⊆ A ++ B ++ C := fun n hn => by simp [hn]
  refine hknown.inDocumentOrder_eq (append_subset.mpr ⟨hA, hA⟩) hA fun k => ?_
  rw [mem_orderKeys_append, or_self]

end

/-- Sorting gives the nodes in document order, and with repeats dropped each position once. It depends on the
positions only, and sorting again changes nothing. So unions of operands that come to nodes may be reordered and
regrouped. An ordered cursor fails as mixed if and only if it has pulled nodes and atomic values from its input, or
this is the error that the input itself ends with. -/
theorem Query.union_laws :
    (∀ nodes, (inDocumentOrder false nodes).Perm nodes ∧
      (inDocumentOrder false nodes).Pairwise fun a b => a.compare b ≠ .gt) ∧
    (∀ nodes, ((inDocumentOrder true nodes).Pairwise fun a b => a.compare b = .lt) ∧
      ∀ k, k ∈ orderKeys (inDocumentOrder true nodes) ↔ k ∈ orderKeys nodes) ∧
    (∀ nodes nodes', (orderKeys nodes).Perm (orderKeys nodes') →
      orderKeys (inDocumentOrder false nodes) = orderKeys (inDocumentOrder false nodes')) ∧
    (∀ nodes nodes', (∀ k, k ∈ orderKeys nodes ↔ k ∈ orderKeys nodes') →
      orderKeys (inDocumentOrder true nodes) = orderKeys (inDocumentOrder true nodes')) ∧
    (∀ unique nodes, inDocumentOrder unique (inDocumentOrder unique nodes) = inDocumentOrder unique nodes) ∧
    (∀ c : StaticContext, (∀ f, c.Callable f → f.KeepsReply ∧ f.Grows) → ∀ focus values x y z A B C,
      c.Drains focus values x A → c.Drains focus values y B → c.Drains focus values z C → Known (A ++ B ++ C) →
      (c.Compiles (.binary .union x y) → c.Compiles (.binary .union y x) →
        ∃ nodes, c.Drains focus values (.binary .union x y) nodes ∧
          c.Drains focus values (.binary .union y x) nodes) ∧
      (c.Compiles (.binary .union (.binary .union x y) z) → c.Compiles (.binary .union x (.binary .union y z)) →
        ∃ nodes, c.Drains focus values (.binary .union (.binary .union x y) z) nodes ∧
          c.Drains focus values (.binary .union x (.binary .union y z)) nodes) ∧
      (c.Compiles (.binary .union x x) →
        c.Drains focus values (.binary .union x x) (inDocumentOrder true A))) ∧
    ∀ (p : Program) (n : Nat) (unique : Bool) (c : Cursor) (s : Store),
      (∃ d s', (machine (n + 1) p).next (.inOrder unique c) s =
          some ((d, .error (.format .XPTY0018 [])), s')) ↔
        (∃ items c' s', (machine n p).Takes c s items c' s' ∧ items.length ≤ (machine n p).fuel ∧ Mixed items) ∨
        ∃ out, (machine n p).Reads c s out (.error (.format .XPTY0018 [])) ∧
          out.length < (machine n p).fuel := by
  refine ⟨fun nodes => ⟨mergeSort_perm nodes _, ?_⟩,
    fun nodes => ⟨pairwise_inDocumentOrder nodes, fun _ => mem_orderKeys_inDocumentOrder⟩,
    fun _ _ => orderKeys_eq_of_perm, fun _ _ => orderKeys_eq_of_mem_iff, inDocumentOrder_idem, ?_,
    fun _ _ _ _ _ => fails_inOrder_iff⟩
  · refine (pairwise_mergeSort_nodes nodes).imp fun h => ?_
    rcases Node.precedesOrSame_iff.mp h with h | h <;> simp [h]
  · intro c hf focus values x y z A B C hx hy hz hknown
    have hA := hx.comes hf
    have hB := hy.comes hf
    have hC := hz.comes hf
    refine ⟨fun hxy hyx => ?_, fun hleft hright => ?_, fun hxx => ?_⟩
    · refine ⟨_, (hA.union hf hB).drains hf hx hxy, ?_⟩
      rw [hknown.union_comm]
      exact (hB.union hf hA).drains hf hx hyx
    · refine ⟨_, ((hA.union hf hB).union hf hC).drains hf hx hleft, ?_⟩
      rw [hknown.union_assoc]
      exact (hA.union hf (hB.union hf hC)).drains hf hx hright
    · rw [← hknown.union_self]
      exact (hA.union hf hA).drains hf hx hxx

/-- `child::*` -/
def childElements : Expr :=
  .path .relative [.axis .child .anyName []]

/-- `(child::*, .)` -/
def childrenAndSelf : Expr :=
  .sequence [childElements, .contextItem]

theorem StaticContext.drains_of_eq (fuel : Nat) (h : (match compile c x with
      | .ok q => q.evaluate fuel focus values
      | .error _ => none) = some (.ok (nodes.map .node))) : c.Drains focus values x nodes := by
  split at h
  · next q hq => exact ⟨q, fuel, hq, h⟩
  · cases h

/-- The second operand has the nodes of the first one and one more, out of order. -/
theorem Query.union_laws_children :
    let tree : Document := .build 0 .layered
    let focus : Snapshot := .single (some (.node (.rootOf tree)))
    let drains := StaticContext.standard.Drains focus []
    drains childElements [⟨tree, .entry 1⟩, ⟨tree, .entry 5⟩] ∧
      drains childrenAndSelf [⟨tree, .entry 1⟩, ⟨tree, .entry 5⟩, ⟨tree, .entry 0⟩] ∧
      ∃ nodes, drains (.binary .union childElements childrenAndSelf) nodes ∧
        drains (.binary .union childrenAndSelf childElements) nodes := by
  intro tree focus drains
  have hx : drains childElements [⟨tree, .entry 1⟩, ⟨tree, .entry 5⟩] :=
    StaticContext.drains_of_eq 40 (by cbv)
  have hy : drains childrenAndSelf [⟨tree, .entry 1⟩, ⟨tree, .entry 5⟩, ⟨tree, .entry 0⟩] :=
    StaticContext.drains_of_eq 40 (by cbv)
  have hknown : Known ([⟨tree, .entry 1⟩, ⟨tree, .entry 5⟩] ++
      [⟨tree, .entry 1⟩, ⟨tree, .entry 5⟩, ⟨tree, .entry 0⟩] ++ [⟨tree, .entry 1⟩, ⟨tree, .entry 5⟩]) := by
    simp [Known, Node.orderKey]
  have hcompiles : ∀ x, (compile .standard x).isOk = true → StaticContext.standard.Compiles x := by
    intro x hx
    cases hq : compile .standard x with
    | ok q => exact ⟨q, hq⟩
    | error e =>
      rw [hq] at hx
      cases hx
  obtain ⟨-, -, -, -, -, hlaws, -⟩ := Query.union_laws
  exact ⟨hx, hy, (hlaws .standard (fun _ => CoreFunction.standard_keepsReply_grows) focus [] _ _ _ _ _ _ hx hy hx
    hknown).1 (hcompiles _ (by cbv)) (hcompiles _ (by cbv))⟩

/-- The error may come from the input itself, though nothing that has been pulled from it is mixed. -/
theorem Cursor.inOrder_of_mixedInput :
    let mixed : Cursor := .inOrder true (.ofItems [.node (.rootOf .smallTree), .atomic (.boolean true)])
    let p := Program.empty .standard
    let s := Store.ofSlots (.ofSize 0)
    (∃ d s', (machine 8 p).next (.inOrder true mixed) s = some ((d, .error (.format .XPTY0018 [])), s')) ∧
      ¬ ∃ items c' s', (machine 7 p).Takes mixed s items c' s' ∧ Mixed items := by
  intro mixed p s
  refine ⟨⟨_, _, rfl⟩, ?_⟩
  rintro ⟨items, c', s', htakes, ⟨i, hi, -⟩, -⟩
  cases htakes with
  | nothing => cases hi
  | item pull => cases pull

end XPath
