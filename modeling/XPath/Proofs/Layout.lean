import XPath.Proofs.Placement

/-!
# How expressions are laid out

Nodes are appended children first, so that an expression takes up an interval of numbers that ends with its own
node, and its children take up intervals one after the other below it. `Laid` says so of a program; `Appended`
that a program has been extended by expressions that are laid out like this and have no parent yet. Paths and
filters list as children what their steps refer to.
-/

namespace XPath

open List Array

variable {f : ExprNode → ExprNode} {c : ExprId} {cs : List ExprId} {form : Form}

/-- The children of a path or filter are what its steps evaluate, a variable has none, a loop has a source and a
body, and an operator has its operands. A path begins with a step that navigates and is sorted until it is known
to be ordered, the steps of a filter do not navigate, and a call has no function until it is bound. -/
def Form.Fits (children : List ExprId) : Form → Prop
  | .variable .. => children = []
  | .path plan => plan.parts = children ∧ plan.sort = true ∧
      ∃ first rest, plan.steps = first :: rest ∧ first.isFilter = false
  | .filter steps =>
    (∃ source, children = source :: steps.filterMap Step.expr?) ∧ ∀ s ∈ steps, s.isFilter = true
  | .call _ function => function = none
  | .forEach _ b | .quantified _ _ b => b = none ∧ ∃ source body, children = [source, body]
  | .arithmetic _ | .and | .or | .compare .. | .range | .union => ∃ left right, children = [left, right]
  | .negate => ∃ operand, children = [operand]
  | .ifThenElse => ∃ cond yes no, children = [cond, yes, no]
  | .literal _ | .contextItem | .root | .sequence => True

def Program.FitsAt (p : Program) (e : ExprId) : Prop :=
  ∃ form, p.form? e = some form ∧ form.Fits (p.children e)

/-- Expressions in intervals one after the other, with nothing between them. -/
def InRow (P : Nat → Nat → ExprId → Prop) : Nat → Nat → List ExprId → Prop
  | lo, hi, [] => lo = hi
  | lo, hi, e :: es => ∃ mid, lo ≤ mid ∧ P lo mid e ∧ InRow P mid hi es

namespace InRow

variable {P Q : Nat → Nat → ExprId → Prop} {es fs : List ExprId}

theorem apart : ∀ {lo hi : Nat}, InRow P lo hi es → Apart P lo hi es := by
  induction es with
  | nil => exact fun h => Nat.le_of_eq h
  | cons e es ih =>
    rintro lo hi ⟨mid, hmid, he, hes⟩
    exact ⟨mid, hmid, he, ih hes⟩

theorem le (h : InRow P lo hi es) : lo ≤ hi :=
  h.apart.le

theorem imp : ∀ {lo hi : Nat}, InRow P lo hi es →
    (∀ l h e, lo ≤ l → h ≤ hi → P l h e → Q l h e) → InRow Q lo hi es := by
  induction es with
  | nil => exact fun h _ => h
  | cons e es ih =>
    rintro lo hi ⟨mid, hmid, he, hes⟩ hPQ
    refine ⟨mid, hmid, hPQ lo mid e .refl hes.le he, ih hes ?_⟩
    exact fun l h e hl hh => hPQ l h e (Nat.le_trans hmid hl) hh

theorem append (hfs : InRow P mid hi fs) : ∀ {lo : Nat}, InRow P lo mid es → InRow P lo hi (es ++ fs) := by
  induction es with
  | nil =>
    rintro lo rfl
    exact hfs
  | cons e es ih =>
    rintro lo ⟨m, hm, he, hes⟩
    exact ⟨m, hm, he, ih hes⟩

theorem split : ∀ {lo : Nat}, InRow P lo hi (es ++ fs) → ∃ mid, InRow P lo mid es ∧ InRow P mid hi fs := by
  induction es with
  | nil => exact fun {lo} h => ⟨lo, rfl, h⟩
  | cons e es ih =>
    rintro lo ⟨m, hm, he, hes⟩
    obtain ⟨mid, hes, hfs⟩ := ih hes
    exact ⟨mid, ⟨m, hm, he, hes⟩, hfs⟩

end InRow

/-- The expression is the last of an interval, with its children in intervals below, at most so many levels
deep. -/
def LaidAt (p : Program) : Nat → Nat → Nat → ExprId → Prop
  | 0, _, _, _ => False
  | n + 1, lo, hi, e => hi = e + 1 ∧ InRow (LaidAt p n) lo e (p.children e)

/-- The expression is laid out in an interval. A program has no more levels than nodes. -/
def Laid (p : Program) : Nat → Nat → ExprId → Prop :=
  LaidAt p p.size

namespace LaidAt

variable {p q : Program} {n : Nat}

/-- Only the nodes of the interval matter. -/
theorem congr : ∀ {lo hi : Nat} {e : ExprId},
    (∀ i, lo ≤ i → i < hi → q.children i = p.children i) → LaidAt p n lo hi e → LaidAt q n lo hi e := by
  induction n with
  | zero => exact fun _ h => h
  | succ n ih =>
    rintro lo hi e hsame ⟨rfl, hchildren⟩
    refine ⟨rfl, ?_⟩
    rw [hsame e hchildren.le .refl]
    refine hchildren.imp fun l h c hl hh hc => ih (fun i hi hi' => hsame i ?_ ?_) hc
    · exact Nat.le_trans hl hi
    · omega

theorem mono : ∀ {n lo hi : Nat} {e : ExprId}, n ≤ m → LaidAt p n lo hi e → LaidAt p m lo hi e := by
  induction m with
  | zero =>
    intro n lo hi e hn h
    rwa [Nat.le_zero.mp hn] at h
  | succ m ih =>
    intro n lo hi e hn h
    cases n with
    | zero => exact h.elim
    | succ n =>
      obtain ⟨hhi, hchildren⟩ := h
      exact ⟨hhi, hchildren.imp fun _ _ _ _ _ hc => ih (Nat.le_of_succ_le_succ hn) hc⟩

end LaidAt

def Outside (lo hi i : Nat) : Prop :=
  i < lo ∨ hi ≤ i

def Inside (lo hi i : Nat) : Prop :=
  lo ≤ i ∧ i < hi

/-- Expressions in a row lie in the interval, each after those before it. -/
theorem InRow.inside : ∀ {lo hi : Nat},
    InRow (LaidAt p n) lo hi es → (∀ c ∈ es, Inside lo hi c) ∧ es.Nodup := by
  induction es with
  | nil => exact fun _ => ⟨nofun, nodup_nil⟩
  | cons e es ih =>
    rintro lo hi ⟨mid, hmid, he, hes⟩
    obtain ⟨hin, hnodup⟩ := ih hes
    obtain ⟨hlo, rfl⟩ : lo ≤ e ∧ mid = e + 1 := by
      cases n with
      | zero => exact he.elim
      | succ n => exact ⟨he.2.le, he.1⟩
    refine ⟨forall_mem_cons.mpr ⟨⟨hlo, hes.le⟩, ?_⟩, nodup_cons.mpr ⟨?_, hnodup⟩⟩
    · exact fun c hc => ⟨Nat.le_trans hmid (hin c hc).1, (hin c hc).2⟩
    · exact fun he => Nat.lt_irrefl e (hin e he).1

/-! ## Families -/

section

variable {p : Program} {n lo hi : Nat} {e : ExprId} {es : List ExprId}

/-- The children of an expression come before it, and lie in the interval that it lies in. -/
def Program.Descending (p : Program) (lo hi : Nat) : Prop :=
  ∀ i, lo ≤ i → i < hi → ∀ c : Nat, c ∈ p.children i → lo ≤ c ∧ c < i

/-- No two expressions of the interval share a child. -/
def Program.Separate (p : Program) (lo hi : Nat) : Prop :=
  ∀ i j, lo ≤ i → i < hi → lo ≤ j → j < hi →
    ∀ c : Nat, c ∈ p.children i → c ∈ p.children j → i = j

theorem InRow.family (hP : ∀ l h c, LaidAt p n l h c → p.Descending l h ∧ p.Separate l h) :
    ∀ {lo : Nat}, InRow (LaidAt p n) lo hi es → p.Descending lo hi ∧ p.Separate lo hi ∧
      ∀ c : Nat, c ∈ es → lo ≤ c ∧ c < hi ∧ ∀ i, lo ≤ i → i < hi → c ∉ p.children i := by
  induction es with
  | nil =>
    rintro lo rfl
    exact ⟨fun i hlo hhi => absurd hhi (Nat.not_lt.mpr hlo), fun i j hlo hhi => absurd hhi (Nat.not_lt.mpr hlo), nofun⟩
  | cons e es ih =>
    rintro lo ⟨mid, hmid, he, hes⟩
    obtain ⟨hrest, hrest', htops⟩ := ih hes
    have hle := hes.le
    obtain ⟨hfirst, hfirst'⟩ := hP lo mid e he
    have htop : lo ≤ e ∧ mid = e + 1 := by
      cases n with
      | zero => exact he.elim
      | succ n => exact ⟨he.2.le, he.1⟩
    -- the children of an expression lie on its side of the middle
    have hside : ∀ i, lo ≤ i → i < hi → ∀ c : Nat, c ∈ p.children i →
        lo ≤ c ∧ c < i ∧ (mid ≤ i → mid ≤ c) := by
      intro i hlo hhi c hc
      by_cases hi : i < mid
      · have := hfirst i hlo hi c hc
        omega
      · have := hrest i (Nat.le_of_not_lt hi) hhi c hc
        omega
    refine ⟨fun i hlo hhi c hc => ⟨(hside i hlo hhi c hc).1, (hside i hlo hhi c hc).2.1⟩, ?_, ?_⟩
    · intro i j hilo hihi hjlo hjhi c hci hcj
      have hi := hside i hilo hihi c hci
      have hj := hside j hjlo hjhi c hcj
      by_cases him : i < mid
      · exact hfirst' i j hilo him hjlo (by omega) c hci hcj
      · exact hrest' i j (by omega) hihi (by omega) hjhi c hci hcj
    intro c hc
    rcases mem_cons.mp hc with rfl | hc
    · refine ⟨htop.1, by omega, ?_⟩
      intro i hlo hhi hchild
      have := hside i hlo hhi c hchild
      omega
    · obtain ⟨hclo, hchi, hfree⟩ := htops c hc
      refine ⟨by omega, hchi, ?_⟩
      intro i hlo hhi hchild
      have := hside i hlo hhi c hchild
      exact hfree i (by omega) hhi hchild

theorem LaidAt.family : ∀ {lo hi : Nat} {e : ExprId}, LaidAt p n lo hi e → p.Descending lo hi ∧ p.Separate lo hi := by
  induction n with
  | zero => exact fun h => h.elim
  | succ n ih =>
    rintro lo hi e ⟨rfl, hchildren⟩
    obtain ⟨hrow, hrow', htops⟩ := hchildren.family fun _ _ _ => ih
    refine ⟨fun i hlo hhi c hc => ?_, fun i j hilo hihi hjlo hjhi c hci hcj => ?_⟩
    · rcases Nat.lt_or_eq_of_le (Nat.le_of_lt_succ hhi) with hlt | rfl
      · exact hrow i hlo hlt c hc
      · exact ⟨(htops c hc).1, (htops c hc).2.1⟩
    · rcases Nat.lt_or_eq_of_le (Nat.le_of_lt_succ hihi) with hi | rfl
      · rcases Nat.lt_or_eq_of_le (Nat.le_of_lt_succ hjhi) with hj | rfl
        · exact hrow' i j hilo hi hjlo hj c hci hcj
        · exact absurd hci ((htops c hcj).2.2 i hilo hi)
      · rcases Nat.lt_or_eq_of_le (Nat.le_of_lt_succ hjhi) with hj | rfl
        · exact absurd hcj ((htops c hci).2.2 j hjlo hj)
        · rfl

theorem InRow.descending (h : InRow (LaidAt p n) lo hi es) : p.Descending lo hi :=
  (h.family fun _ _ _ => LaidAt.family).1

end

/-! ## Appending nodes -/

/-- A program with more nodes, which fit their children. The old ones may get a parent. -/
structure Grown (p p' : Program) : Prop where
  static : p'.static = p.static
  size : p.size ≤ p'.size
  form : ∀ i, i < p.size → p'.form? i = p.form? i
  children : ∀ i, i < p.size → p'.children i = p.children i
  fits : ∀ i, p.size ≤ i → i < p'.size → p'.FitsAt i

namespace Grown

theorem refl (p : Program) : Grown p p :=
  ⟨rfl, .refl, fun _ _ => rfl, fun _ _ => rfl, fun _ hle hlt => absurd hlt (Nat.not_lt.mpr hle)⟩

theorem trans (h : Grown p p') (h' : Grown p' p'') : Grown p p'' where
  static := h'.static.trans h.static
  size := Nat.le_trans h.size h'.size
  form := fun i hi => (h'.form i (Nat.lt_of_lt_of_le hi h.size)).trans (h.form i hi)
  children := fun i hi => (h'.children i (Nat.lt_of_lt_of_le hi h.size)).trans (h.children i hi)
  fits := by
    intro i hle hlt
    rcases Nat.lt_or_ge i p'.size with hi | hi
    · unfold Program.FitsAt
      rw [h'.form i hi, h'.children i hi]
      exact h.fits i hle hi
    · exact h'.fits i hi hlt

theorem laid (h : Grown p p') (hhi : hi ≤ p.size) (he : Laid p lo hi e) : Laid p' lo hi e :=
  (LaidAt.congr (fun i _ hi => h.children i (Nat.lt_of_lt_of_le hi hhi)) he).mono h.size

theorem laidAll (h : Grown p p') (hhi : hi ≤ p.size) (hes : InRow (Laid p) lo hi es) : InRow (Laid p') lo hi es :=
  hes.imp fun _ _ _ _ hh he => h.laid (Nat.le_trans hh hhi) he

end Grown

namespace Program

variable {p p' : Program} {e : ExprId}

theorem nodes_modify (p : Program) (e i : ExprId) (f : ExprNode → ExprNode) :
    (p.modify e f).nodes[i]? = if e = i then (p.nodes[i]?).map f else p.nodes[i]? :=
  getElem?_modify

theorem size_modify (p : Program) (e : ExprId) (f : ExprNode → ExprNode) : (p.modify e f).size = p.size :=
  Array.size_modify

theorem form?_modify (hf : ∀ node, (f node).form = node.form) (i : ExprId) : (p.modify e f).form? i = p.form? i := by
  unfold form?
  rw [nodes_modify]
  split
  · cases p.nodes[i]? with
    | none => rfl
    | some node => exact congrArg some (hf node)
  · rfl

theorem children_modify (hf : ∀ node, (f node).children = node.children) (i : ExprId) :
    (p.modify e f).children i = p.children i := by
  unfold children
  rw [nodes_modify]
  split
  · cases p.nodes[i]? with
    | none => rfl
    | some node => exact hf node
  · rfl

theorem children_modify_ne (hi : i ≠ e) : (p.modify e f).children i = p.children i := by
  unfold children
  rw [nodes_modify, if_neg (Ne.symm hi)]

structure Attached (p p' : Program) (e : ExprId) (cs : List ExprId) : Prop where
  static : p'.static = p.static
  size : p'.size = p.size
  form : ∀ i, p'.form? i = p.form? i
  others : ∀ i, i ≠ e → p'.children i = p.children i
  children : p'.children e = p.children e ++ cs

/-- An attachment is refused and nothing is changed, or both nodes are. -/
theorem attach_cases (p : Program) (e c : ExprId) :
    (∃ q, p.attach e c = .ok q ∧ p.link e c = (q, .ok ()) ∧ ¬ (e = c ∨ p.size ≤ c ∨ p.size ≤ e) ∧
      p.parent? c = none ∧ q = (p.modify c fun node => { node with parent := some e }).modify e fun node =>
        { node with children := node.children ++ [c] }) ∨
    ∃ err, p.attach e c = .error err ∧ p.link e c = (p, .error err) ∧
      (e = c ∨ p.size ≤ c ∨ p.size ≤ e ∨ p.parent? c ≠ none) := by
  unfold attach link
  split
  · next h => exact .inr ⟨_, rfl, rfl, by grind⟩
  · next h =>
    split
    · next hparent => exact .inr ⟨_, rfl, rfl, by simp [hparent]⟩
    · next hparent => exact .inl ⟨_, rfl, rfl, h, hparent, rfl⟩

theorem attached_of_attach (h : p.attach e c = .ok p') : Attached p p' e [c] := by
  rcases attach_cases p e c with ⟨q, hq, -, hvalid, -, hmodified⟩ | ⟨err, herr, -⟩
  · cases hq.symm.trans h
    rw [hmodified]
    refine ⟨rfl, ?_, ?_, ?_, ?_⟩
    · rw [size_modify, size_modify]
    · intro i
      exact (form?_modify (by intro; rfl) i).trans (form?_modify (by intro; rfl) i)
    · intro i hi
      exact (children_modify_ne hi).trans (children_modify (by intro; rfl) i)
    · have he : e < p.nodes.size := Nat.lt_of_not_le fun h => hvalid (.inr (.inr h))
      have hne : c ≠ e := fun h => hvalid (.inl h.symm)
      unfold children
      rw [nodes_modify, if_pos rfl, nodes_modify, if_neg hne, Array.getElem?_eq_getElem he]
      rfl
  · cases herr.symm.trans h

theorem Attached.trans (h : Attached p p' e cs) (h' : Attached p' p'' e ds) :
    Attached p p'' e (cs ++ ds) where
  static := h'.static.trans h.static
  size := h'.size.trans h.size
  form i := (h'.form i).trans (h.form i)
  others i hi := (h'.others i hi).trans (h.others i hi)
  children := by rw [h'.children, h.children, List.append_assoc]

/-- Attaching a free node to another one succeeds, and no other node gets a parent. -/
theorem exists_attach (hne : e ≠ c) (he : e < p.size) (hc : c < p.size) (hfree : p.parent? c = none) :
    ∃ p', p.link e c = (p', .ok ()) ∧ Attached p p' e [c] ∧ ∀ i, i ≠ c → p'.parent? i = p.parent? i := by
  rcases attach_cases p e c with ⟨q, hattach, hlink, -, -, hmodified⟩ | ⟨err, -, -, h | h | h | h⟩
  rotate_left
  · exact absurd h hne
  · exact absurd h (Nat.not_le_of_lt hc)
  · exact absurd h (Nat.not_le_of_lt he)
  · exact absurd hfree h
  refine ⟨q, hlink, attached_of_attach hattach, fun i hi => ?_⟩
  unfold parent?
  rw [hmodified, nodes_modify, nodes_modify, if_neg (Ne.symm hi)]
  split
  · cases p.nodes[i]? <;> rfl
  · rfl

theorem exists_attachAll (hnodup : cs.Nodup) : ∀ {p : Program}, e < p.size → (∀ c ∈ cs, c < e ∧ p.parent? c = none) →
      ∃ p', attachAll e cs p = (p', .ok ()) ∧ Attached p p' e cs ∧
        ∀ i, i ∉ cs → p'.parent? i = p.parent? i := by
  induction cs with
  | nil =>
    exact fun _ _ =>
      ⟨_, rfl, ⟨rfl, rfl, fun _ => rfl, fun _ _ => rfl, (append_nil _).symm⟩, fun _ _ => rfl⟩
  | cons c cs ih =>
    intro p he hcs
    obtain ⟨hlt, hfree⟩ := hcs c (.head _)
    obtain ⟨hmem, hnodup⟩ := nodup_cons.mp hnodup
    obtain ⟨q, hq, hone, hparent⟩ := exists_attach (Nat.ne_of_gt hlt) he (Nat.lt_trans hlt he) hfree
    have hrest : ∀ d ∈ cs, d < e ∧ q.parent? d = none := by
      intro d hd
      obtain ⟨hdlt, hdfree⟩ := hcs d (.tail _ hd)
      exact ⟨hdlt, (hparent d fun h => hmem (h ▸ hd)).trans hdfree⟩
    obtain ⟨p', hp', hall, hparent'⟩ := ih hnodup (hone.size ▸ he) hrest
    refine ⟨p', ?_, hone.trans hall, ?_⟩
    · unfold attachAll
      rw [hq]
      exact hp'
    · intro i hi
      have hics : i ∉ cs := fun h => hi (.tail _ h)
      exact (hparent' i hics).trans (hparent i fun h => hi (h ▸ (.head _)))

end Program

structure Topped (p p' : Program) (form : Form) (cs : List ExprId) : Prop where
  static : p'.static = p.static
  size : p'.size = p.size + 1
  oldForm : ∀ i, i < p.size → p'.form? i = p.form? i
  oldChildren : ∀ i, i < p.size → p'.children i = p.children i
  form : p'.form? p.size = some form
  children : p'.children p.size = cs

theorem Topped.grown (h : Topped p p' form cs) (hfits : form.Fits cs) : Grown p p' := by
  refine ⟨h.static, ?_, h.oldForm, h.oldChildren, ?_⟩
  · exact Nat.le_of_lt (Nat.lt_of_lt_of_eq .refl h.size.symm)
  · intro i hle hlt
    obtain rfl : i = p.size := Nat.le_antisymm (Nat.le_of_lt_succ (Nat.lt_of_lt_of_eq hlt h.size)) hle
    refine ⟨form, h.form, ?_⟩
    rw [h.children]
    exact hfits

theorem topped_add (p : Program) (form : Form) : Topped p (p.add form) form [] := by
  have hold : ∀ i, i < p.size → (p.add form).nodes[i]? = p.nodes[i]? := by
    intro i hi
    rw [Program.add, getElem?_push_lt hi]
    exact (Array.getElem?_eq_getElem hi).symm
  have htop : (p.add form).nodes[p.size]? = some ⟨form, [], none, false, false⟩ :=
    getElem?_push_size
  refine ⟨rfl, size_push _, ?_, ?_, ?_, ?_⟩
  · intro i hi
    exact congrArg (Option.map _) (hold i hi)
  · intro i hi
    exact congrArg (Option.elim · [] _) (hold i hi)
  · exact congrArg (Option.map _) htop
  · exact congrArg (Option.elim · [] _) htop

/-- Expressions have been appended one after the other, and none of them has a parent yet. -/
structure Appended (p₀ : Program) (es : List ExprId) (p : Program) : Prop where
  grown : Grown p₀ p
  laid : InRow (Laid p) p₀.size p.size es
  free : ∀ e ∈ es, p.parent? e = none

/-- The last expressions become the children of a new one, which then stands in their place. -/
theorem Appended.exists_addWith (h : Appended p₀ (es ++ cs) p) (hfits : form.Fits cs) :
    ∃ p', p.addWith form cs = (p', .ok p.size) ∧ Topped p p' form cs ∧ Appended p₀ (es ++ [p.size]) p' := by
  obtain ⟨mid, hes, hcs⟩ := h.laid.split
  obtain ⟨hinside, hnodup⟩ := hcs.inside
  have hold (i : ExprId) (hi : i < p.size) : (p.add form).parent? i = p.parent? i := by
    unfold Program.parent?
    rw [Program.add, Array.getElem?_push_lt hi, Array.getElem?_eq_getElem hi]
  have hchildren : ∀ c ∈ cs, c < p.size ∧ (p.add form).parent? c = none := by
    intro c hc
    have hlt := (hinside c hc).2
    exact ⟨hlt, (hold c hlt).trans (h.free c (mem_append_right _ hc))⟩
  have hlt : p.size < (p.add form).size := Nat.lt_of_lt_of_eq .refl (size_push _).symm
  obtain ⟨p', hp', hattached, hparent⟩ := Program.exists_attachAll hnodup hlt hchildren
  have hadd : p.addWith form cs = (p', .ok p.size) := by
    unfold Program.addWith
    dsimp only
    rw [hp']
    rfl
  have hbase := topped_add p form
  have htop : Topped p p' form cs := by
    refine ⟨hattached.static, hattached.size.trans hbase.size, ?_, ?_, (hattached.form _).trans hbase.form, ?_⟩
    · exact fun i hi => (hattached.form i).trans (hbase.oldForm i hi)
    · exact fun i hi => (hattached.others i (Nat.ne_of_lt hi)).trans (hbase.oldChildren i hi)
    · rw [hattached.children, hbase.children, nil_append]
  have hgrown := htop.grown hfits
  have hnode : Laid p' mid (p.size + 1) p.size := by
    unfold Laid
    rw [htop.size]
    refine ⟨rfl, ?_⟩
    rw [htop.children]
    exact hcs.imp fun l k c _ hk hc =>
      LaidAt.congr (fun i _ hi => hgrown.children i (Nat.lt_of_lt_of_le hi hk)) hc
  have hlast : InRow (Laid p') mid p'.size [p.size] :=
    ⟨p.size + 1, Nat.le_succ_of_le hcs.le, hnode, htop.size.symm⟩
  refine ⟨p', hadd, htop, h.grown.trans hgrown, hlast.append (hgrown.laidAll hcs.le hes), ?_⟩
  intro i hi
  rcases mem_append.mp hi with hi | hi
  · have hin := (hes.inside.1 i hi).2
    rw [hparent i fun hic => Nat.not_lt.mpr (hinside i hic).1 hin, hold i (Nat.lt_of_lt_of_le hin hcs.le)]
    exact h.free i (mem_append_left _ hi)
  · obtain rfl := mem_singleton.mp hi
    rw [hparent _ fun hic => Nat.lt_irrefl _ (hinside _ hic).2]
    exact congrArg (Option.bind · ExprNode.parent) getElem?_push_size

theorem Literal.fits (l : Literal) : l.form.Fits [] := by
  cases l <;> trivial

theorem BinaryOp.fits (op : BinaryOp) (left right : ExprId) : op.form.Fits [left, right] := by
  cases op <;> exact ⟨left, right, rfl⟩

theorem loopForm_fits (q : Option Quantifier) (var : ExpandedName) (source body : ExprId) :
    (loopForm q var).Fits [source, body] := by
  cases q <;> exact ⟨rfl, source, body, rfl⟩

theorem filterMap_predicates (ids : List ExprId) : (ids.map Step.predicate).filterMap Step.expr? = ids := by
  rw [List.filterMap_map]
  exact filterMap_some

end XPath
