import Mathlib.Data.Finset.Card
import Mathlib.Logic.Relation
import XPath.Proofs.Binding

/-!
# Expressions as a forest

Nodes are appended and attached in any order, with any numbers, and a call that fails is just another call. The
links stay consistent whatever is done (`edited_linked`): a node is listed once under its parent and nowhere
else. Attaching looks at the two nodes at hand only. So it keeps a program free of loops if and only if the new
parent is not below the new child already (`acyclic_attach_iff`), which no call sees to.

Passes over a program go down from a node to its children. Without loops no node is deeper than there are nodes
(`Acyclic.induct`), so that the levels that such a pass is given are enough.
-/

namespace XPath

open List

namespace Program

inductive Edit where
  | add (form : Form)
  | attach (parent child : ExprId)
  | addWith (form : Form) (children : List ExprId)

def apply (p : Program) : Edit → Program × Except Error Unit
  | .add form => (p.add form, .ok ())
  | .attach parent child => p.link parent child
  | .addWith form children => ((p.addWith form children).1, (p.addWith form children).2.map fun _ => ())

def edited (p : Program) (edits : List Edit) : Program :=
  edits.foldl (fun p edit => (p.apply edit).1) p

variable {p q : Program} {c e i j : ExprId} {form : Form} {cs : List ExprId}

theorem edited_concat (p : Program) (edits : List Edit) (edit : Edit) :
    p.edited (edits ++ [edit]) = ((p.edited edits).apply edit).1 :=
  foldl_concat ..

/-! ## Links -/

theorem parent?_modify (hf : ∀ node, (f node).parent = node.parent)
    (i : ExprId) : (p.modify e f).parent? i = p.parent? i := by
  unfold parent?
  rw [nodes_modify]
  split
  · cases p.nodes[i]? with
    | none => rfl
    | some node => exact hf node
  · rfl

theorem children_of_size_le (h : p.size ≤ e) : p.children e = [] := by
  unfold children
  rw [Array.getElem?_eq_none h]
  rfl

theorem parent?_of_size_le (h : p.size ≤ c) : p.parent? c = none := by
  unfold parent?
  rw [Array.getElem?_eq_none h]
  rfl

theorem lt_size_of_parent? (h : p.parent? c = some e) : c < p.size :=
  Nat.lt_of_not_le fun hle => by
    rw [parent?_of_size_le hle] at h
    cases h

/-- A node that is appended has no links, and those of the others stay. -/
theorem nodes_add (p : Program) (form : Form) (i : ExprId) : (p.add form).nodes[i]? =
      if i = p.size then some ⟨form, [], none, false, false⟩ else p.nodes[i]? :=
  Array.getElem?_push

theorem children_add (p : Program) (form : Form) (i : ExprId) : (p.add form).children i = p.children i := by
  by_cases hi : i = p.size
  · subst hi
    rw [children_of_size_le .refl]
    unfold children
    rw [nodes_add, if_pos rfl]
    rfl
  · unfold children
    rw [nodes_add, if_neg hi]

theorem parent?_add (p : Program) (form : Form) (i : ExprId) : (p.add form).parent? i = p.parent? i := by
  by_cases hi : i = p.size
  · subst hi
    rw [parent?_of_size_le .refl]
    unfold parent?
    rw [nodes_add, if_pos rfl]
    rfl
  · unfold parent?
    rw [nodes_add, if_neg hi]

/-- What a call to attach checks, and what it does to the links of the child. -/
structure Links (p q : Program) (e c : ExprId) : Prop where
  ne : e ≠ c
  parent_lt : e < p.size
  child_lt : c < p.size
  free : p.parent? c = none
  parent : q.parent? c = some e
  others : ∀ i, i ≠ c → q.parent? i = p.parent? i

theorem links_of_attach (h : p.attach e c = .ok q) : Links p q e c := by
  rcases attach_cases p e c with ⟨q, hq, -, hvalid, hfree, hmodified⟩ | ⟨err, herr, -⟩
  · cases hq.symm.trans h
    have hc : c < p.size := Nat.lt_of_not_le fun h => hvalid (.inr (.inl h))
    refine ⟨fun h => hvalid (.inl h), Nat.lt_of_not_le fun h => hvalid (.inr (.inr h)), hc, hfree, ?_, ?_⟩
    · rw [hmodified, parent?_modify (by intro; rfl)]
      unfold parent?
      rw [nodes_modify, if_pos rfl, Array.getElem?_eq_getElem hc]
      rfl
    · intro i hi
      rw [hmodified, parent?_modify (by intro; rfl)]
      unfold parent?
      rw [nodes_modify, if_neg (Ne.symm hi)]
  · cases herr.symm.trans h

/-- What every successful attachment keeps, attaching several nodes keeps. -/
theorem attachAll_induct {P : Program → Prop} (h : ∀ p q c, P p → p.attach e c = .ok q → P q)
    (cs : List ExprId) : ∀ {p : Program}, P p → P (attachAll e cs p).1 := by
  induction cs with
  | nil => exact fun hp => hp
  | cons c cs ih =>
    intro p hp
    unfold attachAll
    rcases attach_cases p e c with ⟨q, hattach, hlink, -⟩ | ⟨err, -, hlink, -⟩
    · rw [hlink]
      exact ih (h p q c hp hattach)
    · rw [hlink]
      exact hp

/-- What appending a node and every successful attachment keep, every call keeps. -/
theorem apply_induct {P : Program → Prop} (hadd : ∀ p form, P p → P (p.add form))
    (hattach : ∀ p q e c, P p → p.attach e c = .ok q → P q) (hp : P p) (edit : Edit) : P (p.apply edit).1 := by
  cases edit with
  | add form => exact hadd p form hp
  | attach e c =>
    dsimp only [apply]
    rcases attach_cases p e c with ⟨q, h, hlink, -⟩ | ⟨err, -, hlink, -⟩
    · rw [hlink]
      exact hattach p q e c hp h
    · rw [hlink]
      exact hp
  | addWith form cs =>
    exact attachAll_induct (fun q r c => hattach q r p.size c) cs (hadd p form hp)

/-- Nodes that are attached are listed once under their parent, and nowhere else. -/
structure Linked (p : Program) : Prop where
  listed : ∀ c e, (p.children e).count c = if p.parent? c = some e then 1 else 0
  parent_lt : ∀ c e, p.parent? c = some e → e < p.size

namespace Linked

theorem empty (static : StaticContext) : (Program.empty static).Linked where
  listed := fun _ _ => rfl
  parent_lt := fun _ _ h => by cases h

theorem add (h : p.Linked) (form : Form) : (p.add form).Linked where
  listed := fun c e => by rw [children_add, parent?_add, h.listed]
  parent_lt := fun c e hc => by
    rw [parent?_add] at hc
    exact Nat.lt_of_lt_of_eq (Nat.lt_succ_of_lt (h.parent_lt c e hc)) (Array.size_push _).symm

theorem attach (h : p.Linked) (hattach : p.attach e c = .ok q) : q.Linked := by
  have hlinks := links_of_attach hattach
  have hattached := attached_of_attach hattach
  refine ⟨fun i j => ?_, fun i j hi => ?_⟩
  · have hold := h.listed i j
    by_cases hj : j = e
    · subst hj
      rw [hattached.children, count_append, hold]
      by_cases hi : i = c
      · subst hi
        simp [hlinks.free, hlinks.parent]
      · simp [hlinks.others i hi, Ne.symm hi]
    · rw [hattached.others j hj, hold]
      by_cases hi : i = c
      · subst hi
        simp [hlinks.free, hlinks.parent, Ne.symm hj]
      · rw [hlinks.others i hi]
  · rw [hattached.size]
    by_cases hi' : i = c
    · subst hi'
      obtain rfl : e = j := Option.some.inj (hlinks.parent.symm.trans hi)
      exact hlinks.parent_lt
    · exact h.parent_lt i j ((hlinks.others i hi').symm.trans hi)

theorem mem_children_iff (h : p.Linked) : c ∈ p.children e ↔ p.parent? c = some e := by
  rw [← count_pos_iff, h.listed]
  split <;> simp [*]

end Linked

theorem edited_linked (static : StaticContext) (edits : List Edit) : ((empty static).edited edits).Linked := by
  induction edits using reverseRecOn with
  | nil => exact .empty static
  | append_singleton edits edit ih =>
    rw [edited_concat]
    exact apply_induct (fun _ form h => h.add form) (fun _ _ _ _ h => h.attach) ih edit

/-- When attaching several nodes fails, those before the one that is refused have been attached. -/
theorem attachAll_of_error (cs : List ExprId) : ∀ {p q : Program}, attachAll e cs p = (q, .error err) →
      ∃ done c rest, cs = done ++ c :: rest ∧ attachAll e done p = (q, .ok ()) ∧
        q.link e c = (q, .error err) := by
  induction cs with
  | nil =>
    intro p q h
    cases h
  | cons c cs ih =>
    intro p q h
    unfold attachAll at h
    rcases attach_cases p e c with ⟨p', -, hlink, -⟩ | ⟨err', -, hlink, -⟩
    · rw [hlink] at h
      obtain ⟨done, d, rest, rfl, hdone, hrefused⟩ := ih h
      refine ⟨c :: done, d, rest, rfl, ?_, hrefused⟩
      unfold attachAll
      rw [hlink]
      exact hdone
    · rw [hlink] at h
      cases h
      exact ⟨[], c, cs, rfl, rfl, hlink⟩

/-- When appending a node with children fails, the node has been appended with those before the one that is
refused. -/
theorem apply_addWith_of_error (h : p.apply (.addWith form cs) = (q, .error err)) :
    ∃ done c rest, cs = done ++ c :: rest ∧ p.apply (.addWith form done) = (q, .ok ()) ∧
      q.apply (.attach p.size c) = (q, .error err) := by
  dsimp only [apply, addWith] at h ⊢
  cases hall : attachAll p.size cs (p.add form) with
  | mk q' r =>
    rw [hall] at h
    cases r with
    | ok u => cases h
    | error err' =>
      cases h
      obtain ⟨done, c, rest, rfl, hdone, hrefused⟩ := attachAll_of_error cs hall
      refine ⟨done, c, rest, rfl, ?_, hrefused⟩
      rw [hdone]
      rfl

/-! ## Loops -/

def Under (p : Program) : ExprId → ExprId → Prop :=
  Relation.TransGen fun c e => p.parent? c = some e

def Acyclic (p : Program) : Prop :=
  ∀ e, ¬ p.Under e e

theorem acyclic_congr (h : ∀ i, q.parent? i = p.parent? i) : q.Acyclic ↔ p.Acyclic := by
  unfold Acyclic Under
  simp only [h]

theorem Under.attach (h : p.Under i j) (hlinks : Links p q e c) : q.Under i j := by
  refine Relation.TransGen.mono (fun a b hab => ?_) i j h
  have hne : a ≠ c := by
    rintro rfl
    rw [hlinks.free] at hab
    cases hab
  exact (hlinks.others a hne).trans hab

/-- The child of a new link, or a node under it. -/
def AtOrUnder (p : Program) (i j : ExprId) : Prop :=
  i = j ∨ p.Under i j

theorem AtOrUnder.trans (h : p.AtOrUnder i j) (h' : p.AtOrUnder j k) : p.AtOrUnder i k := by
  obtain rfl | h := h
  · exact h'
  · obtain rfl | h' := h'
    · exact .inr h
    · exact .inr (Relation.TransGen.trans h h')

theorem AtOrUnder.tail (h : p.AtOrUnder i j) (hj : p.parent? j = some k) : p.Under i k := by
  obtain rfl | h := h
  · exact .single hj
  · exact .tail h hj

/-- A path upwards either was there before or goes over the new link. It goes over it once, if the parent was
not under the child. -/
theorem Links.under (hlinks : Links p q e c) (hopen : ¬ p.Under e c) (h : q.Under i j) :
    p.Under i j ∨ p.AtOrUnder i c ∧ p.AtOrUnder e j := by
  have hstuck : ¬ p.AtOrUnder e c := by
    rintro (h | h)
    · exact hlinks.ne h
    · exact hopen h
  have hstep {a b : ExprId} (hab : q.parent? a = some b) :
      a = c ∧ b = e ∨ p.parent? a = some b := by
    by_cases ha : a = c
    · subst ha
      exact .inl ⟨rfl, Option.some.inj (hab.symm.trans hlinks.parent)⟩
    · exact .inr ((hlinks.others a ha).symm.trans hab)
  induction h with
  | single hab =>
    obtain ⟨rfl, rfl⟩ | hab := hstep hab
    · exact .inr ⟨.inl rfl, .inl rfl⟩
    · exact .inl (.single hab)
  | tail _ hab ih =>
    obtain ⟨rfl, rfl⟩ | hab := hstep hab
    · obtain h | ⟨-, h⟩ := ih
      · exact .inr ⟨.inr h, .inl rfl⟩
      · exact absurd h hstuck
    · obtain h | ⟨hi, h⟩ := ih
      · exact .inl (.tail h hab)
      · exact .inr ⟨hi, .inr (h.tail hab)⟩

/-- Attaching a node closes no loop if the new parent is not under it. -/
theorem acyclic_attach_iff (hattach : p.attach e c = .ok q) : q.Acyclic ↔ p.Acyclic ∧ ¬ p.Under e c := by
  have hlinks := links_of_attach hattach
  constructor
  · intro hq
    refine ⟨fun i hi => hq i (hi.attach hlinks), fun h => hq e ?_⟩
    exact Relation.TransGen.trans (h.attach hlinks) (.single hlinks.parent)
  · rintro ⟨hp, hopen⟩ i hi
    obtain h | ⟨hic, hei⟩ := hlinks.under hopen hi
    · exact hp i h
    · obtain h | h := hei.trans hic
      · exact hlinks.ne h
      · exact hopen h

/-- Nodes under a node that has just been appended close no loop. -/
theorem acyclic_addWith_iff (p : Program) (form : Form) (cs : List ExprId) :
    (p.addWith form cs).1.Acyclic ↔ p.Acyclic := by
  have htop : (p.add form).parent? p.size = none := by
    rw [parent?_add, parent?_of_size_le .refl]
  refine (attachAll_induct (P := fun q => q.parent? p.size = none ∧ (q.Acyclic ↔ p.Acyclic)) ?_ cs
    ⟨htop, acyclic_congr (parent?_add p form)⟩).2
  rintro q r c ⟨hroot, hiff⟩ hattach
  have hlinks := links_of_attach hattach
  refine ⟨(hlinks.others _ hlinks.ne).trans hroot, ?_⟩
  rw [acyclic_attach_iff hattach, hiff]
  refine and_iff_left fun h => ?_
  obtain ⟨_, hup, -⟩ := Relation.TransGen.head'_iff.1 h
  rw [hroot] at hup
  cases hup

/-- A call that attaches a node to something under it. -/
def ClosesLoop (p : Program) : Edit → Prop
  | .attach e c => (∃ q, p.attach e c = .ok q) ∧ p.Under e c
  | _ => False

theorem acyclic_apply_iff (p : Program) (edit : Edit) : (p.apply edit).1.Acyclic ↔ p.Acyclic ∧ ¬ p.ClosesLoop edit := by
  cases edit with
  | add form => simp [apply, ClosesLoop, acyclic_congr (parent?_add p form)]
  | addWith form cs => simp [apply, ClosesLoop, acyclic_addWith_iff]
  | attach e c =>
    dsimp only [apply, ClosesLoop]
    rcases attach_cases p e c with ⟨q, h, hlink, -⟩ | ⟨err, h, hlink, -⟩
    · simp [hlink, h, acyclic_attach_iff h]
    · simp [hlink, h]

/-- A program has no loops as long as no call has closed one. -/
theorem acyclic_edited_iff (static : StaticContext) (edits : List Edit) : ((empty static).edited edits).Acyclic ↔
      ∀ done edit rest, edits = done ++ edit :: rest → ¬ ((empty static).edited done).ClosesLoop edit := by
  induction edits using reverseRecOn with
  | nil =>
    refine iff_of_true (fun e h => ?_) (by simp)
    obtain ⟨_, hup, -⟩ := Relation.TransGen.head'_iff.1 h
    cases hup
  | append_singleton edits edit ih =>
    rw [edited_concat, acyclic_apply_iff, ih]
    constructor
    · rintro ⟨hold, hlast⟩ done x rest heq
      obtain rfl | ⟨rest', y, rfl⟩ := eq_nil_or_concat rest
      · obtain ⟨rfl, hx⟩ := append_inj' heq rfl
        cases hx
        exact hlast
      · have hinit : edits = done ++ x :: rest' := by
          rw [concat_eq_append, ← cons_append, ← append_assoc] at heq
          exact (append_inj' heq rfl).1
        exact hold done x rest' hinit
    · intro h
      exact ⟨fun done x rest heq => h done x (rest ++ [edit]) (by simp [heq]), h edits edit [] rfl⟩

/-! ## Passes over a program -/

/-- What follows for a node from one level less for its children holds, with as many levels as there are nodes,
for all nodes. The nodes that may still come up are counted: going down to a child leaves one behind. -/
theorem Acyclic.induct (hp : p.Acyclic) (hlinked : p.Linked) {P : Nat → ExprId → Prop}
    (step : ∀ k e, (∀ c ∈ p.children e, P k c) → P (k + 1) e) (hk : p.size ≤ k) (he : e < p.size) : P k e := by
  have below : ∀ (k : Nat) (left : Finset ExprId) (e : ExprId), left.card ≤ k →
      (∀ i, p.AtOrUnder i e → i ∈ left) → P k e := by
    intro k
    induction k with
    | zero =>
      intro left e hcard hleft
      rw [Finset.card_eq_zero.1 (Nat.le_zero.1 hcard)] at hleft
      exact absurd (hleft e (.inl rfl)) (Finset.notMem_empty e)
    | succ k ih =>
      intro left e hcard hleft
      refine step k e fun c hc => ih (left.erase e) c ?_ fun i hi => ?_
      · rw [Finset.card_erase_of_mem (hleft e (.inl rfl))]
        omega
      · have hie : p.Under i e := hi.tail (hlinked.mem_children_iff.1 hc)
        refine Finset.mem_erase.2 ⟨?_, hleft i (.inr hie)⟩
        rintro rfl
        exact hp _ hie
  refine below k (Finset.range p.size) e (by simpa using hk) ?_
  rintro i (rfl | hi)
  · exact Finset.mem_range.2 he
  · obtain ⟨_, hup, -⟩ := Relation.TransGen.head'_iff.1 hi
    exact Finset.mem_range.2 (lt_size_of_parent? hup)

theorem Acyclic.wellFounded (hp : p.Acyclic) (hlinked : p.Linked) : WellFounded fun c e => c ∈ p.children e := by
  refine ⟨fun e => ?_⟩
  by_cases he : e < p.size
  · exact hp.induct hlinked (P := fun _ e => Acc (fun c e => c ∈ p.children e) e)
      (fun _ e h => .intro e h) .refl he
  · refine .intro e fun c hc => ?_
    rw [children_of_size_le (Nat.le_of_not_lt he)] at hc
    cases hc

theorem form?_of_size_le (h : p.size ≤ e) : p.form? e = none := by
  unfold form?
  rw [Array.getElem?_eq_none h]
  rfl

theorem returnTypeFrom_succ (hp : p.Acyclic) (hlinked : p.Linked) {k : Nat} (hk : p.size ≤ k)
    (e : ExprId) : p.returnTypeFrom (k + 1) e = p.returnTypeFrom k e := by
  by_cases he : e < p.size
  · refine hp.induct hlinked (P := fun k e => p.returnTypeFrom (k + 1) e = p.returnTypeFrom k e)
      (fun k e ih => ?_) hk he
    rw [returnTypeFrom, returnTypeFrom, map_congr_left ih]
  · have hform := form?_of_size_le (Nat.le_of_not_lt he)
    cases k <;> simp only [returnTypeFrom, hform]

/-- The category of an expression comes from those of its children. -/
theorem returnType_eq (hp : p.Acyclic) (hlinked : p.Linked) (hform : p.form? e = some form) :
    p.returnType e = typeFromChildren form ((p.children e).map p.returnType) := by
  have h := returnTypeFrom_succ hp hlinked .refl e
  rw [returnTypeFrom, hform] at h
  exact h.symm

end Program

/-! ## Binding -/

/-- What binding reports when it has gone down as many levels as there are nodes. -/
def containsItself : Error :=
  malformed "expression contains itself"

namespace Binder

variable {α β : Type} {I : BindState → Prop} {E : Error → Prop} {f : ExprId → Binder Nat} {e : ExprId}
  {cs : List ExprId}

/-- From every state with `I` the run ends in one, or fails as `E` says. -/
def Keeps (I : BindState → Prop) (E : Error → Prop) (x : Binder α) : Prop :=
  ∀ s, I s → x.Ends s (fun _ => I) E

/-- Scopes, depths and marks make no difference, and the slot of a loop that is filled in is counted. -/
structure Lasts (I : BindState → Prop) : Prop where
  moves : ∀ {s : BindState} {scope depth top}, I s → s.maxDepth ≤ top → I ⟨s.program, scope, depth, top⟩
  fills : ∀ {s : BindState} {e form scope depth top}, I s → s.maxDepth ≤ top →
    (∀ b, form.loopBinding? = some b → ∃ used < top, b.slot = s.program.static.slotAt used) →
    I ⟨s.program.setForm e form, scope, depth, top⟩
  marks : ∀ {s : BindState} {e flag}, I s →
    I { s with program := s.program.modify e fun node => { node with contextSensitive := flag, bound := true } }

namespace Keeps

theorem bind (hx : Keeps I E x) (hg : ∀ b, Keeps I E (g b)) : Keeps I E (x >>= g) :=
  fun s hs => (hx s hs).bind (fun _ h => h) fun b s' hs' => hg b s' hs'

theorem pure (a : α) : Keeps I E (Pure.pure a : Binder α) :=
  fun _ hs => .pure hs

theorem throw (h : E err) : Keeps I E (throw err : Binder α) :=
  fun _ _ => .throw h

theorem get (h : ∀ s, I s → Keeps I E (g s)) : Keeps I E (MonadState.get >>= g) :=
  fun s hs => .get (h s hs s hs)

theorem program (h : ∀ s, I s → Keeps I E (g s.program)) : Keeps I E (Binder.program >>= g) :=
  fun s hs => .program (h s hs s hs)

end Keeps

theorem ne_containsItself_of_errorCode (h : err.errorCode ≠ .XPST0003) : err ≠ containsItself := by
  rintro rfl
  exact h (errorCode_format .XPST0003 _)

theorem bindEach_keeps (hf : ∀ c ∈ cs, Keeps I E (f c)) (reached : Nat) : Keeps I E (bindEach f cs reached) := by
  induction cs generalizing reached with
  | nil => exact .pure reached
  | cons c cs ih =>
    exact (hf c (.head _)).bind fun r => ih (fun d hd => hf d (.tail c hd)) (max reached r)

section

variable (hI : Lasts I) (hE : ∀ err, err ≠ containsItself → E err)

include hI

theorem Lasts.setForm (h : form.loopBinding? = none) : Keeps I E (setForm e form) := by
  refine fun s hs => hI.fills hs .refl fun b hb => ?_
  rw [h] at hb
  cases hb

theorem Lasts.setDepth (d : Nat) : Keeps I E (setDepth d) :=
  fun _ hs => hI.moves hs (Nat.le_max_left _ _)

theorem Lasts.finish : Keeps I E (finish e) :=
  fun _ hs => hI.marks hs

theorem bindStaggered_keeps (hf : ∀ c ∈ cs, Keeps I E (f c)) (reached : Nat) :
    Keeps I E (bindStaggered f cs reached) := by
  induction cs generalizing reached with
  | nil => exact .pure reached
  | cons c cs ih =>
    refine .get fun s _ => (hI.setDepth reached).bind fun _ => ?_
    refine (hf c (.head _)).bind fun r => (hI.setDepth s.depth).bind fun _ => ?_
    exact ih (fun d hd => hf d (.tail c hd)) (max reached r)

include hE

omit hI in
theorem resolveVariable_keeps (name : ExpandedName) : Keeps I E (resolveVariable name) := by
  refine .get fun s _ => ?_
  split
  · exact .pure _
  · split
    · exact .pure _
    · refine .throw (hE _ (ne_containsItself_of_errorCode ?_))
      rw [errorCode_format]
      decide

omit hI in
theorem resolveCall_keeps (name : ExpandedName) (arity : Nat) : Keeps I E (resolveCall name arity) := by
  refine .program fun s _ => ?_
  dsimp only
  split
  · exact .pure _
  · rename_i err _
    refine .throw (hE _ ?_)
    cases err with
    | unknown name =>
      refine ne_containsItself_of_errorCode ?_
      rw [ResolveError.toError, errorCode_format]
      decide
    | wrongArity name available =>
      intro h
      have hcode : ErrorCode.XPST0017.name = ErrorCode.XPST0003.name := congrArg Error.code h
      exact absurd hcode (by decide)

/-- The slot of a loop variable is counted before the body is bound. -/
theorem bindLoop_keeps (hf : ∀ c ∈ cs, Keeps I E (f c)) (var : ExpandedName)
    (hform : ∀ b, (form b).loopBinding? = some b) : Keeps I E (bindLoop f e var form cs) := by
  unfold bindLoop
  split
  · rename_i source body
    refine (hf source (by simp)).bind fun used s hs => .program (.modify (.get (.set ?_)))
    refine .bind (hf body (by simp) _ (hI.fills hs (Nat.le_max_left _ _) fun b hb => ?_)) (fun _ h => h)
      fun r s₁ hs₁ => .modify (.pure (hI.moves hs₁ .refl))
    rw [hform] at hb
    cases hb
    exact ⟨used, Nat.le_max_right _ _, rfl⟩
  · refine .throw (hE _ fun h => ?_)
    have hmessage := congrArg Error.message h
    exact absurd hmessage (by decide +kernel)

/-- One level of binding, from the level below. -/
theorem bindForm_keeps (hf : ∀ s, I s → ∀ c ∈ s.program.children e, Keeps I E (f c)) : Keeps I E (bindForm f e) := by
  refine .program fun s hs => .get fun _ _ => ?_
  have hf := hf s hs
  split
  · exact bindLoop_keeps hI hE hf _ fun _ => rfl
  · exact bindLoop_keeps hI hE hf _ fun _ => rfl
  · exact (resolveVariable_keeps hE _).bind fun _ => (hI.setForm rfl).bind fun _ => .pure _
  · refine (bindStaggered_keeps hI hf _).bind fun _ => (resolveCall_keeps hE _ _).bind fun _ => ?_
    exact (hI.setForm rfl).bind fun _ => .pure _
  · refine (bindStaggered_keeps hI hf _).bind fun _ => .program fun _ _ => ?_
    exact (hI.setForm rfl).bind fun _ => .pure _
  · refine (bindStaggered_keeps hI hf _).bind fun _ => .program fun _ _ => ?_
    exact (hI.setForm rfl).bind fun _ => .pure _
  · exact bindEach_keeps hf _

theorem bindNode_keeps (hf : ∀ s, I s → ∀ c ∈ s.program.children e, Keeps I E (bindNode k c)) :
    Keeps I E (bindNode (k + 1) e) :=
  (bindForm_keeps hI hE hf).bind fun reached => hI.finish.bind fun _ => .pure reached

end

theorem lasts_children (children : ExprId → List ExprId) : Lasts fun s => s.program.children = children where
  moves := fun h _ => h
  fills := fun h _ _ => (funext fun i => Program.children_modify (by intro; rfl) i).trans h
  marks := fun h => (funext fun i => Program.children_modify (by intro; rfl) i).trans h

end Binder

namespace Program

variable {p : Program} {e : ExprId}

/-- Without loops, binding gets to the bottom of an expression. -/
theorem Acyclic.bind_ne_containsItself (hp : p.Acyclic) (hlinked : p.Linked) (he : e < p.size) :
    (p.bind e).2 ≠ .error containsItself := by
  have hends := hp.induct hlinked
    (P := fun k e => Binder.Keeps (·.program.children = p.children) (· ≠ containsItself) (Binder.bindNode k e))
    (fun _ _ ih => Binder.bindNode_keeps (Binder.lasts_children p.children) (fun _ h => h)
      fun _ hs c hc => ih c (hs ▸ hc)) .refl he ⟨p, [], 0, 0⟩ rfl
  unfold Binder.Ends at hends
  intro h
  unfold bind at h
  split at hends
  · rename_i hrun
    rw [hrun] at h
    cases h
  · rename_i hrun
    rw [hrun] at h
    cases h
    exact hends rfl

/-- Whatever calls are made, a node is listed once under its parent and nowhere else, and what a call that fails
leaves is what its attachments before the one refused have made. The program has no loops if and only if no call
has attached a node to something under it; then going down to children comes to an end, and so do the passes that
find the category of an expression and that bind it. -/
theorem edited_is_forest (static : StaticContext) (edits : List Edit) :
    let p := (empty static).edited edits
    (∀ c e, (p.children e).count c = if p.parent? c = some e then 1 else 0) ∧
    (∀ c e e', c ∈ p.children e → c ∈ p.children e' → e = e') ∧
    (∀ e c q err, p.apply (.attach e c) = (q, .error err) → q = p) ∧
    (∀ form cs q err, p.apply (.addWith form cs) = (q, .error err) →
      ∃ done c rest, cs = done ++ c :: rest ∧ p.apply (.addWith form done) = (q, .ok ()) ∧
        q.apply (.attach p.size c) = (q, .error err)) ∧
    (p.Acyclic ↔ ∀ done edit rest, edits = done ++ edit :: rest →
      ¬ ((empty static).edited done).ClosesLoop edit) ∧
    (p.Acyclic → (WellFounded fun c e => c ∈ p.children e) ∧
      ∀ e < p.size,
        (∀ form, p.form? e = some form →
          p.returnType e = typeFromChildren form ((p.children e).map p.returnType)) ∧
        (p.bind e).2 ≠ .error containsItself) := by
  intro p
  have hlinked : p.Linked := edited_linked static edits
  refine ⟨hlinked.listed, ?_, ?_, ?_, acyclic_edited_iff static edits, ?_⟩
  · intro c e e' he he'
    rw [hlinked.mem_children_iff] at he he'
    exact Option.some.inj (he.symm.trans he')
  · intro e c q err h
    rcases attach_cases p e c with ⟨_, -, hlink, -⟩ | ⟨_, -, hlink, -⟩ <;> cases hlink.symm.trans h
    rfl
  · intro form cs q err h
    exact apply_addWith_of_error h
  · intro hp
    exact ⟨hp.wellFounded hlinked, fun e he =>
      ⟨fun form => returnType_eq hp hlinked, hp.bind_ne_containsItself hlinked he⟩⟩

/-- Calls of which two are refused: a node that has a parent is attached again, alone and among others. -/
theorem edited_is_forest_refusals :
    let p := (empty .standard).edited [.add .contextItem, .addWith .negate [0], .attach 1 0, .add .root,
      .addWith .union [2, 0], .attach 3 1]
    p.Acyclic ∧ p.children 3 = [2, 1] ∧ p.parent? 0 = some 1 ∧ p.returnType 3 = .nodeSet ∧
      (p.bind 3).2 ≠ .error containsItself := by
  intro p
  have hforest := edited_is_forest .standard [.add .contextItem, .addWith .negate [0], .attach 1 0, .add .root,
    .addWith .union [2, 0], .attach 3 1]
  have hroot (q : Program) (e c : ExprId) (h : q.parent? e = none) : ¬ q.Under e c := by
    intro hunder
    obtain ⟨_, hup, -⟩ := Relation.TransGen.head'_iff.1 hunder
    rw [h] at hup
    cases hup
  have hp : p.Acyclic := by
    refine hforest.2.2.2.2.1.2 fun done edit rest heq => ?_
    match done, heq with
    | [], heq | [_], heq | [_, _, _], heq | [_, _, _, _], heq =>
      cases heq
      exact id
    | [_, _], heq | [_, _, _, _, _], heq =>
      cases heq
      exact fun h => hroot _ _ _ rfl h.2
    | _ :: _ :: _ :: _ :: _ :: _ :: _, heq => simp at heq
  obtain ⟨-, hpasses⟩ := hforest.2.2.2.2.2 hp
  obtain ⟨htype, hbind⟩ := hpasses 3 (by decide)
  exact ⟨hp, rfl, rfl, htype .union rfl, hbind⟩

/-- Binding a sequence fails where binding its only member fails. -/
theorem ends_bindNode_of_member (hform : s.program.form? e = some .sequence) (hchildren : s.program.children e = [c])
    (hc : (Binder.bindNode k c).Ends s (fun _ _ => False) E) :
    (Binder.bindNode (k + 1) e).Ends s (fun _ _ => False) E := by
  refine .bind (R := fun _ _ => False) ?_ (fun _ h => h) (fun _ _ h => h.elim)
  refine .program (.get ?_)
  rw [hform, hchildren]
  exact hc.bind (fun _ h => h) fun _ _ h => h.elim

/-- Two nodes, each attached to the other: all calls succeed, each node is under itself, and binding goes round in
circles, whatever number of levels it is given. -/
theorem edited_loop :
    let two := (empty .standard).edited [.add .sequence, .add .sequence]
    let p := (empty .standard).edited [.add .sequence, .add .sequence, .attach 0 1, .attach 1 0]
    (two.apply (.attach 0 1)).2 = .ok () ∧ (two.apply (.attach 0 1)).1.apply (.attach 1 0) = (p, .ok ()) ∧
      ¬ p.Acyclic ∧
      ∀ k, (Binder.bindNode k 0).Ends ⟨p, [], 0, 0⟩ (fun _ _ => False) (· = containsItself) := by
  intro two p
  refine ⟨rfl, rfl, fun h => h 0 (.tail (.single (b := 1) rfl) rfl), fun k => ?_⟩
  have hround : ∀ k,
      (Binder.bindNode k 0).Ends ⟨p, [], 0, 0⟩ (fun _ _ => False) (· = containsItself) ∧
      (Binder.bindNode k 1).Ends ⟨p, [], 0, 0⟩ (fun _ _ => False) (· = containsItself) := by
    intro k
    induction k with
    | zero => exact ⟨.throw rfl, .throw rfl⟩
    | succ k ih =>
      exact ⟨ends_bindNode_of_member rfl rfl ih.2, ends_bindNode_of_member rfl rfl ih.1⟩
  exact (hround k).1

end Program

end XPath
