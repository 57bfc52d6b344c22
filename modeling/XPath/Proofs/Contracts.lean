import XPath.Proofs.Frames
import XPath.Proofs.Stages
import XPath.Proofs.Watched

/-!
# Contracts of runs

An accord says which items an expression may deliver, which items a variable may have, what the slots of a scope
hold, which errors may occur and which caches may be read. A cursor is `Sound` for a scope if it delivers what it
should on all slots that the scope may have.

The statements are about two runs (`Ensures`), on stores that differ only in caches that are not read: they end the
same, and the value is as it should be. The right run may be a watched one; then the watch has seen nothing amiss.
-/

namespace XPath

/-! ## Runs that end as they should -/

section

variable {α β : Type} {E : Store → Store → Prop} {Err : Error → Prop}

/-- From related stores the two runs end alike, in related stores, with a value that is as it should be. -/
def Ensures (E : Store → Store → Prop) (x y : Run α) (Q : α → Prop) : Prop :=
  ∀ s t, E s t → Related False (fun a s' b t' => (a = b ∧ Q a) ∧ E s' t') (x s) (y t)

theorem Related.eq (h : Related False (fun a s b t => a = b ∧ s = t) x y) : y = x := by
  cases h with
  | both h => rw [h.1, h.2]
  | neither => rfl
  | left h => exact h.elim

def EnsuresEval (E : Store → Store → Prop) (Err : Error → Prop) (x y : Eval α) (Q : α → Prop) : Prop :=
  Ensures E (x : Run (Except Error α)) y (Fulfils Err Q)

namespace Ensures

variable {Q : α → Prop} {R : β → Prop}

theorem mono (h : Ensures E x y Q) (hQ : ∀ a, Q a → Q' a) : Ensures E x y Q' := by
  intro s t hst
  refine (h s t hst).mono ?_
  rintro a s' b t' ⟨⟨hab, ha⟩, hst'⟩
  exact ⟨⟨hab, hQ a ha⟩, hst'⟩

theorem bind (h : Ensures E x y R) (k : ∀ b, R b → Ensures E (f b) (g b) Q) : Ensures E (x >>= f) (y >>= g) Q := by
  intro s t hst
  refine Related.bind (h s t hst) ?_
  rintro b s' _ t' ⟨⟨rfl, hb⟩, hst'⟩
  exact k b hb s' t' hst'

theorem pure (h : Q a) : Ensures E (Pure.pure a) (Pure.pure a) Q :=
  fun _ _ hst => .both ⟨⟨rfl, h⟩, hst⟩

theorem outOfFuel : Ensures E (XPath.outOfFuel : Run α) XPath.outOfFuel Q :=
  fun _ _ _ => .neither

theorem get (k : ∀ s t, E s t → Ensures E (f s) (g t) Q) : Ensures E (MonadState.get >>= f) (MonadState.get >>= g) Q :=
  fun s t hst => Related.get (k s t hst s t hst)

theorem modify (hf : ∀ s t, E s t → E (f s) (g t))
    (k : Ensures E x y Q) : Ensures E (do modify f; x) (do modify g; y) Q :=
  fun s t hst => k (f s) (g t) (hf s t hst)

end Ensures

namespace EnsuresEval

variable {Q : α → Prop} {R : β → Prop}

theorem mono (h : EnsuresEval E Err x y Q) (hQ : ∀ a, Q a → Q' a) : EnsuresEval E Err x y Q' := by
  refine Ensures.mono h ?_
  intro r hr
  cases r with
  | ok a => exact hQ a hr
  | error e => exact hr

theorem bind (h : EnsuresEval E Err x y R)
    (k : ∀ b, R b → EnsuresEval E Err (f b) (g b) Q) : EnsuresEval E Err (x >>= f) (y >>= g) Q := by
  refine Ensures.bind h ?_
  intro r hr
  cases r with
  | ok b => exact k b hr
  | error e => exact Ensures.pure hr

theorem pure (h : Q a) : EnsuresEval E Err (Pure.pure a) (Pure.pure a) Q :=
  Ensures.pure h

theorem throw (h : Err e) : EnsuresEval E Err (MonadExcept.throw e) (MonadExcept.throw e) Q :=
  Ensures.pure h

theorem outOfFuel : EnsuresEval E Err (ExceptT.lift XPath.outOfFuel) (ExceptT.lift XPath.outOfFuel) Q :=
  fun _ _ _ => .neither

theorem except (h : Fulfils Err Q r) : EnsuresEval E Err (liftM r) (liftM r) Q := by
  cases r with
  | ok a => exact pure h
  | error e => exact throw h

theorem checked {r : Except Error α} (h : ∀ e, r = .error e → Err e) :
    EnsuresEval E Err (liftM r) (liftM r) fun _ => True := by
  cases r with
  | ok a => exact pure trivial
  | error e => exact throw (h e rfl)

theorem lift (h : Ensures E x y Q) : EnsuresEval E Err (liftM x) (liftM y) Q :=
  Ensures.bind (f := fun a => (Pure.pure (.ok a) : Run (Except Error α))) h fun _ hQ => Ensures.pure hQ

theorem get (k : ∀ s t, E s t → EnsuresEval E Err (f s) (g t) Q) :
    EnsuresEval E Err (MonadState.get >>= f) (MonadState.get >>= g) Q :=
  fun s t hst => k s t hst s t hst

theorem modify (hf : ∀ s t, E s t → E (f s) (g t))
    (k : EnsuresEval E Err x y Q) : EnsuresEval E Err (do modify f; x) (do modify g; y) Q :=
  fun s t hst => k (f s) (g t) (hf s t hst)

variable {d : ∀ e : Error, e.isStatic = false → Err e} {x y : Eval α}

/-- As evaluations that are related under a law. -/
theorem related (h : EnsuresEval E Err x y Q) (hst : E s t) : RelatedEval ⟨False, Err, d⟩ (Sure Q E) E x y s t := by
  refine (h s t hst).mono ?_
  rintro r s _ t ⟨⟨rfl, hr⟩, hst⟩
  cases r with
  | ok a => exact .ok ⟨⟨rfl, hr⟩, hst⟩
  | error e => exact .error hr hst

theorem of_related {R : α → Store → α → Store → Prop} (h : ∀ s t, E s t → RelatedEval ⟨False, Err, d⟩ R E x y s t)
    (hR : ∀ a s b t, R a s b t → Sure Q E a s b t) : EnsuresEval E Err x y Q := by
  intro s t hst
  refine (h s t hst).run.mono ?_
  intro r s' r' t' hr
  cases hr with
  | ok h =>
    obtain ⟨⟨rfl, ha⟩, hst'⟩ := hR _ _ _ _ h
    exact ⟨⟨rfl, ha⟩, hst'⟩
  | error lawful h => exact ⟨⟨rfl, lawful⟩, h⟩

end EnsuresEval

end

/-! ## Accords -/

/-- What is agreed for the runs of programs. -/
structure Accord where
  /-- The caches that may be read. -/
  Own : Nat → Prop
  /-- The other caches of the left store. -/
  others : Array Cache
  /-- The other caches of the right store. -/
  others' : Array Cache
  /-- The errors that may occur. -/
  Err : Error → Prop
  /-- The slots that a scope of a program may have. -/
  Provides : Program → List Binding → Slots → Prop
  /-- The expressions that may be executed in a scope. -/
  Scoped : Program → List Binding → ExprId → Prop
  /-- The loops that may run in a scope: what they bind, and their bodies. -/
  Looped : Program → List Binding → Binding → ExprId → Prop
  /-- The items that an expression may deliver. -/
  Value : ExprId → Item → Prop
  /-- The items that a variable may have. -/
  Var : Binding → Item → Prop

def Accord.Beside (A : Accord) (q : Program) (vars : List Binding) (s t : Store) : Prop :=
  Framed A.Own A.others A.others' s t ∧ A.Provides q vars s.slots

/-- What a loop asks of its source, with items of `U`, and of its body, so that it delivers items of `V`. -/
def Looping.Kept (A : Accord) (q : Program) (vars : List Binding) (U V : Item → Prop) : Looping → Prop
  | forEach body b focus => A.Looped q vars b body ∧ (∀ e, focus.last = .error e → A.Err e) ∧
      (∀ i, A.Value body i → V i) ∧ ∀ i, U i → A.Var b i
  | step e => A.Scoped q vars e ∧ ∀ i, A.Value e i → V i

/-- The cursor delivers items of `V` only, on all slots that the scope may have. -/
inductive Sound (A : Accord) : Program → List Binding → (Item → Prop) → Cursor → Prop
  | leaf {q vars V c} (h : Leaf V c) : Sound A q vars V c
  | buffered {q vars V cache} (taken : Nat) (cur : Option Item) (pos : Nat) (fin : Bool) (own : A.Own cache)
      (any : ∀ i, V i) : Sound A q vars V (.buffered cache taken cur pos fin)
  | concat {q vars V gone rest} (pos : Nat) (fin : Bool) (spent : ∀ c ∈ gone, Sound A q vars V c)
      (left : ∀ c ∈ rest, Sound A q vars V c) : Sound A q vars V (.concat gone rest pos fin)
  | stage {q vars U V c} (st : Stage) (fin : Bool) (gives : st.Gives U V) (input : Sound A q vars U c) :
      Sound A q vars V (st.on c fin)
  | predicate {q vars V c e} (inputPos : Nat) (fixed : Option Selection) (size : Option Nat) (pos : Nat)
      (fin : Bool) (placed : A.Scoped q vars e) (input : Sound A q vars V c) :
      Sound A q vars V (.predicate e c inputPos fixed size pos fin)
  | loop {q vars U V c} {l : Looping} {run : BodyRun} (pos : Nat) (fin : Bool) (kept : l.Kept A q vars U V)
      (source : Sound A q vars U c) (running : ∀ i k, run = .running i k → Sound A q vars V i)
      (failed : ∀ e, run = .failed e → A.Err e) : Sound A q vars V (l.on c run pos fin)
  | scope {q vars V q' vars' σ c} (provides : A.Provides q' vars' σ) (inner : Sound A q' vars' V c) :
      Sound A q vars V (.scope q' σ c)

section

variable {α : Type} {A : Accord} {q : Program} {vars : List Binding} {U V V' : Item → Prop} {c : Cursor}

theorem Looping.Kept.mono {l : Looping} (h : l.Kept A q vars U V) (hV : ∀ i, V i → V' i) : l.Kept A q vars U V' := by
  cases l with
  | forEach => exact ⟨h.1, h.2.1, fun i hi => hV i (h.2.2.1 i hi), h.2.2.2⟩
  | step => exact ⟨h.1, fun i hi => hV i (h.2 i hi)⟩

namespace Sound

theorem mono (h : Sound A q vars V c) (hV : ∀ i, V i → V' i) : Sound A q vars V' c := by
  induction h with
  | leaf h => exact .leaf (h.mono hV)
  | buffered taken cur pos fin own any => exact .buffered taken cur pos fin own fun i => hV i (any i)
  | concat pos fin spent left ihSpent ihLeft =>
    exact .concat pos fin (fun c hc => ihSpent c hc hV) fun c hc => ihLeft c hc hV
  | stage st fin gives input ih => exact .stage st fin (gives.mono hV) input
  | predicate inputPos fixed size pos fin placed input ih =>
    exact .predicate inputPos fixed size pos fin placed (ih hV)
  | loop pos fin kept source running failed ihSource ihRunning =>
    exact .loop pos fin (kept.mono hV) source (fun i k hrun => ihRunning i k hrun hV) failed
  | scope provides inner ih => exact .scope provides (ih hV)

theorem current (h : Sound A q vars V c) : ∀ i, c.current = some i → V i := by
  induction h with
  | leaf h => exact h.current_ok
  | buffered taken cur pos fin own any => exact fun i _ => any i
  | concat pos fin spent left ihSpent ihLeft =>
    rename_i gone rest
    intro i hi
    cases fin with
    | true => cases hi
    | false =>
      cases rest with
      | nil => cases hi
      | cons c rest => exact ihLeft c List.mem_cons_self i hi
  | stage st fin gives input ih => exact gives.current ih
  | predicate inputPos fixed size pos fin placed input ih =>
    intro i hi
    cases fin with
    | true => cases hi
    | false => exact ih i hi
  | loop pos fin kept source running failed ihSource ihRunning =>
    rename_i run
    rw [(Looping.wraps_on _ ..).1]
    cases run with
    | running inner k => exact ihRunning inner k rfl
    | idle | failed e => exact nofun
  | scope provides inner ih => exact ih

theorem ofItems (h : ∀ i ∈ items, V i) : Sound A q vars V (.ofItems items) :=
  .leaf (Plain.items h).leaf

theorem ofItem (h : V i) : Sound A q vars V (.ofItem i) :=
  ofItems (List.forall_mem_singleton.mpr h)

/-- Where the outermost scope stands. -/
theorem scopes (h : Sound A q vars V c) : (∀ q σ c₀, c ≠ .scope q σ c₀) ∨
    ∃ q' vars' σ c₀, c = .scope q' σ c₀ ∧ A.Provides q' vars' σ ∧ Sound A q' vars' V c₀ := by
  cases h with
  | scope provides inner => exact .inr ⟨_, _, _, _, rfl, provides, inner⟩
  | leaf h => exact .inl fun _ _ _ => h.ne_scope
  | stage st => exact .inl fun _ _ _ => st.on_ne_scope
  | loop => exact .inl fun _ _ _ => Looping.on_ne_scope _
  | buffered | concat | predicate => exact .inl nofun

/-- Nothing in a sound cursor is of a cache that may not be read. -/
theorem within (h : Sound A q vars V c) : c.Within A.Own := by
  induction h with
  | leaf h => cases h <;> constructor
  | buffered taken cur pos fin own any => exact .buffered taken cur pos fin own
  | concat pos fin spent left ihSpent ihLeft => exact .concat pos fin ihSpent ihLeft
  | stage st fin gives input ih => cases st <;> constructor <;> exact ih
  | predicate inputPos fixed size pos fin placed input ih => exact .predicate _ inputPos fixed size pos fin ih
  | @loop _ _ _ _ _ l _ pos fin kept source running failed ihSource ihRunning =>
    cases l with
    | forEach => exact .forEach _ _ _ pos fin ihSource ihRunning
    | step => exact .step _ pos fin ihSource ihRunning
  | scope provides inner ih => exact .scope _ _ ih

end Sound

/-- On slots of another scope, which are given back as the run leaves them. -/
theorem Ensures.onSlots (hσ : A.Provides q vars σ) (h : Ensures (A.Beside q vars) x y Q) :
    Ensures (A.Beside q' vars') (XPath.onSlots σ x) (XPath.onSlots σ y) fun r =>
      Q r.1 ∧ A.Provides q vars r.2 := by
  intro s t hst
  rw [onSlots_apply, onSlots_apply]
  refine (h _ _ ⟨hst.1.withSlots σ, hσ⟩).map ?_
  rintro a s' _ t' ⟨⟨rfl, ha⟩, hst'⟩
  exact ⟨⟨by rw [hst'.1.slots], ha, hst'.2⟩, hst.1.outOfScope hst'.1, hst.2⟩

theorem Ensures.withGroupSize (h : Ensures (A.Beside q vars) x y Q) :
    Ensures (A.Beside q vars) (XPath.withGroupSize size x) (XPath.withGroupSize size y) fun r => Q r.1 := by
  intro s t hst
  rw [withGroupSize_apply, withGroupSize_apply]
  refine (h _ _ ⟨hst.1.withGroupSize size, hst.2⟩).map ?_
  rintro a s' _ t' ⟨⟨rfl, ha⟩, hst'⟩
  exact ⟨⟨by rw [hst'.1.groupSize], ha⟩, hst.1.outOfGroup hst'.1, hst'.2⟩

theorem Ensures.inGroup (st : Beginning) (h : Ensures (A.Beside q vars) x y Q) :
    Ensures (A.Beside q vars) (st.inGroup x) (st.inGroup y) Q := by
  cases st with
  | iteration => exact h
  | focused => exact .bind h.withGroupSize fun _ ha => .pure ha

end

/-! ## Machines that keep an accord -/

abbrev Accord.Joint (A : Accord) (q : Program) (vars : List Binding) (V : Item → Prop) (c d : Cursor) : Prop :=
  c = d ∧ Sound A q vars V c

abbrev Accord.Tracks (A : Accord) (q : Program) (vars : List Binding) (V : Item → Prop) : CursorRel :=
  Sure (Sound A q vars V) (A.Beside q vars)

def Delivered (A : Accord) (q : Program) (vars : List Binding) (V : Item → Prop) (r : Pulled) : Prop :=
  Sound A q vars V r.1 ∧ ∀ e, r.2 = .error e → A.Err e

/-- A copy brings its slots along, and can be taken into any scope. -/
def Portable (A : Accord) (V : Item → Prop) (c : Cursor) : Prop :=
  ∀ q vars, Sound A q vars V c

/-- A focus whose size is known, or may be counted on a sound cursor. -/
def Focus.Sound (A : Accord) (q : Program) (vars : List Binding) : Focus → Prop
  | .fixed snap => ∀ e, snap.last = .error e → A.Err e
  | .current c => ∃ V, XPath.Sound A q vars V c

/-- Where caches are read, nothing else is asked of cursors. -/
structure Accord.Shares (A : Accord) : Prop where
  error : ∀ e, A.Err e
  sound : ∀ {q : Program} {vars : List Binding} {c : Cursor}, c.Within A.Own → Sound A q vars (fun _ => True) c

/-- An operation of two machines, on the left and on the right, ends the same on both, with a value as it should be. -/
abbrev Accord.Runs {α : Type} (A : Accord) (m m' : Program → Calls) (q : Program) (vars : List Binding)
    (f : Calls → Run α) (Q : α → Prop) : Prop :=
  Ensures (A.Beside q vars) (f (m q)) (f (m' q)) Q

abbrev Accord.Evals {α : Type} (A : Accord) (m m' : Program → Calls) (q : Program) (vars : List Binding)
    (f : Calls → Eval α) (Q : α → Prop) : Prop :=
  EnsuresEval (A.Beside q vars) A.Err (f (m q)) (f (m' q)) Q

structure Serving (A : Accord) (m m' : Program → Calls) : Prop where
  dynamic : ∀ e : Error, e.isStatic = false → A.Err e
  own : ∀ {id : Nat}, A.Own id → A.Shares
  fuel : ∀ q, (m' q).fuel = (m q).fuel
  next : ∀ {q : Program} {vars : List Binding} {V : Item → Prop} {c : Cursor}, Sound A q vars V c →
    A.Runs m m' q vars (·.next c) (Delivered A q vars V)
  clone : ∀ {q : Program} {vars : List Binding} {V : Item → Prop} {c : Cursor}, Sound A q vars V c →
    A.Runs m m' q vars (·.clone c) (Portable A V)
  execute : ∀ {q : Program} {vars : List Binding} {e : ExprId} {focus : Focus}, A.Scoped q vars e →
    focus.Sound A q vars →
    A.Evals m m' q vars (·.execute e focus) (Sound A q vars (A.Value e))
  lookup : ∀ {q : Program} {vars : List Binding} {e : ExprId} {name : ExpandedName} {binding : Option Binding},
    A.Scoped q vars e → q.form? e = some (.variable name binding) →
    A.Evals m m' q vars (·.vars.lookup name binding) fun items => ∀ i ∈ items, A.Value e i
  iterate : ∀ {q : Program} {vars : List Binding} {b : Binding} {body : ExprId} {item : Item} {focus : Focus},
    A.Looped q vars b body → A.Var b item → focus.Sound A q vars →
    EnsuresEval (A.Beside q vars) A.Err ((m q).vars.iterate b item focus ((m q).execute body))
      ((m' q).vars.iterate b item focus ((m' q).execute body)) (Sound A q vars (A.Value body))

namespace Serving

variable {A : Accord} {m m' : Program → Calls} {q : Program} {vars : List Binding} {V : Item → Prop} {c : Cursor}
  (hm : Serving A m m')

include hm

abbrev law : Law :=
  ⟨False, A.Err, hm.dynamic⟩

theorem fuelLe (q : Program) : FuelLe False (m q).fuel (m' q).fuel :=
  .inl (hm.fuel q).symm

theorem keepsUp : KeepsUp hm.law V (A.Tracks q vars V) (m q) (m' q) := by
  rintro c s _ t ⟨⟨rfl, hc⟩, hst⟩
  refine (hm.next hc s t hst).mono ?_
  rintro x s _ t ⟨⟨rfl, hc, herr⟩, hst⟩
  exact ⟨rfl, rfl, rfl, ⟨hc.current, herr⟩, ⟨rfl, hc⟩, hst⟩

theorem of_pulls (h : ∀ s t, A.Beside q vars s t →
    Related False (Pulls hm.law V (A.Tracks q vars V)) (x s) (y t)) :
    Ensures (A.Beside q vars) x y (Delivered A q vars V) := by
  intro s t hst
  refine (h s t hst).mono ?_
  rintro ⟨c, r⟩ s ⟨d, r'⟩ t ⟨rfl, -, -, ⟨-, herr⟩, ⟨rfl, hc⟩, hst⟩
  exact ⟨⟨rfl, hc, herr⟩, hst⟩

theorem drain (hc : Sound A q vars V c) : A.Evals m m' q vars (·.drain c) fun items => ∀ i ∈ items, V i :=
  .of_related (fun _ _ hst => drain_related hm.keepsUp (fun _ _ _ _ h => h.2) (hm.fuelLe q) ⟨⟨rfl, hc⟩, hst⟩)
    fun _ _ _ _ h => h

theorem last {focus : Focus} (hfocus : focus.Sound A q vars) : A.Evals m m' q vars (·.last focus) fun _ => True := by
  cases focus with
  | fixed snap => exact .checked hfocus
  | current input =>
    obtain ⟨V, hinput⟩ := hfocus
    refine .get fun s t hst => ?_
    rw [← hst.1.groupSize]
    cases s.groupSize with
    | some k => exact .pure trivial
    | none =>
      refine .bind (.lift (hm.clone hinput)) ?_
      intro ahead hahead
      refine .bind (.of_related (fun s t hst => countGroup_related hm.keepsUp (fun _ _ _ _ h => h.2) (hm.fuelLe q)
        ⟨⟨rfl, hahead q vars⟩, hst⟩) fun _ _ _ _ h => ⟨⟨h.1, trivial⟩, h.2⟩) ?_
      intro k _
      exact .modify (fun _ _ hst => ⟨hst.1.withGroupSize (some k), hst.2⟩) (.pure trivial)

end Serving

end XPath
