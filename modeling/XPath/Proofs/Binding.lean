import XPath.Proofs.Filling
import XPath.Proofs.Spelling

/-!
# What binding achieves

Binding an expression changes nodes of its interval only. Afterwards the forms of the interval are filled in, its
marks are right, and the expression is in its place: above the external variables and the depth at which it was
bound, and below the depth that it reached. Expressions that may be pulled side by side are bound one above the
other, so they end up apart. If all calls resolve, binding fails just where a variable is not in scope, and says
so.

The binder goes over a laid out program. What it establishes for an expression is stated of every program that
agrees on the expression's interval, since binding goes on elsewhere.
-/

namespace XPath

open List

open Program

variable {i : ExprId} {Q' : Prop} {P' : Program → Nat → Prop} {reached : Nat} {old new : Form}

/-! ## Runs of the binder -/

namespace Binder

def Ends {α : Type} (x : Binder α) (s : BindState) (Q : α → BindState → Prop) (E : Error → Prop) : Prop :=
  match x.run.run s with
  | (.ok a, s') => Q a s'
  | (.error err, _) => E err

namespace Ends

variable {α β : Type} {s : BindState} {Q : α → BindState → Prop} {E E' : Error → Prop}

theorem bind {f : β → Binder α} (hx : x.Ends s R E')
    (hE : ∀ err, E' err → E err) (hf : ∀ b s', R b s' → (f b).Ends s' Q E) : (x >>= f).Ends s Q E := by
  have hbind : (x >>= f).run.run s =
      StateT.run (ExceptT.bindCont f (x.run.run s).1) (x.run.run s).2 := rfl
  unfold Ends at *
  rw [hbind]
  cases hxs : x.run.run s with
  | mk r s' =>
    rw [hxs] at hx
    cases r with
    | error err => exact hE err hx
    | ok b => exact hf b s' hx

theorem mono {x : Binder α} (h : x.Ends s R E) (hQ : ∀ a s', R a s' → Q a s')
    (hE : ∀ err, E err → E' err) : x.Ends s Q E' := by
  unfold Ends at *
  split at h
  · exact hQ _ _ h
  · exact hE _ h

theorem pure (h : Q a s) : (Pure.pure a : Binder α).Ends s Q E :=
  h

theorem throw (h : E err) : (MonadExcept.throw err : Binder α).Ends s Q E :=
  h

theorem get {f : BindState → Binder α} (h : (f s).Ends s Q E) : (MonadState.get >>= f).Ends s Q E := by
  refine bind (R := fun b s' => b = s ∧ s' = s) ⟨rfl, rfl⟩ (fun _ h => h) ?_
  rintro _ _ ⟨rfl, rfl⟩
  exact h

theorem program (h : (f s.program).Ends s Q E) : (Binder.program >>= f).Ends s Q E := by
  refine bind (R := fun b s' => b = s.program ∧ s' = s) ⟨rfl, rfl⟩ (fun _ h => h) ?_
  rintro _ _ ⟨rfl, rfl⟩
  exact h

theorem modify {g : BindState → BindState} (h : (f ()).Ends (g s) Q E) : Binder.Ends (modify g >>= f) s Q E := by
  refine bind (R := fun _ s' => s' = g s) rfl (fun _ h => h) ?_
  rintro _ _ rfl
  exact h

theorem set {f : PUnit → Binder α} {s' : BindState} (h : (f ⟨⟩).Ends s' Q E) :
    (MonadState.set s' >>= f).Ends s Q E := by
  refine bind (R := fun _ s'' => s'' = s') rfl (fun _ h => h) ?_
  rintro _ _ rfl
  exact h

end Ends

end Binder

/-! ## What binding achieves -/

def StaticContext.slotAt (c : StaticContext) (depth : Nat) : Nat :=
  c.settings.externals.length + depth

/-- The nodes of an interval have been filled in and marked, and elsewhere nothing has changed. -/
structure Rebound (lo hi : Nat) (p p' : Program) : Prop where
  kin : Kin p p'
  outside : Agree (Outside lo hi) p p'
  done : ∀ q, Kin p q → Agree (Inside lo hi) p' q → ∀ i, Inside lo hi i → p.FilledAt q i ∧ q.MarkedAt i

/-- What binding in an interval has achieved: besides, `P` holds of every program that agrees on the interval,
for every bound from the depth that was reached. -/
structure Bound (lo hi : Nat) (p : Program) (scope : List Binding) (depth floor : Nat) (P : Program → Nat → Prop)
    (reached : Nat) (s : BindState) : Prop where
  rebound : Rebound lo hi p s.program
  scope : s.scope = scope
  depth : s.depth = depth
  le : floor ≤ reached
  placed : ∀ q, Kin p q → Agree (Inside lo hi) s.program q → ∀ top, reached ≤ top → P q top

def Undeclared (lo hi : Nat) (p : Program) (Q : Prop) (err : Error) : Prop :=
  p.CallsFound lo hi → ¬ Q ∧ err.errorCode = .XPST0008

/-- A run of the binder over an interval: it succeeds if the variables are in scope as `Q` says, and otherwise,
given that all calls resolve, it reports an undeclared variable. -/
def Binds (lo hi : Nat) (p : Program) (scope : List Binding) (depth floor : Nat) (P : Program → Nat → Prop)
    (Q : Prop) (x : Binder Nat) (s : BindState) : Prop :=
  x.Ends s (fun reached s' => Bound lo hi p scope depth floor P reached s' ∧ Q) (Undeclared lo hi p Q)

structure BindState.Stands (s : BindState) (c : StaticContext) (scope : List Binding) (depth : Nat) : Prop where
  static : s.program.static = c
  scope : s.scope = scope
  depth : s.depth = depth

def namesOf (scope : List Binding) : List ExpandedName :=
  scope.map (·.name)

/-- Binding an expression puts it in its place, above the current depth, if everything in it is in scope. -/
def PutsInPlace (c : StaticContext) (k : Nat) : Prop :=
  ∀ {n lo hi depth : Nat} {scope : List Binding} {e : ExprId} {s : BindState}, s.Stands c scope depth →
    LaidAt s.program n lo hi e → (∀ i, Inside lo hi i → s.program.FitsAt i) → e < k →
    Binds lo hi s.program scope depth depth
      (fun q top => PlacedAt q c.Callable k scope (c.slotAt depth) (c.slotAt top) e)
      (ScopedAt s.program k (namesOf scope) e) (Binder.bindNode k e) s

section

variable {c : StaticContext} {k n lo mid hi depth floor : Nat} {scope : List Binding} {e : ExprId}
  {cs : List ExprId} {s s₁ : BindState} {p p₁ p₂ : Program} {P : Program → Nat → Prop} {Q : Prop}

theorem Rebound.nil (lo : Nat) (p : Program) : Rebound lo lo p p :=
  ⟨.refl p, fun _ _ => rfl, fun _ _ _ _ hi => absurd hi.2 (Nat.not_lt.mpr hi.1)⟩

/-- What has not been bound yet is as it was laid out. -/
theorem Rebound.rest (h : Rebound lo mid p p₁) (hi : mid ≤ i) (hfits : p.FitsAt i) : p₁.FitsAt i := by
  unfold FitsAt
  rw [form?_eq_of_nodes (h.outside i (.inr hi)), h.kin.children i]
  exact hfits

/-- The rest of a row after its first part has been bound. -/
theorem Rebound.row (h : Rebound lo mid p p₁) (hcs : InRow (LaidAt p n) mid hi cs) : InRow (LaidAt p₁ n) mid hi cs :=
  hcs.imp fun _ _ _ _ _ hc => hc.congr fun i _ _ => h.kin.children i

theorem FilledAt.of_same (h : p₁.FilledAt q i) (hsame : p₁.form? i = p.form? i) : p.FilledAt q i := by
  intro form hform
  exact h form (hsame.trans hform)

theorem Rebound.append (h₁ : Rebound lo mid p p₁) (h₂ : Rebound mid hi p₁ p₂) (hlo : lo ≤ mid)
    (hhi : mid ≤ hi) : Rebound lo hi p p₂ := by
  refine ⟨h₁.kin.trans h₂.kin, ?_, ?_⟩
  · intro i hi
    unfold Outside at hi
    exact (h₂.outside i (by unfold Outside; omega)).trans (h₁.outside i (by unfold Outside; omega))
  · intro q hkin hq i hi
    by_cases hmid : i < mid
    · refine h₁.done q hkin (fun j hj => ?_) i ⟨hi.1, hmid⟩
      exact (hq j ⟨hj.1, Nat.lt_of_lt_of_le hj.2 hhi⟩).trans (h₂.outside j (.inl hj.2))
    · have hle := Nat.le_of_not_lt hmid
      obtain ⟨hfilled, hmarked⟩ := h₂.done q (h₁.kin.symm.trans hkin)
        (fun j hj => hq j ⟨Nat.le_trans hlo hj.1, hj.2⟩) i ⟨hle, hi.2⟩
      exact ⟨FilledAt.of_same hfilled (form?_eq_of_nodes (h₁.outside i (.inr hle))), hmarked⟩

theorem CallsFound.narrow (h : p.CallsFound lo hi) (hlo : lo ≤ lo') (hhi : hi' ≤ hi) : p.CallsFound lo' hi' :=
  fun i hi => h i ⟨Nat.le_trans hlo hi.1, Nat.lt_of_lt_of_le hi.2 hhi⟩

theorem CallsFound.congr (h : p.CallsFound lo hi) (hkin : Kin p p₁)
    (hforms : ∀ i, Inside lo hi i → p₁.form? i = p.form? i) : p₁.CallsFound lo hi := by
  intro i hi name f hform
  rw [hforms i hi] at hform
  rw [hkin.children i, hkin.static]
  exact h i hi name f hform

theorem Binds.congr (h : Binds lo hi p scope depth floor P Q x s) (hQ : Q ↔ Q') :
    Binds lo hi p scope depth floor P Q' x s :=
  propext hQ ▸ h

/-- Binding one expression and then others, which may be anywhere in the rest of the interval. -/
theorem Binds.bind (floor' : Nat → Nat) (P' : Nat → Program → Nat → Prop) {x : Binder Nat}
    {f : Nat → Binder Nat} {P₁ : Program → Nat → Prop}
    (hx : Binds lo mid p scope depth₁ floor₁ P₁ Q x s) (hlo : lo ≤ mid) (hhi : mid ≤ hi)
    (hf : ∀ r s₁, Bound lo mid p scope depth₁ floor₁ P₁ r s₁ →
      Binds mid hi s₁.program scope depth (floor' r) (P' r) Q' (f r) s₁) (hfloor : ∀ r, floor₁ ≤ r → floor ≤ floor' r)
    (hP : ∀ q r top, floor₁ ≤ r → floor' r ≤ top → (∀ t, r ≤ t → P₁ q t) → P' r q top → P q top) :
    Binds lo hi p scope depth floor P (Q ∧ Q') (x >>= f) s := by
  refine Binder.Ends.bind hx ?_ ?_
  · intro err herr hcalls
    obtain ⟨hQ, hcode⟩ := herr (CallsFound.narrow hcalls .refl hhi)
    exact ⟨fun h => hQ h.1, hcode⟩
  · rintro r s₁ ⟨hfirst, hQ⟩
    refine (hf r s₁ hfirst).mono ?_ ?_
    · rintro r' s₂ ⟨hrest, hQ'⟩
      refine ⟨⟨hfirst.rebound.append hrest.rebound hlo hhi, hrest.scope, hrest.depth, ?_, ?_⟩, hQ, hQ'⟩
      · exact Nat.le_trans (hfloor r hfirst.le) hrest.le
      · intro q hkin hq top htop
        refine hP q r top hfirst.le (Nat.le_trans hrest.le htop) (hfirst.placed q hkin fun i hi => ?_) ?_
        · exact (hq i ⟨hi.1, Nat.lt_of_lt_of_le hi.2 hhi⟩).trans (hrest.rebound.outside i (.inl hi.2))
        · exact hrest.placed q (hfirst.rebound.kin.symm.trans hkin)
            (fun i hi => hq i ⟨Nat.le_trans hlo hi.1, hi.2⟩) top htop
    · intro err herr hcalls
      have hrest : s₁.program.CallsFound mid hi :=
        CallsFound.congr (CallsFound.narrow hcalls hlo .refl) hfirst.rebound.kin
          fun i hi => form?_eq_of_nodes (hfirst.rebound.outside i (.inr hi.1))
      exact ⟨fun h => (herr hrest).1 h.2, (herr hrest).2⟩

/-- What is bound below does not change what is in scope in the rest of the interval. -/
theorem scopedAt_rest (hcs : InRow (LaidAt p n) mid hi cs) (h : Rebound lo mid p p₁)
    {c : ExprId} (hc : c ∈ cs) : ScopedAt p₁ k names c ↔ ScopedAt p k names c :=
  scopedAt_congr h.kin (fun i hi => h.outside i (.inr hi.1))
    hcs.descending k (hcs.inside.1 c hc)

/-- Binding one after the other leaves each in its place at the same depth. -/
theorem bindEach_binds (hk : PutsInPlace c k) :
    ∀ {cs : List ExprId} {lo reached : Nat} {s : BindState}, s.Stands c scope depth →
      InRow (LaidAt s.program n) lo hi cs → (∀ i, Inside lo hi i → s.program.FitsAt i) → (∀ e ∈ cs, e < k) →
      Binds lo hi s.program scope depth reached
        (fun q top => ∀ e ∈ cs, PlacedAt q c.Callable k scope (c.slotAt depth) (c.slotAt top) e)
        (∀ e ∈ cs, ScopedAt s.program k (namesOf scope) e)
        (Binder.bindEach (Binder.bindNode k) cs reached) s := by
  intro cs
  induction cs with
  | nil =>
    rintro lo reached s hs rfl - -
    exact Binder.Ends.pure ⟨⟨.nil lo _, hs.scope, hs.depth, .refl, fun _ _ _ _ _ => nofun⟩, nofun⟩
  | cons e cs ih =>
    rintro lo reached s hs ⟨mid, hmid, he, hcs⟩ hfits hlt
    obtain ⟨helt, hlt⟩ := forall_mem_cons.mp hlt
    have hfirst := hk hs he (fun i hi => hfits i ⟨hi.1, Nat.lt_of_lt_of_le hi.2 hcs.le⟩) helt
    refine Binds.congr (Binds.bind (max reached)
      (fun _ q top => ∀ e ∈ cs, PlacedAt q c.Callable k scope (c.slotAt depth) (c.slotAt top) e) hfirst hmid hcs.le
      ?_ ?_ ?_) forall_mem_cons.symm
    · intro r s₁ h
      refine Binds.congr (ih ⟨h.rebound.kin.static.trans hs.static, h.scope, h.depth⟩ (h.rebound.row hcs) ?_ hlt)
        (forall₂_congr fun _ => scopedAt_rest hcs h.rebound)
      exact fun i hi => h.rebound.rest hi.1 (hfits i ⟨Nat.le_trans hmid hi.1, hi.2⟩)
    · exact fun r _ => Nat.le_max_left reached r
    · intro q r top _ htop hplaced hrest
      exact forall_mem_cons.mpr ⟨hplaced top (Nat.le_trans (Nat.le_max_right reached r) htop), hrest⟩

/-- Binding side by side leaves each above those before it. -/
theorem bindStaggered_binds (hk : PutsInPlace c k) :
    ∀ {cs : List ExprId} {lo reached : Nat} {s : BindState}, s.Stands c scope depth →
      InRow (LaidAt s.program n) lo hi cs → (∀ i, Inside lo hi i → s.program.FitsAt i) → (∀ e ∈ cs, e < k) →
      Binds lo hi s.program scope depth reached
        (fun q top => Apart (PlacedAt q c.Callable k scope) (c.slotAt reached) (c.slotAt top) cs)
        (∀ e ∈ cs, ScopedAt s.program k (namesOf scope) e)
        (Binder.bindStaggered (Binder.bindNode k) cs reached) s := by
  intro cs
  induction cs with
  | nil =>
    rintro lo reached s hs rfl - -
    exact Binder.Ends.pure ⟨⟨.nil lo _, hs.scope, hs.depth, .refl,
      fun _ _ _ _ htop => Nat.add_le_add_left htop _⟩, nofun⟩
  | cons e cs ih =>
    rintro lo reached s hs ⟨mid, hmid, he, hcs⟩ hfits hlt
    obtain ⟨helt, hlt⟩ := forall_mem_cons.mp hlt
    have hfirst := hk (s := { s with depth := reached, maxDepth := max s.maxDepth reached })
      ⟨hs.static, hs.scope, rfl⟩ he (fun i hi => hfits i ⟨hi.1, Nat.lt_of_lt_of_le hi.2 hcs.le⟩) helt
    refine Binder.Ends.get (Binder.Ends.modify ?_)
    refine Binds.congr (Binds.bind id
      (fun r q top => Apart (PlacedAt q c.Callable k scope) (c.slotAt r) (c.slotAt top) cs) hfirst hmid hcs.le
      ?_ ?_ ?_) forall_mem_cons.symm
    · intro r s₁ h
      refine Binder.Ends.modify (Binds.congr ?_ (forall₂_congr fun _ => scopedAt_rest hcs h.rebound))
      have hstands : BindState.Stands { s₁ with depth := s.depth, maxDepth := max s₁.maxDepth s.depth } c scope
          depth := ⟨h.rebound.kin.static.trans hs.static, h.scope, hs.depth⟩
      have hrest := @ih mid (max reached r) _ hstands (h.rebound.row hcs)
        (fun i hi => h.rebound.rest hi.1 (hfits i ⟨Nat.le_trans hmid hi.1, hi.2⟩)) hlt
      rw [Nat.max_eq_right h.le] at hrest ⊢
      exact hrest
    · exact fun r h => h
    · intro q r top hle _ hplaced hrest
      exact ⟨c.slotAt r, Nat.add_le_add_left hle _, hplaced r .refl, hrest⟩

/-! ## One level -/

/-- Everything below the node `e` has been bound, and `e` itself has been filled in but not marked. -/
structure Readied (lo : Nat) (e : ExprId) (p : Program) (scope : List Binding) (depth : Nat)
    (P : Program → Nat → Prop) (reached : Nat) (s : BindState) : Prop where
  kin : Kin p s.program
  outside : Agree (Outside lo (e + 1)) p s.program
  done : ∀ q, Kin p q → Agree (Inside lo e) s.program q → ∀ i, Inside lo e i → p.FilledAt q i ∧ q.MarkedAt i
  top : ∀ q, Kin p q → Agree (Inside lo e) s.program q → q.form? e = s.program.form? e → p.FilledAt q e
  le : depth ≤ reached
  scope : s.scope = scope
  depth : s.depth = depth
  placed : ∀ q, Kin p q → Agree (Inside lo e) s.program q → q.form? e = s.program.form? e →
    ∀ top, reached ≤ top → P q top

def Readies (lo : Nat) (e : ExprId) (p : Program) (scope : List Binding) (depth : Nat) (P : Program → Nat → Prop)
    (Q : Prop) (x : Binder Nat) (s : BindState) : Prop :=
  x.Ends s (fun reached s' => Readied lo e p scope depth P reached s' ∧ Q) (Undeclared lo (e + 1) p Q)

theorem Bound.readied (h : Bound lo e p scope depth depth P reached s₁)
    (hkin : Kin s₁.program s₂.program) (hsame : Agree (· ≠ e) s₁.program s₂.program)
    (hscope : s₂.scope = s₁.scope) (hdepth : s₂.depth = s₁.depth) (hle : lo ≤ e) (hold : p.form? e = some old)
    (hnew : s₂.program.form? e = some new)
    (hfills : ∀ q, Kin p q → Agree (Inside lo e) s₁.program q → old.Fills q (q.children e) new)
    (hP : ∀ q top, Kin p q → q.form? e = some new → P q top → P' q top) : Readied lo e p scope depth P' reached s₂ := by
  have hback : ∀ {q : Program}, Agree (Inside lo e) s₂.program q → Agree (Inside lo e) s₁.program q :=
    fun hq j hj => (hq j hj).trans (hsame j (Nat.ne_of_lt hj.2))
  refine ⟨h.rebound.kin.trans hkin, ?_, fun q hq hagree => h.rebound.done q hq (hback hagree), ?_, h.le,
    hscope.trans h.scope, hdepth.trans h.depth, ?_⟩
  · intro i hi
    unfold Outside at hi
    have hne : i ≠ e := by rintro rfl; omega
    exact (hsame i hne).trans (h.rebound.outside i (by unfold Outside; omega))
  · intro q hq hagree hform form hold'
    cases hold.symm.trans hold'
    exact ⟨new, hform.trans hnew, hfills q hq (hback hagree)⟩
  · exact fun q hq hagree hform top htop =>
      hP q top hq (hform.trans hnew) (h.placed q hq (hback hagree) top htop)

theorem Bound.form_eq (h : Bound lo e p scope depth floor P reached s₁) : s₁.program.form? e = p.form? e :=
  form?_eq_of_nodes (h.rebound.outside e (.inr .refl))

theorem Bound.setForm (h : Bound lo e p scope depth depth P reached s₁) (hle : lo ≤ e) (hold : p.form? e = some old)
    (hfills : ∀ q, Kin p q → Agree (Inside lo e) s₁.program q → old.Fills q (q.children e) new)
    (hP : ∀ q top, Kin p q → q.form? e = some new → P q top → P' q top) :
    Readied lo e p scope depth P' reached { s₁ with program := s₁.program.setForm e new } :=
  h.readied (.modify _ _ fun _ => rfl) (agree_modify _ _ _) rfl rfl hle hold
    (form?_setForm (h.form_eq.trans hold)) hfills hP

/-- Binding a loop. The variable's slot lies above the source and the body above the variable's slot; the type of
the variable is that of the source as it has been bound. -/
theorem bindLoop_readies (hk : PutsInPlace c k) (hs : s.Stands c scope depth) {var : ExpandedName}
    {form : Binding → Form} (hold : s.program.form? e = some old)
    (hchildren : s.program.children e = [source, body]) (hvar : ∀ b, (form b).loopVariable? = some var)
    (hfills : ∀ q children b, b.OfLoop q children var → old.Fills q children (form b))
    (hlaid : InRow (LaidAt s.program n) lo e [source, body]) (hfits : ∀ i, Inside lo e i → s.program.FitsAt i)
    (hsource : source < k) (hbody : body < k) : Readies lo e s.program scope depth
      (fun q top => ∃ b, q.form? e = some (form b) ∧ PlacedLoop (PlacedAt q c.Callable k) q scope
        (c.slotAt depth) (c.slotAt top) e b source body)
      (ScopedAt s.program k (namesOf scope) source ∧ ScopedAt s.program k (var :: namesOf scope) body)
      (Binder.bindLoop (Binder.bindNode k) e var form [source, body]) s := by
  obtain ⟨mid, hmid, hlaidSource, hrow⟩ := hlaid
  have hle := hrow.le
  have hfirst := hk hs hlaidSource (fun i hi => hfits i ⟨hi.1, Nat.lt_of_lt_of_le hi.2 hle⟩) hsource
  refine .bind hfirst ?_ ?_
  · intro err herr hcalls
    obtain ⟨hnot, hcode⟩ := herr (CallsFound.narrow hcalls .refl (by omega))
    exact ⟨fun h => hnot h.1, hcode⟩
  rintro used s₁ ⟨hfirst, hscoped⟩
  refine .program (.modify (.get (.set ?_)))
  generalize hb : (⟨var, _, _⟩ : Binding) = b
  have hslot : b.slot = c.slotAt used := by
    rw [← hb, ← hs.static, ← hfirst.rebound.kin.static]
    rfl
  -- the body is bound with the form of the loop filled in already
  have hkin : Kin s₁.program (s₁.program.setForm e (form b)) := .modify _ _ fun _ => rfl
  have hkin₁ : Kin s.program (s₁.program.setForm e (form b)) := hfirst.rebound.kin.trans hkin
  have hset : Agree (· ≠ e) s₁.program (s₁.program.setForm e (form b)) := agree_modify _ _ _
  have hbodyNodes : Agree (Inside mid e) s.program (s₁.program.setForm e (form b)) := fun i hi =>
    (hset i (Nat.ne_of_lt hi.2)).trans (hfirst.rebound.outside i (.inr hi.1))
  have hbodyForms : ∀ i, Inside mid e i → _ := fun i hi => form?_eq_of_nodes (hbodyNodes i hi)
  have hiff : ScopedAt (s₁.program.setForm e (form b)) k (namesOf (b :: scope)) body ↔
      ScopedAt s.program k (var :: namesOf scope) body := by
    have hnames : namesOf (b :: scope) = var :: namesOf scope := by
      rw [← hb]
      rfl
    rw [hnames]
    exact scopedAt_congr hkin₁ hbodyNodes hrow.descending k
      (hrow.inside.1 body (.head _))
  obtain ⟨mid', -, hlaidBody, rfl⟩ := hrow
  have hfits' : ∀ i, Inside mid mid' i → (s₁.program.setForm mid' (form b)).FitsAt i := by
    intro i hi
    unfold FitsAt
    rw [hbodyForms i hi, hkin₁.children]
    exact hfits i ⟨Nat.le_trans hmid hi.1, hi.2⟩
  have hsecond := hk (s := ⟨s₁.program.setForm mid' (form b), b :: s₁.scope, used + 1,
    max s₁.maxDepth (used + 1)⟩) ⟨hkin₁.static.trans hs.static, congrArg (b :: ·) hfirst.scope, rfl⟩
    (hlaidBody.congr fun i _ _ => hkin₁.children i) hfits' hbody
  refine .bind hsecond ?_ ?_
  · intro err herr hcalls
    obtain ⟨hnot, hcode⟩ :=
      herr (CallsFound.congr (CallsFound.narrow hcalls hmid (Nat.le_succ _)) hkin₁ hbodyForms)
    exact ⟨fun h => hnot (hiff.mpr h.2), hcode⟩
  rintro reached s₂ ⟨hsecond, hscoped'⟩
  refine .modify (.pure ⟨?_, hscoped, hiff.mp hscoped'⟩)
  have hdepth : used + 1 ≤ reached := hsecond.le
  have hused : depth ≤ used := hfirst.le
  have hform₂ : s₂.program.form? mid' = some (form b) :=
    hsecond.form_eq.trans (form?_setForm ((form?_eq_of_nodes (hfirst.rebound.outside mid' (.inr hle))).trans hold))
  -- what is left of the source and the body in the end
  have hsourceNodes : ∀ {q : Program}, Agree (Inside lo mid') s₂.program q →
      Agree (Inside lo mid) s₁.program q := fun hq j hj =>
    have hlt : j < mid' := Nat.lt_of_lt_of_le hj.2 hle
    ((hq j ⟨hj.1, hlt⟩).trans (hsecond.rebound.outside j (.inl hj.2))).trans (hset j (Nat.ne_of_lt hlt))
  have hbodyKept : ∀ {q : Program}, Agree (Inside lo mid') s₂.program q →
      Agree (Inside mid mid') s₂.program q := fun hq j hj => hq j ⟨Nat.le_trans hmid hj.1, hj.2⟩
  refine ⟨hkin₁.trans hsecond.rebound.kin, ?_, ?_, ?_, by omega, hfirst.scope, hfirst.depth, ?_⟩
  · intro i hi
    unfold Outside at hi
    have hne : i ≠ mid' := by rintro rfl; omega
    exact ((hsecond.rebound.outside i (by unfold Outside; omega)).trans (hset i hne)).trans
      (hfirst.rebound.outside i (by unfold Outside; omega))
  · intro q hq hagree i hi
    by_cases hlt : i < mid
    · exact hfirst.rebound.done q hq (hsourceNodes hagree) i ⟨hi.1, hlt⟩
    · have hin : Inside mid mid' i := ⟨Nat.le_of_not_lt hlt, hi.2⟩
      obtain ⟨hfilled, hmarked⟩ := hsecond.rebound.done q (hkin₁.symm.trans hq) (hbodyKept hagree) i hin
      exact ⟨FilledAt.of_same hfilled (hbodyForms i hin), hmarked⟩
  · intro q hq hagree hform old' hold'
    cases hold.symm.trans hold'
    refine ⟨form b, hform.trans hform₂, hfills q _ b ⟨hb ▸ rfl, ?_⟩⟩
    intro source' hsource'
    rw [hq.children, hchildren] at hsource'
    obtain rfl : source = source' := Option.some.inj hsource'
    have hlaidSource₁ : LaidAt s₁.program n lo mid source :=
      hlaidSource.congr fun i _ _ => hfirst.rebound.kin.children i
    have hrow : InRow (LaidAt s₁.program n) lo mid [source] := ⟨mid, hmid, hlaidSource₁, rfl⟩
    rw [← hb]
    exact (itemType_congr (hfirst.rebound.kin.symm.trans hq) (hsourceNodes hagree) hlaidSource₁.family.1
      (hrow.inside.1 source (.head _))).symm
  · intro q hq hagree hform top htop
    have hslots : ∀ {d d'}, d ≤ d' → c.slotAt d ≤ c.slotAt d' := fun h => Nat.add_le_add_left h _
    refine ⟨b, hform.trans hform₂, (hq.children _).trans hchildren, ?_, ?_, ?_, ?_, ?_⟩
    · exact Program.mem_variableNames (hform.trans hform₂) (hb ▸ hvar b)
    · exact hslot ▸ hslots hused
    · exact hslot ▸ Nat.lt_of_lt_of_le .refl (hslots (d := used + 1) (by omega))
    · exact hslot ▸ hfirst.placed q hq (hsourceNodes hagree) used .refl
    · exact hslot ▸ hsecond.placed q (hkin₁.symm.trans hq) (hbodyKept hagree) top htop

theorem resolveVariable_ends (hs : s.Stands c scope depth) (name : ExpandedName) : (Binder.resolveVariable name).Ends s
      (fun b s' => s' = s ∧ b.name = name ∧ s.program.bindingOf scope name = some b ∧
        (name ∈ namesOf scope ∨ name ∈ s.program.static.settings.externals))
      (fun err => ¬ (name ∈ namesOf scope ∨ name ∈ s.program.static.settings.externals) ∧
        err.errorCode = .XPST0008) := by
  unfold Binder.resolveVariable Program.bindingOf
  refine .get ?_
  rw [hs.scope]
  cases hfind : scope.find? (·.name = name) with
  | some b =>
    have hname : b.name = name := by simpa using find?_some hfind
    exact .pure ⟨rfl, hname, rfl, .inl (mem_map.mpr ⟨b, mem_of_find?_eq_some hfind, hname⟩)⟩
  | none =>
    have hloops : name ∉ namesOf scope := by
      intro hmem
      obtain ⟨b, hb, hname⟩ := mem_map.mp hmem
      simpa [hname] using find?_eq_none.mp hfind b hb
    cases hidx : s.program.static.settings.externals.findIdx? (· = name) with
    | some slot =>
      obtain ⟨hlt, heq, -⟩ := findIdx?_eq_some_iff_getElem.mp hidx
      have hname : s.program.static.settings.externals[slot] = name := by simpa using heq
      exact .pure ⟨rfl, rfl, rfl, .inr (hname ▸ getElem_mem hlt)⟩
    | none =>
      refine .throw ⟨?_, errorCode_format _ _⟩
      rintro (hmem | hmem)
      · exact hloops hmem
      · simpa using findIdx?_eq_none_iff.mp hidx name hmem

theorem resolveCall_ends (name : ExpandedName) (arity : Nat) : (Binder.resolveCall name arity).Ends s
      (fun f s' => s' = s ∧ s.program.static.functions.resolve name arity
        s.program.static.settings.defaultFunctionNamespace = .ok f)
      (fun _ => ¬ ∃ f, s.program.static.functions.resolve name arity
        s.program.static.settings.defaultFunctionNamespace = .ok f) := by
  refine .program ?_
  dsimp only
  cases hresolve : s.program.static.functions.resolve name arity
      s.program.static.settings.defaultFunctionNamespace with
  | ok f => exact .pure ⟨rfl, rfl⟩
  | error err => exact .throw fun ⟨f, hf⟩ => nomatch hf

theorem Readies.congr {x : Binder Nat} (h : Readies lo e p scope depth P Q x s)
    (hP : ∀ q top, P q top → P' q top) (hQ : Q ↔ Q') : Readies lo e p scope depth P' Q' x s := by
  obtain rfl : Q = Q' := propext hQ
  refine Binder.Ends.mono h ?_ fun _ h => h
  rintro reached s' ⟨h, hQ⟩
  exact ⟨{ h with placed := fun q hq hagree hform top htop => hP q top (h.placed q hq hagree hform top htop) }, hQ⟩

/-- One level of binding, form by form. -/
theorem bindForm_readies (hk : PutsInPlace c k) (hs : s.Stands c scope depth)
    (hlaid : InRow (LaidAt s.program n) lo e (s.program.children e))
    (hfits : ∀ i, Inside lo (e + 1) i → s.program.FitsAt i) (hlt : ∀ i ∈ s.program.children e, i < k) :
    Readies lo e s.program scope depth
      (fun q top => PlacedAt q c.Callable (k + 1) scope (c.slotAt depth) (c.slotAt top) e)
      (ScopedAt s.program (k + 1) (namesOf scope) e) (Binder.bindForm (Binder.bindNode k) e) s := by
  have hle := hlaid.le
  obtain ⟨form, hform, hfit⟩ := hfits e ⟨hle, Nat.lt_succ_self e⟩
  have hbelow : ∀ i, Inside lo e i → s.program.FitsAt i := fun i hi =>
    hfits i ⟨hi.1, Nat.lt_succ_of_lt hi.2⟩
  have hfailed : ∀ {Q : Prop} err, Undeclared lo e s.program Q err → Undeclared lo (e + 1) s.program Q err :=
    fun _ h hcalls => h (CallsFound.narrow hcalls .refl (Nat.le_succ e))
  unfold ScopedAt Binder.bindForm
  refine Binder.Ends.program (Binder.Ends.get ?_)
  rw [hform, hs.depth]
  cases form with
  | forEach var binding | quantified quant var binding =>
    obtain ⟨-, source, body, hchildren⟩ := hfit
    rw [hchildren] at hlaid hlt ⊢
    obtain ⟨hsource, hbody⟩ := forall_mem_cons.mp hlt
    refine (bindLoop_readies hk hs hform hchildren (fun _ => rfl) (fun _ _ b hb => ⟨b, hb, rfl⟩) hlaid hbelow
      hsource (hbody body (.head _))).congr ?_ scoped_pair_iff
    rintro q top ⟨b, hformq, hloop⟩
    unfold PlacedAt
    rw [hformq]
    exact ⟨b, source, body, rfl, hloop⟩
  | «variable» name binding =>
    -- a variable has no children to be bound before it
    obtain rfl : lo = e := by
      have hchildren : s.program.children e = [] := hfit
      rwa [hchildren] at hlaid
    refine .bind (resolveVariable_ends hs name) (fun _ h _ => h) ?_
    rintro b s' ⟨rfl, hname, hbinding, hscoped⟩
    have hstart : Bound lo lo s'.program scope depth depth (fun _ _ => True) depth s' :=
      ⟨.nil lo _, hs.scope, hs.depth, .refl, fun _ _ _ _ _ => trivial⟩
    refine .modify (.pure ⟨hstart.setForm hle hform (fun _ _ _ => ⟨b, hname, rfl⟩) ?_, hscoped⟩)
    intro q top hkin hformq _
    unfold PlacedAt
    rw [hformq]
    unfold Program.bindingOf at hbinding ⊢
    exact ⟨b, rfl, hkin.static ▸ hbinding⟩
  | call name function =>
    refine .bind (bindStaggered_binds hk hs hlaid hbelow hlt) hfailed ?_
    rintro reached s₁ ⟨hargs, hscoped⟩
    refine .bind (resolveCall_ends name _) ?_ ?_
    · intro err herr hcalls
      rw [hargs.rebound.kin.static] at herr
      exact absurd (hcalls e ⟨hle, Nat.lt_succ_self e⟩ name function hform) herr
    · rintro f _ ⟨rfl, hf⟩
      rw [hargs.rebound.kin.static] at hf
      refine .modify (.pure ⟨hargs.setForm hle hform ?_ ?_, hscoped⟩)
      · intro q hkin _
        refine ⟨f, ?_, rfl⟩
        rw [hkin.children, hkin.static]
        exact hf
      · intro q top hkin hformq hapart
        unfold PlacedAt
        rw [hformq]
        exact ⟨f, rfl, ⟨_, _, hs.static ▸ hf⟩, (hkin.children e).symm ▸ hapart⟩
  | path plan =>
    refine .bind (bindStaggered_binds hk hs hlaid hbelow hlt) hfailed ?_
    rintro reached s₁ ⟨hparts, hscoped⟩
    refine .program (.modify (.pure ⟨hparts.setForm hle hform ?_ ?_, hscoped⟩))
    · intro q hkin hagree
      refine congrArg Form.path (planPath_congr (hkin.static.trans hparts.rebound.kin.static.symm) ?_).symm
      intro i hi
      rw [hfit.1] at hi
      exact form?_eq_of_nodes (hagree i (hlaid.inside.1 i hi))
    · intro q top hkin hformq hapart
      unfold PlacedAt
      rw [hformq]
      rw [← hfit.1] at hapart
      exact hapart.sublist (fun _ _ _ _ => .lower) (s₁.program.planPath_sublist plan)
  | filter steps =>
    refine .bind (bindStaggered_binds hk hs hlaid hbelow hlt) hfailed ?_
    rintro reached s₁ ⟨hparts, hscoped⟩
    obtain ⟨⟨source, hchildren⟩, -⟩ := hfit
    refine .program (.modify (.pure ⟨hparts.setForm hle hform ?_ ?_, hscoped⟩))
    · intro q hkin hagree
      refine congrArg Form.filter (fuse_congr fun i hi => ?_).symm
      refine literalPosition_congr (form?_eq_of_nodes (hagree i (hlaid.inside.1 i ?_)))
      rw [hchildren]
      exact .tail _ hi
    · intro q top hkin hformq hapart
      unfold PlacedAt
      rw [hformq, hkin.children, hchildren]
      rw [hchildren] at hapart
      exact ⟨source, rfl,
        hapart.sublist (fun _ _ _ _ => .lower) ((fuse_sublist _ steps).cons_cons source)⟩
  | _ =>
    refine (bindEach_binds hk hs hlaid hbelow hlt).mono ?_ hfailed
    rintro reached s₁ ⟨hall, hscoped⟩
    refine ⟨hall.readied (.refl _) (fun _ _ => rfl) rfl rfl hle hform (hall.form_eq.trans hform)
      (fun _ _ _ => rfl) ?_, hscoped⟩
    intro q top hkin hformq hplaced
    unfold PlacedAt
    rw [hformq, hkin.children]
    exact hplaced

/-- A node is marked after all below it. -/
theorem Readied.finish (h : Readied lo e p scope depth P reached s) (hfits : p.FitsAt e) (hle : lo ≤ e)
    (hchildren : ∀ i ∈ p.children e, Inside lo e i) :
    Bound lo (e + 1) p scope depth depth P reached { s with program := s.program.modify e fun node =>
      { node with contextSensitive := s.program.dependsOnFocus e, bound := true } } := by
  have hkin := Kin.modify s.program e (f := fun node =>
    { node with contextSensitive := s.program.dependsOnFocus e, bound := true }) fun _ => rfl
  have hsame := agree_modify s.program e fun node =>
    { node with contextSensitive := s.program.dependsOnFocus e, bound := true }
  have hbelow : ∀ {q : Program}, Agree (Inside lo (e + 1)) (s.program.modify e fun node =>
      { node with contextSensitive := s.program.dependsOnFocus e, bound := true }) q →
      Agree (Inside lo e) s.program q ∧ q.form? e = s.program.form? e := by
    intro q hq
    refine ⟨fun j hj => ?_, ?_⟩
    · exact (hq j ⟨hj.1, Nat.lt_succ_of_lt hj.2⟩).trans (hsame j (Nat.ne_of_lt hj.2))
    · exact (form?_eq_of_nodes (hq e ⟨hle, Nat.lt_succ_self e⟩)).trans (form?_modify (by intro; rfl) e)
  refine ⟨⟨h.kin.trans hkin, ?_, ?_⟩, h.scope, h.depth, h.le, ?_⟩
  · intro i hi
    unfold Outside at hi
    have hne : i ≠ e := by rintro rfl; omega
    exact (hsame i hne).trans (h.outside i hi)
  · intro q hq hagree i hi
    obtain ⟨hnodes, hform⟩ := hbelow hagree
    by_cases hie : i = e
    · subst hie
      have hfilled := h.top q hq hnodes hform
      have hown : q.children i = s.program.children i := (hq.children i).trans (h.kin.children i).symm
      have hdepends : q.dependsOnFocus i = s.program.dependsOnFocus i := by
        refine dependsOnFocus_congr hform hown ?_
          (startsInside_of_filled hfits (h.top s.program h.kin (fun _ _ => rfl) rfl) (h.kin.children i))
        intro c hc
        rw [h.kin.children] at hc
        exact isContextSensitive_eq_of_nodes (hnodes c (hchildren c hc))
      refine ⟨hfilled, ?_⟩
      unfold MarkedAt
      rw [hdepends, isContextSensitive_eq_of_nodes (hagree i hi)]
      exact isContextSensitive_mark s.program i
    · exact h.done q hq hnodes i ⟨hi.1, Nat.lt_of_le_of_ne (Nat.le_of_lt_succ hi.2) hie⟩
  · exact fun q hq hagree => h.placed q hq (hbelow hagree).1 (hbelow hagree).2

/-- Binding a node puts it in its place, with all below it. -/
theorem putsInPlace (c : StaticContext) (k : Nat) : PutsInPlace c k := by
  induction k with
  | zero =>
    intro n lo hi depth scope e s _ _ _ hlt
    exact absurd hlt (Nat.not_lt_zero e)
  | succ k ih =>
    intro n lo hi depth scope e s hs hlaid hfits hlt
    cases n with
    | zero => exact hlaid.elim
    | succ n =>
      obtain ⟨rfl, hlaid⟩ := hlaid
      have hchildren := hlaid.inside.1
      refine Binder.Ends.bind (bindForm_readies ih hs hlaid hfits fun i hi =>
        Nat.lt_of_lt_of_le (hchildren i hi).2 (Nat.le_of_lt_succ hlt)) (fun _ h => h) ?_
      rintro reached s₁ ⟨hready, hscoped⟩
      have hnode := hfits e ⟨hlaid.le, Nat.lt_succ_self e⟩
      exact Binder.Ends.modify (Binder.Ends.pure ⟨hready.finish hnode hlaid.le hchildren, hscoped⟩)

end

/-! ## Compiled expressions -/

structure Compiled (c : StaticContext) (q : Query) : Prop where
  static : q.program.static = c
  external : q.slots.external = c.settings.externals.length
  /-- The main expression is in its place above the external variables. -/
  placed : ∃ top, c.settings.externals.length ≤ top ∧
    Placed q.program c.Callable [] c.settings.externals.length top q.root
  filled : ∀ e form, q.program.form? e = some form → form.Filled q.program (q.program.children e)
  /-- Children come before their parents. -/
  descending : ∀ e c : Nat, c ∈ q.program.children e → c < e
  /-- A node has at most one parent. -/
  separate : ∀ e e' c, c ∈ q.program.children e → c ∈ q.program.children e' → e = e'

section

variable {c : StaticContext} {x : Expr} {root : ExprId} {p : Program} {q : Query}

/-- Binding a layout. -/
theorem LaidOut.binds (h : LaidOut c x root p) :
    Binds 0 p.size p [] 0 0 (fun q top => PlacedAt q c.Callable p.size [] (c.slotAt 0) (c.slotAt top) root)
      (ScopedAt p p.size [] root) (Binder.bindNode p.size root) ⟨p, [], 0, 0⟩ :=
  putsInPlace c p.size ⟨h.static, rfl, rfl⟩ h.laid (fun _ hi => h.fits hi.2) h.root_lt

theorem compile_eq (hcollation : c.settings.collation = codepointCollation)
    (hlower : (lower x).run (.empty c) = .ok (root, p)) :
    compile c x = (p.bind root).2.map fun counts => ⟨(p.bind root).1, root, counts⟩ := by
  unfold compile
  rw [if_neg (not_not_intro hcollation), hlower]
  rfl

section

variable (h : compile c x = .ok q)

include h

theorem lowered_of_compile : c.settings.collation = codepointCollation ∧ ∃ r, (lower x).run (.empty c) = .ok r := by
  unfold compile at h
  split at h
  · cases h
  next hcollation =>
    refine ⟨not_not.mp hcollation, ?_⟩
    cases hlower : (lower x).run (.empty c) with
    | error err =>
      rw [hlower] at h
      cases h
    | ok r => exact ⟨r, rfl⟩

theorem run_of_compile : ∃ p reached s, LaidOut c x q.root p ∧
      (Binder.bindNode p.size q.root).run.run ⟨p, [], 0, 0⟩ = (.ok reached, s) ∧ s.program = q.program ∧
      q.slots = ⟨c.slotAt s.maxDepth, c.slotAt 0⟩ := by
  obtain ⟨hcollation, ⟨root, p⟩, hlower⟩ := lowered_of_compile h
  have hlaid : LaidOut c x root p := by
    have hends := lower_ends c x
    unfold Lowering.Ends at hends
    change lower x (.empty c) = _ at hlower
    rwa [hlower] at hends
  obtain rfl := hlaid.static
  rw [compile_eq hcollation hlower] at h
  unfold Program.bind at h
  cases hbind : (Binder.bindNode p.size root).run.run ⟨p, [], 0, 0⟩ with
  | mk r s =>
    rw [hbind] at h
    cases r with
    | error err => cases h
    | ok reached =>
      cases h
      exact ⟨p, reached, s, hlaid, hbind, rfl, rfl⟩

theorem bound_of_compile : ∃ p reached s, LaidOut c x q.root p ∧ s.program = q.program ∧
      q.slots.external = c.settings.externals.length ∧
      Bound 0 p.size p [] 0 0
        (fun r top => PlacedAt r c.Callable p.size [] (c.slotAt 0) (c.slotAt top) q.root) reached s := by
  obtain ⟨p, reached, s, hlaid, hrun, hprogram, hslots⟩ := run_of_compile h
  have hbinds := hlaid.binds
  unfold Binds Binder.Ends at hbinds
  rw [hrun] at hbinds
  exact ⟨p, reached, s, hlaid, hprogram, congrArg (·.external) hslots, hbinds.1⟩

theorem filled_of_compile : ∃ p, LaidOut c x q.root p ∧ Kin p q.program ∧ ∀ i, i < p.size → p.FilledAt q.program i := by
  obtain ⟨p, reached, s, hlaid, hprogram, -, hbound⟩ := bound_of_compile h
  obtain ⟨hkin, -, hdone⟩ := hprogram ▸ hbound.rebound
  exact ⟨p, hlaid, hkin, fun i hi => (hdone q.program hkin (fun _ _ => rfl) i ⟨Nat.zero_le i, hi⟩).1⟩

/-- What an expression of the program was before it was filled in. -/
theorem raw_of_compile (hform : q.program.form? e = some form) :
    ∃ p raw, LaidOut c x q.root p ∧ Kin p q.program ∧ p.form? e = some raw ∧
      raw.Fits (q.program.children e) ∧ raw.Fills q.program (q.program.children e) form := by
  obtain ⟨p, hlaid, hkin, hfilled⟩ := filled_of_compile h
  have hlt : e < p.size := hkin.size ▸ Program.lt_size_of_form? hform
  obtain ⟨raw, hraw, hfits⟩ := hlaid.fits hlt
  obtain ⟨new, hnew, hfills⟩ := hfilled e hlt raw hraw
  cases hform.symm.trans hnew
  exact ⟨p, raw, hlaid, hkin, hraw, hkin.children e ▸ hfits, hfills⟩

theorem marked_of_compile (i : ExprId) : q.program.MarkedAt i := by
  obtain ⟨p, reached, s, hlaid, hprogram, -, hbound⟩ := bound_of_compile h
  obtain ⟨hkin, -, hdone⟩ := hprogram ▸ hbound.rebound
  by_cases hi : i < p.size
  · exact (hdone q.program hkin (fun _ _ => rfl) i ⟨Nat.zero_le i, hi⟩).2
  · exact Program.markedAt_of_none (Array.getElem?_eq_none (Nat.le_trans (Nat.le_of_eq hkin.size)
    (Nat.le_of_not_lt hi)))

theorem compiled_of_compile : Compiled c q := by
  obtain ⟨p, reached, s, hlaid, hprogram, hexternal, hbound⟩ := bound_of_compile h
  obtain ⟨hkin, -, hdone⟩ := hprogram ▸ hbound.rebound
  have hinside : ∀ {i j}, j ∈ p.children i → i < p.size := by
    intro i j hj
    refine Nat.lt_of_not_le fun hi => ?_
    unfold Program.children at hj
    rw [Array.getElem?_eq_none hi] at hj
    cases hj
  refine ⟨hkin.static.trans hlaid.static, hexternal, ?_, ?_, ?_, ?_⟩
  · refine ⟨c.slotAt reached, Nat.le_add_right _ _, p.size, ?_⟩
    exact hbound.placed q.program hkin (fun _ _ => hprogram ▸ rfl) reached .refl
  · intro i form hform
    have hlt : i < p.size := hkin.size ▸ Program.lt_size_of_form? hform
    obtain ⟨old, hold, hfits⟩ := hlaid.fits hlt
    obtain ⟨new, hnew, hfills⟩ := (hdone q.program hkin (fun _ _ => rfl) i ⟨Nat.zero_le i, hlt⟩).1 old hold
    cases hform.symm.trans hnew
    rw [hkin.children] at hfills ⊢
    exact hfills.filled hfits
  · intro i j hj
    exact hlaid.descending i j (hkin.children i ▸ hj)
  · intro i j k hi hj
    rw [hkin.children] at hi hj
    exact hlaid.laid.family.2 i j (Nat.zero_le i) (hinside hi) (Nat.zero_le j) (hinside hj) k hi hj

end

end

/-- What a check has found. -/
theorem exists_ok_of_check {x : Except ε α} (h : x.toOption.any check = true) : ∃ a, x = .ok a ∧ check a = true := by
  cases x with
  | error err => cases h
  | ok a => exact ⟨a, rfl, h⟩

theorem exists_some_ok_of_check {x : Option (Except ε α)}
    (h : x.any (·.toOption.any check) = true) : ∃ a, x = some (.ok a) ∧ check a = true := by
  obtain ⟨r, rfl, h⟩ := (Option.any_eq_true _ _).mp h
  obtain ⟨a, rfl, h⟩ := exists_ok_of_check h
  exact ⟨a, rfl, h⟩

end XPath
