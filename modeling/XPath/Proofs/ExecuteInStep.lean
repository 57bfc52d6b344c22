import XPath.Proofs.InStep

/-!
# Executions stay in step

One depth of `ExecuteInStep`, form by form. What an expression delivers has not been pulled yet, so it
does not depend on the slots of its interval.
-/

namespace XPath

variable {k i : Nat} {steps : List Step} {b : Binding} {P : Nat → Nat → ExprId → Prop}
  {es children : List ExprId} {source body : ExprId}

section

variable {w : Watches} {p : Program} {Fit : FunctionEntry → Prop} {gen : Origin} {n : Nat} {vars : List Binding}
  {lo hi : Nat} {env : Slots} {s t : Store} {focus focus' : Focus} {e : ExprId}
  {sizes : Option Nat → Option Nat → Prop}

/-! ## Cursors from which nothing has been pulled -/

namespace Unpulled

variable {c d : Cursor} {mid : Nat}

section

variable (h : Unpulled p Fit gen vars lo hi env c d)

include h

theorem widen (hlo : lo' ≤ lo) (hhi : hi ≤ hi') : Unpulled p Fit gen vars lo' hi' env c d :=
  fun σ => (h σ).mono (fun _ _ _ _ _ h => h) .refl hlo hhi

theorem requireNodes : Unpulled p Fit gen vars lo hi env (.requireNodes c) (.requireNodes d) :=
  fun σ => .stage .nodesOnly (h σ)

theorem inOrder (unique : Bool) : Unpulled p Fit gen vars lo hi env (.inOrder unique c) (.inOrder unique d) :=
  fun σ => .stage (.unsorted unique none 0) (h σ)

end

theorem ofParts (h : Matched (fun _ => Unpulled p Fit gen vars lo hi env) cs ds) :
    Unpulled p Fit gen vars lo hi env (.ofParts cs) (.ofParts ds) := by
  intro σ
  refine .concat 0 rfl h.1 nofun ?_ ?_
  · exact fun c d hc hd => h.2 0 c d hc hd σ
  · exact fun i c d σ hc hd => h.2 (i + 1) c d hc hd σ

theorem chain : ∀ {mid : Nat} {c d : Cursor}, lo ≤ mid →
      Apart (PlacedAt p Fit k vars) mid hi (steps.filterMap Step.expr?) →
      Unpulled p Fit gen vars lo mid env c d →
      Unpulled p Fit gen vars lo hi env (Calls.chain perGroup c steps)
        (Calls.chain perGroup d steps) := by
  induction steps with
  | nil =>
    intro mid c d hmid hapart h
    exact h.widen .refl hapart
  | cons step steps ih =>
    intro mid c d hmid hapart h
    cases step with
    | axis ax test => exact ih hmid hapart fun σ => .stage (.axis ax (test.getD .anyNode) .ended none 0) (h σ)
    | descent tests => exact ih hmid hapart fun σ => .stage (.descent tests none none 0) (h σ)
    | position k => exact ih hmid hapart fun σ => .stage (.nth k perGroup 0 false 0) (h σ)
    | predicate e =>
      obtain ⟨mid', hle, hplaced, hapart⟩ := hapart
      refine ih (Nat.le_trans hmid hle) hapart ?_
      exact fun σ => .predicate 0 none none 0 ⟨hmid, .refl, hle, .refl⟩ ⟨k, hplaced⟩
        (h σ)
    | expr e nodesOnly =>
      obtain ⟨mid', hle, hplaced, hapart⟩ := hapart
      have hthrough : Unpulled p Fit gen vars lo mid' env (.through e c) (.through e d) :=
        fun σ => .loop (l := .step e) 0 (.inl rfl)
          (.step ⟨hmid, .refl, hle, .refl⟩ ⟨k, hplaced⟩) (h σ)
      cases nodesOnly with
      | true => exact ih (Nat.le_trans hmid hle) hapart hthrough.requireNodes
      | false => exact ih (Nat.le_trans hmid hle) hapart hthrough

end Unpulled

/-! ## Variables -/

theorem lookup_inStep (hb : p.bindingOf vars name = some b) (hagrees : Agrees p vars s.slots t.slots) (hE : E s t) :
    RelatedEval .strict (Same E) E (Variables.inSlots.lookup name (some b))
      ((Variables.lexical p).lookup name (some b)) s t := by
  have hleft : Variables.inSlots.lookup name (some b) s = some (b.get s.slots, s) := rfl
  unfold RelatedEval Variables.lexical
  rw [hleft]
  unfold Binding.get
  rw [hagrees name b hb, Program.name_of_bindingOf hb]
  dsimp only
  rw [Eval.bind_get]
  cases t.slots.get? (p.cell name) with
  | some items => exact .both (.ok ⟨rfl, hE⟩)
  | none => exact .both (.error trivial hE)

/-! ## Arguments -/

/-- Bounds between expressions that are apart. -/
structure Cuts (P : Nat → Nat → ExprId → Prop) (lo hi : Nat) (es : List ExprId) (cut : Nat → Nat) : Prop where
  start : cut 0 = lo
  upper : ∀ i, cut i ≤ hi
  mono : ∀ i, cut i ≤ cut (i + 1)
  placed : ∀ (i : Nat) e, es[i]? = some e → P (cut i) (cut (i + 1)) e

theorem Cuts.le (h : Cuts P lo hi es cut) (hij : i ≤ j) : cut i ≤ cut j := by
  induction hij with
  | refl => exact .refl
  | step _ ih => exact Nat.le_trans ih (h.mono _)

theorem Cuts.lower (h : Cuts P lo hi es cut) (i : Nat) : lo ≤ cut i := by
  rw [← h.start]
  exact h.le (Nat.zero_le i)

theorem Apart.cuts : ∀ {lo hi : Nat}, Apart P lo hi es → ∃ cut, Cuts P lo hi es cut := by
  induction es with
  | nil =>
    intro lo hi h
    exact ⟨fun _ => lo, rfl, fun _ => h, fun _ => .refl, nofun⟩
  | cons e es ih =>
    rintro lo hi ⟨mid, hle, he, hes⟩
    obtain ⟨cut, hcut⟩ := ih hes
    refine ⟨fun i => if i = 0 then lo else cut (i - 1), rfl, ?_, ?_, ?_⟩
    · intro i
      cases i with
      | zero => exact Nat.le_trans hle (Nat.le_trans (hcut.lower 0) (hcut.upper 0))
      | succ i => exact hcut.upper i
    · intro i
      cases i with
      | zero => exact Nat.le_trans hle (hcut.lower 0)
      | succ i => exact hcut.mono i
    · intro i a ha
      cases i with
      | zero =>
        cases ha
        rw [hcut.start]
        exact he
      | succ i => exact hcut.placed i a ha

/-- Where an argument works: in its interval, or nowhere if it is a fork. -/
def ArgumentPlace (vars : List Binding) (cut : Nat → Nat) (i : Nat)
    (scope : Option (List Binding)) (lo hi : Nat) : Prop :=
  scope = some vars ∧ lo = cut i ∧ hi = cut (i + 1) ∨ scope = none ∧ lo = 0 ∧ hi = 0

def ArgumentLive (p : Program) (Fit : FunctionEntry → Prop) (vars : List Binding) (cut : Nat → Nat) (env : Slots)
    (i : Nat) : CursorRel :=
  fun c s d _ => ∃ scope lo hi, ArgumentPlace vars cut i scope lo hi ∧
    Sim p Fit anyOrigin (some s.slots) scope lo hi env c d

theorem Held.undisturbed (h : Held lo hi σ env sizes s t) (hstill : Held 0 0 s.slots env sizes s' t') :
    Undisturbed (Held lo hi σ env sizes) (ArgumentLive p Fit vars cut env) (fun _ => True) s t s' t' := by
  refine ⟨h.still hstill, ?_⟩
  rintro j c d - ⟨scope, l, u, hplace, hsim⟩
  exact ⟨scope, l, u, hplace, hsim.frame hstill.frame (.inr (Nat.zero_le _))⟩

theorem arguments_answers (hcut : Cuts P lo hi es cut) (hnext : NextInStep w p Fit n)
    (hclone : CloneInStep w p Fit n) (hagrees : Agrees p vars σ env) (hbelow : ScopeBelow p vars lo)
    (hfocus : FocusSim p Fit lo σ env focus focus') (hsizes : SizesFor focus sizes) :
    Answers .strict True (fun _ => True) (fun _ => True) (Unpulled p Fit gen vars lo hi env)
      (Held lo hi σ env sizes) (fun i => Unpulled p Fit gen vars (cut i) (cut (i + 1)) env)
      (ArgumentLive p Fit vars cut env) (w.slotMachine n p) (w.scopeMachine n p) focus focus' where
  empty := fun _ {_ _} _ => ⟨none, 0, 0, .inr ⟨rfl, rfl, rfl⟩, .leaf .empty⟩
  current := by
    rintro i c s d t ⟨_, _, _, -, hsim⟩
    exact ⟨hsim.current_eq, fun _ _ => trivial⟩
  advance := by
    rintro i c s d t hheld ⟨scope, l, u, hplace, hsim⟩
    have hambient : Ambient p p scope l s.slots env := by
      rcases hplace with ⟨rfl, rfl, rfl⟩ | ⟨rfl, rfl, rfl⟩
      · exact .ofScope (hagrees.frame hbelow hheld.frame) (hbelow.mono (hcut.lower i))
      · exact nofun
    refine (hnext (traced_anyOrigin w p) hambient hheld.env hsim).mono ?_
    rintro ⟨c', r⟩ s' ⟨d', r'⟩ t' ⟨hout, hcur, hpos, hok, hsim', hheld'⟩
    refine ⟨hout, hcur, hpos, hok, ⟨scope, l, u, hplace, hsim'⟩, ?_, ?_⟩
    · rcases hplace with ⟨rfl, rfl, rfl⟩ | ⟨rfl, rfl, rfl⟩
      · exact hheld.trans hheld' (hcut.lower i) (hcut.upper (i + 1))
      · refine hheld.still ⟨hheld'.frame, hheld'.env, ?_⟩
        rw [hheld'.sizes.1, hheld'.sizes.2]
        exact hheld.sizes
    · rintro j a b hij ⟨scope', l', u', hplace', hsim''⟩
      refine ⟨scope', l', u', hplace', hsim''.frame hheld'.frame ?_⟩
      -- Different arguments have different intervals.
      rcases hplace' with ⟨-, rfl, rfl⟩ | ⟨-, rfl, rfl⟩
      · rcases hplace with ⟨-, rfl, rfl⟩ | ⟨-, rfl, rfl⟩
        · rcases Nat.lt_or_gt_of_ne hij with hlt | hlt
          · exact .inl (hcut.le hlt)
          · exact .inr (hcut.le hlt)
        · exact .inr (Nat.zero_le _)
      · exact .inl (Nat.zero_le _)
  fork := by
    -- A fork is a copy, which works in no interval.
    rintro i c s d t hheld ⟨scope, l, u, hplace, hsim⟩
    have hcopy : Related False (Made (Copied p Fit) (Still s t)) ((w.slotMachine n p).clone c s)
        ((w.scopeMachine n p).clone d t) := by
      rcases hplace with ⟨rfl, rfl, rfl⟩ | ⟨rfl, rfl, rfl⟩
      · exact hclone (.ofScope (hagrees.frame hbelow hheld.frame) (hbelow.mono (hcut.lower i))) hheld.env
          hsim.dormant
      · have hnone : Ambient p p none 0 s.slots env := nofun
        exact hclone hnone hheld.env hsim.dormant
    refine hcopy.mono ?_
    rintro c s' d t' ⟨hcopied, hleft, hright⟩
    refine ⟨fun _ => ⟨none, 0, 0, .inr ⟨rfl, rfl, rfl⟩, hcopied ..⟩, hheld.undisturbed ⟨?_, ?_, ?_⟩⟩
    · rw [hleft.1]
      exact .refl
    · exact hright.1.trans hheld.env
    · rw [hleft.2, hright.2]
      exact hheld.sizes
  last := by
    intro s t hheld
    refine ((hfocus.frame hheld.frame).last hnext hclone hsizes rfl hheld.env hheld.sizes).mono ?_
      fun _ _ hstill => hheld.undisturbed hstill
    rintro a s' _ t' ⟨rfl, hstill⟩
    exact ⟨rfl, hheld.undisturbed hstill⟩
  reply := fun {i} {_ _ _ _} _ hfresh _ => (hfresh trivial).widen (hcut.lower i) (hcut.upper (i + 1))

/-! ## Forms -/

def MadeInStep (p : Program) (Fit : FunctionEntry → Prop) (gen : Origin) (vars : List Binding) (lo hi : Nat)
    (env : Slots) (sizes : Option Nat → Option Nat → Prop) (s t : Store) (x y : Eval Cursor) : Prop :=
  RelatedEval .strict (Made (Unpulled p Fit gen vars lo hi env) (Held lo hi s.slots env sizes))
    (Held lo hi s.slots env sizes) x y s t

section

variable (hexec : ExecuteInStep w p Fit n) (hagrees : Agrees p vars s.slots env) (hbelow : ScopeBelow p vars lo)
  (hfocus : FocusSim p Fit lo s.slots env focus focus') (hsizes : SizesFor focus sizes)
  (hheld : Held lo hi s.slots env sizes s t)

include hexec hagrees hbelow hfocus hsizes hheld

theorem call_inStep (hnext : NextInStep w p Fit n) (hclone : CloneInStep w p Fit n) (hgen : Traced w p gen)
    (hplaced : Apart (PlacedAt p Fit k vars) lo hi children) {f : FunctionEntry}
    (hf : ∀ call, (f.body call).KeepsReply []) : MadeInStep p Fit gen vars lo hi env sizes s t
      (do
        let args ← (w.slotMachine n p).executeAll focus children
        (w.slotMachine n p).runScript focus
          (f.body ⟨p.static.settings, args.length, (w.slotMachine n p).fuel⟩) args.toArray)
      (do
        let args ← (w.scopeMachine n p).executeAll focus' children
        (w.scopeMachine n p).runScript focus'
          (f.body ⟨p.static.settings, args.length, (w.scopeMachine n p).fuel⟩) args.toArray) := by
  obtain ⟨cut, hcut⟩ := hplaced.cuts
  refine .bind (executeAll_related (F := fun i => Unpulled p Fit gen vars (cut i) (cut (i + 1)) env)
    (.refl ?_) hheld) ?_
  · intro i e he
    exact hexec.executes hgen ⟨k, hcut.placed i e he⟩ (hcut.mono i) hagrees hbelow (hcut.lower i)
      (hcut.upper (i + 1)) hfocus hsizes
  · rintro args s' args' t' ⟨-, hargs, hheld'⟩
    have hfuel : (w.scopeMachine n p).fuel = (w.slotMachine n p).fuel := by
      rw [Watches.scopeMachine, Watches.slotMachine, Watch.fuel_machine, Watch.fuel_machine]
    rw [← hargs.1, hfuel]
    refine runScript_related (arguments_answers hcut hnext hclone hagrees hbelow hfocus hsizes)
      (fuelLe_machines w n p p) (fun c hc σ => .plain (hc.mono fun _ _ => trivial)) hfocus.item_eq hfocus.position_eq
      (fun _ _ => trivial) (.refl _ _) (Script.sound_true _)
      (Script.ends_of_free (fun _ => trivial) (fun _ => trivial) _) (fun _ => hf _) (.start hheld' hargs ?_)
    intro i c d h
    exact ⟨some vars, _, _, .inl ⟨rfl, rfl, rfl⟩,
      (h s'.slots).mono (fun _ _ _ _ _ _ => trivial) .refl .refl .refl⟩

/-- The body's value for an item is being read, as that of a loop would be, beside the source. -/
def Testing (p : Program) (Fit : FunctionEntry → Prop) (vars : List Binding) (lo hi : Nat)
    (env : Slots) (b : Binding) (body : ExprId) (sizes : Option Nat → Option Nat → Prop)
    (E : Store → Store → Prop) (c d : Cursor) : CursorRel :=
  fun v s w t => ∃ s₀ t₀, Live p Fit anyOrigin (some vars) lo b.slot env E c s₀ d t₀ ∧
    SimRuns p Fit (b :: vars) (b.slot + 1) hi env (.forEach body b (.single none)) c
      (Held b.slot hi s₀.slots env sizes) v s w t

/-- The body of a quantified expression is evaluated for one item at a time. -/
theorem quantified_inStep (hnext : NextInStep w p Fit n)
    (hplaced : PlacedLoop (PlacedAt p Fit k) p vars lo hi e b source body) :
    MadeInStep p Fit gen vars lo hi env sizes s t
      ((w.slotMachine n p).quantifiedForm focus q (some b) [source, body])
      ((w.scopeMachine n p).quantifiedForm focus' q (some b) [source, body]) := by
  have hslot : b.slot ≤ hi := Nat.le_of_lt hplaced.upper
  have hloop : LoopPlaced p Fit vars lo hi (.forEach body b (.single none)) b.slot (b.slot + 1) hi (b :: vars) :=
    .forEach _ hplaced.name hplaced.lower hplaced.upper .refl ⟨k, hplaced.body⟩
  refine .bindSame (fun _ _ => trivial) hheld ?_
  rintro b' ⟨⟩
  refine .bindSame (fun _ _ => trivial) hheld ?_
  rintro body' ⟨⟩
  refine .bindSame (fun _ _ => trivial) hheld ?_
  rintro source' ⟨⟩
  refine .bind (hexec.executes (traced_anyOrigin w p) ⟨k, hplaced.source⟩ hplaced.lower hagrees hbelow
    .refl hslot hfocus hsizes s t hheld) ?_
  rintro c s₁ d t₁ ⟨hfresh, hheld₁⟩
  refine .bind (deviates_related
    (V := Testing p Fit vars lo hi env b body sizes (Held lo hi s.slots env sizes)) (fuelLe_machines w n p p)
    (hnext.keepsUp (traced_anyOrigin w p) (.ofScope hagrees hbelow) .refl hslot)
    (fun _ _ _ _ h => h.2) ?_ ?_ ?_ (fuelLe_machines w n p p) ⟨hfresh _, hheld₁⟩) ?_
  · rintro c d v s' w t' ⟨s₀, t₀, ⟨hsim, hheld₀⟩, hvalue⟩
    refine (hnext.keepsUp_running hloop hbelow (hagrees.frame hbelow hheld₀.frame) v s' w t' hvalue).mono ?_
    rintro x s₂ y t₂ ⟨hout, hcur, hpos, hok, hvalue'⟩
    exact ⟨hout, hcur, hpos, hok, s₀, t₀, ⟨hsim, hheld₀⟩, hvalue'⟩
  · rintro c d v s' w t' ⟨s₀, t₀, ⟨hsim, hheld₀⟩, hvalue⟩
    exact ⟨hsim.frame hvalue.1.frame (.inl .refl),
      hheld₀.extend hvalue.1 hplaced.lower .refl⟩
  · rintro c s' d t' item ⟨hsim, hheld'⟩ hc -
    obtain rfl := hheld'.env
    rw [Watches.slotMachine, Watches.scopeMachine, Watch.vars_machine, Watch.vars_machine]
    have hagrees' := hagrees.frame hbelow hheld'.frame
    refine (hexec.iterate (traced_anyOrigin w p) hplaced.name hplaced.lower hplaced.upper ⟨k, hplaced.body⟩
      hagrees' hbelow (hfocus.frame hheld'.frame) hsizes hheld'.sizes).mono ?_ ?_
    · rintro v s₂ w t₂ ⟨⟨⟨j₀, t₃, rfl, hvalue, -⟩, hitem⟩, hheld₂⟩
      refine ⟨s', t', ⟨hsim, hheld'⟩, hheld₂, _, j₀, .forEach hc ?_, hvalue _⟩
      rintro _ ⟨⟩
      exact hitem
    · exact fun s₂ t₂ hheld₂ => hheld'.extend hheld₂ hplaced.lower .refl
  · rintro truth s' _ t' ⟨rfl, hheld'⟩
    exact .pure ⟨fun σ => .plain (.items fun _ _ => trivial), hheld'⟩

/-- The paths of a program, from the context, the root or the value of an expression. -/
theorem path_inStep (hnext : NextInStep w p Fit n) (hclone : CloneInStep w p Fit n) (hgen : Traced w p gen)
    (unique : Bool) (hplaced : Apart (PlacedAt p Fit k vars) lo hi plan.parts) :
    MadeInStep p Fit gen vars lo hi env sizes s t
      ((w.slotMachine n p).path focus unique plan) ((w.scopeMachine n p).path focus' unique plan) := by
  have hsame : SameFocus .strict (fun _ => True) (Held lo hi s.slots env sizes) (w.slotMachine n p)
      (w.scopeMachine n p) focus focus' := hfocus.same hnext hclone hsizes
  -- the start works in an interval of its own, below those of the steps
  obtain ⟨mid, hmid, hstart, hsteps⟩ : ∃ mid, lo ≤ mid ∧
      (∀ e, plan.start = .expr e → PlacedAt p Fit k vars lo mid e) ∧
      Apart (PlacedAt p Fit k vars) mid hi (plan.steps.filterMap Step.expr?) := by
    unfold PathPlan.parts at hplaced
    cases hs : plan.start with
    | expr e =>
      rw [hs] at hplaced
      obtain ⟨mid, hmid, hstart, hsteps⟩ := hplaced
      refine ⟨mid, hmid, ?_, hsteps⟩
      rintro e' ⟨⟩
      exact hstart
    | context | root =>
      rw [hs] at hplaced
      exact ⟨lo, .refl, nofun, hplaced⟩
  have hhi : mid ≤ hi := hsteps.le
  refine path_related (S := Unpulled p Fit gen vars lo mid env) (fun _ => hsame) (fun _ _ _ _ => trivial)
    (.refl ?_) ⟨rfl, rfl⟩ ?_ ?_ ?_ ?_ hheld
  · exact fun e he => hexec.executes hgen ⟨k, hstart e he⟩ hmid hagrees hbelow .refl hhi hfocus
      hsizes
  · exact fun c hc σ => .plain hc
  · exact fun c d h => h.requireNodes
  · exact fun c d h => h.chain hmid hsteps
  · exact fun c d h => h.inOrder unique

theorem filter_inStep (hgen : Traced w p gen) (hsource : children[0]? = some source)
    (hplaced : Apart (PlacedAt p Fit k vars) lo hi (source :: steps.filterMap Step.expr?)) :
    MadeInStep p Fit gen vars lo hi env sizes s t
      (do
        let source ← (w.slotMachine n p).execute (← Calls.childAt children 0) focus
        return Calls.chain false (.ofParts [source]) steps)
      (do
        let source ← (w.scopeMachine n p).execute (← Calls.childAt children 0) focus'
        return Calls.chain false (.ofParts [source]) steps) := by
  obtain ⟨mid, hmid, hplaced₀, hsteps⟩ := hplaced
  refine .bind (childAt_related rfl (fun _ => trivial) hheld) ?_
  rintro source₁ s₁ source₂ t₁ ⟨hsource₁, hsource₂, hheld⟩
  cases hsource.symm.trans hsource₁
  cases hsource.symm.trans hsource₂
  refine .bind (hexec.executes hgen ⟨k, hplaced₀⟩ hmid hagrees hbelow .refl hsteps.le hfocus
    hsizes s₁ t₁ hheld) ?_
  rintro c s' d t' ⟨hF, hheld'⟩
  have hparts : Unpulled p Fit gen vars lo mid env (.ofParts [c]) (.ofParts [d]) :=
    .ofParts (.cons hF .nil)
  exact .pure ⟨hparts.chain hmid hsteps, hheld'⟩

theorem forEach_inStep (hnext : NextInStep w p Fit n) (hclone : CloneInStep w p Fit n) (hgen : Traced w p gen)
    (hplaced : PlacedLoop (PlacedAt p Fit k) p vars lo hi e b source body) :
    MadeInStep p Fit gen vars lo hi env sizes s t
      ((w.slotMachine n p).forForm p focus (some b) (p.children e))
      ((w.scopeMachine n p).forForm p focus' (some b) (p.children e)) := by
  have hslot : b.slot ≤ hi := Nat.le_of_lt hplaced.upper
  rw [hplaced.children]
  refine forForm_related (S := Unpulled p Fit gen vars lo b.slot env) (G := fun _ => Eq) rfl nofun rfl
    (fun _ _ _ => trivial) ?_ ?_ ?_ hheld
  · rintro body' _ s' t' ⟨⟩ ⟨⟩ hheld'
    refine (snapshot_related (hfocus.same hnext hclone hsizes) _ hheld').mono ?_
    rintro x s₁ y t₁ ⟨heq, -, -, hheld₁⟩
    exact ⟨heq, hheld₁⟩
  · rintro e' _ ⟨⟩ ⟨⟩
    exact hexec.executes hgen ⟨k, hplaced.source⟩ hplaced.lower hagrees hbelow .refl hslot hfocus
      hsizes
  · rintro b' _ body' _ snap _ c d ⟨⟩ rfl ⟨⟩ ⟨⟩ rfl hF σ
    exact .loop (l := .forEach _ _ snap) 0 (.inl rfl) (.forEach snap hplaced.name hplaced.lower hplaced.upper
      .refl ⟨k, hplaced.body⟩) (hF σ)

end

/-! ## One depth -/

theorem execute_inStep (hw : w.Concur p Fit) (hFit : ∀ f, Fit f → ∀ call, (f.body call).KeepsReply [])
    (hnext : NextInStep w p Fit n) (hclone : CloneInStep w p Fit n) (hexec : ExecuteInStep w p Fit n) :
    ExecuteInStep w p Fit (n + 1) := by
  intro gen vars lo hi env e focus focus' sizes s t hgen hplaced hle hagrees hbelow ht hfocus hsizes hst
  have hheld : Held lo hi s.slots env sizes s t := ⟨.refl, ht, hst⟩
  refine provided_related (x := (w.slotMachine n p).perform p e focus)
    (y := (w.scopeMachine n p).perform p e focus') ?_ fun _ _ _ _ => hw hplaced hagrees hbelow ht
  obtain ⟨k, hplaced⟩ := hplaced
  cases k with
  | zero => exact hplaced.elim
  | succ k =>
    unfold PlacedAt at hplaced
    cases hform : p.form? e with
    | none =>
      rw [hform] at hplaced
      exact hplaced.elim
    | some form =>
      rw [hform] at hplaced
      have hdirect (hd : form.isDirect = true)
          (hc : ∀ c ∈ p.children e, PlacedAt p Fit k vars lo hi c) :=
        (hnext.tandem hgen hagrees hbelow .refl .refl).perform_direct hform hform
          hd (fun _ => hfocus.same hnext hclone hsizes)
          ⟨.refl fun _ c hmem => hexec.executes hgen ⟨k, hc c (List.mem_of_getElem? hmem)⟩ hle hagrees
            hbelow .refl .refl hfocus hsizes, fun _ _ _ => trivial⟩
          (fun _ hc σ => .plain (hc.mono fun _ _ => trivial)) (fun _ _ _ _ _ h => h) hheld
      unfold Calls.perform at hdirect ⊢
      rw [hform] at hdirect ⊢
      cases form with
      | «variable» name binding =>
        obtain ⟨b, rfl, hb⟩ := hplaced
        rw [Watches.slotMachine, Watches.scopeMachine, Watch.vars_machine, Watch.vars_machine]
        refine .bind (lookup_inStep hb (ht ▸ hagrees) hheld) ?_
        rintro items s' _ t' ⟨rfl, hheld'⟩
        exact .pure ⟨fun σ => .plain (.items fun _ _ => trivial), hheld'⟩
      | call name function =>
        obtain ⟨f, rfl, hf, hargs⟩ := hplaced
        refine .bindSame (fun _ _ => trivial) hheld ?_
        rintro f' ⟨⟩
        exact call_inStep hexec hagrees hbelow hfocus hsizes hheld hnext hclone hgen hargs (hFit f hf)
      | path plan =>
        exact path_inStep hexec hagrees hbelow hfocus hsizes hheld hnext hclone hgen _ hplaced
      | filter steps =>
        obtain ⟨source, hsource, hparts⟩ := hplaced
        exact filter_inStep hexec hagrees hbelow hfocus hsizes hheld hgen hsource hparts
      | forEach name binding =>
        obtain ⟨b, source, body, rfl, hloop⟩ := hplaced
        exact forEach_inStep hexec hagrees hbelow hfocus hsizes hheld hnext hclone hgen hloop
      | quantified q name binding =>
        obtain ⟨b, source, body, rfl, hloop⟩ := hplaced
        rw [hloop.children]
        exact quantified_inStep hexec hagrees hbelow hfocus hsizes hheld hnext hloop
      | sequence =>
        refine .bind (executeAll_related (F := fun _ => Unpulled p Fit gen vars lo hi env)
          (.refl ?_) hheld) ?_
        · intro i c hc
          exact hexec.executes hgen ⟨k, hplaced c (List.mem_of_getElem? hc)⟩ hle hagrees hbelow
            .refl .refl hfocus hsizes
        · rintro cs s' ds t' ⟨-, hcs, hheld'⟩
          exact .pure ⟨.ofParts hcs, hheld'⟩
      | _ => exact hdirect rfl hplaced

end

end XPath
