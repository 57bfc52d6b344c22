import XPath.Proofs.Simulation
import XPath.Proofs.Watched

/-!
# What the two machines have to keep up

The statements about pulling, copying and executing at one depth, on the machine with slots and on the
machine with environments, and how each of them is used at the depth above. `XPath.Proofs.Refinement`
proves them by induction on the depth.
-/

namespace XPath

variable {σ' : Slots} {lo' hi' : Nat} {sizes' : Option Nat → Option Nat → Prop} {s' t' : Store}
  {live : Option Slots} {b : Binding} {item : Item} {st st' : Beginning}

def anyOrigin : Origin :=
  fun _ _ _ _ _ => True

/-- Where a sequence comes from is known when it is made, and stays known while it is pulled. -/
structure Traced (w : Watches) (p : Program) (gen : Origin) : Prop where
  start : ∀ n e focus t c t', (w.scopeMachine n p).execute e focus t = some (.ok c, t') →
    (∀ input, focus = .current input → t.groupSize = none) → gen e focus t.slots c 0
  next : ∀ n e focus c k t c' t', gen e focus t.slots c k →
    (w.scopeMachine n p).next c t = some ((c', .ok true), t') → gen e focus t.slots c' (k + 1)

theorem traced_anyOrigin (w : Watches) (p : Program) : Traced w p anyOrigin :=
  ⟨fun _ _ _ _ _ _ _ _ => trivial, fun _ _ _ _ _ _ _ _ _ _ => trivial⟩

/-- What a cursor in an interval needs of the slots around it. -/
def Ambient (p p' : Program) (scope : Option (List Binding)) (lo : Nat) (σ env : Slots) : Prop :=
  ∀ vars, scope = some vars → p' = p ∧ Agrees p vars σ env ∧ ScopeBelow p vars lo

theorem Ambient.frame (h : Ambient p p' scope lo σ env) (hframe : Frame lo hi σ σ') : Ambient p p' scope lo σ' env := by
  intro vars hvars
  obtain ⟨hp, hagrees, hbelow⟩ := h vars hvars
  exact ⟨hp, hagrees.frame hbelow hframe, hbelow⟩

theorem Ambient.mono (h : Ambient p p' scope lo σ env) (hlo : lo ≤ lo') : Ambient p p' scope lo' σ env := by
  intro vars hvars
  obtain ⟨hp, hagrees, hbelow⟩ := h vars hvars
  exact ⟨hp, hagrees, hbelow.mono hlo⟩

theorem Ambient.ofScope
    (hagrees : Agrees p vars σ env) (hbelow : ScopeBelow p vars lo) : Ambient p p (some vars) lo σ env := by
  intro vars' hvars
  cases hvars
  exact ⟨rfl, hagrees, hbelow⟩

/-- The stores while a cursor in an interval is at work: on the left only slots of the interval have
changed since `σ`, on the right the environment is what it was. -/
structure Held (lo hi : Nat) (σ env : Slots) (sizes : Option Nat → Option Nat → Prop) (s t : Store) : Prop where
  frame : Frame lo hi σ s.slots
  env : t.slots = env
  sizes : sizes s.groupSize t.groupSize

def UnchangedSizes (s t : Store) (a b : Option Nat) : Prop :=
  a = s.groupSize ∧ b = t.groupSize

abbrev Working (lo hi : Nat) (env : Slots) (s t : Store) : Store → Store → Prop :=
  Held lo hi s.slots env (UnchangedSizes s t)

theorem Held.still {σ env : Slots} {sizes : Option Nat → Option Nat → Prop} {s t : Store}
    (h : Held lo hi σ env sizes s t) (h' : Held 0 0 s.slots env sizes' s' t') : Held lo hi σ env sizes' s' t' := by
  refine ⟨fun i hi => ?_, h'.env, h'.sizes⟩
  rw [h'.frame i (.inr (Nat.zero_le i))]
  exact h.frame i hi

theorem Held.extend {σ env : Slots} {sizes : Option Nat → Option Nat → Prop} {s t : Store}
    (h : Held lo hi σ env sizes s t) (h' : Held lo' hi' s.slots env sizes' s' t') (hlo : lo ≤ lo')
    (hhi : hi' ≤ hi) : Held lo hi σ env sizes' s' t' :=
  ⟨h.frame.trans (h'.frame.widen hlo hhi), h'.env, h'.sizes⟩

theorem Held.trans {σ env : Slots} {sizes : Option Nat → Option Nat → Prop} {s t : Store}
    (h : Held lo hi σ env sizes s t) (h' : Held lo' hi' s.slots env (UnchangedSizes s t) s' t')
    (hlo : lo ≤ lo') (hhi : hi' ≤ hi) : Held lo hi σ env sizes s' t' := by
  refine ⟨h.frame.trans (h'.frame.widen hlo hhi), h'.env, ?_⟩
  rw [h'.sizes.1, h'.sizes.2]
  exact h.sizes

section

variable {w : Watches} {p p' : Program} {Fit : FunctionEntry → Prop} {gen : Origin}
  {scope : Option (List Binding)} {lo hi : Nat} {env : Slots} {c d : Cursor} {s t : Store}

def Live (p : Program) (Fit : FunctionEntry → Prop) (gen : Origin) (scope : Option (List Binding))
    (lo hi : Nat) (env : Slots) (E : Store → Store → Prop) : CursorRel :=
  fun c s d t => Sim p Fit gen (some s.slots) scope lo hi env c d ∧ E s t

def Unpulled (p : Program) (Fit : FunctionEntry → Prop) (gen : Origin) (scope : List Binding)
    (lo hi : Nat) (env : Slots) (c d : Cursor) : Prop :=
  ∀ σ, Sim p Fit gen (some σ) (some scope) lo hi env c d

def Copied (p : Program) (Fit : FunctionEntry → Prop) (c d : Cursor) : Prop :=
  ∀ live scope lo hi env, Sim p Fit anyOrigin live scope lo hi env c d

structure Still (s t s' t' : Store) : Prop where
  left : s'.slots = s.slots ∧ s'.groupSize = s.groupSize
  right : t'.slots = t.slots ∧ t'.groupSize = t.groupSize

/-- The cursor of a focus is only copied. It belongs to the slots below the interval in which the focus is
used; on the right it may have been taken along into other environments. -/
inductive FocusCursor (p : Program) (Fit : FunctionEntry → Prop) (lo : Nat) (σ : Slots) :
    Slots → Cursor → Cursor → Prop
  | here {env : Slots} {c d : Cursor} {vars : List Binding} {lo' hi' : Nat} (le : lo' ≤ lo)
      (agrees : Agrees p vars σ env) (below : ScopeBelow p vars lo')
      (sim : Sim p Fit anyOrigin none (some vars) lo' hi' env c d) : FocusCursor p Fit lo σ env c d
  | within {env env' : Slots} {c d : Cursor} (h : FocusCursor p Fit lo σ env c d) :
      FocusCursor p Fit lo σ env' c (.scope p env d)

inductive FocusSim (p : Program) (Fit : FunctionEntry → Prop) (lo : Nat) (σ env : Slots) :
    Focus → Focus → Prop
  | fixed (snap : Snapshot) : FocusSim p Fit lo σ env (.fixed snap) (.fixed snap)
  | current {c d : Cursor} (h : FocusCursor p Fit lo σ env c d) :
      FocusSim p Fit lo σ env (.current c) (.current d)

/-- A counted group size has to be the same on both sides if the focus is a cursor. -/
def SizesFor (focus : Focus) (sizes : Option Nat → Option Nat → Prop) : Prop :=
  ∀ input, focus = .current input → (∀ a b, sizes a b → a = b) ∧ ∀ n, sizes (some n) (some n)

def NextInStep (w : Watches) (p : Program) (Fit : FunctionEntry → Prop) (n : Nat) : Prop :=
  ∀ {gen : Origin} {p' : Program} {scope : Option (List Binding)} {lo hi : Nat} {env : Slots}
    {c d : Cursor} {s t : Store}, Traced w p gen → Ambient p p' scope lo s.slots env → t.slots = env →
    Sim p Fit gen (some s.slots) scope lo hi env c d →
    Related False
      (Pulls .strict (fun _ => True) (Live p Fit gen scope lo hi env (Working lo hi env s t)))
      ((w.slotMachine n p').next c s) ((w.scopeMachine n p).next d t)

def CloneInStep (w : Watches) (p : Program) (Fit : FunctionEntry → Prop) (n : Nat) : Prop :=
  ∀ {gen : Origin} {p' : Program} {scope : Option (List Binding)} {lo hi : Nat} {env : Slots}
    {c d : Cursor} {s t : Store}, Ambient p p' scope lo s.slots env → t.slots = env →
    Sim p Fit gen none scope lo hi env c d →
    Related False (Made (Copied p Fit) (Still s t))
      ((w.slotMachine n p').clone c s) ((w.scopeMachine n p).clone d t)

def ExecuteInStep (w : Watches) (p : Program) (Fit : FunctionEntry → Prop) (n : Nat) : Prop :=
  ∀ {gen : Origin} {vars : List Binding} {lo hi : Nat} {env : Slots} {e : ExprId}
    {focus focus' : Focus} {sizes : Option Nat → Option Nat → Prop} {s t : Store},
    Traced w p gen → Placed p Fit vars lo hi e → lo ≤ hi → Agrees p vars s.slots env →
    ScopeBelow p vars lo → t.slots = env → FocusSim p Fit lo s.slots env focus focus' →
    SizesFor focus sizes → sizes s.groupSize t.groupSize →
    RelatedEval .strict (Made (Unpulled p Fit gen vars lo hi env) (Held lo hi s.slots env sizes))
      (Held lo hi s.slots env sizes) ((w.slotMachine n p).execute e focus)
      ((w.scopeMachine n p).execute e focus') s t

/-- The two watches ask for the same where executions stay in step. -/
def Watches.Concur (w : Watches) (p : Program) (Fit : FunctionEntry → Prop) : Prop :=
  ∀ {gen : Origin} {vars : List Binding} {lo hi : Nat} {env : Slots} {e : ExprId} {focus focus' : Focus}
    {sizes : Option Nat → Option Nat → Prop} {s t s' t' : Store} {x y : Except Error Cursor},
    Placed p Fit vars lo hi e → Agrees p vars s.slots env → ScopeBelow p vars lo → t.slots = env →
    Settled .strict (Made (Unpulled p Fit gen vars lo hi env) (Held lo hi s.slots env sizes))
      (Held lo hi s.slots env sizes) x s' y t' →
    (w.slots.execution p e focus s x s' ↔ w.scopes.execution p e focus' t y t')

theorem Watches.concur_idle (p : Program) (Fit : FunctionEntry → Prop) : Watches.idle.Concur p Fit :=
  fun _ _ _ _ _ => Iff.rfl

theorem provided_related
 (h : RelatedEval .strict Q E x y s t) (hok : ∀ a s' b t', Settled .strict Q E a s' b t' → (ok s a s' ↔ ok' t b t')) :
    RelatedEval .strict Q E (x.provided ok) (y.provided ok') s t := by
  unfold RelatedEval at *
  cases hx : x s with
  | none =>
    rw [hx] at h
    cases hy : y t with
    | none =>
      rw [Eval.provided_of_none hx, Eval.provided_of_none hy]
      exact .neither
    | some b =>
      rw [hy] at h
      cases h with
      | left h => exact h.elim
  | some a =>
    obtain ⟨b, t', hy, hab⟩ := h.of_some hx
    by_cases ha : ok s a.1 a.2
    · rw [Eval.provided_of_some hx ha, Eval.provided_of_some hy ((hok _ _ _ _ hab).mp ha)]
      exact .both hab
    · rw [Eval.provided_of_not hx ha, Eval.provided_of_not hy (fun hb => ha ((hok _ _ _ _ hab).mpr hb))]
      exact .neither

theorem fuelLe_machines (w : Watches) (n : Nat) (p p' : Program) :
    FuelLe False (w.slotMachine n p').fuel (w.scopeMachine n p).fuel := by
  unfold Watches.slotMachine Watches.scopeMachine
  rw [Watch.fuel_machine, Watch.fuel_machine]
  exact .inl rfl

/-! ## Pulling at the depth below -/

variable {n : Nat} {sizes : Option Nat → Option Nat → Prop} {σ : Slots} {lo₀ hi₀ : Nat}

/-- Cursors in a part of an interval keep up. -/
theorem NextInStep.keepsUp (h : NextInStep w p Fit n) (hgen : Traced w p gen)
    (hambient : Ambient p p' scope lo₀ σ env) (hlo : lo₀ ≤ lo) (hhi : hi ≤ hi₀) :
    KeepsUp .strict (fun _ => True) (Live p Fit gen scope lo hi env (Held lo₀ hi₀ σ env sizes))
      (w.slotMachine n p') (w.scopeMachine n p) := by
  rintro c s d t ⟨hsim, hheld⟩
  have hambient' := (hambient.frame hheld.frame).mono hlo
  refine (h hgen hambient' hheld.env hsim).mono ?_
  rintro x s' y t' ⟨hout, hcur, hpos, hok, hsim', hheld'⟩
  exact ⟨hout, hcur, hpos, hok, hsim', hheld.trans hheld' hlo hhi⟩

/-- Copies keep up wherever they are. -/
theorem NextInStep.keepsUp_copied (h : NextInStep w p Fit n) :
    KeepsUp .strict (fun _ => True) (Live p Fit anyOrigin none 0 0 env (Held 0 0 σ env sizes))
      (w.slotMachine n p') (w.scopeMachine n p) :=
  h.keepsUp (traced_anyOrigin w p) nofun .refl .refl

/-! ## Foci -/

namespace FocusCursor

section

variable (h : FocusCursor p Fit lo σ env c d)

include h

theorem current_eq : c.current = d.current := by
  induction h with
  | here le agrees below sim => exact sim.current_eq
  | within h ih => exact ih

theorem position_eq : c.position = d.position := by
  induction h with
  | here le agrees below sim => exact sim.position_eq
  | within h ih => exact ih

theorem frame (hframe : Frame lo hi σ σ') : FocusCursor p Fit lo σ' env c d := by
  induction h with
  | here le agrees below sim => exact .here le (agrees.frame (below.mono le) hframe) below sim
  | within h ih => exact .within ih

theorem mono (hlo : lo ≤ lo') : FocusCursor p Fit lo' σ env c d := by
  induction h with
  | here le agrees below sim => exact .here (Nat.le_trans le hlo) agrees below sim
  | within h ih => exact .within ih

/-- Copying the cursor of a focus changes nothing. -/
theorem clone (hclone : CloneInStep w p Fit n) (hσ : s.slots = σ) (ht : t.slots = env) :
    Related False (Made (Copied p Fit) (Still s t)) ((w.slotMachine n p).clone c s)
      ((w.scopeMachine n p).clone d t) := by
  induction h generalizing t with
  | here le agrees below sim =>
    exact hclone (.ofScope (hσ ▸ agrees) below) ht sim
  | @within env env' c d h ih =>
    have hinner := ih (t := { t with slots := env }) rfl
    rw [Watches.scopeMachine, Watch.clone_scope]
    refine hinner.mapRight ?_
    rintro c' s' d' t' ⟨hcopied, hleft, hright⟩
    exact ⟨hcopied, hleft, rfl, hright.2⟩

end

end FocusCursor

theorem FocusSim.frame (h : FocusSim p Fit lo σ env focus focus')
    (hframe : Frame lo hi σ σ') : FocusSim p Fit lo σ' env focus focus' := by
  cases h with
  | fixed snap => exact .fixed snap
  | current h => exact .current (h.frame hframe)

theorem FocusSim.mono (h : FocusSim p Fit lo σ env focus focus') (hlo : lo ≤ lo') :
    FocusSim p Fit lo' σ env focus focus' := by
  cases h with
  | fixed snap => exact .fixed snap
  | current h => exact .current (h.mono hlo)

theorem FocusSim.within (h : FocusSim p Fit lo σ env focus focus') :
    FocusSim p Fit lo σ env' focus (focus'.within p env) := by
  cases h with
  | fixed snap => exact .fixed snap
  | current h => exact .current (.within h)

/-- The cursor that a focus looks at lies below the interval in which the focus is used. -/
theorem FocusSim.ofSim (h : Sim p Fit gen live (some vars) lo hi env c d)
    (hagrees : Agrees p vars σ env) (hbelow : ScopeBelow p vars lo) (hlo : lo ≤ lo') :
    FocusSim p Fit lo' σ env (.current c) (.current d) := by
  have hdormant : Sim p Fit anyOrigin none (some vars) lo hi env c d :=
    h.mono (fun _ _ _ _ _ _ => trivial) .dormant .refl .refl
  exact .current (.here hlo hagrees hbelow hdormant)

/-- The size of a focus is counted on copies, so only the known sizes change. -/
theorem FocusSim.last (h : FocusSim p Fit lo σ env focus focus')
    (hnext : NextInStep w p Fit n) (hclone : CloneInStep w p Fit n) (hsizes : SizesFor focus sizes)
    (hσ : s.slots = σ) (ht : t.slots = env) (hst : sizes s.groupSize t.groupSize) :
    RelatedEval .strict (Same (Held 0 0 σ env sizes)) (Held 0 0 σ env sizes)
      ((w.slotMachine n p).last focus) ((w.scopeMachine n p).last focus') s t := by
  subst hσ ht
  cases h with
  | fixed snap => exact .same (fun _ _ => trivial) ⟨.refl, rfl, hst⟩
  | @current c d h =>
    obtain ⟨heq, hsome⟩ := hsizes c rfl
    refine .get ?_
    have hg := heq _ _ hst
    rw [← hg]
    cases hs : s.groupSize with
    | some k => exact .pure ⟨rfl, .refl, rfl, hst⟩
    | none =>
      refine .bind (.lift (h.clone hclone rfl rfl)) ?_
      rintro c' s' d' t' ⟨hcopied, hleft, hright⟩
      have hheld : Held 0 0 s.slots t.slots sizes s' t' := by
        refine ⟨?_, hright.1, ?_⟩
        · rw [hleft.1]
          exact .refl
        · rw [hleft.2, hright.2]
          exact hst
      rw [← (hcopied none none 0 0 t.slots).position_eq]
      refine .bind (countGroup_related hnext.keepsUp_copied (fun _ _ _ _ h => h.2)
        (fuelLe_machines w n p p) ⟨hcopied _ _ _ _ _, hheld⟩) ?_
      rintro k s' _ t' ⟨rfl, hheld⟩
      exact .modify (.pure ⟨rfl, hheld.frame, hheld.env, hsome k⟩)

theorem FocusSim.item_eq (h : FocusSim p Fit lo σ env focus focus') : focus.item? = focus'.item? := by
  cases h with
  | fixed snap => rfl
  | current h => exact h.current_eq

theorem FocusSim.position_eq (h : FocusSim p Fit lo σ env focus focus') : focus.position = focus'.position := by
  cases h with
  | fixed snap => rfl
  | current h => exact h.position_eq

theorem FocusSim.same (h : FocusSim p Fit lo σ env focus focus')
    (hnext : NextInStep w p Fit n) (hclone : CloneInStep w p Fit n) (hsizes : SizesFor focus sizes) :
    SameFocus .strict (fun _ => True) (Held lo hi σ env sizes) (w.slotMachine n p) (w.scopeMachine n p)
      focus focus' := by
  refine ⟨h.item_eq, h.position_eq, fun _ _ => trivial, ?_⟩
  intro s t hheld
  refine ((h.frame hheld.frame).last hnext hclone hsizes rfl hheld.env hheld.sizes).mono ?_ ?_
  · rintro a s' b t' ⟨rfl, hstill⟩
    exact ⟨rfl, hheld.still hstill⟩
  · exact fun s' t' hstill => hheld.still hstill

/-! ## Executing at the depth below -/

variable {vars : List Binding} {focus focus' : Focus} {e : ExprId}

/-- An expression in a part of the interval. -/
theorem ExecuteInStep.executes (h : ExecuteInStep w p Fit n) (hgen : Traced w p gen)
    (hplaced : Placed p Fit vars lo hi e) (hle : lo ≤ hi) (hagrees : Agrees p vars σ env)
    (hbelow : ScopeBelow p vars lo₀) (hlo : lo₀ ≤ lo) (hhi : hi ≤ hi₀)
    (hfocus : FocusSim p Fit lo₀ σ env focus focus') (hsizes : SizesFor focus sizes) :
    Executes .strict (Unpulled p Fit gen vars lo hi env) (Held lo₀ hi₀ σ env sizes) (w.slotMachine n p)
      (w.scopeMachine n p) focus focus' e e := by
  intro s t hheld
  refine (h hgen hplaced hle (hagrees.frame hbelow hheld.frame) (hbelow.mono hlo) hheld.env
    ((hfocus.frame hheld.frame).mono hlo) hsizes hheld.sizes).mono ?_ ?_
  · rintro c s' d t' ⟨hF, hheld'⟩
    exact ⟨hF, hheld.extend hheld' hlo hhi⟩
  · exact fun s' t' hheld' => hheld.extend hheld' hlo hhi

theorem Sim.plain (h : Plain (fun _ => True) c) : Sim p Fit gen live scope lo hi env c c :=
  .leaf h.leaf

/-- The machines work in step on the cursors of an interval. -/
theorem NextInStep.tandem (h : NextInStep w p Fit n) (hgen : Traced w p gen)
    (hagrees : Agrees p vars σ env) (hbelow : ScopeBelow p vars lo₀) (hlo : lo₀ ≤ lo) (hhi : hi ≤ hi₀) :
    Tandem .strict (fun _ _ => True) (fun _ => Unpulled p Fit gen vars lo hi env)
      (fun _ => Live p Fit gen (some vars) lo hi env (Held lo₀ hi₀ σ env sizes)) (Held lo₀ hi₀ σ env sizes)
      (w.slotMachine n p) (w.scopeMachine n p) where
  fuel := fuelLe_machines w n p p
  pulls := fun _ => h.keepsUp hgen (.ofScope hagrees hbelow) hlo hhi
  stores := fun _ _ _ _ hlive => hlive.2
  fresh := fun hF hheld => ⟨hF _, hheld⟩

/-! ## Iterations -/

/-- A sequence computed for an item of a loop: on the left the item stands in the variable's slot, on the
right the sequence is closed over the extended environment. -/
structure Iterated (w : Watches) (p : Program) (Fit : FunctionEntry → Prop) (gen : Origin) (n : Nat)
    (vars : List Binding) (hi : Nat) (b : Binding) (item : Item) (body : ExprId) (focus : Focus)
    (s t : Store) (i : Cursor) (s' : Store) (j : Cursor) (t' : Store) : Prop where
  closed : ∃ j₀ t₁, j = .scope p (t.slots.set (p.cell b.name) [item]) j₀ ∧
    Unpulled p Fit gen (b :: vars) (b.slot + 1) hi (t.slots.set (p.cell b.name) [item]) i j₀ ∧
    (w.scopeMachine n p).execute body (focus.within p t.slots)
      { t with slots := t.slots.set (p.cell b.name) [item] } = some (.ok j₀, t₁)
  slot : s'.slots.get? b.slot = some [item]

theorem ExecuteInStep.iterate (h : ExecuteInStep w p Fit n) (hgen : Traced w p gen)
    (hname : b.name ∈ p.variableNames) (hlower : lo ≤ b.slot) (hupper : b.slot < hi)
    (hplaced : Placed p Fit (b :: vars) (b.slot + 1) hi body) (hagrees : Agrees p vars s.slots t.slots)
    (hbelow : ScopeBelow p vars lo) (hfocus : FocusSim p Fit lo s.slots t.slots focus focus')
    (hsizes : SizesFor focus sizes) (hst : sizes s.groupSize t.groupSize) : RelatedEval .strict
      (fun i s' j t' => Iterated w p Fit gen n vars hi b item body focus' s t i s' j t' ∧
        Held b.slot hi s.slots t.slots sizes s' t') (Held b.slot hi s.slots t.slots sizes)
      ((w.slots.vars .inSlots).iterate b item focus ((w.slotMachine n p).execute body))
      ((w.scopes.vars (.lexical p)).iterate b item focus' ((w.scopeMachine n p).execute body)) s t := by
  by_cases hok : w.slots.item b item
  case neg =>
    rw [Watch.iterate_of_not_item hok, Watch.iterate_of_not_item (w.item ▸ hok)]
    exact .outOfFuel
  rw [Watch.iterate_of_item hok, Watch.iterate_of_item (w.item ▸ hok)]
  have hframe : Frame b.slot (b.slot + 1) s.slots (s.slots.set b.slot [item]) :=
    Frame.refl.set .refl .refl
  have hagrees' := (hagrees.frame (hbelow.mono hlower) hframe).extend hname
    (Slots.get?_set_self s.slots b.slot [item])
  have hrun := h (s := { s with slots := s.slots.set b.slot [item] })
    (t := { t with slots := t.slots.set (p.cell b.name) [item] }) hgen hplaced hupper hagrees'
    (hbelow.cons hlower) rfl
    (((hfocus.frame (hframe.widen hlower .refl)).mono (by omega)).within) hsizes hst
  change Related False _ ((w.slotMachine n p).execute body focus _) _
  rw [lexical_iterate_apply]
  refine (Related.withRight hrun).mapRight ?_
  have hheld : ∀ {s' t' : Store}, Held (b.slot + 1) hi (s.slots.set b.slot [item])
      (t.slots.set (p.cell b.name) [item]) sizes s' t' →
      Held b.slot hi s.slots t.slots sizes s' { t' with slots := t.slots } := fun hs =>
    ⟨(hframe.widen .refl hupper).trans (hs.frame.widen (by omega) .refl), rfl,
      hs.sizes⟩
  rintro x s' y t' ⟨hxy, hright⟩
  cases hxy with
  | @ok i _ j _ h =>
    obtain ⟨hF, hs⟩ := h
    refine .ok ⟨⟨⟨j, t', rfl, hF, hright⟩, ?_⟩, hheld hs⟩
    rw [hs.frame b.slot (.inl (by omega))]
    exact Slots.get?_set_self _ _ _
  | error lawful hs => exact .error lawful (hheld hs)

/-! ## Sequences that loops start -/

variable {l : Looping} {mid k : Nat} {vars' : List Binding} {env' : Slots} {i j j' : Cursor}
  (hplaced : LoopPlaced p Fit vars lo hi l mid lo' hi' vars') (hbelow : ScopeBelow p vars lo)

include hplaced hbelow

theorem LoopRuns.agrees (h : LoopRuns p (some σ) env c j l env' j') (hagrees : Agrees p vars σ env) :
    Agrees p vars' σ env' ∧ ScopeBelow p vars' lo' := by
  cases h with
  | forEach current held =>
    cases hplaced with
    | forEach focus name lower slot upper placed => exact ⟨hagrees.extend name (held _ rfl), hbelow.cons lower⟩
  | step =>
    cases hplaced with
    | step nested placed => exact ⟨hagrees, hbelow.mono nested.lo_le⟩

/-- How a pull of a sequence in progress ends. Its environment stays what it was. -/
structure PullsRunning (w : Watches) (p : Program) (Fit : FunctionEntry → Prop) (gen : Origin) (n : Nat)
    (vars' : List Binding) (lo' hi' : Nat) (l : Looping) (env' : Slots) (c j : Cursor) (s t : Store)
    (x : Pulled) (s' : Store) (y : Pulled) (t' : Store) : Prop where
  outcome : x.2 = y.2
  current : x.1.current = y.1.current
  position : x.1.position = y.1.position
  held : Held lo' hi' s.slots t.slots (UnchangedSizes s t) s' t'
  inner : ∃ j₁ t₁, (w.scopeMachine n p).next j { t with slots := env' } = some ((j₁, y.2), t₁) ∧
    LoopRuns p (some s'.slots) t.slots c j₁ l env' y.1 ∧
    Sim p Fit gen (some s'.slots) (some vars') lo' hi' env' x.1 j₁

theorem NextInStep.next_running (h : NextInStep w p Fit n) (hgen : Traced w p gen)
    (hagrees : Agrees p vars s.slots t.slots) (hruns : LoopRuns p (some s.slots) t.slots c j l env' j')
    (hinner : Sim p Fit gen (some s.slots) (some vars') lo' hi' env' i j) : Related False
      (PullsRunning w p Fit gen n vars' lo' hi' l env' c j s t) ((w.slotMachine n p).next i s)
      ((w.scopeMachine n p).next j' t) := by
  obtain ⟨hagrees', hbelow'⟩ := hruns.agrees hplaced hbelow hagrees
  have hpull := Related.withRight
    (h (t := { t with slots := env' }) hgen (.ofScope hagrees' hbelow') rfl hinner)
  cases hruns with
  | @forEach body b item focus current held =>
    rw [Watches.scopeMachine, Watch.next_scope]
    refine hpull.mapRight ?_
    rintro ⟨i', r⟩ s₁ ⟨j₁, r'⟩ t₁ ⟨⟨hout, hcur, hpos, -, hsim, hheld⟩, hright⟩
    refine ⟨hout, hcur, hpos, ⟨hheld.frame, rfl, hheld.sizes⟩, j₁, t₁, hright, ?_, hsim⟩
    rw [hheld.env]
    refine .forEach current ?_
    rintro _ ⟨⟩
    cases hplaced with
    | forEach focus name lower slot upper placed =>
      rw [hheld.frame b.slot (.inl .refl)]
      exact held _ rfl
  | step =>
    refine hpull.mono ?_
    rintro ⟨i', r⟩ s₁ ⟨j₁, r'⟩ t₁ ⟨⟨hout, hcur, hpos, -, hsim, hheld⟩, hright⟩
    exact ⟨hout, hcur, hpos, hheld, j₁, t₁, hright, .step, hsim⟩

/-- A sequence in progress for the current item of `c`, while it is pulled. -/
def SimRuns (p : Program) (Fit : FunctionEntry → Prop) (vars' : List Binding) (lo' hi' : Nat) (env : Slots)
    (l : Looping) (c : Cursor) (E : Store → Store → Prop) : CursorRel :=
  fun i s j' t => E s t ∧ ∃ env' j, LoopRuns p (some s.slots) env c j l env' j' ∧
    Sim p Fit anyOrigin (some s.slots) (some vars') lo' hi' env' i j

theorem NextInStep.keepsUp_running (h : NextInStep w p Fit n) (hagrees : Agrees p vars σ env) :
    KeepsUp .strict (fun _ => True)
      (SimRuns p Fit vars' lo' hi' env l c (Held mid hi' σ env sizes)) (w.slotMachine n p) (w.scopeMachine n p) := by
  rintro i s j' t ⟨hheld, env', j, hruns, hinner⟩
  obtain rfl := hheld.env
  refine (h.next_running hplaced hbelow (traced_anyOrigin w p)
    (hagrees.frame (hbelow.mono hplaced.nested.left) hheld.frame) hruns hinner).mono ?_
  rintro x s₁ y t₁ ⟨hout, hcur, hpos, hheld', j₁, t₂, -, hruns', hinner'⟩
  exact ⟨hout, hcur, hpos, Law.allows_free, hheld.trans hheld' hplaced.nested.apart .refl, env', j₁,
    hruns', hinner'⟩

/-- The focus of what a loop computes is known, or looks at the source. -/
theorem Sim.loopFocus (h : Sim p Fit gen live (some vars) lo mid env c d) (hagrees : Agrees p vars σ env) :
    FocusSim p Fit lo' σ env (l.focus c) (l.focus d) := by
  cases hplaced with
  | forEach focus => exact .fixed focus
  | step nested placed => exact .ofSim h hagrees hbelow nested.lo_le

/-- How the start of a sequence for the current item of a source ends. -/
structure Launched (p : Program) (Fit : FunctionEntry → Prop) (gen : Origin) (vars' : List Binding)
    (lo' hi' : Nat) (l : Looping) (env : Slots) (c d : Cursor) (E : Store → Store → Prop) (i : Cursor) (s : Store)
    (j' : Cursor) (t : Store) : Prop where
  stores : E s t
  inner : ∃ env' j, LoopRuns p (some s.slots) env c j l env' j' ∧ gen l.body (l.focus d) env' j 0 ∧
    Unpulled p Fit gen vars' lo' hi' env' i j

theorem ExecuteInStep.launch (h : ExecuteInStep w p Fit n) (hgen : Traced w p gen)
    (hagrees : Agrees p vars s.slots t.slots) (hcur : c.current = d.current)
    (hfocus : FocusSim p Fit lo' s.slots t.slots (l.focus c) (l.focus d)) (hsizes : SizesFor (l.focus c) sizes)
    (hsize : sizes s.groupSize t.groupSize) (hnone : l.grouped = true → t.groupSize = none)
    (hst : l.beginning? c = some st) (hst' : l.beginning? d = some st') : RelatedEval .strict
      (Launched p Fit gen vars' lo' hi' l t.slots c d (Held mid hi' s.slots t.slots sizes))
      (Held mid hi' s.slots t.slots sizes) ((w.slotMachine n p).launch st) ((w.scopeMachine n p).launch st') s t := by
  cases hplaced with
  | forEach focus name lower slot upper placed =>
    obtain ⟨item, hitem, rfl⟩ := Option.map_eq_some_iff.mp hst
    obtain ⟨_, hitem', rfl⟩ := Option.map_eq_some_iff.mp hst'
    cases hitem'.symm.trans (hcur ▸ hitem)
    unfold Calls.launch
    rw [Watches.slotMachine, Watches.scopeMachine, Watch.vars_machine, Watch.vars_machine]
    refine (h.iterate hgen name lower slot placed hagrees hbelow (.fixed focus) hsizes hsize).mono ?_ (fun _ _ h => h)
    rintro i s' j t' ⟨⟨⟨j₀, t₁, rfl, hfresh, hright⟩, hslot⟩, hheld⟩
    refine ⟨hheld, _, j₀, .forEach hitem ?_, hgen.start n _ (.fixed focus) _ j₀ t₁ hright nofun, hfresh⟩
    rintro _ ⟨⟩
    exact hslot
  | step nested placed =>
    obtain rfl := Option.some.inj hst
    obtain rfl := Option.some.inj hst'
    have hrun := h hgen placed nested.inner hagrees (hbelow.mono nested.lo_le) rfl hfocus hsizes hsize
    have hheld : ∀ {s' t' : Store}, Held lo' hi' s.slots t.slots sizes s' t' →
        Held mid hi' s.slots t.slots sizes s' t' := fun hs =>
      ⟨hs.frame.widen nested.apart .refl, hs.env, hs.sizes⟩
    refine (Related.withRight hrun).mono ?_
    rintro x s' y t' ⟨hxy, hright⟩
    cases hxy with
    | @ok i _ j _ h =>
      exact .ok ⟨hheld h.2, t.slots, j, .step, hgen.start n _ (.current d) _ j t' hright fun _ _ => hnone rfl, h.1⟩
    | error lawful hs => exact .error lawful (hheld hs)

omit hplaced hbelow in
/-- The sizes of the groups matter to what looks at the source. -/
theorem Looping.sizesFor (h : l.grouped = true → ∀ a b, sizes a b ↔ a = b) : SizesFor (l.focus c) sizes := by
  cases l with
  | forEach => exact nofun
  | step e => exact fun _ _ => ⟨fun a b => (h rfl a b).mp, fun k => (h rfl (some k) (some k)).mpr rfl⟩

theorem ExecuteInStep.begin (h : ExecuteInStep w p Fit n) (hgen : Traced w p gen)
    (hagrees : Agrees p vars s.slots t.slots) (hsource : Sim p Fit gen live (some vars) lo mid t.slots c d)
    (hst : l.beginning? c = some st) (hst' : l.beginning? d = some st') : RelatedEval .strict
      (Launched p Fit gen vars' lo' hi' l t.slots c d (Held mid hi' s.slots t.slots (UnchangedSizes s t)))
      (Held mid hi' s.slots t.slots (UnchangedSizes s t)) ((w.slotMachine n p).begin st)
      ((w.scopeMachine n p).begin st') s t := by
  refine Looping.inGroup_related (Q := fun sizes => Settled .strict
    (Launched p Fit gen vars' lo' hi' l t.slots c d (Held mid hi' s.slots t.slots sizes))
    (Held mid hi' s.slots t.slots sizes)) rfl hst hst' ⟨rfl, rfl⟩ ?_ ?_
  · intro x s' y t' g g' hxy hg
    cases hxy with
    | ok h => exact .ok ⟨⟨h.1.frame, h.1.env, hg⟩, h.2⟩
    | error lawful h => exact .error lawful ⟨h.frame, h.env, hg⟩
  · exact fun sizes g g' hg hl => h.launch (s := { s with groupSize := g }) (t := { t with groupSize := g' })
      hplaced hbelow hgen hagrees hsource.current_eq (hsource.loopFocus hplaced hbelow hagrees)
      (Looping.sizesFor fun h => (hl h).1) hg (fun h => (hl h).2) hst hst'

end

end XPath
