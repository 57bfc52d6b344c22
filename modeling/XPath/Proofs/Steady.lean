import XPath.Proofs.Alike

/-!
# Machines are steady

`Steady` collects what a comparison of two runs rests on, and the main result `steady` says that pulls,
copies and executions of what is alike end alike. The comparison is between two depths: either equal ones,
or the right one so much larger that everything the left run does can be done there.
-/

namespace XPath

open Option

variable {σ τ : Slots} {s' t' : Store} {e e' : ExprId} {l l' : Looping} {st st' : Beginning}
  {size : Option Nat} {fixed fixed' : Option Selection} {pos : Nat} {run run' : BodyRun} {f : FunctionEntry}

/-- A record is kept along the runs of a machine up to a depth. -/
structure Recorded (C : Terms) (keeper : Program → Variables) (rec : Record) (n : Nat) : Prop where
  start : ∀ m ≤ n, ∀ env st s c s', (∀ σ, env = some σ → s.slots = σ) →
    (machineWith keeper m C.left).begin st s = some (.ok c, s') → rec env st c 0
  next : ∀ m ≤ n, ∀ env st c k s c' s', (∀ σ, env = some σ → s.slots = σ) → rec env st c k →
    (machineWith keeper m C.left).next c s = some ((c', .ok true), s') → rec env st c' (k + 1)
  loose : ¬ C.strict → rec = noRecord

theorem recorded_noRecord (C : Terms) (keeper : Program → Variables) : Recorded C keeper noRecord n :=
  ⟨fun _ _ _ _ _ _ _ _ _ => trivial, fun _ _ _ _ _ _ _ _ _ _ _ _ => trivial, fun _ => rfl⟩

theorem Recorded.pred {rec : Record} {n : Nat} (h : Recorded C keeper rec (n + 1)) : Recorded C keeper rec n :=
  ⟨fun m hm => h.start m (Nat.le_succ_of_le hm), fun m hm => h.next m (Nat.le_succ_of_le hm), h.loose⟩

/-- What an expression that is free of the focus consists of. -/
structure Terms.Focusless (C : Terms) : Prop where
  own : ∀ e, C.free e → C.left.form? e ≠ some .contextItem ∧ C.left.form? e ≠ some .root
  path : ∀ e plan, C.free e → C.left.form? e = some (.path plan) →
    ∃ x, plan.start = .expr x ∧ C.free x
  filter : ∀ e steps c, C.free e → C.left.form? e = some (.filter steps) →
    (C.left.children e)[0]? = some c → C.free c
  call : ∀ e name f, C.free e → C.left.form? e = some (.call name (some f)) →
    ∀ site, (f.body site).IgnoresFocus
  child : ∀ e form, C.free e → C.left.form? e = some form → (∀ plan, form ≠ .path plan) →
    (∀ steps, form ≠ .filter steps) → ∀ c ∈ C.left.children e, C.free c

theorem Terms.focusless_of_not {C : Terms} (h : ∀ e, ¬ C.free e) : C.Focusless := by
  constructor
  all_goals
    intro e
    intros
    exact absurd ‹C.free e› (h e)

/-- A function that does at least as much under a larger bound, and keeps to the terms. -/
structure Terms.Admits (C : Terms) (lax : Prop) (f : FunctionEntry) : Prop where
  sound : ∀ site, (f.body site).Sound C.Ok
  grows : ∀ settings arity n n', FuelLe lax n n' →
    (f.body ⟨settings, arity, n⟩).Extends lax (f.body ⟨settings, arity, n'⟩)
  reply : C.strict → ∀ site, (f.body site).KeepsReply []

/-- At one depth nothing has to grow. -/
theorem Terms.Admits.level {C : Terms} (sound : ∀ site, (f.body site).Sound C.Ok)
    (loose : ¬ C.strict) : C.Admits False f := by
  refine ⟨sound, ?_, fun h => absurd h loose⟩
  rintro settings arity n n' (rfl | ⟨hlax, -⟩)
  · exact .refl False _
  · exact hlax.elim

theorem Terms.Admits.deeper {C : Terms} (sound : ∀ site, (f.body site).Sound C.Ok)
    (grows : ∀ settings arity n n', n ≤ n' →
      (f.body ⟨settings, arity, n⟩).Extends True (f.body ⟨settings, arity, n'⟩))
    (reply : C.strict → ∀ site, (f.body site).KeepsReply []) : C.Admits True f := by
  refine ⟨sound, ?_, reply⟩
  rintro settings arity n n' (rfl | ⟨-, hn⟩)
  · exact .refl True _
  · exact grows settings arity n n' hn

section

variable (C : Terms) (lax : Prop) (keeper : Program → Variables)

def NextSteady (n n' : Nat) : Prop :=
  ∀ {rec : Record} {env : Envs} {sizes : Option Nat → Option Nat → Prop},
    Recorded C keeper rec n → env.isSome = C.pinned →
    KeepsUp (.free lax) C.Ok (Along C rec env sizes) (machineWith keeper n C.left)
      (machineWith keeper n' C.right)

def Copies (c d : Cursor) : Prop :=
  ∀ env, env.isSome = C.pinned → Alike C noRecord env c d

def CloneSteady (n n' : Nat) : Prop :=
  ∀ {env : Envs} {sizes : Option Nat → Option Nat → Prop} {c d : Cursor} {s t : Store},
    env.isSome = C.pinned → Alike C noRecord env c d → Abreast C env sizes s t →
    Related lax (Made (Copies C) (Abreast C env sizes)) ((machineWith keeper n C.left).clone c s)
      ((machineWith keeper n' C.right).clone d t)

def ExecuteSteady (n n' : Nat) : Prop :=
  ∀ {rec : Record} {env : Envs} {S : Option Nat → Option Nat → Prop} {e e' : ExprId}
    {f f' : Focus}, Recorded C keeper rec n → env.isSome = C.pinned → env.Level C → C.twin e e' →
    FociFor C S env e f f' →
    Executes (.free lax) (Alike C rec env) (Abreast C env S) (machineWith keeper n C.left)
      (machineWith keeper n' C.right) f f' e e'

abbrev MakesAlike (rec : Record) (env : Envs) (sizes : Option Nat → Option Nat → Prop) :
    Eval Cursor → Eval Cursor → Store → Store → Prop :=
  RelatedEval (.free lax) (Made (Alike C rec env) (Abreast C env sizes)) (Abreast C env sizes)

def Store.Fixes (s : Store) (env : Option Slots) : Prop :=
  ∀ σ, env = some σ → s.slots = σ

/-- What is kept of the selections of predicates stays right. Where one side keeps a selection and the
other does not, the other makes the same selection again, and its own evaluation changes nothing.
Predicates are evaluated one level below the pull that asks for them. -/
structure Terms.Keeping (deep : Nat → Nat → Prop) : Prop where
  start : ∀ env e e', C.twin e e' → C.keeps env e e' none none
  same : ∀ env e e' a b, C.keeps env e e' (some a) (some b) → a = b
  learn : ∀ n n' env e e' c s sel s', deep (n + 1) (n' + 1) → env.isSome = C.pinned →
    C.twin e e' → s.Fixes env →
    (machineWith keeper n C.left).selection e c s = some (.ok sel, s') →
    C.keeps env e e' (C.left.kept e sel) (C.right.kept e' sel)
  left : ∀ n n' env e e' sel c s, deep (n + 1) (n' + 1) → C.keeps env e e' none (some sel) →
    s.Fixes env → lax ∧ ∀ r s', (machineWith keeper n C.left).selection e c s = some (r, s') →
      r = .ok sel ∧ s'.slots = s.slots ∧ s'.groupSize = s.groupSize ∧
        C.keeps env e e' (C.left.kept e sel) (some sel)
  right : ∀ n n' env e e' sel d t, deep (n + 1) (n' + 1) → C.twin e e' →
    C.keeps env e e' (some sel) none → (∀ σ, env = some σ → C.level σ t.slots) →
    ∃ t', (machineWith keeper n' C.right).selection e' d t = some (.ok sel, t') ∧
      t'.slots = t.slots ∧ t'.groupSize = t.groupSize ∧
        C.keeps env e e' (some sel) (C.right.kept e' sel)

/-- Within one program the same is kept on both sides. -/
theorem Terms.keeping_alone {Ok : Item → Prop} {free : ExprId → Prop} {pinned : Bool}
    {strict : Prop} {pair : (Option Nat → Option Nat → Prop) → Option Slots → Focus → Focus → Prop}
    (deep : Nat → Nat → Prop) : (Terms.alone p Ok free pinned strict pair).Keeping lax keeper deep where
  start := fun _ _ _ _ => rfl
  same := fun _ _ _ _ _ h => some.inj h
  learn := by
    rintro n n' env e _ c s sel s' - - rfl - -
    rfl
  left := nofun
  right := nofun

/-- Looking up a variable gives the same on both sides, and so does computing the body of a loop for an item. -/
structure Terms.KeptBy : Prop where
  lookup : ∀ {env : Envs} {sizes : Option Nat → Option Nat → Prop} {s t : Store}
    (name : ExpandedName) (b b' : Option Binding), (C.pinned = false → b = b') → env.isSome = C.pinned →
    env.Level C → Abreast C env sizes s t →
    RelatedEval (.free lax) (fun x s y t => x = y ∧ (∀ i ∈ x, C.Ok i) ∧ Abreast C env sizes s t)
      (Abreast C env sizes) ((keeper C.left).lookup name b) ((keeper C.right).lookup name b') s t
  iterate : ∀ {rec : Record} {env : Envs} {sizes : Option Nat → Option Nat → Prop}
    {b b' : Binding} {item : Item} {body : ExprId} {f f' : Focus} {run run' : Focus → Eval Cursor}
    {s t : Store}, env.isSome = C.pinned → env.Level C → C.binds b b' → C.Ok item →
    FociFor C sizes env body f f' →
    (∀ {env' : Envs} {g g' : Focus}, env'.isSome = C.pinned → env'.Level C →
      FociFor C sizes env' body g g' → ∀ s t, Abreast C env' sizes s t →
        MakesAlike C lax rec env' sizes (run g) (run' g') s t) →
    Abreast C env sizes s t →
    MakesAlike C lax rec env sizes
      ((keeper C.left).iterate b item f run) ((keeper C.right).iterate b' item f' run') s t

structure Steady (deep : Nat → Nat → Prop) : Prop where
  pred : ∀ n n', deep (n + 1) (n' + 1) → deep n n'
  fuelLe : ∀ n n', deep n n' → FuelLe lax n n'
  atomics : ∀ a, C.Ok (.atomic a)
  docWise : DocWise C.Ok
  parallel : C.Parallel
  keeping : C.Keeping lax keeper deep
  calls : ∀ e name f, C.left.form? e = some (.call name (some f)) → C.Admits lax f
  focusless : C.Focusless
  pairs : ∀ n n' sizes (env : Envs) f f', deep n n' → env.isSome = C.pinned → env.Level C →
    C.pair sizes env.left f f' → SameFocus (.free lax) C.Ok (Abreast C env sizes)
      (machineWith keeper n C.left) (machineWith keeper n' C.right) f f'
  kept : C.KeptBy lax keeper

structure SteadyAt (deep : Nat → Nat → Prop) (n n' : Nat) : Prop where
  terms : Steady C lax keeper deep
  depths : deep n n'
  next : NextSteady C lax keeper n n'
  clone : CloneSteady C lax keeper n n'
  execute : ExecuteSteady C lax keeper n n'

end

section

variable {C : Terms} {lax : Prop} {keeper : Program → Variables} {deep : Nat → Nat → Prop} {n n' : Nat}
  {rec : Record} {env : Envs} {sizes : Option Nat → Option Nat → Prop} {s t : Store} {c d : Cursor}

theorem Steady.machines (h : Steady C lax keeper deep) (hn : deep n n') :
    FuelLe lax (machineWith keeper n C.left).fuel (machineWith keeper n' C.right).fuel := by
  rw [fuel_machineWith, fuel_machineWith]
  rcases h.fuelLe n n' hn with h | ⟨hl, h⟩
  · exact .inl (by omega)
  · exact .inr ⟨hl, by omega⟩

section

variable (h : Abreast C env sizes s t)

include h

theorem Abreast.fixesLeft : s.Fixes env.left := by
  intro σ hσ
  obtain ⟨⟨_, τ⟩, henv, rfl⟩ := map_eq_some_iff.mp hσ
  exact (h.pinned _ τ henv).1

theorem Abreast.levelRight (hlevel : env.Level C) : ∀ σ, env.left = some σ → C.level σ t.slots := by
  intro σ hσ
  obtain ⟨⟨_, τ⟩, henv, rfl⟩ := map_eq_some_iff.mp hσ
  rw [(h.pinned _ τ henv).2]
  exact hlevel _ τ henv

omit h in
theorem Abreast.inEnvironment (hs : s.slots = σ) (ht : t.slots = τ) (hsound : s.slots.Sound C.Ok)
    (hsizes : sizes s.groupSize t.groupSize) : Abreast C (some (σ, τ)) sizes s t := by
  refine ⟨nofun, ?_, hsound, hsizes⟩
  rintro _ _ ⟨⟩
  exact ⟨hs, ht⟩

theorem Abreast.keep (hs : s'.slots = s.slots) (ht : t'.slots = t.slots)
    (hsizes : sizes s'.groupSize t'.groupSize) : Abreast C env sizes s' t' := by
  refine ⟨fun henv => ?_, fun σ τ henv => ?_, hs ▸ h.sound, hsizes⟩
  · rw [hs, ht, h.shared henv]
  · rw [hs, ht]
    exact h.pinned σ τ henv

theorem Abreast.withSizes (hk : sizes' k k') :
    Abreast C env sizes' { s with groupSize := k } { t with groupSize := k' } :=
  ⟨h.shared, h.pinned, h.sound, hk⟩

end

theorem Abreast.inScopes (h : Abreast C none sizes s t) (hσ : σ.Sound C.Ok) :
    Abreast C none sizes { s with slots := σ } { t with slots := σ } :=
  ⟨fun _ => rfl, nofun, hσ, h.sizes⟩

theorem Abreast.inScopeLeft (h : Abreast C (some (σ, τ)) sizes s t) (hσ' : σ'.Sound C.Ok) :
    Abreast C (some (σ', τ)) sizes { s with slots := σ' } t := by
  refine ⟨nofun, ?_, hσ', h.sizes⟩
  intro _ _ henv
  cases henv
  exact ⟨rfl, (h.pinned σ τ rfl).2⟩

theorem Abreast.inScopeRight (h : Abreast C (some (σ, τ)) sizes s t) :
    Abreast C (some (σ, τ')) sizes s { t with slots := τ' } := by
  refine ⟨nofun, ?_, h.sound, h.sizes⟩
  intro _ _ henv
  cases henv
  exact ⟨(h.pinned σ τ rfl).1, rfl⟩

theorem Abreast.outOfScope (h : Abreast C env sizes s t) (h' : Abreast C env' sizes s' t') :
    Abreast C env sizes { s' with slots := s.slots } { t' with slots := t.slots } :=
  ⟨h.shared, h.pinned, h.sound, h'.sizes⟩

structure Running (C : Terms) (rec : Record) (env : Envs)
    (sizes : Option Nat → Option Nat → Prop) (l : Looping) (c i : Cursor) (k : Nat)
    (s : Store) (d j : Cursor) (t : Store) : Prop where
  source : Alike C rec env c d
  origin : ∃ st, l.beginning? c = some st ∧ rec env.left st i k
  inner : Alike C rec env i j
  stores : Abreast C env sizes s t

section

variable (hs : SteadyAt C lax keeper deep n n') (hrec : Recorded C keeper rec n) (henv : env.isSome = C.pinned)
  (hlevel : env.Level C)

include hs

theorem SteadyAt.machines : FuelLe lax (machineWith keeper n C.left).fuel (machineWith keeper n' C.right).fuel :=
  hs.terms.machines hs.depths

include henv

section

include hlevel

/-! ## Foci -/

/-- Foci that show the same are so at all depths. The size of a cursor's group is counted on copies. -/
theorem Foci.same {f f' : Focus} (h : Foci C sizes env f f') :
    SameFocus (.free lax) C.Ok (Abreast C env sizes) (machineWith keeper n C.left)
      (machineWith keeper n' C.right) f f' := by
  cases h with
  | fixed sound => exact ⟨rfl, rfl, sound, fun s t hst => .same (fun _ _ => trivial) hst⟩
  | @current c d h same =>
    refine ⟨h.current_eq, h.position_eq, h.sound, ?_⟩
    intro s t hst
    refine .get ?_
    rw [← (same _ _).mp hst.sizes]
    cases hsize : s.groupSize with
    | some k => exact .pure ⟨rfl, hst⟩
    | none =>
      refine .bind (.lift (hs.clone henv h hst)) ?_
      rintro c' s' d' t' ⟨hcopies, hst'⟩
      have hcopied := hcopies env henv
      rw [← hcopied.position_eq]
      refine .bind (countGroup_related (hs.next (recorded_noRecord C keeper) henv)
        (fun _ _ _ _ h => h.2) hs.machines ⟨hcopied, hst'⟩) ?_
      rintro k s' _ t' ⟨rfl, hst'⟩
      exact .modify (.pure ⟨rfl, hst'.withSizes ((same _ _).mpr rfl)⟩)
  | pair h => exact hs.terms.pairs n n' sizes env f f' hs.depths henv hlevel h

theorem selection_steady (htwins : C.twin e e')
    (hf : FociFor C sizes env e (.current c) (.current d)) (hst : Abreast C env sizes s t) :
    RelatedEval (.free lax) (Same (Abreast C env sizes)) (Abreast C env sizes)
      ((machineWith keeper n C.left).selection e c) ((machineWith keeper n' C.right).selection e' d)
      s t :=
  selection_related (hs.next (recorded_noRecord C keeper) henv) (fun _ _ _ _ h => h.2) hs.machines
    (hs.execute (recorded_noRecord C keeper) henv hlevel htwins hf s t hst)

/-- What two predicates decide at an item, whatever they have kept. -/
theorem verdict_steady (hn : deep (n + 1) (n' + 1)) (htwins : C.twin e e')
    (hkept : C.keeps env.left e e' fixed fixed') (h : Along C rec env sizes c s d t) : Related lax
      (fun x s y t => (x.1 = y.1 ∧ ∀ e, x.1 = .error e → (Law.free lax).Err e) ∧ x.2.2 = y.2.2 ∧
        C.keeps env.left e e' x.2.1 y.2.1 ∧
        Along C rec env sizes c s d t) ((machineWith keeper n C.left).verdict C.left e c fixed size s)
      ((machineWith keeper n' C.right).verdict C.right e' d fixed' size t) := by
  obtain ⟨halike, hst⟩ := h
  match fixed, fixed' with
  | some a, some b =>
    obtain rfl := hs.terms.keeping.same _ _ _ _ _ hkept
    exact .both ⟨⟨rfl, fun _ _ => trivial⟩, rfl, hkept, halike, hst⟩
  | none, none =>
    rw [Calls.verdict_none, Calls.verdict_none]
    have hselect := selection_steady hs henv hlevel htwins
      (fun _ => .current halike.forget fun _ _ => Iff.rfl) (hst.withSizes (rfl : size = size))
    refine hselect.run.withLeft.map ?_
    rintro r s' r' t' ⟨hr, hleft⟩
    cases hr with
    | @ok sel _ _ _ h =>
      obtain ⟨rfl, hst'⟩ := h
      have hlearned := hs.terms.keeping.learn n n' env.left e e' c { s with groupSize := size } sel s' hn
        (env.isSome_left.trans henv) htwins hst.fixesLeft hleft
      exact ⟨⟨rfl, fun _ _ => trivial⟩, hst'.sizes, hlearned, halike, hst'.withSizes hst.sizes⟩
    | error lawful hst' => exact ⟨⟨rfl, fun _ _ => trivial⟩, rfl, hkept, halike, hst'.withSizes hst.sizes⟩
  | none, some sel =>
    -- Only the left side evaluates.
    obtain ⟨hlax, hleft⟩ := hs.terms.keeping.left n n' env.left e e' sel c { s with groupSize := size } hn
      hkept hst.fixesLeft
    rw [Calls.verdict_none]
    cases hrun : ((machineWith keeper n C.left).selection e c).run { s with groupSize := size } with
    | none => exact .left hlax
    | some x =>
      obtain ⟨r, s'⟩ := x
      obtain ⟨rfl, hslots, hsize, hkept'⟩ := hleft r s' hrun
      exact .both ⟨⟨rfl, fun _ _ => trivial⟩, hsize, hkept', halike, hst.keep hslots rfl hst.sizes⟩
  | some sel, none =>
    -- Only the right side evaluates.
    obtain ⟨t', hrun, hslots, hsize, hkept'⟩ := hs.terms.keeping.right n n' env.left e e' sel d
      { t with groupSize := size } hn htwins hkept (hst.levelRight hlevel)
    have hrun' : ((machineWith keeper n' C.right).selection e' d).run { t with groupSize := size } =
        some (.ok sel, t') := hrun
    rw [Calls.verdict_none, hrun']
    exact .both ⟨⟨rfl, fun _ _ => trivial⟩, hsize.symm, hkept', halike, hst.keep rfl hslots hst.sizes⟩

/-! ## Sequences that loops and steps start -/

include hrec

theorem launch_steady (hsame : C.SameLoop l l') (h : Alike C noRecord env c d) (hst : Abreast C env sizes s t)
    (hsizes : l.grouped = true → ∀ a b, sizes a b ↔ a = b) (hbegun : l.beginning? c = some st)
      (hbegun' : l'.beginning? d = some st') :
    MakesAlike C lax rec env sizes
      ((machineWith keeper n C.left).launch st) ((machineWith keeper n' C.right).launch st') s t := by
  cases hsame with
  | forEach twins binds focus =>
    obtain ⟨item, hitem, rfl⟩ := map_eq_some_iff.mp hbegun
    obtain ⟨_, hitem', rfl⟩ := map_eq_some_iff.mp hbegun'
    cases hitem'.symm.trans (h.current_eq ▸ hitem)
    unfold Calls.launch
    rw [vars_machineWith, vars_machineWith]
    refine hs.terms.kept.iterate henv hlevel binds (h.sound item hitem) ?_
      (fun henv' hlevel' hf => hs.execute hrec henv' hlevel' twins hf) hst
    intro hfree
    obtain ⟨rfl, hok⟩ := focus hfree
    exact .fixed hok
  | step twins =>
    obtain rfl := some.inj hbegun
    obtain rfl := some.inj hbegun'
    exact hs.execute hrec henv hlevel twins (fun _ => .current h (hsizes rfl)) s t hst

theorem begin_steady (hsame : C.SameLoop l l') (h : Alike C noRecord env c d) (hst : Abreast C env sizes s t)
    (hbegun : l.beginning? c = some st) (hbegun' : l'.beginning? d = some st') : MakesAlike C lax rec env sizes
      ((machineWith keeper n C.left).begin st) ((machineWith keeper n' C.right).begin st') s t := by
  refine Looping.inGroup_related (Q := fun sizes => Settled (.free lax) (Made (Alike C rec env) (Abreast C env sizes))
    (Abreast C env sizes)) hsame.grouped hbegun hbegun' hst.sizes ?_ ?_
  · intro x s' y t' g g' hxy hg
    cases hxy with
    | ok h => exact .ok ⟨h.1, h.2.withSizes hg⟩
    | error lawful h => exact .error lawful (h.withSizes hg)
  · exact fun sizes g g' hg hl => launch_steady hs hrec henv hlevel hsame h (hst.withSizes hg) (fun h => (hl h).1)
      hbegun hbegun'

/-! ## Pulls -/

theorem predicate_steady (hn : deep (n + 1) (n' + 1))
    (htwins : C.twin e e') (hkept : C.keeps env.left e e' fixed fixed')
    (h : Along C rec env sizes c s d t) : Related lax (Pulls (.free lax) C.Ok (Along C rec env sizes))
      ((machineWith keeper n C.left).predicateNext C.left e (machineWith keeper n C.left).fuel c
        inputPos fixed size pos s)
      ((machineWith keeper n' C.right).predicateNext C.right e' (machineWith keeper n' C.right).fuel d
        inputPos fixed' size pos t) := by
  refine predicateNext_related (hs.next hrec henv) ?_ ?_ (hs.machines) hkept h
  · intro c s d t fixed fixed' size hkept h _ _ _
    exact verdict_steady hs henv hlevel hn htwins hkept h
  · rintro c s d t inputPos fixed fixed' size pos fin hkept ⟨halike, hst⟩
    exact ⟨.predicate inputPos size pos fin hlevel htwins hkept halike, hst⟩

omit hlevel in
theorem Running.draws (h : Running C rec env sizes l c i k s d j t) :
    Related lax (Draws (.free lax) C.Ok (Along C rec env sizes) (Running C rec env sizes l) c d k)
      ((machineWith keeper n C.left).next i s) ((machineWith keeper n' C.right).next j t) := by
  obtain ⟨hsource, ⟨st, hst₀, horigin⟩, hinner, hst⟩ := h
  refine (Related.withLeft (hs.next hrec henv i s j t ⟨hinner, hst⟩)).mono ?_
  rintro ⟨i', r⟩ s' ⟨j', r'⟩ t' ⟨⟨hout, hcur, -, hok, hinner', hst'⟩, hleft⟩
  refine ⟨hout, hcur, hok, ?_, hsource, hst'⟩
  intro hr
  obtain rfl : r = .ok true := hr
  have horigin' := hrec.next n .refl env.left _ i k s i' s' hst.fixesLeft horigin hleft
  exact ⟨hsource, ⟨st, hst₀, horigin'⟩, hinner', hst'⟩

theorem loop_steady (hsame : C.SameLoop l l')
    (h : BodyRel (.free lax) (Along C rec env sizes) (Running C rec env sizes l) c run s d run' t) :
    Related lax (Pulls (.free lax) C.Ok (Along C rec env sizes))
      ((machineWith keeper n C.left).pull C.left (l.on c run pos false) s)
      ((machineWith keeper n' C.right).pull C.right (l'.on d run' pos false) t) := by
  rw [l.pull_on, l'.pull_on, ← hsame.grouped]
  refine bodyNext_related (hs.next hrec henv) (fun _ _ _ _ _ _ _ h => h.draws hs hrec henv) ?_
    l.wraps_on l'.wraps_on ?_ hs.machines h
  · rintro c s d t ⟨halike, hst⟩ hcur - -
    have hsome := hsame.isSome_beginning? hcur
    unfold Looping.start
    match hbegun : l.beginning? c, hbegun' : l'.beginning? d with
    | none, none => exact .pure ⟨halike, hst⟩
    | some st, none | none, some st' => rw [hbegun, hbegun'] at hsome; cases hsome
    | some st, some st' =>
      have hbegin := begin_steady hs hrec henv hlevel hsame halike.forget hst hbegun hbegun'
      refine .bind (hbegin.withLeft.mono (fun _ _ _ _ h => h) (fun _ _ hst' => ⟨halike, hst'⟩)) ?_
      rintro i s' j t' ⟨⟨hinner, hst'⟩, hleft⟩
      have horigin := hrec.start n .refl env.left _ s i s' hst.fixesLeft hleft
      exact .pure ⟨halike, ⟨st, hbegun, horigin⟩, hinner, hst'⟩
  · rintro c run s d run' t pos fin hbody hfin
    cases hbody with
    | idle h => exact ⟨.loop pos fin hlevel (.inl rfl) hsame h.1, h.2⟩
    | failed lawful h => exact ⟨.loop pos fin hlevel (.inr ⟨_, rfl⟩) hsame h.1, h.2⟩
    | running h =>
      obtain ⟨hsource, ⟨st, hbegun, horigin⟩, hinner, hst⟩ := h
      cases fin with
      | true => cases hfin rfl
      | false => exact ⟨.running pos hlevel hsame hbegun horigin hsource hinner, hst⟩

end

section

include hrec

theorem concat_steady (hgone : Matched (fun _ => Alike C rec env) gone gone')
    (hrest : Matched (fun _ => Alike C rec env) rest rest') (hst : Abreast C env sizes s t) :
    Related lax (Pulls (.free lax) C.Ok (Along C rec env sizes))
      ((machineWith keeper n C.left).concatNext pos gone rest s)
      ((machineWith keeper n' C.right).concatNext pos gone' rest' t) := by
  refine concatNext_related (L := .free lax)
    (R := fun gone rest s gone' rest' t => Matched (fun _ => Alike C rec env) gone gone' ∧
      Matched (fun _ => Alike C rec env) rest rest' ∧ Abreast C env sizes s t) ?_ ?_ ?_ ?_
    ⟨hgone, hrest, hst⟩
  · exact fun _ _ _ _ _ _ h => h.2.1.1
  · rintro spent c rest s spent' d rest' t ⟨hgone, hrest, hst⟩
    refine (hs.next hrec henv c s d t ⟨hrest.head, hst⟩).mono ?_
    rintro ⟨c, r⟩ s ⟨d, r'⟩ t ⟨hout, hcur, -, hok, halike, hst⟩
    exact ⟨hout, hcur, hok, hgone, .cons halike hrest.tail, hst⟩
  · rintro spent c rest s spent' d rest' t ⟨hgone, hrest, hst⟩
    exact ⟨.cons hrest.head hgone, hrest.tail, hst⟩
  · rintro spent rest s spent' rest' t pos fin ⟨hgone, hrest, hst⟩
    exact ⟨.concat pos fin hgone.1 hrest.1 hgone.2 hrest.2, hst⟩

theorem pull_steady (hdeep : deep (n + 1) (n' + 1))
    (hc : ∀ q σ c₀, c ≠ .scope q σ c₀) (hd : ∀ q σ d₀, d ≠ .scope q σ d₀) (h : Alike C rec env c d)
    (hst : Abreast C env sizes s t) :
    Related lax (Pulls (.free lax) C.Ok (Along C rec env sizes)) ((machineWith keeper n C.left).pull C.left c s)
      ((machineWith keeper n' C.right).pull C.right d t) := by
  have hkeeps : KeepsUp (.free lax) C.Ok (Along C rec env sizes) (machineWith keeper n C.left)
      (machineWith keeper n' C.right) := hs.next hrec henv
  -- A pull that is over at once.
  have hput : ∀ {c' d' : Cursor} {r : Except Error Bool}, Alike C rec env c' d' →
      Pulls (.free lax) C.Ok (Along C rec env sizes) (c', r) s (d', r) t := fun h' =>
    ⟨rfl, h'.current_eq, h'.position_eq, ⟨h'.sound, fun _ _ => trivial⟩, h', hst⟩
  cases h with
  | leaf h =>
    obtain ⟨c', more, hleaf, hpull⟩ := h.pull
    rw [hpull, hpull]
    exact .both (hput (.leaf hleaf))
  | concat pos fin goneLength restLength spent left =>
    cases fin with
    | true => exact .both (hput (.concat pos true goneLength restLength spent left))
    | false => exact concat_steady hs hrec henv ⟨goneLength, spent⟩ ⟨restLength, left⟩ hst
  | stage st fin sound input =>
    cases fin with
    | true =>
      rw [st.pull_finished, st.pull_finished]
      exact .both (hput (.stage st true sound input))
    | false =>
      exact st.pull_related hkeeps hs.terms.docWise hs.machines (fun _ _ _ _ h => h.2)
        (fun st _ _ _ _ fin hst h => ⟨.stage st fin hst h.1, h.2⟩) (fun _ _ _ hleaf hst => ⟨.leaf hleaf, hst⟩) sound
        ⟨input, hst⟩
  | predicate inputPos size pos fin level twins kept input =>
    cases fin with
    | true => exact .both (hput (.predicate inputPos size pos true level twins kept input))
    | false => exact predicate_steady hs hrec henv level hdeep twins kept ⟨input, hst⟩
  | @loop _ l l' _ _ _ pos fin level idle same source =>
    cases fin with
    | true =>
      rw [l.pull_finished, l'.pull_finished]
      exact .both (hput (.loop pos true level idle same source))
    | false =>
      refine loop_steady hs hrec henv level same ?_
      rcases idle with rfl | ⟨e, rfl⟩
      · exact .idle ⟨source, hst⟩
      · exact .failed trivial ⟨source, hst⟩
  | running pos level same begun origin source inner =>
    exact loop_steady hs hrec henv level same (.running ⟨source, ⟨_, begun, origin⟩, inner, hst⟩)
  | scope sound inner => exact absurd rfl (hd _ _ _)
  | scopeLeft sound inner => exact absurd rfl (hc _ _ _)
  | scopeRight inner => exact absurd rfl (hd _ _ _)

end

omit henv in
/-- Scopes are peeled off without going deeper, so the inner induction is on the cursors. -/
theorem next_steady (hn : deep (n + 1) (n' + 1)) : NextSteady C lax keeper (n + 1) (n' + 1) := by
  rintro rec env sizes hrec henv c s d t ⟨h, hst⟩
  induction h using Alike.peel generalizing s t with
  | bare h hc hd =>
    rw [next_bare _ _ _ hc, next_bare _ _ _ hd]
    exact pull_steady hs hrec.pred henv hn hc hd h hst
  | scope hσ inner ih =>
    rw [next_scope, next_scope]
    refine (ih henv _ _ (hst.inScopes hσ)).map ?_
    rintro ⟨c', r⟩ s' ⟨d', r'⟩ t' ⟨hout, hcur, hpos, hok, halike, hst'⟩
    refine ⟨hout, hcur, hpos, hok, ?_, hst.outOfScope hst'⟩
    rw [← hst'.shared rfl]
    exact .scope hst'.sound halike
  | @scopeLeft σ σ' τ c₀ d hσ' inner ih =>
    obtain ⟨-, ht⟩ := hst.pinned σ τ rfl
    rw [next_scope]
    refine (ih henv _ _ (hst.inScopeLeft hσ')).mapLeft ?_
    rintro ⟨c', r⟩ s' ⟨d', r'⟩ t' ⟨hout, hcur, hpos, hok, halike, hst'⟩
    obtain ⟨hs', ht'⟩ := hst'.pinned σ' τ rfl
    refine ⟨hout, hcur, hpos, hok, ?_, hst.keep rfl (ht'.trans ht.symm) hst'.sizes⟩
    rw [hs']
    exact .scopeLeft hσ' halike
  | @scopeRight σ τ τ' c d₀ inner ih =>
    obtain ⟨hs', -⟩ := hst.pinned σ τ rfl
    rw [next_scope]
    refine (ih henv _ _ hst.inScopeRight).mapRight ?_
    rintro ⟨c', r⟩ s'' ⟨d', r'⟩ t'' ⟨hout, hcur, hpos, hok, halike, hst'⟩
    obtain ⟨hs'', ht''⟩ := hst'.pinned σ τ' rfl
    refine ⟨hout, hcur, hpos, hok, ?_, hst.keep (hs''.trans hs'.symm) rfl hst'.sizes⟩
    rw [ht'']
    exact .scopeRight halike

end

end

end XPath
