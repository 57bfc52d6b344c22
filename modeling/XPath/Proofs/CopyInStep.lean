import XPath.Proofs.InStep

/-!
# Copies stay in step

One depth of `CloneInStep`. A copy reads the variables in scope and nothing else, so it can be made of a
dormant cursor as well, and it depends on nothing around it: whatever runs expressions gets slots of its
own.
-/

namespace XPath

variable {live : Option Slots} {gone gone' rest rest' : List Cursor} {fin : Bool} {pos mid lo' hi' k : Nat}
  {i j : Cursor}

section

variable {w : Watches} {p p' : Program} {Fit : FunctionEntry → Prop} {gen : Origin} {n : Nat}
  {scope : Option (List Binding)} {vars : List Binding} {lo hi : Nat} {env : Slots} {s t : Store}
  {c d : Cursor}

theorem Still.refl : Still s t s t :=
  ⟨⟨rfl, rfl⟩, rfl, rfl⟩

theorem CloneInStep.still (h : CloneInStep w p Fit n) {s' t' : Store}
    (hambient : Ambient p p' scope lo s.slots env) (ht : t.slots = env)
    (hsim : Sim p Fit gen live scope lo hi env c d) (hstill : Still s t s' t') :
    Related False (Made (Copied p Fit) (Still s t)) ((w.slotMachine n p').clone c s')
      ((w.scopeMachine n p).clone d t') := by
  have hambient' : Ambient p p' scope lo s'.slots env := by
    rw [hstill.left.1]
    exact hambient
  refine (h hambient' (hstill.right.1.trans ht) hsim.dormant).mono ?_
  rintro c' s₁ d' t₁ ⟨hcopied, hleft, hright⟩
  exact ⟨hcopied, ⟨hleft.1.trans hstill.left.1, hleft.2.trans hstill.left.2⟩,
    hright.1.trans hstill.right.1, hright.2.trans hstill.right.2⟩

theorem copied_concat (hgone : Matched (fun _ => Copied p Fit) gone gone')
    (hrest : Matched (fun _ => Copied p Fit) rest rest') (pos : Nat) (fin : Bool) :
    Copied p Fit (.concat gone rest pos fin) (.concat gone' rest' pos fin) := by
  intro live scope lo hi env
  refine .concat pos hgone.1 hrest.1 ?_ ?_ ?_
  · exact fun i c d hc hd => hgone.2 i c d hc hd _ _ _ _ _
  · exact fun c d hc hd => hrest.2 0 c d hc hd _ _ _ _ _
  · exact fun i c d σ hc hd => hrest.2 (i + 1) c d hc hd _ _ _ _ _

section

variable (hclone : CloneInStep w p Fit n)

include hclone

/-- A copy that takes the slots along. -/
theorem CloneInStep.rescoped (hagrees : Agrees p vars s.slots env) (hbelow : ScopeBelow p vars lo)
    (ht : t.slots = env) (hinput : Sim p Fit gen live (some vars) lo mid env c d) {wrap : Cursor → Cursor}
    (hwrap : ∀ {c d}, Copied p Fit c d → ∀ live, Sim p Fit anyOrigin live (some vars) lo hi env (wrap c) (wrap d)) :
    Related False (Made (Copied p Fit) (Still s t))
      ((do return .scope p (← get).slots (wrap (← (w.slotMachine n p).clone c)) : Run Cursor) s)
      ((do return .scope p (← get).slots (wrap (← (w.scopeMachine n p).clone d)) : Run Cursor) t) := by
  refine Related.get (Related.bind (hclone.still (.ofScope hagrees hbelow) ht hinput .refl) ?_)
  rintro c s₁ d t₁ ⟨hcopied, hstill⟩
  refine .both ⟨?_, hstill⟩
  intro live scope lo hi env'
  rw [ht]
  exact .scope hagrees hbelow (hwrap hcopied _)

theorem copy_concat (hambient : Ambient p p' scope lo s.slots env) (ht : t.slots = env)
    (goneLength : gone.length = gone'.length) (restLength : rest.length = rest'.length)
    (spent : ∀ (i : Nat) c d, gone[i]? = some c → gone'[i]? = some d → Sim p Fit gen none scope lo hi env c d)
    (head : ∀ c d, rest[0]? = some c → rest'[0]? = some d → Sim p Fit gen live scope lo hi env c d)
    (tail : ∀ (i : Nat) c d σ, rest[i + 1]? = some c → rest'[i + 1]? = some d →
      Sim p Fit gen (some σ) scope lo hi env c d) :
    Related False (Made (Copied p Fit) (Still s t)) ((w.slotMachine n p').copy p' (.concat gone rest pos fin) s)
      ((w.scopeMachine n p).copy p (.concat gone' rest' pos fin) t) := by
  have hcopy : ∀ {live : Option Slots} {c d : Cursor},
      Sim p Fit gen live scope lo hi env c d → ∀ s' t', Still s t s' t' →
      Related False (Made (Copied p Fit) (Still s t)) ((w.slotMachine n p').clone c s')
        ((w.scopeMachine n p).clone d t') := fun hcd s' t' hstill =>
    hclone.still hambient ht hcd hstill
  refine Related.bind (cloneAll_related ⟨goneLength, fun i c d hc hd => hcopy (spent i c d hc hd)⟩
    .refl) ?_
  rintro gone s₁ gone' t₁ ⟨hgone, hstill⟩
  refine Related.bind (cloneAll_related (H := Copied p Fit) ⟨restLength, ?_⟩ hstill) ?_
  · intro i c d hc hd
    cases i with
    | zero => exact hcopy (head c d hc hd)
    | succ i => exact hcopy (tail i c d env hc hd)
  · rintro rest s₂ rest' t₂ ⟨hrest, hstill⟩
    exact .both ⟨copied_concat hgone hrest pos fin, hstill⟩

end

/-- What is in progress is computed again on a copy of the slots, for the current item of the copied source. -/
theorem copy_running (hnext : NextInStep w p Fit n) (hclone : CloneInStep w p Fit n)
    (hexec : ExecuteInStep w p Fit n) (hagrees : Agrees p vars s.slots env) (hbelow : ScopeBelow p vars lo)
    (ht : t.slots = env) {l : Looping} {vars' : List Binding}
    (hplaced : LoopPlaced p Fit vars lo hi l mid lo' hi' vars')
    (hsource : Sim p Fit gen live (some vars) lo mid env c d) : Related False (Made (Copied p Fit) (Still s t))
      ((w.slotMachine n p).copy p (l.on c (.running i k) pos false) s)
      ((w.scopeMachine n p).copy p (l.on d (.running j k) pos false) t) := by
  subst ht
  rw [l.copy_on, l.copy_on]
  refine Related.get (Related.bind (hclone.still (.ofScope hagrees hbelow) rfl hsource .refl) ?_)
  rintro c s₁ d t₁ ⟨hcopied, hstill⟩
  have hsim := hcopied none (some vars) lo mid t.slots
  have hsome := l.isSome_beginning? hsim.current_eq
  unfold Looping.again
  match hst : l.beginning? c, hst' : l.beginning? d with
  | none, none =>
    exact .both ⟨fun _ _ _ _ _ => .scope hagrees hbelow (.loop pos (.inl rfl) hplaced (hcopied ..)), hstill⟩
  | some st, none | none, some st' => rw [hst, hst'] at hsome; cases hsome
  | some st, some st' =>
    refine Related.bind (Q := fun x s₂ y t₂ => Made (Copied p Fit) (Still s t)
      (.scope p x.2 (l.on c x.1 pos false)) s₂ (.scope p y.2 (l.on d y.1 pos false)) t₂) ?_
      (fun _ _ _ _ h => .both h)
    dsimp only
    rw [onSlots_apply, onSlots_apply]
    refine (Looping.inGroup_related (s := { s₁ with slots := s.slots }) (t := { t₁ with slots := t.slots })
      (Q := fun sizes => Replayed .strict (SimRuns p Fit vars' lo' hi' t.slots l c (Held mid hi' s.slots t.slots sizes))
        (Held mid hi' s.slots t.slots sizes) k) rfl hst hst'
      (show UnchangedSizes s₁ t₁ _ _ from ⟨rfl, rfl⟩) ?_ ?_).map ?_
    · intro run s₂ run' t₂ g g' hrun hg
      match run, run' with
      | .running i k, .running j k' =>
        exact ⟨hrun.1, hrun.2.1, ⟨hrun.2.2.1.frame, hrun.2.2.1.env, hg⟩, hrun.2.2.2⟩
      | .failed e, .failed e' => exact ⟨hrun.1, trivial, hrun.2.2.frame, hrun.2.2.env, hg⟩
    · intro sizes g g' hg hl
      refine replay_related (hnext.keepsUp_running hplaced hbelow hagrees) (fun _ _ _ _ h => h.1) ?_
      refine (hexec.launch (s := { s₁ with slots := s.slots, groupSize := g })
        (t := { t₁ with slots := t.slots, groupSize := g' }) hplaced hbelow (traced_anyOrigin w p) hagrees
        hsim.current_eq (hsim.loopFocus hplaced hbelow hagrees) (Looping.sizesFor fun h => (hl h).1) hg
        (fun h => (hl h).2) hst hst').mono ?_ (fun _ _ h => h)
      rintro i s' j' t' ⟨hheld, env', j, hruns, -, hfresh⟩
      exact ⟨hheld, env', j, hruns, hfresh _⟩
    · -- The copies stand in scopes with the slots that are left.
      have hscope : ∀ {run run' : BodyRun} {s₂ t₂ : Store},
          Held mid hi' s.slots t.slots (UnchangedSizes s₁ t₁) s₂ t₂ →
          Sim p Fit anyOrigin (some s₂.slots) (some vars) lo hi t.slots (l.on c run pos false)
            (l.on d run' pos false) →
          Made (Copied p Fit) (Still s t) (.scope p s₂.slots (l.on c run pos false)) { s₂ with slots := s₁.slots }
            (.scope p t₂.slots (l.on d run' pos false)) { t₂ with slots := t₁.slots } := by
        intro run run' s₂ t₂ hheld hsim
        refine ⟨fun _ _ _ _ _ => ?_, ⟨hstill.left.1, hheld.sizes.1.trans hstill.left.2⟩, hstill.right.1,
          hheld.sizes.2.trans hstill.right.2⟩
        rw [hheld.env]
        exact .scope (hagrees.frame (hbelow.mono hplaced.nested.left) hheld.frame) hbelow hsim
      intro run s₂ run' t₂ hrun
      match run, run' with
      | .running i k, .running j k' =>
        obtain ⟨rfl, rfl, hheld, env', j, hruns, hinner⟩ := hrun
        exact hscope hheld (.running pos hplaced hruns trivial (hcopied ..) hinner)
      | .failed e, .failed e' =>
        obtain ⟨rfl, -, hheld⟩ := hrun
        exact hscope hheld (.loop pos (.inr ⟨e, rfl⟩) hplaced (hcopied ..))

theorem copy_inStep (hnext : NextInStep w p Fit n) (hclone : CloneInStep w p Fit n)
    (hexec : ExecuteInStep w p Fit n) (hambient : Ambient p p' scope lo s.slots env) (ht : t.slots = env)
    (hbare : ∀ q σ c₀, c ≠ .scope q σ c₀) (h : Sim p Fit gen none scope lo hi env c d) :
    Related False (Made (Copied p Fit) (Still s t)) ((w.slotMachine n p').copy p' c s)
      ((w.scopeMachine n p).copy p d t) := by
  cases h with
  | leaf h =>
    rw [h.copy, h.copy]
    exact .both ⟨fun _ _ _ _ _ => .leaf h, .refl⟩
  | concat pos goneLength restLength spent head tail =>
    exact copy_concat hclone hambient ht goneLength restLength spent head tail
  | stage st input =>
    rw [st.copy_on, st.copy_on]
    refine Related.bind (hclone.still hambient ht input .refl) ?_
    rintro c s₁ d t₁ ⟨hcopied, hstill⟩
    exact .both ⟨fun _ _ _ _ _ => .stage st (hcopied _ _ _ _ _), hstill⟩
  | @predicate _ vars _ _ _ _ _ _ _ _ _ _ inputPos fixed size pos nested placed input =>
    obtain ⟨rfl, hagrees, hbelow⟩ := hambient vars rfl
    exact hclone.rescoped hagrees hbelow ht input fun h _ =>
      .predicate inputPos fixed size pos nested placed (h ..)
  | @loop _ vars _ _ _ l _ _ _ _ _ _ _ _ pos idle placed source =>
    obtain ⟨rfl, hagrees, hbelow⟩ := hambient vars rfl
    rw [l.copy_on, l.copy_on]
    rcases idle with rfl | ⟨e, rfl⟩
    · exact hclone.rescoped hagrees hbelow ht source fun h _ => .loop pos (.inl rfl) placed (h ..)
    · exact hclone.rescoped hagrees hbelow ht source fun h _ => .loop pos (.inr ⟨e, rfl⟩) placed (h ..)
  | @running _ vars _ _ _ _ _ _ _ _ _ _ _ _ _ _ _ pos placed runs origin source inner =>
    obtain ⟨rfl, hagrees, hbelow⟩ := hambient vars rfl
    exact copy_running hnext hclone hexec hagrees hbelow ht placed source
  | scope agrees below inner | scopeLeft agrees below inner => exact absurd rfl (hbare _ _ _)

theorem clone_inStep (hnext : NextInStep w p Fit n) (hclone : CloneInStep w p Fit n)
    (hexec : ExecuteInStep w p Fit n) : CloneInStep w p Fit (n + 1) := by
  intro gen p' scope lo hi env c d s t hambient ht h
  induction hk : sizeOf c using Nat.strongRecOn generalizing gen p' scope lo hi env c d s t with
  | ind k ih =>
    rcases h.scopes with ⟨hc, hd⟩ | ⟨σ, env', scope', lo', hi', c₀, d₀, rfl, hd, agrees, below, inner⟩
    · rw [Watches.slotMachine, Watch.clone_bare hc, Watches.scopeMachine, Watch.clone_bare hd]
      exact copy_inStep hnext hclone hexec hambient ht hc h
    · have hcopy := ih (sizeOf c₀) (by rw [← hk]; simp +arith) (s := { s with slots := σ })
        (t := { t with slots := env' }) (.ofScope agrees below) rfl inner.dormant rfl
      rw [Watches.slotMachine, Watch.clone_scope]
      rcases hd with rfl | ⟨rfl, rfl⟩
      · rw [Watches.scopeMachine, Watch.clone_scope]
        refine hcopy.map ?_
        rintro c' s₁ d' t₁ ⟨hcopied, hleft, hright⟩
        exact ⟨hcopied, ⟨rfl, hleft.2⟩, rfl, hright.2⟩
      · subst ht
        refine hcopy.mapLeft ?_
        rintro c' s₁ d' t₁ ⟨hcopied, hleft, hright⟩
        exact ⟨hcopied, ⟨rfl, hleft.2⟩, hright⟩

end

end XPath
