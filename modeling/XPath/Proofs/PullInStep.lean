import XPath.Proofs.InStep

/-!
# Pulls stay in step

One depth of `NextInStep`, kind by kind. A predicate, the body of a loop and an expression step write
slots above those of the cursor they draw on, so that cursor is still live afterwards.
-/

namespace XPath

variable {pos mid lo' hi' : Nat} {e : ExprId} {c d : Cursor} {run run' : BodyRun}

section

variable {w : Watches} {p p' : Program} {Fit : FunctionEntry → Prop} {gen : Origin} {n : Nat}
  {scope : Option (List Binding)} {vars : List Binding} {lo hi : Nat} {env : Slots} {s t : Store}

/-! ## Pulling -/

section

variable (hnext : NextInStep w p Fit n)

include hnext

theorem pull_concat (hgen : Traced w p gen)
    (hambient : Ambient p p' scope lo s.slots env) (ht : t.slots = env) {gone gone' rest rest' : List Cursor}
    (hgone : gone.length = gone'.length) (hrest : rest.length = rest'.length)
    (hspent : ∀ (i : Nat) c d, gone[i]? = some c → gone'[i]? = some d →
      Sim p Fit gen none scope lo hi env c d) (hhead : ∀ c d, rest[0]? = some c → rest'[0]? = some d →
      Sim p Fit gen (some s.slots) scope lo hi env c d)
    (htail : ∀ (i : Nat) c d σ, rest[i + 1]? = some c → rest'[i + 1]? = some d →
      Sim p Fit gen (some σ) scope lo hi env c d) : Related False
      (Pulls .strict (fun _ => True) (Live p Fit gen scope lo hi env (Working lo hi env s t)))
      ((w.slotMachine n p').concatNext pos gone rest s) ((w.scopeMachine n p).concatNext pos gone' rest' t) := by
  have hkeeps : KeepsUp .strict (fun _ => True) (Live p Fit gen scope lo hi env (Working lo hi env s t))
      (w.slotMachine n p') (w.scopeMachine n p) :=
    hnext.keepsUp hgen hambient .refl .refl
  refine concatNext_related (L := .strict)
    (R := fun gone rest s' gone' rest' t' => gone.length = gone'.length ∧ rest.length = rest'.length ∧
      (∀ (i : Nat) c d, gone[i]? = some c → gone'[i]? = some d →
        Sim p Fit gen none scope lo hi env c d) ∧
      (∀ c d, rest[0]? = some c → rest'[0]? = some d →
        Sim p Fit gen (some s'.slots) scope lo hi env c d) ∧
      (∀ (i : Nat) c d σ, rest[i + 1]? = some c → rest'[i + 1]? = some d →
        Sim p Fit gen (some σ) scope lo hi env c d) ∧
      Working lo hi env s t s' t') ?_ ?_ ?_ ?_ ?_
  · rintro spent rest s' spent' rest' t' ⟨-, hlength, -⟩
    exact hlength
  · rintro spent c rest s' spent' d rest' t' ⟨hgone, hlength, hspent, hhead, htail, hheld⟩
    refine (hkeeps c s' d t' ⟨hhead c d rfl rfl, hheld⟩).mono ?_
    rintro ⟨c, r⟩ s' ⟨d, r'⟩ t' ⟨hout, hcur, -, hok, hsim, hheld⟩
    refine ⟨hout, hcur, hok, hgone, hlength, hspent, ?_, htail, hheld⟩
    rintro c' d' hc hd
    cases hc
    cases hd
    exact hsim
  · rintro spent c rest s' spent' d rest' t' ⟨hgone, hlength, hspent, hhead, htail, hheld⟩
    refine ⟨congrArg (· + 1) hgone, Nat.succ.inj hlength, ?_, ?_, ?_, hheld⟩
    · intro i c' d' hc hd
      cases i with
      | zero =>
        cases hc
        cases hd
        exact (hhead c d rfl rfl).dormant
      | succ i => exact hspent i c' d' hc hd
    · exact fun c' d' hc hd => htail 0 c' d' _ hc hd
    · exact fun i c' d' σ hc hd => htail (i + 1) c' d' σ hc hd
  · rintro spent rest s' spent' rest' t' pos fin ⟨hgone, hlength, hspent, hhead, htail, hheld⟩
    exact ⟨.concat pos hgone hlength hspent (fun c d hc hd => (hhead c d hc hd).retire fin) htail, hheld⟩
  · exact ⟨hgone, hrest, hspent, hhead, htail, .refl, ht, rfl, rfl⟩

section

variable (hexec : ExecuteInStep w p Fit n)

include hexec

section

variable (hgen : Traced w p gen)

include hgen

section

variable (hagrees : Agrees p vars s.slots env)

include hagrees

/-- A predicate writes slots above those of its input. -/
theorem pull_predicate
      (hbelow : ScopeBelow p vars lo)
    (ht : t.slots = env) (hnested : Nested lo mid lo' hi' hi) (hplaced : Placed p Fit vars lo' hi' e)
    (hinput : Sim p Fit gen (some s.slots) (some vars) lo mid env c d) {inputPos : Nat}
    {fixed : Option Selection} {size : Option Nat} : Related False
      (Pulls .strict (fun _ => True) (Live p Fit gen (some vars) lo hi env (Working lo hi env s t)))
      ((w.slotMachine n p).predicateNext p e (w.slotMachine n p).fuel c inputPos fixed size pos s)
      ((w.scopeMachine n p).predicateNext p e (w.scopeMachine n p).fuel d inputPos fixed size pos t) := by
  have hkeeps : KeepsUp .strict (fun _ => True)
      (Live p Fit gen (some vars) lo mid env (Working lo hi env s t))
      (w.slotMachine n p) (w.scopeMachine n p) :=
    hnext.keepsUp hgen (.ofScope hagrees hbelow) .refl hnested.mid_le
  refine predicateNext_related hkeeps ?_ ?_ (fuelLe_machines w n p p) rfl
    ⟨hinput, .refl, ht, rfl, rfl⟩
  · rintro c s' d t' fixed _ size rfl ⟨hsim, hheld⟩ hcur hpos -
    refine verdict_related rfl ⟨hsim, hheld⟩ ?_
    have hagrees' := hagrees.frame hbelow hheld.frame
    have htandem : Tandem .strict (fun _ _ => True) (fun _ => Unpulled p Fit anyOrigin vars lo' hi' env)
        (fun _ => Live p Fit anyOrigin (some vars) lo' hi' env (Held lo' hi' s'.slots env Eq))
        (Held lo' hi' s'.slots env Eq) (w.slotMachine n p) (w.scopeMachine n p) :=
      hnext.tandem (traced_anyOrigin w p) hagrees' (hbelow.mono hnested.lo_le) .refl
        .refl
    have hfocus := FocusSim.ofSim hsim hagrees' hbelow hnested.lo_le
    have hsizes : SizesFor (.current c) Eq := fun _ _ => ⟨fun _ _ h => h, fun _ => rfl⟩
    have hselect := selection_related (htandem.pulls e) (htandem.stores (e := e)) htandem.fuel
      ((hexec (traced_anyOrigin w p) hplaced hnested.inner hagrees' (hbelow.mono hnested.lo_le) hheld.env
        hfocus hsizes (s := { s' with groupSize := size }) (t := { t' with groupSize := size })
        rfl).mono (fun _ _ _ _ hmade => ⟨hmade.1 _, hmade.2⟩) (fun _ _ h => h))
    -- The input is below the slots that the predicate writes.
    have hback : ∀ {s₁ t₁ : Store}, Held lo' hi' s'.slots env Eq s₁ t₁ →
        Live p Fit gen (some vars) lo mid env (Working lo hi env s t) c
          { s₁ with groupSize := s'.groupSize } d { t₁ with groupSize := t'.groupSize } := by
      intro s₁ t₁ hs
      refine ⟨hsim.frame hs.frame (.inl hnested.apart), ?_, hs.env, hheld.sizes⟩
      exact hheld.frame.trans (hs.frame.widen hnested.lo_le hnested.upper)
    refine hselect.run.mono ?_
    intro r s₁ r' t₁ hr
    obtain ⟨rfl, hs, herr⟩ := hr.same
    exact ⟨⟨rfl, herr⟩, hs.sizes, hback hs⟩
  · rintro c s' d t' inputPos fixed _ size pos fin rfl ⟨hsim, hheld⟩
    exact ⟨.predicate inputPos fixed size pos hnested hplaced (hsim.retire fin), hheld⟩

/-- A source and the sequence in progress for its current item. -/
structure RunsLive (p : Program) (Fit : FunctionEntry → Prop) (gen : Origin) (vars vars' : List Binding)
    (lo mid lo' hi' : Nat) (env : Slots) (l : Looping) (E : Store → Store → Prop) (c i : Cursor) (k : Nat)
    (s : Store) (d j' : Cursor) (t : Store) : Prop where
  source : Live p Fit gen (some vars) lo mid env E c s d t
  inner : ∃ env' j, LoopRuns p (some s.slots) env c j l env' j' ∧ gen l.body (l.focus d) env' j k ∧
    Sim p Fit gen (some s.slots) (some vars') lo' hi' env' i j

theorem pull_loop (hbelow : ScopeBelow p vars lo) {l : Looping} {vars' : List Binding}
    (hplaced : LoopPlaced p Fit vars lo hi l mid lo' hi' vars') (hrun : BodyRel .strict
      (Live p Fit gen (some vars) lo mid env (Working lo hi env s t))
      (RunsLive p Fit gen vars vars' lo mid lo' hi' env l (Working lo hi env s t)) c run s d run' t) : Related False
      (Pulls .strict (fun _ => True) (Live p Fit gen (some vars) lo hi env (Working lo hi env s t)))
      ((w.slotMachine n p).pull p (l.on c run pos false) s)
      ((w.scopeMachine n p).pull p (l.on d run' pos false) t) := by
  have hnested := hplaced.nested
  rw [l.pull_on, l.pull_on]
  refine bodyNext_related (hnext.keepsUp hgen (.ofScope hagrees hbelow) .refl hnested.mid_le)
    ?_ ?_ l.wraps_on l.wraps_on ?_ (fuelLe_machines w n p p) hrun
  · rintro c i k s' d j' t' ⟨⟨hsim, hheld⟩, env', j, hruns, horigin, hinner⟩
    obtain rfl := hheld.env
    refine (hnext.next_running hplaced hbelow hgen (hagrees.frame hbelow hheld.frame) hruns hinner).mono ?_
    rintro x s₁ y t₁ ⟨hout, hcur, -, hheld', j₁, t₂, hright, hruns', hinner'⟩
    have hlive : Live p Fit gen (some vars) lo mid t'.slots (Working lo hi t'.slots s t) c s₁ d t₁ :=
      ⟨hsim.frame hheld'.frame (.inl hnested.apart), hheld.trans hheld' hnested.lo_le hnested.upper⟩
    refine ⟨hout, hcur, Law.allows_free, fun hr => ⟨hlive, env', j₁, hruns', ?_, hinner'⟩, hlive⟩
    rw [← hout, hr] at hright
    exact hgen.next n _ _ j k { t' with slots := env' } j₁ t₂ horigin hright
  · rintro c s' d t' ⟨hsim, hheld⟩ hcur - -
    obtain rfl := hheld.env
    have hsome := l.isSome_beginning? hcur
    unfold Looping.start
    match hst : l.beginning? c, hst' : l.beginning? d with
    | none, none => exact .pure ⟨hsim, hheld⟩
    | some st, some st' =>
      have hagrees' := hagrees.frame hbelow hheld.frame
      -- The source is below the slots that are written.
      have hsource : ∀ {s₁ t₁ : Store}, Held mid hi' s'.slots t'.slots (UnchangedSizes s' t') s₁ t₁ →
          Live p Fit gen (some vars) lo mid t'.slots (Working lo hi t'.slots s t) c s₁ d t₁ := fun hs =>
        ⟨hsim.frame hs.frame (.inl .refl), hheld.trans hs hnested.left hnested.upper⟩
      refine .bind ((hexec.begin hplaced hbelow hgen hagrees' hsim hst hst').mono (fun _ _ _ _ h => h)
        (fun _ _ h => hsource h)) ?_
      rintro i s₁ j' t₁ ⟨hs, env', j, hruns, horigin, hfresh⟩
      exact .pure ⟨hsource hs, env', j, hruns, horigin, hfresh _⟩
    | some st, none | none, some st' => rw [hst, hst'] at hsome; cases hsome
  · rintro c run s' d run' t' pos fin hbody hfin
    cases hbody with
    | idle h => exact ⟨.loop pos (.inl rfl) hplaced (h.1.retire fin), h.2⟩
    | failed lawful h => exact ⟨.loop pos (.inr ⟨_, rfl⟩) hplaced (h.1.retire fin), h.2⟩
    | running h =>
      obtain ⟨⟨hsim, hheld⟩, env', j, hruns, horigin, hinner⟩ := h
      cases fin with
      | true => cases hfin rfl
      | false => exact ⟨.running pos hplaced hruns horigin hsim hinner, hheld⟩

end

theorem pull_inStep
    (hambient : Ambient p p' scope lo s.slots env) (ht : t.slots = env) (hbare : ∀ q σ c₀, c ≠ .scope q σ c₀)
    (h : Sim p Fit gen (some s.slots) scope lo hi env c d) : Related False
      (Pulls .strict (fun _ => True) (Live p Fit gen scope lo hi env (Working lo hi env s t)))
      ((w.slotMachine n p').pull p' c s) ((w.scopeMachine n p).pull p d t) := by
  have hheld : Working lo hi env s t s t := ⟨.refl, ht, rfl, rfl⟩
  have hkeeps : KeepsUp .strict (fun _ => True) (Live p Fit gen scope lo hi env (Working lo hi env s t))
      (w.slotMachine n p') (w.scopeMachine n p) :=
    hnext.keepsUp hgen hambient .refl .refl
  -- A pull that is over at once.
  have hput : ∀ {c' d' : Cursor} {r : Except Error Bool},
      Sim p Fit gen (some s.slots) scope lo hi env c' d' →
      Pulls .strict (fun _ => True) (Live p Fit gen scope lo hi env (Working lo hi env s t))
        (c', r) s (d', r) t := fun hsim =>
    ⟨rfl, hsim.current_eq, hsim.position_eq, Law.allows_free, hsim, hheld⟩
  cases h with
  | leaf h =>
    obtain ⟨c', more, hleaf, hpull⟩ := h.pull
    rw [hpull, hpull]
    exact .both (hput (.leaf hleaf))
  | @concat _ _ _ _ _ fin _ _ _ _ pos goneLength restLength spent head tail =>
    cases fin with
    | true => exact .both (hput (.concat pos goneLength restLength spent head tail))
    | false => exact pull_concat hnext hgen hambient ht goneLength restLength spent head tail
  | @stage _ _ _ _ _ _ _ fin st input =>
    cases fin with
    | true =>
      rw [st.pull_finished, st.pull_finished]
      exact .both (hput (.stage st input))
    | false =>
      exact st.pull_related hkeeps (fun _ _ _ _ => trivial) (fuelLe_machines w n p p') (fun _ _ _ _ hlive => hlive.2)
        (fun st _ _ _ _ fin _ hlive => ⟨.stage st (hlive.1.retire fin), hlive.2⟩)
        (fun _ _ _ hleaf hE => ⟨.leaf hleaf, hE⟩) st.sound_true ⟨input, hheld⟩
  | @predicate _ vars _ _ _ e _ _ fin _ _ _ inputPos fixed size pos nested placed input =>
    obtain ⟨rfl, hagrees, hbelow⟩ := hambient vars rfl
    cases fin with
    | true => exact .both (hput (.predicate inputPos fixed size pos nested placed input))
    | false => exact pull_predicate hnext hexec hgen hagrees hbelow ht nested placed input
  | @loop _ vars _ _ _ l _ _ run fin _ _ _ _ pos idle placed source =>
    obtain ⟨rfl, hagrees, hbelow⟩ := hambient vars rfl
    cases fin with
    | true =>
      rw [l.pull_finished, l.pull_finished]
      exact .both (hput (.loop pos idle placed source))
    | false =>
      refine pull_loop hnext hexec hgen hagrees hbelow placed ?_
      rcases idle with rfl | ⟨e, rfl⟩
      · exact .idle ⟨source, hheld⟩
      · exact .failed trivial ⟨source, hheld⟩
  | @running _ vars _ _ _ _ _ _ _ _ _ _ _ _ _ _ _ pos placed runs origin source inner =>
    obtain ⟨rfl, hagrees, hbelow⟩ := hambient vars rfl
    exact pull_loop hnext hexec hgen hagrees hbelow placed
      (.running ⟨⟨source, hheld⟩, _, _, runs, origin, inner⟩)
  | scope agrees below inner | scopeLeft agrees below inner => exact absurd rfl (hbare _ _ _)

end

/-- Scopes are peeled off without going deeper, so the inner induction is on the cursor. -/
theorem next_inStep : NextInStep w p Fit (n + 1) := by
  intro gen p' scope lo hi env c d s t hgen hambient ht h
  induction hk : sizeOf c using Nat.strongRecOn generalizing gen p' scope lo hi env c d s t with
  | ind k ih =>
    rcases h.scopes with ⟨hc, hd⟩ | ⟨σ, env', scope', lo', hi', c₀, d₀, rfl, hd, agrees, below, inner⟩
    · rw [Watches.slotMachine, Watch.next_bare hc, Watches.scopeMachine, Watch.next_bare hd]
      exact pull_inStep hnext hexec hgen hambient ht hc h
    · have hpull := ih (sizeOf c₀) (by rw [← hk]; simp +arith) (s := { s with slots := σ })
        (t := { t with slots := env' }) hgen (.ofScope agrees below) rfl inner rfl
      rw [Watches.slotMachine, Watch.next_scope]
      rcases hd with rfl | ⟨rfl, rfl⟩
      · rw [Watches.scopeMachine, Watch.next_scope]
        refine hpull.map ?_
        rintro ⟨c', r⟩ s₁ ⟨d', r'⟩ t₁ ⟨hout, hcur, hpos, hok, hsim, hheld⟩
        refine ⟨hout, hcur, hpos, hok, ?_, .refl, ht, hheld.sizes⟩
        rw [hheld.env]
        exact .scope (agrees.frame below hheld.frame) below hsim
      · subst ht
        refine hpull.mapLeft ?_
        rintro ⟨c', r⟩ s₁ ⟨d', r'⟩ t₁ ⟨hout, hcur, hpos, hok, hsim, hheld⟩
        refine ⟨hout, hcur, hpos, hok, ?_, .refl, hheld.env, hheld.sizes⟩
        exact .scopeLeft (agrees.frame below hheld.frame) below hsim

end

end

end

end XPath
