import XPath.Proofs.Steady

/-!
# Copies and executions are steady

The rest of one depth, and the induction on the depth (`Steady.steady`).
-/

namespace XPath

open List

variable {cs ds : List Cursor} {e e' : ExprId} {l l' : Looping} {k pos : Nat} {i j : Cursor} {perGroup : Bool}
  {pulled : List Nat} {args args' : Array Cursor}
  {s' t' : Store} {f f' : Focus} {entry : FunctionEntry} {name : ExpandedName}
  {binding binding' : Option Binding}

section

variable {C : Terms} {lax : Prop} {keeper : Program → Variables} {deep : Nat → Nat → Prop} {n n' : Nat}
  {rec : Record} {env : Envs} {sizes : Option Nat → Option Nat → Prop} {s t : Store} {c d : Cursor}

/-! ## Copies -/

theorem Abreast.scope (hst : Abreast C env sizes s t) (henv : env.isSome = C.pinned) (h : Alike C noRecord env c d) :
    Copies C (.scope C.left s.slots c) (.scope C.right t.slots d) := by
  intro env' henv'
  cases hcase : env with
  | none =>
    obtain rfl : env' = none := by
      rw [← henv, hcase] at henv'
      exact Option.isNone_iff_eq_none.mp (Option.isSome_eq_false_iff.mp henv')
    rw [← hst.shared hcase]
    exact .scope hst.sound (hcase ▸ h)
  | some στ =>
    obtain ⟨⟨σ', τ'⟩, rfl⟩ : ∃ στ', env' = some στ' := by
      rw [← henv, hcase] at henv'
      exact Option.isSome_iff_exists.mp henv'
    obtain ⟨σ, τ⟩ := στ
    obtain ⟨rfl, rfl⟩ := hst.pinned σ τ hcase
    exact .scopeLeft hst.sound (.scopeRight (hcase ▸ h))

section

variable (hs : SteadyAt C lax keeper deep n n') (henv : env.isSome = C.pinned) (hlevel : env.Level C)

include hs henv

theorem cloneAll_steady (h : Matched (fun _ => Alike C noRecord env) cs ds) (hst : Abreast C env sizes s t) :
    Related lax (fun cs s ds t => Matched (fun _ => Copies C) cs ds ∧ Abreast C env sizes s t)
      ((machineWith keeper n C.left).cloneAll cs s)
      ((machineWith keeper n' C.right).cloneAll ds t) := by
  refine cloneAll_related ⟨h.1, ?_⟩ hst
  intro i c d hc hd s t hst
  exact hs.clone henv (h.2 i c d hc hd) hst

section

include hlevel

/-- What is in progress is computed again on a copy of the slots, for the current item of the copied source. -/
theorem copy_running_steady (hsame : C.SameLoop l l') (hsource : Alike C noRecord env c d)
    (hst : Abreast C env sizes s t) :
    Related lax (Made (Copies C) (Abreast C env sizes))
      ((machineWith keeper n C.left).copy C.left (l.on c (.running i k) pos false) s)
      ((machineWith keeper n' C.right).copy C.right (l'.on d (.running j k) pos false) t) := by
  rw [l.copy_on, l'.copy_on]
  refine Related.get (Related.bind (hs.clone henv hsource hst) ?_)
  rintro c s₁ d t₁ ⟨hcopies, hst₁⟩
  have hcopied := hcopies env henv
  have hsome := hsame.isSome_beginning? hcopied.current_eq
  unfold Looping.again
  match hbegun : l.beginning? c, hbegun' : l'.beginning? d with
  | none, none => exact .both ⟨hst.scope henv (.loop pos false hlevel (.inl rfl) hsame hcopied), hst₁⟩
  | some st, none | none, some st' => rw [hbegun, hbegun'] at hsome; cases hsome
  | some st, some st' =>
    refine Related.bind (Q := fun x s' y t' => Made (Copies C) (Abreast C env sizes)
      (.scope C.left x.2 (l.on c x.1 pos false)) s' (.scope C.right y.2 (l'.on d y.1 pos false)) t') ?_
      (fun _ _ _ _ h => .both h)
    dsimp only
    rw [onSlots_apply, onSlots_apply]
    refine (Looping.inGroup_related (s := { s₁ with slots := s.slots }) (t := { t₁ with slots := t.slots })
      (Q := fun sizes => Replayed (.free lax) (Along C noRecord env sizes)
        (Abreast C env sizes) k) hsame.grouped hbegun hbegun'
      hst₁.sizes ?_ ?_).map ?_
    · intro x s' y t' g g' hxy hg
      match x, y with
      | .running i k, .running j k' => exact ⟨hxy.1, hxy.2.1, hxy.2.2.1, hxy.2.2.2.withSizes hg⟩
      | .failed e, .failed e' => exact ⟨hxy.1, trivial, hxy.2.2.withSizes hg⟩
    · intro sizes g g' hg hl
      exact replay_related (hs.next (recorded_noRecord C keeper) henv) (fun _ _ _ _ h => h.2)
        (launch_steady hs (recorded_noRecord C keeper) henv hlevel hsame hcopied ((hst.outOfScope hst₁).withSizes hg)
          (fun h => (hl h).1) hbegun hbegun')
    · intro run s' run' t' hrun
      match run, run' with
      | .running i k', .running j k'' =>
        obtain ⟨rfl, rfl, hinner, hst'⟩ := hrun
        exact ⟨hst'.scope henv (.running pos hlevel hsame hbegun trivial hcopied hinner), hst₁.outOfScope hst'⟩
      | .failed e, .failed e' =>
        obtain ⟨rfl, -, hst'⟩ := hrun
        exact ⟨hst'.scope henv (.loop pos false hlevel (.inr ⟨e, rfl⟩) hsame hcopied), hst₁.outOfScope hst'⟩

end

theorem copy_steady (hc : ∀ q σ c₀, c ≠ .scope q σ c₀) (hd : ∀ q σ d₀, d ≠ .scope q σ d₀)
    (h : Alike C noRecord env c d) (hst : Abreast C env sizes s t) : Related lax (Made (Copies C) (Abreast C env sizes))
      ((machineWith keeper n C.left).copy C.left c s)
      ((machineWith keeper n' C.right).copy C.right d t) := by
  cases h with
  | leaf h =>
    rw [h.copy, h.copy]
    exact .both ⟨fun _ _ => .leaf h, hst⟩
  | concat pos fin goneLength restLength spent left =>
    refine Related.bind (cloneAll_steady hs henv ⟨goneLength, spent⟩ hst) ?_
    rintro gone s gone' t ⟨hgone, hst⟩
    refine Related.bind (cloneAll_steady hs henv ⟨restLength, left⟩ hst) ?_
    rintro rest s rest' t ⟨hrest, hst⟩
    exact .both ⟨fun env henv => .concat pos fin hgone.1 hrest.1
      (fun i c d hc hd => hgone.2 i c d hc hd env henv)
      (fun i c d hc hd => hrest.2 i c d hc hd env henv), hst⟩
  | stage st fin sound input =>
    rw [st.copy_on, st.copy_on]
    refine Related.bind (hs.clone henv input hst) ?_
    rintro c s d t ⟨hcopies, hst⟩
    exact .both ⟨fun env henv => .stage st fin sound (hcopies env henv), hst⟩
  | predicate inputPos size pos fin level twins kept input =>
    refine Related.get (Related.bind (hs.clone henv input hst) ?_)
    rintro c s' d t' ⟨hcopies, hst'⟩
    have hcopied := hcopies env henv
    exact .both ⟨hst.scope henv (.predicate inputPos size pos fin level twins kept hcopied), hst'⟩
  | @loop _ l l' _ _ _ pos fin level idle same source =>
    rw [l.copy_on, l'.copy_on]
    refine Related.get (Related.bind (hs.clone henv source hst) ?_)
    rintro c s' d t' ⟨hcopies, hst'⟩
    have hmade := hst.scope henv (.loop pos fin level idle same (hcopies env henv))
    rcases idle with rfl | ⟨e, rfl⟩ <;> exact .both ⟨hmade, hst'⟩
  | running pos level same begun origin source inner =>
    exact copy_running_steady hs henv level same source hst
  | scope sound inner => exact absurd rfl (hd _ _ _)
  | scopeLeft sound inner => exact absurd rfl (hc _ _ _)
  | scopeRight inner => exact absurd rfl (hd _ _ _)

end

theorem clone_steady (hs : SteadyAt C lax keeper deep n n') : CloneSteady C lax keeper (n + 1) (n' + 1) := by
  intro env sizes c d s t henv h hst
  induction h using Alike.peel generalizing s t with
  | bare h hc hd =>
    rw [clone_bare _ _ _ hc, clone_bare _ _ _ hd]
    exact copy_steady hs henv hc hd h hst
  | scope hσ inner ih =>
    rw [clone_scope, clone_scope]
    refine (ih henv (hst.inScopes hσ)).map ?_
    rintro c' s' d' t' ⟨hcopies, hst'⟩
    exact ⟨hcopies, hst.outOfScope hst'⟩
  | @scopeLeft σ σ' τ c₀ d hσ' inner ih =>
    rw [clone_scope]
    refine (ih henv (hst.inScopeLeft hσ')).mapLeft ?_
    rintro c' s' d' t' ⟨hcopies, hst'⟩
    obtain ⟨-, ht⟩ := hst.pinned σ τ rfl
    obtain ⟨-, ht'⟩ := hst'.pinned σ' τ rfl
    exact ⟨hcopies, hst.keep rfl (ht'.trans ht.symm) hst'.sizes⟩
  | @scopeRight σ τ τ' c d₀ inner ih =>
    rw [clone_scope]
    refine (ih henv hst.inScopeRight).mapRight ?_
    rintro c' s' d' t' ⟨hcopies, hst'⟩
    obtain ⟨hs, -⟩ := hst.pinned σ τ rfl
    obtain ⟨hs', -⟩ := hst'.pinned σ τ' rfl
    exact ⟨hcopies, hst.keep (hs'.trans hs.symm) rfl hst'.sizes⟩

/-! ## Executions -/

theorem Alike.instantiate (hstart : ∀ env e e', C.twin e e' → C.keeps env e e' none none) (hlevel : env.Level C)
    (h : Alike C rec env c d) (hstep : step.Twins C.twin step') :
    Alike C rec env (Calls.instantiate perGroup c step) (Calls.instantiate perGroup d step') := by
  cases hstep with
  | axis ax test => exact .stage (.axis ax _ .ended none 0) false ⟨trivial, nofun⟩ h
  | descent tests => exact .stage (.descent tests none none 0) false ⟨nofun, nofun⟩ h
  | position k => exact .stage (.nth k perGroup 0 false 0) false trivial h
  | predicate htwins => exact .predicate 0 none 0 false hlevel htwins (hstart _ _ _ htwins) h
  | expr nodesOnly htwins =>
    have hstep : Alike C rec env (.through _ c) (.through _ d) := .loop 0 false hlevel (.inl rfl) (.step htwins) h
    cases nodesOnly with
    | true => exact .stage .nodesOnly false trivial hstep
    | false => exact hstep

theorem Alike.chain (hstart : ∀ env e e', C.twin e e' → C.keeps env e e' none none) (hlevel : env.Level C) :
    ∀ {steps' : List Step} {c d : Cursor}, Matched (fun _ => Step.Twins C.twin) steps steps' →
      Alike C rec env c d →
      Alike C rec env (Calls.chain perGroup c steps) (Calls.chain perGroup d steps') := by
  induction steps with
  | nil =>
    intro steps' c d hsteps h
    obtain rfl : steps' = [] := eq_nil_of_length_eq_zero hsteps.1.symm
    exact h
  | cons step steps ih =>
    intro steps' c d hsteps h
    obtain ⟨step', steps', rfl⟩ : ∃ step' steps₀, steps' = step' :: steps₀ :=
      exists_cons_of_length_eq_add_one hsteps.1.symm
    have hrest : Alike C rec env (Calls.chain perGroup (Calls.instantiate perGroup c step) steps)
        (Calls.chain perGroup (Calls.instantiate perGroup d step') steps') :=
      ih hsteps.tail (h.instantiate hstart hlevel hsteps.head)
    exact hrest

theorem Alike.ofParts (h : Matched (fun _ => Alike C rec env) cs ds) : Alike C rec env (.ofParts cs) (.ofParts ds) :=
  .concat 0 false rfl h.1 nofun h.2

section

variable (hs : SteadyAt C lax keeper deep n n') (hrec : Recorded C keeper rec n) (henv : env.isSome = C.pinned)
  (hlevel : env.Level C)

include hs

include henv

section

include hrec

theorem SteadyAt.tandem : Tandem (.free lax) (fun _ => C.Ok) (fun _ => Alike C rec env) (fun _ => Along C rec env sizes)
      (Abreast C env sizes) (machineWith keeper n C.left) (machineWith keeper n' C.right) where
  fuel := hs.machines
  pulls := fun _ => hs.next hrec henv
  stores := fun _ _ _ _ h => h.2
  fresh := fun h hst => ⟨h, hst⟩

include hlevel

/-- The arguments of a call; those that have been pulled lose their record. -/
theorem arguments_steady (hf : Foci C sizes env f f') :
    Answers (.free lax) C.strict C.Ok (fun _ => True) (Alike C rec env) (Abreast C env sizes)
      (fun _ => Alike C rec env) (fun _ c _ d _ => Alike C noRecord env c d)
      (machineWith keeper n C.left) (machineWith keeper n' C.right) f f' where
  empty := fun _ {_ _} _ => .leaf .empty
  current := fun h => ⟨h.current_eq, h.sound⟩
  advance := by
    intro i c s d t hst h
    refine (hs.next (recorded_noRecord C keeper) henv c s d t ⟨h, hst⟩).mono ?_
    rintro x s' y t' ⟨hout, hcur, hpos, hok, halike, hst'⟩
    exact ⟨hout, hcur, hpos, hok, halike, hst', fun _ _ _ _ h => h⟩
  fork := by
    intro i c s d t hst h
    refine (hs.clone henv h hst).mono ?_
    rintro c s' d t' ⟨hcopies, hst'⟩
    exact ⟨fun _ => hcopies env henv, hst', fun _ _ _ _ h => h⟩
  last := by
    intro s t hst
    refine ((hf.same hs henv hlevel).last s t hst).mono ?_ fun s' t' hst' => ⟨hst', fun _ _ _ _ h => h⟩
    rintro a s' _ t' ⟨rfl, hst'⟩
    exact ⟨rfl, hst', fun _ _ _ _ h => h⟩
  reply := by
    intro i c s d t h hfresh _
    by_cases hstrict : C.strict
    · exact hfresh hstrict
    · rw [hrec.loose hstrict]
      exact h

theorem runScript_steady (hf : Foci C sizes env f f') (hentry : C.Admits lax entry)
    {args args' : List Cursor} (hargs : Matched (fun _ => Alike C rec env) args args') (hst : Abreast C env sizes s t) :
    MakesAlike C lax rec env sizes
      ((machineWith keeper n C.left).runScript f
        (entry.body ⟨settings, args.length, (machineWith keeper n C.left).fuel⟩) args.toArray)
      ((machineWith keeper n' C.right).runScript f'
        (entry.body ⟨settings, args'.length, (machineWith keeper n' C.right).fuel⟩) args'.toArray)
      s t := by
  have hsame := hf.same hs henv hlevel
  rw [← hargs.1]
  exact runScript_related (arguments_steady hs hrec henv hlevel hf) hs.machines
    (fun _ h => .plain (h.mono fun _ hi => hi.1)) hsame.item hsame.position hsame.sound
    (hentry.grows _ _ _ _ hs.machines) (hentry.sound _)
    (Script.ends_of_free (fun _ => trivial) (fun _ => trivial) _) (fun hstrict => hentry.reply hstrict _)
    (.start hst hargs fun _ _ _ h => h.forget)

theorem call_steady (htwins : C.twin e e') (hform : C.left.form? e = some (.call name (some entry)))
    (hf : FociFor C sizes env e f f') (hst : Abreast C env sizes s t) : MakesAlike C lax rec env sizes
      (do
        let args ← (machineWith keeper n C.left).executeAll f (C.left.children e)
        (machineWith keeper n C.left).runScript f
          (entry.body ⟨C.left.static.settings, args.length, (machineWith keeper n C.left).fuel⟩)
          args.toArray)
      (do
        let args ← (machineWith keeper n' C.right).executeAll f' (C.right.children e')
        (machineWith keeper n' C.right).runScript f'
          (entry.body ⟨C.right.static.settings, args.length, (machineWith keeper n' C.right).fuel⟩)
          args.toArray) s t := by
  have hchildren := hs.terms.parallel.children e e' htwins
  rw [← hs.terms.parallel.settings]
  refine .bind (executeAll_related (F := fun _ => Alike C rec env) ⟨hchildren.1, ?_⟩ hst) ?_
  · intro i c c' hc hc'
    refine hs.execute hrec henv hlevel (hchildren.2 i c c' hc hc') fun hfree => hf fun he => hfree ?_
    exact hs.terms.focusless.child e _ he hform nofun nofun c
      (mem_of_getElem? hc)
  · rintro args s args' t ⟨-, hargs, hst⟩
    have hentry := hs.terms.calls e name entry hform
    by_cases he : C.free e
    · -- A function that does not look at its focus may be given any.
      have hignores := hs.terms.focusless.call e name entry he hform
      rw [hignores _ _ f (.fixed (.single none)), hignores _ _ f' (.fixed (.single none))]
      exact runScript_steady hs hrec henv hlevel (.fixed (by rintro i ⟨⟩)) hentry hargs hst
    · exact runScript_steady hs hrec henv hlevel (hf he) hentry hargs hst

theorem path_steady (unique : Bool) (hform : C.left.form? e = some (.path plan))
    (hstart : plan.start.Alike C.twin plan'.start)
    (hsteps : Matched (fun _ => Step.Twins C.twin) plan.steps plan'.steps)
    (hflags : plan.sort = plan'.sort ∧ plan.startNodesOnly = plan'.startNodesOnly)
    (hf : FociFor C sizes env e f f') (hst : Abreast C env sizes s t) : MakesAlike C lax rec env sizes
      ((machineWith keeper n C.left).path f unique plan)
      ((machineWith keeper n' C.right).path f' unique plan') s t := by
  refine path_related (S := Alike C rec env) ?_ hs.terms.docWise ?_ hflags (fun _ h => .plain h)
    (fun _ _ h => .stage .nodesOnly false trivial h) (fun _ _ h => h.chain hs.terms.keeping.start hlevel hsteps)
    (fun _ _ h => .stage (.unsorted unique none 0) false nofun h) hst
  · intro hstart
    refine (hf fun he => ?_).same hs henv hlevel
    obtain ⟨x, hx, -⟩ := hs.terms.focusless.path e plan he hform
    exact hstart x hx
  · have hfree : ∀ x, plan.start = .expr x → C.free e → C.free x := by
      intro x hx he
      obtain ⟨y, hy, hfree⟩ := hs.terms.focusless.path e plan he hform
      cases hx.symm.trans hy
      exact hfree
    generalize plan.start = start at hstart hfree
    generalize plan'.start = start' at hstart
    cases hstart with
    | context => exact .context
    | root => exact .root
    | expr htwins => exact .expr (hs.execute hrec henv hlevel htwins fun h => hf fun he => h (hfree _ rfl he))

theorem forForm_steady (htwins : C.twin e e') (hform : C.left.form? e = some (.forEach name binding))
    (hbound : BoundAlike C.binds binding binding') (hf : ∀ c ∈ C.left.children e, FociFor C sizes env c f f')
    (hst : Abreast C env sizes s t) : MakesAlike C lax rec env sizes
      ((machineWith keeper n C.left).forForm C.left f binding (C.left.children e))
      ((machineWith keeper n' C.right).forForm C.right f' binding' (C.right.children e')) s t := by
  have hchildren := hs.terms.parallel.children e e' htwins
  refine forForm_related (S := Alike C rec env) (G := C.SameSnapshot) hbound (fun _ => trivial) hchildren.1
    (fun _ _ _ => trivial) ?_ ?_ ?_ hst
  · intro body body' s t hbody hbody' hst
    obtain ⟨hflag, hfreeFlag⟩ := hs.terms.parallel.loops e e' name binding body body' htwins hform hbody hbody'
    rw [← hflag]
    by_cases hfree : C.free body
    · rw [hfreeFlag hfree]
      exact .both ⟨fun h => absurd hfree h, hst⟩
    · have hfoci := hf body (mem_of_getElem? hbody) hfree
      refine (snapshot_related (hfoci.same hs henv hlevel) _ hst).mono ?_
      rintro x s' y t' ⟨heq, hok, -, hst'⟩
      exact ⟨fun _ => ⟨heq, hok⟩, hst'⟩
  · intro x x' hx hx'
    exact hs.execute hrec henv hlevel (hchildren.2 0 x x' hx hx') (hf x (mem_of_getElem? hx))
  · intro b b' body body' snap snap' c d _ hb hbody hbody' hsnap h
    exact .loop 0 false hlevel (.inl rfl) (.forEach (hchildren.2 1 body body' hbody hbody') hb hsnap) h

end

include hlevel in
theorem quantified_steady (htwins : C.twin e e') (hf : ∀ c ∈ C.left.children e, FociFor C sizes env c f f')
    (hbound : BoundAlike C.binds binding binding') (hst : Abreast C env sizes s t) : MakesAlike C lax rec env sizes
      ((machineWith keeper n C.left).quantifiedForm f q binding (C.left.children e))
      ((machineWith keeper n' C.right).quantifiedForm f' q binding' (C.right.children e')) s t := by
  have hrec : Recorded C keeper noRecord n := recorded_noRecord C keeper
  have hchildren := hs.terms.parallel.children e e' htwins
  refine .bind (bound_related hbound (fun _ => trivial) hst) ?_
  rintro b s b' t ⟨⟨-, -, hb⟩, hst⟩
  refine .bind (childAt_related hchildren.1 (fun _ => trivial) hst) ?_
  rintro body s body' t ⟨hbody, hbody', hst⟩
  refine .bind (childAt_related hchildren.1 (fun _ => trivial) hst) ?_
  rintro source s source' t ⟨hsource, hsource', hst⟩
  refine .bind (hs.execute hrec henv hlevel (hchildren.2 0 source source' hsource hsource')
    (hf source (mem_of_getElem? hsource)) s t hst) ?_
  rintro c s d t ⟨hcd, hst⟩
  refine .bind (deviates_related
    (V := fun c d v s w t => Alike C noRecord env v w ∧ Along C noRecord env sizes c s d t)
    hs.machines (hs.next hrec henv) (fun _ _ _ _ h => h.2) ?_ (fun _ _ _ _ _ _ h => h.2) ?_
    hs.machines ⟨hcd, hst⟩) ?_
  · rintro c d v s w t ⟨hvw, hcd, hst⟩
    refine (hs.next hrec henv v s w t ⟨hvw, hst⟩).mono ?_
    rintro x s' y t' ⟨hout, hcur, hpos, hok, halike, hst'⟩
    exact ⟨hout, hcur, hpos, Law.allows_free, halike, hcd, hst'⟩
  · rintro c s d t item ⟨hcd, hst⟩ - hitem
    rw [vars_machineWith, vars_machineWith]
    refine (hs.terms.kept.iterate henv hlevel hb hitem (hf body (mem_of_getElem? hbody))
      (fun henv' hlevel' hg => hs.execute hrec henv' hlevel' (hchildren.2 1 body body' hbody hbody') hg) hst).mono ?_
      (fun _ _ h => h)
    rintro v s' w t' ⟨hvw, hst'⟩
    exact ⟨hvw, hcd, hst'⟩
  · rintro truth s' _ t' ⟨rfl, hst'⟩
    exact .pure ⟨.plain (.item (hs.terms.atomics _)), hst'⟩

end

/-! ## One depth -/

theorem execute_steady (hs : SteadyAt C lax keeper deep n n') : ExecuteSteady C lax keeper (n + 1) (n' + 1) := by
  intro rec env sizes e e' f f' hrec' henv hlevel htwins hf s t hst
  have hrec := hrec'.pred
  change RelatedEval (.free lax) _ _ ((machineWith keeper n C.left).perform C.left e f)
    ((machineWith keeper n' C.right).perform C.right e' f') s t
  have hforms := hs.terms.parallel.form e e' htwins
  have hchildren := hs.terms.parallel.children e e' htwins
  match hform : C.left.form? e, hform' : C.right.form? e' with
  | none, some _ | some _, none =>
    rw [hform, hform'] at hforms
    exact hforms.elim
  | none, none =>
    unfold Calls.perform
    rw [hform, hform']
    exact .throw trivial hst
  | some form, some form' =>
    rw [hform, hform'] at hforms
    have hchild (hpath : ∀ plan, form ≠ .path plan) (hfilter : ∀ steps, form ≠ .filter steps) :
        ∀ c ∈ C.left.children e, FociFor C sizes env c f f' := fun c hc hfree =>
      hf fun he => hfree (hs.terms.focusless.child e form he hform hpath hfilter c hc)
    have hexecutes (hc : ∀ c ∈ C.left.children e, FociFor C sizes env c f f') :
        Matched (fun _ => Executes (.free lax) (Alike C rec env) (Abreast C env sizes)
          (machineWith keeper n C.left) (machineWith keeper n' C.right) f f') (C.left.children e)
          (C.right.children e') :=
      ⟨hchildren.1, fun i c c' hi hi' =>
        hs.execute hrec henv hlevel (hchildren.2 i c c' hi hi') (hc c (mem_of_getElem? hi))⟩
    have hown (hasks : form = .contextItem ∨ form = .root) :=
      (hf fun he => by
        obtain ⟨hitem, hroot⟩ := hs.terms.focusless.own e he
        rcases hasks with rfl | rfl
        · exact hitem hform
        · exact hroot hform).same hs henv hlevel
    have hdirect (hd : form.isDirect = true) (hsame : form' = form)
        (hc : ∀ c ∈ C.left.children e, FociFor C sizes env c f f') :=
      (hs.tandem hrec henv).perform_direct hform (hsame ▸ hform') hd hown ⟨hexecutes hc, fun _ _ _ => trivial⟩
        (fun _ h => .plain (h.mono fun i hi => Form.sound_of_gives hs.terms.atomics hs.terms.docWise
          (fun hasks => (hown hasks).sound) hd hi)) (fun _ _ _ _ _ h => h) hst
    unfold Calls.perform at hdirect ⊢
    rw [hform, hform'] at hdirect ⊢
    cases hforms with
    | direct hd =>
      refine hdirect hd rfl (hchild ?_ ?_)
      · rintro plan rfl
        cases hd
      · rintro steps rfl
        cases hd
    | «variable» name same =>
      rw [vars_machineWith, vars_machineWith]
      refine .bind (hs.terms.kept.lookup name _ _ same henv hlevel hst) ?_
      rintro items s' _ t' ⟨rfl, hok, hst'⟩
      exact .pure ⟨.plain (.items hok), hst'⟩
    | call name function =>
      refine .bind (bound_related (.refl (fun _ => rfl) function) (fun _ => trivial) hst) ?_
      rintro entry s _ t ⟨⟨rfl, -, rfl⟩, hst⟩
      exact call_steady hs hrec henv hlevel htwins hform hf hst
    | path start steps flags =>
      rw [← hs.terms.parallel.settings]
      exact path_steady hs hrec henv hlevel _ hform start steps flags hf hst
    | @filter steps steps' all =>
      refine .bind (childAt_related hchildren.1 (fun _ => trivial) hst) ?_
      rintro source s source' t ⟨hsource, hsource', hst⟩
      refine .bind (hs.execute hrec henv hlevel (hchildren.2 0 source source' hsource hsource')
        (fun hfree => hf fun he => hfree (hs.terms.focusless.filter e steps source he hform hsource)) s t
        hst) ?_
      rintro c s' d t' ⟨h, hst'⟩
      exact .pure ⟨(Alike.ofParts (.cons h .nil)).chain hs.terms.keeping.start hlevel all, hst'⟩
    | forEach var var' bound =>
      exact forForm_steady hs hrec henv hlevel htwins hform bound
        (hchild nofun nofun) hst
    | quantified q var var' bound =>
      exact quantified_steady hs henv hlevel htwins
        (hchild nofun nofun) bound hst
    | sequence =>
      have hc := hchild nofun nofun
      refine .bind (executeAll_related (hexecutes hc) hst) ?_
      rintro cs s' ds t' ⟨-, hcs, hst'⟩
      exact .pure ⟨.ofParts hcs, hst'⟩

/-- What is alike stays alike, whatever is done with it. -/
theorem Steady.steady (hs : Steady C lax keeper deep) (hn : deep n n') : SteadyAt C lax keeper deep n n' := by
  induction n generalizing n' with
  | zero =>
    cases n' with
    | zero =>
      exact ⟨hs, hn, fun _ _ _ _ _ _ _ => .neither, fun _ _ _ => .neither, fun _ _ _ _ _ _ _ _ => .neither⟩
    | succ n' =>
      have hlax := (hs.fuelLe _ _ hn).lax_of_zero
      exact ⟨hs, hn, fun _ _ _ _ _ _ _ => .left hlax, fun _ _ _ => .left hlax,
        fun _ _ _ _ _ _ _ _ => Related.left hlax⟩
  | succ n ih =>
    cases n' with
    | zero => exact (hs.fuelLe _ _ hn).not_succ_zero.elim
    | succ n' =>
      have hat := ih (hs.pred n n' hn)
      exact ⟨hs, hn, next_steady hat hn, clone_steady hat, execute_steady hat⟩

def Calls.read (m : Calls) (e : ExprId) (focus : Focus) : Eval (List Item) := do
  m.drain (← m.execute e focus)

theorem Steady.read_sound (hs : Steady C lax keeper deep) (hn : deep n n') (henv : env.isSome = C.pinned)
    (hlevel : env.Level C) (htwins : C.twin e e') (hf : FociFor C sizes env e f f') (hst : Abreast C env sizes s t) :
    RelatedEval (.free lax) (Sure (∀ i ∈ ·, C.Ok i) (Abreast C env sizes)) (Abreast C env sizes)
      ((machineWith keeper n C.left).read e f) ((machineWith keeper n' C.right).read e' f') s t := by
  have hat := hs.steady hn
  refine .bind (hat.execute (recorded_noRecord C keeper) henv hlevel htwins hf s t hst) ?_
  rintro c s d t ⟨h, hst⟩
  exact drain_related (hat.next (recorded_noRecord C keeper) henv) (fun _ _ _ _ h => h.2) hat.machines ⟨h, hst⟩

theorem Steady.read (hs : Steady C lax keeper deep) (hn : deep n n') (henv : env.isSome = C.pinned)
    (hlevel : env.Level C) (htwins : C.twin e e') (hf : FociFor C sizes env e f f')
    (hst : Abreast C env sizes s t) : RelatedEval (.free lax) (Same (Abreast C env sizes)) (Abreast C env sizes)
      ((machineWith keeper n C.left).read e f) ((machineWith keeper n' C.right).read e' f') s t := by
  refine (hs.read_sound hn henv hlevel htwins hf hst).mono ?_ fun _ _ hst => hst
  rintro items s _ t ⟨⟨rfl, -⟩, hst⟩
  exact ⟨rfl, hst⟩

end

end XPath
