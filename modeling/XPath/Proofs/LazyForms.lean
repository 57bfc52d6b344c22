import XPath.Proofs.Scripts

/-!
# Sequences computed later, side by side

Lemmas for the forms whose value is a cursor over other cursors, and for the parts of the machine that
these cursors use when they are pulled or copied.
-/

namespace XPath

variable {α β : Type} {L : Law} {Ok : Item → Prop} {F : Cursor → Cursor → Prop} {J : CursorRel}
  {E : Store → Store → Prop} {m m' : Calls} {focus focus' : Focus} {s t : Store}
  {S : Cursor → Cursor → Prop} {c d : Cursor}

/-! ## Executing the parts -/

theorem executeAll_related : ∀ {es' : List ExprId} {F : Nat → Cursor → Cursor → Prop} {s t : Store},
      Matched (fun i => Executes L (F i) E m m' focus focus') es es' → E s t →
      RelatedEval L (fun cs s ds t => cs.length = es.length ∧ Matched F cs ds ∧ E s t) E
        (m.executeAll focus es) (m'.executeAll focus' es') s t := by
  induction es with
  | nil =>
    intro es' F s t hes hE
    obtain rfl : es' = [] := List.eq_nil_of_length_eq_zero hes.1.symm
    exact .pure ⟨rfl, .nil, hE⟩
  | cons e es ih =>
    intro es' F s t hes hE
    obtain ⟨e', es', rfl⟩ : ∃ e' es₀, es' = e' :: es₀ :=
      List.exists_cons_of_length_eq_add_one hes.1.symm
    refine .bind (hes.head s t hE) ?_
    rintro c s d t ⟨hF, hE⟩
    refine .bind (ih hes.tail hE) ?_
    rintro cs s ds t ⟨hlength, hcs, hE⟩
    exact .pure ⟨congrArg (· + 1) hlength, .cons hF hcs, hE⟩

theorem snapshot_related (hfocus : SameFocus L Ok E m m' focus focus') (needSize : Bool) (hE : E s t) :
    Related L.lax (fun x s y t => x = y ∧ (∀ i, x.item = some i → Ok i) ∧ (∀ e, x.last = .error e → L.Err e) ∧ E s t)
      (m.snapshot focus needSize s) (m'.snapshot focus' needSize t) := by
  have hshot : ∀ (last : Except Error Nat) {s t : Store}, (∀ e, last = .error e → L.Err e) → E s t →
      Related L.lax
        (fun x s y t => x = y ∧ (∀ i, x.item = some i → Ok i) ∧ (∀ e, x.last = .error e → L.Err e) ∧ E s t)
        ((pure ⟨focus.item?, focus.position, last⟩ : Run Snapshot) s)
        ((pure ⟨focus'.item?, focus'.position, last⟩ : Run Snapshot) t) := by
    intro last s t hlast hE
    rw [← hfocus.item, ← hfocus.position]
    exact .both ⟨rfl, hfocus.sound, hlast, hE⟩
  cases needSize with
  | false =>
    refine hshot _ ?_ hE
    rintro e ⟨⟩
    exact L.dynamic missingContext rfl
  | true =>
    refine Related.bind (hfocus.last s t hE).run ?_
    intro r s r' t hr
    obtain ⟨rfl, hE, herr⟩ := hr.same
    exact hshot _ herr hE

/-- Paths that start alike: at the focus, or with expressions that are related. -/
inductive PathStart.Alike (R : ExprId → ExprId → Prop) : PathStart → PathStart → Prop
  | context : Alike R .context .context
  | root : Alike R .root .root
  | expr {e e' : ExprId} (h : R e e') : Alike R (.expr e) (.expr e')

theorem PathStart.Alike.refl {start : PathStart} (h : ∀ e, start = .expr e → R e e) : start.Alike R start := by
  cases start with
  | context => exact .context
  | root => exact .root
  | expr e => exact .expr (h e rfl)

/-- A path from its start, whose cursors are related by `S`. -/
theorem path_related (hfocus : (∀ e, plan.start ≠ .expr e) → SameFocus L Ok E m m' focus focus') (hdoc : DocWise Ok)
    (hstart : plan.start.Alike (Executes L S E m m' focus focus') plan'.start)
    (hflags : plan.sort = plan'.sort ∧ plan.startNodesOnly = plan'.startNodesOnly)
    (hplain : ∀ c, Plain Ok c → S c c) (hnodes : ∀ c d, S c d → S (.requireNodes c) (.requireNodes d))
    (hchain : ∀ c d, S c d →
      F (Calls.chain true c plan.steps) (Calls.chain true d plan'.steps))
    (hsort : ∀ c d, F c d → F (.inOrder unique c) (.inOrder unique d)) (hE : E s t) :
    RelatedEval L (Made F E) E (m.path focus unique plan) (m'.path focus' unique plan') s t := by
  obtain ⟨start, steps, ordered, sort, startNodesOnly⟩ := plan
  obtain ⟨start', steps', ordered', sort', startNodesOnly'⟩ := plan'
  obtain ⟨rfl, rfl⟩ := hflags
  have hfinish : ∀ {c d : Cursor} {s t : Store}, S c d → E s t →
      RelatedEval L (Made F E) E
        (pure (if sort then .inOrder unique (Calls.chain true c steps) else Calls.chain true c steps))
        (pure (if sort then .inOrder unique (Calls.chain true d steps')
          else Calls.chain true d steps')) s t := by
    intro c d s t hF hE
    cases sort with
    | true => exact .pure ⟨hsort _ _ (hchain _ _ hF), hE⟩
    | false => exact .pure ⟨hchain _ _ hF, hE⟩
  cases hstart with
  | context =>
    refine .bind ((hfocus nofun).requireItem hE) ?_
    rintro i s _ t ⟨⟨rfl, hi⟩, hE⟩
    exact hfinish (hplain _ (.item ((hfocus nofun).sound i hi))) hE
  | root =>
    refine .bind ((hfocus nofun).root hE) ?_
    rintro n s _ t ⟨⟨rfl, k, hk, rfl⟩, hE⟩
    exact hfinish (hplain _ (.item (hdoc k _ (Node.root_doc k).symm ((hfocus nofun).sound _ hk)))) hE
  | expr he =>
    refine .bind (he s t hE) ?_
    rintro c s d t ⟨hF, hE⟩
    cases startNodesOnly with
    | true => exact hfinish (hnodes _ _ hF) hE
    | false => exact hfinish hF hE

/-! ## Loops -/

/-- `G` relates the foci that the loops take along for their bodies. -/
theorem forForm_related {G : ExprId → Snapshot → Snapshot → Prop} {binding binding' : Option Binding}
    {children children' : List ExprId} (hbinding : BoundAlike B binding binding')
    (hunbound : binding = none → L.Err (unbound "for variable")) (hlength : children.length = children'.length)
    (hmissing : ∀ i, i < 2 → children[i]? = none → L.Err (unbound "operand"))
    (hfocus : ∀ body body' s t, children[1]? = some body → children'[1]? = some body' → E s t →
      Related L.lax (fun x s y t => G body x y ∧ E s t) (m.snapshot focus (p.isContextSensitive body) s)
        (m'.snapshot focus' (p'.isContextSensitive body') t))
    (hsource : ∀ e e', children[0]? = some e → children'[0]? = some e' →
      Executes L S E m m' focus focus' e e')
    (hloop : ∀ b b' body body' snap snap' c d, binding = some b → B b b' → children[1]? = some body →
      children'[1]? = some body' → G body snap snap' → S c d →
      F (.loop body b snap c) (.loop body' b' snap' d)) (hE : E s t) :
    RelatedEval L (Made F E) E (m.forForm p focus binding children)
      (m'.forForm p' focus' binding' children') s t := by
  refine .bind (bound_related hbinding hunbound hE) ?_
  rintro b s b' t ⟨⟨hb, -, hbb⟩, hE⟩
  refine .bind (childAt_related hlength (hmissing 1 (by decide)) hE) ?_
  rintro body s body' t ⟨hbody, hbody', hE⟩
  refine .bind (childAt_related hlength (hmissing 0 (by decide)) hE) ?_
  rintro source s source' t ⟨hsrc, hsrc', hE⟩
  refine .bind (hsource source source' hsrc hsrc' s t hE) ?_
  rintro c s d t ⟨hF, hE⟩
  refine .bind (.lift (hfocus body body' s t hbody hbody' hE)) ?_
  rintro snap s snap' t ⟨hsnap, hE⟩
  exact .pure ⟨hloop _ _ _ _ _ _ _ _ hb hbb hbody hbody' hsnap hF, hE⟩

/-- While a value of the body is read, `V` relates the values and keeps the sources related. -/
theorem deviates_related {V : Cursor → Cursor → CursorRel}
    {usual : Bool} (hfuel : FuelLe L.lax m.fuel m'.fuel) (hm : KeepsUp L Ok J m m')
    (hE : ∀ c s d t, J c s d t → E s t) (hvalue : ∀ c d, KeepsUp L (fun _ => True) (V c d) m m')
    (hend : ∀ c d v s w t, V c d v s w t → J c s d t)
    (hiter : ∀ c s d t item, J c s d t → c.current = some item → Ok item →
      RelatedEval L (V c d) E (m.vars.iterate binding item focus (m.execute body))
        (m'.vars.iterate binding' item focus' (m'.execute body')) s t)
    {n n' : Nat} (hn : FuelLe L.lax n n') (hJ : J c s d t) :
    RelatedEval L (Same E) E (m.deviates focus binding body usual n c)
      (m'.deviates focus' binding' body' usual n' d) s t := by
  induction hn using FuelLe.induct generalizing c d s t with
  | out => exact .outOfFuel
  | left _ _ h => exact Related.left h
  | step n n' _ _ ih =>
    refine .bind (.lift (hm c s d t hJ)) ?_
    rintro ⟨c, r⟩ s ⟨d, r'⟩ t ⟨rfl, hcur, -, hok, hJ⟩
    refine .bindSame hok.2 (hE _ _ _ _ hJ) ?_
    intro b _
    cases b with
    | false => exact .pure ⟨rfl, hE _ _ _ _ hJ⟩
    | true =>
      rw [if_pos rfl, if_pos rfl]
      rw [← hcur]
      cases hc : c.current with
      | none => exact ih hJ
      | some item =>
        refine .bind (hiter c s d t item hJ hc (hok.1 item hc)) ?_
        intro v s w t hV
        refine .bind ((firstTwo_related (hvalue c d) (hend c d) hfuel hV).mono
          (fun _ _ _ _ h => h) (hE c · d ·)) ?_
        rintro items s _ t ⟨⟨rfl, -⟩, hJ⟩
        refine .bindSame (L.allows (effectiveBoolean_dynamic items)) (hE _ _ _ _ hJ) ?_
        intro b _
        split
        · exact .pure ⟨rfl, hE _ _ _ _ hJ⟩
        · exact ih hJ

/-! ## Copies -/

theorem cloneAll_related
    (hcs : Matched (fun _ c d => ∀ s t, E s t → Related lax (Made H E) (m.clone c s) (m'.clone d t)) cs ds)
    (hE : E s t) : Related lax (fun cs s ds t => Matched (fun _ => H) cs ds ∧ E s t)
      (m.cloneAll cs s) (m'.cloneAll ds t) := by
  induction cs generalizing ds s t with
  | nil =>
    obtain rfl : ds = [] := List.eq_nil_of_length_eq_zero hcs.1.symm
    exact .both ⟨.nil, hE⟩
  | cons c cs ih =>
    obtain ⟨d, ds, rfl⟩ : ∃ d ds', ds = d :: ds' :=
      List.exists_cons_of_length_eq_add_one hcs.1.symm
    refine Related.bind (hcs.head s t hE) ?_
    rintro c s d t ⟨hH, hE⟩
    refine Related.bind (ih hcs.tail hE) ?_
    rintro cs s ds t ⟨hcs, hE⟩
    exact .both ⟨.cons hH hcs, hE⟩

/-- Sequences computed again up to one place, or failures to do so. -/
def Replayed (L : Law) (J : CursorRel) (E : Store → Store → Prop) (k : Nat) : BodyRun → Store → BodyRun → Store → Prop
  | .running i n, s, .running j n', t => n = k ∧ n' = k ∧ J i s j t
  | .failed e, s, .failed e', t => e = e' ∧ L.Err e ∧ E s t
  | _, _, _, _ => False

theorem replay_related (hm : KeepsUp L Ok J m m') (hE : ∀ c s d t, J c s d t → E s t)
    (hv : RelatedEval L J E value value' s t) :
    Related L.lax (Replayed L J E k) (m.replay k value s) (m'.replay k value' t) := by
  refine Related.bind (RelatedEval.bind hv fun _ _ _ _ hJ => skip_related hm hE hJ) ?_
  intro x s y t h
  cases h with
  | ok h => exact .both ⟨rfl, rfl, h⟩
  | error lawful h => exact .both ⟨rfl, lawful, h⟩

/-! ## Predicates -/

theorem selection_related (hm : KeepsUp L Ok J m m') (hE : ∀ c s d t, J c s d t → E s t)
    (hfuel : FuelLe L.lax m.fuel m'.fuel)
    (he : RelatedEval L J E (m.execute e (.current c)) (m'.execute e' (.current d)) s t) :
    RelatedEval L (Same E) E (m.selection e c) (m'.selection e' d) s t := by
  refine .bind he ?_
  intro v s w t hJ
  refine .bind (firstTwo_related hm hE hfuel hJ) ?_
  rintro items s _ t ⟨⟨rfl, -⟩, hE⟩
  exact .same (L.allows (Selection.ofItems_dynamic items)) hE

end XPath
