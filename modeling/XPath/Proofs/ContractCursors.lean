import XPath.Proofs.Contracts

/-!
# Sound cursors stay sound

One depth of pulling and copying, kind by kind: from operations that keep an accord, pulls and copies of sound
cursors are sound again, and fail only as they may.
-/

namespace XPath

variable {E : Store → Store → Prop} {pos : Nat} {U : Item → Prop} {e : ExprId} {l : Looping} {st : Beginning}
  {run : BodyRun} {fin : Bool}

section

variable {A : Accord} {m m' : Program → Calls} {q : Program} {vars : List Binding} {V : Item → Prop} {c : Cursor}

theorem Ensures.moved (hc : Sound A q vars V c) :
    Ensures E (Pure.pure (c, .ok more) : Run Pulled) (Pure.pure (c, .ok more)) (Delivered A q vars V) :=
  .pure ⟨hc, nofun⟩

theorem Ensures.refused (hc : Sound A q vars V c) {e : Error} (he : A.Err e) :
    Ensures E (Pure.pure (c, .error e) : Run Pulled) (Pure.pure (c, .error e)) (Delivered A q vars V) := by
  refine .pure ⟨hc, ?_⟩
  rintro _ ⟨⟩
  exact he

namespace Serving

variable (hm : Serving A m m')

include hm

/-! ## Pulls -/

theorem fetch (hown : A.Shares) (i : Nat) (hcache : ∀ c, cache.source = some c → c.Within A.Own) :
    A.Runs m m' q vars (fun m => m.fetch i m.fuel cache) fun r => ∀ c, r.1.source = some c → c.Within A.Own := by
  intro s t hst
  have hrel : CacheRel hm.law (fun _ => True) (A.Tracks q vars fun _ => True) (A.Beside q vars) cache s cache t := by
    refine ⟨rfl, rfl, fun _ _ => trivial, fun e _ => hown.error e, ?_⟩
    cases hs : cache.source with
    | none => exact hst
    | some c => exact ⟨⟨rfl, hown.sound (hcache c hs)⟩, hst⟩
  refine (fetch_related hm.keepsUp (fun _ _ _ _ h => h.2) (hm.fuelLe q) hrel).mono ?_
  rintro ⟨⟨source, items, error⟩, r⟩ s ⟨⟨source', items', error'⟩, r'⟩ t ⟨rfl, -, ⟨rfl, rfl, -, -, hsource⟩⟩
  match source, source', hsource with
  | none, none, hst => exact ⟨⟨rfl, nofun⟩, hst⟩
  | some c, some _, ⟨⟨rfl, hc⟩, hst⟩ =>
    refine ⟨⟨rfl, ?_⟩, hst⟩
    rintro _ ⟨⟩
    exact hc.within

theorem bufferedNext {id taken : Nat} (hid : A.Own id) (hV : ∀ i, V i) :
    A.Runs m m' q vars (·.bufferedNext id taken pos) (Delivered A q vars V) := by
  have hown := hm.own hid
  refine .get fun s t hst => ?_
  rw [← hst.1.own id hid]
  cases hcache : s.caches[id]? with
  | none => exact .moved (.buffered _ _ _ _ hid hV)
  | some cache =>
    refine .bind (hm.fetch hown taken fun c hc => hst.1.within id cache c hid hcache hc) ?_
    rintro ⟨cache, r⟩ hwithin
    refine .modify (fun _ _ hst' => ⟨hst'.1.set hid hwithin, hst'.2⟩) ?_
    match r with
    | .ok (some item) | .ok none => exact .moved (.buffered _ _ _ _ hid hV)
    | .error e => exact .refused (.buffered _ _ _ _ hid hV) (hown.error e)

theorem concatNext (hgone : ∀ c ∈ gone, Sound A q vars V c) (hrest : ∀ c ∈ rest, Sound A q vars V c) :
    A.Runs m m' q vars (·.concatNext pos gone rest) (Delivered A q vars V) := by
  induction rest generalizing gone with
  | nil => exact .moved (.concat pos true hgone hrest)
  | cons c rest ih =>
    obtain ⟨hc, hrest⟩ := List.forall_mem_cons.mp hrest
    refine .bind (hm.next hc) ?_
    rintro ⟨c, r⟩ ⟨hc, herr⟩
    have hall := List.forall_mem_cons.mpr ⟨hc, hrest⟩
    match r with
    | .ok true => exact .moved (.concat _ _ hgone hall)
    | .ok false => exact ih (List.forall_mem_cons.mpr ⟨hc, hgone⟩) hrest
    | .error e => exact .pure ⟨.concat _ _ hgone hall, herr⟩

theorem selection (he : A.Scoped q vars e) (hc : Sound A q vars V c) :
    A.Evals m m' q vars (·.selection e c) fun _ => True := by
  have hfocus : (Focus.current c).Sound A q vars := ⟨V, hc⟩
  exact .of_related (fun _ _ hst => selection_related hm.keepsUp (fun _ _ _ _ h => h.2) (hm.fuelLe q)
    ((hm.execute he hfocus).related hst)) fun _ _ _ _ h => ⟨⟨h.1, trivial⟩, h.2⟩

theorem predicateNext (he : A.Scoped q vars e) (hc : Sound A q vars V c) :
    A.Runs m m' q vars (fun m => m.predicateNext q e m.fuel c inputPos fixed size pos) (Delivered A q vars V) := by
  refine hm.of_pulls fun s t hst => predicateNext_related hm.keepsUp (G := Eq) ?_ ?_ (hm.fuelLe q) rfl ⟨⟨rfl, hc⟩, hst⟩
  · rintro c s _ t fixed _ size rfl ⟨⟨rfl, hc⟩, hst⟩ - - -
    refine verdict_related rfl ⟨⟨rfl, hc⟩, hst⟩
      ((hm.selection he hc _ _ ⟨hst.1.withGroupSize size, hst.2⟩).mono ?_)
    rintro r s' _ t' ⟨⟨rfl, hr⟩, hst'⟩
    exact ⟨⟨rfl, hr.error⟩, hst'.1.groupSize, ⟨rfl, hc⟩, hst.1.outOfGroup hst'.1, hst'.2⟩
  · rintro c s _ t inputPos fixed _ size pos fin rfl ⟨⟨rfl, hc⟩, hst⟩
    exact ⟨⟨rfl, .predicate _ _ _ _ _ he hc⟩, hst⟩

omit hm in
def Started (A : Accord) (q : Program) (vars : List Binding) (V : Item → Prop) (x : Option Cursor) : Prop :=
  ∀ c, x = some c → Sound A q vars V c

theorem launch (hl : l.Kept A q vars U V) (hc : Sound A q vars U c) (hst : l.beginning? c = some st) :
    A.Evals m m' q vars (·.launch st) (Sound A q vars V) := by
  cases l with
  | forEach body b focus =>
    obtain ⟨item, hitem, rfl⟩ := Option.map_eq_some_iff.mp hst
    obtain ⟨hloop, hlast, hV, hvar⟩ := hl
    have hfocus : (Focus.fixed focus).Sound A q vars := hlast
    exact (hm.iterate hloop (hvar item (hc.current item hitem)) hfocus).mono fun _ h => h.mono hV
  | step e =>
    obtain rfl := Option.some.inj hst
    have hfocus : (Focus.current c).Sound A q vars := ⟨U, hc⟩
    exact (hm.execute hl.1 hfocus).mono fun _ h => h.mono hl.2

theorem start (hl : l.Kept A q vars U V) (hc : Sound A q vars U c) :
    EnsuresEval (A.Beside q vars) A.Err (l.start (m q) c) (l.start (m' q) c) (Started A q vars V) := by
  unfold Looping.start
  cases hst : l.beginning? c with
  | none => exact .pure nofun
  | some st =>
    have hbegin : EnsuresEval (A.Beside q vars) A.Err ((m q).begin st) ((m' q).begin st) (Sound A q vars V) :=
      Ensures.inGroup st (hm.launch hl hc hst)
    refine .bind hbegin fun value hvalue => .pure ?_
    rintro _ ⟨⟩
    exact hvalue

structure RunSound (A : Accord) (q : Program) (vars : List Binding) (V : Item → Prop) (run : BodyRun) : Prop where
  running : ∀ i k, run = .running i k → Sound A q vars V i
  failed : ∀ e, run = .failed e → A.Err e

omit hm in
theorem RunSound.idle : RunSound A q vars V .idle :=
  ⟨nofun, nofun⟩

omit hm in
theorem RunSound.ofRunning (hi : Sound A q vars V i) (k : Nat) : RunSound A q vars V (.running i k) := by
  refine ⟨?_, nofun⟩
  rintro _ _ ⟨⟩
  exact hi

theorem bodyNext {start start' : Cursor → Eval (Option Cursor)} (hstart : ∀ c, Sound A q vars U c →
      EnsuresEval (A.Beside q vars) A.Err (start c) (start' c) (Started A q vars V))
    (hwrap : ∀ c run pos fin, Sound A q vars U c → RunSound A q vars V run →
      Sound A q vars V (wrap c run pos fin)) {n : Nat} (hc : Sound A q vars U c) (hrun : RunSound A q vars V run) :
    Ensures (A.Beside q vars) ((m q).bodyNext start grouped wrap n c run pos)
      ((m' q).bodyNext start' grouped wrap n c run pos) (Delivered A q vars V) := by
  induction n generalizing c run pos with
  | zero => exact .outOfFuel
  | succ n ih =>
    match run with
    | .failed e => exact .refused (hwrap _ _ _ _ hc .idle) (hrun.failed e rfl)
    | .running inner consumed =>
      refine .bind (hm.next (hrun.running inner consumed rfl)) ?_
      rintro ⟨inner, r⟩ ⟨hinner, herr⟩
      match r with
      | .ok true => exact .moved (hwrap _ _ _ _ hc (.ofRunning hinner _))
      | .ok false => exact ih hc .idle
      | .error e => exact .pure ⟨hwrap _ _ _ _ hc .idle, herr⟩
    | .idle =>
      refine .bind (hm.next hc) ?_
      rintro ⟨c, r⟩ ⟨hc, herr⟩
      match r with
      | .ok false | .error e => exact .pure ⟨hwrap _ _ _ _ hc .idle, herr⟩
      | .ok true =>
        refine .bind (hstart c hc) ?_
        intro x hx
        match x with
        | .ok (some inner) => exact ih hc (.ofRunning (hx inner rfl) 0)
        | .ok none => exact ih hc .idle
        | .error e => exact .refused (hwrap _ _ _ _ hc .idle) hx

theorem stageNext (st : Stage) (hgives : st.Gives U V) (hc : Sound A q vars U c) :
    A.Runs m m' q vars (·.pull q (st.on c false)) (Delivered A q vars V) := by
  have hwander : ∀ (ω : Wander) {w pos}, (∀ n, V (.node n)) →
      (∀ c w cur pos fin, Sound A q vars U c → Sound A q vars V (ω.wrap c w cur pos fin)) →
      A.Runs m m' q vars (fun m => ω.next m m.fuel c w pos) (Delivered A q vars V) := by
    intro ω w pos hV hwrap
    refine hm.of_pulls fun s t hst => ω.pulls hm.keepsUp (S := fun _ => True) (fun _ _ => ⟨hV _, trivial⟩)
      (fun _ _ => trivial) trivial ?_ (hm.fuelLe q) ⟨⟨rfl, hc⟩, hst⟩ trivial
    rintro c s _ t w cur pos fin ⟨⟨rfl, hc⟩, hst⟩ - -
    exact ⟨⟨rfl, hwrap c w cur pos fin hc⟩, hst⟩
  cases st with
  | nodesOnly =>
    refine hm.of_pulls fun s t hst => nodesOnlyNext_related hm.keepsUp ?_ ⟨⟨rfl, hc.mono hgives⟩, hst⟩
    rintro c s _ t fin ⟨⟨rfl, hc⟩, hst⟩
    exact ⟨⟨rfl, .stage .nodesOnly fin (fun _ h => h) hc⟩, hst⟩
  | axis ax test walk cur pos =>
    exact hwander (.axis ax test) hgives fun _ w cur pos fin => .stage (.axis ax test w cur pos) fin hgives
  | descent tests walk cur pos =>
    exact hwander (.descent tests) hgives fun _ w cur pos fin => .stage (.descent tests w cur pos) fin hgives
  | nth k perGroup inputPos done pos =>
    refine hm.of_pulls fun s t hst => nthNext_related hm.keepsUp ?_ (hm.fuelLe q) ⟨⟨rfl, hc.mono hgives⟩, hst⟩
    rintro c s _ t inputPos done pos fin ⟨⟨rfl, hc⟩, hst⟩
    exact ⟨⟨rfl, .stage (.nth k perGroup inputPos done pos) fin (fun _ h => h) hc⟩, hst⟩
  | unsorted unique cur pos =>
    refine hm.of_pulls fun s t hst => orderedNext_related hm.keepsUp (fun _ _ _ _ h => h.2) (hm.fuelLe q) ?_
      ⟨⟨rfl, hc.mono hgives.1⟩, hst⟩
    intro all rest cur pos fin s t hall hrest hcur hst
    refine ⟨⟨rfl, .leaf (.sorted ?_)⟩, hst⟩
    rintro i (hi | hi | hi)
    · exact hall i hi
    · exact hrest i hi
    · exact hcur i hi

theorem pull (hc : Sound A q vars V c) (hbare : ∀ q σ c₀, c ≠ .scope q σ c₀) :
    A.Runs m m' q vars (·.pull q c) (Delivered A q vars V) := by
  have hpull := hc
  cases hc with
  | leaf h =>
    obtain ⟨c', more, hleaf, heq⟩ := h.pull
    dsimp only [Accord.Runs]
    rw [heq, heq]
    exact .moved (.leaf hleaf)
  | buffered taken cur pos fin own any =>
    cases fin with
    | true => exact .moved hpull
    | false => exact hm.bufferedNext own any
  | concat pos fin spent left =>
    cases fin with
    | true => exact .moved hpull
    | false => exact hm.concatNext spent left
  | stage st fin gives input =>
    cases fin with
    | true =>
      dsimp only [Accord.Runs]
      rw [st.pull_finished, st.pull_finished]
      exact .moved hpull
    | false => exact hm.stageNext st gives input
  | predicate inputPos fixed size pos fin placed input =>
    cases fin with
    | true => exact .moved hpull
    | false => exact hm.predicateNext placed input
  | @loop _ _ _ _ _ l _ pos fin kept source running failed =>
    dsimp only [Accord.Runs]
    cases fin with
    | true =>
      rw [l.pull_finished, l.pull_finished]
      exact .moved hpull
    | false =>
      rw [l.pull_on, l.pull_on, hm.fuel]
      exact hm.bodyNext (fun c hc => hm.start kept hc)
        (fun c run pos fin hc hrun => .loop pos fin kept hc hrun.running hrun.failed) source ⟨running, failed⟩
  | scope provides inner => exact absurd rfl (hbare _ _ _)

/-! ## Copies -/

theorem cloneAll (hcs : ∀ c ∈ cs, Sound A q vars V c) :
    A.Runs m m' q vars (·.cloneAll cs) fun ds => ∀ d ∈ ds, Portable A V d := by
  induction cs with
  | nil => exact .pure nofun
  | cons c cs ih =>
    obtain ⟨hc, hcs⟩ := List.forall_mem_cons.mp hcs
    refine .bind (hm.clone hc) ?_
    intro d hd
    refine .bind (ih hcs) ?_
    intro ds hds
    exact .pure (List.forall_mem_cons.mpr ⟨hd, hds⟩)

theorem replay (hvalue : EnsuresEval (A.Beside q vars) A.Err value value' (Sound A q vars V)) :
    Ensures (A.Beside q vars) ((m q).replay consumed value) ((m' q).replay consumed value')
      (RunSound A q vars V) := by
  intro s t hst
  refine (replay_related hm.keepsUp (fun _ _ _ _ h => h.2) (hvalue.related hst)).mono ?_
  intro run s run' t h
  match run, run', h with
  | .running i _, .running _ _, ⟨rfl, rfl, ⟨rfl, hi⟩, hst⟩ => exact ⟨⟨rfl, .ofRunning hi _⟩, hst⟩
  | .failed e, .failed _, ⟨rfl, he, hst⟩ =>
    refine ⟨⟨rfl, nofun, ?_⟩, hst⟩
    rintro _ ⟨⟩
    exact he

theorem copy_loop (hl : l.Kept A q vars U V) (hc : Sound A q vars U c) (hrun : RunSound A q vars V run) :
    A.Runs m m' q vars (·.copy q (l.on c run pos fin)) (Portable A V) := by
  dsimp only [Accord.Runs]
  rw [l.copy_on, l.copy_on]
  refine .get fun s t hst => .bind (hm.clone hc) ?_
  intro d hd
  have hscope : ∀ {run σ}, RunSound A q vars V run → A.Provides q vars σ →
      Portable A V (.scope q σ (l.on d run pos fin)) := fun hrun hσ _ _ =>
    .scope hσ (.loop pos fin hl (hd q vars) hrun.running hrun.failed)
  rw [← hst.1.slots]
  match run with
  | .idle => exact .pure (hscope .idle hst.2)
  | .failed e => exact .pure (hscope hrun hst.2)
  | .running i k =>
    unfold Looping.again
    cases hbegun : l.beginning? d with
    | none => exact .pure (hscope .idle hst.2)
    | some st =>
      refine .bind (Ensures.onSlots hst.2 (.inGroup st (hm.replay (hm.launch hl (hd q vars) hbegun)))) ?_
      rintro ⟨run, σ⟩ ⟨hrun', hσ⟩
      exact .pure (hscope hrun' hσ)

theorem copy (hc : Sound A q vars V c) (hbare : ∀ q σ c₀, c ≠ .scope q σ c₀) :
    A.Runs m m' q vars (·.copy q c) (Portable A V) := by
  cases hc with
  | leaf h =>
    dsimp only [Accord.Runs]
    rw [h.copy, h.copy]
    exact .pure fun _ _ => .leaf h
  | buffered taken cur pos fin own any => exact .pure fun _ _ => .buffered taken cur pos fin own any
  | concat pos fin spent left =>
    refine .bind (hm.cloneAll spent) ?_
    intro gone hgone
    refine .bind (hm.cloneAll left) ?_
    intro rest hrest
    exact .pure fun q vars => .concat pos fin (fun c hc => hgone c hc q vars) fun c hc => hrest c hc q vars
  | stage st fin gives input =>
    dsimp only [Accord.Runs]
    rw [st.copy_on, st.copy_on]
    refine .bind (hm.clone input) ?_
    intro d hd
    exact .pure fun q vars => .stage st fin gives (hd q vars)
  | predicate inputPos fixed size pos fin placed input =>
    refine .get fun s t hst => .bind (hm.clone input) ?_
    intro d hd
    rw [← hst.1.slots]
    exact .pure fun _ _ => .scope hst.2 (.predicate inputPos fixed size pos fin placed (hd q vars))
  | loop pos fin kept source running failed => exact hm.copy_loop kept source ⟨running, failed⟩
  | scope provides inner => exact absurd rfl (hbare _ _ _)

end Serving

end

end XPath
