import XPath.Proofs.DocumentOrder
import XPath.Proofs.Loops
import XPath.Proofs.Moves

/-!
# Pulling related cursors

One lemma for the pull of each kind of cursor that draws on others. `J` relates the cursors drawn on and
`K` the cursors pulled; `hK` says that the state which the pull leaves is related by `K`.
-/

namespace XPath

variable {w : Walk} {n n' pos : Nat} {c d : Cursor} {p p' : Program} {e e' : ExprId}
  {E : Store → Store → Prop} {unique : Bool} {U : Item → Prop} {inputPos : Nat} {fixed : Option Selection}
  {size : Option Nat}

/-- Whether the items are sound depends on nodes only through their documents. -/
def DocWise (Ok : Item → Prop) : Prop :=
  ∀ a b : Node, a.doc = b.doc → Ok (.node a) → Ok (.node b)

def Walk.Sound (Ok : Item → Prop) : Walk → Prop
  | ended => True
  | facing n _ => Ok (.node n)

theorem Walk.sound_of_inside (hdoc : DocWise Ok) {n : Node} (hn : Ok (.node n)) (hw : w.Inside n.doc) : w.Sound Ok := by
  cases w with
  | ended => trivial
  | facing k stride => exact hdoc n k hw.symm hn

theorem Walk.sound_next? (hdoc : DocWise Ok) {accepts : Node → Bool} {n : Node}
    (hw : w.Sound Ok) (h : w.next? accepts = some (n, w')) : Ok (.node n) ∧ w'.Sound Ok := by
  cases w with
  | ended => simp [Walk.next?, Walk.bound, Walk.seek] at h
  | facing k stride =>
    have hk : (facing k stride).Inside k.doc := rfl
    obtain ⟨hn, hw'⟩ := Walk.inside_next? hk h
    have hok : Ok (.node n) := hdoc k n hn.symm hw
    exact ⟨hok, Walk.sound_of_inside hdoc hok (hn ▸ hw')⟩

section

variable {L : Law} {Ok : Item → Prop} {J K : CursorRel} {m m' : Calls} {s t : Store}

section

variable (hm : KeepsUp L Ok J m m')

include hm

theorem nodesOnlyNext_related
    (hK : ∀ c s d t fin, J c s d t → K (.nodesOnly c fin) s (.nodesOnly d fin) t) (hJ : J c s d t) :
    Related L.lax (Pulls L Ok K) (m.nodesOnlyNext c s) (m'.nodesOnlyNext d t) := by
  refine Related.bind (hm c s d t hJ) ?_
  rintro ⟨c, r⟩ s ⟨d, r'⟩ t ⟨rfl, hcur, hpos, hok, hJ⟩
  have hdone : ∀ {r}, (∀ e, r = .error e → L.Err e) →
      Pulls L Ok K (.nodesOnly c true, r) s (.nodesOnly d true, r) t := fun herr =>
    ⟨rfl, rfl, hpos, ⟨(fun i h => nomatch h), herr⟩, hK c s d t true hJ⟩
  match r with
  | .ok true =>
    have hmove : Pulls L Ok K (.nodesOnly c false, .ok true) s (.nodesOnly d false, .ok true) t :=
      ⟨rfl, hcur, hpos, hok, hK c s d t false hJ⟩
    dsimp only at hcur ⊢
    rw [← hcur]
    match c.current with
    | some (.atomic a) => exact .both (hdone (L.allows (.format rfl _)))
    | some (.node n) | none => exact .both hmove
  | .ok false | .error e => exact .both (hdone hok.2)

omit hm in
/-- Loops over walks, of which something is known that makes the nodes they find sound. -/
theorem Wander.pulls (ω : Wander) (hm : KeepsUp L U J m m') {S : ω.W → Prop}
    (found : ∀ {w n w'}, S w → ω.step w = some (n, w') → Ok (.node n) ∧ S w')
    (started : ∀ n, U (.node n) → S (ω.start n)) (stopped : S ω.stop)
    (hK : ∀ c s d t w cur pos fin, J c s d t → S w → (∀ n, cur = some n → Ok (.node n)) →
      K (ω.wrap c w cur pos fin) s (ω.wrap d w cur pos fin) t) {w : ω.W} (hn : FuelLe L.lax n n')
    (hJ : J c s d t) (hw : S w) : Related L.lax (Pulls L Ok K) (ω.next m n c w pos s) (ω.next m' n' d w pos t) := by
  -- The cursor after a step of the loop shows the node that has been found.
  have hput : ∀ {c d s t w cur pos fin} {r : Except Error Bool}, (∀ e, r = .error e → L.Err e) → J c s d t → S w →
      (∀ n, cur = some n → Ok (.node n)) →
      Pulls L Ok K (ω.wrap c w cur pos fin, r) s (ω.wrap d w cur pos fin, r) t := by
    intro c d s t w cur pos fin r herr hJ hw hcur
    refine ⟨rfl, ω.current.trans ω.current.symm, ω.position.trans ω.position.symm, ⟨?_, herr⟩,
      hK c s d t w cur pos fin hJ hw hcur⟩
    intro i hi
    obtain ⟨n, hn, rfl⟩ := Option.map_eq_some_iff.mp (ω.current.symm.trans hi)
    exact hcur n hn
  refine ω.related ?_ ?_ hn hJ hw
  · intro c s d t w n w' pos hJ hw hstep
    obtain ⟨hok, hw'⟩ := found hw hstep
    refine hput nofun hJ hw' ?_
    rintro _ ⟨⟩
    exact hok
  · intro c s d t pos hJ
    refine (hm c s d t hJ).mono ?_
    rintro x s y t ⟨hout, hcur, -, hok, hJ⟩
    refine ⟨hout, hcur, fun n hn => ⟨hJ, started n (hok.1 _ hn)⟩, ?_⟩
    rintro r - (rfl | rfl)
    · exact hput hok.2 hJ stopped nofun
    · exact hput (L.allows (.error ω.dynamic)) hJ stopped nofun

theorem axisNext_related (hdoc : DocWise Ok) {axis : Axis} {test : NodeTest}
    (hK : ∀ c s d t walk cur pos fin, J c s d t → walk.Sound Ok →
      (∀ n, cur = some n → Ok (.node n)) →
      K (.axis axis test c walk cur pos fin) s (.axis axis test d walk cur pos fin) t) {s t : Store}
    {walk : Walk} (hn : FuelLe L.lax n n') (hJ : J c s d t) (hw : walk.Sound Ok) :
    Related L.lax (Pulls L Ok K) (m.axisNext axis test n c walk pos s)
      (m'.axisNext axis test n' d walk pos t) :=
  (Wander.axis axis test).pulls hm (Walk.sound_next? hdoc)
    (fun k hk => Walk.sound_of_inside hdoc hk (Walk.inside_start axis _ k)) trivial hK hn hJ hw

theorem descentNext_related (hdoc : DocWise Ok) {tests : List NodeTest}
    (hK : ∀ c s d t (walk : Option DescentWalk) cur pos fin, J c s d t →
      (∀ w, walk = some w → Ok (.node w.node)) → (∀ n, cur = some n → Ok (.node n)) →
      K (.descent tests c walk cur pos fin) s (.descent tests d walk cur pos fin) t)
    {walk : Option DescentWalk} (hn : FuelLe L.lax n n') (hJ : J c s d t)
    (hw : ∀ w, walk = some w → Ok (.node w.node)) : Related L.lax (Pulls L Ok K) (m.descentNext tests n c walk pos s)
      (m'.descentNext tests n' d walk pos t) := by
  refine (Wander.descent tests).pulls hm ?_ ?_ nofun hK hn hJ hw
  · intro walk k walk' hw hstep
    obtain ⟨w, hnext, ⟨⟩⟩ := Option.map_eq_some_iff.mp hstep
    obtain ⟨w₀, hw₀, hnext⟩ := Option.bind_eq_some_iff.mp hnext
    have hok : Ok (.node w.node) := hdoc _ _ (DescentWalk.next?_doc hnext).symm (hw w₀ hw₀)
    refine ⟨hok, ?_⟩
    rintro _ ⟨⟩
    exact hok
  · rintro k hk _ ⟨⟩
    exact hk

theorem nthNext_related (hK : ∀ c s d t inputPos done pos fin, J c s d t →
      K (.nth k perGroup c inputPos done pos fin) s (.nth k perGroup d inputPos done pos fin) t)
    (hn : FuelLe L.lax n n') (hJ : J c s d t) :
    Related L.lax (Pulls L Ok K) (m.nthNext k perGroup n c inputPos done pos s)
      (m'.nthNext k perGroup n' d inputPos done pos t) := by
  induction hn using FuelLe.induct generalizing c d s t inputPos done pos with
  | out => exact .neither
  | left _ _ h => exact .left h
  | step n n' _ _ ih =>
    have hdone : ∀ {c s d t inputPos done pos r}, (∀ e, r = .error e → L.Err e) → J c s d t →
        Pulls L Ok K (.nth k perGroup c inputPos done pos true, r) s
          (.nth k perGroup d inputPos done pos true, r) t := fun herr hJ =>
      ⟨rfl, rfl, rfl, ⟨(fun i h => nomatch h), herr⟩, hK _ _ _ _ _ _ _ _ hJ⟩
    unfold Calls.nthNext
    split
    · exact .both (hdone nofun hJ)
    · refine Related.bind (hm c s d t hJ) ?_
      rintro ⟨c, r⟩ s ⟨d, r'⟩ t ⟨rfl, hcur, hpos, hok, hJ⟩
      match r with
      | .ok true =>
        dsimp only at hpos ⊢
        rw [← hpos]
        split
        · exact .both ⟨rfl, hcur, rfl, hok, hK _ _ _ _ _ _ _ _ hJ⟩
        · exact ih hJ
      | .ok false | .error e => exact .both (hdone hok.2 hJ)

/-- What is kept of a selection for the items to come: all of it, unless the predicate reads the focus. -/
def Program.kept (p : Program) (e : ExprId) (sel : Selection) : Option Selection :=
  if p.isContextSensitive e then none else some sel

/-- What a predicate decides at the current item of its input: the selection that it makes there, the one
that is kept for the items to come, and the group size if it is known by then. -/
def Calls.verdict (m : Calls) (p : Program) (e : ExprId) (input : Cursor) (fixed : Option Selection)
    (size : Option Nat) : Run (Except Error Selection × Option Selection × Option Nat) :=
  match fixed with
  | some sel => return (.ok sel, fixed, size)
  | none => do
    let (r, counted) ← withGroupSize size (m.selection e input).run
    match r with
    | .error err => return (.error err, fixed, size)
    | .ok sel => return (.ok sel, p.kept e sel, counted)

omit hm in
/-- Where nothing has been kept, the predicate is evaluated. -/
theorem Calls.verdict_none (m : Calls) (p : Program) (e : ExprId) (input : Cursor) (size : Option Nat) (s : Store) :
    m.verdict p e input none size s = ((m.selection e input).run { s with groupSize := size }).map fun x =>
        match x.1 with
        | .error err => ((.error err, none, size), { x.2 with groupSize := s.groupSize })
        | .ok sel => ((.ok sel, p.kept e sel, x.2.groupSize), { x.2 with groupSize := s.groupSize }) := by
  change (withGroupSize size (m.selection e input).run s).bind _ = _
  rw [withGroupSize_apply]
  cases (m.selection e input).run { s with groupSize := size } with
  | none => rfl
  | some x =>
    obtain ⟨r, s'⟩ := x
    cases r <;> rfl

omit hm in
theorem Calls.predicateNext_succ (m : Calls) (p : Program) (e : ExprId) (fuel : Nat) (input : Cursor)
    (inputPos : Nat) (fixed : Option Selection) (size : Option Nat) (pos : Nat) :
    m.predicateNext p e (fuel + 1) input inputPos fixed size pos = do
      let (input, r) ← m.next input
      match r with
      | .ok true =>
        let here := input.position
        let pos := if here ≤ inputPos then 0 else pos
        let (r, fixed, size) ← m.verdict p e input fixed (if here ≤ inputPos then none else size)
        match r with
        | .error err => return (.predicate e input here fixed size pos true, .error err)
        | .ok sel =>
          if sel.accepts here then
            return (.predicate e input here fixed size (pos + 1) false, .ok true)
          else m.predicateNext p e fuel input here fixed size pos
      | r => return (.predicate e input inputPos fixed size pos true, r) := by
  conv => lhs; unfold Calls.predicateNext
  refine congrArg (m.next input >>= ·) (funext fun x => ?_)
  obtain ⟨input, r⟩ := x
  obtain err | _ | _ := r
  · rfl
  · rfl
  · cases fixed with
    | some sel => rfl
    | none =>
      unfold Calls.verdict
      dsimp only
      rw [bind_assoc]
      refine congrArg (withGroupSize _ _ >>= ·) (funext fun y => ?_)
      obtain ⟨r, counted⟩ := y
      cases r <;> rfl

/-- `G` relates what is kept of the decisions. The predicate's own evaluation has to leave its input
related. -/
theorem predicateNext_related {G : Option Selection → Option Selection → Prop}
    (hverdict : ∀ c s d t fixed fixed' size, G fixed fixed' → J c s d t → c.current = d.current →
      c.position = d.position → (∀ i, c.current = some i → Ok i) →
      Related L.lax (fun x s y t => (x.1 = y.1 ∧ ∀ e, x.1 = .error e → L.Err e) ∧ x.2.2 = y.2.2 ∧
          G x.2.1 y.2.1 ∧ J c s d t) (m.verdict p e c fixed size s) (m'.verdict p' e' d fixed' size t))
    (hK : ∀ c s d t inputPos fixed fixed' size pos fin, G fixed fixed' → J c s d t →
      K (.predicate e c inputPos fixed size pos fin) s (.predicate e' d inputPos fixed' size pos fin) t)
    (hn : FuelLe L.lax n n') (hG : G fixed fixed') (hJ : J c s d t) :
    Related L.lax (Pulls L Ok K) (m.predicateNext p e n c inputPos fixed size pos s)
      (m'.predicateNext p' e' n' d inputPos fixed' size pos t) := by
  induction hn using FuelLe.induct generalizing c d s t inputPos fixed fixed' size pos with
  | out => exact .neither
  | left _ _ h => exact .left h
  | step n n' _ _ ih =>
    rw [Calls.predicateNext_succ, Calls.predicateNext_succ]
    refine Related.bind (hm c s d t hJ) ?_
    rintro ⟨c, r⟩ s ⟨d, r'⟩ t ⟨rfl, hcur, hpos, hok, hJ⟩
    have hdone : ∀ {s t inputPos fixed fixed' size pos r}, (∀ e, r = .error e → L.Err e) → G fixed fixed' →
        J c s d t → Pulls L Ok K (.predicate e c inputPos fixed size pos true, r) s
          (.predicate e' d inputPos fixed' size pos true, r) t := fun herr hG hJ =>
      ⟨rfl, rfl, rfl, ⟨(fun i h => nomatch h), herr⟩, hK _ _ _ _ _ _ _ _ _ _ hG hJ⟩
    match r with
    | .ok true =>
      dsimp only at hcur hpos hJ hok ⊢
      rw [← hpos]
      refine Related.bind (hverdict c s d t fixed fixed' _ hG hJ hcur hpos hok.1) ?_
      rintro ⟨r, fixed, size⟩ s ⟨r', fixed', size'⟩ t ⟨⟨hr, herr⟩, hsize, hG, hJ⟩
      obtain rfl : r = r' := hr
      obtain rfl : size = size' := hsize
      cases r with
      | error err =>
        refine .both (hdone ?_ hG hJ)
        rintro _ ⟨⟩
        exact herr err rfl
      | ok sel =>
        dsimp only
        split
        · exact .both ⟨rfl, hcur, rfl, hok, hK _ _ _ _ _ _ _ _ _ _ hG hJ⟩
        · exact ih hG hJ
    | .ok false | .error e => exact .both (hdone hok.2 hG hJ)

omit hm in
/-- Where the same is kept on both sides, it is enough that the selections are the same. -/
theorem verdict_related
    (hflag : p.isContextSensitive e = p'.isContextSensitive e') (hJ : J c s d t) (hsel : Related L.lax
      (fun r s' r' t' => (r = r' ∧ ∀ e, r = .error e → L.Err e) ∧ s'.groupSize = t'.groupSize ∧
        J c { s' with groupSize := s.groupSize } d { t' with groupSize := t.groupSize })
      ((m.selection e c).run { s with groupSize := size })
      ((m'.selection e' d).run { t with groupSize := size })) :
    Related L.lax (fun x s y t => (x.1 = y.1 ∧ ∀ e, x.1 = .error e → L.Err e) ∧ x.2.2 = y.2.2 ∧ x.2.1 = y.2.1 ∧
        J c s d t) (m.verdict p e c fixed size s) (m'.verdict p' e' d fixed size t) := by
  cases fixed with
  | some sel => exact .both ⟨⟨rfl, nofun⟩, rfl, rfl, hJ⟩
  | none =>
    rw [Calls.verdict_none, Calls.verdict_none]
    refine hsel.map ?_
    rintro r s' _ t' ⟨⟨rfl, herr⟩, hsize, hJ⟩
    cases r with
    | error err =>
      refine ⟨⟨rfl, ?_⟩, rfl, rfl, hJ⟩
      rintro _ ⟨⟩
      exact herr err rfl
    | ok sel =>
      refine ⟨⟨rfl, nofun⟩, hsize, ?_, hJ⟩
      dsimp only [Program.kept]
      rw [hflag]

/-- A relation between sources together with the sequences in progress for their current items, of which
so many items have been read. -/
abbrev RunRel := Cursor → Cursor → Nat → Store → Cursor → Cursor → Store → Prop

/-- What is in progress for the current item of a source, on both sides: `JI` relates sources where
nothing is, `JR` sources together with the sequences. -/
inductive BodyRel (L : Law) (JI : CursorRel) (JR : RunRel) :
    Cursor → BodyRun → Store → Cursor → BodyRun → Store → Prop
  | idle {c d : Cursor} {s t : Store} (h : JI c s d t) : BodyRel L JI JR c .idle s d .idle t
  | failed {c d : Cursor} {s t : Store} {e : Error} (he : L.Err e) (h : JI c s d t) :
      BodyRel L JI JR c (.failed e) s d (.failed e) t
  | running {c d i j : Cursor} {s t : Store} {k : Nat} (h : JR c i k s d j t) :
      BodyRel L JI JR c (.running i k) s d (.running j k) t

def Started (JI : CursorRel) (JR : RunRel) (c d : Cursor) : Option Cursor → Store → Option Cursor → Store → Prop
  | some i, s, some j, t => JR c i 0 s d j t
  | none, s, none, t => JI c s d t
  | _, _, _, _ => False

/-- How a pull of the sequences in progress ends. After their last item only the sources matter. -/
structure Draws (L : Law) (Ok : Item → Prop) (JI : CursorRel) (JR : RunRel) (c d : Cursor) (k : Nat)
    (x : Pulled) (s : Store) (y : Pulled) (t : Store) : Prop where
  outcome : x.2 = y.2
  current : x.1.current = y.1.current
  allowed : L.Allows Ok x
  going : x.2 = .ok true → JR c x.1 (k + 1) s d y.1 t
  rel : JI c s d t

/-- A cursor made of a source and a sequence in progress delivers the items of the sequence. -/
def WrapsBody (wrap : Cursor → BodyRun → Nat → Bool → Cursor) : Prop :=
  ∀ c run pos fin, (wrap c run pos fin).current = run.current ∧ (wrap c run pos fin).position = pos

omit hm in
theorem bodyNext_related (hsource : KeepsUp L U JI m m') (hinner : ∀ c i k s d j t, JR c i k s d j t →
      Related L.lax (Draws L Ok JI JR c d k) (m.next i s) (m'.next j t))
    (hstart : ∀ c s d t, JI c s d t → c.current = d.current → c.position = d.position →
      (∀ i, c.current = some i → U i) →
      RelatedEval L (Started JI JR c d) (fun s t => JI c s d t) (start c) (start' d) s t)
    (hwrap : WrapsBody wrap) (hwrap' : WrapsBody wrap')
    (hK : ∀ c run s d run' t pos fin, BodyRel L JI JR c run s d run' t → (fin = true → run = .idle) →
      K (wrap c run pos fin) s (wrap' d run' pos fin) t)
    (hn : FuelLe L.lax n n') (hJ : BodyRel L JI JR c run s d run' t) :
    Related L.lax (Pulls L Ok K) (m.bodyNext start grouped wrap n c run pos s)
      (m'.bodyNext start' grouped wrap' n' d run' pos t) := by
  have hdone : ∀ {c s d t pos r}, (∀ e, r = .error e → L.Err e) → JI c s d t →
      Pulls L Ok K (wrap c .idle pos true, r) s (wrap' d .idle pos true, r) t := by
    intro c s d t pos r herr hJ
    refine ⟨rfl, ?_, ?_, ⟨?_, herr⟩, hK _ _ _ _ _ _ _ _ (.idle hJ) fun _ => rfl⟩
    · rw [(hwrap _ _ _ _).1, (hwrap' _ _ _ _).1]
    · rw [(hwrap _ _ _ _).2, (hwrap' _ _ _ _).2]
    · intro i h
      rw [(hwrap _ _ _ _).1] at h
      cases h
  have hfailed : ∀ {e : Error}, L.Err e → ∀ e', (.error e : Except Error Bool) = .error e' → L.Err e' := by
    rintro e he _ ⟨⟩
    exact he
  induction hn using FuelLe.induct generalizing c d s t run run' pos with
  | out => exact .neither
  | left _ _ h => exact .left h
  | step n n' _ _ ih =>
    cases hJ with
    | failed he hJ => exact .both (hdone (hfailed he) hJ)
    | running hJ =>
      refine Related.bind (hinner _ _ _ _ _ _ _ hJ) ?_
      rintro ⟨i, r⟩ s ⟨j, r'⟩ t ⟨rfl, hcur', hok, hgo, hJ⟩
      match r with
      | .ok true =>
        refine .both ⟨rfl, ?_, ?_, ⟨?_, nofun⟩,
          hK _ _ _ _ _ _ _ _ (.running (hgo rfl)) nofun⟩
        · rw [(hwrap _ _ _ _).1, (hwrap' _ _ _ _).1]; exact hcur'
        · rw [(hwrap _ _ _ _).2, (hwrap' _ _ _ _).2]
        · rw [(hwrap _ _ _ _).1]; exact hok.1
      | .ok false => exact ih (.idle hJ)
      | .error e => exact .both (hdone hok.2 hJ)
    | idle hJ =>
      refine Related.bind (hsource _ s _ t hJ) ?_
      rintro ⟨c, r⟩ s ⟨d, r'⟩ t ⟨rfl, hcur', hpos', hok, hJ⟩
      match r with
      | .ok true =>
        refine Related.bind (hstart c s d t hJ hcur' hpos' hok.1) ?_
        intro x s y t h
        cases h with
        | error he hJ => exact .both (hdone (hfailed he) hJ)
        | @ok a _ b _ h =>
          match a, b with
          | some i, some j => exact ih (.running h)
          | none, none => exact ih (.idle h)
      | .ok false | .error e => exact .both (hdone hok.2 hJ)

/-! ## Sorted cursors -/

section

variable (hE : ∀ c s d t, J c s d t → E s t)

include hE

theorem gather_related (hn : FuelLe L.lax n n') (hJ : J c s d t)
    (hnodes : ∀ k ∈ nodes, Ok (.node k)) (hatomics : ∀ i ∈ atomics, Ok i) :
    RelatedEval L (fun x s y t => x = y ∧ (∀ k ∈ x.1, Ok (.node k)) ∧ (∀ i ∈ x.2, Ok i) ∧ E s t) E
      (m.gather n c nodes atomics) (m'.gather n' d nodes atomics) s t := by
  induction hn using FuelLe.induct generalizing c d s t nodes atomics with
  | out => exact .outOfFuel
  | left _ _ h => exact Related.left h
  | step n n' _ _ ih =>
    refine .bind (.lift (hm c s d t hJ)) ?_
    rintro ⟨c, r⟩ s ⟨d, r'⟩ t ⟨rfl, hcur, hpos, hok, hJ⟩
    match r with
    | .ok true =>
      refine .bind (Q := fun b s b' t => b = true ∧ b' = true ∧ J c s d t)
        (.pure ⟨rfl, rfl, hJ⟩) ?_
      rintro b s b' t ⟨rfl, rfl, hJ⟩
      rw [if_pos rfl, if_pos rfl, ← hcur]
      dsimp only
      split
      · refine ih hJ ?_ ?_
        · intro k hk
          rcases List.mem_append.mp hk with h | h
          · obtain ⟨i, hi, h⟩ := Option.bind_eq_some_iff.mp (Option.mem_toList.mp h)
            cases i with
            | node k' => obtain rfl := Option.some.inj h; exact hok.1 _ hi
            | atomic a => cases h
          · exact hnodes k h
        · intro i hi
          rcases List.mem_append.mp hi with h | h
          · exact hok.1 i (Option.eq_some_of_filter_eq_some (Option.mem_toList.mp h))
          · exact hatomics i h
      · exact .throw (L.dynamic _ rfl) (hE _ _ _ _ hJ)
    | .ok false => exact .pure ⟨rfl, hnodes, hatomics, hE _ _ _ _ hJ⟩
    | .error e => exact .throw (hok.2 e rfl) (hE _ _ _ _ hJ)

theorem arrange_related (hn : FuelLe L.lax m.fuel m'.fuel) (hJ : J c s d t) :
    RelatedEval L (Sure (∀ i ∈ ·, Ok i) E) E (m.arrange unique c) (m'.arrange unique d) s t := by
  refine .bind (gather_related hm hE hn hJ nofun nofun) ?_
  rintro ⟨nodes, atomics⟩ s y t ⟨rfl, hnodes, hatomics, hEst⟩
  dsimp only
  split
  · refine .pure ⟨⟨rfl, ?_⟩, hEst⟩
    intro i hi
    obtain ⟨n, hn, rfl⟩ := List.mem_map.mp hi
    exact hnodes n (List.mem_reverse.mp (mem_of_mem_inDocumentOrder hn))
  · exact .pure ⟨⟨rfl, fun i hi => hatomics i (List.mem_reverse.mp hi)⟩, hEst⟩

theorem orderedNext_related (hn : FuelLe L.lax m.fuel m'.fuel)
    (hK : ∀ all rest cur pos fin s t, (∀ i ∈ all, Ok i) → (∀ i ∈ rest, Ok i) →
      (∀ i, cur = some i → Ok i) → E s t →
      K (.ordered unique (.sorted all rest) cur pos fin) s
        (.ordered unique (.sorted all rest) cur pos fin) t) (hJ : J c s d t) :
    Related L.lax (Pulls L Ok K) (m.orderedNext unique pos (.unsorted c) s)
      (m'.orderedNext unique pos (.unsorted d) t) := by
  have hnone : ∀ {s t pos r}, (∀ e, r = .error e → L.Err e) → E s t →
      Pulls L Ok K (.ordered unique (.sorted [] []) none pos true, r) s
        (.ordered unique (.sorted [] []) none pos true, r) t := fun herr hEst =>
    ⟨rfl, rfl, rfl, ⟨nofun, herr⟩, hK _ _ _ _ _ _ _ nofun nofun nofun hEst⟩
  refine Related.bind (arrange_related hm hE hn hJ) ?_
  intro x s y t h
  cases h with
  | error he hEst =>
    refine .both (hnone ?_ hEst)
    rintro _ ⟨⟩
    exact he
  | @ok items _ _ _ h =>
    obtain ⟨⟨rfl, hok⟩, hEst⟩ := h
    match items with
    | [] => exact .both (hnone nofun hEst)
    | i :: rest =>
      have hi : ∀ j, some i = some j → Ok j := fun j h =>
        Option.some.inj h ▸ hok i (.head _)
      exact .both ⟨rfl, rfl, rfl, ⟨hi, nofun⟩, hK _ _ _ _ _ _ _ hok
        (fun j hj => hok j (.tail i hj)) hi hEst⟩

end

end

/-! ## Parts one after the other -/

theorem concatNext_related {R : List Cursor → List Cursor → Store → List Cursor → List Cursor → Store → Prop}
    (hlength : ∀ spent rest s spent' rest' t, R spent rest s spent' rest' t →
      rest.length = rest'.length)
    (hpull : ∀ spent c rest s spent' d rest' t, R spent (c :: rest) s spent' (d :: rest') t →
      Related L.lax (fun x s y t => x.2 = y.2 ∧ x.1.current = y.1.current ∧
          L.Allows Ok x ∧ R spent (x.1 :: rest) s spent' (y.1 :: rest') t) (m.next c s) (m'.next d t))
    (hmove : ∀ spent c rest s spent' d rest' t, R spent (c :: rest) s spent' (d :: rest') t →
      R (c :: spent) rest s (d :: spent') rest' t)
    (hK : ∀ spent rest s spent' rest' t pos fin, R spent rest s spent' rest' t →
      K (.concat spent rest pos fin) s (.concat spent' rest' pos fin) t) (hR : R spent rest s spent' rest' t) :
    Related L.lax (Pulls L Ok K) (m.concatNext pos spent rest s) (m'.concatNext pos spent' rest' t) := by
  induction rest generalizing rest' spent spent' s t with
  | nil =>
    obtain rfl : rest' = [] := List.eq_nil_of_length_eq_zero (hlength _ _ _ _ _ _ hR).symm
    exact .both ⟨rfl, rfl, rfl, ⟨nofun, nofun⟩, hK _ _ _ _ _ _ _ _ hR⟩
  | cons c rest ih =>
    obtain ⟨d, rest', rfl⟩ : ∃ d ds, rest' = d :: ds :=
      List.exists_cons_of_length_eq_add_one (hlength _ _ _ _ _ _ hR).symm
    refine Related.bind (hpull _ _ _ _ _ _ _ _ hR) ?_
    rintro ⟨c, r⟩ s ⟨d, r'⟩ t ⟨rfl, hcur, hok, hR⟩
    match r with
    | .ok true => exact .both ⟨rfl, hcur, rfl, hok, hK _ _ _ _ _ _ _ _ hR⟩
    | .ok false => exact ih (hmove _ _ _ _ _ _ _ _ hR)
    | .error e => exact .both ⟨rfl, rfl, rfl, ⟨nofun, hok.2⟩, hK _ _ _ _ _ _ _ _ hR⟩

end

end XPath
