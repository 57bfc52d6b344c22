import XPath.Proofs.Groups
import XPath.Proofs.Sessions

/-!
# Filters over computed cursors

What has been shown of cursors in environments holds of computed cursors on slots: they are read alike
(`Cursor.Primed.reads_iff`), and predicates select alike (`chooses_iff`). So every cursor that an expression
of a compiled query computes, and every cursor that it draws on, delivers groups that are counted from one,
and its filters work on them group by group (`Query.filters_in_groups`).
-/

namespace XPath

open Option

def Cursor.inputs : Cursor → List Cursor
  | .concat spent rest _ _ => spent ++ rest
  | .nodesOnly input _ | .nth _ _ input _ _ _ _ | .predicate _ input _ _ _ _ _ => [input]
  | .axis _ _ source _ _ _ _ | .descent _ source _ _ _ _ | .forEach _ _ _ source _ _ _
  | .step _ source _ _ _ => [source]
  | .ordered _ (.unsorted input) _ _ _ => [input]
  | _ => []

/-- The second cursor is the first one or one that it draws on, directly or not. -/
def Cursor.DrawsOn : Cursor → Cursor → Prop :=
  Relation.ReflTransGen fun c d => d ∈ c.inputs

section

variable {p : Program} {Fit : FunctionEntry → Prop} {scope : List Binding} {lo hi n : Nat} {e : ExprId}
  {c d : Cursor} {s t : Store} {out : List (Item × Nat)} {r r' : Except Error Unit} {env : Slots}
  {snap : Snapshot} {x : Except Error Selection}

theorem Cursor.Primed.input (h : c.Primed p Fit scope lo hi) (hd : d ∈ c.inputs) :
    ∃ hi', d.Primed p Fit scope lo hi' := by
  cases h with
  | empty | ofItems items | ofRange first last => cases hd
  | ofParts each => exact ⟨hi, each d hd⟩
  | requireNodes input | along axis test input | descending tests input | pick k flat input
  | filter nested placed input | loop focus name lower slot upper placed input
  | through nested placed input | inOrder unique input =>
    rw [List.mem_singleton.mp hd]
    exact ⟨_, input⟩

theorem Cursor.Primed.drawsOn (h : c.Primed p Fit scope lo hi) (hd : c.DrawsOn d) :
    ∃ hi', d.Primed p Fit scope lo hi' := by
  induction hd with
  | refl => exact ⟨hi, h⟩
  | tail _ hinput ih =>
    obtain ⟨hi', ih⟩ := ih
    exact ih.input hinput

/-! ## On slots -/

/-- Where neither run may go on alone, the two sides can change places. -/
theorem KeepsUp.flip {J : CursorRel} {m m' : Calls} (h : KeepsUp .strict (fun _ => True) J m m') :
    KeepsUp .strict (fun _ => True) (fun d t c s => J c s d t) m' m := by
  intro d t c s hJ
  have hpull := h c s d t hJ
  cases hx : m.next c s with
  | none =>
    cases hy : m'.next d t with
    | none => exact .neither
    | some y =>
      rw [hx, hy] at hpull
      cases hpull with
      | left h => exact h.elim
  | some x =>
    obtain ⟨y, t', hy, houtcome, hcurrent, hposition, -, hrel⟩ := hpull.of_some hx
    rw [hy]
    exact .both ⟨houtcome.symm, hcurrent.symm, hposition.symm, Law.allows_free, hrel⟩

/-- A computed cursor is read alike on slots and in an environment that agrees with them. -/
theorem Cursor.Primed.reads_iff (h : c.Primed p Fit scope lo hi) (hFit : ∀ f, Fit f → f.KeepsReply)
    (hbelow : ScopeBelow p scope lo) (hagrees : Agrees p scope s.slots env) (ht : t.slots = env) :
    (machine n p).Reads c s out r ↔ (lexicalMachine n p).Reads c t out r := by
  have hkeeps : KeepsUp .strict (fun _ => True)
      (Live p Fit anyOrigin (some scope) lo hi env (Held lo hi s.slots env fun _ _ => True))
      (machine n p) (lexicalMachine n p) := by
    rw [← Watches.slotMachine_idle, ← Watches.scopeMachine_idle]
    exact NextInStep.keepsUp (inStep hFit n).next (traced_anyOrigin _ p) (.ofScope hagrees hbelow)
      .refl .refl
  have hlive : Live p Fit anyOrigin (some scope) lo hi env (Held lo hi s.slots env fun _ _ => True)
      c s c t := ⟨h.sim, .refl, ht, trivial⟩
  exact ⟨fun hreads => hreads.keepsUp hkeeps hlive, fun hreads => hreads.keepsUp hkeeps.flip hlive⟩

/-- The predicate comes to this selection, or fails so, in the focus, on the slots of the store. -/
def Program.Chooses (p : Program) (t : Store) (e : ExprId) (snap : Snapshot) (x : Except Error Selection) : Prop :=
  ∃ n t', (machine n p).select e (.fixed snap) t = some (x, t')

/-- A predicate selects alike on slots and in an environment that agrees with them. -/
theorem chooses_iff (hFit : ∀ f, Fit f → f.KeepsReply) (hplaced : Placed p Fit scope lo hi e)
    (hle : lo ≤ hi) (hbelow : ScopeBelow p scope lo) (hagrees : Agrees p scope s.slots env) :
    p.Chooses s e snap x ↔ p.Decides env e snap x := by
  have hselect : ∀ n, RelatedEval .strict (fun x _ y _ => x = y) (fun _ _ => True)
      ((machine n p).select e (.fixed snap)) ((lexicalMachine n p).select e (.fixed snap)) s
      (.ofSlots env) := by
    intro n
    rw [← Watches.slotMachine_idle, ← Watches.scopeMachine_idle]
    have hsizes : SizesFor (.fixed snap) fun _ _ => True := nofun
    have hpulls : KeepsUp .strict (fun _ => True)
        (Live p Fit anyOrigin (some scope) lo hi env (Held lo hi s.slots env fun _ _ => True))
        (Watches.idle.slotMachine n p) (Watches.idle.scopeMachine n p) :=
      NextInStep.keepsUp (inStep hFit n).next (traced_anyOrigin _ p) (.ofScope hagrees hbelow)
        .refl .refl
    have hexecute := (inStep hFit n).execute (t := .ofSlots env) (traced_anyOrigin _ p) hplaced hle
      hagrees hbelow rfl (.fixed snap) hsizes trivial
    refine .bind (hexecute.mono (fun _ _ _ _ h => h) fun _ _ _ => trivial) ?_
    rintro c s d t ⟨hunpulled, hheld⟩
    refine .bind (firstTwo_related hpulls (fun _ _ _ _ _ => trivial) (fuelLe_machines _ n p p)
      ⟨hunpulled _, hheld⟩) ?_
    rintro items s _ t ⟨⟨rfl, -⟩, -⟩
    exact (RelatedEval.same (fun _ _ => trivial) trivial).mono (fun _ _ _ _ h => h.1) fun _ _ h => h
  have hvalue : ∀ n, ((machine n p).select e (.fixed snap) s).map Prod.fst =
      ((lexicalMachine n p).select e (.fixed snap) (.ofSlots env)).map Prod.fst :=
    fun n => (hselect n).value_eq fun _ _ _ _ h => h
  constructor
  · rintro ⟨n, t', hrun⟩
    have hfst := (hvalue n).symm.trans (congrArg (Option.map Prod.fst) hrun)
    obtain ⟨⟨_, t''⟩, hrun', rfl⟩ := map_eq_some_iff.mp hfst
    exact ⟨n, t'', hrun'⟩
  · rintro ⟨n, t', hrun⟩
    have hfst := (hvalue n).trans (congrArg (Option.map Prod.fst) hrun)
    obtain ⟨⟨_, t''⟩, hrun', rfl⟩ := map_eq_some_iff.mp hfst
    exact ⟨n, t'', hrun'⟩

/-- A filter on slots delivers what its predicate leaves of every group of its input. -/
theorem Cursor.Primed.reads_filter_iff (hp : p.Pure) (hr : p.Reliable) (hFit : ∀ f, Fit f → f.KeepsReply)
    (hscope : ScopeFor p scope lo) (h : (Cursor.filter e c).Primed p Fit scope lo hi)
    {groups : List (List Item)} (hgroups : ∀ g ∈ groups, g ≠ []) (hins : (machine n p).Reads c t (inGroups groups) r) :
    (∃ m, (machine m p).Reads (.filter e c) t out r') ↔
      ∃ lefts, LeavesOfGroups (p.Chooses t e) r groups lefts r' ∧ out = inGroups lefts := by
  obtain ⟨env, hagrees⟩ := hscope.exists_agrees t.slots
  have hprimed := h
  cases h with
  | @filter mid lo' hi' _ _ _ nested placed input =>
    have hself : c.Replicable p env := ⟨0, input.standsFor 0 env⟩
    have hyields : c.Yields p env (inGroups groups) r :=
      ⟨n, .ofSlots env, rfl, (input.reads_iff hFit hscope.below hagrees rfl).mp hins⟩
    have hslots : (∃ m, (machine m p).Reads (.filter e c) t out r') ↔
        (Cursor.filter e c).Yields p env out r' := by
      constructor
      · rintro ⟨m, hreads⟩
        exact ⟨m, .ofSlots env, rfl, (hprimed.reads_iff hFit hscope.below hagrees rfl).mp hreads⟩
      · rintro ⟨m, s, hs, hreads⟩
        exact ⟨m, (hprimed.reads_iff hFit hscope.below hagrees hs).mpr hreads⟩
    have hchooses : p.Chooses t e = p.Decides env e := by
      funext snap x
      exact propext (chooses_iff hFit placed nested.inner (hscope.below.mono nested.lo_le) hagrees)
    rw [hslots, hchooses, yields_filter_iff hp hr hself hyields, letThrough_inGroups_iff hgroups]

end

/-! ## Compiled queries -/

theorem Compiled.seated {c : StaticContext} {q : Query} (hq : Compiled c q) : q.program.Seated c.Callable q.root := by
  obtain ⟨top, htop, hplaced⟩ := hq.placed
  refine ⟨[], c.settings.externals.length, top, htop, ⟨⟨?_, nofun⟩, nofun⟩,
    hplaced⟩
  rw [hq.static]

theorem Compiled.tame {c : StaticContext} {q : Query} (hq : Compiled c q)
    (hf : ∀ f, c.Callable f → f.KeepsReply) : q.program.Tame c.Callable :=
  ⟨fun e _ hform => (hq.filled e _ hform).2, hf⟩

/-- What can be said of a query if its functions are pure and keep to their flags. -/
theorem reliable_of_compile {c : StaticContext} {x : Expr} {q : Query} (hq : compile c x = .ok q)
    (hf : ∀ f, c.Callable f → f.KeepsReply ∧ f.Grows ∧ f.Honest) :
    Compiled c q ∧ (∀ f, c.Callable f → f.KeepsReply) ∧ q.program.Pure ∧ q.program.Reliable := by
  have hcompiled := compiled_of_compile hq
  have hpure : q.program.Pure := hcompiled.pure fun f h => ⟨(hf f h).1, (hf f h).2.1⟩
  exact ⟨hcompiled, fun f h => (hf f h).1, hpure, Compiled.honest hq fun f h => (hf f h).2.2, hpure.grows⟩

/-! ## Draining -/

section

variable {keeper : Program → Variables} {p : Program} {n : Nat} {c : Cursor} {s s' : Store} {items : List Item}
  {res : Except Error (List Item)} {M : Calls}

theorem Calls.drainFrom_of_drain (h : M.drain c s = some (res, s')) :
    ∃ c', M.drainFrom M.fuel c [] s = some ((c', res), s') := by
  cases hfrom : M.drainFrom M.fuel c [] s with
  | none =>
    have hstuck : (liftM (M.drainFrom M.fuel c []) : Eval _) s = none := by
      change (M.drainFrom M.fuel c [] s).bind _ = none
      rw [hfrom]
      rfl
    rw [Calls.drain, Calls.drainWith] at h
    exact nomatch (Run.bind_of_none hstuck).symm.trans h
  | some x =>
    obtain ⟨⟨c', res'⟩, s₁⟩ := x
    rw [Calls.drain, Calls.drainWith, Eval.bind_of_ok (Eval.lift_of_some hfrom)] at h
    cases res' <;> cases h <;> exact ⟨c', rfl⟩

/-- What a cursor is drained to is what has been read from it, or the error that ended the reading. -/
theorem Calls.reads_of_drain (h : (machineWith keeper n p).drain c s = some (res, s')) :
    ∃ out r, (machineWith keeper n p).Reads c s out r ∧ res = r.map fun _ => out.map Prod.fst := by
  obtain ⟨c', hfrom⟩ := Calls.drainFrom_of_drain h
  clear h
  generalize (machineWith keeper n p).fuel = fuel at hfrom
  suffices h : ∀ acc, (machineWith keeper n p).drainFrom fuel c acc s = some ((c', res), s') →
      ∃ out r, (machineWith keeper n p).Reads c s out r ∧
        res = r.map fun _ => acc.reverse ++ out.map Prod.fst from
    h [] hfrom
  clear hfrom
  induction fuel generalizing c s with
  | zero => exact nofun
  | succ fuel ih =>
    intro acc h
    obtain ⟨⟨d, r⟩, s₁, hpull, h⟩ := Run.of_bind h
    unfold Calls.Reads
    match r with
    | .error err =>
      cases h
      exact ⟨[], .error err, hpull ▸ .failed, rfl⟩
    | .ok false =>
      cases h
      exact ⟨[], .ok (), hpull ▸ .ended, congrArg Except.ok (List.append_nil _).symm⟩
    | .ok true =>
      obtain ⟨i, hi⟩ := current_of_next hpull rfl
      dsimp only at h
      rw [hi] at h
      obtain ⟨out, r, hreads, heq⟩ := ih _ h
      refine ⟨(i, d.position) :: out, r, hpull ▸ .item hi hreads, ?_⟩
      rw [heq, toList_some, List.singleton_append, List.reverse_cons, List.append_assoc]
      rfl

theorem Calls.reads_of_drain_ok (h : (machineWith keeper n p).drain c s = some (.ok items, s')) :
    ∃ out, (machineWith keeper n p).Reads c s out (.ok ()) ∧ items = out.map Prod.fst := by
  obtain ⟨out, r, hreads, heq⟩ := Calls.reads_of_drain h
  cases r with
  | error err => cases heq
  | ok _ => exact ⟨out, hreads, Except.ok.inj heq⟩

end

/-- Every expression of a compiled query computes cursors that deliver groups counted from one; so do the
cursors that these draw on. A predicate leaves of every group the items that it accepts when it is evaluated
with the item, its index in the group and the size of the group, and the first selection that fails ends the
sequence. A position in a path picks the item there of every group that has one. A position that filters a
whole sequence picks one item and pulls nothing after it. -/
theorem Query.filters_in_groups {c : StaticContext} {x : Expr} {q : Query} (hq : compile c x = .ok q)
    (hf : ∀ f, c.Callable f → f.KeepsReply ∧ f.Grows ∧ f.Honest) {e : ExprId}
    (he : q.program.Occurs q.root e) {n : Nat} {f : Focus} {s s' : Store} {value d : Cursor}
    (hrun : (machine n q.program).execute e f s = some (.ok value, s')) (hd : value.DrawsOn d) (t : Store) :
    (∀ m out r, (machine m q.program).Reads d t out r →
      ∃ groups : List (List Item), (∀ g ∈ groups, g ≠ []) ∧ out = inGroups groups) ∧
    (∀ b input, d = .filter b input → ∀ m groups r, (∀ g ∈ groups, g ≠ []) →
      (machine m q.program).Reads input t (inGroups groups) r → ∀ out r',
        (∃ m, (machine m q.program).Reads d t out r') ↔
          ∃ lefts, LeavesOfGroups (q.program.Chooses t b) r groups lefts r' ∧ out = inGroups lefts) ∧
    (∀ k input, d = .pick k true input → ∀ m groups r, (∀ g ∈ groups, g ≠ []) →
      (inGroups groups).length + 1 < m → (machine m q.program).Reads input t (inGroups groups) r →
        (machine (m + 1) q.program).Reads d t ((groups.filterMap (ordinal · k)).map (·, 1)) r) ∧
    (∀ k input, d = .pick k false input → ∀ m, k < m →
      (∀ before i input' t', before.length + 1 = k →
        (machine m q.program).Takes input t (before ++ [i]) input' t' →
          ∃ d', (machine (m + 1) q.program).next d t = some ((d', .ok true), t') ∧
            d'.current = some i ∧ d'.position = 1 ∧
            ∀ m' t'', ∃ d'', (machine (m' + 3) q.program).next d' t'' = some ((d'', .ok false), t'')) ∧
      ∀ ins r, ins.length < k → (machine m q.program).Reads input t ins r →
        (machine (m + 1) q.program).Reads d t [] r) := by
  obtain ⟨hcompiled, hreply, hpure, hreliable⟩ := reliable_of_compile hq hf
  obtain ⟨scope, lo, hi, hle, hscope, hplaced⟩ := hcompiled.seated.occurs he
  have hvalue := execute_primed (hcompiled.tame hreply) n (hplaced.within hle) hrun
  obtain ⟨hi', hprimed⟩ := hvalue.drawsOn hd
  refine ⟨fun m out r h => hprimed.exists_groups h, ?_, ?_, ?_⟩
  · rintro b input rfl m groups r hgroups hins out r'
    exact hprimed.reads_filter_iff hpure hreliable hreply hscope hgroups hins
  · rintro k input rfl m groups r hgroups hroom hins
    exact reads_pick_perGroup hgroups hins hroom
  · rintro k input rfl m hk
    cases hprimed with
    | pick _ flat hinput =>
      have hone := (flat rfl).oneGroup hinput
      constructor
      · rintro before i input' t' rfl htakes
        exact next_pick_of_takes hone hinput.position htakes hk
      · exact fun ins r hins hreads => reads_pick_of_few hone hinput.position hreads hins hk

/-- `((child::*)/@*[position() = last()][1])[1]`, where each kind of filter has another one as its input. -/
def firstOfLastAttributes : Expr :=
  let atLast : Expr :=
    .binary (.compare .general .eq) (.call (.unprefixed "position") []) (.call (.unprefixed "last") [])
  let children : Expr := .path .relative [.axis .child .anyName []]
  .filter (.path (.expr children) [.axis .attribute .anyName [atLast, .literal (.integer 1)]]) [.literal (.integer 1)]

def Query.stacksFilters (q : Query) (focus : Focus) : Bool :=
  let drains (c : Cursor) (s : Store) (count : Nat) : Bool :=
    ((machine 40 q.program).drain c s).any (·.1.toOption.any (·.length == count))
  match (machine 40 q.program).execute q.root focus (.ofSlots (.ofSize 0)) with
  | some (.ok (.nth 1 false parts 0 false 0 false), s) =>
    match parts.inputs, (machine 40 q.program).next parts s with
    | [.nth 1 true (.predicate b input 0 none none 0 false) 0 false 0 false], some ((c, .ok true), _) =>
      c.current.isSome && drains input s 3 && drains (.filter b input) s 2
    | _, _ => false
  | _ => false

/-- The last attribute of every child: each of the two groups is sifted by itself. One is picked from each of them,
and then one from all. -/
theorem Query.filters_in_groups_stacked :
    ∃ q parts b input s groups lefts, compile .standard firstOfLastAttributes = .ok q ∧
      (∀ f, StaticContext.standard.Callable f → f.KeepsReply ∧ f.Grows ∧ f.Honest) ∧
      (machine 40 q.program).execute q.root
        (.fixed (.single (some (.node (.rootOf (.build 0 .attributed)))))) (.ofSlots (.ofSize 0)) =
          some (.ok (.pick 1 false parts), s) ∧
      parts.inputs = [.pick 1 true (.filter b input)] ∧
      (machine 40 q.program).Reads input s (inGroups groups) (.ok ()) ∧ (inGroups groups).length = 3 ∧
      (∃ left, LeavesOfGroups (q.program.Chooses s b) (.ok ()) groups left (.ok ()) ∧
        inGroups lefts = inGroups left) ∧ (inGroups lefts).length = 2 ∧
      (machine 41 q.program).Reads (.pick 1 true (.filter b input)) s
        ((lefts.filterMap (ordinal · 1)).map (·, 1)) (.ok ()) ∧
      ∃ d s' i, (machine 41 q.program).next (.pick 1 false parts) s = some ((d, .ok true), s') ∧
        d.current = some i := by
  let focus : Focus := .fixed (.single (some (.node (.rootOf (.build 0 .attributed)))))
  have hrun : ((compile .standard firstOfLastAttributes).toOption.any (·.stacksFilters focus)) = true := by
    decide +kernel
  have hf := CoreFunction.standard_callable
  obtain ⟨q, hq, hrun⟩ := exists_ok_of_check hrun
  have hreads : ∀ {c s k}, ((machine 40 q.program).drain c s).any (·.1.toOption.any (·.length == k)) = true →
      ∃ out, (machine 40 q.program).Reads c s out (.ok ()) ∧ out.length = k := by
    intro c s k h
    obtain ⟨⟨res, s'⟩, hdrain, h⟩ := (any_eq_true _ _).mp h
    obtain ⟨items, hitems, hlength⟩ := exists_ok_of_check h
    cases hitems
    obtain ⟨out, hout, rfl⟩ := Calls.reads_of_drain_ok hdrain
    exact ⟨out, hout, by simpa using hlength⟩
  unfold stacksFilters at hrun
  split at hrun
  · next parts s hexecute =>
    split at hrun
    · next b input c s₁ hinputs hnext =>
      simp only [Bool.and_eq_true] at hrun
      obtain ⟨⟨hcurrent, hinput⟩, hfilter⟩ := hrun
      obtain ⟨i, hi⟩ := isSome_iff_exists.mp hcurrent
      obtain ⟨ins, hins, hcount⟩ := hreads hinput
      obtain ⟨out, hout, hcount'⟩ := hreads hfilter
      have hparts : (Cursor.pick 1 false parts).DrawsOn parts := .single (.head _)
      have hpick : (Cursor.pick 1 false parts).DrawsOn (.pick 1 true (.filter b input)) :=
        hparts.tail (hinputs ▸ .head _)
      have hsift : (Cursor.pick 1 false parts).DrawsOn (.filter b input) := hpick.tail (.head _)
      have hlaws := fun {d} (hd : (Cursor.pick 1 false parts).DrawsOn d) =>
        filters_in_groups hq hf .refl hexecute hd s
      obtain ⟨groups, hgroups, rfl⟩ := (hlaws (hsift.tail (.head _))).1 _ _ _ hins
      obtain ⟨lefts, hlefts, rfl⟩ := (hlaws hsift).1 _ _ _ hout
      obtain ⟨d, hd, hd', -⟩ := ((hlaws .refl).2.2.2 1 parts rfl 40 (by decide)).1 [] i c s₁ rfl
        (.item hnext hi .nothing)
      exact ⟨q, parts, b, input, s, groups, lefts, hq, hf, hexecute, hinputs, hins, hcount,
        ((hlaws hsift).2.1 b input rfl 40 groups _ hgroups hins _ _).mp ⟨40, hout⟩, hcount',
        (hlaws hpick).2.2.1 1 _ rfl 40 lefts _ hlefts (by omega) hout, d, s₁, i, hd, hd'⟩
    · cases hrun
  · cases hrun

end XPath
