import XPath.Proofs.Inputs

/-!
# What chains deliver

A chain of steps is read to the end without an error if and only if every step finds what it needs in the
groups that the step before it delivers (`Step.Turns`, `gives_chain_iff`). A step along an axis makes a group
of every node, a predicate and a position take something out of every group, and an expression makes a group
of every item. Groups with nothing in them are not seen.
-/

namespace XPath

open List

variable {p : Program} {n m B : Nat} {σ : Slots} {c d : Cursor} {s t : Store} {e : ExprId}
  {ins out : List (Item × Nat)} {r : Except Error Unit} {snap : Snapshot} {g' : List Item} {t' s' : Store}
  {M : Calls} {d' : Cursor} {groups a b outs outs' : List (List Item)}
  {V : Snapshot → Except Error Selection → Prop} {steps : List Step} {start : Cursor → Eval (Option Cursor)}

/-! ## Walks -/

theorem leadingNodes_of_nodes (h : ins.map Prod.fst = nodes.map Item.node) :
    leadingNodes ins = nodes ∧ ins.all (·.1.isNode) = true := by
  induction ins generalizing nodes with
  | nil =>
    cases nodes with
    | nil => exact ⟨rfl, rfl⟩
    | cons x nodes => cases h
  | cons x ins ih =>
    cases nodes with
    | nil => cases h
    | cons y nodes =>
      obtain ⟨i, k⟩ := x
      obtain ⟨hi, hrest⟩ := cons.inj h
      obtain rfl : i = .node y := hi
      obtain ⟨hleading, hall⟩ := ih hrest
      exact ⟨congrArg (y :: ·) hleading, hall⟩

section

variable {ω : Wander} {w : ω.W} {fuel pos : Nat}

theorem exists_rest_of_reading
    (hread : (lexicalMachine (n + 1) p).Reading (ω.next (lexicalMachine n p) fuel c w pos s) out r) :
    ∃ g w' fuel' pos' rest, Exhausts ω.step w g ∧ ω.step w' = none ∧ out = numbered (pos + 1) g ++ rest ∧
      (lexicalMachine (n + 1) p).Reading (ω.next (lexicalMachine n p) fuel' c w' pos' s) rest r := by
  generalize hx : ω.next (lexicalMachine n p) fuel c w pos s = x at hread
  have hnone : ω.step w = none → ∃ g w' fuel' pos' rest, Exhausts ω.step w g ∧ ω.step w' = none ∧
      out = numbered (pos + 1) g ++ rest ∧
        (lexicalMachine (n + 1) p).Reading (ω.next (lexicalMachine n p) fuel' c w' pos' s) rest r :=
    fun hw => ⟨[], w, fuel, pos, out, .nothing hw, hw, rfl, hx ▸ hread⟩
  induction hread generalizing w fuel pos with
  | @ended c' s' | @failed c' s' e =>
    cases hw : ω.step w with
    | none => exact hnone hw
    | some y => cases (ω.found hw).symm.trans hx
  | @item c' s' i out r hcurrent rest ih =>
    cases hw : ω.step w with
    | none => exact hnone hw
    | some y =>
      obtain ⟨node, w'⟩ := y
      obtain ⟨heq, rfl⟩ := Prod.mk.inj (Option.some.inj ((ω.found hw).symm.trans hx))
      obtain ⟨rfl, -⟩ := Prod.mk.inj heq
      rw [ω.current] at hcurrent
      cases hcurrent
      obtain ⟨g, w'', fuel', pos', rest', hg, hw'', rfl, hread⟩ :=
        ih ω.machine.symm fun hw' => ⟨[], w', _, _, _, .nothing hw', hw', rfl, ω.machine ▸ rest⟩
      refine ⟨node :: g, w'', fuel', pos', rest', .found hw hg, hw'', ?_, hread⟩
      rw [ω.position]
      rfl

/-- What has been read is what is left of the walk and then a group for each node of the source. -/
theorem exists_groups_of_reading (hp : p.Pure) (hn : B ≤ n) (hsupplies : Supplies p B σ c ins (.ok ()))
    (hs : s.slots = σ)
    (hread : (lexicalMachine (n + 1) p).Reading (ω.next (lexicalMachine n p) fuel c w pos s) out (.ok ())) :
    ∃ g nodes groups, Exhausts ω.step w g ∧ ins.map Prod.fst = nodes.map Item.node ∧
      List.Forall₂ (fun n => Exhausts ω.step (ω.start n)) nodes groups ∧
      out = numbered (pos + 1) g ++ groups.flatMap (numbered 1) := by
  induction ins generalizing c s w fuel pos out with
  | nil =>
    obtain ⟨g, w', fuel', pos', rest, hg, hw', rfl, hread⟩ := exists_rest_of_reading hread
    obtain ⟨c', s', hpull, -⟩ := hsupplies.next_end hp hn hs
    cases fuel' with
    | zero =>
      rw [ω.exhausted hw'] at hread
      cases hread
    | succ fuel' =>
      rw [Wander.next_of_end hw' hpull nofun] at hread
      cases hread
      exact ⟨g, [], [], hg, rfl, .nil, rfl⟩
  | cons x ins ih =>
    obtain ⟨i, k⟩ := x
    obtain ⟨g, w', fuel', pos', rest, hg, hw', rfl, hread⟩ := exists_rest_of_reading hread
    obtain ⟨c', s', hpull, hs', -, hcurrent, -, hrest⟩ := hsupplies.next_item hp hn hs
    cases fuel' with
    | zero =>
      rw [ω.exhausted hw'] at hread
      cases hread
    | succ fuel' =>
      cases i with
      | atomic a =>
        rw [Wander.next_of_atomic hw' hpull hcurrent] at hread
        cases hread
      | node x =>
        rw [Wander.next_of_node hw' hpull hcurrent] at hread
        obtain ⟨g', nodes, groups, hg', hnodes, hgroups, rfl⟩ := ih hrest hs' hread
        refine ⟨g, x :: nodes, g' :: groups, hg, ?_, .cons hg' hgroups, rfl⟩
        rw [map_cons, map_cons, hnodes]

theorem yields_wander_iff (hp : p.Pure) (hc : c.Replicable p σ) (hins : c.Yields p σ ins (.ok ()))
    (hself : (ω.wrap c ω.stop none 0 false).Replicable p σ) : (ω.wrap c ω.stop none 0 false).Yields p σ out (.ok ()) ↔
      ∃ nodes groups, ins.map Prod.fst = nodes.map Item.node ∧
        List.Forall₂ (fun n => Exhausts ω.step (ω.start n)) nodes groups ∧ out = groups.flatMap (numbered 1) := by
  constructor
  · intro hyields
    obtain ⟨n, s, hs, hreads⟩ := hins
    obtain ⟨B, hsupplies⟩ := hreads.supplies hp hc hs
    obtain ⟨N, hN⟩ := hyields.exists_depth hp hself
    have hread := hN (max N B + 1) (by omega) (.ofSlots σ) rfl
    unfold Calls.Reads at hread
    rw [lexicalMachine, ω.machine] at hread
    obtain ⟨g, nodes, groups, hg, hnodes, hgroups, rfl⟩ :=
      exists_groups_of_reading hp (by omega) hsupplies rfl hread
    cases hg with
    | nothing => exact ⟨nodes, groups, hnodes, hgroups, rfl⟩
    | found hw => cases ω.stopped.symm.trans hw
  · rintro ⟨nodes, groups, hnodes, hgroups, rfl⟩
    obtain ⟨N, hN⟩ := hins.exists_depth hp hc
    obtain ⟨hleading, hall⟩ := leadingNodes_of_nodes hnodes
    have hfuel : ins.length < (lexicalMachine (max N (ins.length + 2)) p).fuel := by
      rw [lexicalMachine, fuel_machineWith]
      omega
    have hread : (lexicalMachine (max N (ins.length + 2) + 1) p).Reading
        (ω.next (lexicalMachine (max N (ins.length + 2)) p) (lexicalMachine (max N (ins.length + 2)) p).fuel c
          ω.stop 0 (.ofSlots σ)) (groups.flatMap (numbered 1))
        (if ins.all (·.1.isNode) then .ok () else .error ω.err) :=
      Wander.reading (hN (max N (ins.length + 2)) (by omega) (.ofSlots σ) rfl) hfuel (hleading.symm ▸ hgroups)
        (.nothing ω.stopped) hfuel
    rw [hall] at hread
    refine ⟨max N (ins.length + 2) + 1, .ofSlots σ, rfl, ?_⟩
    unfold Calls.Reads
    rw [lexicalMachine, ω.machine]
    exact hread

end

/-! ## Expressions -/

/-- The value of the expression in the focus comes to these items, without an error. -/
def Program.Delivers (p : Program) (σ : Slots) (e : ExprId) (snap : Snapshot) (g : List Item) : Prop :=
  ∃ n s c out, (lexicalMachine n p).execute e (.fixed snap) (.ofSlots σ) = some (.ok c, s) ∧
    c.Yields p σ out (.ok ()) ∧ g = out.map Prod.fst

/-- The value is the same in every focus that shows the same, if there is enough depth. -/
theorem Program.Delivers.exists_depth (hp : p.Pure) (h : p.Delivers σ e snap g) :
    ∃ N, ∀ m B f t, Mirrors p B σ snap f → N + B ≤ m → t.slots = σ → snap.Fits t.groupSize →
      ∃ c t' out, (lexicalMachine m p).execute e f t = some (.ok c, t') ∧ t'.slots = σ ∧
        c.Replicable p σ ∧ (lexicalMachine m p).Reads c t' out (.ok ()) ∧ g = out.map Prod.fst := by
  obtain ⟨n, s, c, out, hrun, hyields, rfl⟩ := h
  obtain ⟨hs, hc⟩ := execute_replicable hp (Mirrors.fixed (B := 0)).foci rfl hrun
  obtain ⟨K, hK⟩ := hyields.exists_depth hp (hc c rfl)
  refine ⟨max n K + 1, ?_⟩
  intro m B f t hf hm ht hsize
  have hdeep : n + B < m := by omega
  obtain ⟨y, t', hrun', ht', hxy⟩ := execute_refocused hp .fixed hf rfl ht snap.fits_none hsize hdeep hrun
  cases y with
  | error err => exact hxy.elim
  | ok d =>
    have hd := (execute_replicable hp hf.foci ht hrun').2 d rfl
    exact ⟨d, t', out, hrun', ht', hd, hxy (by omega) (hK K .refl s hs), rfl⟩

theorem Program.Delivers.unique (hp : p.Pure) (h : p.Delivers σ e snap g) (h' : p.Delivers σ e snap g') : g = g' := by
  obtain ⟨N, hN⟩ := h.exists_depth hp
  obtain ⟨N', hN'⟩ := h'.exists_depth hp
  obtain ⟨c, t, out, hrun, -, -, hreads, rfl⟩ := hN (max N N') 0 (.fixed snap) (.ofSlots σ) .fixed (by omega)
    rfl snap.fits_none
  obtain ⟨c', t', out', hrun', -, -, hreads', rfl⟩ := hN' (max N N') 0 (.fixed snap) (.ofSlots σ) .fixed
    (by omega) rfl snap.fits_none
  cases hrun.symm.trans hrun'
  rw [(hreads.unique hreads').1]

theorem Program.delivers_of_execute (hp : p.Pure) (hf : Mirrors p B σ snap f) (ht : t.slots = σ)
    (hsize : snap.Fits t.groupSize) (hrun : (lexicalMachine n p).execute e f t = some (.ok c, t'))
    (hyields : c.Yields p σ out (.ok ())) : p.Delivers σ e snap (out.map Prod.fst) := by
  obtain ⟨ht', hc⟩ := execute_replicable hp hf.foci ht hrun
  obtain ⟨K, hK⟩ := hyields.exists_depth hp (hc c rfl)
  obtain ⟨y, s, hrun', hs, hxy⟩ := execute_refocused hp hf .fixed ht (t := .ofSlots σ) rfl hsize
    snap.fits_none (Nat.lt_succ_self (n + B)) hrun
  cases y with
  | error err => exact hxy.elim
  | ok d =>
    refine ⟨_, s, d, out, hrun', ⟨K + B + 1, s, hs, ?_⟩, rfl⟩
    exact hxy (by omega) (hK K .refl t' ht')

/-- The foci of items with their positions, up to the end. -/
def foci : List (Item × Nat) → List Snapshot
  | [] => []
  | (i, k) :: rest => ⟨some i, k, groupEnd k rest (.ok ())⟩ :: foci rest

section

variable {fuel pos k : Nat} {inner : Cursor} {g : List Item}

theorem bodyNext_running (hpull : M.next inner t = some ((inner', res), t')) :
    M.bodyNext start true (.step e) (fuel + 1) d (.running inner k) pos t =
      match res with
      | .ok true => some ((.step e d (.running inner' (k + 1)) (pos + 1) false, .ok true), t')
      | .ok false => M.bodyNext start true (.step e) fuel d .idle pos t'
      | .error err => some ((.step e d .idle pos true, .error err), t') := by
  refine (Run.bind_of_some hpull).trans ?_
  match res with
  | .ok true | .ok false | .error err => rfl

theorem bodyNext_of_end (hpull : M.next d t = some ((d', .ok false), t')) :
    M.bodyNext start true (.step e) (fuel + 1) d .idle pos t =
      some ((.step e d' .idle pos true, .ok false), t') :=
  (Run.bind_of_some hpull).trans rfl

theorem bodyNext_of_item (hpull : M.next d t = some ((d', .ok true), t₁))
    (hexec : M.execute e (.current d') { t₁ with groupSize := none } = some (x, t₂)) :
    M.bodyNext (M.startStep e) true (.step e) (fuel + 1) d .idle pos t =
      match x with
      | .ok inner => M.bodyNext (M.startStep e) true (.step e) fuel d' (.running inner 0) 0
          { t₂ with groupSize := t₁.groupSize }
      | .error err => some ((.step e d' .idle pos true, .error err), { t₂ with groupSize := t₁.groupSize }) := by
  have hstart : (M.startStep e d').run t₁ = some (x.map some, { t₂ with groupSize := t₁.groupSize }) := by
    change M.startStep e d' t₁ = _
    rw [Calls.startStep_apply, hexec]
    rfl
  refine (Run.bind_of_some hpull).trans ((Run.bind_of_some hstart).trans ?_)
  cases x <;> rfl

/-- A step over an expression is being read, from within one of its pulls. -/
def StepReads (p : Program) (m : Nat) (e : ExprId) (fuel : Nat) (d : Cursor) (run : BodyRun) (pos : Nat) (t : Store)
    (out : List (Item × Nat)) (r : Except Error Unit) : Prop :=
  (lexicalMachine (m + 1) p).Reading
    ((lexicalMachine m p).bodyNext ((lexicalMachine m p).startStep e) true (.step e) fuel d run pos t) out r

theorem reading_running (hp : p.Pure) (hself : inner.Replicable p σ) (ht : t.slots = σ)
    (hinner : (lexicalMachine m p).Reads inner t ins (.ok ())) (hroom : room < (lexicalMachine m p).fuel)
    (hafter : ∀ {fuel pos : Nat} {t : Store}, room ≤ fuel → t.slots = σ →
      StepReads p m e fuel d .idle pos t out r) (hfuel : room < fuel) :
    StepReads p m e fuel d (.running inner k) pos t ((ins.map Prod.fst).zipIdx (pos + 1) ++ out) r := by
  unfold Calls.Reads at hinner
  generalize hx : (lexicalMachine m p).next inner t = x at hinner
  generalize hok : (Except.ok () : Except Error Unit) = ok at hinner
  induction hinner generalizing inner fuel pos k t with
  | ended =>
    obtain ⟨fuel, rfl⟩ := Nat.exists_eq_add_of_lt hfuel
    unfold StepReads
    rw [bodyNext_running hx]
    exact hafter (Nat.le_of_lt_succ hfuel) (hself.next hp ht hx).2
  | failed => cases hok
  | @item inner' t' i ins _ hcurrent rest ih =>
    obtain ⟨fuel, rfl⟩ := Nat.exists_eq_add_of_lt hfuel
    obtain ⟨hself', ht'⟩ := hself.next hp ht hx
    unfold StepReads
    rw [bodyNext_running hx]
    exact .item (c := .step e d (.running inner' (k + 1)) (pos + 1) false) hcurrent
      (ih hself' ht' hroom rfl hok)

theorem reading_bodyNext (hp : p.Pure) (h : List.Forall₂ (p.Delivers σ e) (foci ins) groups) (hroom : ins.length < B) :
    ∃ M, ∀ m ≥ M, ∀ d t fuel pos, d.Replicable p σ → Supplies p B σ d ins (.ok ()) → t.slots = σ →
      2 * ins.length + 1 ≤ fuel →
      StepReads p m e fuel d .idle pos t (inGroups groups) (.ok ()) := by
  induction ins generalizing groups with
  | nil =>
    cases h
    refine ⟨B, ?_⟩
    intro m hm d t fuel pos hd hsupplies ht hfuel
    obtain ⟨fuel, rfl⟩ := exists_succ_of_lt hfuel
    obtain ⟨d', t', hpull, -⟩ := hsupplies.next_end hp hm ht
    unfold StepReads
    rw [bodyNext_of_end hpull]
    exact .ended
  | cons x ins ih =>
    obtain ⟨i, k⟩ := x
    cases h with
    | @cons _ g _ groups hg hgroups =>
      obtain ⟨N, hN⟩ := hg.exists_depth hp
      obtain ⟨M, hM⟩ := ih hgroups (Nat.lt_of_succ_lt hroom)
      refine ⟨max M (N + B) + 2 * ins.length + 3, ?_⟩
      intro m hm d t fuel pos hd hsupplies ht hfuel
      rw [length_cons] at hfuel
      obtain ⟨fuel, rfl⟩ := Nat.exists_eq_add_of_lt hfuel
      obtain ⟨d', t₁, hpull, ht₁, -, hcurrent, hposition, hrest⟩ :=
        hsupplies.next_item hp (m := m) (by omega) ht
      obtain ⟨hd', -⟩ := hd.next hp ht hpull
      subst hposition
      obtain ⟨inner, t₂, innerOut, hexec, ht₂, hself, hinner, rfl⟩ :=
        hN m B (.current d') { t₁ with groupSize := none }
          (.current hd' hcurrent rfl hrest (Nat.lt_of_succ_lt hroom) rfl) (by omega) ht₁
          (Snapshot.fits_none _)
      unfold StepReads
      rw [bodyNext_of_item hpull hexec]
      have hfuel' : 2 * ins.length + 1 < (lexicalMachine m p).fuel := by
        rw [lexicalMachine, fuel_machineWith]
        omega
      exact reading_running hp hself ht₂ (hinner.elsewhere hp hself ht₂ ht₂ .refl) hfuel'
        (fun hroom ht => hM m (by omega) d' _ _ _ hd' hrest ht hroom) (by omega)

/-- One pull of a sequence that has been begun: its end, or an item of it. -/
theorem running_cases (hp : p.Pure) (hself : inner.Replicable p σ) (ht : t.slots = σ)
    (hread : StepReads p m e fuel d (.running inner k) pos t out (.ok ())) :
    ∃ inner' t' fuel', inner'.Replicable p σ ∧ t'.slots = σ ∧
      ((lexicalMachine m p).next inner t = some ((inner', .ok false), t') ∧
          StepReads p m e fuel' d .idle pos t' out (.ok ()) ∨
        ∃ i out', (lexicalMachine m p).next inner t = some ((inner', .ok true), t') ∧
          inner'.current = some i ∧ out = (i, pos + 1) :: out' ∧
          StepReads p m e fuel' d (.running inner' (k + 1)) (pos + 1) t' out' (.ok ())) := by
  unfold StepReads at hread
  cases fuel with
  | zero => cases hread
  | succ fuel =>
    cases hpull : (lexicalMachine m p).next inner t with
    | none =>
      have hstuck : (lexicalMachine m p).bodyNext ((lexicalMachine m p).startStep e) true (.step e) (fuel + 1)
          d (.running inner k) pos t = none := by
        change ((lexicalMachine m p).next inner t).bind _ = none
        rw [hpull]
        rfl
      rw [hstuck] at hread
      cases hread
    | some x =>
      obtain ⟨⟨inner', res⟩, t'⟩ := x
      obtain ⟨hself', ht'⟩ := hself.next hp ht hpull
      rw [bodyNext_running hpull] at hread
      match res with
      | .error err => cases hread
      | .ok false => exact ⟨inner', t', fuel, hself', ht', .inl ⟨rfl, hread⟩⟩
      | .ok true =>
        cases hread with
        | item hcurrent rest =>
          exact ⟨inner', t', _, hself', ht', .inr ⟨_, _, rfl, hcurrent, rfl, rest⟩⟩

/-- What has been read begins with what is left of the sequence that has been begun. -/
theorem exists_rest_of_running (hp : p.Pure) (hself : inner.Replicable p σ) (ht : t.slots = σ)
    (hread : StepReads p m e fuel d (.running inner k) pos t out (.ok ())) :
    ∃ innerOut rest fuel' pos' t', Toured p N m σ inner innerOut (.ok ()) ∧ t'.slots = σ ∧
      out = (innerOut.map Prod.fst).zipIdx (pos + 1) ++ rest ∧
      StepReads p m e fuel' d .idle pos' t' rest (.ok ()) := by
  induction out generalizing inner fuel k pos t with
  | nil =>
    obtain ⟨inner', t', fuel', hself', ht', ⟨hpull, hread⟩ | ⟨_, _, -, -, hout, -⟩⟩ :=
      running_cases hp hself ht hread
    · exact ⟨[], [], fuel', pos, t', .ended ht hpull, ht', rfl, hread⟩
    · cases hout
  | cons y out ih =>
    obtain ⟨inner', t', fuel', hself', ht', ⟨hpull, hread⟩ | ⟨i, out', hpull, hcurrent, hout, hread⟩⟩ :=
      running_cases hp hself ht hread
    · exact ⟨[], y :: out, fuel', pos, t', .ended ht hpull, ht', rfl, hread⟩
    · obtain ⟨rfl, rfl⟩ := cons.inj hout
      obtain ⟨innerOut, rest, fuel', pos', t'', htour, ht'', rfl, hread'⟩ := ih hself' ht' hread
      exact ⟨_, rest, fuel', pos', t'', htour.item ht hpull hcurrent, ht'', rfl, hread'⟩

/-- What has been read is a group for each item of the source. -/
theorem delivers_of_reading (hp : p.Pure) (hm : B ≤ m) (hroom : ins.length < B) (hd : d.Replicable p σ)
    (hsupplies : Supplies p B σ d ins (.ok ())) (ht : t.slots = σ)
    (hread : StepReads p m e fuel d .idle pos t out (.ok ())) :
    ∃ groups, List.Forall₂ (p.Delivers σ e) (foci ins) groups ∧ out = inGroups groups := by
  induction ins generalizing d t fuel pos out with
  | nil =>
    cases fuel with
    | zero => cases hread
    | succ fuel =>
      obtain ⟨d', t', hpull, -⟩ := hsupplies.next_end hp hm ht
      unfold StepReads at hread
      rw [bodyNext_of_end hpull] at hread
      cases hread
      exact ⟨[], .nil, rfl⟩
  | cons x ins ih =>
    obtain ⟨i, k⟩ := x
    cases fuel with
    | zero => cases hread
    | succ fuel =>
      obtain ⟨d', t₁, hpull, ht₁, -, hcurrent, hposition, hrest⟩ := hsupplies.next_item hp hm ht
      subst hposition
      obtain ⟨hd', -⟩ := hd.next hp ht hpull
      have hmirrors : Mirrors p B σ ⟨some i, d'.position, groupEnd d'.position ins (.ok ())⟩ (.current d') :=
        .current hd' hcurrent rfl hrest (Nat.lt_of_succ_lt hroom) rfl
      cases hexec : (lexicalMachine m p).execute e (.current d') { t₁ with groupSize := none } with
      | none =>
        have hstart : (lexicalMachine m p).startStep e d' t₁ = none := by
          rw [Calls.startStep_apply, hexec]
          rfl
        have hstuck : (lexicalMachine m p).bodyNext ((lexicalMachine m p).startStep e) true (.step e)
            (fuel + 1) d .idle pos t = none := by
          refine (Run.bind_of_some hpull).trans ?_
          change ((lexicalMachine m p).startStep e d' t₁).bind _ = none
          rw [hstart]
          rfl
        unfold StepReads at hread
        rw [hstuck] at hread
        cases hread
      | some y =>
        obtain ⟨x, t₂⟩ := y
        unfold StepReads at hread
        rw [bodyNext_of_item hpull hexec] at hread
        obtain ⟨ht₂, hinner⟩ :=
          execute_replicable (s := { t₁ with groupSize := none }) hp hd'.foci ht₁ hexec
        cases x with
        | error err => cases hread
        | ok inner =>
          obtain ⟨N, hself⟩ := hinner inner rfl
          obtain ⟨innerOut, rest, fuel', pos', t', htour, ht', rfl, hread'⟩ :=
            exists_rest_of_running hp ⟨N, hself⟩
              (t := { t₂ with groupSize := t₁.groupSize }) ht₂ hread
          obtain ⟨groups, hgroups, rfl⟩ := ih (Nat.lt_of_succ_lt hroom) hd' hrest ht' hread'
          have hyields := htour.yields hp (Nat.le_max_right N m) (hself.mono (Nat.le_max_left N m))
          have hvalue := Program.delivers_of_execute (t := { t₁ with groupSize := none }) hp hmirrors ht₁
            (Snapshot.fits_none _) hexec hyields
          exact ⟨_ :: groups, .cons hvalue hgroups, rfl⟩

end

theorem Cursor.Replicable.through (h : c.Replicable p σ) : (Cursor.through e c).Replicable p σ := by
  obtain ⟨N, h⟩ := h
  exact ⟨N, .loop 0 false (Envs.level_some rfl) (.inl rfl) (Terms.sameLoop_deeper p (.step e)) h⟩

theorem yields_through_iff (hp : p.Pure) (hc : c.Replicable p σ) (hins : c.Yields p σ ins (.ok ())) :
    (Cursor.through e c).Yields p σ out (.ok ()) ↔
      ∃ groups, List.Forall₂ (p.Delivers σ e) (foci ins) groups ∧ out = inGroups groups := by
  obtain ⟨n, s, hs, hreads⟩ := hins
  obtain ⟨B, hsupplies⟩ := hreads.supplies hp hc hs
  have hroom : ins.length < max B (ins.length + 1) := by omega
  have hsupplies' := hsupplies.mono (Nat.le_max_left B (ins.length + 1))
  constructor
  · intro h
    obtain ⟨N, hN⟩ := h.exists_depth hp hc.through
    have hread := hN (max N (max B (ins.length + 1)) + 1) (by omega) (.ofSlots σ) rfl
    exact delivers_of_reading hp (by omega) hroom hc hsupplies' rfl hread
  · rintro ⟨groups, hgroups, rfl⟩
    obtain ⟨M, hM⟩ := reading_bodyNext hp hgroups hroom
    refine ⟨max M (2 * ins.length + 2) + 1, .ofSlots σ, rfl, ?_⟩
    have hfuel : 2 * ins.length + 1 ≤ (lexicalMachine (max M (2 * ins.length + 2)) p).fuel := by
      rw [lexicalMachine, fuel_machineWith]
      omega
    exact hM _ (by omega) c _ _ 0 hc hsupplies' rfl hfuel

/-! ## Nodes only -/

theorem nodesOnlyNext_of_node (hpull : M.next c s = some ((c', .ok true), s'))
    (hi : c'.current = some i) (hnode : i.isNode = true) :
    M.nodesOnlyNext c s = some ((.nodesOnly c' false, .ok true), s') := by
  refine (Run.bind_of_some hpull).trans ?_
  dsimp only
  rw [hi]
  cases i with
  | atomic a => cases hnode
  | node x => rfl

theorem reads_requireNodes_iff : (lexicalMachine (n + 1) p).Reads (.requireNodes c) s out (.ok ()) ↔
      (lexicalMachine n p).Reads c s out (.ok ()) ∧ ∀ x ∈ out, x.1.isNode = true := by
  constructor
  · intro h
    have hread : (lexicalMachine (n + 1) p).Reading ((lexicalMachine n p).nodesOnlyNext c s) out (.ok ()) := h
    clear h
    unfold Calls.Reads
    generalize hx : (lexicalMachine n p).nodesOnlyNext c s = x at hread
    generalize hok : (Except.ok () : Except Error Unit) = ok at hread
    induction hread generalizing c s with
    | ended =>
      obtain ⟨c', hpull, -⟩ := of_nodesOnlyNext hx
      rw [hpull]
      exact ⟨.ended, nofun⟩
    | failed => cases hok
    | item hcurrent rest ih =>
      obtain ⟨c', hpull, hitem⟩ := of_nodesOnlyNext hx
      obtain ⟨rfl, hnode⟩ := hitem rfl
      obtain ⟨hread, hall⟩ := ih rfl hok
      rw [hpull]
      exact ⟨.item hcurrent hread, forall_mem_cons.mpr ⟨hnode _ hcurrent, hall⟩⟩
  · rintro ⟨h, hall⟩
    change (lexicalMachine (n + 1) p).Reading ((lexicalMachine n p).nodesOnlyNext c s) out (.ok ())
    unfold Calls.Reads at h
    generalize hx : (lexicalMachine n p).next c s = x at h
    generalize (Except.ok () : Except Error Unit) = ok at h
    induction h generalizing c s with
    | ended | failed =>
      rw [show (lexicalMachine n p).nodesOnlyNext c s = _ from Run.bind_of_some hx]
      constructor
    | @item c' s' i out _ hcurrent rest ih =>
      obtain ⟨hi, hall⟩ := forall_mem_cons.mp hall
      rw [nodesOnlyNext_of_node hx hcurrent hi]
      exact .item hcurrent (ih hall rfl)

theorem yields_requireNodes_iff : (Cursor.requireNodes c).Yields p σ out (.ok ()) ↔
      c.Yields p σ out (.ok ()) ∧ ∀ x ∈ out, x.1.isNode = true := by
  constructor
  · rintro ⟨n, s, hs, hreads⟩
    cases n with
    | zero => cases hreads
    | succ n =>
      obtain ⟨hreads, hall⟩ := reads_requireNodes_iff.mp hreads
      exact ⟨⟨n, s, hs, hreads⟩, hall⟩
  · rintro ⟨⟨n, s, hs, hreads⟩, hall⟩
    exact ⟨n + 1, s, hs, reads_requireNodes_iff.mpr ⟨hreads, hall⟩⟩

/-! ## Groups -/

def present (groups : List (List Item)) : List (List Item) :=
  groups.filter fun g => !g.isEmpty

theorem ne_nil_of_mem_present : ∀ g ∈ present groups, g ≠ [] := by
  intro g hg
  have := (mem_filter.mp hg).2
  rintro rfl
  cases this

@[simp]
theorem inGroups_present (groups : List (List Item)) : inGroups (present groups) = inGroups groups := by
  induction groups with
  | nil => rfl
  | cons g groups ih =>
    cases g with
    | nil => exact ih
    | cons i g => exact congrArg ((i :: g).zipIdx 1 ++ ·) ih

theorem flatten_present (groups : List (List Item)) : (present groups).flatten = groups.flatten := by
  induction groups with
  | nil => rfl
  | cons g groups ih =>
    cases g with
    | nil => exact ih
    | cons i g => exact congrArg ((i :: g) ++ ·) ih

theorem map_fst_inGroups (groups : List (List Item)) : (inGroups groups).map Prod.fst = groups.flatten := by
  induction groups with
  | nil => rfl
  | cons g groups ih => rw [inGroups_cons, map_append, ih, zipIdx_map_fst, flatten_cons]

theorem snd_of_inGroups_eq_cons (hgroups : ∀ g ∈ groups, g ≠ []) (h : inGroups groups = x :: rest) : x.2 = 1 := by
  cases groups with
  | nil => cases h
  | cons g groups =>
    obtain ⟨i, g, rfl⟩ := exists_cons_of_ne_nil (hgroups g (.head _))
    exact (congrArg Prod.snd (cons.inj h).1).symm

/-- A group goes on as long as positions do. -/
theorem zipIdx_append_inj (ha : ∀ g ∈ a, g ≠ []) (hb : ∀ g ∈ b, g ≠ []) (hk : 2 ≤ k)
    (h : g.zipIdx k ++ inGroups a = g'.zipIdx k ++ inGroups b) : g = g' ∧ inGroups a = inGroups b := by
  induction g generalizing g' k with
  | nil =>
    cases g' with
    | nil => exact ⟨rfl, h⟩
    | cons i g' =>
      have := snd_of_inGroups_eq_cons ha h
      omega
  | cons i g ih =>
    cases g' with
    | nil =>
      have := snd_of_inGroups_eq_cons hb h.symm
      omega
    | cons j g' =>
      rw [zipIdx_cons, zipIdx_cons, cons_append, cons_append] at h
      obtain ⟨hij, hrest⟩ := cons.inj h
      obtain ⟨rfl, hin⟩ := ih (Nat.le_succ_of_le hk) hrest
      exact ⟨congrArg (· :: g) (congrArg Prod.fst hij), hin⟩

/-- The positions tell the groups. -/
theorem inGroups_inj (ha : ∀ g ∈ a, g ≠ []) (hb : ∀ g ∈ b, g ≠ []) (h : inGroups a = inGroups b) : a = b := by
  induction a generalizing b with
  | nil =>
    cases b with
    | nil => rfl
    | cons g b =>
      obtain ⟨i, g, rfl⟩ := exists_cons_of_ne_nil (hb g (.head _))
      cases h
  | cons g a ih =>
    obtain ⟨hg, ha'⟩ := forall_mem_cons.mp ha
    obtain ⟨i, g, rfl⟩ := exists_cons_of_ne_nil hg
    cases b with
    | nil => cases h
    | cons g' b =>
      obtain ⟨hg', hb'⟩ := forall_mem_cons.mp hb
      obtain ⟨j, g', rfl⟩ := exists_cons_of_ne_nil hg'
      obtain ⟨hij, hrest⟩ := cons.inj h
      obtain ⟨rfl, hin⟩ := zipIdx_append_inj ha' hb' .refl hrest
      rw [ih ha' hb' hin, (Prod.mk.inj hij).1]

theorem inGroups_map_node (groups : List (List Node)) :
    groups.flatMap (numbered 1) = inGroups (groups.map (·.map .node)) := by
  rw [inGroups, flatMap_map]
  rfl

theorem inGroups_singletons (items : List Item) : items.map (·, 1) = inGroups (items.map ([·])) := by
  rw [inGroups, flatMap_map]
  exact (flatMap_pure_eq_map _ _).symm

def fociOf (g : List Item) : List Snapshot :=
  (g.zipIdx 1).map fun x => ⟨some x.1, x.2, .ok g.length⟩

theorem foci_inGroups (hgroups : ∀ g ∈ groups, g ≠ []) : foci (inGroups groups) = groups.flatMap fociOf := by
  induction groups with
  | nil => rfl
  | cons g groups ih =>
    obtain ⟨-, hgroups⟩ := forall_mem_cons.mp hgroups
    have hgroup : ∀ (g : List Item) (k size : Nat), k + g.length = size →
        foci (g.zipIdx (k + 1) ++ inGroups groups) =
          (g.zipIdx (k + 1)).map (fun x => ⟨some x.1, x.2, .ok size⟩) ++ foci (inGroups groups) := by
      intro g
      induction g with
      | nil => exact fun _ _ _ => rfl
      | cons i g ihg =>
        intro k size hsize
        rw [length_cons] at hsize
        have hend := groupEnd_zipIdx (g := g) (r := .ok ()) hgroups (Nat.le_add_left 1 k)
        have hlength : k + 1 + g.length = size := by omega
        rw [zipIdx_cons, cons_append, foci, ihg (k + 1) size hlength, hend, hlength]
        congr 2
        split <;> rfl
    rw [inGroups_cons, hgroup g 0 g.length (Nat.zero_add _), ih hgroups, flatMap_cons]
    rfl

/-! ## Steps -/

/-- The nodes that a step along an axis finds from a node. -/
def Axis.Reaches (axis : Axis) (test : NodeTest) (n : Node) : List Node → Prop :=
  Exhausts (Walk.next? (test.accepts · axis.principalKind)) (.start axis (test.kind? axis.principalKind) n)

/-- The nodes that a descent through the tests finds below a node. -/
def DescentReaches (tests : List NodeTest) (n : Node) : List Node → Prop :=
  Exhausts (descentStep tests) (some ⟨n, 0⟩)

def FansOut (R : Node → List Node → Prop) (ins outs : List (List Item)) : Prop :=
  ∃ nodes groups, ins.flatten = nodes.map .node ∧ List.Forall₂ R nodes groups ∧
    outs = present (groups.map (·.map .node))

/-- What a step makes of the groups before it. -/
def Step.Turns (p : Program) (σ : Slots) : Step → List (List Item) → List (List Item) → Prop
  | .axis a test, ins, outs => FansOut (a.Reaches (test.getD .anyNode)) ins outs
  | .descent tests, ins, outs => FansOut (DescentReaches tests) ins outs
  | .position k, ins, outs => outs = (ins.filterMap (ordinal · k)).map ([·])
  | .predicate e, ins, outs => ∃ lefts,
      List.Forall₂ (fun g left => LeavesOf (p.Decides σ e) (.ok g.length) 1 g left (.ok ())) ins lefts ∧
        outs = present lefts
  | .expr e nodesOnly, ins, outs => ∃ groups,
      List.Forall₂ (p.Delivers σ e) (ins.flatMap fociOf) groups ∧ outs = present groups ∧
        (nodesOnly = true → ∀ g ∈ outs, ∀ i ∈ g, i.isNode = true)

structure Cursor.Gives (p : Program) (σ : Slots) (c : Cursor) (groups : List (List Item)) : Prop where
  present : ∀ g ∈ groups, g ≠ []
  yields : c.Yields p σ (inGroups groups) (.ok ())

/-- A cursor from which nothing has been pulled and of which copies can be made. -/
structure Cursor.Ready (p : Program) (σ : Slots) (c : Cursor) : Prop where
  self : c.Replicable p σ
  tidy : c.Tidy
  position : c.position = 0

theorem Cursor.Primed.ready {scope : List Binding} (h : c.Primed p Fit scope lo hi) : c.Ready p σ :=
  ⟨⟨0, h.standsFor 0 σ⟩, h.tidy, h.position⟩

theorem Cursor.Ready.gives (h : c.Ready p σ) (hyields : c.Yields p σ out (.ok ())) :
    ∃ groups, c.Gives p σ groups ∧ out = inGroups groups := by
  have hyields' := hyields
  obtain ⟨n, s, -, hreads⟩ := hyields'
  have hcounted := hreads.counted h.tidy
  rw [h.position] at hcounted
  obtain ⟨groups, hgroups, rfl⟩ := hcounted.exists_groups
  exact ⟨groups, ⟨hgroups, hyields⟩, rfl⟩

theorem Cursor.Ready.instantiate (h : c.Ready p σ) (step : Step) : (Calls.instantiate true c step).Ready p σ := by
  obtain ⟨⟨N, hself⟩, htidy, hposition⟩ := h
  have hmade : StandsFor p N σ σ (Calls.instantiate true c step) (Calls.instantiate true c step) :=
    Alike.instantiate (fun _ _ _ _ => rfl) (Envs.level_some rfl) hself (.refl (fun _ => rfl) step)
  cases step with
  | expr e nodesOnly => cases nodesOnly <;> exact ⟨⟨N, hmade⟩, nofun, rfl⟩
  | _ => exact ⟨⟨N, hmade⟩, nofun, rfl⟩

theorem gives_wander_iff (ω : Wander) (hp : p.Pure) (hc : c.Ready p σ)
    (hself : (ω.wrap c ω.stop none 0 false).Replicable p σ) : (ω.wrap c ω.stop none 0 false).Gives p σ outs ↔
      ∃ ins, c.Gives p σ ins ∧ FansOut (fun n => Exhausts ω.step (ω.start n)) ins outs := by
  constructor
  · rintro ⟨houts, hyields⟩
    have hrelays : ∀ N n, Relays p N n σ fun w c => WalksFrom ω w c ∧ True := by
      rintro N n _ _ _ _ _ ⟨⟨walk, cur, pos, rfl⟩, -⟩ hc hs hx
      rw [lexicalMachine, ω.machine] at hx
      exact (ω.drawn (fun _ hpull => ⟨trivial, current_of_next hpull rfl⟩) trivial hx).movesOn hp hc hs
    obtain ⟨_, hins⟩ := Relays.yields hp hrelays ⟨⟨ω.stop, none, 0, rfl⟩, trivial⟩ hc.self hyields
    obtain ⟨ins, hgives, rfl⟩ := hc.gives hins
    obtain ⟨nodes, groups, hnodes, hgroups, heq⟩ := (yields_wander_iff hp hc.self hins hself).mp hyields
    rw [inGroups_map_node] at heq
    rw [map_fst_inGroups] at hnodes
    exact ⟨ins, hgives, nodes, groups, hnodes, hgroups,
      inGroups_inj houts ne_nil_of_mem_present (heq.trans (inGroups_present _).symm)⟩
  · rintro ⟨ins, hgives, nodes, groups, hnodes, hgroups, rfl⟩
    refine ⟨ne_nil_of_mem_present, (yields_wander_iff hp hc.self hgives.yields hself).mpr ?_⟩
    refine ⟨nodes, groups, (map_fst_inGroups ins).trans hnodes, hgroups, ?_⟩
    rw [inGroups_present, inGroups_map_node]

theorem gives_pick_iff (hp : p.Pure) (hc : c.Ready p σ) : (Cursor.pick k true c).Gives p σ outs ↔
      ∃ ins, c.Gives p σ ins ∧ outs = (ins.filterMap (ordinal · k)).map ([·]) := by
  have hpicked : ∀ {ins : List (List Item)}, c.Gives p σ ins →
      (Cursor.pick k true c).Yields p σ (inGroups ((ins.filterMap (ordinal · k)).map ([·]))) (.ok ()) := by
    intro ins hgives
    obtain ⟨N, hN⟩ := hgives.yields.exists_depth hp hc.self
    have hreads := reads_pick_perGroup (k := k) hgives.present
      (hN (max N ((inGroups ins).length + 2)) (by omega) (.ofSlots σ) rfl) (by omega)
    rw [inGroups_singletons] at hreads
    exact ⟨_, _, rfl, hreads⟩
  have hsingle : ∀ {items : List Item}, ∀ g ∈ items.map ([·]), g ≠ [] := by
    intro items g hg
    obtain ⟨i, -, rfl⟩ := mem_map.mp hg
    exact cons_ne_nil i []
  constructor
  · rintro ⟨houts, hyields⟩
    obtain ⟨_, hins⟩ := Relays.yields hp
      (fun _ _ _ _ _ _ _ hw hc hs hx => (drawn_picksFrom hw hx).movesOn hp hc hs) ⟨0, false, 0, rfl⟩ hc.self hyields
    obtain ⟨ins, hgives, rfl⟩ := hc.gives hins
    obtain ⟨heq, -⟩ := (hpicked hgives).unique hp (hc.instantiate (.position k)).self hyields
    exact ⟨ins, hgives, (inGroups_inj hsingle houts heq).symm⟩
  · rintro ⟨ins, hgives, rfl⟩
    exact ⟨hsingle, hpicked hgives⟩

theorem leavesOfGroups_iff_forall₂ {ins lefts : List (List Item)} : LeavesOfGroups V (.ok ()) ins lefts (.ok ()) ↔
      List.Forall₂ (fun g left => LeavesOf V (.ok g.length) 1 g left (.ok ())) ins lefts := by
  have hsize : ∀ (g : List Item) groups, groupSize g groups (.ok ()) = .ok g.length := by
    intro g groups
    unfold groupSize
    split <;> rfl
  constructor
  · intro h
    induction ins generalizing lefts with
    | nil =>
      cases h
      exact .nil
    | cons g ins ih =>
      cases h with
      | group h rest => exact .cons (hsize _ _ ▸ h) (ih rest)
  · intro h
    induction h with
    | nil => exact .done
    | cons h rest ih => exact .group (hsize _ _ ▸ h) ih

theorem gives_filter_iff (hp : p.Pure) (hr : p.Reliable) (hc : c.Ready p σ) : (Cursor.filter e c).Gives p σ outs ↔
      ∃ ins, c.Gives p σ ins ∧ ∃ lefts,
        List.Forall₂ (fun g left => LeavesOf (p.Decides σ e) (.ok g.length) 1 g left (.ok ())) ins lefts ∧
          outs = present lefts := by
  constructor
  · rintro ⟨houts, hyields⟩
    obtain ⟨_, hins⟩ := Relays.yields hp (fun N n => relays_filtersBy hp N n) ⟨0, none, none, 0, rfl⟩
      hc.self hyields
    obtain ⟨ins, hgives, rfl⟩ := hc.gives hins
    have hthrough := (yields_filter_iff hp hr hc.self hins).mp hyields
    obtain ⟨lefts, hlefts, heq⟩ := (letThrough_inGroups_iff hgives.present).mp hthrough
    exact ⟨ins, hgives, lefts, leavesOfGroups_iff_forall₂.mp hlefts,
      inGroups_inj houts ne_nil_of_mem_present (heq.trans (inGroups_present _).symm)⟩
  · rintro ⟨ins, hgives, lefts, hlefts, rfl⟩
    refine ⟨ne_nil_of_mem_present, (yields_filter_iff hp hr hc.self hgives.yields).mpr ?_⟩
    exact (letThrough_inGroups_iff hgives.present).mpr
      ⟨lefts, leavesOfGroups_iff_forall₂.mpr hlefts, inGroups_present lefts⟩

theorem gives_through_iff (hp : p.Pure) (hc : c.Ready p σ) : (Cursor.through e c).Gives p σ outs ↔
      ∃ ins, c.Gives p σ ins ∧ ∃ groups, List.Forall₂ (p.Delivers σ e) (ins.flatMap fociOf) groups ∧
        outs = present groups := by
  constructor
  · rintro ⟨houts, hyields⟩
    obtain ⟨_, hins⟩ := Relays.yields hp (fun N n => relays_goesThrough hp N n)
      ⟨.idle, 0, rfl, nofun⟩ hc.self hyields
    obtain ⟨ins, hgives, rfl⟩ := hc.gives hins
    obtain ⟨groups, hgroups, heq⟩ := (yields_through_iff hp hc.self hins).mp hyields
    rw [foci_inGroups hgives.present] at hgroups
    exact ⟨ins, hgives, groups, hgroups,
      inGroups_inj houts ne_nil_of_mem_present (heq.trans (inGroups_present _).symm)⟩
  · rintro ⟨ins, hgives, groups, hgroups, rfl⟩
    refine ⟨ne_nil_of_mem_present, (yields_through_iff hp hc.self hgives.yields).mpr ?_⟩
    rw [foci_inGroups hgives.present]
    exact ⟨groups, hgroups, inGroups_present groups⟩

theorem gives_requireNodes_iff : (Cursor.requireNodes c).Gives p σ outs ↔
      c.Gives p σ outs ∧ ∀ g ∈ outs, ∀ i ∈ g, i.isNode = true := by
  have hall : (∀ x ∈ inGroups outs, x.1.isNode = true) ↔ ∀ g ∈ outs, ∀ i ∈ g, i.isNode = true := by
    constructor
    · intro h g hg i hi
      have hmem : i ∈ (inGroups outs).map Prod.fst := by
        rw [map_fst_inGroups]
        exact mem_flatten.mpr ⟨g, hg, hi⟩
      obtain ⟨x, hx, rfl⟩ := mem_map.mp hmem
      exact h x hx
    · intro h x hx
      have hmem := mem_map_of_mem (f := Prod.fst) hx
      rw [map_fst_inGroups] at hmem
      obtain ⟨g, hg, hi⟩ := mem_flatten.mp hmem
      exact h g hg _ hi
  constructor
  · rintro ⟨houts, hyields⟩
    obtain ⟨hyields, hnodes⟩ := yields_requireNodes_iff.mp hyields
    exact ⟨⟨houts, hyields⟩, hall.mp hnodes⟩
  · rintro ⟨⟨houts, hyields⟩, hnodes⟩
    exact ⟨houts, yields_requireNodes_iff.mpr ⟨hyields, hall.mpr hnodes⟩⟩

/-- A step delivers what it makes of the groups that its input delivers. -/
theorem gives_instantiate_iff (hp : p.Pure) (hr : p.Reliable) (hc : c.Ready p σ) :
    (Calls.instantiate true c step).Gives p σ outs ↔ ∃ ins, c.Gives p σ ins ∧ step.Turns p σ ins outs := by
  have hself := (hc.instantiate step).self
  cases step with
  | axis axis test => exact gives_wander_iff (.axis axis (test.getD .anyNode)) hp hc hself
  | descent tests => exact gives_wander_iff (.descent tests) hp hc hself
  | position k => exact gives_pick_iff hp hc
  | predicate e => exact gives_filter_iff hp hr hc
  | expr e nodesOnly =>
    cases nodesOnly with
    | false =>
      refine (gives_through_iff hp hc).trans ?_
      simp only [Step.Turns, Bool.false_eq_true, false_imp_iff, and_true]
    | true =>
      refine gives_requireNodes_iff.trans ?_
      rw [gives_through_iff hp hc]
      constructor
      · rintro ⟨⟨ins, hgives, groups, hgroups, rfl⟩, hnodes⟩
        exact ⟨ins, hgives, groups, hgroups, rfl, fun _ => hnodes⟩
      · rintro ⟨ins, hgives, groups, hgroups, rfl, hnodes⟩
        exact ⟨⟨ins, hgives, groups, hgroups, rfl⟩, hnodes rfl⟩

inductive TurnAll (p : Program) (σ : Slots) : List Step → List (List Item) → List (List Item) → Prop
  | nil {groups : List (List Item)} : TurnAll p σ [] groups groups
  | cons {step : Step} {steps : List Step} {ins mid outs : List (List Item)} (first : step.Turns p σ ins mid)
      (rest : TurnAll p σ steps mid outs) : TurnAll p σ (step :: steps) ins outs

/-- A chain delivers what its steps make of the groups that it starts from. -/
theorem gives_chain_iff (hp : p.Pure) (hr : p.Reliable) (hc : c.Ready p σ) :
    (Calls.chain true c steps).Gives p σ outs ↔ ∃ ins, c.Gives p σ ins ∧ TurnAll p σ steps ins outs := by
  induction steps generalizing c with
  | nil =>
    constructor
    · exact fun h => ⟨outs, h, .nil⟩
    · rintro ⟨ins, hgives, h⟩
      cases h
      exact hgives
  | cons step steps ih =>
    refine (ih (hc.instantiate step)).trans ?_
    constructor
    · rintro ⟨mid, hmid, hrest⟩
      obtain ⟨ins, hgives, hfirst⟩ := (gives_instantiate_iff hp hr hc).mp hmid
      exact ⟨ins, hgives, .cons hfirst hrest⟩
    · rintro ⟨ins, hgives, h⟩
      cases h with
      | cons hfirst hrest => exact ⟨_, (gives_instantiate_iff hp hr hc).mpr ⟨ins, hgives, hfirst⟩, hrest⟩

/-! ## Chains have one result -/

theorem Exhausts.unique {g g' : List Node} (h : Exhausts step w g) (h' : Exhausts step w g') : g = g' := by
  induction h generalizing g' with
  | nothing hw =>
    cases h' with
    | nothing => rfl
    | found hw' => rw [hw] at hw'; cases hw'
  | found hw rest ih =>
    cases h' with
    | nothing hw' => rw [hw] at hw'; cases hw'
    | found hw' rest' =>
      rw [hw] at hw'
      cases hw'
      rw [ih rest']

theorem FansOut.unique (hR : Relator.RightUnique R) {ins : List (List Item)}
    (h : FansOut R ins outs) (h' : FansOut R ins outs') : outs = outs' := by
  obtain ⟨nodes, groups, hnodes, hgroups, rfl⟩ := h
  obtain ⟨nodes', groups', hnodes', hgroups', rfl⟩ := h'
  obtain rfl := (map_injective_iff.mpr fun _ _ => Item.node.inj) (hnodes.symm.trans hnodes')
  rw [hR.forall₂ hgroups hgroups']

theorem LeavesOf.unique (hV : ∀ {snap x x'}, V snap x → V snap x' → x = x') (h : LeavesOf V size k g left r)
    (h' : LeavesOf V size k g left' r') : left = left' := by
  induction h generalizing left' r' with
  | done =>
    cases h'
    rfl
  | failed h =>
    cases h' with
    | failed => rfl
    | kept h' | dropped h' => cases hV h h'
  | kept h accepts rest ih =>
    cases h' with
    | failed h' => cases hV h h'
    | kept h' accepts' rest' => rw [ih rest']
    | dropped h' accepts' =>
      cases hV h h'
      cases accepts.symm.trans accepts'
  | dropped h accepts rest ih =>
    cases h' with
    | failed h' => cases hV h h'
    | kept h' accepts' =>
      cases hV h h'
      cases accepts.symm.trans accepts'
    | dropped h' accepts' rest' => exact ih rest'

theorem Step.Turns.unique (hp : p.Pure) {step : Step} {ins : List (List Item)} (h : step.Turns p σ ins outs)
    (h' : step.Turns p σ ins outs') : outs = outs' := by
  cases step with
  | axis a test => exact FansOut.unique (R := a.Reaches (test.getD .anyNode)) (fun _ _ _ => Exhausts.unique) h h'
  | descent tests => exact FansOut.unique (R := DescentReaches tests) (fun _ _ _ => Exhausts.unique) h h'
  | position k => exact Eq.trans h (Eq.symm h')
  | predicate e =>
    obtain ⟨lefts, hlefts, rfl⟩ := h
    obtain ⟨lefts', hlefts', rfl⟩ := h'
    have hunique : Relator.RightUnique fun (g left : List Item) =>
        LeavesOf (p.Decides σ e) (.ok g.length) 1 g left (.ok ()) :=
      fun _ _ _ => LeavesOf.unique fun h h' => h.unique hp h'
    rw [hunique.forall₂ hlefts hlefts']
  | expr e nodesOnly =>
    obtain ⟨groups, hgroups, rfl, -⟩ := h
    obtain ⟨groups', hgroups', rfl, -⟩ := h'
    have hunique : Relator.RightUnique (p.Delivers σ e) := fun _ _ _ h h' => h.unique hp h'
    rw [hunique.forall₂ hgroups hgroups']

theorem TurnAll.unique (hp : p.Pure) {ins : List (List Item)} (h : TurnAll p σ steps ins outs)
    (h' : TurnAll p σ steps ins outs') : outs = outs' := by
  induction h with
  | nil =>
    cases h'
    rfl
  | cons first rest ih =>
    cases h' with
    | cons first' rest' =>
      obtain rfl := first.unique hp first'
      exact ih rest'

theorem turnAll_append_iff {ins : List (List Item)} :
    TurnAll p σ (before ++ steps) ins outs ↔ ∃ mid, TurnAll p σ before ins mid ∧ TurnAll p σ steps mid outs := by
  induction before generalizing ins with
  | nil =>
    constructor
    · exact fun h => ⟨ins, .nil, h⟩
    · rintro ⟨_, ⟨⟩, h⟩
      exact h
  | cons step before ih =>
    constructor
    · rintro (_ | ⟨hfirst, h⟩)
      obtain ⟨mid, hbefore, hafter⟩ := ih.mp h
      exact ⟨mid, .cons hfirst hbefore, hafter⟩
    · rintro ⟨mid, _ | ⟨hfirst, hbefore⟩, hafter⟩
      exact .cons hfirst (ih.mpr ⟨mid, hbefore, hafter⟩)

end XPath
