import XPath.Proofs.Groups

/-!
# Inputs that are read to the end

A filter that has been read to its end has read its input to the end, though other things may have been
evaluated between two pulls of the input. In environments that makes no difference: the input can be read by
itself (`Toured.yields`). `Relays` says of a kind of cursor how its pulls move its input, and from that it
follows that the input has come to its end when the cursor has (`Relays.toured`).
-/

namespace XPath

variable {keeper : Program → Variables} {p : Program} {N n : Nat} {σ : Slots} {c c' d w w' : Cursor}
  {s s' t t' : Store} {e : ExprId} {out : List (Item × Nat)} {r : Except Error Unit} {i : Item} {x : Pulled}
  {Own : Error → Prop} {W : Cursor → Cursor → Prop}

/-- The cursor can be pulled at depth `n`, each time in a store with the slots, until it delivers no more. -/
def Toured (p : Program) (N n : Nat) (σ : Slots) (c : Cursor) (out : List (Item × Nat))
    (r : Except Error Unit) : Prop :=
  ∃ B, Tour p N n B σ c out r

namespace Toured

theorem ended (hs : s.slots = σ) (hpull : (lexicalMachine n p).next c s = some ((c', .ok false), s')) :
    Toured p N n σ c [] (.ok ()) :=
  ⟨_, .ended .refl hs hpull⟩

theorem item (hs : s.slots = σ) (hpull : (lexicalMachine n p).next c s = some ((c', .ok true), s'))
    (hi : c'.current = some i) (h : Toured p N n σ c' out r) : Toured p N n σ c ((i, c'.position) :: out) r := by
  obtain ⟨B, h⟩ := h
  exact ⟨_, .item (Nat.le_max_left (N + sizeOf c) B) hs hpull hi (h.mono (Nat.le_max_right _ B))⟩

theorem yields (hp : p.Pure) (hn : n ≤ N) (hself : StandsFor p N σ σ c c) (h : Toured p N n σ c out r) :
    c.Yields p σ out r := by
  obtain ⟨B, h⟩ := h
  have hsupplies : Supplies p B σ c out r := ⟨σ, c, N, n, hn, hself, h⟩
  exact ⟨B, .ofSlots σ, rfl, hsupplies.reads hp .refl rfl⟩

end Toured

/-- How a pull has moved the input of a cursor, where `W` relates cursors to their inputs. If it gives an
item, the input has been moved on by pulls in stores with the slots; if it gives the end, to its end. -/
def MovesOn (p : Program) (N n : Nat) (σ : Slots) (W : Cursor → Cursor → Prop) (d : Cursor) (x : Pulled)
    (t : Store) : Prop :=
  match x.2 with
  | .ok true => t.slots = σ ∧ ∃ d', W x.1 d' ∧ d'.Replicable p σ ∧
      ∀ {out r}, Toured p N n σ d' out r → ∃ out', Toured p N n σ d out' r
  | .ok false => ∃ out, Toured p N n σ d out (.ok ())
  | .error _ => True

def Relays (p : Program) (N n : Nat) (σ : Slots) (W : Cursor → Cursor → Prop) : Prop :=
  ∀ {w d : Cursor} {t : Store} {x : Pulled} {t' : Store}, W w d → d.Replicable p σ → t.slots = σ →
    (lexicalMachine (n + 1) p).next w t = some (x, t') → MovesOn p N n σ W d x t'

theorem Relays.toured (h : Relays p N n σ W) (hw : W w d)
    (hd : d.Replicable p σ) (ht : t.slots = σ) (hreads : (lexicalMachine (n + 1) p).Reads w t out (.ok ())) :
    ∃ ins, Toured p N n σ d ins (.ok ()) := by
  unfold Calls.Reads at hreads
  generalize hx : (lexicalMachine (n + 1) p).next w t = x at hreads
  generalize hr : (Except.ok () : Except Error Unit) = r at hreads
  induction hreads generalizing w d t with
  | ended => exact h hw hd ht hx
  | failed => cases hr
  | item hcurrent rest ih =>
    obtain ⟨ht', d', hw', hd', hback⟩ := h hw hd ht hx
    obtain ⟨ins, hins⟩ := ih hw' hd' ht' rfl hr
    exact hback hins

theorem Relays.yields (hp : p.Pure) (h : ∀ N n, Relays p N n σ W) (hw : W w d) (hd : d.Replicable p σ)
    (hyields : w.Yields p σ out (.ok ())) : ∃ ins, d.Yields p σ ins (.ok ()) := by
  obtain ⟨n, t, ht, hreads⟩ := hyields
  obtain ⟨N, hself⟩ := hd
  cases n with
  | zero => cases hreads
  | succ n =>
    have hn : n ≤ max N n := Nat.le_max_right N n
    obtain ⟨ins, hins⟩ := Relays.toured (h _ n) hw ⟨N, hself⟩ ht hreads
    exact ⟨ins, hins.yields hp hn (hself.mono (Nat.le_max_left N n))⟩

/-! ## Filters -/

/-- Evaluating a predicate leaves the slots as they are. -/
theorem Cursor.Replicable.slots_selection (hp : p.Pure) (h : c.Replicable p σ) (ht : t.slots = σ)
    {x : Except Error Selection} (hrun : (lexicalMachine n p).selection e c t = some (x, t')) : t'.slots = σ := by
  have hselect := selection_steady (hp.deeper.steady (Nat.le_refl n)) rfl (Envs.level_some rfl) (rfl : e = e)
    (fun _ => h.foci) (abreast_deeper ht ht rfl)
  obtain ⟨t'', -, hst⟩ := hselect.ends_same hrun
  exact (hst.pinned σ σ rfl).1

theorem Cursor.Replicable.slots_verdict (hp : p.Pure) (h : c.Replicable p σ) (ht : t.slots = σ) {q : Program}
    {x : Except Error Selection × Option Selection × Option Nat}
    (hrun : (lexicalMachine n p).verdict q e c fixed size t = some (x, t')) : t'.slots = σ := by
  cases fixed with
  | some sel =>
    cases hrun
    exact ht
  | none =>
    rw [Calls.verdict_none] at hrun
    obtain ⟨⟨y, t₁⟩, hselect, heq⟩ := Option.map_eq_some_iff.mp hrun
    have ht₁ : t₁.slots = σ := h.slots_selection (t := { t with groupSize := size }) hp ht hselect
    cases y <;> cases heq <;> exact ht₁

theorem Cursor.Replicable.movesOn (hp : p.Pure) (h : c.Replicable p σ) (ht : t.slots = σ)
    (hpull : (lexicalMachine n p).next c t = some ((c', .ok true), t')) :
    MovesOn p N n σ (fun w d => w = d) c (c', .ok true) t' := by
  obtain ⟨hc', ht'⟩ := h.next hp ht hpull
  have hcurrent := (advances_machineWith Variables.lexical n p hpull).current
  obtain ⟨i, hi⟩ := Option.isSome_iff_exists.mp hcurrent
  exact ⟨ht', c', rfl, hc', fun htour => ⟨_, htour.item ht hpull hi⟩⟩

theorem MovesOn.after (h : MovesOn p N n σ W d x t)
    (hback : ∀ {out r}, Toured p N n σ d out r → ∃ out', Toured p N n σ c out' r) : MovesOn p N n σ W c x t := by
  obtain ⟨w, r⟩ := x
  match r with
  | .ok true =>
    obtain ⟨ht, d', hw, hd', hback'⟩ := h
    refine ⟨ht, d', hw, hd', fun htour => ?_⟩
    obtain ⟨out', htour'⟩ := hback' htour
    exact hback htour'
  | .ok false =>
    obtain ⟨out', htour'⟩ := h
    exact hback htour'
  | .error err => trivial

def FiltersBy (e : ExprId) (w d : Cursor) : Prop :=
  ∃ inputPos fixed size pos, w = .predicate e d inputPos fixed size pos false

theorem relays_filtersBy (hp : p.Pure) (N n : Nat) : Relays p N n σ (FiltersBy e) := by
  rintro w d t x t' ⟨inputPos, fixed, size, pos, rfl⟩ hd ht h
  have hsifts : (lexicalMachine n p).Sifts
      (fun d' t => d'.Replicable p σ ∧ t.slots = σ ∧
        ∀ {out r}, Toured p N n σ d' out r → ∃ out', Toured p N n σ d out' r)
      fun d' t => d'.Replicable p σ ∧ t.slots = σ ∧
        ∀ {out r}, Toured p N n σ d' out r → ∃ out', Toured p N n σ d out' r := by
    refine ⟨?_, fun ⟨hd, ht, hback⟩ hverdict => ⟨hd, hd.slots_verdict hp ht hverdict, hback⟩, id⟩
    rintro d₁ t₁ d₂ t₂ ⟨hd₁, ht₁, hback⟩ hpull
    obtain ⟨ht₂, _, rfl, hd₂, hback'⟩ := hd₁.movesOn hp ht₁ hpull
    refine ⟨hd₂, ht₂, fun htour => ?_⟩
    obtain ⟨out', htour'⟩ := hback' htour
    exact hback htour'
  have hpulled := predicateNext_sifts hsifts ⟨hd, ht, fun htour => ⟨_, htour⟩⟩ h
  obtain ⟨w', r⟩ := x
  match r with
  | .ok true =>
    obtain ⟨d', _, _, _, _, hw', hd', ht', hback⟩ := hpulled
    exact ⟨ht', d', ⟨_, _, _, _, hw'⟩, hd', hback⟩
  | .ok false =>
    obtain ⟨d₁, t₁, _, ⟨-, ht₁, hback⟩, hpull⟩ := hpulled
    exact hback (.ended ht₁ hpull)
  | .error err => trivial

/-! ## Drawing on an input -/

/-- How a pull has drawn on the input, where `W` relates cursors to their inputs: it has taken items from it and
gives one, it has come to the end or the error of the input, or it fails with an error of its own. -/
inductive Calls.Drawn (M : Calls) (W : Cursor → Cursor → Prop) (Own : Error → Prop) (c : Cursor) (s : Store) :
    Pulled → Store → Prop
  | item {d c' : Cursor} {s' : Store} {items : List Item} (taken : M.Takes c s items c' s') (held : W d c') :
      Drawn M W Own c s (d, .ok true) s'
  | stopped {d c₁ c₂ : Cursor} {s₁ s₂ : Store} {items : List Item} {res : Except Error Bool}
      (taken : M.Takes c s items c₁ s₁) (pull : M.next c₁ s₁ = some ((c₂, res), s₂)) (stop : res ≠ .ok true) :
      Drawn M W Own c s (d, res) s₂
  | own {d : Cursor} {s' : Store} {err : Error} (h : Own err) : Drawn M W Own c s (d, .error err) s'

theorem Calls.Drawn.after {M : Calls}
    (hpull : M.next c s = some ((c', .ok true), s')) (hi : c'.current = some i) (h : M.Drawn W Own c' s' x t) :
    M.Drawn W Own c s x t := by
  cases h with
  | item taken held => exact .item (.item hpull hi taken) held
  | stopped taken pull stop => exact .stopped (.item hpull hi taken) pull stop
  | own h => exact .own h

theorem Calls.Takes.toured (hp : p.Pure) (h : (lexicalMachine n p).Takes c s items c' s')
    (hc : c.Replicable p σ) (hs : s.slots = σ) :
    s'.slots = σ ∧ c'.Replicable p σ ∧ ∀ {out r}, Toured p N n σ c' out r → ∃ out', Toured p N n σ c out' r := by
  induction h with
  | nothing => exact ⟨hs, hc, fun htour => ⟨_, htour⟩⟩
  | item pull current rest ih =>
    obtain ⟨hc₁, hs₁⟩ := hc.next hp hs pull
    obtain ⟨hs', hc', hback⟩ := ih hc₁ hs₁
    refine ⟨hs', hc', fun htour => ?_⟩
    obtain ⟨_, htour'⟩ := hback htour
    exact ⟨_, htour'.item hs pull current⟩

/-- A pull that draws on the input and evaluates nothing else. -/
theorem Calls.Drawn.movesOn (hp : p.Pure)
    (h : (lexicalMachine n p).Drawn W Own c s x s') (hc : c.Replicable p σ) (hs : s.slots = σ) :
    MovesOn p N n σ W c x s' := by
  cases h with
  | item taken held =>
    obtain ⟨hs', hc', hback⟩ := taken.toured hp hc hs
    exact ⟨hs', _, held, hc', hback⟩
  | @stopped _ _ _ _ _ _ res taken pull stop =>
    obtain ⟨hs₁, hc₁, hback⟩ := taken.toured (N := N) hp hc hs
    match res, pull, stop with
    | .ok true, _, stop => exact absurd rfl stop
    | .ok false, pull, _ => exact hback (.ended hs₁ pull)
    | .error err, _, _ => trivial
  | own h => trivial

def PicksFrom (k : Nat) (w d : Cursor) : Prop :=
  ∃ inputPos done pos, w = .nth k true d inputPos done pos false

theorem drawn_picksFrom {k : Nat} (hw : PicksFrom k w c) (h : (machineWith keeper (n + 1) p).next w s = some (x, s')) :
    (machineWith keeper n p).Drawn (PicksFrom k) (fun _ => False) c s x s' := by
  have hgo : ∀ done : Bool, (done && !true) = false := fun done => Bool.and_false done
  obtain ⟨inputPos, done, pos, rfl⟩ := hw
  change (machineWith keeper n p).nthNext k true (machineWith keeper n p).fuel c inputPos done pos s = _ at h
  generalize (machineWith keeper n p).fuel = fuel at h
  induction fuel generalizing c inputPos done pos s with
  | zero => cases h
  | succ fuel ih =>
    have h' := h
    unfold Calls.nthNext at h'
    rw [hgo, if_neg Bool.false_ne_true] at h'
    obtain ⟨⟨c₁, res⟩, s₁, hpull, -⟩ := Run.of_bind h'
    by_cases hres : res = .ok true
    · obtain ⟨i, hi⟩ := current_of_next hpull hres
      subst hres
      rw [nthNext_of_item hpull (hgo done)] at h
      split at h
      · cases h
        exact .item (.item hpull hi .nothing) ⟨_, _, _, rfl⟩
      · exact (ih _ _ _ h).after hpull hi
    · rw [nthNext_of_end hpull hres (hgo done)] at h
      cases h
      exact .stopped .nothing hpull hres

section

variable {M : Calls} {ω : Wander}

def WalksFrom (ω : Wander) (w d : Cursor) : Prop :=
  ∃ walk cur pos, w = ω.wrap d walk cur pos false

/-- A walk from every node of its input fails on its own only if the input delivers an atomic value. -/
theorem Wander.drawn {P : Cursor → Prop}
    (hP : ∀ {c s c' s'}, P c → M.next c s = some ((c', .ok true), s') → P c' ∧ ∃ i, c'.current = some i)
    (hc : P c) (hx : ω.next M fuel c walk pos s = some (x, s')) :
    M.Drawn (fun w c => WalksFrom ω w c ∧ P c)
      (fun e => e = ω.err ∧ ∃ c s c' s' a, P c ∧ M.next c s = some ((c', .ok true), s') ∧
        c'.current = some (.atomic a)) c s x s' := by
  refine ω.induct (P := fun c s _ _ x t => P c → M.Drawn _ _ c s x t) ?_ ?_ ?_ ?_ hx hc
  · exact fun _ hc => .item .nothing ⟨⟨_, _, _, rfl⟩, hc⟩
  · exact fun hpull hn hrest hc => (hrest (hP hc hpull).1).after hpull hn
  · intro c s _ pos c' s' hpull hother hc
    obtain ⟨-, i, hi⟩ := hP hc hpull
    cases i with
    | atomic a => exact .own ⟨rfl, c, s, c', s', a, hc, hpull, hi⟩
    | node n => exact absurd hi (hother n)
  · exact fun hpull hr _ => .stopped .nothing hpull hr

end

/-! ## Expressions at every item -/

/-- An expression that is begun for the current item of a source. -/
theorem Calls.startStep_apply (m : Calls) (e : ExprId) (source : Cursor) (s : Store) :
    m.startStep e source s = (m.execute e (.current source) { s with groupSize := none }).map fun x =>
        (x.1.map some, { x.2 with groupSize := s.groupSize }) := by
  have hgroup := withGroupSize_apply none (m.execute e (.current source)).run s
  cases hx : m.execute e (.current source) { s with groupSize := none } with
  | none =>
    rw [show (m.execute e (.current source)).run { s with groupSize := none } = none from hx] at hgroup
    change ((withGroupSize none (m.execute e (.current source)).run s).bind _).bind _ = _
    rw [hgroup]
    rfl
  | some x =>
    obtain ⟨r, s'⟩ := x
    rw [show (m.execute e (.current source)).run { s with groupSize := none } = some (r, s') from hx] at hgroup
    refine (Eval.bind_of_ok (Eval.lift_of_some hgroup)).trans ?_
    cases r <;> rfl

def GoesThrough (p : Program) (σ : Slots) (e : ExprId) (w d : Cursor) : Prop :=
  ∃ run pos, w = .step e d run pos false ∧ ∀ inner k, run = .running inner k → inner.Replicable p σ

theorem relays_goesThrough (hp : p.Pure) (N n : Nat) : Relays p N n σ (GoesThrough p σ e) := by
  rintro w d t x t' ⟨run, pos, rfl, hrun⟩ hd ht h
  change (lexicalMachine n p).bodyNext ((lexicalMachine n p).startStep e) true (.step e)
    (lexicalMachine n p).fuel d run pos t = _ at h
  generalize (lexicalMachine n p).fuel = fuel at h
  have hidle : ∀ (inner : Cursor) (k : Nat), BodyRun.idle = .running inner k → inner.Replicable p σ :=
    nofun
  induction fuel generalizing d run pos t with
  | zero => cases h
  | succ fuel ih =>
    match run with
    | .failed err =>
      cases h
      trivial
    | .running inner k =>
      obtain ⟨⟨inner', r₁⟩, t₁, hpull, h⟩ := Run.of_bind h
      obtain ⟨hinner', ht₁⟩ := (hrun inner k rfl).next hp ht hpull
      match r₁ with
      | .ok true =>
        cases h
        refine ⟨ht₁, d, ⟨_, _, rfl, ?_⟩, hd, fun htour => ⟨_, htour⟩⟩
        rintro _ _ hrunning
        cases hrunning
        exact hinner'
      | .ok false => exact ih _ _ hidle hd ht₁ h
      | .error err =>
        cases h
        trivial
    | .idle =>
      obtain ⟨⟨d₁, r₁⟩, t₁, hpull, h⟩ := Run.of_bind h
      match r₁ with
      | .ok false =>
        cases h
        exact ⟨[], .ended ht hpull⟩
      | .error err =>
        cases h
        trivial
      | .ok true =>
        obtain ⟨ht₁, _, rfl, hd₁, hback⟩ := hd.movesOn hp ht hpull
        obtain ⟨begun, t₂, hbegun, h⟩ := Run.of_bind h
        have hbegun' : (lexicalMachine n p).startStep e d₁ t₁ = some (begun, t₂) := hbegun
        rw [Calls.startStep_apply] at hbegun'
        obtain ⟨⟨y, t₃⟩, hexec, heq⟩ := Option.map_eq_some_iff.mp hbegun'
        obtain ⟨ht₃, hinner⟩ :=
          execute_replicable (s := { t₁ with groupSize := none }) hp hd₁.foci ht₁ hexec
        cases y with
        | error err =>
          cases heq
          cases h
          trivial
        | ok inner =>
          cases heq
          refine MovesOn.after (ih (t := { t₃ with groupSize := t₁.groupSize }) (.running inner 0) 0
            ?_ hd₁ ht₃ h) hback
          rintro _ _ hrunning
          cases hrunning
          exact hinner inner rfl

end XPath
