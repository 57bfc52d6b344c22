import XPath.Proofs.ContractQueries
import XPath.Proofs.ExpressionForest
import XPath.Proofs.SharedCaches

/-!
# Slots in use

A compiled expression has slots for the external variables and, above them, for its loops. The binder hands the
latter out by depth and counts the largest depth; so every loop variable has a slot below that count
(`Query.owns_of_compile`). Writing a slot beyond the end of a table would make the table longer, and writing one of
an external variable would change its value. No run does (`Query.stays_in_slots`).
-/

namespace XPath

open List Option Array

open Program

/-! ## The depths that binding hands out -/

/-- The slots of loop variables lie above those of the external variables and below the depths counted so far. -/
structure BindState.Counts (c : StaticContext) (s : BindState) : Prop where
  static : s.program.static = c
  slots : ∀ e form b, s.program.form? e = some form → form.loopBinding? = some b →
    c.slotAt 0 ≤ b.slot ∧ b.slot < c.slotAt s.maxDepth

theorem BindState.Counts.moved {s : BindState} {scope : List Binding} {depth top : Nat}
    (h : s.Counts c) (htop : s.maxDepth ≤ top) : Counts c ⟨s.program, scope, depth, top⟩ := by
  refine ⟨h.static, fun e form b hform hb => ?_⟩
  obtain ⟨hlo, hhi⟩ := h.slots e form b hform hb
  exact ⟨hlo, Nat.lt_of_lt_of_le hhi (Nat.add_le_add_left htop _)⟩

theorem BindState.lasts_counts (c : StaticContext) : Binder.Lasts (BindState.Counts c) where
  moves := .moved
  fills := by
    intro s e form scope depth top h htop hslot
    refine ⟨h.static, fun e' form' b he' hb => ?_⟩
    by_cases hsame : e' = e
    · subst hsame
      obtain ⟨node, hvisit, rfl⟩ := map_eq_some_iff.mp he'
      unfold Program.setForm at hvisit
      rw [nodes_modify, if_pos rfl] at hvisit
      obtain ⟨old, -, rfl⟩ := map_eq_some_iff.mp hvisit
      obtain ⟨used, hused, heq⟩ := hslot b hb
      rw [heq, h.static]
      exact ⟨Nat.add_le_add_left (Nat.zero_le _) _, Nat.add_lt_add_left hused _⟩
    · have hold : s.program.form? e' = some form' := (form?_eq_of_nodes (agree_modify _ _ _ e' hsame)).symm.trans he'
      exact (h.moved htop : Counts c ⟨s.program, scope, depth, top⟩).slots e' form' b hold hb
  marks := by
    refine fun {s e flag} h => ⟨h.static, fun e' form b he' => h.slots e' form b ?_⟩
    rwa [form?_modify (by intro; rfl)] at he'

theorem Binder.bindNode_counts (k : Nat) (e : ExprId) : Keeps (BindState.Counts c) (fun _ => True) (bindNode k e) := by
  induction k generalizing e with
  | zero => exact .throw trivial
  | succ k ih => exact bindNode_keeps (BindState.lasts_counts c) (fun _ _ => trivial) fun _ _ d _ => ih d

/-- The slot of a loop variable of the query. -/
def Query.Owns (q : Query) (b : Binding) : Prop :=
  q.slots.external ≤ b.slot ∧ b.slot < q.slots.total

theorem Form.Fits.loopBinding? {children : List ExprId} {form : Form} (h : form.Fits children) :
    form.loopBinding? = none := by
  cases form with
  | forEach var b | quantified k var b => exact h.1
  | _ => rfl

theorem Query.owns_of_compile {c : StaticContext} {x : Expr} (hq : compile c x = .ok q) {e : ExprId}
    {form : Form} {b : Binding} (hform : q.program.form? e = some form) (hb : form.loopBinding? = some b) :
    q.Owns b := by
  obtain ⟨p, reached, s, hlaid, hrun, hprogram, hslots⟩ := run_of_compile hq
  have hstart : BindState.Counts c ⟨p, [], 0, 0⟩ := by
    refine ⟨hlaid.static, fun e form b hform hb => ?_⟩
    obtain ⟨form', hform', hfits⟩ := hlaid.fits (lt_size_of_form? hform)
    cases hform.symm.trans hform'
    rw [hfits.loopBinding?] at hb
    cases hb
  have hends := Binder.bindNode_counts p.size q.root _ hstart
  unfold Binder.Ends at hends
  rw [hrun] at hends
  unfold Query.Owns
  rw [hslots]
  exact hends.slots e form b (hprogram ▸ hform) hb

/-! ## Slots of cursors -/

mutual

/-- The slots that a cursor and those that it draws on have brought along, with their programs. -/
def Cursor.pools : Cursor → List (Program × Slots)
  | .concat gone rest _ _ => poolsAll gone ++ poolsAll rest
  | .nodesOnly c _ | .axis _ _ c _ _ _ _ | .descent _ c _ _ _ _ | .nth _ _ c _ _ _ _
  | .predicate _ c _ _ _ _ _ => c.pools
  | .forEach _ _ _ c run _ _ | .step _ c run _ _ => c.pools ++ run.pools
  | .ordered _ supply _ _ _ => supply.pools
  | .scope p σ c => (p, σ) :: c.pools
  | _ => []

def poolsAll : List Cursor → List (Program × Slots)
  | [] => []
  | c :: cs => c.pools ++ poolsAll cs

def BodyRun.pools : BodyRun → List (Program × Slots)
  | .running c _ => c.pools
  | _ => []

def Supply.pools : Supply → List (Program × Slots)
  | .unsorted c => c.pools
  | .sorted _ _ => []

end

theorem mem_poolsAll (h : pool ∈ poolsAll cs) : ∃ c ∈ cs, pool ∈ c.pools := by
  induction cs with
  | nil => cases h
  | cons c cs ih =>
    rcases mem_append.mp h with h | h
    · exact ⟨c, (.head _), h⟩
    · obtain ⟨d, hd, h⟩ := ih h
      exact ⟨d, .tail c hd, h⟩

theorem mem_resetAll (h : d ∈ resetAll cs) : ∃ c ∈ cs, d = c.reset := by
  induction cs with
  | nil => cases h
  | cons c cs ih =>
    rcases mem_cons.mp h with rfl | h
    · exact ⟨c, (.head _), rfl⟩
    · obtain ⟨c', hc', h⟩ := ih h
      exact ⟨c', .tail c hc', h⟩

section

variable {A : Accord} {q : Program} {vars : List Binding} {V : Item → Prop} {c : Cursor}

/-- A sound cursor has brought along what its scopes should have. -/
theorem Sound.pools (h : Sound A q vars V c) : ∀ pool ∈ c.pools, ∃ vars', A.Provides pool.1 vars' pool.2 := by
  induction h with
  | leaf h => cases h <;> exact nofun
  | buffered taken cur pos fin own any => exact nofun
  | concat pos fin spent left ihSpent ihLeft =>
    intro pool h
    rcases mem_append.mp h with h | h
    · obtain ⟨c, hc, h⟩ := mem_poolsAll h
      exact ihSpent c hc pool h
    · obtain ⟨c, hc, h⟩ := mem_poolsAll h
      exact ihLeft c hc pool h
  | stage st fin gives input ih => cases st <;> exact ih
  | predicate inputPos fixed size pos fin placed input ih => exact ih
  | @loop _ _ _ _ c l run pos fin kept source running failed ihSource ihRunning =>
    have hpools : (l.on c run pos fin).pools = c.pools ++ run.pools := by cases l <;> rfl
    intro pool h
    rw [hpools] at h
    rcases mem_append.mp h with h | h
    · exact ihSource pool h
    · cases run with
      | running i k => exact ihRunning i k rfl pool h
      | idle | failed e => cases h
  | scope provides inner ih => exact forall_mem_cons.mpr ⟨⟨_, provides⟩, ih⟩

/-- Where every item may occur, a sound cursor is sound from the beginning again. -/
theorem Sound.reset (hA : A.Free) (h : Sound A q vars V c) : Sound A q vars (fun _ => True) c.reset := by
  induction h with
  | leaf h =>
    cases h with
    | empty => exact .leaf .empty
    | items => exact .leaf (.items fun _ _ => trivial)
    | range => exact .leaf (.range (fun _ => trivial) ..)
    | sorted => exact .leaf (.sorted fun _ _ => trivial)
  | buffered taken cur pos fin own any => exact .buffered _ _ _ _ own fun _ => trivial
  | concat pos fin spent left ihSpent ihLeft =>
    refine .concat 0 false nofun fun d hd => ?_
    rcases mem_append.mp hd with hd | hd
    · obtain ⟨c, hc, rfl⟩ := mem_resetAll (mem_reverse.mp hd)
      exact ihSpent c hc
    · obtain ⟨c, hc, rfl⟩ := mem_resetAll hd
      exact ihLeft c hc
  | stage st fin gives input ih =>
    cases st with
    | nodesOnly => exact .stage .nodesOnly false (fun _ _ => trivial) ih
    | axis ax test => exact .stage (.axis ax test .ended none 0) false (fun _ => trivial) ih
    | descent tests => exact .stage (.descent tests none none 0) false (fun _ => trivial) ih
    | nth n perGroup => exact .stage (.nth n perGroup 0 false 0) false (fun _ _ => trivial) ih
    | unsorted unique => exact .stage (.unsorted unique none 0) false ⟨fun _ _ => trivial, nofun⟩ ih
  | predicate inputPos fixed size pos fin placed input ih => exact .predicate _ _ _ _ _ placed ih
  | @loop _ _ _ _ _ l _ pos fin kept source running failed ihSource =>
    cases l with
    | forEach body b focus =>
      exact .loop (l := .forEach body b focus) 0 false ⟨kept.1, kept.2.1, fun _ _ => trivial, fun i _ => hA.var b i⟩
        ihSource nofun nofun
    | step e => exact .loop (l := .step e) 0 false ⟨kept.1, fun _ _ => trivial⟩ ihSource nofun nofun
  | scope provides inner ih => exact .scope provides ih

end

/-! ## Runs on the slots of a query -/

/-- As many slots as the query needs, and those of the external variables as in `pool`. -/
structure Query.Keeps (q : Query) (pool σ : Slots) : Prop where
  size : σ.size = q.slots.total
  external : ∀ i < q.slots.external, σ.get? i = pool.get? i

theorem Slots.size_set {σ : Slots} (h : i < σ.size) (value : List Item) : (σ.set i value).size = σ.size := by
  unfold set reaching
  rw [if_pos h]
  exact size_setIfInBounds

theorem Query.Keeps.set {q : Query} (h : q.Keeps pool σ) (hb : q.Owns b)
    (value : List Item) : q.Keeps pool (b.set σ value) := by
  refine ⟨(Slots.size_set (h.size ▸ hb.2) value).trans h.size, fun i hi => ?_⟩
  exact (Slots.get?_set_ne σ (Nat.ne_of_lt (Nat.lt_of_lt_of_le hi hb.1)) value).trans (h.external i hi)

/-- Asks of every item that a loop binds that it is written to the slot of a loop variable. -/
def Query.writes (q : Query) : Watch :=
  ⟨fun _ _ _ _ _ _ => True, fun b _ => q.Owns b⟩

/-- The program runs on slots as they should be, and writes those of its loop variables. -/
def Query.accord (q : Query) (pool : Slots) (caches : Array Cache) : Accord where
  Own := fun _ => False
  others := caches
  others' := caches
  Err := fun _ => True
  Provides := fun p _ σ => p = q.program → q.Keeps pool σ
  Scoped := fun p _ _ => p = q.program
  Looped := fun p _ b _ => p = q.program ∧ q.Owns b
  Value := fun _ _ => True
  Var := fun _ _ => True

section

variable {c : StaticContext} {x : Expr} {q : Query} {pool : Slots} {caches : Array Cache} {n : Nat}

section

variable (hq : compile c x = .ok q)

include hq

theorem Query.accord_free : (q.accord pool caches).Free where
  err := fun _ => trivial
  value := fun _ _ => trivial
  var := fun _ _ => trivial
  every := fun h _ => h
  loop := by
    rintro _ vars e form b rfl hform hb body
    exact ⟨rfl, Query.owns_of_compile hq hform hb⟩
  body := fun h => h.1
  write := fun hb hσ _ hp => (hσ hp).set hb.2 _

theorem Query.serving (pool : Slots) (caches : Array Cache) (n : Nat) :
    Serving (q.accord pool caches) (machine n) (q.writes.machine (fun _ => .inSlots) n) :=
  ((Query.accord_free hq).lawful (fun h => h.elim) (fun h => h.2) fun _ _ _ _ _ _ => trivial).serving n

/-- Executing the query, and reading all of its value. -/
theorem Query.keeps_read (hs : s.slots.size = q.slots.total) (focus : Snapshot) :
    (q.writes.machine (fun _ => .inSlots) n q.program).read q.root (.fixed focus) s =
        (machine n q.program).read q.root (.fixed focus) s ∧
      ∀ r s', (machine n q.program).read q.root (.fixed focus) s = some (r, s') → q.Keeps s.slots s'.slots := by
  have hm := Query.serving hq s.slots s.caches n
  have hfocus : (Focus.fixed focus).Sound (q.accord s.slots s.caches) q.program [] := fun _ _ => trivial
  have hrun := EnsuresEval.bind (hm.execute (e := q.root) rfl hfocus) (fun _ hc => hm.drain hc) s s
    ⟨.self, fun _ => ⟨hs, fun _ _ => rfl⟩⟩
  refine ⟨?_, fun r s' hr => ?_⟩
  · refine (hrun.mono ?_).eq
    rintro r s' _ t' ⟨⟨rfl, -⟩, hst'⟩
    exact ⟨rfl, hst'.1.eq.1⟩
  · obtain ⟨_, _, -, -, hst'⟩ := hrun.of_some hr
    exact hst'.2 rfl

theorem Query.program_ne_empty : Program.empty c ≠ q.program := by
  intro h
  obtain ⟨p, hlaid, hkin, -⟩ := filled_of_compile hq
  have hsize : 0 < q.program.size := hkin.size ▸ Nat.zero_lt_of_lt hlaid.root_lt
  rw [← h] at hsize
  cases hsize

omit hq in
theorem Query.size_fillSlots {values : List (ExpandedName × List Item)}
    {slots slots' : Slots} (hle : slot + names.length ≤ slots.size)
    (h : fillSlots values names slot slots = .ok slots') : slots'.size = slots.size := by
  induction names generalizing slot slots with
  | nil =>
    cases h
    rfl
  | cons name names ih =>
    rw [length_cons] at hle
    unfold fillSlots at h
    cases hvalue : values.lookup name with
    | none =>
      rw [hvalue] at h
      cases h
    | some value =>
      rw [hvalue] at h
      have hsize := Slots.size_set (σ := slots) (i := slot) (by omega) value
      exact (ih (by omega) h).trans hsize

theorem Query.size_createSlots (h : q.createSlots values = .ok pool) : pool.size = q.slots.total := by
  obtain ⟨p, reached, s, hlaid, -, hprogram, hslots⟩ := run_of_compile hq
  have hsize : (Slots.ofSize q.slots.total).size = q.slots.total := size_replicate
  refine (size_fillSlots ?_ h).trans hsize
  rw [hsize, hslots, (compiled_of_compile hq).static, Nat.zero_add]
  exact Nat.le_add_right _ _

end

structure Session.Runs (q : Query) (pool : Slots) (s : Session) : Prop where
  outside : Program.empty s.static ≠ q.program
  cursors : ∀ (i : Nat) y, s.cursors[i]? = some y →
    Sound (q.accord pool s.caches) (.empty s.static) [] (fun _ => True) y

namespace Session.Runs

variable {s s' : Session} {y : Cursor} {i : Nat}

/-- The operations on a cursor of the session write loop variables only. -/
theorem beside (h : s.Runs q pool) : (q.accord pool s.caches).Beside (.empty s.static) []
    ⟨.ofSize 0, s.caches, none⟩ ⟨.ofSize 0, s.caches, none⟩ :=
  ⟨.self (s := ⟨.ofSize 0, s.caches, none⟩), fun hp => absurd hp h.outside⟩

section

variable (hq : compile c x = .ok q)

include hq

theorem act (h : s.Runs q pool) (hu : s.act u = some s') : s'.Runs q pool := by
  have hm := Query.serving hq pool s.caches s.fuel
  cases u with
  | pull i =>
    obtain ⟨⟨r, s''⟩, hnext, rfl⟩ := map_eq_some_iff.mp hu
    obtain ⟨y, hy, -⟩ := bind_eq_some_iff.mp hnext
    obtain ⟨z, t, hpull, rfl⟩ := pull_of_next hy hnext
    obtain ⟨_, t', -, ⟨-, hz, -⟩, hst⟩ := (hm.next (h.cursors i y hy) _ _ h.beside).of_some hpull
    refine ⟨h.outside, fun j w hw => ?_⟩
    dsimp only at hw ⊢
    rw [hst.1.eq.2]
    rw [getElem?_setIfInBounds] at hw
    split at hw
    · obtain ⟨-, ⟨⟩⟩ := ite_none_right_eq_some.mp hw
      exact hz
    · exact h.cursors j w hw
  | reset i =>
    cases hu
    refine ⟨h.outside, fun j w hw => ?_⟩
    dsimp only [reset] at hw
    rw [Array.getElem?_modify] at hw
    split at hw
    · obtain ⟨y, hy, rfl⟩ := map_eq_some_iff.mp hw
      exact (h.cursors j y hy).reset (Query.accord_free hq)
    · exact h.cursors j w hw
  | copy i =>
    obtain ⟨y, hy, hcopy⟩ := bind_eq_some_iff.mp hu
    obtain ⟨⟨z, s₁⟩, hrun, hpure⟩ := bind_eq_some_iff.mp hcopy
    obtain ⟨⟨_, t⟩, hclone, heq⟩ := map_eq_some_iff.mp hrun
    cases heq
    cases hpure
    obtain ⟨_, t', -, ⟨-, hz⟩, hst⟩ := (hm.clone (h.cursors i y hy) _ _ h.beside).of_some hclone
    refine ⟨h.outside, fun j w hw => ?_⟩
    dsimp only at hw ⊢
    rw [hst.1.eq.2]
    rw [getElem?_push] at hw
    split at hw
    · cases hw
      exact hz _ _
    · exact h.cursors j w hw

theorem acts (h : s.Runs q pool) (hus : s.acts us = some s') : s'.Runs q pool := by
  induction us generalizing s with
  | nil =>
    cases hus
    exact h
  | cons u us ih =>
    obtain ⟨s₁, hu, hus⟩ := bind_eq_some_iff.mp hus
    exact ih (h.act hq hu) hus

/-- A pull and a copy of a cursor under the watch. -/
theorem watched (h : s.Runs q pool) (hy : s.cursors[i]? = some y) :
    let m := machine s.fuel (.empty s.static)
    let m' := q.writes.machine (fun _ => .inSlots) s.fuel (.empty s.static)
    let store : Store := ⟨.ofSize 0, s.caches, none⟩
    m'.next y store = m.next y store ∧ m'.clone y store = m.clone y store := by
  have hm := Query.serving hq pool s.caches s.fuel
  refine ⟨((hm.next (h.cursors i y hy) _ _ h.beside).mono ?_).eq,
    ((hm.clone (h.cursors i y hy) _ _ h.beside).mono ?_).eq⟩
  · rintro r s' _ t' ⟨⟨rfl, -⟩, hst'⟩
    exact ⟨rfl, hst'.1.eq.1⟩
  · rintro r s' _ t' ⟨⟨rfl, -⟩, hst'⟩
    exact ⟨rfl, hst'.1.eq.1⟩

/-- A session with the value of the query. -/
theorem ofExpr {fuel : Nat} {dynamic : DynamicContext}
    (h : (Session.new fuel c dynamic).openSource (.expr x) = some (.ok s)) :
    ∃ pool, q.createSlots dynamic.values = .ok pool ∧ s.Runs q pool := by
  have hopens := openSource_expr (Session.new fuel c dynamic) x
  simp only [Session.new, hq] at hopens h
  rw [hopens] at h
  obtain ⟨r, hstream, hr⟩ := map_eq_some_iff.mp h
  unfold Query.stream at hstream
  cases hpool : q.createSlots dynamic.values with
  | error err =>
    rw [hpool] at hstream
    cases hstream
    cases hr
  | ok pool =>
    rw [hpool] at hstream
    obtain ⟨⟨v, t⟩, hrun, rfl⟩ := map_eq_some_iff.mp hstream
    cases v with
    | error err => cases hr
    | ok y =>
      cases hr
      have hfocus : (Focus.fixed (.single dynamic.contextItem)).Sound (q.accord pool #[]) q.program [] :=
        fun _ _ => trivial
      have hexec := (Query.serving hq pool #[] fuel).execute (e := q.root) rfl hfocus (.ofSlots pool)
        (.ofSlots pool) ⟨.self (s := .ofSlots pool), fun _ => ⟨q.size_createSlots hq hpool, fun _ _ => rfl⟩⟩
      obtain ⟨_, t', -, ⟨rfl, hy⟩, hst⟩ := hexec.of_some hrun
      refine ⟨pool, rfl, Query.program_ne_empty hq, fun i z hz => ?_⟩
      obtain rfl : i = 0 := by
        have := (Array.getElem?_eq_some_iff.mp hz).1
        simpa [Session.new] using this
      cases hz
      have hinner : Sound (q.accord pool #[]) q.program [] (fun _ => True) y := hy
      exact .scope hst.2 hinner

end

end Session.Runs

end

/-! ## Copies -/

/-- In an empty scope nothing is executed, and the slots are as they were; elsewhere everything may happen. -/
def Accord.apart (σ : Slots) (caches : Array Cache) : Accord where
  Own := fun _ => False
  others := caches
  others' := caches
  Err := fun _ => True
  Provides := fun _ vars σ' => vars = [] → σ' = σ
  Scoped := fun _ vars _ => vars ≠ []
  Looped := fun _ vars _ _ => vars ≠ []
  Value := fun _ _ => True
  Var := fun _ _ => True

theorem Accord.apart_free (σ : Slots) (caches : Array Cache) : (Accord.apart σ caches).Free where
  err := fun _ => trivial
  value := fun _ _ => trivial
  var := fun _ _ => trivial
  every := fun h _ => h
  loop := fun h _ _ _ => h
  body := fun h => h
  write := fun h _ _ hvars => absurd hvars h

theorem Accord.apart_serving (σ : Slots) (caches : Array Cache) (n : Nat) :
    Serving (.apart σ caches) (machine n) (machine n) := by
  have hm := ((Accord.apart_free σ caches).lawful (w := .idle) (fun h => h.elim) (fun _ => trivial)
    fun _ _ _ _ _ _ => trivial).serving n
  rwa [Watch.machine_idle] at hm

/-- The second cursor comes from the first one by pulls, resets and copies. -/
inductive Calls.Uses (m : Calls) (c : Cursor) (s : Store) : Cursor → Store → Prop
  | refl : Uses m c s c s
  | pull {d d' : Cursor} {t t' : Store} {r : Except Error Bool} (before : Uses m c s d t)
      (run : m.next d t = some ((d', r), t')) : Uses m c s d' t'
  | reset {d : Cursor} {t : Store} (before : Uses m c s d t) : Uses m c s d.reset t
  | copy {d d' : Cursor} {t t' : Store} (before : Uses m c s d t) (run : m.clone d t = some (d', t')) :
      Uses m c s d' t'

section

variable {n k : Nat} {p : Program} {c d d' : Cursor} {s s' t t' : Store}

/-- What is done with a cursor that is sound where nothing is executed leaves the slots alone. -/
theorem Calls.Uses.slots_eq (h : (machine n p).Uses c t d t')
    (hc : Sound (.apart t.slots t.caches) p [] (fun _ => True) c) :
    Sound (.apart t.slots t.caches) p [] (fun _ => True) d ∧ t'.slots = t.slots ∧ t'.caches = t.caches := by
  have hm := Accord.apart_serving t.slots t.caches n
  have hbeside : ∀ {u : Store}, u.slots = t.slots → u.caches = t.caches →
      (Accord.apart t.slots t.caches).Beside p [] u u := fun hslots hcaches =>
    ⟨hcaches ▸ .self, fun _ => hslots⟩
  induction h with
  | refl => exact ⟨hc, rfl, rfl⟩
  | pull before run ih =>
    obtain ⟨hd, hslots, hcaches⟩ := ih
    obtain ⟨_, _, -, ⟨-, hd', -⟩, hst⟩ := (hm.next hd _ _ (hbeside hslots hcaches)).of_some run
    exact ⟨hd', hst.2 rfl, hst.1.eq.2⟩
  | reset before ih => exact ⟨ih.1.reset (Accord.apart_free _ _), ih.2⟩
  | copy before run ih =>
    obtain ⟨hd, hslots, hcaches⟩ := ih
    obtain ⟨_, _, -, ⟨-, hd'⟩, hst⟩ := (hm.clone hd _ _ (hbeside hslots hcaches)).of_some run
    exact ⟨hd' p [], hst.2 rfl, hst.1.eq.2⟩

/-- Whatever is done with a copy leaves the slots alone. -/
theorem Calls.Uses.slots_eq_of_clone (h : (machine k p).Uses d t d' t') (ht : t.caches = s.caches)
    (hc : c.Within fun _ => False) (hclone : (machine n p).clone c s = some (d, s')) : t'.slots = t.slots := by
  let scope : List Binding := [⟨⟨none, ""⟩, 0, .any⟩]
  have hopen : (Accord.apart t.slots s.caches).Open scope :=
    ⟨fun _ _ => nofun, fun _ _ => cons_ne_nil _ _, fun _ _ _ => cons_ne_nil _ _⟩
  have hsound : Sound (.apart t.slots s.caches) p scope (fun _ => True) c :=
    Cursor.Within.sound hc (Accord.apart_free _ _) hopen
  obtain ⟨_, _, -, ⟨-, hd⟩, -⟩ := ((Accord.apart_serving t.slots s.caches n).clone hsound s s
    ⟨.self, hopen.provides _ _⟩).of_some hclone
  rw [← ht] at hd
  exact (h.slots_eq (hd p [])).2.1

end

/-- Execution stays inside its slots. The slots for a query are as many as it counts, the first of them for the
external variables. On so many slots an execution of the query writes slots of loop variables only: one that gives up
where it writes any other slot is the execution itself. So the slots stay as many and those of the external variables
keep their values, also when it fails. The same holds of a session that opens the query, pulls, resets and copies
the cursor and its copies in any order: all slots that a cursor has brought along are as many and have the values
given, pulls and copies write nothing else, and no use of one cursor changes another one. Nothing that is done with
a copy changes the slots it was made on. -/
theorem Query.stays_in_slots {c : StaticContext} {x : Expr} {q : Query} (hq : compile c x = .ok q) :
    q.slots.external = c.settings.externals.length ∧
    (∀ values pool, q.createSlots values = .ok pool → pool.size = q.slots.total) ∧
    (∀ (n : Nat) (s : Store) focus, s.slots.size = q.slots.total →
      (q.writes.machine (fun _ => .inSlots) n q.program).read q.root (.fixed focus) s =
          (machine n q.program).read q.root (.fixed focus) s ∧
        ∀ r s', (machine n q.program).read q.root (.fixed focus) s = some (r, s') → q.Keeps s.slots s'.slots) ∧
    (∀ fuel dynamic s us s' i y, (Session.new fuel c dynamic).openSource (.expr x) = some (.ok s) →
      s.acts us = some s' → s'.cursors[i]? = some y →
      y.Within (fun _ => False) ∧
      (∃ pool, q.createSlots dynamic.values = .ok pool ∧ ∀ σ, (q.program, σ) ∈ y.pools → q.Keeps pool σ) ∧
      (let m := machine s'.fuel (.empty s'.static)
        let m' := q.writes.machine (fun _ => .inSlots) s'.fuel (.empty s'.static)
        let store : Store := ⟨.ofSize 0, s'.caches, none⟩
        m'.next y store = m.next y store ∧ m'.clone y store = m.clone y store) ∧
      ∀ u s'', u ≠ .pull i → u ≠ .reset i → s'.act u = some s'' → s''.cursors[i]? = some y) ∧
    ∀ (n k : Nat) (p : Program) (y d d' : Cursor) (s s' t t' : Store), y.Within (fun _ => False) →
      (machine n p).clone y s = some (d, s') → t.caches = s.caches → (machine k p).Uses d t d' t' →
      t'.slots = t.slots := by
  refine ⟨(compiled_of_compile hq).external, fun _ _ => Query.size_createSlots hq,
    fun _ _ focus hs => Query.keeps_read hq hs focus, ?_,
    fun _ _ _ _ _ _ _ _ _ _ hy hclone ht hrun => hrun.slots_eq_of_clone ht hy hclone⟩
  intro fuel dynamic s us s' i y hopen hus hy
  obtain ⟨pool, hpool, hs⟩ := Session.Runs.ofExpr hq hopen
  have hs' := hs.acts hq hus
  have hlt := (Array.getElem?_eq_some_iff.mp hy).1
  refine ⟨(hs'.cursors i y hy).within, ⟨pool, hpool, fun σ hσ => ?_⟩, hs'.watched hq hy,
    fun u s'' hpull hreset hact => ?_⟩
  · obtain ⟨_, hkeeps⟩ := (hs'.cursors i y hy).pools _ hσ
    exact hkeeps rfl
  · rw [← hy]
    cases u with
    | pull j => exact Session.getElem?_act (u := .pull j) (fun h => hpull (congrArg _ h)) hlt hact
    | reset j => exact Session.getElem?_act (u := .reset j) (fun h => hreset (congrArg _ h)) hlt hact
    | copy j => exact Session.getElem?_copy hlt hact

def StaticContext.withLimit : StaticContext :=
  let standard := StaticContext.standard
  { standard with settings := { standard.settings with externals := [⟨none, "limit"⟩] } }

/-- `for $x in (1, 2) return ($x, $limit)` -/
def limitedLoop : Expr :=
  let number (i : Int64) : Expr := .literal (.integer i)
  .forEach [.mk (.unprefixed "x") (.sequence [number 1, number 2])]
    (.sequence [.variable (.unprefixed "x"), .variable (.unprefixed "limit")])

/-- One slot for the external variable and one for the loop; a copy is pulled while the loop is under way. -/
theorem Query.stays_in_slots_limitedLoop :
    let dynamic : DynamicContext := { DynamicContext.empty with values := [(⟨none, "limit"⟩, [.ofBool true])] }
    ∃ q, compile .withLimit limitedLoop = .ok q ∧ q.slots = ⟨2, 1⟩ ∧
      ∃ s s' y, (Session.new 40 .withLimit dynamic).openSource (.expr limitedLoop) = some (.ok s) ∧
        s.acts [.pull 0, .copy 0, .pull 1, .pull 1, .reset 0] = some s' ∧ s'.cursors[1]? = some y ∧ y.pools ≠ [] ∧
        ∀ σ, (q.program, σ) ∈ y.pools → σ.size = 2 ∧ σ.get? 0 = some [.ofBool true] := by
  intro dynamic
  have hcompiles : ((compile .withLimit limitedLoop).toOption.any fun q => decide (q.slots = ⟨2, 1⟩)) = true := by
    decide +kernel
  have hruns : (((Session.new 40 .withLimit dynamic).openSource (.expr limitedLoop)).any (·.toOption.any fun s =>
      (s.acts [.pull 0, .copy 0, .pull 1, .pull 1, .reset 0]).any fun s' =>
        (s'.cursors[1]?).any fun y => !y.pools.isEmpty)) = true := by decide +kernel
  obtain ⟨q, hq, hslots⟩ := exists_ok_of_check hcompiles
  have hslots := of_decide_eq_true hslots
  obtain ⟨s, hopen, hruns⟩ := exists_some_ok_of_check hruns
  obtain ⟨s', hus, hruns⟩ := (any_eq_true _ _).mp hruns
  obtain ⟨y, hy, hpools⟩ := (any_eq_true _ _).mp hruns
  obtain ⟨-, -, -, hsessions, -⟩ := Query.stays_in_slots hq
  obtain ⟨-, ⟨pool, hpool, hkeeps⟩, -⟩ := hsessions 40 dynamic s _ s' 1 y hopen hus hy
  unfold createSlots at hpool
  rw [(compiled_of_compile hq).static] at hpool
  cases hpool
  refine ⟨q, hq, hslots, s, s', y, hopen, hus, hy, by simpa using hpools, fun σ hσ => ?_⟩
  have hkept := hkeeps σ hσ
  rw [hkept.size, hkept.external 0 (by rw [hslots]; decide), hslots]
  exact ⟨rfl, rfl⟩

end XPath
