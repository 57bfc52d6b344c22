import XPath.Proofs.LazyForms

/-!
# Shapes of cursors

Pulls and copies treat many kinds of cursors alike. Some hold all that they deliver (`Leaf`). Some draw on one
other cursor and run no expression (`Stage`). Loops and expression steps compute a sequence for every item of a
source (`Looping`). What relates cursors can go by these shapes, and the lemmas here say once for each of them
how it is pulled and copied.
-/

namespace XPath

open Option

variable {L : Law} {Ok : Item → Prop} {J K : CursorRel} {E : Store → Store → Prop} {m m' : Calls}
  {p p' q : Program} {σ : Slots} {s t : Store} {c d c₀ : Cursor} {fin : Bool} {run : BodyRun} {pos k : Nat}

/-! ## Cursors that draw on nothing -/

/-- Cursors that hold all that they deliver, all of it sound. -/
inductive Leaf (Ok : Item → Prop) : Cursor → Prop
  | empty : Leaf Ok .empty
  | items {all rest : List Item} {cur : Option Item} {pos : Nat} {fin : Bool}
      (ok : ∀ i, i ∈ all ∨ i ∈ rest ∨ cur = some i → Ok i) : Leaf Ok (.items all rest cur pos fin)
  | range (ok : ∀ i : Int64, Ok (.atomic (.integer i))) (first last : Int64) (upcoming cur : Option Int64)
      (pos : Nat) : Leaf Ok (.range first last upcoming cur pos)
  | sorted {unique : Bool} {all rest : List Item} {cur : Option Item} {pos : Nat} {fin : Bool}
      (ok : ∀ i, i ∈ all ∨ i ∈ rest ∨ cur = some i → Ok i) :
      Leaf Ok (.ordered unique (.sorted all rest) cur pos fin)

theorem Plain.leaf (h : Plain Ok c) : Leaf Ok c := by
  cases h with
  | empty => exact .empty
  | items h =>
    refine .items ?_
    rintro i (hi | hi | ⟨⟨⟩⟩) <;> exact h i hi
  | range ok first last => exact .range ok ..

namespace Leaf

variable (h : Leaf Ok c)

include h

theorem mono {Ok' : Item → Prop} (hok : ∀ i, Ok i → Ok' i) : Leaf Ok' c := by
  cases h with
  | empty => exact .empty
  | items ok => exact .items fun i hi => hok i (ok i hi)
  | range ok first last upcoming cur pos => exact .range (fun i => hok _ (ok i)) ..
  | sorted ok => exact .sorted fun i hi => hok i (ok i hi)

theorem current_ok : ∀ i, c.current = some i → Ok i := by
  cases h with
  | empty => exact nofun
  | items ok | sorted ok => exact fun i hi => ok i (.inr (.inr hi))
  | range ok first last upcoming cur pos =>
    intro i hi
    obtain ⟨k, -, rfl⟩ := map_eq_some_iff.mp hi
    exact ok k

theorem ne_scope : c ≠ .scope q σ c₀ := by
  cases h <;> exact nofun

theorem copy (m : Calls) (p : Program) : m.copy p c = pure c := by
  cases h <;> rfl

/-- A pull is over at once. -/
theorem pull : ∃ c' more, Leaf Ok c' ∧ ∀ m p, Calls.pull m p c = pure (c', .ok more) := by
  have hnext : ∀ {all rest : List Item} {i : Item} {cur : Option Item},
      (∀ j, j ∈ all ∨ j ∈ i :: rest ∨ cur = some j → Ok j) → ∀ j, j ∈ all ∨ j ∈ rest ∨ some i = some j → Ok j := by
    rintro all rest i cur ok j (hj | hj | ⟨⟨⟩⟩)
    · exact ok j (.inl hj)
    · exact ok j (.inr (.inl (.tail _ hj)))
    · exact ok i (.inr (.inl (.head _)))
  have hover : ∀ {all : List Item} {cur : Option Item},
      (∀ j, j ∈ all ∨ j ∈ [] ∨ cur = some j → Ok j) → ∀ j, j ∈ all ∨ j ∈ [] ∨ none = some j → Ok j := by
    rintro all cur ok j (hj | ⟨⟨⟩⟩ | ⟨⟨⟩⟩)
    exact ok j (.inl hj)
  cases h with
  | empty => exact ⟨_, _, .empty, fun _ _ => rfl⟩
  | @items all rest cur pos fin ok =>
    cases rest with
    | nil => exact ⟨_, _, .items (hover ok), fun _ _ => rfl⟩
    | cons i rest => exact ⟨_, _, .items (hnext ok), fun _ _ => rfl⟩
  | range ok first last upcoming cur pos =>
    cases upcoming <;> exact ⟨_, _, .range ok .., fun _ _ => rfl⟩
  | @sorted unique all rest cur pos fin ok =>
    cases fin with
    | true => exact ⟨_, _, .sorted ok, fun _ _ => rfl⟩
    | false =>
      cases rest with
      | nil => exact ⟨_, _, .sorted (hover ok), fun _ _ => rfl⟩
      | cons i rest => exact ⟨_, _, .sorted (hnext ok), fun _ _ => rfl⟩

end Leaf

/-! ## Cursors that draw on one other -/

/-- What is done with the cursor that is drawn on, and how far it has come. -/
inductive Stage where
  | nodesOnly
  | axis (axis : Axis) (test : NodeTest) (walk : Walk) (cur : Option Node) (pos : Nat)
  | descent (tests : List NodeTest) (walk : Option DescentWalk) (cur : Option Node) (pos : Nat)
  | nth (n : Nat) (perGroup : Bool) (inputPos : Nat) (groupDone : Bool) (pos : Nat)
  | unsorted (unique : Bool) (cur : Option Item) (pos : Nat)

namespace Stage

variable (st : Stage)

def on (c : Cursor) (fin : Bool) : Stage → Cursor
  | nodesOnly => .nodesOnly c fin
  | axis ax test walk cur pos => .axis ax test c walk cur pos fin
  | descent tests walk cur pos => .descent tests c walk cur pos fin
  | nth n perGroup inputPos groupDone pos => .nth n perGroup c inputPos groupDone pos fin
  | unsorted unique cur pos => .ordered unique (.unsorted c) cur pos fin

/-- The walk is where nodes are sound, and so is the current item. -/
def Sound (Ok : Item → Prop) : Stage → Prop
  | nodesOnly | nth _ _ _ _ _ => True
  | axis _ _ walk cur _ => walk.Sound Ok ∧ ∀ k, cur = some k → Ok (.node k)
  | descent _ walk cur _ => (∀ w, walk = some w → Ok (.node w.node)) ∧ ∀ k, cur = some k → Ok (.node k)
  | unsorted _ cur _ => ∀ i, cur = some i → Ok i

/-- What a stage hands on: items of the cursor that it draws on, or nodes. -/
def Gives (U V : Item → Prop) : Stage → Prop
  | nodesOnly | nth _ _ _ _ _ => ∀ i, U i → V i
  | axis _ _ _ _ _ | descent _ _ _ _ => ∀ n, V (.node n)
  | unsorted _ cur _ => (∀ i, U i → V i) ∧ ∀ i, cur = some i → V i

theorem sound_true : st.Sound fun _ => True := by
  cases st with
  | axis ax test walk cur pos => exact ⟨by cases walk <;> trivial, fun _ _ => trivial⟩
  | descent tests walk cur pos => exact ⟨fun _ _ => trivial, fun _ _ => trivial⟩
  | unsorted unique cur pos => exact fun _ _ => trivial
  | nodesOnly | nth => trivial

theorem on_ne_scope : st.on c fin ≠ .scope q σ c₀ := by
  cases st <;> exact nofun

theorem sizeOf_lt : sizeOf c < sizeOf (st.on c fin) := by
  cases st <;> simp +arith [on]

theorem current_on (h : c.current = d.current) : (st.on c fin).current = (st.on d fin).current := by
  cases st with
  | nodesOnly | nth =>
    cases fin with
    | true => rfl
    | false => exact h
  | axis | descent | unsorted => rfl

theorem position_on (h : c.position = d.position) : (st.on c fin).position = (st.on d fin).position := by
  cases st with
  | nodesOnly => exact h
  | _ => rfl

variable {st}

theorem Gives.mono {U V W : Item → Prop} (h : st.Gives U V) (hW : ∀ i, V i → W i) : st.Gives U W := by
  cases st with
  | nodesOnly | nth => exact fun i hi => hW i (h i hi)
  | axis | descent => exact fun n => hW _ (h n)
  | unsorted => exact ⟨fun i hi => hW i (h.1 i hi), fun i hi => hW i (h.2 i hi)⟩

theorem Gives.current {U V : Item → Prop} (h : st.Gives U V) (hc : ∀ i, c.current = some i → U i) :
    ∀ i, (st.on c fin).current = some i → V i := by
  cases st with
  | nodesOnly | nth =>
    cases fin with
    | true => exact nofun
    | false => exact fun i hi => h i (hc i hi)
  | axis | descent =>
    intro i hi
    obtain ⟨n, -, rfl⟩ := map_eq_some_iff.mp hi
    exact h n
  | unsorted => exact h.2

theorem Sound.current_ok (hst : st.Sound Ok) (h : ∀ i, c.current = some i → Ok i) :
    ∀ i, (st.on c fin).current = some i → Ok i := by
  cases st with
  | nodesOnly | nth =>
    cases fin with
    | true => exact nofun
    | false => exact h
  | axis | descent =>
    intro i hi
    obtain ⟨k, hk, rfl⟩ := map_eq_some_iff.mp hi
    exact hst.2 k hk
  | unsorted => exact hst

variable (st)

theorem copy_on (m : Calls) (p : Program) (c : Cursor) (fin : Bool) :
    m.copy p (st.on c fin) = do return st.on (← m.clone c) fin := by
  cases st <;> rfl

theorem pull_finished (m : Calls) (p : Program) (c : Cursor) :
    m.pull p (st.on c true) = pure (st.on c true, .ok false) := by
  cases st <;> rfl

/-- A pull, from pulls of the cursors drawn on. -/
theorem pull_related (hm : KeepsUp L Ok J m m') (hdoc : DocWise Ok) (hn : FuelLe L.lax m.fuel m'.fuel)
    (hE : ∀ c s d t, J c s d t → E s t)
    (hK : ∀ (st : Stage) c s d t fin, st.Sound Ok → J c s d t → K (st.on c fin) s (st.on d fin) t)
    (hleaf : ∀ c s t, Leaf Ok c → E s t → K c s c t) (hst : st.Sound Ok) (hJ : J c s d t) :
    Related L.lax (Pulls L Ok K) (m.pull p (st.on c false) s) (m'.pull p' (st.on d false) t) := by
  cases st with
  | nodesOnly => exact nodesOnlyNext_related hm (fun _ _ _ _ _ hJ => hK .nodesOnly _ _ _ _ _ trivial hJ) hJ
  | axis ax test walk cur pos =>
    exact axisNext_related hm hdoc (fun _ _ _ _ walk cur pos _ hJ hw hcur =>
      hK (.axis ax test walk cur pos) _ _ _ _ _ ⟨hw, hcur⟩ hJ) hn hJ hst.1
  | descent tests walk cur pos =>
    exact descentNext_related hm hdoc (fun _ _ _ _ walk cur pos _ hJ hw hcur =>
      hK (.descent tests walk cur pos) _ _ _ _ _ ⟨hw, hcur⟩ hJ) hn hJ hst.1
  | nth n perGroup inputPos groupDone pos =>
    exact nthNext_related hm (fun _ _ _ _ inputPos groupDone pos _ hJ =>
      hK (.nth n perGroup inputPos groupDone pos) _ _ _ _ _ trivial hJ) hn hJ
  | unsorted unique cur pos =>
    refine orderedNext_related hm hE hn ?_ hJ
    intro all rest cur pos fin s t hall hrest hcur hst
    refine hleaf _ s t (.sorted ?_) hst
    rintro i (hi | hi | hi)
    · exact hall i hi
    · exact hrest i hi
    · exact hcur i hi

end Stage

/-! ## Loops and expression steps -/

/-- What a sequence in progress was started from: the body of a loop for an item, or an expression with
the current item of a source as its focus. -/
inductive Beginning where
  | iteration (body : ExprId) (binding : Binding) (item : Item) (focus : Snapshot)
  | focused (e : ExprId) (source : Cursor)

namespace Beginning

variable {α β : Type} (st : Beginning)

/-- An expression step knows nothing of the group that its item is in, and a loop is in the group around it. -/
def inGroup (x : Run α) : Beginning → Run α
  | iteration _ _ _ _ => x
  | focused _ _ => do return (← withGroupSize none x).1

def sizeAt (size : Option Nat) : Beginning → Option Nat
  | iteration _ _ _ _ => size
  | focused _ _ => none

/-- The group size that is known when a run is over that began with `size` and ended with `size'`. -/
def sizeAfter (size size' : Option Nat) : Beginning → Option Nat
  | iteration _ _ _ _ => size'
  | focused _ _ => size

theorem inGroup_apply (x : Run α) (s : Store) : st.inGroup x s =
    (x { s with groupSize := st.sizeAt s.groupSize }).map fun r =>
      (r.1, { r.2 with groupSize := st.sizeAfter s.groupSize r.2.groupSize }) := by
  cases st with
  | iteration => exact map_id'.symm
  | focused =>
    change (withGroupSize none x s).bind (fun r => some (r.1.1, r.2)) =
      (x { s with groupSize := none }).map fun r => (r.1, { r.2 with groupSize := s.groupSize })
    rw [withGroupSize_apply]
    cases x { s with groupSize := none } <;> rfl

end Beginning

/-- Runs the expression that a sequence comes from. -/
def Calls.launch (m : Calls) : Beginning → Eval Cursor
  | .iteration body binding item focus => m.vars.iterate binding item (.fixed focus) (m.execute body)
  | .focused e source => m.execute e (.current source)

def Calls.begin (m : Calls) (st : Beginning) : Eval Cursor :=
  ExceptT.mk (st.inGroup (m.launch st).run)

inductive Looping where
  | forEach (body : ExprId) (binding : Binding) (focus : Snapshot)
  | step (e : ExprId)

namespace Looping

variable (l : Looping)

def on : Looping → Cursor → BodyRun → Nat → Bool → Cursor
  | forEach body binding focus => .forEach body binding focus
  | step e => .step e

def body : Looping → ExprId
  | forEach body _ _ => body
  | step e => e

def focus (c : Cursor) : Looping → Focus
  | forEach _ _ focus => .fixed focus
  | step _ => .current c

/-- What is started for the current item of a source. -/
def beginning? (c : Cursor) : Looping → Option Beginning
  | forEach body binding focus => c.current.map (.iteration body binding · focus)
  | step e => some (.focused e c)

theorem isSome_beginning? (h : c.current = d.current) : (l.beginning? c).isSome = (l.beginning? d).isSome := by
  cases l with
  | forEach => rw [beginning?, beginning?, isSome_map, isSome_map, h]
  | step => rfl

def start (m : Calls) (c : Cursor) (l : Looping) : Eval (Option Cursor) :=
  match l.beginning? c with
  | none => return none
  | some st => return some (← m.begin st)

def grouped : Looping → Bool
  | forEach _ _ _ => false
  | step _ => true

/-- What two loops run for an item, in the groups that they are in. `Q` can be said of any group sizes. -/
theorem inGroup_related {α β : Type} {lax : Prop} {Q : (Option Nat → Option Nat → Prop) → α → Store → β → Store → Prop}
    {sizes : Option Nat → Option Nat → Prop} {x : Run α} {y : Run β} {l l' : Looping} {st st' : Beginning}
    (hl : l.grouped = l'.grouped) (hst : l.beginning? c = some st) (hst' : l'.beginning? d = some st')
    (hsizes : sizes s.groupSize t.groupSize) (hQ : ∀ {a s' b t' g g'}, Q Eq a s' b t' → sizes g g' →
      Q sizes a { s' with groupSize := g } b { t' with groupSize := g' })
    (h : ∀ sizes g g', sizes g g' → (l.grouped = true → (∀ a b, sizes a b ↔ a = b) ∧ g' = none) →
      Related lax (Q sizes) (x { s with groupSize := g }) (y { t with groupSize := g' })) :
    Related lax (Q sizes) (st.inGroup x s) (st'.inGroup y t) := by
  match l, l' with
  | forEach .., forEach .. =>
    obtain ⟨_, -, rfl⟩ := map_eq_some_iff.mp hst
    obtain ⟨_, -, rfl⟩ := map_eq_some_iff.mp hst'
    exact h sizes s.groupSize t.groupSize hsizes nofun
  | step e, step e' =>
    obtain rfl := some.inj hst
    obtain rfl := some.inj hst'
    rw [Beginning.inGroup_apply, Beginning.inGroup_apply]
    exact (h Eq none none rfl fun _ => ⟨fun _ _ => Iff.rfl, rfl⟩).map fun _ _ _ _ hq => hQ hq hsizes

theorem sizeAt_of_grouped {st : Beginning} (hst : l.beginning? c = some st) (hl : l.grouped = true)
    (size : Option Nat) :
    st.sizeAt size = none := by
  cases l with
  | forEach => cases hl
  | step e =>
    obtain rfl := some.inj hst
    rfl

theorem sizeOf_lt : sizeOf c < sizeOf (l.on c run pos fin) := by
  cases l <;> simp +arith [on]

theorem on_ne_scope : l.on c run pos fin ≠ .scope q σ c₀ := by
  cases l <;> exact nofun

theorem wraps_on : WrapsBody l.on := by
  cases l <;> exact fun _ _ _ _ => ⟨rfl, rfl⟩

theorem pull_finished (m : Calls) (p : Program) (c : Cursor) (run : BodyRun) (pos : Nat) :
    m.pull p (l.on c run pos true) = pure (l.on c run pos true, .ok false) := by
  cases l <;> rfl

theorem pull_on (m : Calls) (p : Program) (c : Cursor) (run : BodyRun) (pos : Nat) :
    m.pull p (l.on c run pos false) = m.bodyNext (l.start m) l.grouped l.on m.fuel c run pos := by
  have hstart : ∀ start : Cursor → Eval (Option Cursor), start = (l.start m ·) →
      m.bodyNext start l.grouped l.on m.fuel c run pos = m.bodyNext (l.start m) l.grouped l.on m.fuel c run pos := by
    rintro _ rfl
    rfl
  cases l with
  | forEach body binding focus =>
    refine hstart (m.startIteration body binding focus) (funext fun c => ?_)
    unfold Calls.startIteration start beginning?
    cases c.current <;> rfl
  | step e =>
    refine hstart (m.startStep e) (funext fun c => funext fun s => ?_)
    change ((withGroupSize none (m.execute e (.current c)).run s).bind _).bind _ =
      ((withGroupSize none (m.execute e (.current c)).run s).bind _).bind _
    cases withGroupSize none (m.execute e (.current c)).run s with
    | none => rfl
    | some r => obtain ⟨⟨_ | _, _⟩, _⟩ := r <;> rfl

/-- The sequence in progress of a copy, and the slots that it leaves. -/
def again (m : Calls) (slots : Slots) (c : Cursor) (l : Looping) : BodyRun → Run (BodyRun × Slots)
  | .idle => return (.idle, slots)
  | .failed e => return (.failed e, slots)
  | .running _ k =>
    match l.beginning? c with
    | none => return (.idle, slots)
    | some st => onSlots slots (st.inGroup (m.replay k (m.launch st)))

theorem copy_on (m : Calls) (p : Program) (c : Cursor) (run : BodyRun) (pos : Nat) (fin : Bool) :
    m.copy p (l.on c run pos fin) = do
      let slots := (← get).slots
      let c ← m.clone c
      let (run, slots) ← l.again m slots c run
      return .scope p slots (l.on c run pos fin) := by
  cases l with
  | forEach body binding focus =>
    refine congrArg (get >>= ·) (funext fun s => congrArg (m.clone c >>= ·) (funext fun d => ?_))
    cases run with
    | running i k =>
      unfold again beginning?
      cases d.current <;> rfl
    | _ => rfl
  | step e =>
    cases run <;> rfl

end Looping

end XPath
