import XPath.Proofs.PullOutcomes

/-!
# The protocol of cursors

Every kind of cursor says in its own way that it stands on an item and that it is finished. What they have in
common is kept by all that can be done with a cursor. `Handled` follows a cursor and its copies through pulls,
copies and resets in any order, on whatever stores and however deep, together with what was done to it last.

- A cursor that was built or reset has no current item (`Cursor.Unread`).
- A pull that brings an item leaves the cursor on it.
- Any other pull leaves the cursor finished, without an item, and it stays as it is until it is reset
  (`Cursor.Spent`). Copies of it are finished too.
-/

namespace XPath

/-! ## Cursors at their beginning -/

/-- Nothing has been pulled from the cursor, nor from those that it draws on, since it was built or reset.
A list that was sorted before a reset is kept. -/
inductive Cursor.Unread : Cursor → Prop
  | empty : Unread .empty
  | ofItems (items : List Item) : Unread (.ofItems items)
  | ofRange (first last : Int64) : Unread (.ofRange first last)
  | ofCache (cache : Nat) : Unread (.ofCache cache)
  | ofParts {parts : List Cursor} (each : ∀ c ∈ parts, Unread c) : Unread (.ofParts parts)
  | requireNodes {c : Cursor} (input : Unread c) : Unread (.requireNodes c)
  | along {c : Cursor} (axis : Axis) (test : NodeTest) (source : Unread c) : Unread (.along axis test c)
  | descending {c : Cursor} (tests : List NodeTest) (source : Unread c) : Unread (.descending tests c)
  | pick {c : Cursor} (n : Nat) (perGroup : Bool) (input : Unread c) : Unread (.pick n perGroup c)
  | filter {c : Cursor} (e : ExprId) (input : Unread c) : Unread (.filter e c)
  | loop {c : Cursor} (body : ExprId) (b : Binding) (focus : Snapshot) (source : Unread c) :
      Unread (.loop body b focus c)
  | through {c : Cursor} (e : ExprId) (source : Unread c) : Unread (.through e c)
  | inOrder {c : Cursor} (unique : Bool) (input : Unread c) : Unread (.inOrder unique c)
  | sorted (unique : Bool) (all : List Item) : Unread (.ordered unique (.sorted all all) none 0 false)
  | scope {c : Cursor} (p : Program) (σ : Slots) (inner : Unread c) : Unread (.scope p σ c)

namespace Cursor

theorem Unread.current {c : Cursor} (h : c.Unread) : c.current = none := by
  induction h with
  | empty | ofItems | ofRange | ofCache | along | descending | loop | through | inOrder | sorted => rfl
  | @ofParts parts each ih =>
    cases parts with
    | nil => rfl
    | cons c parts => exact ih c (.head _)
  | requireNodes input ih | pick n perGroup input ih | filter e input ih | scope p σ inner ih => exact ih

theorem Unread.tidy {c : Cursor} (h : c.Unread) : c.Tidy := by
  induction h with
  | empty => exact fun _ => ⟨rfl, rfl⟩
  | ofRange first last => exact fun hfinished => ⟨hfinished, rfl⟩
  | scope p σ inner ih => exact ih
  | _ => exact nofun

mutual

theorem reset_unread : ∀ c : Cursor, c.reset.Unread
  | .empty => .empty
  | .items all _ _ _ _ => .ofItems all
  | .range first last _ _ _ => .ofRange first last
  | .buffered cache _ _ _ _ => .ofCache cache
  | .concat spent rest _ _ => by
    refine .ofParts fun c hc => ?_
    rcases List.mem_append.mp hc with hc | hc
    · exact resetAll_unread spent c (List.mem_reverse.mp hc)
    · exact resetAll_unread rest c hc
  | .nodesOnly input _ => .requireNodes (reset_unread input)
  | .axis a test source _ _ _ _ => .along a test (reset_unread source)
  | .descent tests source _ _ _ _ => .descending tests (reset_unread source)
  | .nth n perGroup input _ _ _ _ => .pick n perGroup (reset_unread input)
  | .predicate e input _ _ _ _ _ => .filter e (reset_unread input)
  | .forEach body b focus source _ _ _ => .loop body b focus (reset_unread source)
  | .step e source _ _ _ => .through e (reset_unread source)
  | .ordered unique (.unsorted input) _ _ _ => .inOrder unique (reset_unread input)
  | .ordered unique (.sorted all _) _ _ _ => .sorted unique all
  | .scope p σ c => .scope p σ (reset_unread c)

theorem resetAll_unread : ∀ (cs : List Cursor), ∀ c ∈ resetAll cs, c.Unread
  | [], _, hc => nomatch hc
  | c :: cs, d, hd => by
    rcases List.mem_cons.mp hd with rfl | hd
    · exact reset_unread c
    · exact resetAll_unread cs d hd

end

end Cursor

/-! ## Copies -/

section

variable {keeper : Program → Variables} {m : Calls} {n : Nat} {p : Program} {c c' : Cursor} {s s' : Store}

/-- A copy is finished if the cursor is, and nothing comes from it if nothing comes from the cursor. -/
structure Cursor.EndsAs (c c' : Cursor) : Prop where
  finished : c'.isFinished = c.isFinished
  spent : c.Spent → c'.Spent

theorem Cursor.EndsAs.refl (c : Cursor) : c.EndsAs c :=
  ⟨rfl, id⟩

theorem copy_endsAs (h : m.copy p c s = some (c', s')) : c.EndsAs c' := by
  match c with
  | .empty | .items .. | .range .. | .buffered .. | .ordered _ (.sorted _ _) _ _ _ | .scope .. =>
    cases h
    exact .refl _
  | .concat spent rest pos fin =>
    obtain ⟨spent', s₁, -, h⟩ := Run.of_bind h
    obtain ⟨rest', s₂, -, h⟩ := Run.of_bind h
    cases h
    refine ⟨rfl, fun hspent => ⟨hspent.1, ?_⟩⟩
    rw [show fin = true from hspent.1]
    rfl
  | .nodesOnly input fin | .nth _ _ input _ _ _ fin =>
    obtain ⟨input', s₁, -, h⟩ := Run.of_bind h
    cases h
    refine ⟨rfl, fun hspent => ⟨hspent.1, ?_⟩⟩
    rw [show fin = true from hspent.1]
    rfl
  | .axis .. | .descent .. | .ordered _ (.unsorted _) _ _ _ =>
    obtain ⟨source', s₁, -, h⟩ := Run.of_bind h
    cases h
    exact ⟨rfl, id⟩
  | .predicate e input inputPos fixed size pos fin =>
    obtain ⟨slots, s₁, -, h⟩ := Run.of_bind h
    obtain ⟨input', s₂, -, h⟩ := Run.of_bind h
    cases h
    refine ⟨rfl, fun hspent => ⟨hspent.1, ?_⟩⟩
    rw [show fin = true from hspent.1]
    rfl
  | .forEach body b focus source run pos fin =>
    obtain ⟨slots, s₁, -, h⟩ := Run.of_bind h
    obtain ⟨source', s₂, -, h⟩ := Run.of_bind h
    match run with
    | .idle | .failed e =>
      cases h
      exact ⟨rfl, id⟩
    | .running inner consumed =>
      cases hcurrent : source'.current with
      | some item =>
        rw [hcurrent] at h
        obtain ⟨run', s₃, -, h⟩ := Run.of_bind h
        cases h
        exact ⟨rfl, fun hspent => nomatch hspent.2⟩
      | none =>
        rw [hcurrent] at h
        cases h
        exact ⟨rfl, fun hspent => nomatch hspent.2⟩
  | .step e source run pos fin =>
    obtain ⟨slots, s₁, -, h⟩ := Run.of_bind h
    obtain ⟨source', s₂, -, h⟩ := Run.of_bind h
    match run with
    | .idle | .failed e =>
      cases h
      exact ⟨rfl, id⟩
    | .running inner consumed =>
      obtain ⟨run', s₃, -, h⟩ := Run.of_bind h
      cases h
      exact ⟨rfl, fun hspent => nomatch hspent.2⟩

/-- Scopes are peeled off without going deeper. -/
theorem clone_induction {P : Cursor → Cursor → Prop}
    (hcopy : ∀ {p c s c' s'}, (machineWith keeper n p).copy p c s = some (c', s') → P c c')
    (hscope : ∀ {q σ c c'}, P c c' → P (.scope q σ c) c') :
    ∀ (c : Cursor) {p : Program} {s : Store} {c' : Cursor} {s' : Store},
      (machineWith keeper (n + 1) p).clone c s = some (c', s') → P c c'
  | .scope q σ c, p, s, c', s', h => by
    rw [clone_scope] at h
    obtain ⟨⟨c₁, s₁⟩, hinner, heq⟩ := Option.map_eq_some_iff.mp h
    cases heq
    exact hscope (clone_induction hcopy hscope c hinner)
  | .empty, p, _, _, _, h | .items .., p, _, _, _, h | .range .., p, _, _, _, h
  | .buffered .., p, _, _, _, h | .concat .., p, _, _, _, h | .nodesOnly .., p, _, _, _, h
  | .axis .., p, _, _, _, h | .descent .., p, _, _, _, h | .nth .., p, _, _, _, h
  | .predicate .., p, _, _, _, h | .forEach .., p, _, _, _, h | .step .., p, _, _, _, h
  | .ordered .., p, _, _, _, h => hcopy (p := p) h

theorem clone_endsAs (h : (machineWith keeper (n + 1) p).clone c s = some (c', s')) : c.EndsAs c' :=
  clone_induction copy_endsAs (fun hends => ⟨hends.finished, hends.spent⟩) c h

theorem Cursor.Tidy.clone (hc : c.Tidy) (h : (machineWith keeper n p).clone c s = some (c', s')) : c'.Tidy := by
  cases n with
  | zero => cases h
  | succ n =>
    intro hfinished
    have hends := clone_endsAs h
    exact hends.spent (hc (hends.finished.symm.trans hfinished))

theorem cloneAll_unread (hm : ∀ {c s c' s'}, c.Unread → m.clone c s = some (c', s') → c'.Unread)
    {cs cs' : List Cursor} (hcs : ∀ c ∈ cs, c.Unread) (h : m.cloneAll cs s = some (cs', s')) : ∀ c ∈ cs', c.Unread := by
  induction cs generalizing s cs' with
  | nil =>
    cases h
    exact nofun
  | cons c cs ih =>
    obtain ⟨c₁, s₁, hclone, h⟩ := Run.of_bind h
    obtain ⟨cs₁, s₂, hrest, h⟩ := Run.of_bind h
    cases h
    have hc₁ := hm (hcs c (.head _)) hclone
    exact List.forall_mem_cons.mpr ⟨hc₁, ih (fun d hd => hcs d (.tail c hd)) hrest⟩

theorem copy_unread (hm : ∀ {c s c' s'}, c.Unread → m.clone c s = some (c', s') → c'.Unread)
    (hc : c.Unread) (h : m.copy p c s = some (c', s')) : c'.Unread := by
  cases hc with
  | empty | ofItems | ofRange | ofCache | sorted =>
    cases h
    constructor
  | ofParts each =>
    obtain ⟨spent', s₁, hspent, h⟩ := Run.of_bind h
    cases hspent
    obtain ⟨rest', s₂, hrest, h⟩ := Run.of_bind h
    cases h
    exact .ofParts (cloneAll_unread hm each hrest)
  | requireNodes input =>
    obtain ⟨input', s₁, hinput, h⟩ := Run.of_bind h
    cases h
    exact .requireNodes (hm input hinput)
  | along axis test source =>
    obtain ⟨source', s₁, hsource, h⟩ := Run.of_bind h
    cases h
    exact .along axis test (hm source hsource)
  | descending tests source =>
    obtain ⟨source', s₁, hsource, h⟩ := Run.of_bind h
    cases h
    exact .descending tests (hm source hsource)
  | pick k perGroup input =>
    obtain ⟨input', s₁, hinput, h⟩ := Run.of_bind h
    cases h
    exact .pick k perGroup (hm input hinput)
  | filter e input =>
    obtain ⟨slots, s₁, -, h⟩ := Run.of_bind h
    obtain ⟨input', s₂, hinput, h⟩ := Run.of_bind h
    cases h
    exact .scope p _ (.filter e (hm input hinput))
  | loop body b focus source =>
    obtain ⟨slots, s₁, -, h⟩ := Run.of_bind h
    obtain ⟨source', s₂, hsource, h⟩ := Run.of_bind h
    cases h
    exact .scope p _ (.loop body b focus (hm source hsource))
  | through e source =>
    obtain ⟨slots, s₁, -, h⟩ := Run.of_bind h
    obtain ⟨source', s₂, hsource, h⟩ := Run.of_bind h
    cases h
    exact .scope p _ (.through e (hm source hsource))
  | inOrder unique input =>
    obtain ⟨input', s₁, hinput, h⟩ := Run.of_bind h
    cases h
    exact .inOrder unique (hm input hinput)
  | scope q σ inner =>
    cases h
    exact .scope q σ inner

/-- A copy of a cursor at its beginning is at its beginning. -/
theorem Cursor.Unread.clone (hc : c.Unread) (h : (machineWith keeper n p).clone c s = some (c', s')) : c'.Unread := by
  induction n generalizing p c s c' s' with
  | zero => cases h
  | succ n ih =>
    refine clone_induction (P := fun c c' => c.Unread → c'.Unread) (fun h hc => copy_unread ih hc h) ?_ c h hc
    intro q σ c c' hcopied hc
    cases hc with
    | scope _ _ inner => exact hcopied inner

end

/-! ## Cursors in use -/

inductive Cursor.Standing where
  | unread
  | pulled (r : Except Error Bool)
  /-- A copy of a cursor that stood on an item. -/
  | copied

def Cursor.Standing.copy : Cursor.Standing → Cursor.Standing
  | .pulled (.ok true) => .copied
  | st => st

/-- A cursor that was built from others, or a copy of it, after pulls, copies and resets in any order. Each of
these may find another store and go to another depth. -/
inductive Handled (keeper : Program → Variables) : Cursor.Standing → Cursor → Prop
  | built {c : Cursor} (h : c.Unread) : Handled keeper .unread c
  | pull {st : Cursor.Standing} {c c' : Cursor} {n : Nat} {p : Program} {s s' : Store}
      {r : Except Error Bool} (h : Handled keeper st c)
      (run : (machineWith keeper n p).next c s = some ((c', r), s')) : Handled keeper (.pulled r) c'
  | copy {st : Cursor.Standing} {c c' : Cursor} {n : Nat} {p : Program} {s s' : Store}
      (h : Handled keeper st c) (run : (machineWith keeper n p).clone c s = some (c', s')) :
      Handled keeper st.copy c'
  | reset {st : Cursor.Standing} {c : Cursor} (h : Handled keeper st c) : Handled keeper .unread c.reset

/-- What a cursor is known to be from what was done last to it. -/
def Cursor.StandsAs (c : Cursor) : Cursor.Standing → Prop
  | .unread => c.Unread
  | .pulled (.ok true) => c.Tidy ∧ c.current.isSome = true
  | .pulled _ => c.Spent
  | .copied => c.Tidy

section

variable {keeper : Program → Variables} {n : Nat} {p : Program} {c c' : Cursor} {s s' : Store}
  {st : Cursor.Standing}

theorem Cursor.StandsAs.tidy (h : c.StandsAs st) : c.Tidy := by
  match st with
  | .unread => exact Unread.tidy h
  | .pulled (.ok true) => exact h.1
  | .pulled (.ok false) | .pulled (.error e) => exact fun _ => h
  | .copied => exact h

theorem Cursor.StandsAs.next (h : c.StandsAs st) {r : Except Error Bool}
    (hrun : (machineWith keeper n p).next c s = some ((c', r), s')) : c'.StandsAs (.pulled r) := by
  have hafter := h.tidy.next hrun
  match r with
  | .ok true => exact ⟨hafter.tidy, Onto.current hafter⟩
  | .ok false | .error e => exact hafter

theorem Cursor.StandsAs.clone (h : c.StandsAs st)
    (hrun : (machineWith keeper n p).clone c s = some (c', s')) : c'.StandsAs st.copy := by
  match st with
  | .unread => exact Unread.clone h hrun
  | .pulled (.ok true) => exact Tidy.clone h.1 hrun
  | .pulled (.ok false) | .pulled (.error e) =>
    cases n with
    | zero => cases hrun
    | succ n => exact (clone_endsAs hrun).spent h
  | .copied => exact Tidy.clone h hrun

theorem Handled.standsAs (h : Handled keeper st c) : c.StandsAs st := by
  induction h with
  | built h => exact h
  | pull _ run ih => exact ih.next run
  | copy _ run ih => exact ih.clone run
  | reset => exact Cursor.reset_unread _

theorem Cursor.isFinished_of_spent : ∀ c : Cursor, c.Spent → c.isFinished = true
  | .items .., h => h.2.2
  | .scope _ _ c, h => isFinished_of_spent c h
  | .empty, h | .range .., h | .buffered .., h | .concat .., h | .nodesOnly .., h | .axis .., h
  | .descent .., h | .nth .., h | .predicate .., h | .forEach .., h | .step .., h | .ordered .., h => h.1

/-- The protocol. A cursor that was built or reset has no current item; a pull that brings an item leaves it on
one; a pull that ends or fails leaves it finished, without a current item, and every further pull of it or of a
copy of it finds the end and changes nothing. -/
theorem Handled.keeps_protocol (h : Handled keeper st c) :
    (st = .unread → c.current = none) ∧
    (st = .pulled (.ok true) → c.current.isSome = true) ∧
    ∀ r, st = .pulled r → r ≠ .ok true →
      c.current = none ∧ c.isFinished = true ∧
        ∀ n p s, (machineWith keeper (n + 1) p).next c s = some ((c, .ok false), s) := by
  have hstands := h.standsAs
  refine ⟨?_, ?_, ?_⟩
  · rintro rfl
    exact Cursor.Unread.current hstands
  · rintro rfl
    exact hstands.2
  · rintro r rfl hr
    have hspent : c.Spent := by
      match r with
      | .ok true => exact absurd rfl hr
      | .ok false | .error e => exact hstands
    exact ⟨c.current_of_spent hspent, c.isFinished_of_spent hspent,
      fun n p s => next_of_spent p c hspent s⟩

end

/-- A list of a number and something that must be a node and is not. -/
def partlyRefused : Cursor :=
  .ofParts [.ofRange 1 1, .requireNodes (.ofItem (.ofBool true))]

/-- The cursor brings an item; a copy of it fails and is then finished. -/
theorem keeps_protocol_partlyRefused :
    ∃ c c' c'' e s, (machine 3 (.empty .standard)).next partlyRefused (.ofSlots (.ofSize 0)) =
        some ((c, .ok true), s) ∧
      (machine 3 (.empty .standard)).clone c s = some (c', s) ∧
      (machine 3 (.empty .standard)).next c' s = some ((c'', .error e), s) ∧
      c.current.isSome = true ∧ c''.current = none ∧ c''.isFinished = true ∧
      (machine 3 (.empty .standard)).next c'' s = some ((c'', .ok false), s) ∧
      c''.reset.current = none := by
  refine ⟨_, _, _, _, _, rfl, rfl, rfl, ?_⟩
  have hbuilt : Handled (fun _ => .inSlots) .unread partlyRefused := by
    refine .built (.ofParts ?_)
    intro c hc
    simp only [List.mem_cons, List.not_mem_nil, or_false] at hc
    rcases hc with rfl | rfl
    · exact .ofRange 1 1
    · exact .requireNodes (.ofItems _)
  have hitem := hbuilt.pull (n := 3) (p := .empty .standard) (s := .ofSlots (.ofSize 0)) rfl
  have hfailed := (hitem.copy (n := 3) (p := .empty .standard) (s := .ofSlots (.ofSize 0)) rfl).pull (n := 3)
    (p := .empty .standard) (s := .ofSlots (.ofSize 0)) rfl
  obtain ⟨hcurrent, hfinished, hagain⟩ := hfailed.keeps_protocol.2.2 _ rfl (by nofun)
  exact ⟨hitem.keeps_protocol.2.1 rfl, hcurrent, hfinished, hagain 2 _ _,
    hfailed.reset.keeps_protocol.1 rfl⟩

end XPath
