import XPath.Proofs.Placement
import XPath.Proofs.Stages

/-!
# Cursors over slots and cursors over environments

`Sim` relates a cursor of the machine with slots to the cursor that the machine with environments has in
its place. The relation is about one moment. A cursor may still be pulled, and then the slots of the loops
it is in the middle of hold the items of those loops; or it is dormant, which means that it will never be
pulled again, only copied, and then nothing is asked of the slots in its interval. That is what makes the
sharing of slots sound: an expression may take over an interval only from cursors that are dormant, or
that have not been pulled yet.

A cursor that stands in a scope on the left brings its own slots. The right cursor may stand in a scope
of its own or in the environment around it.
-/

namespace XPath

variable {lo₁ hi₁ : Nat}

/-- Where a sequence in progress comes from: the expression, its focus, the environment, and how many
items have been read. -/
abbrev Origin := ExprId → Focus → Slots → Cursor → Nat → Prop

/-- A finished cursor leaves what it drew on dormant. -/
def dormantIf (fin : Bool) (live : Option Slots) : Option Slots :=
  if fin then none else live

/-- An interval that ends below another one, both in a third. -/
structure Nested (lo mid lo' hi' hi : Nat) : Prop where
  left : lo ≤ mid
  apart : mid ≤ lo'
  inner : lo' ≤ hi'
  upper : hi' ≤ hi

namespace Nested

variable {lo mid lo' hi' hi : Nat}

theorem mid_le (h : Nested lo mid lo' hi' hi) : mid ≤ hi := by
  obtain ⟨h₁, h₂, h₃, h₄⟩ := h
  omega

theorem lo_le (h : Nested lo mid lo' hi' hi) : lo ≤ lo' := by
  obtain ⟨h₁, h₂, h₃, h₄⟩ := h
  omega

theorem widen (h : Nested lo mid lo' hi' hi) (hlo : lo₁ ≤ lo) (hhi : hi ≤ hi₁) : Nested lo₁ mid lo' hi' hi₁ :=
  ⟨Nat.le_trans hlo h.left, h.apart, h.inner, Nat.le_trans h.upper hhi⟩

end Nested

/-- Where a loop works in an interval: its source below `mid`, and what it starts from `lo'` to below `hi'`, with
these variables in scope. -/
inductive LoopPlaced (p : Program) (Fit : FunctionEntry → Prop) (scope : List Binding) (lo hi : Nat) :
    Looping → Nat → Nat → Nat → List Binding → Prop
  | forEach {body b hi'} (focus : Snapshot) (name : b.name ∈ p.variableNames) (lower : lo ≤ b.slot)
      (slot : b.slot < hi') (upper : hi' ≤ hi) (placed : Placed p Fit (b :: scope) (b.slot + 1) hi' body) :
      LoopPlaced p Fit scope lo hi (.forEach body b focus) b.slot (b.slot + 1) hi' (b :: scope)
  | step {e mid lo' hi'} (nested : Nested lo mid lo' hi' hi) (placed : Placed p Fit scope lo' hi' e) :
      LoopPlaced p Fit scope lo hi (.step e) mid lo' hi' scope

namespace LoopPlaced

variable {p : Program} {Fit : FunctionEntry → Prop} {scope scope' : List Binding} {lo hi mid lo' hi' : Nat}
  {l : Looping} (h : LoopPlaced p Fit scope lo hi l mid lo' hi' scope')

include h

theorem nested : Nested lo mid lo' hi' hi := by
  cases h with
  | forEach focus name lower slot upper placed => exact ⟨lower, Nat.le_succ _, slot, upper⟩
  | step nested placed => exact nested

theorem widen (hlo : lo₁ ≤ lo) (hhi : hi ≤ hi₁) : LoopPlaced p Fit scope lo₁ hi₁ l mid lo' hi' scope' := by
  cases h with
  | forEach focus name lower slot upper placed =>
    exact .forEach focus name (Nat.le_trans hlo lower) slot (Nat.le_trans upper hhi) placed
  | step nested placed => exact .step (nested.widen hlo hhi) placed

end LoopPlaced

/-- What is in progress for the current item of a source: `j` in an environment, and how it stands in the loop. The
body of a loop brings its environment along on the right; on the left the item is in the variable's slot. -/
inductive LoopRuns (p : Program) (live : Option Slots) (env : Slots) (c j : Cursor) :
    Looping → Slots → Cursor → Prop
  | forEach {body b item focus} (current : c.current = some item)
      (held : ∀ σ, live = some σ → σ.get? b.slot = some [item]) :
      LoopRuns p live env c j (.forEach body b focus) (env.set (p.cell b.name) [item])
        (.scope p (env.set (p.cell b.name) [item]) j)
  | step {e} : LoopRuns p live env c j (.step e) env j

/-- The cursors agree; `live` are the slots if the cursors may still be pulled. The left cursor works in
the slots from `lo` to below `hi`, with the variables in scope below them; without a scope it uses only
slots that it brings along. -/
inductive Sim (p : Program) (Fit : FunctionEntry → Prop) (gen : Origin) :
    Option Slots → Option (List Binding) → Nat → Nat → Slots → Cursor → Cursor → Prop
  | leaf {live scope lo hi env c} (h : Leaf (fun _ => True) c) : Sim p Fit gen live scope lo hi env c c
  /-- The parts before the current one are dormant, those after it have not been pulled. -/
  | concat {live scope lo hi env fin} {gone gone' rest rest' : List Cursor} (pos : Nat)
      (goneLength : gone.length = gone'.length) (restLength : rest.length = rest'.length)
      (spent : ∀ (i : Nat) c d, gone[i]? = some c → gone'[i]? = some d →
        Sim p Fit gen none scope lo hi env c d)
      (head : ∀ c d, rest[0]? = some c → rest'[0]? = some d →
        Sim p Fit gen (dormantIf fin live) scope lo hi env c d)
      (tail : ∀ (i : Nat) c d σ, rest[i + 1]? = some c → rest'[i + 1]? = some d →
        Sim p Fit gen (some σ) scope lo hi env c d) :
      Sim p Fit gen live scope lo hi env (.concat gone rest pos fin) (.concat gone' rest' pos fin)
  | stage {live scope lo hi env c d fin} (st : Stage)
      (input : Sim p Fit gen (dormantIf fin live) scope lo hi env c d) :
      Sim p Fit gen live scope lo hi env (st.on c fin) (st.on d fin)
  | predicate {live scope lo hi env e c d fin mid lo' hi'} (inputPos : Nat)
      (fixed : Option Selection) (size : Option Nat) (pos : Nat) (nested : Nested lo mid lo' hi' hi)
      (placed : Placed p Fit scope lo' hi' e)
      (input : Sim p Fit gen (dormantIf fin live) (some scope) lo mid env c d) :
      Sim p Fit gen live (some scope) lo hi env (.predicate e c inputPos fixed size pos fin)
        (.predicate e d inputPos fixed size pos fin)
  | loop {live scope lo hi env l c d run fin mid lo' hi' scope'} (pos : Nat)
      (idle : run = .idle ∨ ∃ e, run = .failed e) (placed : LoopPlaced p Fit scope lo hi l mid lo' hi' scope')
      (source : Sim p Fit gen (dormantIf fin live) (some scope) lo mid env c d) :
      Sim p Fit gen live (some scope) lo hi env (l.on c run pos fin) (l.on d run pos fin)
  | running {live scope lo hi env l c d i j j' k mid lo' hi' scope' env'} (pos : Nat)
      (placed : LoopPlaced p Fit scope lo hi l mid lo' hi' scope')
      (runs : LoopRuns p live env c j l env' j') (origin : gen l.body (l.focus d) env' j k)
      (source : Sim p Fit gen live (some scope) lo mid env c d)
      (inner : Sim p Fit gen live (some scope') lo' hi' env' i j) :
      Sim p Fit gen live (some scope) lo hi env (l.on c (.running i k) pos false) (l.on d (.running j' k) pos false)
  | scope {live scope lo hi env σ env' scope' lo' hi' c d} (agrees : Agrees p scope' σ env')
      (below : ScopeBelow p scope' lo')
      (inner : Sim p Fit gen (some σ) (some scope') lo' hi' env' c d) :
      Sim p Fit gen live scope lo hi env (.scope p σ c) (.scope p env' d)
  | scopeLeft {live scope lo hi env σ scope' lo' hi' c d} (agrees : Agrees p scope' σ env)
      (below : ScopeBelow p scope' lo')
      (inner : Sim p Fit gen (some σ) (some scope') lo' hi' env c d) :
      Sim p Fit gen live scope lo hi env (.scope p σ c) d

/-- What may change about the slots of a cursor in an interval: it becomes dormant, or slots outside the
interval are written. -/
inductive Keeps (lo hi : Nat) : Option Slots → Option Slots → Prop
  | dormant {live : Option Slots} : Keeps lo hi live none
  | slots {σ σ' : Slots} (h : ∀ i, lo ≤ i → i < hi → σ'.get? i = σ.get? i) :
      Keeps lo hi (some σ) (some σ')

namespace Keeps

variable {lo hi lo' hi' : Nat} {live live' : Option Slots}

theorem refl : Keeps lo hi live live := by
  cases live with
  | none => exact .dormant
  | some σ => exact .slots fun _ _ _ => rfl

theorem narrow (h : Keeps lo hi live live') (hlo : lo ≤ lo') (hhi : hi' ≤ hi) : Keeps lo' hi' live live' := by
  cases h with
  | dormant => exact .dormant
  | slots h => exact .slots fun i hi hi' => h i (by omega) (by omega)

theorem dormantIf (h : Keeps lo hi live live') (fin : Bool) :
    Keeps lo hi (dormantIf fin live) (XPath.dormantIf fin live') := by
  cases fin with
  | true => exact .dormant
  | false => exact h

end Keeps

namespace Sim

variable {p : Program} {Fit : FunctionEntry → Prop} {gen gen' : Origin} {live live' : Option Slots}
  {scope : Option (List Binding)} {lo hi lo' hi' : Nat} {env : Slots} {c d : Cursor}

section

variable (h : Sim p Fit gen live scope lo hi env c d)

include h

theorem current_eq : c.current = d.current := by
  induction h with
  | leaf h => rfl
  | concat pos goneLength restLength spent head tail ihSpent ihHead ihTail =>
    rename_i fin gone gone' rest rest'
    cases fin with
    | true => rfl
    | false =>
      match rest, rest' with
      | [], [] => rfl
      | c :: cs, d :: ds => exact ihHead c d rfl rfl
  | stage st input ih => exact st.current_on ih
  | @predicate _ _ _ _ _ _ _ _ fin _ _ _ inputPos fixed size pos nested placed input ih =>
    cases fin with
    | true => rfl
    | false => exact ih
  | @loop _ _ _ _ _ l _ _ _ _ _ _ _ _ pos idle placed source ih => rw [(l.wraps_on ..).1, (l.wraps_on ..).1]
  | @running _ _ _ _ _ l _ _ _ _ _ _ _ _ _ _ _ pos placed runs origin source inner ihSource ihInner =>
    rw [(l.wraps_on ..).1, (l.wraps_on ..).1]
    cases runs <;> exact ihInner
  | scope agrees below inner ih | scopeLeft agrees below inner ih => exact ih

theorem position_eq : c.position = d.position := by
  induction h with
  | stage st input ih => exact st.position_on ih
  | loop | running => rw [(Looping.wraps_on _ ..).2, (Looping.wraps_on _ ..).2]
  | scope agrees below inner ih | scopeLeft agrees below inner ih => exact ih
  | _ => rfl

/-- Related cursors stay so while others are pulled, when they become dormant, and in a wider interval. -/
theorem mono (hgen : ∀ e f env c k, gen e f env c k → gen' e f env c k) :
    ∀ {live' : Option Slots} {lo' hi' : Nat}, Keeps lo hi live live' → lo' ≤ lo → hi ≤ hi' →
      Sim p Fit gen' live' scope lo' hi' env c d := by
  induction h with
  | leaf h => exact fun _ _ _ => .leaf h
  | concat pos goneLength restLength spent head tail ihSpent ihHead ihTail =>
    intro live' lo' hi' hk hlo hhi
    exact .concat pos goneLength restLength (fun i c d hc hd => ihSpent i c d hc hd .dormant hlo hhi)
      (fun c d hc hd => ihHead c d hc hd (hk.dormantIf _) hlo hhi)
      (fun i c d σ hc hd => ihTail i c d σ hc hd .refl hlo hhi)
  | stage st input ih => exact fun hk hlo hhi => .stage st (ih (hk.dormantIf _) hlo hhi)
  | predicate inputPos fixed size pos nested placed input ih =>
    intro live' lo' hi' hk hlo hhi
    exact .predicate inputPos fixed size pos (nested.widen hlo hhi) placed
      (ih ((hk.dormantIf _).narrow .refl nested.mid_le) hlo .refl)
  | loop pos idle placed source ih =>
    intro live' lo' hi' hk hlo hhi
    exact .loop pos idle (placed.widen hlo hhi)
      (ih ((hk.dormantIf _).narrow .refl placed.nested.mid_le) hlo .refl)
  | running pos placed runs origin source inner ihSource ihInner =>
    intro live' lo' hi' hk hlo hhi
    have hn := placed.nested
    refine .running pos (placed.widen hlo hhi) ?_ (hgen _ _ _ _ _ origin)
      (ihSource (hk.narrow .refl hn.mid_le) hlo .refl)
      (ihInner (hk.narrow hn.lo_le hn.upper) .refl .refl)
    cases runs with
    | step => exact .step
    | forEach current held =>
      refine .forEach current ?_
      rintro σ rfl
      cases hk with
      | slots h =>
        cases placed with
        | forEach focus name lower slot upper placed =>
          rw [h _ lower (Nat.lt_of_lt_of_le slot upper)]
          exact held _ rfl
  | scope agrees below inner ih =>
    exact fun _ _ _ => .scope agrees below (ih .refl .refl .refl)
  | scopeLeft agrees below inner ih =>
    exact fun _ _ _ => .scopeLeft agrees below (ih .refl .refl .refl)

/-- Where the outermost scopes stand. -/
theorem scopes : ((∀ q σ c₀, c ≠ .scope q σ c₀) ∧ ∀ q σ d₀, d ≠ .scope q σ d₀) ∨
    ∃ σ env' scope' lo' hi' c₀ d₀, c = .scope p σ c₀ ∧ (d = .scope p env' d₀ ∨ env' = env ∧ d₀ = d) ∧
      Agrees p scope' σ env' ∧ ScopeBelow p scope' lo' ∧ Sim p Fit gen (some σ) (some scope') lo' hi' env' c₀ d₀ := by
  cases h with
  | leaf h => exact .inl ⟨fun _ _ _ => h.ne_scope, fun _ _ _ => h.ne_scope⟩
  | stage st input => exact .inl ⟨fun _ _ _ => st.on_ne_scope, fun _ _ _ => st.on_ne_scope⟩
  | loop | running => exact .inl ⟨fun _ _ _ => Looping.on_ne_scope _, fun _ _ _ => Looping.on_ne_scope _⟩
  | scope agrees below inner => exact .inr ⟨_, _, _, _, _, _, _, rfl, .inl rfl, agrees, below, inner⟩
  | scopeLeft agrees below inner => exact .inr ⟨_, _, _, _, _, _, _, rfl, .inr ⟨rfl, rfl⟩, agrees, below, inner⟩
  | _ => exact .inl ⟨nofun, nofun⟩

theorem retire (fin : Bool) : Sim p Fit gen (dormantIf fin live) scope lo hi env c d := by
  refine h.mono (fun _ _ _ _ _ h => h) ?_ .refl .refl
  cases fin with
  | true => exact .dormant
  | false => exact .refl

theorem dormant : Sim p Fit gen none scope lo hi env c d :=
  h.mono (fun _ _ _ _ _ h => h) .dormant .refl .refl

end

/-- Writing slots outside its interval does not touch a cursor. -/
theorem frame {σ σ' : Slots} (h : Sim p Fit gen (some σ) scope lo hi env c d) {lo' hi' : Nat}
    (hframe : Frame lo' hi' σ σ') (hapart : hi ≤ lo' ∨ hi' ≤ lo) : Sim p Fit gen (some σ') scope lo hi env c d := by
  refine h.mono (fun _ _ _ _ _ h => h) (.slots ?_) .refl .refl
  intro i hlo hhi
  exact hframe i (by omega)

end Sim

end XPath
