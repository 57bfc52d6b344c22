import Mathlib.Data.List.Basic
import XPath.Proofs.Related

/-!
# Lexical scoping

A second way to keep the variables of a program: an environment with one cell for every name. A loop
extends the environment for every item without changing the one it was given, and whatever it computes
is closed over the extended one. A reference reads the cell of its name, so it sees the innermost loop
around it that binds the name, or the external variable.

`Query.evaluateLexically` runs a query this way. Everything else is done as by the machine with slots.
The module also says when a table of slots agrees with an environment for the loops in scope.
-/

namespace XPath

variable {i lo' : Nat} {name : ExpandedName} {b : Binding}

/-! ## The environment -/

def Form.loopVariable? : Form → Option ExpandedName
  | .forEach var _ | .quantified _ var _ => some var
  | _ => none

namespace Program

/-- All variables of a program, external ones first. -/
def variableNames (p : Program) : List ExpandedName :=
  p.static.settings.externals ++ p.nodes.toList.filterMap (·.form.loopVariable?)

def cell (p : Program) (name : ExpandedName) : Nat :=
  p.variableNames.idxOf name

theorem mem_variableNames {p : Program} {e : ExprId} {form : Form} {var : ExpandedName}
    (hform : p.form? e = some form) (hvar : form.loopVariable? = some var) : var ∈ p.variableNames := by
  obtain ⟨node, hnode, rfl⟩ := Option.map_eq_some_iff.mp hform
  refine List.mem_append_right _ (List.mem_filterMap.mpr ⟨node, ?_, hvar⟩)
  exact Array.mem_toList_iff.mpr (Array.mem_of_getElem? hnode)

/-- Different variables have different cells. -/
theorem cell_ne {p : Program} {a b : ExpandedName} (ha : a ∈ p.variableNames) (hab : b ≠ a) : p.cell b ≠ p.cell a :=
  fun h => hab ((List.idxOf_inj ha).mp h.symm).symm

end Program

/-- A focus that is taken along into another environment stays in its own. -/
def Focus.within (p : Program) (env : Slots) : Focus → Focus
  | .fixed s => .fixed s
  | .current input => .current (.scope p env input)

def Variables.lexical (p : Program) : Variables :=
  { lookup := fun name _ => do
      match (← get).slots.get? (p.cell name) with
      | some items => return items
      | none => throw (.format .XPDY0002 ["$" ++ name.text])
    iterate := fun binding item focus run => do
      let env := (← get).slots
      let extended := env.set (p.cell binding.name) [item]
      let (r, _) ← onSlots extended (run (focus.within p env)).run
      return .scope p extended (← r) }

theorem lexical_iterate_apply (p : Program) (b : Binding) (item : Item) (focus : Focus)
    (run : Focus → Eval Cursor) (t : Store) : (Variables.lexical p).iterate b item focus run t =
      (run (focus.within p t.slots) { t with slots := t.slots.set (p.cell b.name) [item] }).map
        fun r => (r.1.map (.scope p (t.slots.set (p.cell b.name) [item])),
          { r.2 with slots := t.slots }) := by
  change ((onSlots (t.slots.set (p.cell b.name) [item]) (run (focus.within p t.slots)).run t).bind
    fun r => some ((Except.ok r.1 : Except Error _), r.2)).bind _ = _
  rw [onSlots_apply]
  change _ = Option.map _
    ((run (focus.within p t.slots)).run { t with slots := t.slots.set (p.cell b.name) [item] })
  cases (run (focus.within p t.slots)).run
      { t with slots := t.slots.set (p.cell b.name) [item] } with
  | none => rfl
  | some r =>
    obtain ⟨r, t'⟩ := r
    cases r <;> rfl

def lexicalMachine : Nat → Program → Calls :=
  machineWith Variables.lexical

namespace Query

def environment (q : Query) (slots : Slots) : Slots :=
  ⟨slots.values.extract 0 q.slots.external⟩

/-- All items of the result, with lexical scoping. -/
def evaluateLexically (fuel : Nat) (q : Query) (focus : Snapshot) (env : Slots) : Option (Except Error (List Item)) :=
  let m := lexicalMachine fuel q.program
  let run : Eval (List Item) := do m.drain (← m.execute q.root (.fixed focus))
  (run.run.run (.ofSlots env)).map (·.1)

end Query

/-! ## Slots -/

namespace Slots

theorem get?_set_self (s : Slots) (i : Nat) (v : List Item) : (s.set i v).get? i = some v := by
  unfold get? set reaching
  split
  next h => simp [size] at h ⊢; simp [h]
  next h =>
    have hsize : i < s.values.size + (i + 1 - s.values.size) := by omega
    simp [size, hsize]

theorem get?_set_ne (s : Slots) {j : Nat} (h : j ≠ i) (v : List Item) : (s.set i v).get? j = s.get? j := by
  unfold get? set reaching
  have hij : i ≠ j := fun e => h e.symm
  split
  next => simp [hij]
  next hi =>
    rw [Array.getElem?_setIfInBounds_ne hij, Array.getElem?_append]
    split
    next => rfl
    next hj =>
      rw [Array.getElem?_eq_none (Nat.le_of_not_lt hj), Array.getElem?_replicate]
      split <;> rfl

end Slots

/-- Nothing but the slots from `lo` to below `hi` differs. -/
def Frame (lo hi : Nat) (σ σ' : Slots) : Prop :=
  ∀ i, i < lo ∨ hi ≤ i → σ'.get? i = σ.get? i

namespace Frame

variable {lo hi : Nat} {σ σ' σ'' : Slots}

theorem refl : Frame lo hi σ σ :=
  fun _ _ => rfl

theorem trans (h : Frame lo hi σ σ') (h' : Frame lo hi σ' σ'') : Frame lo hi σ σ'' :=
  fun i hi => (h' i hi).trans (h i hi)

theorem widen {hi' : Nat} (h : Frame lo hi σ σ') (hlo : lo' ≤ lo) (hhi : hi ≤ hi') : Frame lo' hi' σ σ' :=
  fun i hi => h i (by omega)

theorem set {v : List Item} (h : Frame lo hi σ σ') (hlo : lo ≤ i) (hhi : i < hi) : Frame lo hi σ (σ'.set i v) := by
  intro j hj
  rw [Slots.get?_set_ne σ' (by omega)]
  exact h j hj

end Frame

/-! ## Agreement for the loops in scope -/

/-- The binding of a name: that of the innermost loop in scope, or that of the external variable. -/
def Program.bindingOf (p : Program) (scope : List Binding) (name : ExpandedName) : Option Binding :=
  (scope.find? (·.name = name)).or
    ((p.static.settings.externals.findIdx? (· = name)).map fun slot => ⟨name, slot, .any⟩)

/-- All variables that can be referred to have slots below a number. -/
structure ScopeBelow (p : Program) (scope : List Binding) (lo : Nat) : Prop where
  externals : p.static.settings.externals.length ≤ lo
  loops : ∀ b ∈ scope, b.slot < lo

theorem Program.scopeBelow_nil (p : Program) : ScopeBelow p [] p.static.settings.externals.length :=
  ⟨.refl, by rintro _ ⟨⟩⟩

/-- Slots and environment give every variable in scope the same value. -/
def Agrees (p : Program) (scope : List Binding) (σ env : Slots) : Prop :=
  ∀ name b, p.bindingOf scope name = some b → σ.get? b.slot = env.get? (p.cell name)

section

variable {p : Program} {scope : List Binding} {lo hi : Nat} {σ σ' env : Slots}

theorem ScopeBelow.slot_lt (h : ScopeBelow p scope lo) (hb : p.bindingOf scope name = some b) : b.slot < lo := by
  unfold Program.bindingOf at hb
  cases hfind : scope.find? (·.name = name) with
  | some b' =>
    rw [hfind] at hb
    cases hb
    exact h.loops b (List.mem_of_find?_eq_some hfind)
  | none =>
    rw [hfind] at hb
    obtain ⟨slot, hslot, rfl⟩ := Option.map_eq_some_iff.mp hb
    have hlt := (List.findIdx?_eq_some_iff_getElem.mp hslot).1
    exact Nat.lt_of_lt_of_le hlt h.externals

theorem ScopeBelow.mono (h : ScopeBelow p scope lo) (hlo : lo ≤ lo') : ScopeBelow p scope lo' :=
  ⟨Nat.le_trans h.externals hlo, fun b hb => Nat.lt_of_lt_of_le (h.loops b hb) hlo⟩

theorem ScopeBelow.cons (h : ScopeBelow p scope lo) (hb : lo ≤ b.slot) : ScopeBelow p (b :: scope) (b.slot + 1) := by
  refine ⟨Nat.le_trans h.externals (by omega), ?_⟩
  intro b' hb'
  rcases List.mem_cons.mp hb' with rfl | hb'
  · omega
  · have := h.loops b' hb'
    omega

theorem Program.name_of_bindingOf (hb : p.bindingOf scope name = some b) : b.name = name := by
  unfold Program.bindingOf at hb
  cases hfind : scope.find? (·.name = name) with
  | some b' =>
    rw [hfind] at hb
    cases hb
    simpa using List.find?_some hfind
  | none =>
    rw [hfind] at hb
    obtain ⟨slot, -, rfl⟩ := Option.map_eq_some_iff.mp hb
    rfl

/-- Slots above those in scope do not matter. -/
theorem Agrees.frame (h : Agrees p scope σ env) (hscope : ScopeBelow p scope lo)
    (hframe : Frame lo hi σ σ') : Agrees p scope σ' env := by
  intro name b hb
  rw [hframe b.slot (.inl (hscope.slot_lt hb))]
  exact h name b hb

/-- A loop variable joins the scope: its slot holds the item, and its cell does in the extended
environment. -/
theorem Agrees.extend (h : Agrees p scope σ env) {item : Item} (hname : b.name ∈ p.variableNames)
    (hslot : σ.get? b.slot = some [item]) : Agrees p (b :: scope) σ (env.set (p.cell b.name) [item]) := by
  intro name b' hb'
  by_cases hn : b.name = name
  · have hbind : p.bindingOf (b :: scope) name = some b := by
      simp [Program.bindingOf, hn]
    rw [hbind] at hb'
    cases hb'
    rw [hslot, ← hn, Slots.get?_set_self]
  · have hbind : p.bindingOf (b :: scope) name = p.bindingOf scope name := by
      simp [Program.bindingOf, hn]
    rw [hbind] at hb'
    rw [Slots.get?_set_ne env (Program.cell_ne hname (fun e => hn e.symm))]
    exact h name b' hb'

end

end XPath
