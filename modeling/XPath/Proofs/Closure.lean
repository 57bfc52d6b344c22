import XPath.Proofs.Binding
import XPath.Proofs.Keepers

/-!
# The items of a run

A property of items that atomic values have and that the nodes of a document share, such as to be in one
of certain documents, holds of all items that occur in a run if it holds of those that the run is given.
A run is compared with itself for this: a cursor that is alike itself delivers only such items.
-/

namespace XPath

variable {s s' : Store} {n : Nat} {c : Cursor}

/-- A property of items that the functions of a program keep to. -/
structure Closed (p : Program) (Ok : Item → Prop) : Prop where
  atomics : ∀ a, Ok (.atomic a)
  docWise : DocWise Ok
  calls : ∀ e name f, p.form? e = some (.call name (some f)) → ∀ site, (f.body site).Sound Ok

/-- The terms on which a run is compared with itself. -/
def Terms.ofItems (p : Program) (Ok : Item → Prop) (pinned : Bool) : Terms :=
  .alone p Ok (fun _ => False) pinned False fun _ _ _ _ => False

section

variable {p : Program} {Ok : Item → Prop}

theorem Closed.steady (h : Closed p Ok) {pinned : Bool} {keeper : Program → Variables}
    (kept : (Terms.ofItems p Ok pinned).KeptBy False keeper) : Steady (.ofItems p Ok pinned) False keeper Eq where
  pred := fun _ _ => Nat.succ.inj
  fuelLe := fun _ _ hn => .inl hn
  atomics := h.atomics
  docWise := h.docWise
  parallel := Terms.parallel_alone fun _ h => h.elim
  keeping := Terms.keeping_alone False _ Eq
  calls := fun e name f hform => .level (h.calls e name f hform) id
  focusless := Terms.focusless_of_not fun _ h => h
  pairs := fun _ _ _ _ _ _ _ _ _ hpair => hpair.elim
  kept := kept

theorem Closed.onSlots (h : Closed p Ok) : Steady (.ofItems p Ok false) False (fun _ => .inSlots) Eq :=
  h.steady (Terms.OnSlots.kept ⟨rfl, fun _ _ h => h⟩)

/-- Only such items are in the cursor and in the slots. -/
def Intact (p : Program) (Ok : Item → Prop) (c : Cursor) (s : Store) : Prop :=
  Alike (.ofItems p Ok false) noRecord none c c ∧ s.slots.Sound Ok

def Focus.Intact (p : Program) (Ok : Item → Prop) : Focus → Prop
  | .fixed snap => ∀ i, snap.item = some i → Ok i
  | .current c => Alike (.ofItems p Ok false) noRecord none c c

theorem abreast_self (h : s.slots.Sound Ok) : Abreast (.ofItems p Ok false) none Eq s s :=
  ⟨fun _ => rfl, nofun, h, rfl⟩

theorem Intact.next (h : Closed p Ok) {c' : Cursor} {r : Except Error Bool}
    (hc : Intact p Ok c s) (hrun : (machine n p).next c s = some ((c', r), s')) :
    Intact p Ok c' s' ∧ ∀ i, c'.current = some i → Ok i := by
  have hnext := (h.onSlots.steady (rfl : n = n)).next (recorded_noRecord _ _) rfl c s c s
    ⟨hc.1, abreast_self hc.2⟩
  obtain ⟨x, t, hx, -, -, -, hok, halike, hst⟩ := hnext.of_some hrun
  obtain ⟨rfl, rfl⟩ := Prod.mk.inj (Option.some.inj (hx.symm.trans hrun))
  exact ⟨⟨halike, hst.sound⟩, hok.1⟩

theorem Intact.execute (h : Closed p Ok) {e : ExprId} {focus : Focus}
    (hfocus : focus.Intact p Ok) (hs : s.slots.Sound Ok)
    (hrun : (machine n p).execute e focus s = some (.ok c, s')) : Intact p Ok c s' := by
  have hfoci : Foci (.ofItems p Ok false) Eq none focus focus := by
    cases focus with
    | fixed snap => exact .fixed hfocus
    | current c => exact .current hfocus fun _ _ => Iff.rfl
  have hexec := (h.onSlots.steady (rfl : n = n)).execute (recorded_noRecord _ _) rfl Envs.level_none (rfl : e = e)
    (fun _ => hfoci) s s (abreast_self hs)
  obtain ⟨x, t, hx, hsettled⟩ := Related.of_some hexec hrun
  obtain ⟨rfl, rfl⟩ := Prod.mk.inj (Option.some.inj (hx.symm.trans hrun))
  exact ⟨hsettled.value.1, hsettled.value.2.sound⟩

end

end XPath
