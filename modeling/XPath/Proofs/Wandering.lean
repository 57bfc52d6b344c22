import XPath.Proofs.Related

/-!
# Walks from one node after the other

A step along an axis and a descent do the same with different walks: they go on with a walk, and where it finds no
more they start another one from the next node of their source (`Wander`). What holds at the end of such a
loop follows from what holds where it ends at once and from what pulls of the source keep (`Wander.induct`,
and `Wander.related` for two loops side by side).
-/

namespace XPath

/-- A loop that goes on with a walk, or starts a new one from the next node of its source. -/
structure Wander where
  W : Type
  step : W → Option (Node × W)
  start : Node → W
  stop : W
  err : Error
  dynamic : err.isStatic = false
  wrap : Cursor → W → Option Node → Nat → Bool → Cursor
  next : Calls → Nat → Cursor → W → Nat → Run Pulled
  stopped : step stop = none
  current : ∀ {c w n pos fin}, (wrap c w n pos fin).current = n.map .node
  position : ∀ {c w n pos fin}, (wrap c w n pos fin).position = pos
  unfinished : ∀ {c w n pos}, (wrap c w n pos false).isFinished = false
  machine : ∀ {keeper k p c w n pos s}, (machineWith keeper (k + 1) p).next (wrap c w n pos false) s =
    next (machineWith keeper k p) (machineWith keeper k p).fuel c w pos s
  found : ∀ {m fuel c w w' n pos s}, step w = some (n, w') →
    next m fuel c w pos s = some ((wrap c w' (some n) (pos + 1) false, .ok true), s)
  exhausted : ∀ {m c w pos s}, step w = none → next m 0 c w pos s = none
  pulled : ∀ {m fuel c w pos s}, step w = none → next m (fuel + 1) c w pos s = (m.next c s).bind fun x =>
    match x with
    | ((c', .ok true), s') =>
      match c'.current with
      | some (.node n) => next m fuel c' (start n) 0 s'
      | _ => some ((wrap c' stop none pos true, .error err), s')
    | ((c', r), s') => some ((wrap c' stop none pos true, r), s')

namespace Wander

variable {ω : Wander} {m : Calls} {w : ω.W} {c c' : Cursor} {s s' : Store} {fuel pos : Nat}

theorem next_of_node (hw : ω.step w = none) {n : Node} (hpull : m.next c s = some ((c', .ok true), s'))
    (hn : c'.current = some (.node n)) : ω.next m (fuel + 1) c w pos s = ω.next m fuel c' (ω.start n) 0 s' := by
  rw [ω.pulled hw, hpull]
  simp only [Option.bind_some, hn]

theorem next_of_other (hw : ω.step w = none) (hpull : m.next c s = some ((c', .ok true), s'))
    (hother : ∀ n, c'.current ≠ some (.node n)) :
    ω.next m (fuel + 1) c w pos s = some ((ω.wrap c' ω.stop none pos true, .error ω.err), s') := by
  rw [ω.pulled hw, hpull]
  dsimp only [Option.bind_some]
  split
  · next n hn => exact absurd hn (hother n)
  · rfl

theorem next_of_atomic (hw : ω.step w = none) {a : AtomicValue} (hpull : m.next c s = some ((c', .ok true), s'))
    (ha : c'.current = some (.atomic a)) :
    ω.next m (fuel + 1) c w pos s = some ((ω.wrap c' ω.stop none pos true, .error ω.err), s') :=
  next_of_other hw hpull fun _ hn => nomatch hn.symm.trans ha

theorem next_of_end (hw : ω.step w = none) {res : Except Error Bool} (hpull : m.next c s = some ((c', res), s'))
    (hres : res ≠ .ok true) : ω.next m (fuel + 1) c w pos s = some ((ω.wrap c' ω.stop none pos true, res), s') := by
  rw [ω.pulled hw, hpull]
  match res, hres with
  | .ok true, h => exact absurd rfl h
  | .ok false, _ | .error e, _ => rfl

/-- By induction on how often the source is pulled. -/
theorem induct {P : Cursor → Store → ω.W → Nat → Pulled → Store → Prop}
    (found : ∀ {c s w pos n w'}, ω.step w = some (n, w') →
      P c s w pos (ω.wrap c w' (some n) (pos + 1) false, .ok true) s)
    (node : ∀ {c s w pos c' s' n x t}, m.next c s = some ((c', .ok true), s') → c'.current = some (.node n) →
      P c' s' (ω.start n) 0 x t → P c s w pos x t)
    (other : ∀ {c s w pos c' s'}, m.next c s = some ((c', .ok true), s') →
      (∀ n, c'.current ≠ some (.node n)) → P c s w pos (ω.wrap c' ω.stop none pos true, .error ω.err) s')
    (ended : ∀ {c s w pos c' r s'}, m.next c s = some ((c', r), s') → r ≠ .ok true →
      P c s w pos (ω.wrap c' ω.stop none pos true, r) s')
    {x : Pulled} (hx : ω.next m fuel c w pos s = some (x, s')) : P c s w pos x s' := by
  cases hw : ω.step w with
  | some y =>
    cases (ω.found hw).symm.trans hx
    exact found hw
  | none =>
    induction fuel generalizing c s w pos with
    | zero => cases (ω.exhausted hw).symm.trans hx
    | succ fuel ih =>
      cases hpull : m.next c s with
      | none =>
        rw [ω.pulled hw, hpull] at hx
        cases hx
      | some y =>
        obtain ⟨⟨d, r⟩, t⟩ := y
        by_cases hr : r = .ok true
        · subst hr
          by_cases hnode : ∃ n, d.current = some (.node n)
          · obtain ⟨n, hn⟩ := hnode
            rw [next_of_node hw hpull hn] at hx
            refine node hpull hn ?_
            cases hstart : ω.step (ω.start n) with
            | some y =>
              cases (ω.found hstart).symm.trans hx
              exact found hstart
            | none => exact ih hx hstart
          · have hother := fun n hn => hnode ⟨n, hn⟩
            cases (next_of_other hw hpull hother).symm.trans hx
            exact other hpull hother
        · cases (next_of_end hw hpull hr).symm.trans hx
          exact ended hpull hr

@[reducible]
def axis (axis : Axis) (test : NodeTest) : Wander where
  W := Walk
  step := Walk.next? (test.accepts · axis.principalKind)
  start := .start axis (test.kind? axis.principalKind)
  stop := .ended
  err := .format .XPTY0020 [axis.text]
  dynamic := rfl
  wrap := .axis axis test
  next m := m.axisNext axis test
  stopped := rfl
  current := rfl
  position := rfl
  unfinished := rfl
  machine := rfl
  found := by
    intro m fuel c w w' n pos s h
    unfold Calls.axisNext
    rw [h]
    rfl
  exhausted := by
    intro m c w pos s h
    unfold Calls.axisNext
    rw [h]
    rfl
  pulled := by
    intro m fuel c w pos s h
    conv => lhs; unfold Calls.axisNext
    rw [h]
    change (m.next c s).bind _ = _
    congr 1
    funext x
    obtain ⟨⟨c', r⟩, s'⟩ := x
    match r with
    | .ok true =>
      dsimp only
      cases c'.current with
      | none => rfl
      | some i => cases i <;> rfl
    | .ok false | .error e => rfl

end Wander

/-- What a descent through the tests finds below a node. -/
def descentStep (tests : List NodeTest) (w : Option DescentWalk) : Option (Node × Option DescentWalk) :=
  (w.bind (·.next? tests)).map fun w => (w.node, some w)

@[reducible]
def Wander.descent (tests : List NodeTest) : Wander where
  W := Option DescentWalk
  step := descentStep tests
  start n := some ⟨n, 0⟩
  stop := none
  err := .format .XPTY0020 [Axis.descendantOrSelf.text]
  dynamic := rfl
  wrap := .descent tests
  next m := m.descentNext tests
  stopped := rfl
  current := rfl
  position := rfl
  unfinished := rfl
  machine := rfl
  found := by
    intro m fuel c w w' n pos s h
    obtain ⟨w₁, hw₁, heq⟩ := Option.map_eq_some_iff.mp h
    cases heq
    unfold Calls.descentNext
    rw [hw₁]
    rfl
  exhausted := by
    intro m c w pos s h
    unfold Calls.descentNext
    rw [Option.map_eq_none_iff.mp h]
    rfl
  pulled := by
    intro m fuel c w pos s h
    conv => lhs; unfold Calls.descentNext
    rw [Option.map_eq_none_iff.mp h]
    change (m.next c s).bind _ = _
    congr 1
    funext x
    obtain ⟨⟨c', r⟩, s'⟩ := x
    match r with
    | .ok true =>
      dsimp only
      cases c'.current with
      | none => rfl
      | some i => cases i <;> rfl
    | .ok false | .error e => rfl

end XPath
