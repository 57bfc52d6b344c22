import XPath.Proofs.CopyInStep
import XPath.Proofs.ExecuteInStep
import XPath.Proofs.CoreFunctions
import XPath.Proofs.PullInStep

/-!
# Slots do what environments do

The machine with slots and the machine with environments stay in step at every depth, by induction on the
depth. A compiled expression is in its place above the slots of the external variables, so running it on
slots gives what lexical scoping gives, whatever the other slots hold beforehand.
-/

namespace XPath

variable {w : Watches} {p : Program} {Fit : FunctionEntry → Prop} {q : Query}

structure InStep (w : Watches) (p : Program) (Fit : FunctionEntry → Prop) (n : Nat) : Prop where
  next : NextInStep w p Fit n
  clone : CloneInStep w p Fit n
  execute : ExecuteInStep w p Fit n

theorem inStep_zero (w : Watches) (p : Program) (Fit : FunctionEntry → Prop) : InStep w p Fit 0 where
  next := fun _ _ _ _ => .neither
  clone := fun _ _ _ => .neither
  execute := fun _ _ _ _ _ _ _ _ _ => .neither

theorem inStep_watched (hw : w.Concur p Fit) (hFit : ∀ f, Fit f → f.KeepsReply) (n : Nat) : InStep w p Fit n := by
  induction n with
  | zero => exact inStep_zero w p Fit
  | succ n ih =>
    exact ⟨next_inStep ih.next ih.execute, clone_inStep ih.next ih.clone ih.execute,
      execute_inStep hw hFit ih.next ih.clone ih.execute⟩

theorem inStep (hFit : ∀ f, Fit f → f.KeepsReply) (n : Nat) : InStep .idle p Fit n :=
  inStep_watched (Watches.concur_idle p Fit) hFit n

/-! ## The external variables -/

theorem Program.cell_of_external {name : ExpandedName} {slot : Nat}
    (h : p.static.settings.externals.findIdx? (· = name) = some slot) : p.cell name = slot := by
  obtain ⟨hlt, hidx⟩ := List.findIdx?_eq_some_iff_findIdx_eq.mp h
  have hname : p.static.settings.externals.idxOf name = slot := by
    rw [← hidx]
    exact congrArg (List.findIdx · p.static.settings.externals) (funext fun _ => beq_eq_decide _ _)
  have hmem : name ∈ p.static.settings.externals := List.idxOf_lt_length_iff.mp (hname ▸ hlt)
  unfold cell variableNames
  rw [List.idxOf_append_of_mem hmem]
  exact hname

/-- Before any loop, slots and environment agree on the external variables. -/
theorem Query.agrees_environment (q : Query)
    (hexternal : q.slots.external = q.program.static.settings.externals.length) (slots : Slots) :
    Agrees q.program [] slots (q.environment slots) := by
  intro name b hb
  obtain ⟨slot, hslot, rfl⟩ := Option.map_eq_some_iff.mp hb
  have hlt : slot < q.slots.external := by
    rw [hexternal]
    exact (List.findIdx?_eq_some_iff_getElem.mp hslot).1
  rw [Program.cell_of_external hslot]
  unfold environment Slots.get?
  dsimp only
  rw [Array.getElem?_extract]
  split
  · rw [Nat.zero_add]
  · rw [Array.getElem?_eq_none (by omega)]

/-! ## Queries -/

theorem InStep.evaluate {n : Nat} (h : InStep w p Fit n) {vars : List Binding} {lo hi : Nat} {e : ExprId}
    {slots env : Slots} (focus : Snapshot) (hplaced : Placed p Fit vars lo hi e) (hle : lo ≤ hi)
    (hagrees : Agrees p vars slots env) (hbelow : ScopeBelow p vars lo) :
    RelatedEval .strict (fun x _ y _ => x = y) (fun _ _ => True)
      (do
        let c ← (w.slotMachine n p).execute e (.fixed focus)
        (w.slotMachine n p).drain c)
      (do
        let c ← (w.scopeMachine n p).execute e (.fixed focus)
        (w.scopeMachine n p).drain c)
      (.ofSlots slots) (.ofSlots env) := by
  obtain ⟨hnext, -, hexec⟩ := h
  have hsizes : SizesFor (.fixed focus) fun _ _ => True := nofun
  have hpulls : KeepsUp .strict (fun _ => True)
      (Live p Fit anyOrigin (some vars) lo hi env (Held lo hi slots env fun _ _ => True))
      (w.slotMachine n p) (w.scopeMachine n p) :=
    hnext.keepsUp (traced_anyOrigin w p) (.ofScope hagrees hbelow) .refl .refl
  have hexecute := hexec (s := .ofSlots slots) (t := .ofSlots env) (traced_anyOrigin w p) hplaced hle hagrees
    hbelow rfl (.fixed focus) hsizes trivial
  refine .bind (hexecute.mono (fun _ _ _ _ h => h) fun _ _ _ => trivial) ?_
  rintro c s d t ⟨hunpulled, hheld⟩
  refine (drain_related hpulls (fun _ _ _ _ _ => trivial) (fuelLe_machines w n p p)
    ⟨hunpulled _, hheld⟩).mono ?_ fun _ _ h => h
  exact fun _ _ _ _ h => h.1.1

/-- A query whose main expression is in its place above the external variables. -/
theorem Query.evaluateOn_of_placed (hFit : ∀ f, Fit f → f.KeepsReply)
    (hexternal : q.slots.external = q.program.static.settings.externals.length) {top : Nat}
    (htop : q.program.static.settings.externals.length ≤ top)
    (hplaced : Placed q.program Fit [] q.program.static.settings.externals.length top q.root) (fuel : Nat)
    (focus : Snapshot) (slots : Slots) :
    (q.evaluateOn fuel focus slots).map (·.1) = q.evaluateLexically fuel focus (q.environment slots) := by
  have hrun := (inStep hFit fuel).evaluate focus hplaced htop (q.agrees_environment hexternal slots)
    q.program.scopeBelow_nil
  rw [Watches.slotMachine_idle, Watches.scopeMachine_idle] at hrun
  unfold evaluateOn Program.evaluateOn evaluateLexically
  rw [Option.map_map]
  exact hrun.value_eq fun _ _ _ _ h => h

/-- Running a compiled expression on slots gives the same items in the same order, or the same error, as
lexical scoping, whatever the slots of its loop variables hold beforehand. Functions may pull their
arguments in any order, and reply with items or with an argument as it was given. -/
theorem Query.evaluateOn_eq_evaluateLexically {c : StaticContext} {e : Expr} (hq : compile c e = .ok q)
    (hf : ∀ f, c.Callable f → f.KeepsReply) (fuel : Nat) (focus : Snapshot) (slots : Slots) :
    (q.evaluateOn fuel focus slots).map (·.1) = q.evaluateLexically fuel focus (q.environment slots) := by
  obtain ⟨hstatic, hexternal, ⟨top, htop, hplaced⟩, -⟩ := compiled_of_compile hq
  subst hstatic
  exact evaluateOn_of_placed hf hexternal htop hplaced fuel focus slots

/-- `zip(for $x in (1, 2) return ($x, $x), for $y in (3, 4)[some $z in first((3, 4)) satisfies . eq $z]
return $y)`: three loops in flight at the same time. -/
def interleavedLoops : Expr :=
  let number (i : Int64) : Expr := .literal (.integer i)
  let var (name : String) : Expr := .variable (.unprefixed name)
  let matching : Expr :=
    .quantified .some
      [.mk (.unprefixed "z") (.call (.unprefixed "first") [.sequence [number 3, number 4]])]
      (.binary (.compare .value .eq) .contextItem (var "z"))
  .call (.unprefixed "zip")
    [.forEach [.mk (.unprefixed "x") (.sequence [number 1, number 2])] (.sequence [var "x", var "x"]),
      .forEach [.mk (.unprefixed "y") (.filter (.sequence [number 3, number 4]) [matching])] (var "y")]

/-- The loops run to the end on slots that an earlier run has left behind. -/
theorem Query.evaluateOn_interleavedLoops :
    ∃ q, compile HostFunction.context interleavedLoops = .ok q ∧
      (∀ f, HostFunction.context.Callable f → f.KeepsReply) ∧
      ∃ left : Slots, left.filled = 3 ∧
        ((q.evaluateOn 40 (.single none) left).map (·.1)).isSome = true ∧
        (q.evaluateOn 40 (.single none) left).map (·.1) =
          q.evaluateLexically 40 (.single none) (q.environment left) := by
  have hrun : ((compile HostFunction.context interleavedLoops).toOption.any fun q =>
      ((q.evaluateOn 40 (.single none) ⟨#[some [.ofNat 7], none, some [], some [.ofNat 8]]⟩).map
        (·.1)).isSome) = true := by decide +kernel
  obtain ⟨q, hq, hrun⟩ := exists_ok_of_check hrun
  have hf : ∀ f, HostFunction.context.Callable f → f.KeepsReply :=
    fun _ => HostFunction.context_keepsReply
  exact ⟨q, hq, hf, _, rfl, hrun, evaluateOn_eq_evaluateLexically hq hf _ _ _⟩

end XPath
