import XPath.Proofs.Insensitive
import XPath.Proofs.Streams

/-!
# What predicates let through

A predicate is evaluated in the focus of every item of its input: the item, its position in its group and
the size of the group. `Program.Decides` has the selections that it makes in fixed foci, and `LetThrough` the
items that are let through by such selections, group by group. Reading a filter comes to just that
(`yields_filter_iff`): it does not matter that the size of a group is counted on a copy and kept, nor that a
predicate which does not depend on the focus is evaluated only once.
-/

namespace XPath

variable {p : Program} {n m B : Nat} {σ : Slots} {c d : Cursor} {s t : Store} {e : ExprId}
  {out ins : List (Item × Nat)} {r r' : Except Error Unit} {snap snap' : Snapshot} {f : Focus}
  {x x' : Except Error Selection} {M : Calls} {k : Nat} {i : Item}

/-! ## Selections in fixed foci -/

/-- The predicate comes to this selection, or fails so, in the focus. -/
def Program.Decides (p : Program) (σ : Slots) (e : ExprId) (snap : Snapshot) (x : Except Error Selection) : Prop :=
  ∃ n s', (lexicalMachine n p).select e (.fixed snap) (.ofSlots σ) = some (x, s')

theorem Snapshot.fits_none (snap : Snapshot) : snap.Fits none :=
  nofun

/-- The selection is made in every focus that shows the same, if there is enough depth. -/
theorem Program.Decides.exists_depth (hp : p.Pure) (h : p.Decides σ e snap x) :
    ∃ N, ∀ m B f t, Mirrors p B σ snap f → N + B ≤ m → t.slots = σ → snap.Fits t.groupSize →
      ∃ t', (lexicalMachine m p).select e f t = some (x, t') ∧ t'.slots = σ ∧
        snap.Fits t'.groupSize := by
  obtain ⟨n, s', hrun⟩ := h
  refine ⟨n + 1, ?_⟩
  intro m B f t hf hm ht hsize
  exact (select_refocused hp .fixed hf rfl ht snap.fits_none hsize (by omega) hrun).2

/-- What is selected in a focus that shows the same. -/
theorem Program.decides_of_select (hp : p.Pure) (hf : Mirrors p B σ snap f) (hs : s.slots = σ)
    (hsize : snap.Fits s.groupSize) (hrun : (lexicalMachine n p).select e f s = some (x, s')) :
    p.Decides σ e snap x ∧ s'.slots = σ ∧ snap.Fits s'.groupSize := by
  obtain ⟨hs', t', hrun', -⟩ := select_refocused hp hf .fixed hs (t := .ofSlots σ) rfl hsize
    snap.fits_none (Nat.lt_succ_self (n + B)) hrun
  exact ⟨⟨_, t', hrun'⟩, hs'⟩

theorem Program.Decides.unique (hp : p.Pure) (h : p.Decides σ e snap x) (h' : p.Decides σ e snap x') : x = x' := by
  obtain ⟨N, hN⟩ := h.exists_depth hp
  obtain ⟨N', hN'⟩ := h'.exists_depth hp
  obtain ⟨t, hrun, -⟩ := hN (max N N') 0 (.fixed snap) (.ofSlots σ) .fixed (by omega) rfl snap.fits_none
  obtain ⟨t', hrun', -⟩ := hN' (max N N') 0 (.fixed snap) (.ofSlots σ) .fixed (by omega) rfl
    snap.fits_none
  exact (Prod.mk.inj (Option.some.inj (hrun.symm.trans hrun'))).1

/-- A predicate that does not depend on the focus makes one selection in all foci. -/
theorem Program.Decides.anywhere (hp : p.Reliable) (he : p.isContextSensitive e = false)
    (h : p.Decides σ e snap x) (snap' : Snapshot) : p.Decides σ e snap' x := by
  obtain ⟨n, s', hrun⟩ := h
  have hst : Abreast (.remarked p p p fun _ _ _ => Eq) (some (σ, σ)) (fun _ _ => True) (.ofSlots σ)
      (.ofSlots σ) := .inEnvironment rfl rfl (fun _ _ _ _ _ => trivial) trivial
  have hfoci : FociFor (.remarked p p p fun _ _ _ => Eq) (fun _ _ => True) (some (σ, σ)) e (.fixed snap)
      (.fixed snap') := fun h => absurd he h
  have hselect := (hp.deeper (.refl p)).select (Nat.le_refl n) rfl (Envs.level_some rfl) (rfl : e = e) hfoci hst
  obtain ⟨t', hrun', -⟩ := hselect.ends_same hrun
  exact ⟨n, t', hrun'⟩

/-! ## Verdicts of a filter -/

/-- A selection that is kept is made in all foci. -/
def Program.KeepsSelection (p : Program) (σ : Slots) (e : ExprId) (fixed : Option Selection) : Prop :=
  ∀ sel, fixed = some sel → ∀ snap, p.Decides σ e snap (.ok sel)

theorem Program.keepsSelection_none : p.KeepsSelection σ e none :=
  nofun

theorem Program.Decides.keepsSelection (hp : p.Reliable)
    (h : p.Decides σ e snap (.ok sel)) : p.KeepsSelection σ e (p.kept e sel) := by
  unfold Program.kept
  intro sel' hsel' snap'
  split at hsel'
  · cases hsel'
  · next he =>
    rw [← Option.some.inj hsel']
    exact h.anywhere hp (Bool.not_eq_true _ ▸ he) snap'

/-- How a verdict leaves the store and what it keeps. -/
structure Judged (p : Program) (σ : Slots) (e : ExprId) (snap : Snapshot) (fixed : Option Selection)
    (size : Option Nat) (t : Store) : Prop where
  slots : t.slots = σ
  kept : p.KeepsSelection σ e fixed
  fits : snap.Fits size

/-- The verdict of a filter is the selection that the predicate makes in a fixed focus. -/
theorem Program.Decides.verdict (hp : p.Pure) (hr : p.Reliable) (h : p.Decides σ e snap x) :
    ∃ N, ∀ m B d t fixed size, Mirrors p B σ snap (.current d) → N + B ≤ m →
      Judged p σ e snap fixed size t →
      ∃ fixed' size' t', (lexicalMachine m p).verdict p e d fixed size t = some ((x, fixed', size'), t') ∧
        Judged p σ e snap fixed' size' t' := by
  obtain ⟨N, hN⟩ := h.exists_depth hp
  refine ⟨N, ?_⟩
  rintro m B d t fixed size hd hm ⟨ht, hkept, hsize⟩
  cases fixed with
  | some sel =>
    obtain rfl := (hkept sel rfl snap).unique hp h
    exact ⟨some sel, size, t, rfl, ht, hkept, hsize⟩
  | none =>
    obtain ⟨t', hrun, ht', hsize'⟩ := hN m B (.current d) { t with groupSize := size } hd hm ht hsize
    have hrun' : ((lexicalMachine m p).selection e d).run { t with groupSize := size } = some (x, t') := hrun
    rw [Calls.verdict_none, hrun']
    cases x with
    | error err => exact ⟨none, size, _, rfl, ht', hkept, hsize⟩
    | ok sel => exact ⟨_, _, _, rfl, ht', h.keepsSelection hr, hsize'⟩

theorem Program.decides_of_verdict (hp : p.Pure) (hr : p.Reliable)
    (hd : Mirrors p B σ snap (.current d)) {size size' : Option Nat} (ht : Judged p σ e snap fixed size t)
    (hrun : (lexicalMachine m p).verdict p e d fixed size t = some ((x, fixed', size'), t')) :
    p.Decides σ e snap x ∧ Judged p σ e snap fixed' size' t' := by
  obtain ⟨hslots, hkept, hsize⟩ := ht
  cases fixed with
  | some sel =>
    cases hrun
    exact ⟨hkept sel rfl snap, hslots, hkept, hsize⟩
  | none =>
    rw [Calls.verdict_none] at hrun
    obtain ⟨⟨y, t₁⟩, hselect, heq⟩ := Option.map_eq_some_iff.mp hrun
    obtain ⟨hy, ht₁, hsize₁⟩ :=
      decides_of_select (s := { t with groupSize := size }) hp hd hslots hsize hselect
    cases y with
    | error err =>
      cases heq
      exact ⟨hy, ht₁, hkept, hsize⟩
    | ok sel =>
      cases heq
      exact ⟨hy, ht₁, hy.keepsSelection hr, hsize₁⟩

/-! ## Items that are let through -/

/-- Of these items with their positions, what comes before them and what has been let through being at the
given positions, those are let through whose selections accept them. They are counted anew in every group. -/
inductive LetThrough (V : Snapshot → Except Error Selection → Prop) (r : Except Error Unit) :
    Nat → Nat → List (Item × Nat) → List (Item × Nat) → Except Error Unit → Prop
  | done {inputPos pos : Nat} : LetThrough V r inputPos pos [] [] r
  | failed {inputPos pos k : Nat} {i : Item} {ins : List (Item × Nat)} {err : Error}
      (h : V ⟨some i, k, groupEnd k ins r⟩ (.error err)) :
      LetThrough V r inputPos pos ((i, k) :: ins) [] (.error err)
  | kept {inputPos pos k : Nat} {i : Item} {ins out : List (Item × Nat)} {sel : Selection}
      {r' : Except Error Unit} (h : V ⟨some i, k, groupEnd k ins r⟩ (.ok sel))
      (accepts : sel.accepts k = true)
      (rest : LetThrough V r k ((if k ≤ inputPos then 0 else pos) + 1) ins out r') :
      LetThrough V r inputPos pos ((i, k) :: ins) ((i, (if k ≤ inputPos then 0 else pos) + 1) :: out) r'
  | dropped {inputPos pos k : Nat} {i : Item} {ins out : List (Item × Nat)} {sel : Selection}
      {r' : Except Error Unit} (h : V ⟨some i, k, groupEnd k ins r⟩ (.ok sel))
      (accepts : sel.accepts k = false)
      (rest : LetThrough V r k (if k ≤ inputPos then 0 else pos) ins out r') :
      LetThrough V r inputPos pos ((i, k) :: ins) out r'

section

variable {d' : Cursor} {t₁ t₂ : Store} {fuel inputPos pos : Nat} {fixed fixed' : Option Selection}
  {size size' : Option Nat}

theorem predicateNext_of_item (hpull : M.next d t = some ((d', .ok true), t₁))
    (hverdict : M.verdict p e d' fixed (if d'.position ≤ inputPos then none else size) t₁ =
      some ((x, fixed', size'), t₂)) :
    M.predicateNext p e (fuel + 1) d inputPos fixed size pos t =
      match x with
      | .error err => some ((.predicate e d' d'.position fixed' size'
          (if d'.position ≤ inputPos then 0 else pos) true, .error err), t₂)
      | .ok sel =>
        if sel.accepts d'.position then
          some ((.predicate e d' d'.position fixed' size'
            ((if d'.position ≤ inputPos then 0 else pos) + 1) false, .ok true), t₂)
        else M.predicateNext p e fuel d' d'.position fixed' size'
          (if d'.position ≤ inputPos then 0 else pos) t₂ := by
  rw [Calls.predicateNext_succ, Run.bind_of_some hpull]
  dsimp only
  rw [Run.bind_of_some hverdict]
  cases x with
  | error err => rfl
  | ok sel =>
    dsimp only
    split <;> rfl

theorem predicateNext_of_end (hpull : M.next d t = some ((d', res), t₁)) (hres : res ≠ .ok true) :
    M.predicateNext p e (fuel + 1) d inputPos fixed size pos t =
      some ((.predicate e d' inputPos fixed size pos true, res), t₁) := by
  rw [Calls.predicateNext_succ, Run.bind_of_some hpull]
  match res, hres with
  | .ok true, h => exact absurd rfl h
  | .ok false, _ | .error err, _ => rfl

end

/-- What is kept of the group size, if anything is, is right for the next item of the same group. -/
def SizeAhead (inputPos : Nat) (ins : List (Item × Nat)) (r : Except Error Unit) (size : Option Nat) : Prop :=
  ∀ k, size = some k → groupEnd inputPos ins r = .ok k

theorem SizeAhead.fits (h : SizeAhead inputPos ((i, k) :: ins) r size) :
    Snapshot.Fits ⟨some i, k, groupEnd k ins r⟩ (if k ≤ inputPos then none else size) := by
  intro j hj
  split at hj
  · cases hj
  · next hk =>
    have hend := h j hj
    unfold groupEnd at hend
    rwa [if_neg hk] at hend

/-- A filter between two items of its input, with what it has kept. -/
structure Between (p : Program) (B : Nat) (σ : Slots) (e : ExprId) (inputPos : Nat)
    (ins : List (Item × Nat)) (r : Except Error Unit) (d : Cursor) (t : Store) (fixed : Option Selection)
    (size : Option Nat) : Prop where
  self : d.Replicable p σ
  supplies : Supplies p B σ d ins r
  slots : t.slots = σ
  kept : p.KeepsSelection σ e fixed
  size : SizeAhead inputPos ins r size

theorem Between.next (hp : p.Pure)
    {size : Option Nat} (h : Between p B σ e inputPos ((i, k) :: ins) r d t fixed size) (hm : B ≤ m)
    (hroom : ins.length < B) :
    ∃ d' t', (lexicalMachine m p).next d t = some ((d', .ok true), t') ∧ d'.current = some i ∧
      d'.position = k ∧ Supplies p B σ d' ins r ∧
      Mirrors p B σ ⟨some i, k, groupEnd k ins r⟩ (.current d') ∧
      Judged p σ e ⟨some i, k, groupEnd k ins r⟩ fixed (if k ≤ inputPos then none else size) t' := by
  obtain ⟨d', t', hpull, ht', -, hcurrent, rfl, hrest⟩ := h.supplies.next_item hp hm h.slots
  obtain ⟨hself, -⟩ := h.self.next hp h.slots hpull
  exact ⟨d', t', hpull, hcurrent, rfl, hrest, .current hself hcurrent rfl hrest hroom rfl, ht', h.kept,
    h.size.fits⟩

theorem Judged.between (h : Judged p σ e ⟨some i, k, groupEnd k ins r⟩ fixed size t)
    (hd : Mirrors p B σ ⟨some i, k, groupEnd k ins r⟩ (.current d)) (hsupplies : Supplies p B σ d ins r) :
    Between p B σ e k ins r d t fixed size := by
  cases hd with
  | current self => exact ⟨self, hsupplies, h.slots, h.kept, h.fits⟩

theorem reading_predicateNext (hp : p.Pure) (hr : p.Reliable)
    (h : LetThrough (p.Decides σ e) r inputPos pos ins out r') (hroom : ins.length < B) :
    ∃ M, ∀ m ≥ M, ∀ d t fuel fixed size, Between p B σ e inputPos ins r d t fixed size →
      ins.length < fuel →
      (lexicalMachine (m + 1) p).Reading
        ((lexicalMachine m p).predicateNext p e fuel d inputPos fixed size pos t) out r' := by
  induction h with
  | @done inputPos pos =>
    refine ⟨B, ?_⟩
    intro m hm d t fuel fixed size hbetween hfuel
    obtain ⟨fuel, rfl⟩ := exists_succ_of_lt hfuel
    obtain ⟨d', t', hpull, -, -⟩ := hbetween.supplies.next_end hp hm hbetween.slots
    cases r with
    | ok u =>
      rw [predicateNext_of_end hpull nofun]
      exact .ended
    | error err =>
      rw [predicateNext_of_end hpull nofun]
      exact .failed
  | @failed inputPos pos k i ins err h =>
    obtain ⟨N, hN⟩ := h.verdict hp hr
    refine ⟨N + B, ?_⟩
    intro m hm d t fuel fixed size hbetween hfuel
    obtain ⟨fuel, rfl⟩ := Nat.exists_eq_add_of_lt hfuel
    obtain ⟨d', t', hpull, -, rfl, -, hd', hjudged⟩ :=
      hbetween.next hp (m := m) (by omega) (Nat.lt_of_succ_lt hroom)
    obtain ⟨fixed', size', t'', hverdict, -⟩ := hN m B d' t' _ _ hd' hm hjudged
    rw [predicateNext_of_item hpull hverdict]
    exact .failed
  | @kept inputPos pos k i ins out sel r' h accepts rest ih =>
    obtain ⟨N, hN⟩ := h.verdict hp hr
    obtain ⟨M, hM⟩ := ih (Nat.lt_of_succ_lt hroom)
    refine ⟨max M (N + B) + ins.length + 2, ?_⟩
    intro m hm d t fuel fixed size hbetween hfuel
    obtain ⟨fuel, rfl⟩ := Nat.exists_eq_add_of_lt hfuel
    obtain ⟨d', t', hpull, hcurrent, rfl, hrest, hd', hjudged⟩ :=
      hbetween.next hp (m := m) (by omega) (Nat.lt_of_succ_lt hroom)
    obtain ⟨fixed', size', t'', hverdict, hjudged'⟩ := hN m B d' t' _ _ hd' (by omega) hjudged
    rw [predicateNext_of_item hpull hverdict]
    dsimp only
    rw [if_pos accepts]
    have hfuel' : ins.length < (lexicalMachine m p).fuel := by
      rw [lexicalMachine, fuel_machineWith]
      omega
    exact .item hcurrent (hM m (by omega) d' t'' _ fixed' size' (hjudged'.between hd' hrest) hfuel')
  | @dropped inputPos pos k i ins out sel r' h accepts rest ih =>
    obtain ⟨N, hN⟩ := h.verdict hp hr
    obtain ⟨M, hM⟩ := ih (Nat.lt_of_succ_lt hroom)
    refine ⟨max M (N + B), ?_⟩
    intro m hm d t fuel fixed size hbetween hfuel
    obtain ⟨fuel, rfl⟩ := exists_succ_of_lt hfuel
    obtain ⟨d', t', hpull, -, rfl, hrest, hd', hjudged⟩ :=
      hbetween.next hp (m := m) (by omega) (Nat.lt_of_succ_lt hroom)
    obtain ⟨fixed', size', t'', hverdict, hjudged'⟩ := hN m B d' t' _ _ hd' (by omega) hjudged
    rw [predicateNext_of_item hpull hverdict]
    dsimp only
    rw [if_neg (Bool.not_eq_true _ ▸ accepts)]
    exact hM m (by omega) d' t'' fuel fixed' size' (hjudged'.between hd' hrest)
      (Nat.lt_of_succ_lt_succ hfuel)

theorem letThrough_of_reading (hp : p.Pure) (hr : p.Reliable) (hm : B ≤ m) (hroom : ins.length < B)
    {fixed : Option Selection} {size : Option Nat}
    (hbetween : Between p B σ e inputPos ins r d t fixed size) (h : (lexicalMachine (m + 1) p).Reading
      ((lexicalMachine m p).predicateNext p e fuel d inputPos fixed size pos t) out r') :
    LetThrough (p.Decides σ e) r inputPos pos ins out r' := by
  induction ins generalizing d t inputPos pos fuel fixed size out with
  | nil =>
    cases fuel with
    | zero => cases h
    | succ fuel =>
      obtain ⟨d', t', hpull, -, -⟩ := hbetween.supplies.next_end hp hm hbetween.slots
      cases r with
      | ok u | error err =>
        rw [predicateNext_of_end hpull nofun] at h
        cases h
        exact .done
  | cons y ins ih =>
    obtain ⟨i, k⟩ := y
    cases fuel with
    | zero => cases h
    | succ fuel =>
      obtain ⟨d', t', hpull, hcurrent, rfl, hrest, hd', hjudged⟩ :=
        hbetween.next hp hm (Nat.lt_of_succ_lt hroom)
      cases hverdict : (lexicalMachine m p).verdict p e d' fixed
          (if d'.position ≤ inputPos then none else size) t' with
      | none =>
        have hstuck : (lexicalMachine m p).predicateNext p e (fuel + 1) d inputPos fixed size pos t =
            none := by
          rw [Calls.predicateNext_succ, Run.bind_of_some hpull]
          change ((lexicalMachine m p).verdict p e d' fixed _ t').bind _ = none
          rw [hverdict]
          rfl
        rw [hstuck] at h
        cases h
      | some y =>
        obtain ⟨⟨x, fixed', size'⟩, t''⟩ := y
        obtain ⟨hdecides, hjudged'⟩ := p.decides_of_verdict hp hr hd' hjudged hverdict
        have hbetween' := hjudged'.between hd' hrest
        rw [predicateNext_of_item hpull hverdict] at h
        cases x with
        | error err =>
          cases h
          exact .failed hdecides
        | ok sel =>
          dsimp only at h
          cases haccepts : sel.accepts d'.position with
          | true =>
            rw [if_pos haccepts] at h
            cases h with
            | item hcur rest =>
              cases hcurrent.symm.trans hcur
              exact .kept hdecides haccepts (ih (Nat.lt_of_succ_lt hroom) hbetween' rest)
          | false =>
            rw [if_neg (Bool.not_eq_true _ ▸ haccepts)] at h
            exact .dropped hdecides haccepts (ih (Nat.lt_of_succ_lt hroom) hbetween' h)

/-! ## Filters as a whole -/

theorem Cursor.Replicable.filter (h : c.Replicable p σ) : (Cursor.filter e c).Replicable p σ := by
  obtain ⟨N, h⟩ := h
  exact ⟨N, .predicate 0 none 0 false (Envs.level_some rfl) rfl rfl h⟩

def Cursor.Yields (p : Program) (σ : Slots) (c : Cursor) (out : List (Item × Nat)) (r : Except Error Unit) : Prop :=
  ∃ n s, s.slots = σ ∧ (lexicalMachine n p).Reads c s out r

/-- A cursor is read alike in all stores with the slots, from some depth on. -/
theorem Cursor.Yields.exists_depth (hp : p.Pure) (hc : c.Replicable p σ) (h : c.Yields p σ out r) :
    ∃ N, ∀ m ≥ N, ∀ t, t.slots = σ → (lexicalMachine m p).Reads c t out r := by
  obtain ⟨n, s, hs, hreads⟩ := h
  exact ⟨n, fun m hm t ht => hreads.elsewhere hp hc hs ht hm⟩

theorem Calls.Reading.unique {x : Option (Pulled × Store)} (h : M.Reading x out r)
    (h' : M.Reading x ins r') : out = ins ∧ r = r' := by
  induction h generalizing ins r' with
  | ended | failed =>
    cases h'
    exact ⟨rfl, rfl⟩
  | item hcurrent rest ih =>
    cases h' with
    | item hcurrent' rest' =>
      cases hcurrent.symm.trans hcurrent'
      obtain ⟨rfl, rfl⟩ := ih rest'
      exact ⟨rfl, rfl⟩

theorem Cursor.Yields.unique (hp : p.Pure) (hc : c.Replicable p σ) (h : c.Yields p σ out r)
    (h' : c.Yields p σ ins r') : out = ins ∧ r = r' := by
  obtain ⟨N, hN⟩ := h.exists_depth hp hc
  obtain ⟨N', hN'⟩ := h'.exists_depth hp hc
  exact (hN (max N N') (by omega) (.ofSlots σ) rfl).unique (hN' (max N N') (by omega) (.ofSlots σ) rfl)

/-- A filter yields what the predicate lets through of its input. -/
theorem yields_filter_iff (hp : p.Pure) (hr : p.Reliable) (hc : c.Replicable p σ) (hins : c.Yields p σ ins r) :
    (Cursor.filter e c).Yields p σ out r' ↔ LetThrough (p.Decides σ e) r 0 0 ins out r' := by
  obtain ⟨n, s, hs, hreads⟩ := hins
  obtain ⟨B, hsupplies⟩ := hreads.supplies hp hc hs
  have hroom : ins.length < max B (ins.length + 1) := by omega
  have hbetween : ∀ t : Store, t.slots = σ →
      Between p (max B (ins.length + 1)) σ e 0 ins r c t none none := fun t ht =>
    ⟨hc, hsupplies.mono (Nat.le_max_left _ _), ht, Program.keepsSelection_none, nofun⟩
  constructor
  · intro h
    obtain ⟨N, hN⟩ := h.exists_depth hp hc.filter
    have hread := hN (max N (max B (ins.length + 1)) + 1) (by omega) (.ofSlots σ) rfl
    exact letThrough_of_reading hp hr (by omega) hroom (hbetween _ rfl) hread
  · intro h
    obtain ⟨M, hM⟩ := reading_predicateNext hp hr h hroom
    refine ⟨max M (ins.length + 2) + 1, .ofSlots σ, rfl, ?_⟩
    have hfuel : ins.length < (lexicalMachine (max M (ins.length + 2)) p).fuel := by
      rw [lexicalMachine, fuel_machineWith]
      omega
    exact hM _ (by omega) c _ _ none none (hbetween _ rfl) hfuel

end XPath
