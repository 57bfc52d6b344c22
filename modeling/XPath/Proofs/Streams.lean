import XPath.Proofs.AxisCursor
import XPath.Proofs.PullOutcomes
import XPath.Proofs.Replicas

/-!
# Cursors that are read to the end

In environments, what a cursor delivers depends neither on the depth at which it is pulled, as long as
there is enough of it, nor on the store. `Supplies` says so of a cursor in the middle of being read: from a
certain depth on every pull gives the next item of one list, and every copy supplies the same list.

An expression that is evaluated for the current item of such a cursor sees what a fixed focus with the same
item, position and group size shows (`Mirrors`). So the value of a predicate or of a step at an item is its
value in a fixed focus (`select_refocused`, `execute_refocused`), whatever the cursor behind the focus has
been through.
-/

namespace XPath

open Option

variable {p : Program} {N n m B : Nat} {σ τ : Slots} {c d : Cursor} {s t : Store}
  {out : List (Item × Nat)} {r : Except Error Unit} {N' k B' : Nat} {x : Except Error Cursor} {lax : Prop}

/-! ## Cursors that stand for themselves -/

theorem Begun.mono (hN : N ≤ N') (h : Begun p N env st c k) : Begun p N' env st c k := by
  induction h with
  | start le fixes run => exact .start (Nat.le_trans le hN) fixes run
  | next le fixes before pull ih => exact .next (Nat.le_trans le hN) fixes ih pull

theorem StandsFor.mono (hN : N ≤ N') (h : StandsFor p N σ τ c d) : StandsFor p N' σ τ c d :=
  Alike.mono (fun _ _ _ _ => Begun.mono hN) h

def Cursor.Replicable (p : Program) (σ : Slots) (c : Cursor) : Prop :=
  ∃ N, StandsFor p N σ σ c c

theorem Cursor.Replicable.scope (h : c.Replicable p σ) : (Cursor.scope p σ c).Replicable p τ := by
  obtain ⟨N, h⟩ := h
  exact ⟨N, .scopeBoth (fun _ _ _ _ _ => trivial) h⟩

theorem Cursor.Replicable.next (hp : p.Pure) (h : c.Replicable p σ) (hs : s.slots = σ) {x : Pulled}
    (hpull : (lexicalMachine n p).next c s = some (x, s')) : x.1.Replicable p σ ∧ s'.slots = σ := by
  obtain ⟨N, h⟩ := h
  have hself : StandsFor p (max n N) σ σ c c := h.mono (Nat.le_max_right n N)
  obtain ⟨c', s'', hpull', hself', hs', -⟩ :=
    hself.next hp (Nat.le_max_left n N) .refl hs hs hpull
  obtain ⟨heq, rfl⟩ := Prod.mk.inj (some.inj (hpull.symm.trans hpull'))
  have hc' : x.1 = c' := congrArg Prod.fst heq
  exact ⟨⟨max n N, hc' ▸ hself'⟩, hs'⟩

theorem StandsFor.pull (hp : p.Pure) (hn : n ≤ N) (hm : n ≤ m) (hcd : StandsFor p N σ τ c d)
    (hs : s.slots = σ) (ht : t.slots = τ) {x : Pulled} (hpull : (lexicalMachine n p).next c s = some (x, s')) :
    ∃ d' t', (lexicalMachine m p).next d t = some ((d', x.2), t') ∧ StandsFor p N σ τ x.1 d' ∧
      t'.slots = τ ∧ t'.groupSize = t.groupSize := by
  have hst : Abreast (.deeper p) (some (σ, τ)) (fun _ size => size = t.groupSize) s t :=
    abreast_deeper hs ht rfl
  have hnext := (hp.deeper.steady hm).next (recorded_begun p hn) rfl c s d t ⟨hcd, hst⟩
  obtain ⟨⟨d', r⟩, t', hpull', hout, -, -, -, halike, hst'⟩ := hnext.of_some hpull
  obtain rfl : x.2 = r := hout
  exact ⟨d', t', hpull', halike, (hst'.pinned σ τ rfl).2, hst'.sizes⟩

/-- Copying leaves the group size alone. -/
theorem Cursor.Replicable.groupSize_clone (hp : p.Pure) (h : c.Replicable p σ) (hs : s.slots = σ)
    (hclone : (lexicalMachine n p).clone c s = some (d, s')) : s'.groupSize = s.groupSize := by
  obtain ⟨N, h⟩ := h
  have hst : Abreast (.deeper p) (some (σ, σ)) (fun _ size => size = s.groupSize) s s :=
    abreast_deeper hs hs rfl
  obtain ⟨d', t', hclone', -, hst'⟩ :=
    ((hp.deeper.steady .refl).clone rfl h.forget hst).of_some hclone
  obtain ⟨-, rfl⟩ := Prod.mk.inj (some.inj (hclone.symm.trans hclone'))
  exact hst'.sizes

theorem Cursor.Replicable.foci (h : c.Replicable p σ) :
    Foci (.deeper p) Eq (some (σ, σ)) (.current c) (.current c) := by
  obtain ⟨N, h⟩ := h
  exact .current h.forget fun _ _ => Iff.rfl

/-! ## Reading -/

/-- What is read from a cursor is read from one that it stands for, in any store and as deep or deeper. -/
theorem StandsFor.reads (hp : p.Pure) (hn : n ≤ N) (hm : n ≤ m) (hcd : StandsFor p N σ τ c d)
    (hs : s.slots = σ) (ht : t.slots = τ) (h : (lexicalMachine n p).Reads c s out r) :
    (lexicalMachine m p).Reads d t out r := by
  unfold Calls.Reads at h ⊢
  generalize hx : (lexicalMachine n p).next c s = x at h
  induction h generalizing c d s t with
  | ended | failed =>
    obtain ⟨d', t', hpull, -⟩ := hcd.next hp hn hm hs ht hx
    rw [hpull]
    constructor
  | item hcurrent rest ih =>
    obtain ⟨d', t', hpull, hcd', hs', ht'⟩ := hcd.next hp hn hm hs ht hx
    rw [hpull, hcd'.position_eq]
    exact .item (hcd'.current_eq ▸ hcurrent) (ih hcd' hs' ht' rfl)

theorem Calls.Reads.elsewhere (hp : p.Pure) (hc : c.Replicable p σ) (hs : s.slots = σ) (ht : t.slots = σ)
    (hm : n ≤ m) (h : (lexicalMachine n p).Reads c s out r) : (lexicalMachine m p).Reads c t out r := by
  obtain ⟨N, hself⟩ := hc
  exact (hself.mono (Nat.le_max_left N n)).reads hp (Nat.le_max_right N n) hm hs ht h

/-- The cursor is read at depth `n`, and wherever it stands, a depth of `B` is enough to copy it. -/
inductive Tour (p : Program) (N n B : Nat) (σ : Slots) :
    Cursor → List (Item × Nat) → Except Error Unit → Prop
  | ended {c c' : Cursor} {s s' : Store} (room : N + sizeOf c ≤ B) (slots : s.slots = σ)
      (pull : (lexicalMachine n p).next c s = some ((c', .ok false), s')) : Tour p N n B σ c [] (.ok ())
  | failed {c c' : Cursor} {s s' : Store} {e : Error} (room : N + sizeOf c ≤ B) (slots : s.slots = σ)
      (pull : (lexicalMachine n p).next c s = some ((c', .error e), s')) :
      Tour p N n B σ c [] (.error e)
  | item {c c' : Cursor} {s s' : Store} {i : Item} {out : List (Item × Nat)} {r : Except Error Unit}
      (room : N + sizeOf c ≤ B) (slots : s.slots = σ)
      (pull : (lexicalMachine n p).next c s = some ((c', .ok true), s')) (current : c'.current = some i)
      (rest : Tour p N n B σ c' out r) : Tour p N n B σ c ((i, c'.position) :: out) r

theorem Tour.room (h : Tour p N n B σ c out r) : N + sizeOf c ≤ B := by
  cases h with
  | ended room | failed room | item room => exact room

theorem Tour.mono (hB : B ≤ B') (h : Tour p N n B σ c out r) : Tour p N n B' σ c out r := by
  induction h with
  | ended room slots pull => exact .ended (Nat.le_trans room hB) slots pull
  | failed room slots pull => exact .failed (Nat.le_trans room hB) slots pull
  | item room slots pull current rest ih => exact .item (Nat.le_trans room hB) slots pull current ih

/-- From depth `B` on the cursor delivers these items with their positions, then the end or an error, and so
do its copies. -/
def Supplies (p : Program) (B : Nat) (τ : Slots) (d : Cursor) (out : List (Item × Nat))
    (r : Except Error Unit) : Prop :=
  ∃ σ c N n, n ≤ N ∧ StandsFor p N σ τ c d ∧ Tour p N n B σ c out r

namespace Supplies

theorem mono (hB : B ≤ B') (h : Supplies p B τ d out r) : Supplies p B' τ d out r := by
  obtain ⟨σ, c, N, n, hn, hcd, htour⟩ := h
  exact ⟨σ, c, N, n, hn, hcd, htour.mono hB⟩

theorem scope (h : Supplies p B τ d out r) : Supplies p B τ' (.scope p τ d) out r := by
  obtain ⟨σ, c, N, n, hn, hcd, htour⟩ := h
  exact ⟨σ, c, N, n, hn, .scopeRight hcd, htour⟩

theorem next_item (hp : p.Pure) {i : Item} (h : Supplies p B τ d ((i, k) :: out) r) (hm : B ≤ m)
    (ht : t.slots = τ) : ∃ d' t', (lexicalMachine m p).next d t = some ((d', .ok true), t') ∧ t'.slots = τ ∧
      t'.groupSize = t.groupSize ∧ d'.current = some i ∧ d'.position = k ∧ Supplies p B τ d' out r := by
  obtain ⟨σ, c, N, n, hn, hcd, htour⟩ := h
  cases htour with
  | item room slots pull current rest =>
    obtain ⟨d', t', hpull, hcd', ht', hsize⟩ := hcd.pull hp hn (m := m) (by omega) slots ht pull
    exact ⟨d', t', hpull, ht', hsize, hcd'.current_eq ▸ current, hcd'.position_eq.symm,
      σ, _, N, n, hn, hcd', rest⟩

theorem next_end (hp : p.Pure) (h : Supplies p B τ d [] r) (hm : B ≤ m) (ht : t.slots = τ) :
    ∃ d' t', (lexicalMachine m p).next d t = some ((d', r.map fun _ => false), t') ∧ t'.slots = τ ∧
      t'.groupSize = t.groupSize := by
  obtain ⟨σ, c, N, n, hn, hcd, htour⟩ := h
  cases htour with
  | ended room slots pull | failed room slots pull =>
    obtain ⟨d', t', hpull, -, ht', hsize⟩ := hcd.pull hp hn (m := m) (by omega) slots ht pull
    exact ⟨d', t', hpull, ht', hsize⟩

theorem clone (hp : p.Pure) (h : Supplies p B τ d out r) (hm : B ≤ m) (ht : t.slots = τ) :
    ∃ d' t', (lexicalMachine m p).clone d t = some (d', t') ∧ t'.slots = τ ∧
      d'.position = d.position ∧ ∀ τ', Supplies p B τ' d' out r := by
  obtain ⟨σ, c, N, n, hn, hcd, htour⟩ := h
  obtain ⟨d', t', hclone, ht', hcd'⟩ := hcd.clone hp (Nat.le_trans htour.room hm) ht
  have hposition : d'.position = d.position := (hcd' τ).position_eq.symm.trans hcd.position_eq
  exact ⟨d', t', hclone, ht'.trans ht, hposition, fun τ' => ⟨σ, c, N, n, hn, hcd' τ', htour⟩⟩

theorem reads (hp : p.Pure) (h : Supplies p B τ d out r) (hm : B ≤ m) (ht : t.slots = τ) :
    (lexicalMachine m p).Reads d t out r := by
  unfold Calls.Reads
  induction out generalizing d t with
  | nil =>
    obtain ⟨d', t', hpull, -⟩ := h.next_end hp hm ht
    rw [hpull]
    cases r with
    | ok u => exact .ended
    | error e => exact .failed
  | cons x out ih =>
    obtain ⟨i, k⟩ := x
    obtain ⟨d', t', hpull, ht', -, hcurrent, rfl, hrest⟩ := h.next_item hp hm ht
    rw [hpull]
    exact .item hcurrent (ih hrest ht')

end Supplies

/-- What is read at one depth is supplied from some depth on. -/
theorem Calls.Reads.supplies (hp : p.Pure) (hc : c.Replicable p σ) (hs : s.slots = σ)
    (h : (lexicalMachine n p).Reads c s out r) : ∃ B, Supplies p B σ c out r := by
  obtain ⟨N, hn, hself⟩ : ∃ N, n ≤ N ∧ StandsFor p N σ σ c c := by
    obtain ⟨N, hself⟩ := hc
    exact ⟨max n N, Nat.le_max_left n N, hself.mono (Nat.le_max_right n N)⟩
  suffices htour : ∃ B, Tour p N n B σ c out r by
    obtain ⟨B, hB⟩ := htour
    exact ⟨B, σ, c, N, n, hn, hself, hB⟩
  clear hc
  unfold Calls.Reads at h
  generalize hx : (lexicalMachine n p).next c s = x at h
  induction h generalizing c s with
  | ended => exact ⟨_, .ended .refl hs hx⟩
  | failed => exact ⟨_, .failed .refl hs hx⟩
  | item hcurrent rest ih =>
    obtain ⟨d', t', hpull, hself', hs', -⟩ := hself.next hp hn .refl hs hs hx
    obtain ⟨heq, rfl⟩ := Prod.mk.inj (some.inj (hx.symm.trans hpull))
    obtain ⟨rfl, -⟩ := Prod.mk.inj heq
    obtain ⟨B, hB⟩ := ih hs' hself' rfl
    exact ⟨_, .item (Nat.le_max_left (N + sizeOf c) B) hs hx hcurrent
      (hB.mono (Nat.le_max_right _ B))⟩

/-! ## The size of a group -/

/-- The position of the last item of a group that has come to a position, from what comes after it. -/
def groupEnd (pos : Nat) : List (Item × Nat) → Except Error Unit → Except Error Nat
  | [], r => r.map fun _ => pos
  | (_, k) :: out, r => if k ≤ pos then .ok pos else groupEnd k out r

theorem Supplies.countGroup (hp : p.Pure) (hm : B ≤ m) :
    ∀ {out : List (Item × Nat)} {d : Cursor} {t : Store} {fuel : Nat} (pos : Nat), Supplies p B τ d out r →
      out.length < fuel → t.slots = τ →
      ∃ t', (lexicalMachine m p).countGroup fuel d pos t = some (groupEnd pos out r, t') ∧
        t'.slots = τ ∧ t'.groupSize = t.groupSize := by
  intro out
  induction out with
  | nil =>
    intro d t fuel pos h hfuel ht
    obtain ⟨fuel, rfl⟩ := Nat.exists_eq_add_of_le' hfuel
    obtain ⟨d', t', hpull, ht', hsize⟩ := h.next_end hp hm ht
    refine ⟨t', (Eval.bind_of_ok (Eval.lift_of_some hpull)).trans ?_, ht', hsize⟩
    cases r <;> rfl
  | cons x out ih =>
    intro d t fuel pos h hfuel ht
    obtain ⟨i, k⟩ := x
    obtain ⟨fuel, rfl⟩ := Nat.exists_eq_add_of_lt hfuel
    obtain ⟨d', t', hpull, ht', hsize, -, rfl, hrest⟩ := h.next_item hp hm ht
    obtain ⟨t'', hcount, ht'', hsize'⟩ := ih d'.position hrest (Nat.lt_of_succ_lt_succ hfuel) ht'
    unfold groupEnd
    by_cases hnew : d'.position ≤ pos
    · refine ⟨t', (Eval.bind_of_ok (Eval.lift_of_some hpull)).trans ?_, ht', hsize⟩
      change (if d'.position ≤ pos then _ else _ : Eval Nat) t' = _
      rw [if_pos hnew, if_pos hnew]
      rfl
    · refine ⟨t'', (Eval.bind_of_ok (Eval.lift_of_some hpull)).trans ?_, ht'', hsize'.trans hsize⟩
      change (if d'.position ≤ pos then _ else _ : Eval Nat) t' = _
      rw [if_neg hnew, if_neg hnew]
      exact hcount

/-! ## Foci that show the same -/

/-- What is known of the group size, if anything is, is what the snapshot says. -/
def Snapshot.Fits (snap : Snapshot) (size : Option Nat) : Prop :=
  ∀ k, size = some k → snap.last = .ok k

/-- The focus shows what the snapshot says, from depth `B` on. -/
inductive Mirrors (p : Program) (B : Nat) (σ : Slots) (snap : Snapshot) : Focus → Prop
  | fixed : Mirrors p B σ snap (.fixed snap)
  | current {d : Cursor} {out : List (Item × Nat)} {r : Except Error Unit} (self : d.Replicable p σ)
      (item : d.current = snap.item) (position : d.position = snap.position)
      (supplies : Supplies p B σ d out r) (room : out.length < B)
      (size : snap.last = groupEnd d.position out r) : Mirrors p B σ snap (.current d)

namespace Mirrors

variable {snap : Snapshot} {f f' : Focus}

section

variable (h : Mirrors p B σ snap f)

include h

theorem item? : f.item? = snap.item := by
  cases h with
  | fixed => rfl
  | current self item => exact item

theorem position : f.position = snap.position := by
  cases h with
  | fixed => rfl
  | current self item position => exact position

theorem within : Mirrors p B τ snap (f.within p σ) := by
  cases h with
  | fixed => exact .fixed
  | current self item position supplies room size =>
    exact .current self.scope item position supplies.scope room size

omit h in
theorem last (hp : p.Pure) (h : Mirrors p B σ snap f) (hm : B < m) (ht : t.slots = σ) (hsize : snap.Fits t.groupSize) :
    ∃ t', (lexicalMachine m p).last f t = some (snap.last, t') ∧ t'.slots = σ ∧ snap.Fits t'.groupSize := by
  cases h with
  | fixed =>
    refine ⟨t, ?_, ht, hsize⟩
    change (liftM snap.last : Eval Nat) t = _
    cases snap.last <;> rfl
  | @current d out r self item position supplies room size =>
    unfold Calls.last
    dsimp only
    rw [Eval.bind_get]
    cases hknown : t.groupSize with
    | some k =>
      rw [hsize k hknown]
      exact ⟨t, rfl, ht, hsize⟩
    | none =>
      obtain ⟨d', t₁, hclone, ht₁, hposition, hsupplies⟩ := supplies.clone hp (Nat.le_of_lt hm) ht
      have hfuel : out.length < (lexicalMachine m p).fuel := by
        rw [lexicalMachine, fuel_machineWith]
        omega
      obtain ⟨t₂, hcount, ht₂, hsize₂⟩ :=
        Supplies.countGroup hp (Nat.le_of_lt hm) d'.position (hsupplies σ) hfuel ht₁
      rw [hposition, ← size] at hcount
      dsimp only
      rw [Eval.bind_of_ok (Eval.lift_of_some hclone), hposition]
      cases hlast : snap.last with
      | ok k =>
        rw [hlast] at hcount
        refine ⟨{ t₂ with groupSize := some k }, ?_, ht₂, ?_⟩
        · rw [Eval.bind_of_ok hcount]
          rfl
        · intro j hj
          rw [← some.inj hj]
          exact hlast
      | error e =>
        rw [hlast] at hcount
        refine ⟨t₂, Eval.bind_of_error hcount, ht₂, ?_⟩
        rw [hsize₂, self.groupSize_clone hp ht hclone]
        exact hsize

theorem foci : Foci (.deeper p) Eq (some (σ, σ)) f f := by
  cases h with
  | fixed => exact .fixed fun _ _ => trivial
  | current self => exact self.foci

end

theorem last_eq (hp : p.Pure) (h : Mirrors p B σ snap f) (hs : s.slots = σ)
    (hsize : snap.Fits s.groupSize) {x : Except Error Nat}
    (hlast : (lexicalMachine n p).last f s = some (x, s')) : x = snap.last ∧ s'.slots = σ ∧ snap.Fits s'.groupSize := by
  obtain ⟨t', hlast', ht', hsize'⟩ := h.last hp
    (Nat.lt_of_lt_of_le .refl (Nat.le_max_right n (B + 1))) hs hsize
  have hsteady := hp.deeper.steady (Nat.le_max_left n (B + 1))
  have hst : Abreast (.deeper p) (some (σ, σ)) Eq s s := abreast_deeper hs hs rfl
  have hsame := h.foci.same hsteady rfl (Envs.level_some rfl)
  obtain ⟨t'', hlast'', hst'⟩ := (hsame.last s s hst).ends_same hlast
  obtain ⟨rfl, rfl⟩ := Prod.mk.inj (some.inj (hlast''.symm.trans hlast'))
  exact ⟨rfl, (hst'.pinned σ σ rfl).1, hst'.sizes ▸ hsize'⟩

end Mirrors

/-- The terms on which an expression is executed with two foci that show the same. -/
def Terms.refocused (p : Program) (B : Nat) : Terms :=
  .alone p (fun _ => True) (fun _ => False) true False fun sizes env f f' =>
    ∃ σ snap, env = some σ ∧ Mirrors p B σ snap f ∧ Mirrors p B σ snap f' ∧
      ∀ a b, sizes a b ↔ snap.Fits a ∧ snap.Fits b

theorem Terms.lexical_refocused (p : Program) (B : Nat) : (Terms.refocused p B).Lexical := by
  refine .alone ?_
  rintro sizes σ σ' f f' ⟨_, snap, hσ, hf, hf', hsizes⟩
  cases hσ
  exact ⟨σ', snap, rfl, hf.within, hf'.within, hsizes⟩

/-- The right run has the depth that it takes to look ahead. -/
theorem Program.Pure.refocused (hp : p.Pure) (B : Nat) :
    Steady (.refocused p B) True Variables.lexical fun n n' => n + B < n' where
  pred := by
    intro n n' hn
    omega
  fuelLe := fun n n' hn => .inr ⟨trivial, by omega⟩
  atomics := fun _ => trivial
  docWise := fun _ _ _ _ => trivial
  parallel := Terms.parallel_alone fun _ h => h.elim
  keeping := Terms.keeping_alone True _ _
  calls := fun e name f hform => .deeper (fun _ => Script.sound_true _) (hp.grows e name f hform) False.elim
  focusless := Terms.focusless_of_not fun _ h => h
  pairs := by
    rintro n n' sizes env f f' hn henv hlevel ⟨σ, snap, hσ, hf, hf', hsizes⟩
    obtain ⟨⟨_, τ⟩, rfl, rfl⟩ := map_eq_some_iff.mp hσ
    obtain rfl := hlevel _ τ rfl
    refine ⟨hf.item?.trans hf'.item?.symm, hf.position.trans hf'.position.symm, (fun _ _ => trivial), ?_⟩
    intro s t hst
    obtain ⟨hs, ht⟩ := hst.pinned _ _ rfl
    obtain ⟨hsleft, hsright⟩ := (hsizes _ _).mp hst.sizes
    obtain ⟨t', hright, ht', hsize'⟩ := hf'.last hp (m := n') (by omega) ht hsright
    unfold RelatedEval
    cases hleft : (machineWith Variables.lexical n (Terms.refocused p B).left).last f s with
    | none => exact .left trivial
    | some x =>
      obtain ⟨x, s'⟩ := x
      obtain ⟨rfl, hs', hsize⟩ := hf.last_eq hp hs hsleft hleft
      have hst' : Abreast (.refocused p B) (some (_, _)) sizes s' t' :=
        hst.keep (hs'.trans hs.symm) (ht'.trans ht.symm) ((hsizes _ _).mpr ⟨hsize, hsize'⟩)
      have hright' : (machineWith Variables.lexical n' (Terms.refocused p B).right).last f' t =
          some (snap.last, t') := hright
      rw [hright']
      cases snap.last with
      | ok k => exact .both (.ok ⟨rfl, hst'⟩)
      | error e => exact .both (.error trivial hst')
  kept := (Terms.lexical_refocused p B).kept

/-! ## Values in foci that show the same -/

/-- What one machine reads, the other one reads too. -/
theorem Calls.Reads.keepsUp (hm : KeepsUp (.free lax) Ok J m₁ m₂)
    (hJ : J c s d t) (h : m₁.Reads c s out r) : m₂.Reads d t out r := by
  unfold Calls.Reads at h ⊢
  generalize hx : m₁.next c s = x at h
  induction h generalizing c s d t with
  | ended | failed =>
    obtain ⟨⟨d', r'⟩, t', hpull, rfl, -⟩ := (hm c s d t hJ).of_some hx
    rw [hpull]
    constructor
  | item hcurrent rest ih =>
    obtain ⟨⟨d', r'⟩, t', hpull, rfl, hcur, hpos, -, hJ'⟩ := (hm c s d t hJ).of_some hx
    rw [hpull]
    rw [hpos]
    exact .item (hcur ▸ hcurrent) (ih hJ' rfl)

def Calls.select (m : Calls) (e : ExprId) (f : Focus) : Eval Selection := do
  let value ← m.execute e f
  Selection.ofItems (← m.firstTwo value)

theorem Steady.select (hs : Steady C lax keeper deep) (hn : deep n n') (henv : env.isSome = C.pinned)
    (hlevel : env.Level C) (htwins : C.twin e e') (hf : FociFor C sizes env e f f') (hst : Abreast C env sizes s t) :
    RelatedEval (.free lax) (Same (Abreast C env sizes)) (Abreast C env sizes)
      ((machineWith keeper n C.left).select e f) ((machineWith keeper n' C.right).select e' f') s t := by
  have hat := hs.steady hn
  refine .bind (hat.execute (recorded_noRecord C keeper) henv hlevel htwins hf s t hst) ?_
  rintro c s d t ⟨hcd, hst⟩
  refine .bind (firstTwo_related (hat.next (recorded_noRecord C keeper) henv) (fun _ _ _ _ h => h.2)
    hat.machines ⟨hcd, hst⟩) ?_
  rintro items s _ t ⟨⟨rfl, -⟩, hst⟩
  exact .same (fun _ _ => trivial) hst

section

variable {snap : Snapshot} {f f' : Focus} {e : ExprId} {s' : Store} {n' : Nat}

/-- Stores in which two foci that show the same are seen. -/
theorem abreast_refocused (hs : s.slots = σ) (ht : t.slots = σ) (hsize : snap.Fits s.groupSize)
    (hsize' : snap.Fits t.groupSize) :
    Abreast (.refocused p B) (some (σ, σ)) (fun a b => snap.Fits a ∧ snap.Fits b) s t :=
  .inEnvironment hs ht (fun _ _ _ _ _ => trivial) ⟨hsize, hsize'⟩

theorem Mirrors.fociFor (hf : Mirrors p B σ snap f) (hf' : Mirrors p B σ snap f') :
    FociFor (.refocused p B) (fun a b => snap.Fits a ∧ snap.Fits b) (some (σ, σ)) e f f' :=
  fun _ => .pair ⟨σ, snap, rfl, hf, hf', fun _ _ => Iff.rfl⟩

/-- A predicate makes the same selection in foci that show the same. -/
theorem select_refocused (hp : p.Pure) (hf : Mirrors p B σ snap f) (hf' : Mirrors p B σ snap f')
    (hs : s.slots = σ) (ht : t.slots = σ) (hsize : snap.Fits s.groupSize)
    (hsize' : snap.Fits t.groupSize) (hn : n + B < n') {x : Except Error Selection}
    (hrun : (lexicalMachine n p).select e f s = some (x, s')) : (s'.slots = σ ∧ snap.Fits s'.groupSize) ∧
      ∃ t', (lexicalMachine n' p).select e f' t = some (x, t') ∧ t'.slots = σ ∧
        snap.Fits t'.groupSize := by
  have hselect := (hp.refocused B).select hn rfl (Envs.level_some rfl) (rfl : e = e) (hf.fociFor hf')
    (abreast_refocused hs ht hsize hsize')
  obtain ⟨t', hrun', hst'⟩ := hselect.ends_same hrun
  obtain ⟨hs', ht'⟩ := hst'.pinned σ σ rfl
  exact ⟨⟨hs', hst'.sizes.1⟩, t', hrun', ht', hst'.sizes.2⟩

/-- Values that are read alike, if the second one is read that much deeper, or the same error. -/
def ReadAlike (p : Program) (B : Nat) (s t : Store) : Except Error Cursor → Except Error Cursor → Prop
  | .ok c, .ok d => ∀ {k k' : Nat} {out : List (Item × Nat)} {r : Except Error Unit}, k + B < k' →
      (lexicalMachine k p).Reads c s out r → (lexicalMachine k' p).Reads d t out r
  | .error e, .error e' => e = e'
  | _, _ => False

/-- An expression has the same value in foci that show the same. -/
theorem execute_refocused (hp : p.Pure) (hf : Mirrors p B σ snap f) (hf' : Mirrors p B σ snap f')
    (hs : s.slots = σ) (ht : t.slots = σ) (hsize : snap.Fits s.groupSize) (hsize' : snap.Fits t.groupSize)
    (hn : n + B < n') (hrun : (lexicalMachine n p).execute e f s = some (x, s')) :
    ∃ y t', (lexicalMachine n' p).execute e f' t = some (y, t') ∧ t'.slots = σ ∧
      ReadAlike p B s' t' x y := by
  have hrec := fun {n} => recorded_noRecord (.refocused p B) Variables.lexical (n := n)
  have hexec := ((hp.refocused B).steady hn).execute hrec rfl (Envs.level_some rfl) (rfl : e = e)
    (hf.fociFor hf') s t (abreast_refocused hs ht hsize hsize')
  obtain ⟨y, t', hrun', hxy⟩ := Related.of_some hexec hrun
  cases hxy with
  | ok h =>
    refine ⟨_, t', hrun', (h.2.pinned σ σ rfl).2, fun hk hreads => ?_⟩
    exact hreads.keepsUp (((hp.refocused B).steady hk).next hrec rfl) h
  | error lawful h => exact ⟨_, t', hrun', (h.pinned σ σ rfl).2, rfl⟩

/-- Executing an expression leaves the slots as they are, and copies can be made of what it computes. -/
theorem execute_replicable (hp : p.Pure) (hf : Foci (.deeper p) Eq (some (σ, σ)) f f) (hs : s.slots = σ)
    (hrun : (lexicalMachine n p).execute e f s = some (x, s')) : s'.slots = σ ∧ ∀ c, x = .ok c → c.Replicable p σ := by
  have hexec := (hp.deeper.steady .refl).execute (recorded_begun p (Nat.le_refl n)) rfl
    (Envs.level_some rfl) (rfl : e = e) (fun _ => hf) s s (abreast_deeper hs hs rfl)
  obtain ⟨y, t', hrun', hxy⟩ := Related.of_some hexec hrun
  obtain ⟨rfl, rfl⟩ := Prod.mk.inj (some.inj (hrun'.symm.trans hrun))
  cases y with
  | ok c =>
    obtain ⟨hself, hst⟩ := hxy.value
    exact ⟨(hst.pinned σ σ rfl).1, fun d hd => Except.ok.inj hd ▸ ⟨n, hself⟩⟩
  | error err =>
    cases hxy with
    | error lawful h => exact ⟨(h.pinned σ σ rfl).1, nofun⟩

end

end XPath
