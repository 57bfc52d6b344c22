import XPath.Proofs.Functions
import XPath.Proofs.Keepers

/-!
# Copies go on where the cursor stands

A copy has slots of its own, and what a loop or a step was in the middle of is computed again for it. In
environments, where slots are never written, the copy of a cursor is alike the cursor: `Begun` records how
every sequence in progress came about, so that computing it again leads to the same place, provided that
there is as much depth as was needed the first time (`Program.Pure.clone`).
-/

namespace XPath

variable {n k pos : Nat} {l l' : Looping} {st st' : Beginning} {i j : Cursor} {start : Eval Cursor} {cs : List Cursor}

/-- A program that calls only functions which do at least as much under a larger bound, and return no
argument that they have pulled. -/
structure Program.Pure (p : Program) : Prop where
  grows : ∀ e name f, p.form? e = some (.call name (some f)) → f.Grows
  reply : ∀ e name f, p.form? e = some (.call name (some f)) → f.KeepsReply

/-- The terms on which a program is compared with itself at two depths. -/
def Terms.deeper (p : Program) : Terms :=
  .alone p (fun _ => True) (fun _ => False) true True fun _ _ _ _ => False

theorem Terms.sameLoop_deeper (p : Program) (l : Looping) : (Terms.deeper p).SameLoop l l := by
  cases l with
  | forEach => exact .forEach rfl rfl fun _ => ⟨rfl, fun _ _ => trivial⟩
  | step => exact .step rfl

theorem Terms.SameLoop.eq_of_deeper {p : Program} (h : (Terms.deeper p).SameLoop l l') : l = l' := by
  cases h with
  | forEach twins binds focus =>
    obtain ⟨rfl, -⟩ := focus id
    exact congrFun (congr (congrArg Looping.forEach twins) binds) _
  | step twins => exact congrArg _ twins

theorem Terms.lexical_deeper (p : Program) : (Terms.deeper p).Lexical :=
  .alone fun _ _ _ _ _ h => h

section

variable {p : Program} {N m : Nat} {σ τ : Slots} {c d : Cursor} {s t : Store}

theorem Program.Pure.deeper (h : p.Pure) : Steady (.deeper p) True Variables.lexical (· ≤ ·) where
  pred := fun _ _ => Nat.le_of_succ_le_succ
  fuelLe := fun _ _ hn => .inr ⟨trivial, hn⟩
  atomics := fun _ => trivial
  docWise := fun _ _ _ _ => trivial
  parallel := Terms.parallel_alone fun _ h => h.elim
  keeping := Terms.keeping_alone True _ _
  calls := fun e name f hform =>
    .deeper (fun _ => Script.sound_true _) (h.grows e name f hform) fun _ => h.reply e name f hform
  focusless := Terms.focusless_of_not fun _ h => h
  pairs := fun _ _ _ _ _ _ _ _ _ hpair => hpair.elim
  kept := (Terms.lexical_deeper p).kept

/-! ## How sequences in progress came about -/

/-- The cursor was started so, and has been pulled so often since, at depths up to `N`. -/
inductive Begun (p : Program) (N : Nat) : Option Slots → Beginning → Cursor → Nat → Prop
  | start {n : Nat} {env : Option Slots} {st : Beginning} {c : Cursor} {s s' : Store} (le : n ≤ N)
      (fixes : s.Fixes env) (run : (lexicalMachine n p).begin st s = some (.ok c, s')) :
      Begun p N env st c 0
  | next {n k : Nat} {env : Option Slots} {st : Beginning} {c c' : Cursor} {s s' : Store} (le : n ≤ N)
      (fixes : s.Fixes env) (before : Begun p N env st c k)
      (pull : (lexicalMachine n p).next c s = some ((c', .ok true), s')) : Begun p N env st c' (k + 1)

theorem recorded_begun (p : Program) (hn : n ≤ N) : Recorded (.deeper p) Variables.lexical (Begun p N) n where
  start := fun _ hm _ _ _ _ _ hs hrun => .start (Nat.le_trans hm hn) hs hrun
  next := fun _ hm _ _ _ _ _ _ _ hs hbegun hpull => .next (Nat.le_trans hm hn) hs hbegun hpull
  loose := fun h => (h trivial).elim

/-- `c` in the slots `σ` stands for `d` in the slots `τ`. -/
abbrev StandsFor (p : Program) (N : Nat) (σ τ : Slots) : Cursor → Cursor → Prop :=
  Alike (.deeper p) (Begun p N) (some (σ, τ))

/-- Stores on these slots, whatever the group sizes are. -/
theorem abreast_deeper {sizes : Option Nat → Option Nat → Prop} (hs : s.slots = σ) (ht : t.slots = τ)
    (hsizes : sizes s.groupSize t.groupSize) : Abreast (.deeper p) (some (σ, τ)) sizes s t := by
  refine ⟨nofun, ?_, fun _ _ _ _ _ => trivial, hsizes⟩
  intro _ _ henv
  cases henv
  exact ⟨hs, ht⟩

section

variable (h : p.Pure)

include h

theorem StandsFor.next (hn : n ≤ N) (hm : n ≤ m) (hcd : StandsFor p N σ τ c d) (hs : s.slots = σ)
    (ht : t.slots = τ) {x : Pulled} {s' : Store} (hpull : (lexicalMachine n p).next c s = some (x, s')) :
    ∃ d' t', (lexicalMachine m p).next d t = some ((d', x.2), t') ∧ StandsFor p N σ τ x.1 d' ∧
      s'.slots = σ ∧ t'.slots = τ := by
  have hst : Abreast (.deeper p) (some (σ, τ)) (fun _ _ => True) s t := abreast_deeper hs ht trivial
  have hnext := (h.deeper.steady hm).next (recorded_begun p hn) rfl c s d t ⟨hcd, hst⟩
  obtain ⟨⟨d', r⟩, t', hpull', hout, -, -, -, halike, hst'⟩ := hnext.of_some hpull
  obtain rfl : x.2 = r := hout
  obtain ⟨hs', ht'⟩ := hst'.pinned σ τ rfl
  exact ⟨d', t', hpull', halike, hs', ht'⟩

/-! ## Computing a sequence again -/

/-- A start that stands for a beginning at all depths up to `N`. -/
def Restarts (p : Program) (N : Nat) (σ : Slots) (st : Beginning) (start : Eval Cursor) (t : Store) : Prop :=
  ∀ n ≤ N, ∀ s c s', s.slots = σ → (lexicalMachine n p).begin st s = some (.ok c, s') →
    ∃ d t', start t = some (.ok d, t') ∧ StandsFor p N σ σ c d ∧ t'.slots = σ

section

variable (hm : N ≤ m)

include hm

theorem restarts_launch (hcd : StandsFor p N σ σ c d) (hst : l.beginning? c = some st)
    (hst' : l.beginning? d = some st') (ht : t.slots = σ) (hg : l.grouped = true → t.groupSize = none) :
    Restarts p N σ st ((lexicalMachine m p).launch st') t := by
  intro n hn s i s' hs hrun
  have hgroup := (st.inGroup_apply ((lexicalMachine n p).launch st).run s).symm.trans hrun
  obtain ⟨⟨r, s₁⟩, hlaunched, ⟨⟩⟩ := Option.map_eq_some_iff.mp hgroup
  have habreast : Abreast (.deeper p) (some (σ, σ)) (fun a b => l.grouped = true → a = b)
      { s with groupSize := st.sizeAt s.groupSize } t :=
    abreast_deeper hs ht fun hl => (l.sizeAt_of_grouped hst hl _).trans (hg hl).symm
  have hlaunch := launch_steady (h.deeper.steady (Nat.le_trans hn hm)) (recorded_begun p hn) rfl
    (Envs.level_some rfl) (Terms.sameLoop_deeper p l) hcd.forget habreast
    (fun hl _ _ => ⟨fun h => h hl, fun h _ => h⟩) hst hst'
  obtain ⟨x, t', hrun', hx⟩ := Related.of_some hlaunch hlaunched
  match x with
  | .ok j => exact ⟨j, t', hrun', hx.value.1, (hx.value.2.pinned σ σ rfl).2⟩

/-- Starting again and skipping as many items leads to a cursor that the first one stands for. -/
theorem Begun.skips (hbegun : Begun p N (some σ) st i k)
    (hstart : Restarts p N σ st start t) : ∃ j t', (∀ r, (do (lexicalMachine m p).skip (k + r) (← start)) t =
        (lexicalMachine m p).skip r j t') ∧ StandsFor p N σ σ i j ∧ t'.slots = σ := by
  generalize henv : some σ = env at hbegun
  induction hbegun with
  | @start n env st c s s' hn hs hrun =>
    obtain ⟨d, t', hrun', hcd, ht'⟩ := hstart n hn s c s' (hs σ henv.symm) hrun
    refine ⟨d, t', fun r => ?_, hcd, ht'⟩
    rw [Nat.zero_add]
    exact Eval.bind_of_ok hrun'
  | @next n k env st c c' s s' hn hs hbegun hpull ih =>
    obtain ⟨j, t', hskip, hcj, ht'⟩ := ih hstart henv
    obtain ⟨j', t'', hpull', hcj', -, ht''⟩ :=
      hcj.next h hn (Nat.le_trans hn hm) (hs σ henv.symm) ht' hpull
    refine ⟨j', t'', fun r => ?_, hcj', ht''⟩
    rw [Nat.add_assoc, Nat.add_comm 1 r, hskip (r + 1)]
    exact Eval.bind_of_ok (Eval.lift_of_some hpull')

theorem Begun.replays (hbegun : Begun p N (some σ) st i k) (hstart : Restarts p N σ st start t) :
    ∃ j t', (lexicalMachine m p).replay k start t = some (.running j k, t') ∧
      StandsFor p N σ σ i j ∧ t'.slots = σ := by
  obtain ⟨j, t', hskip, hij, ht'⟩ := hbegun.skips h hm hstart
  have hskip' : (do (lexicalMachine m p).skip k (← start) : Eval Cursor) t = some (.ok j, t') := hskip 0
  exact ⟨j, t', Run.bind_of_some hskip', hij, ht'⟩

/-! ## Copies -/

/-- Copying leaves the slots alone and gives a cursor that `c` stands for wherever it is. -/
def Replica (p : Program) (N : Nat) (σ : Slots) (c : Cursor) (t : Store) (copied : Option (Cursor × Store)) : Prop :=
  ∃ d t', copied = some (d, t') ∧ t'.slots = t.slots ∧ ∀ τ, StandsFor p N σ τ c d

theorem copy_running_replica (hst : l.beginning? c = some st) (hbegun : Begun p N (some σ) st i k)
    (ht : t.slots = σ) (hsource : Replica p N σ c t ((lexicalMachine m p).clone d t)) :
    Replica p N σ (l.on c (.running i k) pos false) t
      ((lexicalMachine m p).copy p (l.on d (.running j k) pos false) t) := by
  obtain ⟨d', t₁, hclone, ht₁, hcd⟩ := hsource
  obtain ⟨st', hst'⟩ : ∃ st', l.beginning? d' = some st' :=
    Option.isSome_iff_exists.mp (l.isSome_beginning? (hcd σ).current_eq ▸ Option.isSome_of_eq_some hst)
  obtain ⟨j', t₂, hreplay, hij, ht₂⟩ := hbegun.replays h hm (restarts_launch h hm
    (t := { t₁ with slots := σ, groupSize := st'.sizeAt t₁.groupSize }) (hcd σ) hst hst' rfl
    fun hl => l.sizeAt_of_grouped hst' hl _)
  refine ⟨.scope p σ (l.on d' (.running j' k) pos false),
    { t₂ with slots := t₁.slots, groupSize := st'.sizeAfter t₁.groupSize t₂.groupSize }, ?_, ht₁, fun τ =>
      .scopeRight (.running pos (Envs.level_some rfl) (Terms.sameLoop_deeper p l) hst hbegun (hcd σ) hij)⟩
  rw [l.copy_on]
  refine (Run.bind_of_some rfl).trans ((Run.bind_of_some hclone).trans ?_)
  unfold Looping.again
  rw [hst', ht]
  refine (Run.bind_of_some (a := (.running j' k, σ)) ?_).trans rfl
  dsimp only
  rw [onSlots_apply, Beginning.inGroup_apply, hreplay, ← ht₂]
  rfl

end

end

theorem cloneAll_replica {ds : List Cursor} (hlength : cs.length = ds.length)
    (hall : ∀ (i : Nat) c d, cs[i]? = some c → ds[i]? = some d → ∀ t, t.slots = τ →
      Replica p N σ c t ((lexicalMachine m p).clone d t)) (ht : t.slots = τ) :
    ∃ ds' t', (lexicalMachine m p).cloneAll ds t = some (ds', t') ∧ t'.slots = t.slots ∧
      cs.length = ds'.length ∧
        ∀ (i : Nat) c d, cs[i]? = some c → ds'[i]? = some d → ∀ τ, StandsFor p N σ τ c d := by
  induction ds generalizing cs t with
  | nil =>
    obtain rfl := List.eq_nil_of_length_eq_zero hlength
    exact ⟨[], t, rfl, rfl, rfl, nofun⟩
  | cons d ds ih =>
    obtain ⟨c, cs, rfl⟩ := List.exists_cons_of_length_eq_add_one hlength
    obtain ⟨d', t₁, hclone, ht₁, hcd⟩ := hall 0 c d rfl rfl t ht
    have hlength' : cs.length = ds.length := Nat.succ.inj hlength
    have hrest : ∀ (i : Nat) c d, cs[i]? = some c → ds[i]? = some d → ∀ t, t.slots = τ →
        Replica p N σ c t ((lexicalMachine m p).clone d t) :=
      fun i c d hc hd => hall (i + 1) c d hc hd
    obtain ⟨ds', t₂, hclones, ht₂, hlength₂, hall₂⟩ := ih hlength' hrest (ht₁.trans ht)
    refine ⟨d' :: ds', t₂, ?_, ht₂.trans ht₁, congrArg Nat.succ hlength₂, ?_⟩
    · exact (Run.bind_of_some hclone).trans ((Run.bind_of_some hclones).trans rfl)
    · intro i c d hc hd
      cases i with
      | zero =>
        cases hc
        cases hd
        exact hcd
      | succ i => exact hall₂ i c d hc hd

/-- A cursor is copied at one depth and what it is made of at the depth below. -/
theorem exists_depth_below {x : Cursor} (hm : N + sizeOf x ≤ m) :
    ∃ m', m = m' + 1 ∧ N ≤ m' ∧ ∀ c : Cursor, sizeOf c < sizeOf x → N + sizeOf c ≤ m' := by
  have hpos : 0 < sizeOf x := by cases x <;> simp +arith
  refine ⟨m - 1, by omega, by omega, fun c hc => by omega⟩

theorem sizeOf_lt_of_getElem? {i : Nat} (h : cs[i]? = some c) : sizeOf c < sizeOf cs :=
  List.sizeOf_lt_of_mem (List.mem_of_getElem? h)

/-- A cursor stands for the copies of what it stands for, given the depth at which its sequences in
progress were begun and one level for each part of it. -/
theorem StandsFor.clone (h : p.Pure) (hcd : StandsFor p N σ τ c d) {m : Nat} {t : Store}
    (hm : N + sizeOf c ≤ m) (ht : t.slots = τ) : Replica p N σ c t ((lexicalMachine m p).clone d t) := by
  unfold StandsFor at hcd
  generalize henv : some (σ, τ) = env at hcd
  induction hcd generalizing σ τ m t with
  | leaf h =>
    obtain ⟨m, rfl, -, -⟩ := exists_depth_below hm
    rw [lexicalMachine, clone_bare _ _ _ fun _ _ _ => h.ne_scope, h.copy]
    exact ⟨_, _, rfl, rfl, fun _ => .leaf h⟩
  | concat pos fin goneLength restLength spent left ihSpent ihLeft =>
    obtain ⟨m, rfl, -, hparts⟩ := exists_depth_below hm
    have hgone := cloneAll_replica goneLength (fun i c d hc hd t ht => ihSpent i c d hc hd
      (hparts c (by have := sizeOf_lt_of_getElem? hc; simp; omega)) ht henv) ht
    obtain ⟨gone', t₁, hrun₁, ht₁, hlength₁, hall₁⟩ := hgone
    have hrest := cloneAll_replica restLength (fun i c d hc hd t ht => ihLeft i c d hc hd
      (hparts c (by have := sizeOf_lt_of_getElem? hc; simp; omega)) ht henv) (ht₁.trans ht)
    obtain ⟨rest', t₂, hrun₂, ht₂, hlength₂, hall₂⟩ := hrest
    refine ⟨.concat gone' rest' pos fin, t₂, ?_, ht₂.trans ht₁, fun τ => ?_⟩
    · exact (Run.bind_of_some hrun₁).trans ((Run.bind_of_some hrun₂).trans rfl)
    · exact .concat pos fin hlength₁ hlength₂ (fun i c d hc hd => hall₁ i c d hc hd τ)
        (fun i c d hc hd => hall₂ i c d hc hd τ)
  | stage st fin sound input ih =>
    obtain ⟨m, rfl, -, hparts⟩ := exists_depth_below hm
    obtain ⟨d', t', hrun, ht', hcd⟩ := ih (hparts _ st.sizeOf_lt) ht henv
    rw [lexicalMachine, clone_bare _ _ _ fun _ _ _ => st.on_ne_scope, st.copy_on]
    exact ⟨_, t', Run.bind_of_some hrun, ht', fun τ => .stage st fin sound (hcd τ)⟩
  | predicate inputPos size pos fin level twins kept input ih =>
    obtain ⟨m, rfl, -, hparts⟩ := exists_depth_below hm
    obtain ⟨d', t', hrun, ht', hcd⟩ := ih (hparts _ (by simp +arith)) ht henv
    obtain rfl := level σ τ henv.symm
    subst henv ht
    exact ⟨_, t', (Run.bind_of_some rfl).trans (Run.bind_of_some hrun), ht',
      fun _ => .scopeRight (.predicate inputPos size pos fin level twins kept (hcd _))⟩
  | @loop _ l _ _ _ _ pos fin level idle same source ih =>
    obtain ⟨m, rfl, -, hparts⟩ := exists_depth_below hm
    obtain ⟨d', t', hrun, ht', hcd⟩ := ih (hparts _ l.sizeOf_lt) ht henv
    obtain rfl := level σ τ henv.symm
    obtain rfl := same.eq_of_deeper
    subst henv ht
    have hmade := Alike.loop pos fin level idle same (hcd t.slots)
    rw [lexicalMachine, clone_bare _ _ _ fun _ _ _ => l.on_ne_scope, l.copy_on]
    rcases idle with rfl | ⟨e, rfl⟩ <;>
      exact ⟨_, t', (Run.bind_of_some rfl).trans (Run.bind_of_some hrun), ht', fun _ => .scopeRight hmade⟩
  | @running _ l _ _ _ _ j _ _ pos level same begun origin source inner ihSource ihInner =>
    obtain ⟨m, rfl, hle, hparts⟩ := exists_depth_below hm
    obtain rfl := level σ τ henv.symm
    obtain rfl := same.eq_of_deeper
    have hsource := ihSource (hparts _ l.sizeOf_lt) ht henv
    subst henv
    rw [lexicalMachine, clone_bare _ _ _ fun _ _ _ => l.on_ne_scope]
    exact copy_running_replica (j := j) h hle begun origin ht hsource
  | scope sound inner => cases henv
  | scopeLeft sound inner ih =>
    cases henv
    obtain ⟨d', t', hrun, ht', hcd⟩ := ih (m := m) (by simp at hm; omega) ht rfl
    exact ⟨d', t', hrun, ht', fun τ => .scopeLeft sound (hcd τ)⟩
  | @scopeRight _ _ τ' _ _ inner ih =>
    cases henv
    obtain ⟨d', t', hrun, -, hcd⟩ := ih (t := { t with slots := τ' }) hm rfl rfl
    refine ⟨d', { t' with slots := t.slots }, ?_, rfl, hcd⟩
    rw [lexicalMachine, clone_scope]
    exact congrArg (Option.map _) hrun

end

end XPath
