import XPath.Eval.Run

/-!
# Runs side by side

Claims about the machine compare two runs: of two machines, of one machine at two depths, of one machine
on two stores. `Related` says what it means that two runs end alike, and the rules below take it through
the operations that runs are made of, so that a comparison follows the program text step by step.

A run may have no result because its bound is reached. Both runs then have to lack one, unless the
comparison is `lax`: then only a result of the left run asks for one of the right run. A unary invariant
is the comparison of a run with itself.
-/

namespace XPath

variable {α β γ δ : Type} {e : Error} {s' : Store} {c : Cursor}

theorem exists_succ_of_lt (h : m < n) : ∃ k, n = k + 1 :=
  ⟨n - 1, by omega⟩

/-- How two runs end: with related results, or both without one. In a lax comparison nothing is asked
where the left run has none. -/
inductive Related (lax : Prop) (Q : α → Store → β → Store → Prop) :
    Option (α × Store) → Option (β × Store) → Prop
  | both {a : α} {s : Store} {b : β} {t : Store} (h : Q a s b t) :
      Related lax Q (some (a, s)) (some (b, t))
  | neither : Related lax Q none none
  | left {o : Option (β × Store)} (h : lax) : Related lax Q none o

namespace Related

variable {lax : Prop} {s t : Store} {Q : α → Store → β → Store → Prop} {R : γ → Store → δ → Store → Prop}

theorem bind {f : α → Run γ} {g : β → Run δ} (h : Related lax Q (x s) (y t))
    (k : ∀ a s b t, Q a s b t → Related lax R (f a s) (g b t)) : Related lax R ((x >>= f) s) ((y >>= g) t) := by
  change Related lax R ((x s).bind fun r => f r.1 r.2) ((y t).bind fun r => g r.1 r.2)
  generalize x s = rx at h ⊢
  generalize y t = ry at h ⊢
  cases h with
  | both h => exact k _ _ _ _ h
  | neither => exact .neither
  | left h => exact .left h

theorem get (h : Related lax R (f s s) (g t t)) :
    Related lax R (((MonadState.get : Run Store) >>= f) s) (((MonadState.get : Run Store) >>= g) t) :=
  h

section

variable {x : Option (α × Store)} {y : Option (β × Store)} (h : Related lax Q x y)

include h

theorem map (k : ∀ a s b t, Q a s b t → R (f (a, s)).1 (f (a, s)).2 (g (b, t)).1 (g (b, t)).2) :
    Related lax R (x.map f) (y.map g) := by
  cases h with
  | both h => exact .both (k _ _ _ _ h)
  | neither => exact .neither
  | left h => exact .left h

theorem mapLeft {R : γ → Store → β → Store → Prop}
    (k : ∀ a s b t, Q a s b t → R (f (a, s)).1 (f (a, s)).2 b t) : Related lax R (x.map f) y :=
  Option.map_id' (x := y) ▸ h.map k

theorem mapRight {R : α → Store → δ → Store → Prop}
    (k : ∀ a s b t, Q a s b t → R a s (g (b, t)).1 (g (b, t)).2) : Related lax R x (y.map g) :=
  Option.map_id' (x := x) ▸ h.map k

theorem mono (hQ : ∀ a s b t, Q a s b t → Q' a s b t) : Related lax Q' x y := by
  cases h with
  | both h => exact .both (hQ _ _ _ _ h)
  | neither => exact .neither
  | left h => exact .left h

theorem withLeft : Related lax (fun a s b t => Q a s b t ∧ x = some (a, s)) x y := by
  cases h with
  | both h => exact .both ⟨h, rfl⟩
  | neither => exact .neither
  | left h => exact .left h

theorem withRight : Related lax (fun a s b t => Q a s b t ∧ y = some (b, t)) x y := by
  cases h with
  | both h => exact .both ⟨h, rfl⟩
  | neither => exact .neither
  | left h => exact .left h

theorem of_some (hx : x = some (a, s)) : ∃ b t, y = some (b, t) ∧ Q a s b t := by
  subst hx
  cases h with
  | both h => exact ⟨_, _, rfl, h⟩

end

section

variable {x : Option (α × Store)} {y : Option (β × Store)} (h : Related False Q x y)

include h

/-- Unless the comparison is lax, a result of the right run is one of the left run. -/
theorem of_some_right (hy : y = some (b, t)) : ∃ a s, x = some (a, s) ∧ Q a s b t := by
  subst hy
  cases h with
  | both h => exact ⟨_, _, rfl, h⟩
  | left h => exact h.elim

theorem map_eq (hQ : ∀ a s b t, Q a s b t → f (a, s) = g (b, t)) : x.map f = y.map g := by
  cases h with
  | both h => exact congrArg some (hQ _ _ _ _ h)
  | neither => rfl
  | left h => exact h.elim

end

end Related

/-! ## Runs on other slots and with other group sizes -/

theorem onSlots_apply (slots : Slots) (x : Run α) (s : Store) : onSlots slots x s =
      (x { s with slots := slots }).map fun r => ((r.1, r.2.slots), { r.2 with slots := s.slots }) := by
  change ((x { s with slots := slots }).bind _) = _
  cases x { s with slots := slots } <;> rfl

theorem withGroupSize_apply (known : Option Nat) (x : Run α) (s : Store) :
    withGroupSize known x s = (x { s with groupSize := known }).map fun r =>
        ((r.1, r.2.groupSize), { r.2 with groupSize := s.groupSize }) := by
  change ((x { s with groupSize := known }).bind _) = _
  cases x { s with groupSize := known } <;> rfl

/-! ## Runs that may fail -/

/-- What is asked of runs that are compared: whether the left one may lack a result, and which errors may occur.
Only static errors can be ruled out. -/
structure Law where
  lax : Prop
  Err : Error → Prop
  dynamic : ∀ e : Error, e.isStatic = false → Err e

abbrev Law.free (lax : Prop) : Law :=
  ⟨lax, fun _ => True, fun _ _ => trivial⟩

abbrev Law.strict : Law :=
  .free False

/-- Both runs have values that are related, or both fail with one error. -/
inductive Settled (L : Law) (Q : α → Store → β → Store → Prop) (E : Store → Store → Prop) :
    Except Error α → Store → Except Error β → Store → Prop
  | ok {a : α} {s : Store} {b : β} {t : Store} (h : Q a s b t) : Settled L Q E (.ok a) s (.ok b) t
  | error {e : Error} {s t : Store} (lawful : L.Err e) (h : E s t) : Settled L Q E (.error e) s (.error e) t

def Same (E : Store → Store → Prop) (a : α) (s : Store) (b : α) (t : Store) : Prop :=
  a = b ∧ E s t

def Sure (Q : α → Prop) (E : Store → Store → Prop) (a : α) (s : Store) (b : α) (t : Store) : Prop :=
  (a = b ∧ Q a) ∧ E s t

theorem Settled.same (h : Settled L (Same E) E r s r' t) : r = r' ∧ E s t ∧ ∀ e, r = .error e → L.Err e := by
  cases h with
  | ok h => exact ⟨congrArg _ h.1, h.2, nofun⟩
  | error he h => exact ⟨rfl, h, by rintro _ ⟨⟩; exact he⟩

theorem Settled.value (h : Settled L Q E (.ok a) s (.ok b) t) : Q a s b t := by
  cases h
  assumption

def RelatedEval (L : Law) (Q : α → Store → β → Store → Prop) (E : Store → Store → Prop)
    (x : Eval α) (y : Eval β) (s t : Store) : Prop :=
  Related L.lax (Settled L Q E) (x s) (y t)

namespace RelatedEval

variable {L : Law} {s t : Store} {Q : α → Store → β → Store → Prop} {R : γ → Store → δ → Store → Prop}
  {E : Store → Store → Prop}

theorem bind {f : α → Eval γ} {g : β → Eval δ} (h : RelatedEval L Q E x y s t)
    (k : ∀ a s b t, Q a s b t → RelatedEval L R E (f a) (g b) s t) : RelatedEval L R E (x >>= f) (y >>= g) s t := by
  refine Related.bind h ?_
  intro a s' b t' hab
  cases hab with
  | ok h => exact k _ _ _ _ h
  | error he h => exact .both (.error he h)

theorem pure (h : Q a s b t) : RelatedEval L Q E (Pure.pure a) (Pure.pure b) s t :=
  .both (.ok h)

theorem throw (he : L.Err e) (h : E s t) : RelatedEval L Q E (throw e : Eval α) (throw e : Eval β) s t :=
  .both (.error he h)

theorem outOfFuel :
    RelatedEval L Q E (ExceptT.lift XPath.outOfFuel : Eval α) (ExceptT.lift XPath.outOfFuel : Eval β) s t :=
  .neither

theorem get (h : RelatedEval L R E (f s) (g t) s t) :
    RelatedEval L R E (MonadState.get >>= f) (MonadState.get >>= g) s t :=
  h

theorem modify (h : RelatedEval L R E x y (f s) (g t)) : RelatedEval L R E (do modify f; x) (do modify g; y) s t :=
  h

theorem lift {x : Run α} {y : Run β} (h : Related L.lax Q (x s) (y t)) : RelatedEval L Q E (liftM x) (liftM y) s t := by
  change Related L.lax (Settled L Q E) ((x >>= fun a => (Pure.pure (.ok a) : Run (Except Error α))) s)
    ((y >>= fun b => (Pure.pure (.ok b) : Run (Except Error β))) t)
  refine Related.bind h ?_
  intro a s' b t' hab
  exact .both (.ok hab)

section

variable {r : Except Error α} (herr : ∀ e, r = .error e → L.Err e) (h : E s t)

include herr h

theorem except {Q : α → Store → α → Store → Prop} (hok : ∀ a, r = .ok a → Q a s a t) :
    RelatedEval L Q E (liftM r) (liftM r) s t := by
  cases r with
  | ok a => exact .pure (hok a rfl)
  | error e => exact .throw (herr e rfl) h

theorem same : RelatedEval L (Same E) E (liftM r) (liftM r) s t :=
  .except herr h fun _ _ => ⟨rfl, h⟩

theorem bindSame {f : α → Eval γ} (k : ∀ a, r = .ok a → RelatedEval L R E (f a) (g a) s t) :
    RelatedEval L R E (liftM r >>= f) (liftM r >>= g) s t := by
  refine .bind (Q := fun a s' b t' => a = b ∧ r = .ok a ∧ s' = s ∧ t' = t)
    (.except herr h fun a ha => ⟨rfl, ha, rfl, rfl⟩) ?_
  rintro a s' b t' ⟨rfl, ha, rfl, rfl⟩
  exact k a ha

end

section

variable {x : Eval α} {y : Eval β} (h : RelatedEval L Q E x y s t)

include h

theorem run : Related L.lax (Settled L Q E) (x.run s) (y.run t) :=
  h

theorem mono (hQ : ∀ a s b t, Q a s b t → Q' a s b t) (hE : ∀ s t, E s t → E' s t) : RelatedEval L Q' E' x y s t := by
  refine Related.mono h ?_
  intro a s' b t' hab
  cases hab with
  | ok h => exact .ok (hQ _ _ _ _ h)
  | error he h => exact .error he (hE _ _ h)

theorem withLeft : RelatedEval L (fun a s' b t' => Q a s' b t' ∧ x s = some (.ok a, s')) E x y s t := by
  refine Related.mono (Related.withLeft h) ?_
  rintro a s' b t' ⟨hab, hx⟩
  cases hab with
  | ok h => exact .ok ⟨h, hx⟩
  | error he h => exact .error he h

end

theorem value_eq {Q : α → Store → α → Store → Prop} (h : RelatedEval .strict Q E x y s t)
    (hQ : ∀ a s b t, Q a s b t → a = b) : (x s).map (·.1) = (y t).map (·.1) := by
  refine Related.map_eq h ?_
  intro r s' r' t' hr
  cases hr with
  | ok h => exact congrArg Except.ok (hQ _ _ _ _ h)
  | error => rfl

/-- Runs that end the same have the same value or error, in stores of which the same is seen. -/
theorem outcome_eq {x y : Eval α} {view : Store → β} (h : RelatedEval .strict (Same E) E x y s t)
    (hE : ∀ s t, E s t → view s = view t) :
    (x s).map (fun r => (r.1, view r.2)) = (y t).map (fun r => (r.1, view r.2)) := by
  refine Related.map_eq h ?_
  intro r s' r' t' hr
  obtain ⟨rfl, hst, -⟩ := hr.same
  exact congrArg (r, ·) (hE _ _ hst)

theorem ends_same (h : RelatedEval L (Same E) E x y s t)
    (hx : x s = some (r, s')) : ∃ t', y t = some (r, t') ∧ E s' t' := by
  obtain ⟨r', t', hy, hr⟩ := Related.of_some h hx
  obtain ⟨rfl, hst, -⟩ := hr.same
  exact ⟨t', hy, hst⟩

end RelatedEval

/-! ## Runs whose result is known -/

theorem Run.bind_of_some {f : α → Run β} {a : α} (h : x s = some (a, s')) : (x >>= f) s = f a s' := by
  change (x s).bind _ = _
  rw [h]
  rfl

theorem Run.bind_of_none {f : α → Run β} (h : x s = none) : (x >>= f) s = none := by
  change (x s).bind _ = _
  rw [h]
  rfl

theorem Eval.bind_of_ok {f : α → Eval β} {a : α} (h : x s = some (.ok a, s')) : (x >>= f) s = f a s' := by
  change (x s).bind _ = _
  rw [h]
  rfl

theorem Eval.bind_get {f : Store → Eval β} : (get >>= f) s = f s s :=
  rfl

theorem Eval.bind_of_error {f : α → Eval β} (h : x s = some (.error e, s')) : (x >>= f) s = some (.error e, s') := by
  change (x s).bind _ = _
  rw [h]
  rfl

theorem Eval.lift_of_some {x : Run α} (h : x s = some (a, s')) : (liftM x : Eval α) s = some (.ok a, s') := by
  change (x s).bind _ = _
  rw [h]
  rfl

theorem Run.of_bind {f : α → Run β} {r : β × Store}
    (h : (x >>= f) s = some r) : ∃ a s', x s = some (a, s') ∧ f a s' = some r := by
  obtain ⟨⟨a, s'⟩, hx, hf⟩ := Option.bind_eq_some_iff.mp h
  exact ⟨a, s', hx, hf⟩

theorem Eval.of_bind {f : α → Eval β} {b : β} (h : (x >>= f) s = some (.ok b, s')) :
    ∃ a s₁, x s = some (.ok a, s₁) ∧ f a s₁ = some (.ok b, s') := by
  obtain ⟨r, s₁, hx, hf⟩ := Run.of_bind (x := (x : Run (Except Error α))) h
  cases r with
  | ok a => exact ⟨a, s₁, hx, hf⟩
  | error e => cases hf

theorem Eval.of_liftM {r : Except Error α} (h : (liftM r : Eval α) s = some (.ok a, s')) : r = .ok a ∧ s' = s := by
  cases r with
  | ok b =>
    cases h
    exact ⟨rfl, rfl⟩
  | error e => cases h

theorem Eval.of_lift {x : Run α} {s : Store} (h : (liftM x : Eval α) s = some (.ok a, s')) : x s = some (a, s') := by
  obtain ⟨a', s₁, hx, h⟩ := Run.of_bind (f := fun a => (pure (.ok a) : Run (Except Error α))) h
  cases h
  exact hx

/-! ## One depth of a machine -/

section

variable (keeper : Program → Variables)

include keeper

theorem fuel_machineWith (n : Nat) (p : Program) : (machineWith keeper n p).fuel = n - 1 := by
  cases n <;> rfl

theorem vars_machineWith (n : Nat) (p : Program) : (machineWith keeper n p).vars = keeper p := by
  cases n <;> rfl

theorem next_scope (n : Nat) (p' q : Program) (σ : Slots) (c : Cursor) (s : Store) :
    (machineWith keeper n p').next (.scope q σ c) s =
      ((machineWith keeper n q).next c { s with slots := σ }).map fun r =>
        ((.scope q r.2.slots r.1.1, r.1.2), { r.2 with slots := s.slots }) := by
  cases n with
  | zero => rfl
  | succ n =>
    change ((onSlots σ ((machineWith keeper (n + 1) q).next c) s).bind _) = _
    rw [onSlots_apply]
    cases (machineWith keeper (n + 1) q).next c { s with slots := σ } <;> rfl

theorem clone_scope (n : Nat) (p' q : Program) (σ : Slots) (c : Cursor) (s : Store) :
    (machineWith keeper n p').clone (.scope q σ c) s =
      ((machineWith keeper n q).clone c { s with slots := σ }).map fun r =>
        (r.1, { r.2 with slots := s.slots }) := by
  cases n with
  | zero => rfl
  | succ n =>
    change ((onSlots σ ((machineWith keeper (n + 1) q).clone c) s).bind _) = _
    rw [onSlots_apply]
    cases (machineWith keeper (n + 1) q).clone c { s with slots := σ } <;> rfl

theorem next_bare (n : Nat) (p' : Program) (hc : ∀ q σ c₀, c ≠ .scope q σ c₀) :
    (machineWith keeper (n + 1) p').next c = (machineWith keeper n p').pull p' c := by
  cases c with
  | scope q σ c₀ => exact absurd rfl (hc q σ c₀)
  | _ => rfl

theorem clone_bare (n : Nat) (p' : Program) (hc : ∀ q σ c₀, c ≠ .scope q σ c₀) :
    (machineWith keeper (n + 1) p').clone c = (machineWith keeper n p').copy p' c := by
  cases c with
  | scope q σ c₀ => exact absurd rfl (hc q σ c₀)
  | _ => rfl

end

end XPath
