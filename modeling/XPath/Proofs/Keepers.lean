import XPath.Proofs.SteadyForms

/-!
# Steady comparisons on slots and in environments

What `Steady` asks of the variables, for the two ways of keeping them. On slots, both runs read and write
the same slots, so the bindings have to be the same. In environments slots are never written: a loop
extends the environment that it was given and closes its value over the extended one. Two programs with
the same variable names can then be compared whatever slots their bindings name.
-/

namespace XPath

section

variable {C : Terms} {lax : Prop} {sizes : Option Nat → Option Nat → Prop}

/-! ## Slots -/

/-- A comparison of runs that keep variables in the same slots. -/
structure Terms.OnSlots (C : Terms) : Prop where
  unpinned : C.pinned = false
  binds : ∀ b b', C.binds b b' → b = b'

theorem Terms.OnSlots.unbound (h : C.OnSlots) {env : Envs} (henv : env.isSome = C.pinned) : env = none := by
  rw [h.unpinned] at henv
  exact Option.isNone_iff_eq_none.mp (Option.isSome_eq_false_iff.mp henv)

/-- Both sides look up and write the same slots. -/
theorem Terms.OnSlots.kept (h : C.OnSlots) : C.KeptBy lax fun _ => .inSlots where
  lookup := by
    intro env sizes s t name b b' hb henv _ hst
    obtain rfl := hb h.unpinned
    refine .bindSame (fun _ _ => trivial) hst ?_
    intro binding _
    refine .get ?_
    rw [← hst.shared (h.unbound henv)]
    refine .except (fun _ _ => trivial) hst ?_
    intro items hitems
    refine ⟨rfl, ?_, hst⟩
    unfold Binding.get at hitems
    split at hitems
    · next found hfound =>
      cases hitems
      exact hst.sound _ _ hfound
    · cases hitems
  iterate := by
    intro rec env sizes b b' item body f f' run run' s t henv _ hb hitem hf hrun hst
    obtain rfl := h.binds b b' hb
    obtain rfl := h.unbound henv
    have hset : (s.slots.set b.slot [item]).Sound C.Ok :=
      hst.sound.set fun i hi => List.mem_singleton.mp hi ▸ hitem
    refine .modify (hrun henv Envs.level_none hf _ _ ⟨?_, nofun, hset, hst.sizes⟩)
    intro henv
    exact congrArg (fun σ => σ.set b.slot [item]) (hst.shared henv)

/-! ## Environments -/

/-- A comparison of runs that keep variables in environments. -/
structure Terms.Lexical (C : Terms) : Prop where
  pinned : C.pinned = true
  /-- Variables have the same values in environments that stand for each other. -/
  lookup : ∀ name σ τ, C.level σ τ → σ.get? (C.left.cell name) = τ.get? (C.right.cell name)
  extend : ∀ b b' σ τ item, C.binds b b' → C.level σ τ →
    C.level (σ.set (C.left.cell b.name) [item]) (τ.set (C.right.cell b'.name) [item])
  /-- Foci that show the same do so in other environments too. -/
  pairs : ∀ sizes σ τ σ' f f', C.level σ τ → C.pair sizes (some σ) f f' →
    C.pair sizes (some σ') (f.within C.left σ) (f'.within C.right τ)

/-- Within one program the environments are the same. -/
theorem Terms.Lexical.alone {p : Program} {Ok : Item → Prop} {free : ExprId → Prop} {strict : Prop}
    {pair : (Option Nat → Option Nat → Prop) → Option Slots → Focus → Focus → Prop}
    (hpair : ∀ sizes σ σ' f f', pair sizes (some σ) f f' → pair sizes (some σ') (f.within p σ) (f'.within p σ)) :
    (Terms.alone p Ok free true strict pair).Lexical where
  pinned := rfl
  lookup := by
    rintro name σ _ rfl
    rfl
  extend := by
    rintro b _ σ _ item rfl rfl
    rfl
  pairs := by
    rintro sizes σ _ σ' f f' rfl h
    exact hpair sizes σ σ' f f' h

namespace Terms.Lexical

theorem foci (h : C.Lexical) {σ τ σ' τ' : Slots} (hlevel : C.level σ τ) (hσ : σ.Sound C.Ok) {f f' : Focus}
    (hf : Foci C sizes (some (σ, τ)) f f') :
    Foci C sizes (some (σ', τ')) (f.within C.left σ) (f'.within C.right τ) := by
  cases hf with
  | fixed sound => exact .fixed sound
  | current halike same => exact .current (.scopeLeft hσ (.scopeRight halike)) same
  | pair hpair => exact .pair (h.pairs sizes σ τ σ' f f' hlevel hpair)

/-- A loop extends the environment on both sides alike, and its values are closed over the extended one. -/
theorem kept (h : C.Lexical) : C.KeptBy lax Variables.lexical where
  lookup := by
    intro env sizes s t name b b' _ henv hlevel hst
    obtain ⟨⟨σ, τ⟩, rfl⟩ := Option.isSome_iff_exists.mp (henv.trans h.pinned)
    obtain ⟨rfl, rfl⟩ := hst.pinned σ τ rfl
    refine .get ?_
    rw [← h.lookup name _ _ (hlevel _ _ rfl)]
    cases hfound : s.slots.get? (C.left.cell name) with
    | none => exact .throw trivial hst
    | some items => exact .pure ⟨rfl, hst.sound _ _ hfound, hst⟩
  iterate := by
    intro rec env sizes b b' item body f f' run run' s t henv hlevel hb hitem hf hrun hst
    obtain ⟨⟨σ, τ⟩, rfl⟩ := Option.isSome_iff_exists.mp (henv.trans h.pinned)
    obtain ⟨rfl, rfl⟩ := hst.pinned σ τ rfl
    have hlevel := hlevel _ _ rfl
    have hσ : (s.slots.set (C.left.cell b.name) [item]).Sound C.Ok :=
      hst.sound.set fun i hi => List.mem_singleton.mp hi ▸ hitem
    have hextend := h.extend b b' _ _ item hb hlevel
    unfold MakesAlike RelatedEval
    rw [lexical_iterate_apply, lexical_iterate_apply]
    generalize s.slots.set (C.left.cell b.name) [item] = extended at hσ hextend
    generalize t.slots.set (C.right.cell b'.name) [item] = extended' at hextend
    have hin : Abreast C (some (extended, extended')) sizes { s with slots := extended }
        { t with slots := extended' } := (hst.inScopeLeft hσ).inScopeRight
    refine Related.map (@hrun (some (extended, extended')) _ _ henv (Envs.level_some hextend)
      (fun hfree => h.foci hlevel hst.sound (hf hfree)) _ _ hin) ?_
    intro x s' y t' hxy
    cases hxy with
    | ok h => exact .ok ⟨.scopeLeft hσ (.scopeRight h.1), hst.keep rfl rfl h.2.sizes⟩
    | error lawful h => exact .error lawful (hst.keep rfl rfl h.sizes)

end Terms.Lexical

end

end XPath
