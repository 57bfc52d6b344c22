import XPath.Function.Host
import XPath.Proofs.Binding
import XPath.Proofs.Scripts

/-!
# What registered functions are known to do

A property that all entries of a registry have is a property of every function that a call resolves to.
The core functions reply with items of their own; of the functions of a host one hands an argument back,
before anything has been pulled from it.
-/

namespace XPath

open List

variable {e f : FunctionEntry} {es : List FunctionEntry} {name : ExpandedName}

/-! ## Registries -/

namespace Registry

def All (P : ExpandedName → FunctionEntry → Prop) (r : Registry) : Prop :=
  ∀ name es, (name, es) ∈ r.entries → ∀ f ∈ es, P name f

variable {P : ExpandedName → FunctionEntry → Prop} {r : Registry}

theorem All.empty : Registry.empty.All P :=
  nofun

theorem mem_insertEntry (h : f ∈ insertEntry e es) : f = e ∨ f ∈ es := by
  induction es with
  | nil => exact .inl (mem_singleton.mp h)
  | cons d ds ih =>
    unfold insertEntry at h
    split at h
    · exact mem_cons.mp h
    · rcases mem_cons.mp h with rfl | h
      · exact .inr (.head _)
      · exact (ih h).imp (fun h => h) (.tail _)

theorem All.register (h : r.All P) (he : P name e) : (r.register name e).All P := by
  unfold All Registry.register at *
  generalize r.entries = entries at h
  induction entries with
  | nil =>
    intro n es hmem f hf
    obtain ⟨rfl, rfl⟩ := Prod.mk.inj (mem_singleton.mp hmem)
    obtain rfl := mem_singleton.mp hf
    exact he
  | cons entry entries ih =>
    obtain ⟨n₀, es₀⟩ := entry
    have hrest := ih fun n es hmem => h n es (.tail _ hmem)
    intro n es hmem f hf
    unfold registerIn at hmem
    split at hmem
    · next hname =>
      subst hname
      rcases mem_cons.mp hmem with heq | hmem
      · obtain ⟨rfl, rfl⟩ := Prod.mk.inj heq
        rcases mem_insertEntry hf with rfl | hf
        · exact he
        · exact h n es₀ mem_cons_self f hf
      · exact h n es (.tail _ hmem) f hf
    · rcases mem_cons.mp hmem with heq | hmem
      · obtain ⟨rfl, rfl⟩ := Prod.mk.inj heq
        exact h n es mem_cons_self f hf
      · exact hrest n es hmem f hf

theorem mem_of_lookup (h : r.find? name = some es) : (name, es) ∈ r.entries := by
  unfold find? at h
  generalize r.entries = entries at h ⊢
  induction entries with
  | nil => cases h
  | cons entry entries ih =>
    obtain ⟨n, es₀⟩ := entry
    rw [lookup_cons] at h
    split at h
    · rename_i heq
      obtain rfl := eq_of_beq heq
      cases h
      exact .head _
    · exact .tail _ (ih h)

theorem All.resolve {P : FunctionEntry → Prop} (h : r.All fun _ => P) {arity : Nat} {ns : Option String}
    (hf : r.resolve name arity ns = .ok f) : P f := by
  have hfind : ∀ {n es}, r.find? n = some es → es.find? (·.accepts arity) = some f → P f :=
    fun hn he => h _ _ (mem_of_lookup hn) f (mem_of_find?_eq_some he)
  unfold Registry.resolve at hf
  split at hf
  · rename_i e he
    cases hf
    obtain ⟨es, hes, hfound⟩ := Option.bind_eq_some_iff.mp he
    exact hfind hes hfound
  · dsimp only at hf
    split at hf
    · cases hf
    · rename_i candidates hcandidates
      split at hf
      · rename_i e he
        cases hf
        rcases Option.or_eq_some_iff.mp hcandidates with hes | ⟨-, hes⟩
        · exact hfind hes he
        · exact hfind hes he
      · cases hf

end Registry

theorem StaticContext.Callable.of_all {c : StaticContext} {P : FunctionEntry → Prop} (h : c.functions.All fun _ => P)
    (hf : c.Callable f) : P f := by
  obtain ⟨name, arity, hf⟩ := hf
  exact h.resolve hf

/-! ## Functions that leave their arguments in order -/

/-- An argument that the function hands back is handed back as it was given. -/
def FunctionEntry.KeepsReply (f : FunctionEntry) : Prop :=
  ∀ call, (f.body call).KeepsReply []

/-- With a larger bound on its loops the function does the same, where it does not give up. -/
def FunctionEntry.Grows (f : FunctionEntry) : Prop :=
  ∀ settings arity n n', n ≤ n' →
    (f.body ⟨settings, arity, n⟩).Extends True (f.body ⟨settings, arity, n'⟩)

/-- The function ignores the focus unless its entry says otherwise. -/
def FunctionEntry.Honest (f : FunctionEntry) : Prop :=
  f.contextSensitive = false → ∀ call, (f.body call).IgnoresFocus

namespace Script

/-- What is done before the reply does not matter if the reply is always made of items. -/
theorem KeepsReply.bind {α : Type} {f : α → Script Reply} (hf : ∀ a pulled, (f a).KeepsReply pulled)
    (s : Script α) : ∀ pulled, (s >>= f).KeepsReply pulled := by
  induction s with
  | done a => exact hf a
  | raise e | exhausted => exact fun _ => trivial
  | advance i k ih => exact fun pulled r => ih r (i :: pulled)
  | current i k ih => exact fun pulled r => ih r pulled
  | take i limit k ih | drain i k ih => exact fun pulled r => ih r (i :: pulled)
  | fork i k ih => exact fun pulled j => ih j (j :: pulled)
  | contextItem k ih | position k ih | last k ih => exact fun pulled r => ih r pulled

end Script

namespace CoreFunction

/-- The core functions have no loops to bound. -/
theorem table_grows : ∀ entry ∈ table, entry.2.Grows := by
  intro entry hentry settings arity n n' _
  have hsame : entry.2.body ⟨settings, arity, n⟩ = entry.2.body ⟨settings, arity, n'⟩ := by
    simp only [table, mem_cons, not_mem_nil, or_false] at hentry
    rcases hentry with rfl | rfl | rfl | rfl | rfl | rfl | rfl | rfl | rfl | rfl | rfl | rfl | rfl | rfl |
      rfl | rfl | rfl | rfl | rfl | rfl | rfl <;> rfl
  rw [hsame]
  exact .refl True _

theorem registry_all {P : ExpandedName → FunctionEntry → Prop}
    (h : ∀ entry ∈ table, P ⟨some functionNamespace, entry.1⟩ entry.2) : coreFunctions.All P := by
  have hfold : ∀ (entries : List (String × FunctionEntry)) (r : Registry), r.All P →
      (∀ entry ∈ entries, P ⟨some functionNamespace, entry.1⟩ entry.2) →
      (entries.foldl (fun r x => r.register ⟨some functionNamespace, x.1⟩ x.2) r).All P := by
    intro entries
    induction entries with
    | nil => exact fun r hr _ => hr
    | cons entry entries ih =>
      intro r hr hentries
      refine ih _ (hr.register (hentries entry (.head _))) ?_
      exact fun e he => hentries e (.tail _ he)
  exact hfold table .empty .empty h

end CoreFunction

end XPath
