import Mathlib.Data.List.MinMax
import Mathlib.Data.Prod.Lex
import XPath.Proofs.Functions

/-!
# Which registration a call resolves to

The entries of a name are kept sorted by rank, and those of one rank in the order in which they came. The first entry
that accepts an arity is therefore the first of least rank among all that do (`find?_insertAll`), and depends on the
order of the registrations only within a rank.
-/

namespace XPath

open List

variable {d e x : FunctionEntry} {es l l' s : List FunctionEntry} {p : FunctionEntry → Bool} {name : ExpandedName}

namespace FunctionEntry

/-- A larger minimum comes first, then a smaller maximum, where to have none is to have the largest. -/
def rank (e : FunctionEntry) : ℕᵒᵈ ×ₗ WithTop ℕ :=
  toLex (OrderDual.toDual e.minArity, e.maxArity)

theorem moreSpecific_iff : e.moreSpecific d ↔ e.rank < d.rank := by
  rw [rank, rank, Prod.Lex.toLex_lt_toLex]
  unfold moreSpecific
  cases e.maxArity <;> cases d.maxArity <;> simp [WithTop.none_eq_top, WithTop.some_eq_coe]

/-- The least entry is the first of its rank. -/
theorem head?_of_argmin (h : l.argmin rank = some e) : (l.filter (·.rank = e.rank)).head? = some e := by
  induction l using reverseRecOn generalizing e with
  | nil => cases h
  | append_singleton l x ih =>
    rw [argmin_concat] at h
    rw [filter_append, head?_append]
    cases hl : l.argmin rank with
    | none =>
      obtain rfl := argmin_eq_none.mp hl
      cases h
      simp
    | some d =>
      rw [hl] at h
      dsimp only at h
      split at h
      · rename_i hx
        cases h
        have hnone : l.filter (·.rank = x.rank) = [] := by
          refine filter_eq_nil_iff.mpr fun a ha heq => ?_
          exact (hx.trans_le (le_of_mem_argmin ha hl)).ne' (of_decide_eq_true heq)
        rw [hnone]
        simp
      · cases h
        rw [ih hl, Option.some_or]

/-- Only the order within a rank matters. -/
theorem argmin_congr (h : ∀ r, l.filter (·.rank = r) = l'.filter (·.rank = r)) : l.argmin rank = l'.argmin rank := by
  have hmem : ∀ a, a ∈ l ↔ a ∈ l' := by
    intro a
    have hrank := congrArg (a ∈ ·) (h a.rank)
    simpa using hrank
  cases hl : l.argmin rank with
  | none =>
    obtain rfl := argmin_eq_none.mp hl
    have hnil : l' = [] := eq_nil_iff_forall_not_mem.mpr fun a ha => not_mem_nil ((hmem a).mpr ha)
    rw [hnil]
    rfl
  | some e =>
    cases hl' : l'.argmin rank with
    | none =>
      obtain rfl := argmin_eq_none.mp hl'
      exact absurd ((hmem e).mp (argmin_mem hl)) not_mem_nil
    | some e' =>
      have hle := le_of_mem_argmin ((hmem e').mpr (argmin_mem hl')) hl
      have hge := le_of_mem_argmin ((hmem e).mp (argmin_mem hl)) hl'
      rw [← head?_of_argmin hl, ← head?_of_argmin hl', h, le_antisymm hle hge]

end FunctionEntry

open FunctionEntry

/-! ## The entries of a name -/

def Ranked (s : List FunctionEntry) : Prop :=
  s.Pairwise (·.rank ≤ ·.rank)

theorem Ranked.insertEntry (h : Ranked s) (x : FunctionEntry) : Ranked (insertEntry x s) := by
  induction s with
  | nil => exact pairwise_singleton _ _
  | cons d ds ih =>
    obtain ⟨hd, hds⟩ := pairwise_cons.mp h
    unfold XPath.insertEntry
    split
    · rename_i hx
      have hx := (moreSpecific_iff.mp hx).le
      exact pairwise_cons.mpr ⟨forall_mem_cons.mpr ⟨hx, fun e he => hx.trans (hd e he)⟩, h⟩
    · rename_i hx
      refine pairwise_cons.mpr ⟨fun e he => ?_, ih hds⟩
      rcases Registry.mem_insertEntry he with rfl | he
      · exact not_lt.mp (mt moreSpecific_iff.mpr hx)
      · exact hd e he

theorem find?_insertEntry (h : Ranked s) (hx : p x) : (insertEntry x s).find? p =
    Option.casesOn (s.find? p) (some x) fun e => if x.rank < e.rank then some x else some e := by
  induction s with
  | nil => simp [insertEntry, hx]
  | cons d ds ih =>
    obtain ⟨hd, hds⟩ := pairwise_cons.mp h
    unfold insertEntry
    split
    · rename_i hxd
      have hxd := moreSpecific_iff.mp hxd
      rw [find?_cons_of_pos hx]
      cases hfind : (d :: ds).find? p with
      | none => rfl
      | some e =>
        have hde : d.rank ≤ e.rank := by
          rcases mem_cons.mp (mem_of_find?_eq_some hfind) with rfl | he
          · exact le_rfl
          · exact hd e he
        exact (if_pos (hxd.trans_le hde)).symm
    · rename_i hxd
      have hxd := mt moreSpecific_iff.mpr hxd
      cases hp : p d with
      | true => simp [hp, hxd]
      | false => simpa [hp] using ih hds

theorem find?_insertEntry_of_neg (hx : p x = false) : (insertEntry x s).find? p = s.find? p := by
  induction s with
  | nil => simp [insertEntry, hx]
  | cons d ds ih =>
    unfold insertEntry
    split
    · simp [hx]
    · rw [find?_cons, find?_cons, ih]

/-- The entries of a name after a sequence of registrations. -/
def insertAll (es : List FunctionEntry) : List FunctionEntry :=
  es.foldl (fun s e => insertEntry e s) []

theorem insertAll_snoc (es : List FunctionEntry) (x : FunctionEntry) :
    insertAll (es ++ [x]) = insertEntry x (insertAll es) :=
  foldl_append

theorem ranked_insertAll (es : List FunctionEntry) : Ranked (insertAll es) := by
  induction es using reverseRecOn with
  | nil => exact List.Pairwise.nil
  | append_singleton es x ih => exact insertAll_snoc es x ▸ ih.insertEntry x

theorem find?_insertAll (es : List FunctionEntry) : (insertAll es).find? p = (es.filter p).argmin rank := by
  induction es using reverseRecOn with
  | nil => rfl
  | append_singleton es x ih =>
    rw [insertAll_snoc, filter_append]
    cases hx : p x with
    | false => simpa [find?_insertEntry_of_neg hx, hx] using ih
    | true =>
      rw [find?_insertEntry (ranked_insertAll es) hx, ih, filter_cons_of_pos hx, filter_nil,
        argmin_concat]

/-! ## Sequences of registrations -/

namespace Registry

variable {calls : List (ExpandedName × FunctionEntry)}

def ofCalls (calls : List (ExpandedName × FunctionEntry)) : Registry :=
  calls.foldl (fun r (n, e) => r.register n e) empty

/-- The entries registered under a name, in the order of the calls. -/
def entriesOf (calls : List (ExpandedName × FunctionEntry)) (name : ExpandedName) : List FunctionEntry :=
  (calls.filter (·.1 = name)).map Prod.snd

def accepting (calls : List (ExpandedName × FunctionEntry)) (arity : Nat) (name : ExpandedName) : List FunctionEntry :=
  (entriesOf calls name).filter (·.accepts arity)

theorem getD_find?_register (r : Registry) (n : ExpandedName) (e : FunctionEntry) :
    ((r.register n e).find? name).getD [] =
      if n = name then insertEntry e ((r.find? name).getD []) else (r.find? name).getD [] := by
  unfold register find?
  generalize r.entries = entries
  induction entries with
  | nil =>
    by_cases h : n = name
    · simp [registerIn, h, insertEntry]
    · simp [registerIn, h, lookup_cons, beq_false_of_ne (Ne.symm h)]
  | cons entry entries ih =>
    obtain ⟨m, es⟩ := entry
    unfold registerIn
    by_cases hm : m = n
    · subst hm
      by_cases h : name = m
      · simp [h]
      · simp [lookup_cons, beq_false_of_ne h, Ne.symm h]
    · rw [if_neg hm, lookup_cons, lookup_cons]
      by_cases h : name = m
      · subst h
        simp [Ne.symm hm]
      · simpa [beq_false_of_ne h] using ih

theorem getD_find?_ofCalls (calls : List (ExpandedName × FunctionEntry)) :
    ((ofCalls calls).find? name).getD [] = insertAll (entriesOf calls name) := by
  induction calls using reverseRecOn with
  | nil => rfl
  | append_singleton calls call ih =>
    have hcalls : ofCalls (calls ++ [call]) = (ofCalls calls).register call.1 call.2 := foldl_append
    rw [hcalls, getD_find?_register, ih]
    by_cases h : call.1 = name
    · simp [entriesOf, h, ← insertAll_snoc]
    · simp [entriesOf, h]

theorem bind_find?_ofCalls (arity : Nat) :
    ((ofCalls calls).find? name).bind (·.find? (·.accepts arity)) = (accepting calls arity name).argmin rank := by
  rw [accepting, ← find?_insertAll, ← getD_find?_ofCalls]
  cases (ofCalls calls).find? name <;> rfl

/-- The name that is tried next: the local part in the default namespace. -/
def fallback (name : ExpandedName) (ns? : Option String) : Option ExpandedName :=
  if name.uri = none then ns?.map (⟨some ·, name.localName⟩) else none

theorem toOption_resolve (r : Registry) (arity : Nat) (ns? : Option String) :
    (r.resolve name arity ns?).toOption = ((r.find? name).bind (·.find? (·.accepts arity))).or
      ((fallback name ns?).bind fun n => (r.find? n).bind (·.find? (·.accepts arity))) := by
  obtain ⟨uri, localName⟩ := name
  unfold resolve
  cases hown : (r.find? ⟨uri, localName⟩).bind (·.find? (·.accepts arity)) with
  | some d => rfl
  | none =>
    -- the own entries, if there are any, have refused
    have hrefused : ∀ es, r.find? ⟨uri, localName⟩ = some es → es.find? (·.accepts arity) = none := by
      intro es hes
      rwa [hes] at hown
    cases uri with
    | some uri => cases hes : r.find? ⟨some uri, localName⟩ <;> simp [hes, hrefused, fallback, Except.toOption]
    | none =>
      cases ns? with
      | none => cases hes : r.find? ⟨none, localName⟩ <;> simp [hes, hrefused, fallback, Except.toOption]
      | some ns =>
        cases hns : r.find? ⟨some ns, localName⟩ with
        | none => cases hes : r.find? ⟨none, localName⟩ <;> simp [hns, hes, hrefused, fallback, Except.toOption]
        | some es => cases h : es.find? (·.accepts arity) <;> simp [hns, h, fallback, Except.toOption]

/-- A call resolves iff some registration under its name, or else under its local part in the default namespace,
accepts the arity. It resolves to the first of least rank among these, of the name itself if there are any; and
registrations of different ranks may come in any order. -/
theorem resolve_argmin (calls : List (ExpandedName × FunctionEntry)) (name : ExpandedName) (arity : Nat)
    (ns? : Option String) :
    ((∃ e, (ofCalls calls).resolve name arity ns? = .ok e) ↔
      accepting calls arity name ≠ [] ∨ ∃ n ∈ fallback name ns?, accepting calls arity n ≠ []) ∧
    ((ofCalls calls).resolve name arity ns?).toOption = ((accepting calls arity name).argmin rank).or
      ((fallback name ns?).bind fun n => (accepting calls arity n).argmin rank) ∧
    ∀ calls', (∀ n r, (entriesOf calls n).filter (·.rank = r) = (entriesOf calls' n).filter (·.rank = r)) →
      ((ofCalls calls).resolve name arity ns?).toOption = ((ofCalls calls').resolve name arity ns?).toOption := by
  have hresolve : ∀ calls, ((ofCalls calls).resolve name arity ns?).toOption =
      ((accepting calls arity name).argmin rank).or
        ((fallback name ns?).bind fun n => (accepting calls arity n).argmin rank) := by
    intro calls
    simp only [toOption_resolve, bind_find?_ofCalls]
  refine ⟨?_, hresolve calls, ?_⟩
  · have hok : (∃ e, (ofCalls calls).resolve name arity ns? = .ok e) ↔
        ((ofCalls calls).resolve name arity ns?).toOption ≠ none := by
      cases (ofCalls calls).resolve name arity ns? <;> simp [Except.toOption]
    rw [hok, hresolve, Ne, Option.or_eq_none_iff, not_and_or]
    simp [argmin_eq_none]
  · intro calls' h
    have hargmin : ∀ n, (accepting calls arity n).argmin rank = (accepting calls' arity n).argmin rank := by
      refine fun n => argmin_congr fun r => ?_
      rw [accepting, accepting, filter_comm, h n r, filter_comm]
    simp only [hresolve, hargmin]

/-- An open range that comes first is passed over for a closed one. -/
theorem resolve_argmin_openRange :
    ((ofCalls [(.unqualified "f", ⟨1, none, false, .any, fun _ => .exhausted⟩),
      (.unqualified "f", ⟨1, some 2, false, .number, fun _ => .exhausted⟩)]).resolve (.unqualified "f") 2
        none).toOption = some ⟨1, some 2, false, .number, fun _ => .exhausted⟩ := by
  refine ((resolve_argmin [(.unqualified "f", ⟨1, some 2, false, .number, fun _ => .exhausted⟩),
    (.unqualified "f", ⟨1, none, false, .any, fun _ => .exhausted⟩)] (.unqualified "f") 2 none).2.2 _ ?_).symm
  intro n r
  by_cases hn : ExpandedName.unqualified "f" = n
  · simp only [entriesOf, hn, decide_true, filter_cons_of_pos, filter_nil, map_cons, map_nil,
      filter_cons, decide_eq_true_eq]
    split_ifs with hopen hclosed
    · cases hopen.trans hclosed.symm
    all_goals rfl
  · simp [entriesOf, hn]

end Registry

end XPath
