import XPath.Proofs.BuiltCursors
import XPath.Proofs.Chains

/-!
# Draining a cursor

Draining reads a cursor to its end. A computed cursor can be drained on slots, at some depth, just if it gives
groups in an environment that agrees with the slots, and the result is all their items
(`Cursor.Primed.drains_iff`).
-/

namespace XPath

open List

variable {keeper : Program → Variables} {p : Program} {σ : Slots} {n : Nat} {c c' : Cursor} {s s' : Store}
  {items : List Item} {out : List (Item × Nat)} {r : Except Error Unit} {res : Except Error (List Item)}
  {M : Calls}

theorem Calls.Reads.drainFrom (hreads : M.Reads c s out r) : ∀ {fuel : Nat} (acc : List Item), out.length < fuel →
      ∃ c' s', M.drainFrom fuel c acc s =
        some ((c', r.map fun _ => acc.reverse ++ out.map Prod.fst), s') := by
  unfold Calls.Reads at hreads
  generalize hx : M.next c s = x at hreads
  induction hreads generalizing c s with
  | @ended c' s' =>
    intro fuel acc hfuel
    obtain ⟨fuel, rfl⟩ := exists_succ_of_lt hfuel
    refine ⟨c', s', ?_⟩
    rw [map_nil, append_nil, Calls.drainFrom, Run.bind_of_some hx]
    rfl
  | @failed c' s' err =>
    intro fuel acc hfuel
    obtain ⟨fuel, rfl⟩ := exists_succ_of_lt hfuel
    refine ⟨c', s', ?_⟩
    rw [Calls.drainFrom, Run.bind_of_some hx]
    rfl
  | @item c₁ s₁ i out r hcurrent rest ih =>
    intro fuel acc hfuel
    obtain ⟨fuel, rfl⟩ := exists_succ_of_lt hfuel
    obtain ⟨c', s', hrest⟩ := ih rfl (i :: acc) (Nat.lt_of_succ_lt_succ hfuel)
    refine ⟨c', s', ?_⟩
    rw [Calls.drainFrom, Run.bind_of_some hx]
    dsimp only
    rw [hcurrent, Option.toList_some, singleton_append, hrest, reverse_cons, append_assoc]
    rfl

theorem Calls.Reads.drain (hreads : M.Reads c s out r) (hfuel : out.length < M.fuel) :
    ∃ s', M.drain c s = some (r.map fun _ => out.map Prod.fst, s') := by
  obtain ⟨c', s', h⟩ := hreads.drainFrom [] hfuel
  refine ⟨s', ?_⟩
  rw [Calls.drain, Calls.drainWith, Eval.bind_of_ok (Eval.lift_of_some h)]
  cases r <;> rfl

/-- A cursor that is computed on slots, in an environment that agrees with them, gives what it is drained
to. -/
theorem Cursor.Primed.drains_iff {scope : List Binding} {env : Slots}
    (h : c.Primed p Fit scope lo hi) (hp : p.Pure) (hFit : ∀ f, Fit f → f.KeepsReply)
    (hbelow : ScopeBelow p scope lo) (hagrees : Agrees p scope s.slots env) :
    (∃ n s', (machine n p).drain c s = some (.ok items, s')) ↔
      ∃ groups, c.Gives p env groups ∧ items = groups.flatten := by
  have hready : c.Ready p env := h.ready
  constructor
  · rintro ⟨n, s', hdrain⟩
    obtain ⟨out, hreads, rfl⟩ := Calls.reads_of_drain_ok hdrain
    have hlexical := (h.reads_iff (t := .ofSlots env) hFit hbelow hagrees rfl).mp hreads
    obtain ⟨groups, hgives, rfl⟩ := hready.gives ⟨n, .ofSlots env, rfl, hlexical⟩
    exact ⟨groups, hgives, map_fst_inGroups groups⟩
  · rintro ⟨groups, hgives, rfl⟩
    obtain ⟨N, hreads⟩ := hgives.yields.exists_depth hp hready.self
    have hN := hreads (max N ((inGroups groups).length + 1) + 1) (by omega) (.ofSlots env) rfl
    have hslots := (h.reads_iff hFit hbelow hagrees rfl).mpr hN
    obtain ⟨s', hdrain⟩ := hslots.drain (show _ < max N ((inGroups groups).length + 1) by omega)
    rw [map_fst_inGroups] at hdrain
    exact ⟨_, s', hdrain⟩

section

variable {Fit : FunctionEntry → Prop} {scope : List Binding} {lo hi m : Nat} {ins : List (Item × Nat)}
  {r' : Except Error Unit} (h : c.Primed p Fit scope lo hi) (hp : p.Pure) (hFit : ∀ f, Fit f → f.KeepsReply)
  (hscope : ScopeFor p scope lo)

include h hp hFit hscope

section

variable (hreads : (machine n p).Reads c s out r)

include hreads

/-- On given slots a computed cursor is read alike from some depth on. -/
theorem Cursor.Primed.reads_deeper : ∃ N, ∀ m ≥ N, (machine m p).Reads c s out r := by
  obtain ⟨env, hagrees⟩ := hscope.exists_agrees s.slots
  have hlexical := (h.reads_iff (t := .ofSlots env) hFit hscope.below hagrees rfl).mp hreads
  have hyields : c.Yields p env out r := ⟨n, .ofSlots env, rfl, hlexical⟩
  obtain ⟨N, hN⟩ := hyields.exists_depth hp ⟨0, h.standsFor 0 env⟩
  exact ⟨N, fun m hm => (h.reads_iff hFit hscope.below hagrees rfl).mpr (hN m hm (.ofSlots env) rfl)⟩

theorem Cursor.Primed.reads_unique (hreads' : (machine m p).Reads c s ins r') : out = ins ∧ r = r' := by
  obtain ⟨N, hN⟩ := h.reads_deeper hp hFit hscope hreads
  obtain ⟨N', hN'⟩ := h.reads_deeper hp hFit hscope hreads'
  exact (hN (max N N') (by omega)).unique (hN' (max N N') (by omega))

/-- What a computed cursor is drained to, at any depth that is enough. -/
theorem Cursor.Primed.drains_iff_of_reads :
    (∃ m s', (machine m p).drain c s = some (res, s')) ↔ res = r.map fun _ => out.map Prod.fst := by
  constructor
  · rintro ⟨m, s', hdrain⟩
    obtain ⟨out', r', hreads', rfl⟩ := Calls.reads_of_drain hdrain
    obtain ⟨rfl, rfl⟩ := h.reads_unique hp hFit hscope hreads hreads'
    rfl
  · rintro rfl
    obtain ⟨N, hN⟩ := h.reads_deeper hp hFit hscope hreads
    have hfuel : out.length < (machine (max N (out.length + 1) + 1) p).fuel := by
      change out.length < max N (out.length + 1)
      omega
    exact ⟨_, (hN (max N (out.length + 1) + 1) (by omega)).drain hfuel⟩

end

end

/-- No item stands at a position beyond the number of all items. -/
theorem Cursor.Primed.position_le_of_drain {scope : List Binding}
    {env : Slots} (h : c.Primed p Fit scope lo hi) (hp : p.Pure) (hFit : ∀ f, Fit f → f.KeepsReply)
    (hbelow : ScopeBelow p scope lo) (hagrees : Agrees p scope s.slots env)
    (hdrain : (machine n p).drain c s = some (.ok items, s')) (hreads : (machine m p).Reads c s out (.ok ())) :
    ∀ x ∈ out, x.2 ≤ items.length := by
  have hready : c.Ready p env := h.ready
  obtain ⟨groups, hgives, rfl⟩ := (h.drains_iff hp hFit hbelow hagrees).mp ⟨n, s', hdrain⟩
  have hyields : c.Yields p env out (.ok ()) :=
    ⟨m, .ofSlots env, rfl, (h.reads_iff hFit hbelow hagrees rfl).mp hreads⟩
  obtain ⟨rfl, -⟩ := hyields.unique hp hready.self hgives.yields
  intro x hx
  obtain ⟨g, hg, hx⟩ := mem_flatMap.mp hx
  have hlt := (mem_zipIdx_iff_le_and_getElem?_sub.mp hx)
  have hlength := (sublist_flatten_of_mem hg).length_le
  have hbound := (List.getElem?_eq_some_iff.mp hlt.2).1
  omega

/-! ## Chains from given items -/

theorem reading_items (hM : ∀ {all rest cur pos fin s}, M.next (.items all rest cur pos fin) s =
      match rest with
      | i :: rest => some ((.items all rest (some i) (pos + 1) false, .ok true), s)
      | [] => some ((.items all [] none pos true, .ok false), s)) {all : List Item} :
    ∀ {rest : List Item} {cur : Option Item} {pos : Nat} {fin : Bool} {s : Store},
      M.Reads (.items all rest cur pos fin) s (rest.zipIdx (pos + 1)) (.ok ())
  | [], cur, pos, fin, s => by
    unfold Calls.Reads
    rw [hM]
    exact .ended
  | i :: rest, cur, pos, fin, s => by
    unfold Calls.Reads
    rw [hM]
    exact .item rfl (reading_items hM)

theorem ready_ofItems : (Cursor.ofItems items).Ready p σ :=
  ⟨⟨0, .leaf (.items fun _ _ => trivial)⟩, nofun, rfl⟩

theorem gives_ofItems {items : List Item} : (Cursor.ofItems items).Gives p σ (present [items]) := by
  refine ⟨ne_nil_of_mem_present, 2, .ofSlots σ, rfl, ?_⟩
  rw [inGroups_present, inGroups_cons, inGroups_nil, append_nil]
  refine reading_items ?_
  intro all rest cur pos fin s
  cases rest <;> rfl

theorem Cursor.Gives.unique (hp : p.Pure) (hc : c.Ready p σ) (hA : c.Gives p σ A) (hB : c.Gives p σ B) : A = B :=
  inGroups_inj hA.present hB.present (hA.yields.unique hp hc.self hB.yields).1

section

variable {Fit : FunctionEntry → Prop} {scope : List Binding} {lo hi k : Nat} {env : Slots} {t : Store}
  {steps : List Step} {start : List Item} {outs : List (List Item)}

theorem primed_chain (hplaced : Apart (PlacedAt p Fit k scope) lo hi (steps.filterMap Step.expr?)) :
    (Calls.chain true (.ofItems start) steps).Primed p Fit scope lo hi :=
  Cursor.Primed.chain .refl hplaced nofun (.ofItems start)

theorem gives_chain_ofItems_iff (hp : p.Pure) (hr : p.Reliable) :
    (Calls.chain true (.ofItems start) steps).Gives p env outs ↔ TurnAll p env steps (present [start]) outs := by
  rw [gives_chain_iff hp hr ready_ofItems]
  constructor
  · rintro ⟨ins, hins, h⟩
    exact hins.unique hp ready_ofItems gives_ofItems ▸ h
  · exact fun h => ⟨_, gives_ofItems, h⟩

/-- A chain from given items is drained to what its steps make of them as one group. -/
theorem drains_chain_iff (start items : List Item) (hp : p.Pure) (hr : p.Reliable) (hFit : ∀ f, Fit f → f.KeepsReply)
    (hbelow : ScopeBelow p scope lo) (hagrees : Agrees p scope t.slots env)
    (hplaced : Apart (PlacedAt p Fit k scope) lo hi (steps.filterMap Step.expr?)) :
    (∃ m t', (machine m p).drain (Calls.chain true (.ofItems start) steps) t = some (.ok items, t')) ↔
      ∃ outs, TurnAll p env steps (present [start]) outs ∧ items = outs.flatten := by
  rw [(primed_chain hplaced).drains_iff hp hFit hbelow hagrees]
  simp only [gives_chain_ofItems_iff hp hr]

/-- What the steps make of a group is read from their chain. -/
theorem TurnAll.exists_reads (hp : p.Pure) (hr : p.Reliable) (hFit : ∀ f, Fit f → f.KeepsReply)
    (hbelow : ScopeBelow p scope lo) (hagrees : Agrees p scope t.slots env)
    (hplaced : Apart (PlacedAt p Fit k scope) lo hi (steps.filterMap Step.expr?))
    (h : TurnAll p env steps (present [start]) outs) : (∀ g ∈ outs, g ≠ []) ∧
      ∃ m, (machine m p).Reads (Calls.chain true (.ofItems start) steps) t (inGroups outs) (.ok ()) := by
  have hgives := (gives_chain_ofItems_iff hp hr).mpr h
  obtain ⟨m, s, hs, hreads⟩ := hgives.yields
  exact ⟨hgives.present, m, ((primed_chain hplaced).reads_iff hFit hbelow hagrees hs).mpr hreads⟩

end

end XPath
