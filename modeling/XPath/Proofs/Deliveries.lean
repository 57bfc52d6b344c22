import XPath.Proofs.Closure
import XPath.Proofs.Forest
import XPath.Proofs.Sifting

/-!
# What a cursor delivers

`Delivers` follows the pulls of one cursor, however deep they go and whatever else is done to the store
in between. From what a cursor delivers it follows what its source has delivered before: a step along an
axis delivers a group for every node of its source (`delivers_along`), a filter delivers a part of its
input (`Delivers.sifted`).
-/

namespace XPath

open List

variable {e : ExprId} {s s' : Store} {d : Cursor} {ins : List Item} {k : Nat} {perGroup : Bool} {w w' : Walk}
  {seen : List Node} {x : Node} {tests : List NodeTest}

/-- What the pulls of a cursor deliver one after the other, and the state it is in afterwards. -/
inductive Delivers (p : Program) (Ok : Item → Prop) (c₀ : Cursor) : List Item → Cursor → Prop
  | start : Delivers p Ok c₀ [] c₀
  | pull {out : List Item} {c c' : Cursor} {s s' : Store} {n : Nat} (h : Delivers p Ok c₀ out c)
      (sound : s.slots.Sound Ok) (run : (machine n p).next c s = some ((c', .ok true), s')) :
      Delivers p Ok c₀ (out ++ c'.current.toList) c'

section

variable {p : Program} {Ok : Item → Prop} {n : Nat}

def Cursor.Intact (p : Program) (Ok : Item → Prop) (c : Cursor) : Prop :=
  Alike (.ofItems p Ok false) noRecord none c c

section

variable (h : Closed p Ok)

include h

theorem Delivers.intact (hc₀ : c₀.Intact p Ok) (hout : Delivers p Ok c₀ out c) : c.Intact p Ok ∧ ∀ i ∈ out, Ok i := by
  induction hout with
  | start => exact ⟨hc₀, nofun⟩
  | pull _ sound run ih =>
    obtain ⟨hc, hout⟩ := ih
    obtain ⟨⟨hc', -⟩, hok⟩ := XPath.Intact.next h ⟨hc, sound⟩ run
    refine ⟨hc', ?_⟩
    intro i hi
    rcases mem_append.mp hi with hi | hi
    · exact hout i hi
    · exact hok i (Option.mem_toList.mp hi)

/-- A predicate leaves sound slots behind. -/
theorem Closed.verdict {size : Option Nat}
    {x : Except Error Selection × Option Selection × Option Nat} (hc : Intact p Ok c s)
    (hrun : (machine n p).verdict q e c fixed size s = some (x, s')) : s'.slots.Sound Ok := by
  cases fixed with
  | some sel =>
    cases hrun
    exact hc.2
  | none =>
    have hsteady := h.onSlots.steady (rfl : n = n)
    have hexec := hsteady.execute (recorded_noRecord _ _) rfl Envs.level_none (rfl : e = e)
      (fun _ => .current hc.1 fun _ _ => Iff.rfl) { s with groupSize := size } { s with groupSize := size }
      ((abreast_self (p := p) hc.2).withSizes rfl)
    have hselect := selection_related (hsteady.next (recorded_noRecord _ _) rfl) (fun _ _ _ _ h => h.2)
      (.inl rfl) hexec
    rw [Calls.verdict_none] at hrun
    obtain ⟨⟨y, t⟩, hy, heq⟩ := Option.map_eq_some_iff.mp hrun
    obtain ⟨z, t', -, hyz⟩ := hselect.run.of_some hy
    cases hyz with
    | ok h =>
      cases heq
      exact h.2.sound
    | error lawful h =>
      cases heq
      exact h.sound

/-! ## Filters -/

/-- The items delivered so far are among those that the input has delivered. -/
def Sifted (p : Program) (Ok : Item → Prop) (c₀ : Cursor) (out : List Item) (c : Cursor) : Prop :=
  c.Intact p Ok ∧ ∃ ins, Delivers p Ok c₀ ins c ∧ out.Sublist ins

theorem sifts_sifted :
    (machine n p).Sifts (fun c s => Sifted p Ok c₀ out c ∧ s.slots.Sound Ok)
      fun c s => Sifted p Ok c₀ (out ++ c.current.toList) c ∧ s.slots.Sound Ok where
  pull := by
    rintro c s c' s' ⟨⟨hc, ins, hins, hsub⟩, hs⟩ hpull
    obtain ⟨⟨hc', hs'⟩, -⟩ := XPath.Intact.next h ⟨hc, hs⟩ hpull
    exact ⟨⟨hc', _, .pull hins hs hpull, hsub.append (.refl _)⟩, hs'⟩
  judge := fun ⟨hsifted, hs⟩ hverdict => ⟨hsifted, h.verdict ⟨hsifted.1, hs⟩ hverdict⟩
  resume := fun ⟨⟨hc, ins, hins, hsub⟩, hs⟩ => ⟨⟨hc, ins, hins, (sublist_append_left ..).trans hsub⟩, hs⟩

theorem Delivers.sifted {w₀ w c₀ : Cursor} (hw : w₀.SiftsFrom c₀) (hc₀ : c₀.Intact p Ok)
    (hout : Delivers p Ok w₀ out w) : ∃ c, w.SiftsFrom c ∧ Sifted p Ok c₀ out c := by
  induction hout with
  | start => exact ⟨c₀, hw, hc₀, [], .start, .slnil⟩
  | @pull out c c' s s' n _ sound run ih =>
    obtain ⟨d, hd, hsifted⟩ := ih
    cases n with
    | zero => cases run
    | succ n =>
      obtain ⟨d', hd', hcurrent, hsifted', -⟩ := hd.next (sifts_sifted h) ⟨hsifted, sound⟩ run
      exact ⟨d', hd', hcurrent ▸ hsifted'⟩

end

/-! ## Steps -/

namespace Walk

theorem Leads.trans (h : w.Leads seen w') (h' : w'.Leads seen' w'') : w.Leads (seen ++ seen') w'' := by
  induction h' with
  | stay => rwa [append_nil]
  | pass _ ih =>
    rw [← append_assoc]
    exact .pass ih

theorem Leads.of_ended (h : ended.Leads seen w) : seen = [] ∧ w = ended := by
  induction h with
  | stay => exact ⟨rfl, rfl⟩
  | pass _ ih => cases ih.2

theorem Leads.cons {n : Node} (h : (after n stride).Leads seen w) : (facing n stride).Leads (n :: seen) w := by
  have hfirst : (facing n stride).Leads [n] (after n stride) := .pass .stay
  exact hfirst.trans h

theorem leads_of_seek {accepts : Node → Bool} : ∀ {fuel : Nat} {w : Walk}, w.seek accepts fuel = some (x, w') →
      ∃ seen, w.Leads (seen ++ [x]) w'
  | 0, _, h | fuel + 1, .ended, h => nomatch h
  | fuel + 1, .facing n stride, h => by
    unfold seek at h
    split at h
    · cases h
      exact ⟨[], .pass .stay⟩
    · obtain ⟨seen, hleads⟩ := leads_of_seek h
      exact ⟨n :: seen, .cons hleads⟩

end Walk

/-- What is left of a descent, as a walk. -/
def DescentWalk.rest : Option DescentWalk → Walk
  | none => .ended
  | some w => .after w.node (.within w.depth)

theorem DescentWalk.leads_of_seek {w' : DescentWalk} : ∀ {fuel : Nat} {w : DescentWalk}, w.seek tests fuel = some w' →
      ∃ seen, (rest (some w)).Leads (seen ++ [w'.node]) (rest (some w'))
  | 0, _, h => nomatch h
  | fuel + 1, w, h => by
    unfold seek at h
    simp only [rest, Walk.after]
    cases hnext : w.node.nextWithin? w.depth with
    | none =>
      rw [hnext] at h
      cases h
    | some r =>
      obtain ⟨m, depth⟩ := r
      rw [hnext] at h
      dsimp only at h
      split at h
      · cases h
        exact ⟨[], .pass .stay⟩
      · obtain ⟨seen, hleads⟩ := leads_of_seek h
        exact ⟨m :: seen, .cons hleads⟩

/-- A step is underway: the source has delivered the origins of the groups so far, and going on with the
walk adds to the last of them. -/
def Underway (p : Program) (Ok : Item → Prop) (axis : Axis) (kind : Option NodeKind) (c₀ : Cursor)
    (out : List Node) (c : Cursor) (walk : Walk) : Prop :=
  c.Intact p Ok ∧ ∃ origins, Delivers p Ok c₀ (origins.map .node) c ∧
    ∀ seen w g, walk.Leads seen w → g.Sublist seen → Groups (Visits axis kind) origins (out ++ g)

namespace Underway

variable {axis : Axis} {kind : Option NodeKind} {c₀ c c' : Cursor} {out : List Node} {walk : Walk}

theorem start (hc₀ : c₀.Intact p Ok) : Underway p Ok axis kind c₀ [] c₀ .ended := by
  refine ⟨hc₀, [], .start, ?_⟩
  intro seen w g hleads hsub
  obtain ⟨rfl, -⟩ := hleads.of_ended
  obtain rfl := sublist_nil.mp hsub
  exact .nil

theorem found (h : Underway p Ok axis kind c₀ out c walk)
    (hleads : walk.Leads (seen ++ [x]) walk') : Underway p Ok axis kind c₀ (out ++ [x]) c walk' := by
  obtain ⟨hc, origins, horigins, hgroups⟩ := h
  refine ⟨hc, origins, horigins, ?_⟩
  intro seen' w g hleads' hsub
  rw [append_assoc]
  refine hgroups _ w _ (hleads.trans hleads') ?_
  exact (sublist_append_right seen [x]).append hsub

theorem turn (hclosed : Closed p Ok) (h : Underway p Ok axis kind c₀ out c walk) {n : Node}
    (hs : s.slots.Sound Ok) (hpull : (machine depth p).next c s = some ((c', .ok true), s'))
    (hn : c'.current = some (.node n)) :
    Underway p Ok axis kind c₀ out c' (.start axis kind n) ∧ s'.slots.Sound Ok := by
  obtain ⟨hc, origins, horigins, hgroups⟩ := h
  obtain ⟨⟨hc', hs'⟩, -⟩ := XPath.Intact.next hclosed ⟨hc, hs⟩ hpull
  refine ⟨⟨hc', origins ++ [n], ?_, ?_⟩, hs'⟩
  · have hout := Delivers.pull horigins hs hpull
    rw [hn] at hout
    rw [map_append]
    exact hout
  · intro seen w g hleads hsub
    have hbefore := hgroups [] walk [] .stay .slnil
    rw [append_nil] at hbefore
    exact .snoc hbefore ⟨seen, w, hleads, hsub⟩

theorem groups (h : Underway p Ok axis kind c₀ out c walk) :
    ∃ origins, Delivers p Ok c₀ (origins.map .node) c ∧ Groups (Visits axis kind) origins out := by
  obtain ⟨-, origins, horigins, hgroups⟩ := h
  refine ⟨origins, horigins, ?_⟩
  have hout := hgroups [] walk [] .stay .slnil
  rwa [append_nil] at hout

end Underway

/-- A cursor that walks from every node of its source delivers a group for each of them. -/
theorem delivers_wander (h : Closed p Ok) {axis : Axis} (ω : Wander)
    (rest : ω.W → Walk) (h₀ : rest ω.stop = .ended) (hstart : ∀ n, rest (ω.start n) = .start axis kind n)
    (hleads : ∀ {w x w'}, ω.step w = some (x, w') → ∃ seen, (rest w).Leads (seen ++ [x]) (rest w'))
    {out : List Item} (hc₀ : c₀.Intact p Ok) (hout : Delivers p Ok (ω.wrap c₀ ω.stop none 0 false) out c) :
    ∃ nodes d w cur pos, out = nodes.map .node ∧ c = ω.wrap d w cur pos false ∧
      Underway p Ok axis kind c₀ nodes d (rest w) := by
  induction hout with
  | start => exact ⟨[], c₀, ω.stop, _, _, rfl, rfl, h₀ ▸ .start hc₀⟩
  | @pull out c c' s s' n _ sound run ih =>
    obtain ⟨nodes, d, w, cur, pos, rfl, rfl, hunder⟩ := ih
    cases n with
    | zero => cases run
    | succ n =>
      rw [machine, ω.machine] at run
      suffices hfinds : ∃ x d' w' pos', c' = ω.wrap d' w' (some x) pos' false ∧
          Underway p Ok axis kind c₀ (nodes ++ [x]) d' (rest w') by
        obtain ⟨x, d', w', pos', rfl, hunder'⟩ := hfinds
        refine ⟨nodes ++ [x], d', w', _, _, ?_, rfl, hunder'⟩
        rw [ω.current, map_append]
        rfl
      have hpulls := ω.induct
        (P := fun d s w _ x _ => Underway p Ok axis kind c₀ nodes d (rest w) → s.slots.Sound Ok → x.2 = .ok true →
          ∃ y d' w' pos', x.1 = ω.wrap d' w' (some y) pos' false ∧
            Underway p Ok axis kind c₀ (nodes ++ [y]) d' (rest w')) ?_ ?_ ?_ ?_ run
      · exact hpulls hunder sound rfl
      · intro d s w pos x w' hw hunder _ _
        obtain ⟨seen, hleads⟩ := hleads hw
        exact ⟨x, d, w', _, rfl, hunder.found hleads⟩
      · intro d s w pos d' s' x _ _ hpull hx ih hunder hs
        obtain ⟨hunder', hs'⟩ := hunder.turn h hs hpull hx
        exact ih (hstart x ▸ hunder') hs'
      · exact nofun
      · exact fun _ hr _ _ hres => absurd hres hr

theorem delivers_along (h : Closed p Ok) (hc₀ : c₀.Intact p Ok) (hout : Delivers p Ok (.along axis test c₀) out c) :
    ∃ nodes d walk cur pos, out = nodes.map .node ∧ c = .axis axis test d walk cur pos false ∧
      Underway p Ok axis (test.kind? axis.principalKind) c₀ nodes d walk :=
  delivers_wander h (.axis axis test) id rfl (fun _ => rfl) Walk.leads_of_seek hc₀ hout

theorem delivers_descending (h : Closed p Ok) {c₀ c : Cursor} (hc₀ : c₀.Intact p Ok)
    (hout : Delivers p Ok (.descending tests c₀) out c) :
    ∃ nodes d walk cur pos, out = nodes.map .node ∧ c = .descent tests d walk cur pos false ∧
      Underway p Ok .descendant none c₀ nodes d (DescentWalk.rest walk) := by
  refine delivers_wander h (.descent tests) _ rfl (fun _ => rfl) ?_ hc₀ hout
  intro walk x walk' hstep
  obtain ⟨w', hnext, ⟨⟩⟩ := Option.map_eq_some_iff.mp hstep
  obtain ⟨w, rfl, hseek⟩ := Option.bind_eq_some_iff.mp hnext
  exact DescentWalk.leads_of_seek hseek

end

end XPath
