import XPath.Eval.Machine

/-!
# Stores that differ in other caches

A cursor reads the caches whose handles it holds, and those that their sources hold. If these are among
the caches `Own` (`Cursor.Within`), then it does not matter what is in the others: two stores that differ
there only are `Framed`.
-/

namespace XPath

open Array

/-- All handles in the cursor are of caches among `Own`. -/
inductive Cursor.Within (Own : Nat → Prop) : Cursor → Prop
  | empty : Within Own .empty
  | items (all rest : List Item) (cur : Option Item) (pos : Nat) (fin : Bool) :
      Within Own (.items all rest cur pos fin)
  | range (first last : Int64) (upcoming cur : Option Int64) (pos : Nat) :
      Within Own (.range first last upcoming cur pos)
  | buffered {cache : Nat} (taken : Nat) (cur : Option Item) (pos : Nat) (fin : Bool) (own : Own cache) :
      Within Own (.buffered cache taken cur pos fin)
  | concat {gone rest : List Cursor} (pos : Nat) (fin : Bool) (spent : ∀ c ∈ gone, Within Own c)
      (left : ∀ c ∈ rest, Within Own c) : Within Own (.concat gone rest pos fin)
  | nodesOnly {c : Cursor} (fin : Bool) (input : Within Own c) : Within Own (.nodesOnly c fin)
  | axis {c : Cursor} (axis : Axis) (test : NodeTest) (walk : Walk) (cur : Option Node) (pos : Nat)
      (fin : Bool) (source : Within Own c) : Within Own (.axis axis test c walk cur pos fin)
  | descent {c : Cursor} (tests : List NodeTest) (walk : Option DescentWalk) (cur : Option Node)
      (pos : Nat) (fin : Bool) (source : Within Own c) : Within Own (.descent tests c walk cur pos fin)
  | nth {c : Cursor} (n : Nat) (perGroup : Bool) (inputPos : Nat) (done : Bool) (pos : Nat) (fin : Bool)
      (input : Within Own c) : Within Own (.nth n perGroup c inputPos done pos fin)
  | predicate {c : Cursor} (e : ExprId) (inputPos : Nat) (fixed : Option Selection) (size : Option Nat)
      (pos : Nat) (fin : Bool) (input : Within Own c) :
      Within Own (.predicate e c inputPos fixed size pos fin)
  | forEach {c : Cursor} {run : BodyRun} (body : ExprId) (b : Binding) (focus : Snapshot) (pos : Nat)
      (fin : Bool) (source : Within Own c) (inner : ∀ i k, run = .running i k → Within Own i) :
      Within Own (.forEach body b focus c run pos fin)
  | step {c : Cursor} {run : BodyRun} (e : ExprId) (pos : Nat) (fin : Bool) (source : Within Own c)
      (inner : ∀ i k, run = .running i k → Within Own i) : Within Own (.step e c run pos fin)
  | unsorted {c : Cursor} (unique : Bool) (cur : Option Item) (pos : Nat) (fin : Bool)
      (input : Within Own c) : Within Own (.ordered unique (.unsorted c) cur pos fin)
  | sorted (unique : Bool) (all rest : List Item) (cur : Option Item) (pos : Nat) (fin : Bool) :
      Within Own (.ordered unique (.sorted all rest) cur pos fin)
  | scope {c : Cursor} (p : Program) (σ : Slots) (inner : Within Own c) : Within Own (.scope p σ c)

/-- Stores with the same slots, group size and own caches. The other caches are `others` on the left and
`others'` on the right. -/
structure Framed (Own : Nat → Prop) (others others' : Array Cache) (s t : Store) : Prop where
  slots : s.slots = t.slots
  groupSize : s.groupSize = t.groupSize
  own : ∀ i, Own i → s.caches[i]? = t.caches[i]?
  within : ∀ i cache c, Own i → s.caches[i]? = some cache → cache.source = some c → c.Within Own
  left : ∀ i, ¬ Own i → s.caches[i]? = others[i]?
  right : ∀ i, ¬ Own i → t.caches[i]? = others'[i]?

section

variable {Own : Nat → Prop} {others others' : Array Cache} {s t s' t' : Store}

namespace Framed

section

variable (h : Framed Own others others' s t)

include h

theorem withSlots (σ : Slots) : Framed Own others others' { s with slots := σ } { t with slots := σ } :=
  ⟨rfl, h.groupSize, h.own, h.within, h.left, h.right⟩

theorem withGroupSize (size : Option Nat) :
    Framed Own others others' { s with groupSize := size } { t with groupSize := size } :=
  ⟨h.slots, rfl, h.own, h.within, h.left, h.right⟩

theorem outOfScope (h' : Framed Own others others' s' t') :
    Framed Own others others' { s' with slots := s.slots } { t' with slots := t.slots } :=
  ⟨h.slots, h'.groupSize, h'.own, h'.within, h'.left, h'.right⟩

theorem outOfGroup (h' : Framed Own others others' s' t') :
    Framed Own others others' { s' with groupSize := s.groupSize }
      { t' with groupSize := t.groupSize } :=
  ⟨h'.slots, h.groupSize, h'.own, h'.within, h'.left, h'.right⟩

theorem set {id : Nat} (hid : Own id) {cache : Cache} (hcache : ∀ c, cache.source = some c → c.Within Own) :
    Framed Own others others' { s with caches := s.caches.setIfInBounds id cache }
      { t with caches := t.caches.setIfInBounds id cache } := by
  have hother : ∀ {caches : Array Cache} {i : Nat}, ¬ Own i →
      (caches.setIfInBounds id cache)[i]? = caches[i]? := by
    intro caches i hi
    refine getElem?_setIfInBounds_ne ?_
    rintro rfl
    exact hi hid
  refine ⟨h.slots, h.groupSize, ?_, ?_, fun i hi => (hother hi).trans (h.left i hi),
    fun i hi => (hother hi).trans (h.right i hi)⟩
  · intro i hi
    have hnone : s.caches[id]? = none ↔ t.caches[id]? = none := by rw [h.own id hid]
    rw [getElem?_eq_none_iff, getElem?_eq_none_iff] at hnone
    have hsize : id < s.caches.size ↔ id < t.caches.size := by omega
    simp only [getElem?_setIfInBounds, h.own i hi, hsize]
  · intro i cache' c hi hc hsource
    rw [getElem?_setIfInBounds] at hc
    split at hc
    · obtain ⟨-, ⟨⟩⟩ := Option.ite_none_right_eq_some.mp hc
      exact hcache c hsource
    · exact h.within i cache' c hi hc hsource

end

/-- Where no cache is read, a store is framed by its own caches, -/
theorem self : Framed (fun _ => False) s.caches s.caches s s :=
  ⟨rfl, rfl, fun _ _ => rfl, fun _ _ _ h => h.elim, fun _ _ => rfl, fun _ _ => rfl⟩

/-- and by no others. -/
theorem eq {caches : Array Cache} (h : Framed (fun _ => False) caches caches s t) : s = t ∧ s.caches = caches := by
  obtain ⟨hslots, hsize, -, -, hleft, hright⟩ := h
  have hs : s.caches = caches := ext_getElem? fun i => hleft i id
  have ht : t.caches = caches := ext_getElem? fun i => hright i id
  cases s
  cases t
  cases hslots
  cases hsize
  cases hs
  cases ht
  exact ⟨rfl, rfl⟩

end Framed

end

end XPath
