import XPath.Proofs.Pulling

/-!
# Executing related expressions

What the forms of expressions do with their parts, on two machines side by side. `J` relates cursors that
are being pulled. `F` relates cursors as they are when an expression has just been executed: nothing has
been pulled from them, so they stay related whatever happens to the stores, as long as the stores are
related by `E`. Both may depend on the expression, and so does what is known of its items (`Ok`). The items that a
form delivers are made of those of its parts (`Form.Gives`).
-/

namespace XPath

open List

variable {α β : Type} {L : Law} {E : Store → Store → Prop} {m m' : Calls} {focus focus' : Focus}
  {s t : Store} {what : String} {c d : Cursor} {e e' : ExprId} {children children' : List ExprId}
  {i count : Nat} {op : CompOp} {form : Form} {x y : Cache} {items : List Item}

inductive Plain (Ok : Item → Prop) : Cursor → Prop
  | empty : Plain Ok .empty
  | items {items : List Item} (h : ∀ i ∈ items, Ok i) : Plain Ok (.ofItems items)
  | range (ok : ∀ i : Int64, Ok (.atomic (.integer i))) (first last : Int64) : Plain Ok (.ofRange first last)

theorem Plain.mono (h : Plain Ok c) (hok : ∀ i, Ok i → Ok' i) : Plain Ok' c := by
  cases h with
  | empty => exact .empty
  | items h => exact .items fun i hi => hok i (h i hi)
  | range ok first last => exact .range (fun i => hok _ (ok i)) first last

theorem Plain.item {i : Item} (h : Ok i) : Plain Ok (.ofItem i) :=
  .items (forall_mem_singleton.mpr h)

/-- What expressions deliver is read alike on two machines. -/
structure Tandem (L : Law) (Ok : ExprId → Item → Prop) (F : ExprId → Cursor → Cursor → Prop)
    (J : ExprId → CursorRel) (E : Store → Store → Prop) (m m' : Calls) : Prop where
  fuel : FuelLe L.lax m.fuel m'.fuel
  pulls : ∀ e, KeepsUp L (Ok e) (J e) m m'
  stores : ∀ {e} c s d t, J e c s d t → E s t
  fresh : ∀ {e} {c d : Cursor} {s t : Store}, F e c d → E s t → J e c s d t

/-- Cursors as they are before the first pull, in related stores. -/
def Made (F : α → β → Prop) (E : Store → Store → Prop) (a : α) (s : Store) (b : β) (t : Store) : Prop :=
  F a b ∧ E s t

def Executes (L : Law) (F : Cursor → Cursor → Prop) (E : Store → Store → Prop) (m m' : Calls)
    (focus focus' : Focus) (e e' : ExprId) : Prop :=
  ∀ s t, E s t → RelatedEval L (Made F E) E (m.execute e focus) (m'.execute e' focus') s t

/-! ## Lists side by side -/

def Matched (R : Nat → α → β → Prop) (as : List α) (bs : List β) : Prop :=
  as.length = bs.length ∧ ∀ i a b, as[i]? = some a → bs[i]? = some b → R i a b

namespace Matched

variable {R : Nat → α → β → Prop} {a : α} {b : β} {as : List α} {bs : List β}

theorem nil : Matched R [] [] :=
  ⟨rfl, nofun⟩

theorem cons (h : R 0 a b) (hs : Matched (fun i => R (i + 1)) as bs) : Matched R (a :: as) (b :: bs) := by
  refine ⟨congrArg (· + 1) hs.1, ?_⟩
  intro i x y hx hy
  cases i with
  | zero =>
    cases hx
    cases hy
    exact h
  | succ i => exact hs.2 i x y hx hy

theorem head (h : Matched R (a :: as) (b :: bs)) : R 0 a b :=
  h.2 0 a b rfl rfl

theorem tail (h : Matched R (a :: as) (b :: bs)) : Matched (fun i => R (i + 1)) as bs :=
  ⟨Nat.succ.inj h.1, fun i x y hx hy => h.2 (i + 1) x y hx hy⟩

theorem refl {R : Nat → α → α → Prop} (h : ∀ i a, as[i]? = some a → R i a a) : Matched R as as := by
  refine ⟨rfl, ?_⟩
  intro i a b ha hb
  cases ha.symm.trans hb
  exact h i a ha

theorem eq {Q : α → Prop} : ∀ {ds : List α}, Matched (fun _ c d => c = d ∧ Q c) cs ds → cs = ds ∧ ∀ c ∈ cs, Q c := by
  induction cs with
  | nil => exact fun h => ⟨(eq_nil_of_length_eq_zero h.1.symm).symm, nofun⟩
  | cons c cs ih =>
    intro ds h
    obtain ⟨d, ds, rfl⟩ : ∃ d ds₀, ds = d :: ds₀ := exists_cons_of_length_eq_add_one h.1.symm
    obtain ⟨rfl, hc⟩ := h.head
    obtain ⟨rfl, hcs⟩ := ih h.tail
    exact ⟨rfl, forall_mem_cons.mpr ⟨hc, hcs⟩⟩

end Matched

/-- The parts of expressions, executed one by one, of which so many are needed. -/
structure Operands (L : Law) (F : ExprId → Cursor → Cursor → Prop) (E : Store → Store → Prop) (m m' : Calls)
    (focus focus' : Focus) (count : Nat) (children children' : List ExprId) : Prop where
  matched : Matched (fun _ e e' => Executes L (F e) E m m' focus focus' e e') children children'
  missing : ∀ i, i < count → children[i]? = none → L.Err (unbound "operand")

theorem childAt_related (h : children.length = children'.length)
    (hmissing : children[i]? = none → L.Err (unbound "operand")) (hE : E s t) :
    RelatedEval L (fun e s e' t => children[i]? = some e ∧ children'[i]? = some e' ∧ E s t) E
      (liftM (Calls.childAt children i)) (liftM (Calls.childAt children' i)) s t := by
  unfold Calls.childAt
  by_cases hi : i < children.length
  · rw [getElem?_eq_getElem hi, getElem?_eq_getElem (h ▸ hi)]
    exact .pure ⟨rfl, rfl, hE⟩
  · have hnone : children[i]? = none := getElem?_eq_none (by omega)
    rw [hnone, getElem?_eq_none (by omega)]
    exact .throw (hmissing hnone) hE

def BoundAlike (B : α → β → Prop) : Option α → Option β → Prop
  | some a, some b => B a b
  | none, none => True
  | _, _ => False

theorem BoundAlike.refl (h : ∀ a, B a a) : ∀ o : Option α, BoundAlike B o o
  | some a => h a
  | none => trivial

theorem bound_related (h : BoundAlike B o o') (hnone : o = none → L.Err (unbound what)) (hE : E s t) :
    RelatedEval L (fun a s b t => (o = some a ∧ o' = some b ∧ B a b) ∧ E s t) E
      (liftM (Calls.bound what o)) (liftM (Calls.bound what o')) s t := by
  match o, o' with
  | some a, some b => exact .pure ⟨⟨rfl, rfl, h⟩, hE⟩
  | none, none => exact .throw (hnone rfl) hE

structure SameFocus (L : Law) (Ok : Item → Prop) (E : Store → Store → Prop) (m m' : Calls)
    (focus focus' : Focus) : Prop where
  item : focus.item? = focus'.item?
  position : focus.position = focus'.position
  sound : ∀ i, focus.item? = some i → Ok i
  last : ∀ s t, E s t → RelatedEval L (Same E) E (m.last focus) (m'.last focus') s t

namespace SameFocus

variable {Ok : Item → Prop} (hfocus : SameFocus L Ok E m m' focus focus')

include hfocus

theorem requireItem (hE : E s t) :
    RelatedEval L (Sure (focus.item? = some ·) E) E (liftM focus.requireItem) (liftM focus'.requireItem) s t := by
  have hitem : focus'.requireItem = focus.requireItem := by
    unfold Focus.requireItem
    rw [hfocus.item]
  rw [hitem]
  refine .except (L.allows focus.requireItem_dynamic) hE fun i hi => ⟨⟨rfl, ?_⟩, hE⟩
  unfold Focus.requireItem at hi
  split at hi <;> cases hi
  assumption

theorem root (hE : E s t) : RelatedEval L (Sure (fun n => ∃ k, focus.item? = some (.node k) ∧ n = k.root) E) E
      (liftM focus.root) (liftM focus'.root) s t := by
  have hroot : focus'.root = focus.root := by
    unfold Focus.root
    rw [hfocus.item]
  rw [hroot]
  refine .except (L.allows focus.root_dynamic) hE fun n hn => ⟨⟨rfl, ?_⟩, hE⟩
  unfold Focus.root at hn
  split at hn <;> cases hn
  exact ⟨_, ‹_›, rfl⟩

end SameFocus

/-! ## What forms deliver -/

def Step.Gives (Value : ExprId → Item → Prop) (V : Item → Prop) : Step → Item → Prop
  | .axis _ _ | .descent _ => fun i => ∃ n, i = .node n
  | .position _ | .predicate _ => V
  | .expr e _ => Value e

namespace Form

/-- The items that a form makes of the item of its focus and of what its parts deliver. Those of a variable and of a
call come from elsewhere. -/
def Gives (Value : ExprId → Item → Prop) (item : Option Item) (children : List ExprId) (i : Item) : Form → Prop
  | .literal a => i = .atomic a
  | .contextItem => item = some i
  | .root => ∃ n, item = some (.node n) ∧ i = .node n.root
  | .union => ∃ n, i = .node n ∧ ∃ e ∈ children, Value e i
  | .variable _ _ | .call _ _ => False
  | .path plan => plan.steps.foldl (Step.Gives Value) (fun _ => True) i
  | .filter steps => ∃ e, children[0]? = some e ∧ steps.foldl (Step.Gives Value) (Value e) i
  | .arithmetic op => ∃ l r x y a b v, children[0]? = some l ∧ children[1]? = some r ∧ (Value l x ∧ Value r y) ∧
      numericOperand x.typedValue = .ok a ∧ numericOperand y.typedValue = .ok b ∧
      XPath.arithmetic op a b = .ok v ∧ i = .atomic v
  | .negate => ∃ e x a v, children[0]? = some e ∧ Value e x ∧ numericOperand x.typedValue = .ok a ∧
      XPath.negate a = .ok v ∧ i = .atomic v
  | .and | .or | .compare _ _ | .quantified _ _ _ => ∃ b, i = .ofBool b
  | .range => ∃ k, i = .atomic (.integer k)
  | .ifThenElse => ∃ e, (children[1]? = some e ∨ children[2]? = some e) ∧ Value e i
  | .sequence => ∃ e ∈ children, Value e i
  | .forEach _ _ => ∃ e, children[1]? = some e ∧ Value e i

/-- A form whose children run one after the other in its own focus, without variables and functions. -/
def isDirect : Form → Bool
  | .variable .. | .call .. | .path _ | .filter _ | .forEach .. | .quantified .. | .sequence => false
  | _ => true

def arity : Form → Nat
  | .arithmetic _ | .and | .or | .compare _ _ | .range | .forEach _ _ | .quantified _ _ _ => 2
  | .negate | .filter _ => 1
  | .ifThenElse => 3
  | _ => 0

/-- What direct forms make of sound items is sound. -/
theorem sound_of_gives (hatomics : ∀ a, Ok (.atomic a)) (hdoc : DocWise Ok)
    (hitem : form = .contextItem ∨ form = .root → ∀ i, item = some i → Ok i)
    (hdirect : form.isDirect = true) {i : Item} (h : form.Gives (fun _ => Ok) item children i) : Ok i := by
  cases form with
  | literal a => exact h ▸ hatomics a
  | contextItem => exact hitem (.inl rfl) i h
  | root =>
    obtain ⟨n, hn, rfl⟩ := h
    exact hdoc n _ (Node.root_doc n).symm (hitem (.inr rfl) _ hn)
  | union =>
    obtain ⟨_, -, _, -, h⟩ := h
    exact h
  | arithmetic op =>
    obtain ⟨_, _, _, _, _, _, _, -, -, -, -, -, -, rfl⟩ := h
    exact hatomics _
  | negate =>
    obtain ⟨_, _, _, _, -, -, -, -, rfl⟩ := h
    exact hatomics _
  | and | or | compare c op | range =>
    obtain ⟨_, rfl⟩ := h
    exact hatomics _
  | ifThenElse =>
    obtain ⟨_, -, h⟩ := h
    exact h
  | _ => cases hdirect

end Form

theorem Except.of_mapError {f : Error → Error} {r : Except Error α} (h : r.mapError f = .ok a) : r = .ok a := by
  cases r with
  | ok b => exact h
  | error e => cases h

namespace Tandem

variable {Ok : ExprId → Item → Prop} {F : ExprId → Cursor → Cursor → Prop} {J : ExprId → CursorRel}
  {R : Cursor → Cursor → Prop} (h : Tandem L Ok F J E m m')

include h

/-! ## Reading values -/

theorem firstTwo (hF : F e c d) (hE : E s t) :
    RelatedEval L (Sure (∀ i ∈ ·, Ok e i) E) E (m.firstTwo c) (m'.firstTwo d) s t :=
  firstTwo_related (h.pulls e) h.stores h.fuel (h.fresh hF hE)

theorem drain (hF : F e c d) (hE : E s t) : RelatedEval L (Sure (∀ i ∈ ·, Ok e i) E) E (m.drain c) (m'.drain d) s t :=
  drain_related (h.pulls e) h.stores h.fuel (h.fresh hF hE)

section

variable (hc : Operands L F E m m' focus focus' count children children') (hi : i < count) (hE : E s t)

include hc hi hE

/-- An operand is the value of an item that its expression delivers. -/
theorem withOperand {R : α → Store → β → Store → Prop} {f : Option AtomicValue → Eval α}
    {g : Option AtomicValue → Eval β}
    (k : ∀ v s t, (∀ a, v = some a → ∃ e x, children[i]? = some e ∧ Ok e x ∧ x.typedValue = a) → E s t →
      RelatedEval L R E (f v) (g v) s t) :
    RelatedEval L R E (do f (← m.operand focus what (← Calls.childAt children i)))
      (do g (← m'.operand focus' what (← Calls.childAt children' i))) s t := by
  refine .bind (childAt_related hc.matched.1 (hc.missing i hi) hE) ?_
  rintro e s e' t ⟨he, he', hE⟩
  have hvalue : RelatedEval L (Sure (fun v => ∀ a, v = some a → ∃ x, Ok e x ∧ x.typedValue = a) E) E
      (m.operand focus what e) (m'.operand focus' what e') s t := by
    refine .bind (hc.matched.2 i e e' he he' s t hE) ?_
    rintro c s d t ⟨hF, hE⟩
    refine .bind (h.firstTwo hF hE) ?_
    rintro items s _ t ⟨⟨rfl, hok⟩, hE⟩
    refine .except (L.allows (atomizeOptional_dynamic what items)) hE fun v hv => ⟨⟨rfl, ?_⟩, hE⟩
    rintro a rfl
    match items with
    | [] => cases hv
    | [x] =>
      cases hv
      exact ⟨x, hok x (.head _), rfl⟩
    | x :: y :: rest => cases hv
  refine .bind hvalue ?_
  rintro v s _ t ⟨⟨rfl, hv⟩, hE⟩
  refine k v s t (fun a ha => ?_) hE
  obtain ⟨x, hx, hxa⟩ := hv a ha
  exact ⟨e, x, he, hx, hxa⟩

theorem withCondition {R : α → Store → β → Store → Prop} {f : Bool → Eval α} {g : Bool → Eval β}
    (k : ∀ b s t, E s t → RelatedEval L R E (f b) (g b) s t) :
    RelatedEval L R E (do f (← m.condition focus (← Calls.childAt children i)))
      (do g (← m'.condition focus' (← Calls.childAt children' i))) s t := by
  refine .bind (childAt_related hc.matched.1 (hc.missing i hi) hE) ?_
  rintro e s e' t ⟨he, he', hE⟩
  have hvalue : RelatedEval L (Same E) E (m.condition focus e) (m'.condition focus' e') s t := by
    refine .bind (hc.matched.2 i e e' he he' s t hE) ?_
    rintro c s d t ⟨hF, hE⟩
    refine .bind (h.firstTwo hF hE) ?_
    rintro items s _ t ⟨⟨rfl, -⟩, hE⟩
    exact .same (L.allows (effectiveBoolean_dynamic items)) hE
  refine .bind hvalue ?_
  rintro b s _ t ⟨rfl, hE⟩
  exact k b s t hE

end

/-! ## Results that are not computed later -/

section

variable {V : Item → Prop} (hR : ∀ c, Plain V c → R c c) (hE : E s t)

include hR hE

omit h in
theorem madeItem {i : Item} (hi : V i) : RelatedEval L (Made R E) E (pure (.ofItem i)) (pure (.ofItem i)) s t :=
  .pure ⟨hR _ (.item hi), hE⟩

omit h in
theorem madeEmpty : RelatedEval L (Made R E) E (pure .empty) (pure .empty) s t :=
  .pure ⟨hR _ .empty, hE⟩

end

section

variable {item : Option Item} (hE : E s t)

include hE

/-! ## Operators -/

theorem arithmeticForm {op : ArithOp}
    (hR : ∀ c, Plain (fun i => (Form.arithmetic op).Gives Ok item children i) c → R c c)
    (hc : Operands L F E m m' focus focus' 2 children children') :
    RelatedEval L (Made R E) E (m.arithmeticForm focus op children)
      (m'.arithmeticForm focus' op children') s t := by
  refine h.withOperand hc (by decide) hE ?_
  intro left s t hleft hE
  refine h.withOperand hc (by decide) hE ?_
  intro right s t hright hE
  match left, right with
  | some x, some y =>
    obtain ⟨l, x, hl, hx, rfl⟩ := hleft _ rfl
    obtain ⟨r, y, hr, hy, rfl⟩ := hright _ rfl
    refine .bindSame (L.allows (numericOperand_dynamic _)) hE fun a ha => ?_
    refine .bindSame (L.allows (numericOperand_dynamic _)) hE fun b hb => ?_
    refine .bindSame (L.allows (arithmetic_dynamic op a b).arithmeticFailure) hE fun v hv => ?_
    exact madeItem hR hE ⟨l, r, x, y, a, b, v, hl, hr, ⟨hx, hy⟩, ha, hb, Except.of_mapError hv, rfl⟩
  | some _, none | none, _ => exact madeEmpty hR hE

theorem negateForm (hR : ∀ c, Plain (fun i => Form.negate.Gives Ok item children i) c → R c c)
    (hc : Operands L F E m m' focus focus' 1 children children') :
    RelatedEval L (Made R E) E (m.negateForm focus children) (m'.negateForm focus' children') s t := by
  refine h.withOperand hc (by decide) hE ?_
  intro value s t hvalue hE
  match value with
  | some x =>
    obtain ⟨e, x, he, hx, rfl⟩ := hvalue _ rfl
    refine .bindSame (L.allows (numericOperand_dynamic _)) hE fun a ha => ?_
    refine .bindSame (L.allows (negate_dynamic a).arithmeticFailure) hE fun v hv => ?_
    exact madeItem hR hE ⟨e, x, a, v, he, hx, ha, Except.of_mapError hv, rfl⟩
  | none => exact madeEmpty hR hE

theorem rangeForm (hR : ∀ c, Plain (fun i => Form.range.Gives Ok item children i) c → R c c)
    (hc : Operands L F E m m' focus focus' 2 children children') :
    RelatedEval L (Made R E) E (m.rangeForm focus children) (m'.rangeForm focus' children') s t := by
  refine h.withOperand hc (by decide) hE ?_
  intro first s t _ hE
  refine h.withOperand hc (by decide) hE ?_
  intro last s t _ hE
  refine .bindSame (L.allows (optionalBound_dynamic first)) hE fun a _ => ?_
  refine .bindSame (L.allows (optionalBound_dynamic last)) hE fun b _ => ?_
  match a, b with
  | some a, some b => exact .pure ⟨hR _ (.range (fun k => ⟨k, rfl⟩) a b), hE⟩
  | some _, none | none, _ => exact madeEmpty hR hE

section

variable (hR : ∀ c, Plain (fun i => ∃ b, i = .ofBool b) c → R c c)
  (hc : Operands L F E m m' focus focus' 2 children children')

include hR hc

theorem valueComparison : RelatedEval L (Made R E) E (m.valueComparison focus op children)
      (m'.valueComparison focus' op children') s t := by
  refine h.withOperand hc (by decide) hE ?_
  intro left s t _ hE
  refine h.withOperand hc (by decide) hE ?_
  intro right s t _ hE
  match left, right with
  | some a, some b =>
    exact .bindSame (L.allows (valueCompare_dynamic op _ _)) hE fun b _ => madeItem hR hE ⟨b, rfl⟩
  | some _, none | none, _ => exact madeEmpty hR hE

/-! ## General comparisons -/

omit hE hR hc in
theorem compareRow (hn : FuelLe L.lax n n') (hx : CacheRel L (Ok e) (J e) E x s y t) :
    RelatedEval L (fun x s y t => x.2 = y.2 ∧ CacheRel L (Ok e) (J e) E x.1 s y.1 t) E
      (m.compareRow op a n i x) (m'.compareRow op a n' i y) s t := by
  induction hn using FuelLe.induct generalizing i x y s t with
  | out => exact .outOfFuel
  | left _ _ h => exact Related.left h
  | step n n' _ _ ih =>
    refine .bind (.lift (fetch_related (h.pulls e) h.stores h.fuel hx)) ?_
    rintro ⟨x, r⟩ s ⟨y, r'⟩ t ⟨rfl, hr, hx⟩
    refine .bindSame hr.error (hx.stores h.stores) ?_
    intro found _
    match found with
    | none => exact .pure ⟨rfl, hx⟩
    | some item =>
      refine .bindSame (L.allows (generalCompare_dynamic op _ _)) (hx.stores h.stores) ?_
      intro b _
      cases b with
      | true => exact .pure ⟨rfl, hx⟩
      | false => exact ih hx

omit hE hR hc in
theorem compareRows (hx : CacheRel L (Ok e) (J e) E x s y t) :
    RelatedEval L (Same E) E (m.compareRows op items x) (m'.compareRows op items y) s t := by
  induction items generalizing x y s t with
  | nil => exact .pure ⟨rfl, hx.stores h.stores⟩
  | cons item rest ih =>
    refine .bind (h.compareRow h.fuel hx) ?_
    rintro ⟨x, b⟩ s ⟨y, b'⟩ t ⟨rfl, hx⟩
    cases b with
    | true => exact .pure ⟨rfl, hx.stores h.stores⟩
    | false => exact ih hx

theorem generalComparison : RelatedEval L (Made R E) E (m.generalComparison focus op children)
      (m'.generalComparison focus' op children') s t := by
  refine .bind (childAt_related hc.matched.1 (hc.missing 0 (by decide)) hE) ?_
  rintro e s e' t ⟨he, he', hE⟩
  refine .bind (hc.matched.2 0 e e' he he' s t hE) ?_
  rintro c s d t ⟨hF, hE⟩
  refine .bind (h.drain hF hE) ?_
  rintro items s _ t ⟨⟨rfl, -⟩, hE⟩
  refine .bind (childAt_related hc.matched.1 (hc.missing 1 (by decide)) hE) ?_
  rintro e s e' t ⟨he, he', hE⟩
  refine .bind (hc.matched.2 1 e e' he he' s t hE) ?_
  rintro c s d t ⟨hF, hE⟩
  refine .bind (h.compareRows ⟨rfl, rfl, nofun, nofun, h.fresh hF hE⟩) ?_
  rintro b s _ t ⟨rfl, hE⟩
  exact madeItem hR hE ⟨b, rfl⟩

end

end

/-! ## Unions -/

omit h in
theorem mem_of_unionNodes : ∀ {nodes : List Node}, unionNodes items = .ok nodes → ∀ n ∈ nodes, .node n ∈ items := by
  induction items with
  | nil =>
    intro nodes hn
    cases hn
    exact nofun
  | cons item rest ih =>
    intro nodes hn
    cases item with
    | atomic a => cases hn
    | node n =>
      unfold unionNodes at hn
      cases hr : unionNodes rest with
      | error e => rw [hr] at hn; cases hn
      | ok more =>
        rw [hr] at hn
        cases hn
        intro k hk
        rcases mem_cons.mp hk with rfl | hk
        · exact .head _
        · exact .tail _ (ih hr k hk)

theorem union : ∀ {children' : List ExprId} {s t : Store},
      Matched (fun _ e e' => Executes L (F e) E m m' focus focus' e e') children children' → E s t →
      RelatedEval L (Sure (∀ n ∈ ·, ∃ e ∈ children, Ok e (.node n)) E) E
        (m.union focus children) (m'.union focus' children') s t := by
  induction children with
  | nil =>
    intro children' s t hc hE
    obtain rfl : children' = [] := eq_nil_of_length_eq_zero hc.1.symm
    exact .pure ⟨⟨rfl, nofun⟩, hE⟩
  | cons e es ih =>
    intro children' s t hc hE
    obtain ⟨e', es', rfl⟩ : ∃ e' es', children' = e' :: es' :=
      exists_cons_of_length_eq_add_one hc.1.symm
    refine .bind (hc.head s t hE) ?_
    rintro c s d t ⟨hF, hE⟩
    refine .bind (h.drain hF hE) ?_
    rintro items s _ t ⟨⟨rfl, hok⟩, hE⟩
    refine .bindSame (L.allows (unionNodes_dynamic items)) hE ?_
    intro nodes hnodes
    refine .bind (ih hc.tail hE) ?_
    rintro more s _ t ⟨⟨rfl, hmore⟩, hE⟩
    refine .pure ⟨⟨rfl, ?_⟩, hE⟩
    intro n hn
    rcases mem_append.mp hn with hn | hn
    · exact ⟨e, (.head _), hok _ (mem_of_unionNodes hnodes n hn)⟩
    · obtain ⟨e', he', hn⟩ := hmore n hn
      exact ⟨e', .tail _ he', hn⟩

/-! ## All forms that need nothing of their own -/

theorem perform_direct {p p' : Program} {V : Item → Prop} (hform : p.form? e = some form)
    (hform' : p'.form? e' = some form) (hdirect : form.isDirect = true)
    (hfocus : form = .contextItem ∨ form = .root → SameFocus L V E m m' focus focus')
    (hc : Operands L F E m m' focus focus' form.arity (p.children e) (p'.children e'))
    (hR : ∀ c, Plain (fun i => form.Gives Ok focus.item? (p.children e) i) c → R c c)
    (hbranch : form = .ifThenElse → ∀ e₀ c d, (p.children e)[1]? = some e₀ ∨ (p.children e)[2]? = some e₀ →
      F e₀ c d → R c d) (hE : E s t) :
    RelatedEval L (Made R E) E (m.perform p e focus) (m'.perform p' e' focus') s t := by
  unfold Calls.perform
  rw [hform, hform']
  cases form with
  | literal a => exact madeItem hR hE rfl
  | contextItem =>
    refine .bind ((hfocus (.inl rfl)).requireItem hE) ?_
    rintro i s _ t ⟨⟨rfl, hi⟩, hE⟩
    exact madeItem hR hE hi
  | root =>
    refine .bind ((hfocus (.inr rfl)).root hE) ?_
    rintro n s _ t ⟨⟨rfl, k, hk, rfl⟩, hE⟩
    exact madeItem hR hE ⟨k, hk, rfl⟩
  | arithmetic op => exact h.arithmeticForm hE hR hc
  | negate => exact h.negateForm hE hR hc
  | and =>
    refine h.withCondition hc (by decide) hE ?_
    intro b s t hE
    cases b with
    | true => exact h.withCondition hc (by decide) hE fun b s t hE => madeItem hR hE ⟨b, rfl⟩
    | false => exact madeItem hR hE ⟨false, rfl⟩
  | or =>
    refine h.withCondition hc (by decide) hE ?_
    intro b s t hE
    cases b with
    | true => exact madeItem hR hE ⟨true, rfl⟩
    | false => exact h.withCondition hc (by decide) hE fun b s t hE => madeItem hR hE ⟨b, rfl⟩
  | compare c op =>
    cases c with
    | value => exact h.valueComparison hE hR hc
    | general => exact h.generalComparison hE hR hc
  | ifThenElse =>
    have hexec : ∀ {i : Nat} {s t : Store}, i = 1 ∨ i = 2 → E s t → RelatedEval L (Made R E) E
        (do m.execute (← Calls.childAt (p.children e) i) focus)
        (do m'.execute (← Calls.childAt (p'.children e') i) focus') s t := by
      intro i s t hi hE
      refine .bind (childAt_related hc.matched.1 (hc.missing i (by rcases hi with rfl | rfl <;> decide)) hE) ?_
      rintro e₀ s e₀' t ⟨he, he', hE⟩
      refine (hc.matched.2 i e₀ e₀' he he' s t hE).mono ?_ fun _ _ h => h
      rintro c s d t ⟨hF, hE⟩
      refine ⟨hbranch rfl e₀ c d ?_ hF, hE⟩
      rcases hi with rfl | rfl
      · exact .inl he
      · exact .inr he
    refine h.withCondition hc (by decide) hE ?_
    intro b s t hE
    cases b with
    | true => exact hexec (.inl rfl) hE
    | false => exact hexec (.inr rfl) hE
  | range => exact h.rangeForm hE hR hc
  | union =>
    refine .bind (h.union hc.matched hE) ?_
    rintro nodes s _ t ⟨⟨rfl, hok⟩, hE⟩
    refine .pure ⟨hR _ (.items ?_), hE⟩
    intro i hi
    obtain ⟨n, hn, rfl⟩ := mem_map.mp hi
    exact ⟨n, rfl, hok n (mem_of_mem_inDocumentOrder hn)⟩
  | _ => cases hdirect

end Tandem

end XPath
