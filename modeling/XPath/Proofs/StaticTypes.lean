import XPath.Proofs.ArithmeticTypes
import XPath.Proofs.ContractQueries

/-!
# Static types are sound

Every item that an expression delivers is of its static categories `returnType` and `itemType`, each time the
expression is executed in the course of an evaluation, and every item that a loop binds is of the category of the
binding. The contract for this is lawful by one case per form; the functions that are called have to keep to the
categories they declare.
-/

namespace XPath

open List

open Program

variable {m n : Nat} {i : Item} {s : Store}

/-! ## Static types, one level down -/

/-- The item type of a node, from its form and its children. -/
def Program.itemTypeOf (p : Program) (e : ExprId) (form : Form) : ResultType :=
  match form with
  | .forEach _ _ => ((p.children e)[1]?).elim .any p.itemType
  | .filter _ => (p.children e).head?.elim .any p.itemType
  | .sequence => commonType ((p.children e).map p.itemType)
  | _ => p.returnType e

section

variable {p : Program} {e : ExprId} {form : Form}

section

variable (hdesc : ∀ e c : Nat, c ∈ p.children e → c < e)

include hdesc

theorem returnTypeFrom_eq {e : Nat} (hm : e < m) (hn : e < n) : p.returnTypeFrom m e = p.returnTypeFrom n e := by
  induction m generalizing n e with
  | zero => exact absurd hm (Nat.not_lt_zero _)
  | succ m ih =>
    obtain ⟨n, rfl⟩ := exists_succ_of_lt hn
    have hchildren : (p.children e).map (p.returnTypeFrom m) = (p.children e).map (p.returnTypeFrom n) := by
      refine map_congr_left ?_
      intro c hc
      have hlt := hdesc e c hc
      exact ih (by omega) (by omega)
    unfold returnTypeFrom
    rw [hchildren]

theorem returnType_eq (hform : p.form? e = some form) :
    p.returnType e = typeFromChildren form ((p.children e).map p.returnType) := by
  have hlt : e < p.size := lt_size_of_form? hform
  have hunfold : p.returnType e = p.returnTypeFrom (p.size + 1) e :=
    returnTypeFrom_eq hdesc hlt (Nat.lt_succ_of_lt hlt)
  rw [hunfold, returnTypeFrom, hform]
  rfl

theorem itemTypeFrom_eq {e : Nat} (hm : e < m) (hn : e < n) : p.itemTypeFrom m e = p.itemTypeFrom n e := by
  induction m generalizing n e with
  | zero => exact absurd hm (Nat.not_lt_zero _)
  | succ m ih =>
    obtain ⟨n, rfl⟩ := exists_succ_of_lt hn
    have hbelow : ∀ c ∈ p.children e, p.itemTypeFrom m c = p.itemTypeFrom n c := by
      intro c hc
      have hlt := hdesc e c hc
      exact ih (by omega) (by omega)
    unfold itemTypeFrom
    split
    · cases hbody : (p.children e)[1]? with
      | none => rfl
      | some body => exact hbelow body (mem_of_getElem? hbody)
    · cases hsource : (p.children e).head? with
      | none => rfl
      | some source => exact hbelow source (mem_of_head? hsource)
    · rw [map_congr_left hbelow]
    · rfl

theorem itemType_eq (hform : p.form? e = some form) : p.itemType e = p.itemTypeOf e form := by
  have hlt : e < p.size := lt_size_of_form? hform
  have hunfold : p.itemType e = p.itemTypeFrom (p.size + 1) e :=
    itemTypeFrom_eq hdesc hlt (Nat.lt_succ_of_lt hlt)
  rw [hunfold, itemTypeFrom, hform]
  cases form <;> rfl

end

end

/-- An item of one of the categories is of the common one. -/
theorem commonType_has {es : List ExprId} (he : e ∈ es) (h : (type e).Has i) : (commonType (es.map type)).Has i := by
  cases es with
  | nil => cases he
  | cons c cs =>
    unfold commonType
    rw [map_cons]
    dsimp only
    split
    · rename_i hall
      rcases mem_cons.mp he with rfl | he
      · exact h
      · have hsame : type e = type c :=
          of_decide_eq_true (all_eq_true.mp hall _ (mem_map_of_mem he))
        exact hsame ▸ h
    · exact .inl rfl

/-! ## The contract -/

/-- Items are of the static categories of their expressions. -/
def Contract.staticTypes (p : Program) : Contract where
  Fit := p.static.Callable
  Err := fun _ => True
  Value := fun e i => (p.returnType e).Has i ∧ (p.itemType e).Has i
  Var := fun b i => b.itemType.Has i

/-- Whatever it is given, the function replies with items of its declared category. -/
def FunctionEntry.KeepsType (f : FunctionEntry) : Prop :=
  ∀ site, (f.body site).Ends (fun _ => True) (Reply.Of f.returnType.Has)

/-- Every function that a call in the expression resolves to does so. -/
def Expr.CallsKeepTypes (c : StaticContext) (x : Expr) : Prop :=
  ∀ name arity f, .call name arity ∈ x.mentions c →
    c.functions.resolve name arity c.settings.defaultFunctionNamespace = .ok f → f.KeepsType

section

variable {c : StaticContext} {x : Expr} {q : Query} {p : Program}

theorem Form.Gives.hasType {e : ExprId} (hdesc : ∀ e c : Nat, c ∈ p.children e → c < e) (hform : p.form? e = some form)
    (hops : form.Operands (p.children e)) (h : form.Gives (Contract.staticTypes p).Value item (p.children e) i) :
    (p.returnType e).Has i ∧ (p.itemType e).Has i := by
  rw [itemType_eq hdesc hform]
  have hreturn := returnType_eq hdesc hform
  -- for most forms the two categories are one
  have hsame : p.itemTypeOf e form = p.returnType e → (p.returnType e).Has i →
      (p.returnType e).Has i ∧ (p.itemTypeOf e form).Has i := fun hitem h => ⟨h, hitem ▸ h⟩
  cases form with
  | literal a =>
    obtain rfl : i = .atomic a := h
    exact hsame rfl (hreturn ▸ .inr rfl)
  | contextItem => exact hsame rfl (hreturn ▸ .inl rfl)
  | root =>
    obtain ⟨n, -, rfl⟩ := h
    exact hsame rfl (hreturn ▸ .inr rfl)
  | union =>
    obtain ⟨n, rfl, -⟩ := h
    exact hsame rfl (hreturn ▸ .inr rfl)
  | «variable» | call => exact h.elim
  | path plan =>
    refine hsame rfl ?_
    rw [hreturn]
    unfold typeFromChildren
    dsimp only
    split
    · rename_i hnodes
      obtain ⟨n, rfl⟩ := foldl_gives_nodes hnodes h
      exact .inr rfl
    · exact .inl rfl
  | filter steps =>
    obtain ⟨source, hsource, hi⟩ := h
    rw [foldl_gives_filters hops] at hi
    obtain ⟨hreturns, hitems⟩ := hi
    rw [← head?_eq_getElem?] at hsource
    rw [hreturn]
    unfold typeFromChildren itemTypeOf
    rw [head?_map, hsource]
    exact ⟨hreturns, hitems⟩
  | arithmetic op =>
    obtain ⟨l, r, hchildren⟩ := hops
    rw [hchildren] at h
    obtain ⟨_, _, y, z, a, b, v, ⟨⟩, ⟨⟩, ⟨⟨hl, -⟩, hr, -⟩, ha, hb, hv, rfl⟩ := h
    refine hsame rfl ?_
    rw [hreturn, hchildren]
    exact arithmetic_type hl hr ha hb hv
  | negate =>
    obtain ⟨o, hchildren⟩ := hops
    rw [hchildren] at h
    obtain ⟨_, y, a, v, ⟨⟩, ⟨ho, -⟩, ha, hv, rfl⟩ := h
    refine hsame rfl ?_
    rw [hreturn, hchildren]
    exact negate_type ho ha hv
  | and | or | compare _ _ | quantified _ _ _ =>
    obtain ⟨b, rfl⟩ := h
    exact hsame rfl (hreturn ▸ .inr rfl)
  | ifThenElse =>
    obtain ⟨cond, yes, no, hchildren⟩ := hops
    rw [hchildren] at h
    obtain ⟨branch, hbranch, hi⟩ := h
    refine hsame rfl ?_
    rw [hreturn, hchildren]
    change (if p.returnType yes = p.returnType no then p.returnType yes else .any).Has i
    split
    · rename_i heq
      rcases hbranch with ⟨⟨⟩⟩ | ⟨⟨⟩⟩
      · exact hi.1
      · exact heq ▸ hi.1
    · exact .inl rfl
  | forEach name b =>
    obtain ⟨source, body, hchildren⟩ := hops
    rw [hchildren] at h
    obtain ⟨_, ⟨⟩, -, hitems⟩ := h
    refine ⟨hreturn ▸ .inl rfl, ?_⟩
    unfold itemTypeOf
    rw [hchildren]
    exact hitems
  | sequence =>
    obtain ⟨c, hc, hreturns, hitems⟩ := h
    rw [hreturn]
    exact ⟨commonType_has hc hreturns, commonType_has hc hitems⟩
  | range =>
    obtain ⟨k, rfl⟩ := h
    exact hsame rfl (hreturn ▸ .inr rfl)

/-- The type of a loop's binding is that of the items of its source. -/
theorem loop_itemType (hq : compile c x = .ok q)
    (hform : q.program.form? e = some form) (hb : form.loopBinding? = some b)
    (hsource : (q.program.children e)[0]? = some source) : b.itemType = q.program.itemType source := by
  obtain ⟨p, raw, -, -, -, -, hfills⟩ := raw_of_compile hq hform
  cases raw with
  | forEach var _ | quantified k var _ =>
    obtain ⟨b', hloop, rfl⟩ := hfills
    obtain rfl : b' = b := Option.some.inj hb
    exact hloop.itemType source hsource
  | «variable» name b₀ =>
    obtain ⟨b', -, rfl⟩ := hfills
    cases hb
  | call name f =>
    obtain ⟨f', -, rfl⟩ := hfills
    cases hb
  | _ =>
    obtain rfl : form = _ := hfills
    cases hb

/-- A call in the program is one in the expression, and has the function that the call resolves to. -/
theorem call_of_compile (hq : compile c x = .ok q)
    (hform : q.program.form? e = some (.call name (some f))) : ∃ arity, .call name arity ∈ x.mentions c ∧
      c.functions.resolve name arity c.settings.defaultFunctionNamespace = .ok f := by
  obtain ⟨p, raw, hlaid, hkin, hraw, -, hfills⟩ := raw_of_compile hq hform
  cases raw with
  | call name' f' =>
    obtain ⟨f'', hresolve, heq⟩ := hfills
    cases heq
    rw [hkin.static, hlaid.static] at hresolve
    refine ⟨_, ?_, hresolve⟩
    rw [← hlaid.mentions, hkin.children]
    refine mem_filterMap.mpr ⟨e, mem_range.mpr (lt_size_of_form? hraw), ?_⟩
    unfold mentionAt
    rw [hraw]
    rfl
  | «variable» name' b | forEach var b | quantified k var b =>
    obtain ⟨b', -, heq⟩ := hfills
    cases heq
  | _ => cases (hfills : Form.call _ _ = _)

theorem Contract.staticTypes_lawful (hq : compile c x = .ok q) (htypes : x.CallsKeepTypes c) :
    (staticTypes q.program).Lawful q.program := by
  have hdesc := (compiled_of_compile hq).descending
  have hops := operands_of_compile hq
  refine ⟨fun _ _ => trivial, hops, fun e form hform _ i h => h.hasType hdesc hform (hops e form hform), ?_, ?_, ?_⟩
  · intro e name b hform i hi
    have hreturn : q.program.returnType e = b.itemType := returnType_eq hdesc hform
    exact ⟨hreturn ▸ hi, (itemType_eq hdesc hform).trans hreturn ▸ hi⟩
  · intro e name f hform site
    have hreturn : q.program.returnType e = f.returnType := returnType_eq hdesc hform
    have hitem : q.program.itemType e = f.returnType := (itemType_eq hdesc hform).trans hreturn
    have hvalue : ∀ i, f.returnType.Has i → (staticTypes q.program).Value e i :=
      fun i hi => ⟨hreturn ▸ hi, hitem ▸ hi⟩
    obtain ⟨arity, hcall, hresolve⟩ := call_of_compile hq hform
    refine (htypes name arity f hcall hresolve site).mono ?_
    intro reply hreply
    cases reply with
    | items values => exact fun i hi => hvalue i (hreply i hi)
    | argument k => exact fun i => hvalue i (hreply i)
  · intro e form b source body hform hb hchildren i hi
    have hsource : (q.program.children e)[0]? = some source := by
      rw [hchildren]
      rfl
    change b.itemType.Has i
    rw [loop_itemType hq hform hb hsource]
    exact hi.2

end

/-! ## Each execution -/

/-- An item that the cursor delivers on the way, if it is pulled again and again. -/
inductive Calls.Delivers (m : Calls) (i : Item) : Cursor → Store → Prop
  | now {c c' : Cursor} {s s' : Store} (pull : m.next c s = some ((c', .ok true), s'))
      (current : c'.current = some i) : Delivers m i c s
  | later {c c' : Cursor} {s s' : Store} (pull : m.next c s = some ((c', .ok true), s'))
      (rest : Delivers m i c' s') : Delivers m i c s

/-- Each execution of an expression delivers items of its static categories, however far it is pulled, and each item
that a loop binds is of the category of the binding. -/
def Watch.onTypes (m : Nat → Program → Calls) : Watch where
  execution := fun p e _ _ r s => ∀ c, r = .ok c → ∀ n i, (m n p).Delivers i c s →
    (p.returnType e).Has i ∧ (p.itemType e).Has i
  item := fun b i => b.itemType.Has i

def Watches.onTypes : Watches :=
  ⟨.onTypes machine, .onTypes lexicalMachine, rfl⟩

/-- Cursors that keep up with each other deliver the same. -/
theorem KeepsUp.delivers_iff {m m' : Calls} (h : KeepsUp .strict Ok J m m')
    {c d : Cursor} {t : Store} (hJ : J c s d t) : m.Delivers i c s ↔ m'.Delivers i d t := by
  refine ⟨fun hdel => ?_, fun hdel => ?_⟩
  · induction hdel generalizing d t with
    | now pull current =>
      obtain ⟨⟨d', r⟩, t', hpull, hout, hcur, -⟩ := (h _ _ _ _ hJ).of_some pull
      obtain rfl : _ = r := hout
      exact .now hpull (hcur.symm.trans current)
    | later pull rest ih =>
      obtain ⟨⟨d', r⟩, t', hpull, hout, -, -, -, hJ'⟩ := (h _ _ _ _ hJ).of_some pull
      obtain rfl : _ = r := hout
      exact .later hpull (ih hJ')
  · induction hdel generalizing c s with
    | now pull current =>
      obtain ⟨⟨c', r⟩, s', hpull, hout, hcur, -⟩ := (h _ _ _ _ hJ).of_some_right pull
      obtain rfl : r = _ := hout
      exact .now hpull (hcur.trans current)
    | later pull rest ih =>
      obtain ⟨⟨c', r⟩, s', hpull, hout, -, -, -, hJ'⟩ := (h _ _ _ _ hJ).of_some_right pull
      obtain rfl : r = _ := hout
      exact .later hpull (ih hJ')

theorem Watches.onTypes_concur (hFit : ∀ f, Fit f → f.KeepsReply) : Watches.onTypes.Concur p Fit := by
  intro gen vars lo hi env e focus focus' sizes s t s' t' r r' hplaced hagrees hbelow hslots hr
  cases hr with
  | error lawful h => exact ⟨fun _ _ h => (nomatch h), nofun⟩
  | @ok c _ d _ hr =>
    have hlive : Live p Fit anyOrigin (some vars) lo hi env (Held lo hi s.slots env sizes) c s' d t' :=
      ⟨(hr.1 s'.slots).mono (fun _ _ _ _ _ _ => trivial) .refl .refl .refl, hr.2⟩
    have hdel : ∀ n i, (machine n p).Delivers i c s' ↔ (lexicalMachine n p).Delivers i d t' := by
      intro n i
      have hnext : NextInStep .idle p Fit n := (inStep hFit n).next
      have hpulls : KeepsUp .strict (fun _ => True)
          (Live p Fit anyOrigin (some vars) lo hi env (Held lo hi s.slots env sizes))
          (Watches.idle.slotMachine n p) (Watches.idle.scopeMachine n p) :=
        hnext.keepsUp (traced_anyOrigin .idle p) (.ofScope hagrees hbelow) .refl .refl
      rw [Watches.slotMachine_idle, Watches.scopeMachine_idle] at hpulls
      exact hpulls.delivers_iff hlive
    refine ⟨?_, ?_⟩
    · rintro h _ ⟨⟩ n i hi
      exact h c rfl n i ((hdel n i).mpr hi)
    · rintro h _ ⟨⟩ n i hi
      exact h d rfl n i ((hdel n i).mp hi)

/-- A sound cursor delivers items of the contract only. -/
theorem Sound.delivers {K : Contract} (hL : K.Lawful p)
    {V : Item → Prop} {c : Cursor} (hdel : (lexicalMachine n p).Delivers i c s)
    (hp : K.Provides p vars s.slots) (hc : Sound (K.accord p s.caches) p vars V c) : V i := by
  have hm := (hL.accord (Watch.idle_grants K p) s.caches).serving n
  have hst : (K.accord p s.caches).Beside p vars s s := ⟨.self, hp⟩
  generalize s.caches = caches at hm hst hc
  induction hdel with
  | now pull current =>
    obtain ⟨_, _, -, ⟨-, hc', -⟩, -⟩ := (hm.next hc _ _ hst).of_some pull
    exact hc'.current _ current
  | later pull rest ih =>
    obtain ⟨_, _, -, ⟨rfl, hc', -⟩, hst'⟩ := (hm.next hc _ _ hst).of_some pull
    obtain ⟨rfl, -⟩ := hst'.1.eq
    exact ih hst'.2 hst' hc'

theorem Watch.onTypes_grants (hL : (Contract.staticTypes p).Lawful p) :
    (Watch.onTypes lexicalMachine).Grants (.staticTypes p) p where
  item := fun _ _ h => h
  execution := by
    rintro n vars e focus s s' _ hp he hrun hp' hr c rfl k i hdel
    exact Sound.delivers hL hdel hp' hr

/-- Static types are sound. If every function that is called replies with items of its declared category, then each
time an expression is executed in an evaluation it delivers items of its static categories only, and each item that
is bound to a loop variable is of the category in the binding: an evaluation that gives up where it sees anything
else is the evaluation itself. So is every item of the result. -/
theorem Query.evaluateUnder_onTypes {c : StaticContext} {x : Expr} {q : Query} (hq : compile c x = .ok q)
    (hreplies : ∀ f, c.Callable f → f.KeepsReply)
    (htypes : x.CallsKeepTypes c)
    {values : List (ExpandedName × List Item)} {slots : Slots} (hslots : q.createSlots values = .ok slots)
    (fuel : Nat) (focus : Snapshot) :
    q.evaluateUnder (.onTypes machine) fuel focus slots = (q.evaluateOn fuel focus slots).map (·.1) ∧
      ∀ items, (q.evaluateOn fuel focus slots).map (·.1) = some (.ok items) →
        ∀ i ∈ items, q.returnType.Has i ∧ (q.program.itemType q.root).Has i := by
  have hstatic := (compiled_of_compile hq).static
  have hL := Contract.staticTypes_lawful hq htypes
  have hprovides := q.provides_environment hq hslots (K := .staticTypes q.program) fun _ h _ => .inl h
  have hFit : (Contract.staticTypes q.program).Fit = c.Callable := congrArg StaticContext.Callable hstatic
  obtain ⟨hwatched, hrun⟩ := q.evaluateUnder_eq hq hreplies hFit hL (Watches.onTypes_concur hreplies)
    (Watch.onTypes_grants hL) hprovides (fun _ _ => trivial) fuel
  exact ⟨hwatched, fun items h => hrun _ h⟩

/-- `for $x in (D, -D) return if (count(($x, 1)) eq 2) then $x + $x else -$x`, where `D` is a duration. -/
def doubledDurations : Expr :=
  let var : Expr := .variable (.unprefixed "x")
  let number (i : Int64) : Expr := .literal (.integer i)
  let duration : Expr := .literal (.typed (.dayTimeDuration 60))
  .forEach [.mk (.unprefixed "x") (.sequence [duration, .negate duration])]
    (.ifThenElse
      (.binary (.compare .value .eq) (.call (.unprefixed "count") [.sequence [var, number 1]]) (number 2))
      (.binary (.arith .add) var var) (.negate var))

/-- The items are known to be durations, and so they are. -/
theorem Query.evaluateUnder_onTypes_durations :
    ∃ q, compile .standard doubledDurations = .ok q ∧ doubledDurations.CallsKeepTypes .standard ∧
      (∀ f, StaticContext.standard.Callable f → f.KeepsReply) ∧
      ∃ slots, q.createSlots [] = .ok slots ∧
        ∃ items, items.length = 2 ∧
          q.evaluateUnder (.onTypes machine) 40 (.single none) slots = some (.ok items) ∧
          ∀ i ∈ items, i.resultType = .duration := by
  have hcalls : doubledDurations.CallsKeepTypes .standard := by
    intro name arity f hmem hf site
    have hmentions : doubledDurations.mentions .standard =
        [.call ⟨none, "count"⟩ 1, .loop ⟨none, "x"⟩] := rfl
    rw [hmentions] at hmem
    simp only [mem_cons, Mention.call.injEq, reduceCtorEq, not_mem_nil, or_false] at hmem
    obtain ⟨rfl, rfl⟩ := hmem
    cases hf
    intro r _
    cases r with
    | error e => trivial
    | ok items =>
      intro i hi
      cases mem_singleton.mp hi
      exact .inr rfl
  have hreplies : ∀ f, StaticContext.standard.Callable f → f.KeepsReply :=
    fun _ hf => (CoreFunction.standard_keepsReply_grows hf).1
  have hrun : ((compile .standard doubledDurations).toOption.any fun q =>
      (q.createSlots []).toOption.any fun slots =>
        ((q.evaluateOn 40 (.single none) slots).map (·.1)).any fun r =>
          r.toOption.any fun items => items.length == 2 && q.program.itemType q.root == .duration) = true := by
    decide +kernel
  obtain ⟨q, hq, hrun⟩ := exists_ok_of_check hrun
  obtain ⟨slots, hslots, hrun⟩ := exists_ok_of_check hrun
  obtain ⟨r, hvalue, hrun⟩ := (Option.any_eq_true _ _).mp hrun
  obtain ⟨items, rfl, hrun⟩ := exists_ok_of_check hrun
  obtain ⟨hlength, htype⟩ := (Bool.and_eq_true _ _).mp hrun
  obtain ⟨hwatched, hitems⟩ := q.evaluateUnder_onTypes hq hreplies hcalls hslots 40 (.single none)
  refine ⟨q, hq, hcalls, hreplies, slots, hslots, items, beq_iff_eq.mp hlength, hwatched.trans hvalue, ?_⟩
  intro i hi
  have hhas := (hitems items hvalue i hi).2
  rw [beq_iff_eq.mp htype] at hhas
  exact hhas.resolve_left nofun

end XPath
