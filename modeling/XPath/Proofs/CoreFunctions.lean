import XPath.Proofs.Functions

/-!
# The core functions keep to their table

A core function replies with one atomic value of the category its entry declares, the sum apart, raises no static
error, and asks for the focus only if its entry in the table says so (`table_keeps`). What the machine needs to know
of functions follows: the replies are sound and never an argument, and calls of the other functions do not depend on
the focus.
-/

namespace XPath

variable {Ok : Item → Prop} {T : ResultType → Prop} {s : Script Reply} {f : FunctionEntry}

def Reply.IsOne (T : ResultType → Prop) (r : Reply) : Prop :=
  ∃ a, r = .items [.atomic a] ∧ T a.resultType

namespace Script

/-- The script asks for the focus only where it may, and ends with a result of some kind or an error that may
occur, if what it is answered fails with such errors. -/
def Keeps {α : Type} (onFocus : Bool) (Err : Error → Prop) (P : α → Prop) : Script α → Prop
  | .done a => P a
  | .raise e => Err e
  | .exhausted => True
  | .advance _ k => ∀ r, (∀ e, r = .error e → Err e) → (k r).Keeps onFocus Err P
  | .current _ k => ∀ r, (k r).Keeps onFocus Err P
  | .take _ _ k | .drain _ k => ∀ r, (∀ e, r = .error e → Err e) → (k r).Keeps onFocus Err P
  | .fork _ k => ∀ r, (k r).Keeps onFocus Err P
  | .contextItem k | .position k => onFocus = true ∧ ∀ r, (k r).Keeps onFocus Err P
  | .last k => onFocus = true ∧ ∀ r, (∀ e, r = .error e → Err e) → (k r).Keeps onFocus Err P

variable {α β : Type} {onFocus : Bool} {Err : Error → Prop} {P : α → Prop}

theorem Keeps.bind {s : Script α} {f : α → Script β} {Q : β → Prop} (h : s.Keeps onFocus Err P)
    (hf : ∀ a, P a → (f a).Keeps onFocus Err Q) : (s >>= f).Keeps onFocus Err Q := by
  induction s with
  | done a => exact hf a h
  | raise e => exact h
  | exhausted => trivial
  | current i k ih | fork i k ih => exact fun r => ih r (h r)
  | advance i k ih | take i limit k ih | drain i k ih => exact fun r hr => ih r (h r hr)
  | contextItem k ih | position k ih => exact ⟨h.1, fun r => ih r (h.2 r)⟩
  | last k ih => exact ⟨h.1, fun r hr => ih r (h.2 r hr)⟩

theorem Keeps.sound (hatomics : ∀ a, Ok (.atomic a)) (h : s.Keeps onFocus (fun _ => True) (Reply.IsOne T)) :
    s.Sound Ok := by
  induction s with
  | done r =>
    obtain ⟨a, rfl, -⟩ := h
    exact fun i hi => List.mem_singleton.mp hi ▸ hatomics a
  | raise e | exhausted => trivial
  | advance i k ih => exact fun r => ih r (h r fun _ _ => trivial)
  | current i k ih => exact fun r _ => ih r (h r)
  | take i limit k ih | drain i k ih => exact fun r _ => ih r (h r fun _ _ => trivial)
  | fork i k ih => exact fun r => ih r (h r)
  | contextItem k ih => exact fun r _ => ih r (h.2 r)
  | position k ih => exact fun r => ih r (h.2 r)
  | last k ih => exact fun r => ih r (h.2 r fun _ _ => trivial)

/-- A reply of atomic values is no argument. -/
theorem Keeps.keepsReply (h : s.Keeps onFocus (fun _ => True) (Reply.IsOne T)) : ∀ pulled, s.KeepsReply pulled := by
  induction s with
  | done r =>
    obtain ⟨a, rfl, -⟩ := h
    exact fun _ => trivial
  | raise e | exhausted => exact fun _ => trivial
  | advance i k ih | take i limit k ih | drain i k ih => exact fun _ r => ih r (h r fun _ _ => trivial) _
  | current i k ih | fork i k ih => exact fun _ r => ih r (h r) _
  | contextItem k ih | position k ih => exact fun _ r => ih r (h.2 r) _
  | last k ih => exact fun _ r => ih r (h.2 r fun _ _ => trivial) _

theorem Keeps.blind {P : Reply → Prop} (h : s.Keeps false (fun _ => True) P) : s.Blind := by
  induction s with
  | done a | raise e | exhausted => trivial
  | advance i k ih | take i limit k ih | drain i k ih => exact fun r => ih r (h r fun _ _ => trivial)
  | current i k ih | fork i k ih => exact fun r => ih r (h r)
  | contextItem k ih | position k ih | last k ih => cases h.1

theorem keeps_ofExcept {r : Except Error α} (h : ∀ e, r = .error e → Err e) :
    (ofExcept r).Keeps onFocus Err fun _ => True := by
  cases r with
  | ok a => trivial
  | error e => exact h e rfl

theorem keeps_firstItems (arg limit : Nat) : (firstItems arg limit).Keeps onFocus Err fun _ => True :=
  fun _ hr => keeps_ofExcept hr

theorem keeps_allItems (arg : Nat) : (allItems arg).Keeps onFocus Err fun _ => True :=
  fun _ hr => keeps_ofExcept hr

theorem keeps_groupSize : groupSize.Keeps true Err fun _ => True :=
  ⟨rfl, fun _ hr => keeps_ofExcept hr⟩

theorem keeps_requireContext (h : Err missingContext) : requireContext.Keeps true Err fun _ => True := by
  refine ⟨rfl, ?_⟩
  intro r
  cases r with
  | none => exact h
  | some item => trivial

end Script

namespace CoreFunction

open Script

theorem total_dynamic (values : List AtomicValue) : Dynamic (total values) := by
  cases values with
  | nil => exact .ok _
  | cons a as =>
    induction as generalizing a with
    | nil => exact .ok _
    | cons b as ih => exact (arithmetic_dynamic .add a b).bind ih

theorem reply_keeps {onFocus : Bool} {Err : Error → Prop} {a : AtomicValue} (ha : T a.resultType) :
    (reply a).Keeps onFocus Err (Reply.IsOne T) :=
  ⟨a, rfl, ha⟩

section

variable {onFocus : Bool} {Err : Error → Prop} (hErr : ∀ e : Error, e.isStatic = false → Err e)

include hErr

theorem dynamic_keeps {α : Type} {r : Except Error α} (hr : Dynamic r) : (ofExcept r).Keeps onFocus Err fun _ => True :=
  keeps_ofExcept fun e he => hErr e (hr e he)

theorem optionalAtomic_keeps (what : String) (arg : Nat) : (optionalAtomic what arg).Keeps onFocus Err fun _ => True :=
  (keeps_firstItems arg 2).bind fun items _ => dynamic_keeps hErr (atomizeOptional_dynamic what items)

theorem stringArgument_keeps (what : String) (arg : Nat) : (stringArgument what arg).Keeps onFocus Err fun _ => True :=
  (optionalAtomic_keeps hErr what arg).bind fun _ _ => trivial

theorem concatFrom_keeps : ∀ n arg, (concatFrom n arg).Keeps onFocus Err fun _ => True
  | 0, _ => trivial
  | n + 1, arg =>
    (stringArgument_keeps hErr "fn:concat" arg).bind fun _ _ =>
      (concatFrom_keeps n (arg + 1)).bind fun _ _ => trivial

theorem nodeName_keeps (hT : T .atomic) (localOnly : Bool) (item : Option Item) :
    (nodeName localOnly item).Keeps onFocus Err (Reply.IsOne T) := by
  match item with
  | none | some (.node n) => exact reply_keeps hT
  | some (.atomic a) => exact hErr _ (Error.isStatic_format .XPTY0004 _)

theorem string_keeps (hT : T .atomic) : string.Keeps onFocus Err (Reply.IsOne T) := by
  refine (keeps_firstItems 0 2).bind ?_
  rintro items -
  match items with
  | [] | [item] => exact reply_keeps hT
  | _ :: _ :: _ => exact hErr _ rfl

theorem name_keeps (hT : T .atomic) (localOnly : Bool) : (name localOnly).Keeps onFocus Err (Reply.IsOne T) := by
  refine (keeps_firstItems 0 2).bind ?_
  rintro items -
  match items with
  | [] | [item] => exact nodeName_keeps hErr hT _ _
  | _ :: _ :: _ => exact hErr _ rfl

/-- Every core function replies with one value, of its declared category unless it is the sum, or fails with an
error that is not static, and asks for the focus only if its entry says so. -/
theorem table_keeps : ∀ entry ∈ table, ∀ call, (entry.2.body call).Keeps entry.2.contextSensitive Err
    (Reply.IsOne fun t => t = entry.2.returnType ∨ entry.1 = "sum") := by
  have hbound : ∀ {α : Type} {b : Bool} {s : Script α} {T : ResultType → Prop} (f : α → AtomicValue),
      (∀ a, T (f a).resultType) → s.Keeps b Err (fun _ => True) →
        (s >>= fun a => reply (f a)).Keeps b Err (Reply.IsOne T) := by
    intro α b s T f hT hs
    exact hs.bind fun a _ => reply_keeps (hT a)
  have htruth : ∀ {T : ResultType → Prop} (f : Bool → AtomicValue) (limit : Nat), (∀ a, T (f a).resultType) →
      Script.Keeps false Err (Reply.IsOne T) (do
        reply (f (← ofExcept (effectiveBoolean (← firstItems 0 limit))))) := by
    intro T f limit hT
    exact (keeps_firstItems 0 limit).bind fun items _ =>
      hbound f hT (dynamic_keeps hErr (effectiveBoolean_dynamic items))
  have hcontext : requireContext.Keeps true Err fun _ => True := keeps_requireContext (hErr _ rfl)
  intro entry hentry call
  simp only [table, List.mem_cons, List.not_mem_nil, or_false] at hentry
  rcases hentry with rfl | rfl | rfl | rfl | rfl | rfl | rfl | rfl | rfl | rfl | rfl | rfl | rfl | rfl |
    rfl | rfl | rfl | rfl | rfl | rfl | rfl
  · exact hcontext.bind fun _ _ => ⟨rfl, fun n => reply_keeps (.inl rfl)⟩
  · exact hbound _ (fun _ => .inl rfl) keeps_groupSize
  · exact hbound _ (fun _ => .inl rfl) (keeps_allItems 0)
  · exact reply_keeps (.inl rfl)
  · exact reply_keeps (.inl rfl)
  · exact htruth _ 2 fun _ => .inl rfl
  · exact htruth _ 2 fun _ => .inl rfl
  · exact hbound _ (fun _ => .inl rfl) (keeps_firstItems 0 1)
  · exact hbound _ (fun _ => .inl rfl) (keeps_firstItems 0 1)
  · exact hbound _ (fun _ => .inl rfl) hcontext
  · exact string_keeps hErr (.inl rfl)
  · exact hbound _ (fun _ => .inl rfl) hcontext
  · exact hbound _ (fun _ => .inl rfl) (optionalAtomic_keeps hErr _ 0)
  · exact hbound _ (fun _ => .inl rfl) hcontext
  · exact hbound _ (fun _ => .inl rfl) (stringArgument_keeps hErr _ 0)
  · exact hcontext.bind fun item _ => nodeName_keeps hErr (.inl rfl) false (some item)
  · exact name_keeps hErr (.inl rfl) false
  · exact hcontext.bind fun item _ => nodeName_keeps hErr (.inl rfl) true (some item)
  · exact name_keeps hErr (.inl rfl) true
  · exact hbound _ (fun _ => .inl rfl) (concatFrom_keeps hErr _ 0)
  · exact (keeps_allItems 0).bind fun _ _ => hbound _ (fun _ => .inr rfl) (dynamic_keeps hErr (total_dynamic _))

end

theorem table_keepsReply (entry : String × FunctionEntry) (hentry : entry ∈ table) : entry.2.KeepsReply :=
  fun call => (table_keeps (fun _ _ => trivial) entry hentry call).keepsReply []

/-- The replies of the standard functions are sound. -/
theorem standard_sound (hatomics : ∀ a, Ok (.atomic a)) (hf : StaticContext.standard.Callable f)
    (call : CallSite) : (f.body call).Sound Ok := by
  have hall : coreFunctions.All fun _ f => ∀ call, (f.body call).Sound Ok :=
    registry_all fun entry hentry call => (table_keeps (fun _ _ => trivial) entry hentry call).sound hatomics
  exact hf.of_all hall call

theorem standard_keepsReply_grows (hf : StaticContext.standard.Callable f) : f.KeepsReply ∧ f.Grows := by
  have hall : coreFunctions.All fun _ f => f.KeepsReply ∧ f.Grows :=
    registry_all fun entry hentry => ⟨table_keepsReply entry hentry, table_grows entry hentry⟩
  exact hf.of_all hall

/-- The standard functions ignore the focus unless their entries say otherwise. -/
theorem standard_honest (hf : StaticContext.standard.Callable f) : f.Honest := by
  have hall : coreFunctions.All fun _ => FunctionEntry.Honest := by
    refine registry_all fun entry hentry hflag call => ?_
    have hkeeps := table_keeps (fun _ _ => trivial) entry hentry call
    rw [hflag] at hkeeps
    exact hkeeps.blind.ignoresFocus
  exact hf.of_all hall

theorem standard_callable (f : FunctionEntry) (hf : StaticContext.standard.Callable f) :
    f.KeepsReply ∧ f.Grows ∧ f.Honest :=
  ⟨(standard_keepsReply_grows hf).1, (standard_keepsReply_grows hf).2, standard_honest hf⟩

end CoreFunction

namespace HostFunction

theorem first_keepsReply (call : CallSite) : (first call).KeepsReply [] := by
  unfold first
  split
  · trivial
  · exact List.not_mem_nil

theorem zip_keepsReply (call : CallSite) : (zip call).KeepsReply [] := by
  refine Script.KeepsReply.bind ?_ _ []
  exact fun _ _ => trivial

/-- The standard context with a function that pulls its arguments in turns and one that hands its first
argument back. -/
def context : StaticContext :=
  { StaticContext.standard with
    functions := (coreFunctions.register (.unqualified "zip") ⟨0, none, false, .any, zip⟩).register
      (.unqualified "first") ⟨0, none, false, .any, first⟩ }

theorem context_keepsReply (hf : context.Callable f) : f.KeepsReply := by
  have hcore : coreFunctions.All fun _ => FunctionEntry.KeepsReply :=
    CoreFunction.registry_all CoreFunction.table_keepsReply
  have hzip : FunctionEntry.KeepsReply ⟨0, none, false, .any, zip⟩ := zip_keepsReply
  have hfirst : FunctionEntry.KeepsReply ⟨0, none, false, .any, first⟩ := first_keepsReply
  exact hf.of_all ((hcore.register hzip).register hfirst)

end HostFunction

end XPath
