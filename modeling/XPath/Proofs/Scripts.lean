import XPath.Proofs.Forms

/-!
# Scripts of functions side by side

A function sees the machine only through the answers to its requests. If every request is answered alike
on two machines, so is the call. Four properties of scripts matter: what a script with a larger bound on
its loops may do differently (`Extends`), whether the items it replies with are sound (`Sound`), whether
an argument that it returns has been left alone (`KeepsReply`), and whether the focus makes a difference
to it (`IgnoresFocus`), which it does not if the script never asks for it (`Blind`).
-/

namespace XPath

open Array

namespace Script

/-- The right script does what the left one does. Where the left one gives up, a lax comparison allows
anything. -/
inductive Extends {α : Type} (lax : Prop) : Script α → Script α → Prop
  | done (a : α) : Extends lax (.done a) (.done a)
  | raise (e : Error) : Extends lax (.raise e) (.raise e)
  | exhausted : Extends lax .exhausted .exhausted
  | gaveUp (h : lax) (s : Script α) : Extends lax .exhausted s
  | advance (i : Nat) {k k' : Except Error Bool → Script α} (h : ∀ r, Extends lax (k r) (k' r)) :
      Extends lax (.advance i k) (.advance i k')
  | current (i : Nat) {k k' : Option Item → Script α} (h : ∀ r, Extends lax (k r) (k' r)) :
      Extends lax (.current i k) (.current i k')
  | take (i limit : Nat) {k k' : Except Error (List Item) → Script α}
      (h : ∀ r, Extends lax (k r) (k' r)) : Extends lax (.take i limit k) (.take i limit k')
  | drain (i : Nat) {k k' : Except Error (List Item) → Script α}
      (h : ∀ r, Extends lax (k r) (k' r)) : Extends lax (.drain i k) (.drain i k')
  | fork (i : Nat) {k k' : Nat → Script α} (h : ∀ r, Extends lax (k r) (k' r)) :
      Extends lax (.fork i k) (.fork i k')
  | contextItem {k k' : Option Item → Script α} (h : ∀ r, Extends lax (k r) (k' r)) :
      Extends lax (.contextItem k) (.contextItem k')
  | position {k k' : Nat → Script α} (h : ∀ r, Extends lax (k r) (k' r)) :
      Extends lax (.position k) (.position k')
  | last {k k' : Except Error Nat → Script α} (h : ∀ r, Extends lax (k r) (k' r)) :
      Extends lax (.last k) (.last k')

theorem Extends.refl {α : Type} (lax : Prop) (s : Script α) : Extends lax s s := by
  induction s with
  | done a => exact .done a
  | raise e => exact .raise e
  | exhausted => exact .exhausted
  | advance i k ih => exact .advance i ih
  | current i k ih => exact .current i ih
  | take i limit k ih => exact .take i limit ih
  | drain i k ih => exact .drain i ih
  | fork i k ih => exact .fork i ih
  | contextItem k ih => exact .contextItem ih
  | position k ih => exact .position ih
  | last k ih => exact .last ih

/-- The items of the reply are sound if those that the script is given are. -/
def Sound (Ok : Item → Prop) : Script Reply → Prop
  | .done (.items items) => ∀ i ∈ items, Ok i
  | .done (.argument _) | .raise _ | .exhausted => True
  | .advance _ k => ∀ r, (k r).Sound Ok
  | .current _ k | .contextItem k => ∀ r, (∀ i, r = some i → Ok i) → (k r).Sound Ok
  | .take _ _ k | .drain _ k => ∀ r, (∀ items, r = .ok items → ∀ i ∈ items, Ok i) → (k r).Sound Ok
  | .fork _ k | .position k | .last k => ∀ r, (k r).Sound Ok

theorem sound_true (s : Script Reply) : s.Sound fun _ => True := by
  induction s with
  | done a =>
    cases a with
    | items items => exact fun _ _ => trivial
    | argument i => trivial
  | raise e | exhausted => trivial
  | advance i k ih => exact ih
  | current i k ih | take i limit k ih | drain i k ih => exact fun r _ => ih r
  | fork i k ih => exact ih
  | contextItem k ih => exact fun r _ => ih r
  | position k ih | last k ih => exact ih

/-- The reply is items or one of the arguments, as long as nothing has been pulled from it. `pulled` are the
arguments from which something has been pulled, and the forks. -/
def KeepsReply (pulled : List Nat) : Script Reply → Prop
  | .done (.argument i) => i ∉ pulled
  | .done (.items _) | .raise _ | .exhausted => True
  | .advance i k | .take i _ k | .drain i k => ∀ r, (k r).KeepsReply (i :: pulled)
  | .current _ k | .contextItem k => ∀ r, (k r).KeepsReply pulled
  | .fork _ k => ∀ i, (k i).KeepsReply (i :: pulled)
  | .position k | .last k => ∀ r, (k r).KeepsReply pulled

/-- The script never asks for the focus. -/
def Blind : Script Reply → Prop
  | .contextItem _ | .position _ | .last _ => False
  | .done _ | .raise _ | .exhausted => True
  | .advance _ k | .current _ k | .take _ _ k | .drain _ k | .fork _ k => ∀ r, (k r).Blind

end Script

/-- The focus makes no difference to the script. -/
def Script.IgnoresFocus (script : Script Reply) : Prop :=
  ∀ (m : Calls) (focus focus' : Focus) (args : Array Cursor),
    m.runScript focus script args = m.runScript focus' script args

/-- A script that never asks for the focus ignores it. -/
theorem Script.Blind.ignoresFocus {script : Script Reply} (h : script.Blind) : script.IgnoresFocus := by
  intro m focus focus' args
  induction script generalizing args with
  | done a => cases a <;> rfl
  | raise e | exhausted => rfl
  | advance i k ih =>
    exact congrArg _ (funext fun x => ih _ (h _) _)
  | current i k ih =>
    exact ih _ (h _) args
  | take i limit k ih | drain i k ih | fork i k ih =>
    exact congrArg _ (funext fun x => ih _ (h _) _)
  | contextItem k ih | position k ih | last k ih => exact h.elim

/-- A reply of items that are as they should be; nothing is known of an argument that is handed back. -/
def Reply.Of (V : Item → Prop) : Reply → Prop
  | .items values => ∀ i ∈ values, V i
  | .argument _ => ∀ i, V i

/-- Whatever is answered to its requests, the script ends as it should, given that what it is answered fails only as
it may. -/
def Script.Ends {α : Type} (Err : Error → Prop) (Q : α → Prop) : Script α → Prop
  | .done a => Q a
  | .raise e => Err e
  | .exhausted => True
  | .advance _ k | .take _ _ k | .drain _ k => ∀ r, (∀ e, r = .error e → Err e) → (k r).Ends Err Q
  | .current _ k | .contextItem k | .fork _ k | .position k => ∀ r, (k r).Ends Err Q
  | .last k => ∀ r, (∀ e, r = .error e → Err e) → (k r).Ends Err Q

theorem Script.Ends.mono {P Q : α → Prop} {s : Script α} (h : s.Ends Err P) (hQ : ∀ a, P a → Q a) : s.Ends Err Q := by
  induction s with
  | done a => exact hQ a h
  | raise e => exact h
  | exhausted => trivial
  | advance i k ih => exact fun r hr => ih r (h r hr)
  | current i k ih => exact fun r => ih r (h r)
  | take i limit k ih | drain i k ih => exact fun r hr => ih r (h r hr)
  | fork i k ih | contextItem k ih | position k ih => exact fun r => ih r (h r)
  | last k ih => exact fun r hr => ih r (h r hr)

/-- Where every item and every error may occur, scripts end as they should. -/
theorem Script.ends_of_free {V : Item → Prop} (herr : ∀ e, Err e) (hV : ∀ i, V i) (s : Script Reply) :
    s.Ends Err (Reply.Of V) := by
  induction s with
  | done a =>
    cases a with
    | items values => exact fun i _ => hV i
    | argument i => exact hV
  | raise e => exact herr e
  | exhausted => trivial
  | advance i k ih | take i limit k ih | drain i k ih | last k ih => exact fun r _ => ih r
  | current i k ih | fork i k ih | contextItem k ih | position k ih => exact ih

variable {L : Law} {strict : Prop} {Ok V : Item → Prop} {F : Cursor → Cursor → Prop} {E : Store → Store → Prop}
  {Fresh : Nat → Cursor → Cursor → Prop} {Live : Nat → CursorRel} {m m' : Calls} {focus focus' : Focus}

/-- Related stores, in which the arguments of `P` are as they have been. -/
def Undisturbed (E : Store → Store → Prop) (Live : Nat → CursorRel) (P : Nat → Prop) (s t s' t' : Store) : Prop :=
  E s' t' ∧ ∀ j a b, P j → Live j a s b t → Live j a s' b t'

/-- One argument while the script pulls it. -/
def DrawnFrom (E : Store → Store → Prop) (Live : Nat → CursorRel) (i : Nat) (s t : Store) : CursorRel :=
  fun c s' d t' => Live i c s' d t' ∧ Undisturbed E Live (· ≠ i) s t s' t'

/-- The arguments of a call on two machines, some of which have been pulled. -/
structure Argued (E : Store → Store → Prop) (Fresh : Nat → Cursor → Cursor → Prop) (Live : Nat → CursorRel)
    (pulled : List Nat) (args : Array Cursor) (s : Store) (args' : Array Cursor) (t : Store) : Prop where
  stores : E s t
  size : args.size = args'.size
  fresh : ∀ (i : Nat) c d, args[i]? = some c → args'[i]? = some d → i ∉ pulled → Fresh i c d
  live : ∀ (i : Nat) c d, args[i]? = some c → args'[i]? = some d → Live i c s d t

/-- The requests of a script are answered alike. A number that no argument has stands for the empty sequence. -/
structure Answers (L : Law) (strict : Prop) (Ok V : Item → Prop) (F : Cursor → Cursor → Prop)
    (E : Store → Store → Prop) (Fresh : Nat → Cursor → Cursor → Prop) (Live : Nat → CursorRel) (m m' : Calls)
    (focus focus' : Focus) : Prop where
  empty : ∀ i {s t}, E s t → Live i .empty s .empty t
  current : ∀ {i c s d t}, Live i c s d t →
    c.current = d.current ∧ ∀ item, c.current = some item → Ok item
  advance : ∀ {i c s d t}, E s t → Live i c s d t →
    Related L.lax (Pulls L Ok (DrawnFrom E Live i s t)) (m.next c s) (m'.next d t)
  fork : ∀ {i c s d t}, E s t → Live i c s d t →
    Related L.lax (fun c s' d t' => (∀ j, Live j c s' d t') ∧ Undisturbed E Live (fun _ => True) s t s' t')
      (m.clone c s) (m'.clone d t)
  last : ∀ {s t}, E s t → RelatedEval L (Same (Undisturbed E Live (fun _ => True) s t))
    (Undisturbed E Live (fun _ => True) s t) (m.last focus) (m'.last focus') s t
  reply : ∀ {i c s d t}, Live i c s d t → (strict → Fresh i c d) → (∀ i, V i) → F c d

section

variable {pulled : List Nat} {args args' : Array Cursor} {s t s' t' : Store} {c d : Cursor}

namespace Argued

variable (h : Argued E Fresh Live pulled args s args' t)

include h

theorem cases (i : Nat) : (args[i]? = none ∧ args'[i]? = none) ∨
    ∃ c d, args[i]? = some c ∧ args'[i]? = some d ∧ Live i c s d t := by
  by_cases hi : i < args.size
  · have hc := getElem?_eq_getElem hi
    have hd := getElem?_eq_getElem (h.size ▸ hi)
    exact .inr ⟨_, _, hc, hd, h.live i _ _ hc hd⟩
  · exact .inl ⟨getElem?_eq_none (by omega), getElem?_eq_none (by rw [← h.size]; omega)⟩

theorem set {i : Nat} (hcd : DrawnFrom E Live i s t c s' d t') :
    Argued E Fresh Live (i :: pulled) (args.setIfInBounds i c) s' (args'.setIfInBounds i d) t' := by
  obtain ⟨hlive, hE, hothers⟩ := hcd
  have hother : ∀ {j : Nat} {args : Array Cursor} {x c : Cursor}, j ≠ i →
      (args.setIfInBounds i x)[j]? = some c → args[j]? = some c := by
    intro j args x c hj hc
    rwa [getElem?_setIfInBounds_ne (Ne.symm hj)] at hc
  refine ⟨hE, ?_, ?_, ?_⟩
  · rw [size_setIfInBounds, size_setIfInBounds, h.size]
  · intro j c' d' hc hd hpulled
    rw [List.mem_cons, not_or] at hpulled
    exact h.fresh j c' d' (hother hpulled.1 hc) (hother hpulled.1 hd) hpulled.2
  · intro j c' d' hc hd
    by_cases hj : j = i
    · subst hj
      rw [getElem?_setIfInBounds_self] at hc hd
      obtain ⟨-, ⟨⟩⟩ := Option.ite_none_right_eq_some.mp hc
      obtain ⟨-, ⟨⟩⟩ := Option.ite_none_right_eq_some.mp hd
      exact hlive
    · exact hothers j c' d' hj (h.live j c' d' (hother hj hc) (hother hj hd))

theorem push (hcd : ∀ j, Live j c s' d t') (hothers : Undisturbed E Live (fun _ => True) s t s' t') :
    Argued E Fresh Live (args.size :: pulled) (args.push c) s' (args'.push d) t' := by
  refine ⟨hothers.1, ?_, ?_, ?_⟩
  · rw [size_push, size_push, h.size]
  · intro j c' d' hc hd hpulled
    rw [List.mem_cons, not_or] at hpulled
    rw [getElem?_push, if_neg hpulled.1] at hc
    rw [getElem?_push, if_neg (h.size ▸ hpulled.1)] at hd
    exact h.fresh j c' d' hc hd hpulled.2
  · intro j c' d' hc hd
    rw [getElem?_push] at hc hd
    rw [← h.size] at hd
    split at hc
    · rw [if_pos ‹_›] at hd
      cases hc
      cases hd
      exact hcd _
    · rw [if_neg ‹_›] at hd
      exact hothers.2 j c' d' trivial (h.live j c' d' hc hd)

theorem still (hothers : Undisturbed E Live (fun _ => True) s t s' t') : Argued E Fresh Live pulled args s' args' t' :=
  ⟨hothers.1, h.size, h.fresh, fun j c d hc hd => hothers.2 j c d trivial (h.live j c d hc hd)⟩

end Argued

theorem Argued.start {args args' : List Cursor} (hE : E s t) (hargs : Matched Fresh args args')
    (hlive : ∀ i c d, Fresh i c d → Live i c s d t) : Argued E Fresh Live [] args.toArray s args'.toArray t := by
  have hfresh : ∀ (i : Nat) c d, args.toArray[i]? = some c → args'.toArray[i]? = some d → Fresh i c d :=
    fun i c d hc hd => hargs.2 i c d (by simpa using hc) (by simpa using hd)
  exact ⟨hE, hargs.1, fun i c d hc hd _ => hfresh i c d hc hd, fun i c d hc hd => hlive i c d (hfresh i c d hc hd)⟩

namespace Answers

variable (h : Answers L strict Ok V F E Fresh Live m m' focus focus')

include h

theorem drawn (hA : Argued E Fresh Live pulled args s args' t) (i : Nat) :
    DrawnFrom E Live i s t ((args[i]?).getD .empty) s ((args'[i]?).getD .empty) t := by
  refine ⟨?_, hA.stores, fun _ _ _ _ h => h⟩
  rcases hA.cases i with ⟨hc, hd⟩ | ⟨c, d, hc, hd, hlive⟩ <;> rw [hc, hd]
  · exact h.empty i hA.stores
  · exact hlive

theorem keepsUp (i : Nat) : KeepsUp L Ok (DrawnFrom E Live i s t) m m' := by
  rintro c s₁ d t₁ ⟨hlive, hE, hothers⟩
  refine (h.advance hE hlive).mono ?_
  rintro x s₂ y t₂ ⟨hout, hcur, hpos, hok, hlive', hE', hothers'⟩
  exact ⟨hout, hcur, hpos, hok, hlive', hE', fun j a b hj h => hothers' j a b hj (hothers j a b hj h)⟩

end Answers

end

theorem runScript_related (h : Answers L strict Ok V F E Fresh Live m m' focus focus')
    (hfuel : FuelLe L.lax m.fuel m'.fuel) (hplain : ∀ c, Plain (fun i => Ok i ∧ V i) c → F c c)
    (hitem : focus.item? = focus'.item?) (hposition : focus.position = focus'.position)
    (hfocus : ∀ i, focus.item? = some i → Ok i) {script script' : Script Reply} (hext : script.Extends L.lax script') :
    ∀ {pulled : List Nat} {args args' : Array Cursor} {s t : Store}, script.Sound Ok →
      script.Ends L.Err (Reply.Of V) → (strict → script.KeepsReply pulled) →
      Argued E Fresh Live pulled args s args' t →
      RelatedEval L (Made F E) E (m.runScript focus script args) (m'.runScript focus' script' args') s t := by
  induction hext with
  | done a =>
    intro pulled args args' s t hs he hk hA
    cases a with
    | items items => exact .pure ⟨hplain _ (.items fun i hi => ⟨hs i hi, he i hi⟩), hA.stores⟩
    | argument i =>
      refine .pure ⟨?_, hA.stores⟩
      rcases hA.cases i with ⟨hc, hd⟩ | ⟨c, d, hc, hd, hlive⟩ <;> rw [hc, hd]
      · exact hplain _ .empty
      · exact h.reply hlive (fun hstrict => hA.fresh i c d hc hd (hk hstrict)) he
  | raise e =>
    intro pulled args args' s t hs he hk hA
    exact .throw he hA.stores
  | exhausted =>
    intro pulled args args' s t hs he hk hA
    exact .outOfFuel
  | gaveUp hl script' =>
    intro pulled args args' s t hs he hk hA
    exact Related.left hl
  | advance i hext ih =>
    intro pulled args args' s t hs he hk hA
    refine .bind (.lift (h.keepsUp i _ _ _ _ (h.drawn hA i))) ?_
    rintro ⟨c, r⟩ s ⟨d, r'⟩ t ⟨rfl, -, -, hok, hcd⟩
    exact ih r (hs r) (he r hok.2) (fun hstrict => hk hstrict r) (hA.set hcd)
  | current i hext ih =>
    intro pulled args args' s t hs he hk hA
    have hcur : (args[i]?).bind Cursor.current = (args'[i]?).bind Cursor.current ∧
        ∀ item, (args[i]?).bind Cursor.current = some item → Ok item := by
      rcases hA.cases i with ⟨hc, hd⟩ | ⟨c, d, hc, hd, hlive⟩ <;> rw [hc, hd]
      · exact ⟨rfl, nofun⟩
      · exact h.current hlive
    unfold Calls.runScript
    rw [← hcur.1]
    exact ih _ (hs _ hcur.2) (he _) (fun hstrict => hk hstrict _) hA
  | take i limit hext ih =>
    intro pulled args args' s t hs he hk hA
    refine .bind (.lift (takeFrom_related (h.keepsUp i) limit hfuel (h.drawn hA i) nofun)) ?_
    rintro ⟨c, r⟩ s ⟨d, r'⟩ t ⟨rfl, hok, hcd⟩
    exact ih r (hs r fun _ => hok.value) (he r hok.error) (fun hstrict => hk hstrict r) (hA.set hcd)
  | drain i hext ih =>
    intro pulled args args' s t hs he hk hA
    refine .bind (.lift (drainFrom_related (h.keepsUp i) hfuel (h.drawn hA i) nofun)) ?_
    rintro ⟨c, r⟩ s ⟨d, r'⟩ t ⟨rfl, hok, hcd⟩
    exact ih r (hs r fun _ => hok.value) (he r hok.error) (fun hstrict => hk hstrict r) (hA.set hcd)
  | fork i hext ih =>
    intro pulled args args' s t hs he hk hA
    refine .bind (.lift (h.fork hA.stores (h.drawn hA i).1)) ?_
    rintro c s d t ⟨hcd, hothers⟩
    rw [← hA.size]
    exact ih _ (hs _) (he _) (fun hstrict => hk hstrict _) (hA.push hcd hothers)
  | contextItem hext ih =>
    intro pulled args args' s t hs he hk hA
    unfold Calls.runScript
    rw [← hitem]
    exact ih _ (hs _ hfocus) (he _) (fun hstrict => hk hstrict _) hA
  | position hext ih =>
    intro pulled args args' s t hs he hk hA
    unfold Calls.runScript
    rw [← hposition]
    exact ih _ (hs _) (he _) (fun hstrict => hk hstrict _) hA
  | last hext ih =>
    intro pulled args args' s t hs he hk hA
    refine .bind (.lift (h.last hA.stores).run) ?_
    intro r s r' t hr
    obtain ⟨rfl, hothers, herr⟩ := hr.same
    exact ih _ (hs _) (he _ herr) (fun hstrict => hk hstrict _) (hA.still hothers)

end XPath
