import XPath.Proofs.DynamicErrors
import XPath.Proofs.Wandering

/-!
# Loops over related cursors

Every loop of the machine pulls a cursor until something happens. The lemmas here compare such a loop on
two machines: if single pulls keep up (`KeepsUp`), so does the loop. What relates the cursors is left
open. It may mention the stores, since what a cursor delivers can depend on slots.

`Ok` is a property that the delivered items have on both sides, for comparisons that are about the items
and not only about their equality.
-/

namespace XPath

variable {n : Nat} {E : Store → Store → Prop}

abbrev CursorRel := Cursor → Store → Cursor → Store → Prop

def FuelLe (lax : Prop) (n n' : Nat) : Prop :=
  n = n' ∨ lax ∧ n ≤ n'

theorem FuelLe.pred (h : FuelLe lax (n + 1) (n' + 1)) : FuelLe lax n n' := by
  rcases h with h | ⟨hl, h⟩
  · exact .inl (by omega)
  · exact .inr ⟨hl, by omega⟩

theorem FuelLe.not_succ_zero (h : FuelLe lax (n + 1) 0) : False := by
  rcases h with h | ⟨-, h⟩ <;> omega

theorem FuelLe.lax_of_zero (h : FuelLe lax 0 (n + 1)) : lax := by
  rcases h with h | ⟨hl, -⟩
  · omega
  · exact hl

/-- Both bounds go down together until the left one is reached. -/
theorem FuelLe.induct {motive : ∀ n n', FuelLe lax n n' → Prop} (out : motive 0 0 (.inl rfl))
    (left : ∀ n' h, lax → motive 0 n' h)
    (step : ∀ n n' h h', motive n n' h → motive (n + 1) (n' + 1) h') (h : FuelLe lax n n') : motive n n' h := by
  induction n generalizing n' with
  | zero =>
    cases n' with
    | zero => exact out
    | succ n' => exact left _ _ h.lax_of_zero
  | succ n ih =>
    cases n' with
    | zero => exact h.not_succ_zero.elim
    | succ n' => exact step n n' h.pred h (ih h.pred)

/-- What a pull may deliver, and how it may fail. -/
def Law.Allows (L : Law) (Ok : Item → Prop) (x : Pulled) : Prop :=
  (∀ i, x.1.current = some i → Ok i) ∧ ∀ e, x.2 = .error e → L.Err e

theorem Law.allows_free {lax : Prop} : (Law.free lax).Allows (fun _ => True) x :=
  ⟨fun _ _ => trivial, fun _ _ => trivial⟩

structure Pulls (L : Law) (Ok : Item → Prop) (J : CursorRel) (x : Pulled) (s : Store) (y : Pulled) (t : Store) :
    Prop where
  outcome : x.2 = y.2
  current : x.1.current = y.1.current
  position : x.1.position = y.1.position
  allowed : L.Allows Ok x
  rel : J x.1 s y.1 t

def KeepsUp (L : Law) (Ok : Item → Prop) (J : CursorRel) (m m' : Calls) : Prop :=
  ∀ c s d t, J c s d t → Related L.lax (Pulls L Ok J) (m.next c s) (m'.next d t)

def Fulfils {α : Type} (Err : Error → Prop) (Q : α → Prop) : Except Error α → Prop
  | .ok a => Q a
  | .error e => Err e

theorem Fulfils.error (h : Fulfils Err Q r) : ∀ e, r = .error e → Err e := by
  rintro e rfl
  exact h

theorem Fulfils.value (h : Fulfils Err Q r) (hr : r = .ok a) : Q a := by
  subst hr
  exact h

theorem Law.fulfils (L : Law) (h : Dynamic r) : Fulfils L.Err (fun a => r = .ok a) r := by
  cases r with
  | ok a => rfl
  | error e => exact L.dynamic e (h e rfl)

theorem Law.allows (L : Law) (h : Dynamic r) : ∀ e, r = .error e → L.Err e :=
  (L.fulfils h).error

/-- Two loops over walks side by side. `I` relates the sources and `S` is what is known of the walks. -/
theorem Wander.related (ω : Wander) {m m' : Calls} {I : CursorRel} {S : ω.W → Prop}
    {Q : Pulled → Store → Pulled → Store → Prop}
    (found : ∀ {c s d t w n w' pos}, I c s d t → S w → ω.step w = some (n, w') →
      Q (ω.wrap c w' (some n) (pos + 1) false, .ok true) s (ω.wrap d w' (some n) (pos + 1) false, .ok true) t)
    (pulled : ∀ {c s d t} pos, I c s d t → Related lax
      (fun x s y t => x.2 = y.2 ∧ x.1.current = y.1.current ∧
        (∀ n, x.1.current = some (.node n) → I x.1 s y.1 t ∧ S (ω.start n)) ∧
        ∀ r, r ≠ .ok true → r = x.2 ∨ r = .error ω.err →
          Q (ω.wrap x.1 ω.stop none pos true, r) s (ω.wrap y.1 ω.stop none pos true, r) t)
      (m.next c s) (m'.next d t))
    {n' : Nat} {c d : Cursor} {s t : Store} {w : ω.W} {pos : Nat} (hn : FuelLe lax n n') (hI : I c s d t)
    (hS : S w) : Related lax Q (ω.next m n c w pos s) (ω.next m' n' d w pos t) := by
  have hfound : ∀ {n n' c d s t w y pos}, I c s d t → S w → ω.step w = some y →
      Related lax Q (ω.next m n c w pos s) (ω.next m' n' d w pos t) := by
    intro n n' c d s t w y pos hI hS hw
    rw [ω.found hw, ω.found hw]
    exact .both (found hI hS hw)
  induction hn using FuelLe.induct generalizing c d s t w pos with
  | out =>
    cases hw : ω.step w with
    | some y => exact hfound hI hS hw
    | none =>
      rw [ω.exhausted hw, ω.exhausted hw]
      exact .neither
  | left _ _ hlax =>
    cases hw : ω.step w with
    | some y => exact hfound hI hS hw
    | none =>
      rw [ω.exhausted hw]
      exact .left hlax
  | step n n' _ _ ih =>
    cases hw : ω.step w with
    | some y => exact hfound hI hS hw
    | none =>
      rw [ω.pulled hw, ω.pulled hw]
      have hpulled := pulled pos hI
      generalize m.next c s = x at hpulled ⊢
      generalize m'.next d t = y at hpulled ⊢
      cases hpulled with
      | neither => exact .neither
      | left hlax => exact .left hlax
      | @both x s y t hxy =>
        obtain ⟨c, r⟩ := x
        obtain ⟨d, _⟩ := y
        obtain ⟨rfl, hcur, hgo, hover⟩ := hxy
        match r with
        | .ok true =>
          dsimp only [Option.bind_some] at hcur hgo hover ⊢
          rw [← hcur]
          match hc : c.current with
          | some (.node k) =>
            obtain ⟨hI, hS⟩ := hgo k hc
            exact ih hI hS
          | some (.atomic a) | none => exact .both (hover _ nofun (.inr rfl))
        | .ok false | .error e => exact .both (hover _ nofun (.inl rfl))

section Reading

variable {L : Law} {Ok : Item → Prop} {J : CursorRel} {m m' : Calls} {s t : Store} {c d : Cursor}

/-- Equal items, all of them sound, and cursors that are still related. -/
def Read (L : Law) (Ok : Item → Prop) (J : CursorRel) (x : Cursor × Except Error (List Item)) (s : Store)
    (y : Cursor × Except Error (List Item)) (t : Store) : Prop :=
  x.2 = y.2 ∧ Fulfils L.Err (∀ i ∈ ·, Ok i) x.2 ∧ J x.1 s y.1 t

theorem mem_currentItems (hc : ∀ i, c.current = some i → Ok i)
    (hacc : ∀ i ∈ acc, Ok i) : ∀ i ∈ c.current.toList ++ acc, Ok i := by
  intro i hi
  rcases List.mem_append.mp hi with h | h
  · exact hc i (Option.mem_toList.mp h)
  · exact hacc i h

section

variable (hm : KeepsUp L Ok J m m')

include hm

theorem drainFrom_related {acc : List Item} (hn : FuelLe L.lax n n') (hJ : J c s d t)
    (hacc : ∀ i ∈ acc, Ok i) : Related L.lax (Read L Ok J) (m.drainFrom n c acc s) (m'.drainFrom n' d acc t) := by
  induction hn using FuelLe.induct generalizing c d s t acc with
  | out => exact .neither
  | left _ _ h => exact .left h
  | step n n' _ _ ih =>
    refine Related.bind (hm c s d t hJ) ?_
    rintro ⟨c, r⟩ s ⟨d, r'⟩ t ⟨rfl, hcur, hpos, hok, hJ⟩
    match r with
    | .ok true =>
      dsimp only at hcur ⊢
      rw [← hcur]
      exact ih hJ (mem_currentItems hok.1 hacc)
    | .ok false => exact .both ⟨rfl, fun i hi => hacc i (List.mem_reverse.mp hi), hJ⟩
    | .error e => exact .both ⟨rfl, hok.2 e rfl, hJ⟩

theorem takeFrom_related (limit : Nat) {acc : List Item} (hn : FuelLe L.lax n n') (hJ : J c s d t)
    (hacc : ∀ i ∈ acc, Ok i) :
    Related L.lax (Read L Ok J) (m.takeFrom limit n c acc s) (m'.takeFrom limit n' d acc t) := by
  induction hn using FuelLe.induct generalizing c d s t acc with
  | out => exact .neither
  | left _ _ h => exact .left h
  | step n n' _ _ ih =>
    have hrev : Fulfils L.Err (∀ i ∈ ·, Ok i) (.ok acc.reverse) := fun i hi => hacc i (List.mem_reverse.mp hi)
    simp only [Calls.takeFrom]
    split
    · exact .both ⟨rfl, hrev, hJ⟩
    · refine Related.bind (hm c s d t hJ) ?_
      rintro ⟨c, r⟩ s ⟨d, r'⟩ t ⟨rfl, hcur, hpos, hok, hJ⟩
      match r with
      | .ok true =>
        rw [← hcur]
        exact ih hJ (mem_currentItems hok.1 hacc)
      | .ok false => exact .both ⟨rfl, hrev, hJ⟩
      | .error e => exact .both ⟨rfl, hok.2 e rfl, hJ⟩

theorem firstTwo_related (hE : ∀ c s d t, J c s d t → E s t) (hn : FuelLe L.lax m.fuel m'.fuel) (hJ : J c s d t) :
    RelatedEval L (Sure (∀ i ∈ ·, Ok i) E) E (m.firstTwo c) (m'.firstTwo d) s t := by
  refine .bind (.lift (takeFrom_related hm 2 hn hJ nofun)) ?_
  rintro ⟨c, r⟩ s ⟨d, r'⟩ t ⟨rfl, hok, hJ⟩
  exact .except hok.error (hE _ _ _ _ hJ) fun items hr => ⟨⟨rfl, hok.value hr⟩, hE _ _ _ _ hJ⟩

theorem drain_related (hE : ∀ c s d t, J c s d t → E s t) (hn : FuelLe L.lax m.fuel m'.fuel) (hJ : J c s d t) :
    RelatedEval L (Sure (∀ i ∈ ·, Ok i) E) E (m.drain c) (m'.drain d) s t := by
  refine .bind (.lift (drainFrom_related hm hn hJ nofun)) ?_
  rintro ⟨c, r⟩ s ⟨d, r'⟩ t ⟨rfl, hok, hJ⟩
  exact .except hok.error (hE _ _ _ _ hJ) fun items hr => ⟨⟨rfl, hok.value hr⟩, hE _ _ _ _ hJ⟩

theorem skip_related (hE : ∀ c s d t, J c s d t → E s t) (hJ : J c s d t) :
    RelatedEval L J E (m.skip n c) (m'.skip n d) s t := by
  induction n generalizing c d s t with
  | zero => exact .pure hJ
  | succ n ih =>
    refine .bind (.lift (hm c s d t hJ)) ?_
    rintro ⟨c, r⟩ s ⟨d, r'⟩ t ⟨rfl, -, -, hok, hJ⟩
    match r with
    | .ok true => exact ih hJ
    | .ok false => exact .pure hJ
    | .error e => exact .throw (hok.2 e rfl) (hE _ _ _ _ hJ)

theorem countGroup_related (hE : ∀ c s d t, J c s d t → E s t) (hn : FuelLe L.lax n n')
    (hJ : J c s d t) : RelatedEval L (Same E) E (m.countGroup n c last) (m'.countGroup n' d last) s t := by
  induction hn using FuelLe.induct generalizing c d s t last with
  | out => exact .outOfFuel
  | left _ _ h => exact Related.left h
  | step n n' _ _ ih =>
    refine .bind (.lift (hm c s d t hJ)) ?_
    rintro ⟨c, r⟩ s ⟨d, r'⟩ t ⟨rfl, hcur, hpos, hok, hJ⟩
    match r with
    | .ok true =>
      change RelatedEval _ _ _ (if c.position ≤ last then _ else _)
        (if d.position ≤ last then _ else _) s t
      rw [← hpos]
      split
      · exact .pure ⟨rfl, hE _ _ _ _ hJ⟩
      · exact ih hJ
    | .ok false => exact .pure ⟨rfl, hE _ _ _ _ hJ⟩
    | .error e => exact .throw (hok.2 e rfl) (hE _ _ _ _ hJ)

structure CacheRel (L : Law) (Ok : Item → Prop) (J : CursorRel) (E : Store → Store → Prop) (x : Cache)
    (s : Store) (y : Cache) (t : Store) : Prop where
  items : x.items = y.items
  error : x.error = y.error
  sound : ∀ i ∈ x.items, Ok i
  lawful : ∀ e, x.error = some e → L.Err e
  source : match x.source, y.source with
    | some c, some d => J c s d t
    | none, none => E s t
    | _, _ => False

omit hm in
theorem CacheRel.stores (hE : ∀ c s d t, J c s d t → E s t) (h : CacheRel L Ok J E x s y t) : E s t := by
  obtain ⟨source, items, error⟩ := x
  obtain ⟨source', items', error'⟩ := y
  match source, source', h.source with
  | none, none, hs => exact hs
  | some c, some d, hs => exact hE _ _ _ _ hs

def Fetched (L : Law) (Ok : Item → Prop) (J : CursorRel) (E : Store → Store → Prop)
    (x : Cache × Except Error (Option Item)) (s : Store) (y : Cache × Except Error (Option Item)) (t : Store) : Prop :=
  x.2 = y.2 ∧ Fulfils L.Err (∀ i, · = some i → Ok i) x.2 ∧ CacheRel L Ok J E x.1 s y.1 t

theorem fetch_related (hE : ∀ c s d t, J c s d t → E s t) {x y : Cache} (hn : FuelLe L.lax n n')
    (hJ : CacheRel L Ok J E x s y t) : Related L.lax (Fetched L Ok J E) (m.fetch i n x s) (m'.fetch i n' y t) := by
  induction hn using FuelLe.induct generalizing x y s t with
  | out => exact .neither
  | left _ _ h => exact .left h
  | step n n' _ _ ih =>
    obtain ⟨source, items, error⟩ := x
    obtain ⟨source', items', error'⟩ := y
    obtain ⟨hitems, herror, hok, herr, hsource⟩ := hJ
    obtain rfl : items = items' := hitems
    obtain rfl : error = error' := herror
    unfold Calls.fetch
    cases hi : items[i]? with
    | some item =>
      refine .both ⟨rfl, ?_, rfl, rfl, hok, herr, hsource⟩
      rintro _ ⟨⟩
      exact hok _ (Array.mem_of_getElem? hi)
    | none =>
      cases error with
      | some e => exact .both ⟨rfl, herr e rfl, rfl, rfl, hok, herr, hsource⟩
      | none =>
        match source, source', hsource with
        | none, none, hE' => exact .both ⟨rfl, nofun, rfl, rfl, hok, herr, hE'⟩
        | some c, some d, hJ =>
          refine Related.bind (hm c s d t hJ) ?_
          rintro ⟨c, r⟩ s ⟨d, r'⟩ t ⟨rfl, hcur, -, hok', hJ⟩
          match r with
          | .ok true =>
            dsimp only at hcur ⊢
            rw [← hcur]
            refine ih ⟨rfl, rfl, ?_, herr, hJ⟩
            intro j hj
            have hj : j ∈ items ∨ c.current = some j := by
              rw [← Array.mem_toList_iff, Array.toList_appendList] at hj
              simpa using hj
            rcases hj with h | h
            · exact hok j h
            · exact hok'.1 j h
          | .ok false => exact ih ⟨rfl, rfl, hok, herr, hE _ _ _ _ hJ⟩
          | .error e =>
            have he := hok'.2 e rfl
            refine .both ⟨rfl, he, rfl, rfl, hok, ?_, hE _ _ _ _ hJ⟩
            rintro _ ⟨⟩
            exact he

end

end Reading

end XPath
