import XPath.Proofs.SlotContracts
import XPath.Proofs.Sessions
import XPath.Proofs.PullOutcomes

/-!
# Handles of one cache

A cache keeps what it draws from its source, and any number of handles read it. They are pulled, reset and
copied in any order. What a handle delivers depends only on how often it has been pulled since it was made
or reset, where a copy takes over the count of the handle it was made from: it is what the source delivers
when it is pulled as often alone. `Drawn` records how a cache came about: every pull of the source but the
last one brought the next item, and after an end or an error there was no further pull.

The source may read other caches, but not its own one (`Cursor.Avoids`).
-/

namespace XPath

open List Option Array

variable {cache' : Cache} {st' : Store} {y : Cursor} {r : Except Error Bool} {N : Nat} {t' : Tally} {u : Act}
  {us : List Act}

/-! ## Uses of handles -/

namespace Session

inductive Act where
  | pull (i : Nat)
  | reset (i : Nat)
  | copy (i : Nat)

def Act.target : Act → Nat
  | .pull i | .reset i | .copy i => i

def act (s : Session) : Act → Option Session
  | .pull i => (s.next i).map (·.2)
  | .reset i => some (s.reset i)
  | .copy i => s.clone i

def acts (s : Session) : List Act → Option Session
  | [] => some s
  | u :: us => (s.act u).bind (·.acts us)

/-- How often each cursor has been pulled since it was made or reset, and the largest number of pulls that
one of them had at any time. -/
structure Tally where
  counts : List Nat
  peak : Nat

namespace Tally

def act (t : Tally) : Act → Option Tally
  | .pull i => (t.counts[i]?).map fun n => ⟨t.counts.set i (n + 1), max t.peak (n + 1)⟩
  | .reset i => (t.counts[i]?).map fun _ => ⟨t.counts.set i 0, t.peak⟩
  | .copy i => (t.counts[i]?).map fun n => ⟨t.counts ++ [n], t.peak⟩

def acts (t : Tally) : List Act → Option Tally
  | [] => some t
  | u :: us => (t.act u).bind (·.acts us)

end Tally

/-- The source alone, at the depth at which handles pull it. -/
def alone (s : Session) (c : Cursor) : Session :=
  { s with fuel := s.fuel - 1, cursors := #[c] }

/-- The session after so many pulls of its first cursor. -/
def after (s : Session) : Nat → Option Session
  | 0 => some s
  | k + 1 => (s.after k).bind fun s => (s.next 0).map (·.2)

end Session

/-- The cursor can be read without looking into a cache. -/
def Cursor.Avoids (caches : Array Cache) (id : Nat) (c : Cursor) : Prop :=
  ∃ Own : Nat → Prop, c.Within Own ∧ ¬ Own id ∧
    ∀ i cache x, Own i → caches[i]? = some cache → cache.source = some x → x.Within Own

/-- How a cache came about, by so many pulls of the source alone. -/
inductive Drawn (alone : Session) : Nat → Session → Cache → Prop
  | start {c : Cursor} (source : alone.cursors = #[c]) : Drawn alone 0 alone (.ofSource c)
  | item {k : Nat} {a b : Session} {cache : Cache} {x y : Cursor} {i : Item} (h : Drawn alone k a cache)
      (source : cache.source = some x) (pull : a.next 0 = some (.ok true, b))
      (cursor : b.cursors = #[y]) (current : y.current = some i) :
      Drawn alone (k + 1) b { cache with source := some y, items := cache.items.push i }
  | ended {k : Nat} {a b : Session} {cache : Cache} {x : Cursor} (h : Drawn alone k a cache)
      (source : cache.source = some x) (pull : a.next 0 = some (.ok false, b)) :
      Drawn alone (k + 1) b { cache with source := none }
  | failed {k : Nat} {a b : Session} {cache : Cache} {x : Cursor} {e : Error} (h : Drawn alone k a cache)
      (source : cache.source = some x) (pull : a.next 0 = some (.error e, b)) :
      Drawn alone (k + 1) b { cache with source := none, error := some e }

/-! ## What a cache knows -/

namespace Cache

def handle (id : Nat) (cache : Cache) (n : Nat) : Cursor :=
  if n ≤ cache.items.size then
    .buffered id n (if n = 0 then none else cache.items[n - 1]?) n false
  else .buffered id cache.items.size none cache.items.size true

/-- How the pull of a handle that has been pulled so often ends, if the source is not needed for it. -/
def outcomeAt (cache : Cache) (n : Nat) : Except Error Bool :=
  if n < cache.items.size then .ok true
  else
    match cache.error with
    | some e => if n = cache.items.size then .error e else .ok false
    | none => .ok false

/-- The source is not needed for the next pull of a handle that has been pulled so often. -/
def Knows (cache : Cache) (n : Nat) : Prop :=
  n < cache.items.size ∨ cache.source = none

theorem handle_zero (id : Nat) (cache : Cache) : cache.handle id 0 = .ofCache id := by
  simp [handle, Cursor.ofCache]

theorem reset_handle (id : Nat) (cache : Cache) (n : Nat) : (cache.handle id n).reset = .ofCache id := by
  unfold handle
  split <;> rfl

theorem outcomeAt_of_lt {cache : Cache} (h : cache.items.size < n) : cache.outcomeAt n = .ok false := by
  unfold outcomeAt
  rw [if_neg (by omega)]
  cases cache.error with
  | none => rfl
  | some e => exact if_neg (by omega)

theorem handle_congr {id n : Nat} {cache : Cache} (hle : n ≤ cache.items.size) (hle' : n ≤ cache'.items.size)
    (hitems : ∀ k, k < n → cache'.items[k]? = cache.items[k]?) : cache'.handle id n = cache.handle id n := by
  unfold handle
  rw [if_pos hle, if_pos hle']
  by_cases hn : n = 0
  · rw [if_pos hn, if_pos hn]
  · rw [if_neg hn, if_neg hn, hitems (n - 1) (by omega)]

end Cache

theorem setIfInBounds_of_getElem? {xs : Array α} {x : α} (h : xs[i]? = some x) : xs.setIfInBounds i x = xs := by
  refine ext_getElem? ?_
  intro j
  rw [getElem?_setIfInBounds]
  split
  · next hij =>
    subst hij
    rw [if_pos (Array.getElem?_eq_some_iff.mp h).1, h]
  · rfl

section

variable {keeper : Program → Variables} {F id n : Nat} {p : Program} {cache : Cache} {st : Store}

theorem next_handle (hle : n ≤ cache.items.size) : (machineWith keeper (F + 1) p).next (cache.handle id n) st =
      (machineWith keeper F p).bufferedNext id n n st := by
  unfold Cache.handle
  rw [if_pos hle]
  rfl

/-- What a handle makes of what its cache finds. -/
theorem bufferedNext_of_fetch {m : Calls} {r : Except Error (Option Item)}
    (hcache : st.caches[id]? = some cache) : m.fetch n m.fuel cache st = some ((cache', r), st') →
    m.bufferedNext id n n st =
      some (match r with
        | .ok (some item) => (.buffered id (n + 1) (some item) (n + 1) false, .ok true)
        | .ok none => (.buffered id n none n true, .ok false)
        | .error e => (.buffered id n none n true, .error e),
        { st' with caches := st'.caches.setIfInBounds id cache' }) := by
  intro hfetch
  refine (Run.bind_of_some (rfl : (get : Run Store) st = some (st, st))).trans ?_
  rw [hcache]
  refine (Run.bind_of_some hfetch).trans ?_
  match r with
  | .ok (some item) | .ok none | .error e => rfl

/-- A pull for which the source is not needed. -/
theorem next_handle_of_knows (hF : 2 ≤ F) (hcache : st.caches[id]? = some cache) (hknows : cache.Knows n) :
    (machineWith keeper (F + 1) p).next (cache.handle id n) st =
      some ((cache.handle id (n + 1), cache.outcomeAt n), st) := by
  have hfuel : 1 ≤ (machineWith keeper F p).fuel := by
    rw [fuel_machineWith]
    omega
  rcases Nat.lt_trichotomy n cache.items.size with hlt | heq | hgt
  · have hfetch := Calls.fetch_of_known (M := machineWith keeper F p) (s := st) (getElem?_eq_getElem hlt) hfuel
    rw [next_handle (Nat.le_of_lt hlt), bufferedNext_of_fetch hcache hfetch, setIfInBounds_of_getElem? hcache]
    simp [Cache.handle, Cache.outcomeAt, hlt, Nat.succ_le_of_lt hlt]
  · have hfetch := Calls.fetch_of_used (M := machineWith keeper F p) (s := st) heq (hknows.resolve_left
    (by omega)) hfuel
    have hhandle : cache.handle id (n + 1) = .buffered id n none n true := by
      simp [Cache.handle, heq]
    rw [next_handle (Nat.le_of_eq heq), hhandle, bufferedNext_of_fetch hcache hfetch,
      setIfInBounds_of_getElem? hcache]
    cases herror : cache.error <;> simp [Cache.outcomeAt, heq, herror]
  · have hhandle : ∀ m, cache.items.size < m →
        cache.handle id m = .buffered id cache.items.size none cache.items.size true := by
      intro m hm
      unfold Cache.handle
      rw [if_neg (by omega)]
    rw [hhandle n hgt, hhandle (n + 1) (by omega), Cache.outcomeAt_of_lt hgt]
    rfl

theorem Cache.drawing_item (hy : y.current = some item) :
    cache.drawing y (.ok true) = { cache with source := some y, items := cache.items.push item } := by
  simp [Cache.drawing, hy]

/-- A pull that needs the next item of the source. -/
theorem next_handle_drawing (hF : 3 ≤ F) (hcache : st.caches[id]? = some cache) (hn : n = cache.items.size)
    {x : Cursor} (hsource : cache.source = some x) (herror : cache.error = none)
    (hpull : (machineWith keeper F p).next x st = some ((y, r), st'))
    (hcurrent : r = .ok true → y.current.isSome = true) : (machineWith keeper (F + 1) p).next (cache.handle id n) st =
      some (((cache.drawing y r).handle id (n + 1), r),
        { st' with caches := st'.caches.setIfInBounds id (cache.drawing y r) }) := by
  have hfuel : 2 ≤ (machineWith keeper F p).fuel := by
    rw [fuel_machineWith]
    omega
  rw [next_handle (Nat.le_of_eq hn),
    bufferedNext_of_fetch hcache (Calls.fetch_of_pull hn hsource herror hpull hcurrent hfuel)]
  match r with
  | .ok true =>
    obtain ⟨item, hy⟩ := isSome_iff_exists.mp (hcurrent rfl)
    simp [Cache.handle, Cache.drawing, Except.map, hy, hn]
  | .ok false | .error e => simp [Cache.handle, Cache.drawing, Except.map, hn]

end

/-! ## The source alone -/

namespace Session

variable {s a b : Session} {k n : Nat} {x : Cursor}

theorem getElem?_only (h : a.cursors = #[x]) : a.cursors[0]? = some x := by
  rw [h]
  rfl

theorem next_only (h : a.cursors = #[x]) (hnext : a.next 0 = some (r, b)) :
    ∃ y t, (machine a.fuel (.empty a.static)).next x ⟨.ofSize 0, a.caches, none⟩ = some ((y, r), t) ∧
      b = { a with caches := t.caches, cursors := #[y] } := by
  obtain ⟨y, t, hpull, rfl⟩ := pull_of_next (getElem?_only h) hnext
  refine ⟨y, t, hpull, ?_⟩
  rw [h]
  rfl

theorem next_spent (hfuel : 0 < a.fuel) (h : a.cursors = #[x]) (hx : x.Spent) : a.next 0 = some (.ok false, a) := by
  obtain ⟨F, hF⟩ : ∃ F, a.fuel = F + 1 := ⟨a.fuel - 1, by omega⟩
  have hpull : (machine (F + 1) (.empty a.static)).next x ⟨.ofSize 0, a.caches, none⟩ =
      some ((x, .ok false), ⟨.ofSize 0, a.caches, none⟩) := next_of_spent (.empty a.static) x hx _
  rw [← hF] at hpull
  rw [next_of_pull (getElem?_only h) hpull, setIfInBounds_of_getElem? (getElem?_only h)]

theorem exists_after_of_le (hn : s.after n = some a) (hk : k ≤ n) : ∃ b, s.after k = some b := by
  induction n generalizing a with
  | zero =>
    obtain rfl : k = 0 := by omega
    exact ⟨a, hn⟩
  | succ n ih =>
    obtain ⟨b, hb, -⟩ := bind_eq_some_iff.mp hn
    rcases Nat.eq_or_lt_of_le hk with rfl | hk
    · exact ⟨a, hn⟩
    · exact ih hb (by omega)

theorem after_succ_of_next (ha : s.after k = some a) (hnext : a.next 0 = some (r, b)) : s.after (k + 1) = some b := by
  unfold after
  rw [ha, bind_some, hnext]
  rfl

theorem exists_next_of_after (ha : s.after k = some a) (hb : s.after (k + 1) = some b) :
    ∃ r, a.next 0 = some (r, b) := by
  unfold after at hb
  rw [ha, bind_some] at hb
  obtain ⟨⟨r, b'⟩, hnext, rfl⟩ := map_eq_some_iff.mp hb
  exact ⟨r, hnext⟩

end Session

namespace Drawn

variable {s a b : Session} {k n : Nat} {cache : Cache}

theorem after (h : Drawn s k a cache) : s.after k = some a := by
  induction h with
  | start source => rfl
  | item h source pull cursor current ih | ended h source pull ih | failed h source pull ih =>
    exact Session.after_succ_of_next ih pull

/-- Where the source stands, and what the cache says of it. -/
structure Stands (s : Session) (k : Nat) (a : Session) (cache : Cache) (x : Cursor) : Prop where
  fuel : a.fuel = s.fuel
  static : a.static = s.static
  cursors : a.cursors = #[x]
  /-- The source is not over: every pull brought an item. -/
  going : ∀ y, cache.source = some y → y = x ∧ x.Tidy ∧ cache.error = none ∧ cache.items.size = k
  /-- It is over: every pull but the last one brought an item. -/
  used : cache.source = none → x.Spent ∧ cache.items.size + 1 = k

section

variable (htidy : ∀ c, s.cursors = #[c] → c.Tidy)

include htidy

theorem stands (h : Drawn s k a cache) : ∃ x, Stands s k a cache x := by
  induction h with
  | @start c source =>
    refine ⟨c, rfl, rfl, source, ?_, nofun⟩
    rintro _ ⟨⟩
    exact ⟨rfl, htidy c source, rfl, rfl⟩
  | @item k a b cache x y i h source pull cursor current ih =>
    obtain ⟨x', hfuel, hstatic, hcursors, hgoing, -⟩ := ih
    obtain ⟨rfl, hx, herror, hsize⟩ := hgoing x source
    obtain ⟨y', t, hpull, rfl⟩ := Session.next_only hcursors pull
    obtain rfl : y' = y := by simpa using cursor
    refine ⟨y', hfuel, hstatic, rfl, ?_, nofun⟩
    rintro _ ⟨⟩
    exact ⟨rfl, (hx.next hpull).tidy, herror, by simp [hsize]⟩
  | @ended k a b cache x h source pull ih | @failed k a b cache x e h source pull ih =>
    obtain ⟨x', hfuel, hstatic, hcursors, hgoing, -⟩ := ih
    obtain ⟨rfl, hx, herror, hsize⟩ := hgoing x source
    obtain ⟨y, t, hpull, rfl⟩ := Session.next_only hcursors pull
    exact ⟨y, hfuel, hstatic, rfl, nofun, fun _ => ⟨(hx.next hpull).spent (by simp),
      by simp [hsize]⟩⟩

/-- The items of the cache are those that the source delivers. -/
theorem items (h : Drawn s k a cache) :
    ∀ n, n < cache.items.size → ∃ b b' y, s.after n = some b ∧ b.next 0 = some (.ok true, b') ∧
      b'.cursors = #[y] ∧ y.current = cache.items[n]? := by
  induction h with
  | start source => exact fun n hn => absurd hn (Nat.not_lt_zero n)
  | @item k a b cache x y i h source pull cursor current ih =>
    obtain ⟨_, hstands⟩ := h.stands htidy
    obtain ⟨-, -, -, hsize⟩ := hstands.going x source
    intro n hn
    rw [size_push] at hn
    rcases Nat.lt_or_ge n cache.items.size with hlt | hge
    · obtain ⟨b, b', y, hb, hnext, hy, hcurrent⟩ := ih n hlt
      exact ⟨b, b', y, hb, hnext, hy, by rw [hcurrent, getElem?_push, if_neg (by omega)]⟩
    · obtain rfl : n = cache.items.size := by omega
      refine ⟨a, b, y, hsize ▸ h.after, pull, cursor, ?_⟩
      rw [current, getElem?_push_size]
  | ended h source pull ih | failed h source pull ih => exact ih

theorem last (h : Drawn s k a cache) (hused : cache.source = none) :
    ∃ b, s.after cache.items.size = some b ∧ b.next 0 = some (cache.outcomeAt cache.items.size, a) := by
  cases h with
  | start source | item h source pull cursor current => cases hused
  | @ended k b _ cache x h source pull | @failed k b _ cache x e h source pull =>
    obtain ⟨_, hstands⟩ := h.stands htidy
    obtain ⟨-, -, herror, hsize⟩ := hstands.going x source
    exact ⟨b, hsize ▸ h.after, by simpa [Cache.outcomeAt, herror] using pull⟩

/-- After its end the source stays as it is. -/
theorem after_of_used (hfuel : 0 < s.fuel) (h : Drawn s k a cache)
    (hused : cache.source = none) : ∀ {n : Nat}, k ≤ n → s.after n = some a ∧ a.next 0 = some (.ok false, a) := by
  obtain ⟨x, hstands⟩ := h.stands htidy
  have hnext := Session.next_spent (hstands.fuel ▸ hfuel) hstands.cursors (hstands.used hused).1
  intro n hn
  refine ⟨?_, hnext⟩
  induction n with
  | zero =>
    obtain rfl : k = 0 := by omega
    exact h.after
  | succ n ih =>
    rcases Nat.eq_or_lt_of_le hn with rfl | hn
    · exact h.after
    · exact Session.after_succ_of_next (ih (by omega)) hnext

theorem outcome (hfuel : 0 < s.fuel) (h : Drawn s k a cache) (hknows : cache.Knows n) :
    ∃ b b', s.after n = some b ∧ b.next 0 = some (cache.outcomeAt n, b') := by
  rcases Nat.lt_trichotomy n cache.items.size with hlt | rfl | hgt
  · obtain ⟨b, b', -, hb, hnext, -⟩ := h.items htidy n hlt
    exact ⟨b, b', hb, by simpa [Cache.outcomeAt, hlt] using hnext⟩
  · obtain ⟨b, hb, hnext⟩ := h.last htidy (hknows.resolve_left (Nat.lt_irrefl _))
    exact ⟨b, a, hb, hnext⟩
  · have hused := hknows.resolve_left (by omega)
    obtain ⟨x, hstands⟩ := h.stands htidy
    have hsize := (hstands.used hused).2
    obtain ⟨ha, hnext⟩ := h.after_of_used htidy hfuel hused (n := n) (by omega)
    refine ⟨a, a, ha, ?_⟩
    rw [Cache.outcomeAt_of_lt hgt]
    exact hnext

theorem current (hfuel : 0 < s.fuel) (h : Drawn s k a cache)
    (hn : n + 1 ≤ cache.items.size ∨ cache.source = none) (id : Nat) :
    ∃ b y, s.after (n + 1) = some b ∧ b.cursors = #[y] ∧
      y.current = (cache.handle id (n + 1)).current := by
  rcases Nat.lt_or_ge n cache.items.size with hlt | hge
  · obtain ⟨b, b', y, hb, hnext, hy, hcurrent⟩ := h.items htidy n hlt
    refine ⟨b', y, Session.after_succ_of_next hb hnext, hy, ?_⟩
    rw [hcurrent, Cache.handle, if_pos (by omega)]
    rfl
  · have hused := hn.resolve_left (by omega)
    obtain ⟨x, hstands⟩ := h.stands htidy
    obtain ⟨hspent, hsize⟩ := hstands.used hused
    obtain ⟨ha, -⟩ := h.after_of_used htidy hfuel hused (n := n + 1) (by omega)
    refine ⟨a, x, ha, hstands.cursors, ?_⟩
    rw [x.current_of_spent hspent, Cache.handle, if_neg (by omega)]
    rfl

end

end Drawn

theorem Drawn.draw (h : Drawn s k a cache)
    (hsource : cache.source = some x) (hnext : a.next 0 = some (r, b)) (hcursors : b.cursors = #[y])
    (hcurrent : r = .ok true → y.current.isSome = true) : Drawn s (k + 1) b (cache.drawing y r) := by
  match r with
  | .ok true =>
    obtain ⟨item, hitem⟩ := isSome_iff_exists.mp (hcurrent rfl)
    rw [Cache.drawing_item hitem]
    exact .item h hsource hnext hcursors hitem
  | .ok false => exact .ended h hsource hnext
  | .error e => exact .failed h hsource hnext

/-! ## Handles in use -/

/-- The cursors of a session are handles of one cache, which have been pulled as often as the tally says. -/
structure Serves (s₀ : Session) (id : Nat) (c : Cursor) (Own : Nat → Prop) (t : Session.Tally) (k : Nat)
    (a : Session) (cache : Cache) (s : Session) : Prop where
  tidy : ∀ d, (s₀.alone c).cursors = #[d] → d.Tidy
  apart : ¬ Own id
  deep : 4 ≤ s₀.fuel
  fuel : s.fuel = s₀.fuel
  static : s.static = s₀.static
  drawn : Drawn (s₀.alone c) k a cache
  kept : s.caches[id]? = some cache
  cursors : s.cursors.toList = t.counts.map (cache.handle id)
  stores : Framed Own s.caches a.caches ⟨.ofSize 0, s.caches, none⟩ ⟨.ofSize 0, a.caches, none⟩
  within : ∀ x, cache.source = some x → x.Within Own
  counts : ∀ n ∈ t.counts, n ≤ t.peak
  pulls : k ≤ t.peak
  used : k < t.peak → cache.source = none

section

variable {s₀ s a : Session} {id k i n : Nat} {c : Cursor} {Own : Nat → Prop} {t : Session.Tally}
  {cache : Cache}

namespace Serves

theorem fuel_alone (h : Serves s₀ id c Own t k a cache s) : 0 < (s₀.alone c).fuel :=
  Nat.sub_pos_of_lt (Nat.lt_of_lt_of_le (by decide) h.deep)

theorem getElem? (h : Serves s₀ id c Own t k a cache s) (hi : t.counts[i]? = some n) :
    s.cursors[i]? = some (cache.handle id n) := by
  rw [← Array.getElem?_toList, h.cursors, List.getElem?_map, hi]
  rfl

/-- A handle has been pulled no further than the cache goes, unless the source is over. -/
theorem knows_or (h : Serves s₀ id c Own t k a cache s) (hi : t.counts[i]? = some n) :
    n ≤ cache.items.size ∨ cache.source = none := by
  cases hsource : cache.source with
  | none => exact .inr rfl
  | some x =>
    obtain ⟨_, hstands⟩ := h.drawn.stands h.tidy
    have hsize := (hstands.going x hsource).2.2.2
    have hn := h.counts n (mem_of_getElem? hi)
    refine .inl ?_
    by_contra hlt
    cases hsource.symm.trans (h.used (by omega))

theorem stands (h : Serves s₀ id c Own t k a cache s) : ∃ x, Drawn.Stands (s₀.alone c) k a cache x :=
  h.drawn.stands h.tidy

theorem mem_set {counts : List Nat} (hcounts : ∀ n ∈ counts, n ≤ peak) (hm : m ∈ counts.set i n) : m ≤ max peak n := by
  rcases mem_or_eq_of_mem_set hm with hm | rfl
  · exact Nat.le_trans (hcounts m hm) (Nat.le_max_left _ _)
  · exact Nat.le_max_right _ _

theorem next_of_knows (h : Serves s₀ id c Own t k a cache s) (hi : t.counts[i]? = some n)
    (hknows : cache.Knows n) : ∃ s', s.next i = some (cache.outcomeAt n, s') ∧
      Serves s₀ id c Own ⟨t.counts.set i (n + 1), max t.peak (n + 1)⟩ k a cache s' := by
  obtain ⟨F, hF⟩ : ∃ F, s.fuel = F + 1 := ⟨s.fuel - 1, by have := h.fuel; have := h.deep; omega⟩
  have hpull : (machine (F + 1) (.empty s.static)).next (cache.handle id n) ⟨.ofSize 0, s.caches, none⟩ =
      some ((cache.handle id (n + 1), cache.outcomeAt n), ⟨.ofSize 0, s.caches, none⟩) :=
    next_handle_of_knows (by have := h.fuel; have := h.deep; omega) h.kept hknows
  rw [← hF] at hpull
  refine ⟨_, Session.next_of_pull (h.getElem? hi) hpull, h.tidy, h.apart, h.deep, h.fuel, h.static, h.drawn, h.kept,
    ?_, h.stores, h.within, fun m hm => mem_set h.counts hm, Nat.le_trans h.pulls (Nat.le_max_left _ _), ?_⟩
  · rw [Array.toList_setIfInBounds, h.cursors, List.map_set]
  · intro (hlt : k < max t.peak (n + 1))
    rcases hknows with hknown | hused
    · cases hsource : cache.source with
      | none => rfl
      | some x =>
        obtain ⟨_, hstands⟩ := h.stands
        have hsize := (hstands.going x hsource).2.2.2
        have hpeak : ¬ k < t.peak := fun hlt => by cases hsource.symm.trans (h.used hlt)
        have : max t.peak (n + 1) ≤ k := Nat.max_le.mpr ⟨by omega, by omega⟩
        omega
    · exact hused

/-- A pull that needs the next item of the source, which the source alone delivers, too. -/
theorem next_drawing (h : Serves s₀ id c Own t k a cache s) (hi : t.counts[i]? = some n) {x : Cursor}
    (hsource : cache.source = some x) (hn : n = cache.items.size) {b : Session}
    (hnext : a.next 0 = some (r, b)) : ∃ s' cache', s.next i = some (r, s') ∧
      Serves s₀ id c Own ⟨t.counts.set i (n + 1), max t.peak (n + 1)⟩ (k + 1) b cache' s' := by
  obtain ⟨x', hstands⟩ := h.stands
  obtain ⟨rfl, hx, herror, hsize⟩ := hstands.going x hsource
  obtain ⟨y, st, hpull, rfl⟩ := Session.next_only hstands.cursors hnext
  have hafter := hx.next hpull
  -- The source is pulled in the session's store as it is alone.
  have hstatic : s.static = a.static := h.static.trans hstands.static.symm
  obtain ⟨_, st', hpull', rfl, hwithin, hframed⟩ :=
    (next_framed (h.within x hsource) h.stores).of_some_right hpull
  have hcurrent : r = .ok true → y.current.isSome = true := by
    rintro rfl
    exact hafter.current
  have hdepth : a.fuel = s₀.fuel - 1 := hstands.fuel
  have hdeep := h.deep
  have hF : s.fuel = a.fuel + 1 := by
    have := h.fuel
    omega
  have hhandle := next_handle_drawing (by omega) h.kept hn hsource herror hpull' hcurrent
  rw [← hF, ← hstatic] at hhandle
  have hkept : st'.caches[id]? = some cache := (hframed.left id h.apart).trans h.kept
  have hpeak : t.peak = k := by
    have : ¬ k < t.peak := fun hlt => by cases hsource.symm.trans (h.used hlt)
    have := h.pulls
    omega
  have hsame : ∀ m ∈ t.counts, (cache.drawing y r).handle id m = cache.handle id m := by
    intro m hm
    have hm' := h.counts m hm
    match r with
    | .ok true =>
      obtain ⟨item, hitem⟩ := isSome_iff_exists.mp (hcurrent rfl)
      rw [Cache.drawing_item hitem]
      refine Cache.handle_congr (by omega) ?_ ?_
      · simp only [size_push]
        omega
      · intro j hj
        rw [getElem?_push, if_neg (by omega)]
    | .ok false | .error e => rfl
  refine ⟨_, cache.drawing y r, Session.next_of_pull (h.getElem? hi) hhandle, h.tidy, h.apart, h.deep, h.fuel,
    h.static, ?_, ?_, ?_, ?_, ?_, fun m hm => mem_set h.counts hm, ?_, ?_⟩
  · exact h.drawn.draw hsource hnext rfl hcurrent
  · simp only [getElem?_setIfInBounds_self]
    exact if_pos (Array.getElem?_eq_some_iff.mp hkept).1
  · rw [Array.toList_setIfInBounds, h.cursors, List.map_set, List.map_congr_left hsame]
  · have hother {j : Nat} (hj : Own j) : id ≠ j := by
      rintro rfl
      exact h.apart hj
    refine ⟨rfl, rfl, ?_, ?_, fun _ _ => rfl, fun _ _ => rfl⟩
    · intro j hj
      exact (getElem?_setIfInBounds_ne (hother hj)).trans (hframed.own j hj)
    · intro j other z hj hz
      exact hframed.within j other z hj ((getElem?_setIfInBounds_ne (hother hj)).symm.trans hz)
  · intro z hz
    match r with
    | .ok true =>
      cases hz
      exact hwithin
    | .ok false | .error e => cases hz
  · show k + 1 ≤ max t.peak (n + 1)
    omega
  · intro (hlt : k + 1 < max t.peak (n + 1))
    omega

/-- A pull of a handle ends as the pull of the source does that has been pulled as often alone. -/
theorem next (h : Serves s₀ id c Own t k a cache s) (hi : t.counts[i]? = some n)
    (hafter : (s₀.alone c).after (n + 1) = some b') :
    ∃ r b s' k' a' cache', (s₀.alone c).after n = some b ∧ b.next 0 = some (r, b') ∧
      s.next i = some (r, s') ∧
      Serves s₀ id c Own ⟨t.counts.set i (n + 1), max t.peak (n + 1)⟩ k' a' cache' s' := by
  by_cases hknows : cache.Knows n
  · obtain ⟨b, b'', hb, hnext⟩ := h.drawn.outcome h.tidy h.fuel_alone hknows
    obtain rfl : b'' = b' := some.inj ((Session.after_succ_of_next hb hnext).symm.trans hafter)
    obtain ⟨s', hs', hserves⟩ := h.next_of_knows hi hknows
    exact ⟨_, b, s', k, a, cache, hb, hnext, hs', hserves⟩
  · obtain ⟨hge, hsource⟩ := not_or.mp hknows
    obtain ⟨x, hx⟩ := ne_none_iff_exists'.mp hsource
    obtain ⟨_, hstands⟩ := h.stands
    have hsize := (hstands.going x hx).2.2.2
    have hn : n = cache.items.size := by
      have := (h.knows_or hi).resolve_right hsource
      omega
    have hb : (s₀.alone c).after n = some a := by
      rw [hn, hsize]
      exact h.drawn.after
    obtain ⟨r, hnext⟩ := Session.exists_next_of_after hb hafter
    obtain ⟨s', cache', hs', hserves⟩ := h.next_drawing hi hx hn hnext
    exact ⟨r, a, s', k + 1, b', cache', hb, hnext, hs', hserves⟩

theorem reset (h : Serves s₀ id c Own t k a cache s) :
    Serves s₀ id c Own ⟨t.counts.set i 0, t.peak⟩ k a cache (s.reset i) := by
  refine ⟨h.tidy, h.apart, h.deep, h.fuel, h.static, h.drawn, h.kept, ?_, h.stores, h.within, ?_, h.pulls, h.used⟩
  · have hreset : (s.reset i).cursors.toList = s.cursors.toList.modify i Cursor.reset := by
      simp [Session.reset]
    rw [hreset, h.cursors]
    refine ext_getElem? ?_
    intro j
    rw [List.getElem?_modify, List.getElem?_map, List.getElem?_map, List.getElem?_set]
    split
    · next hij =>
      subst hij
      cases hj : t.counts[i]? with
      | none =>
        rw [if_neg (by have := getElem?_eq_none_iff.mp hj; omega)]
        rfl
      | some n =>
        rw [if_pos (List.getElem?_eq_some_iff.mp hj).1]
        simp [Cache.reset_handle, Cache.handle_zero]
    · exact map_id'
  · intro m hm
    have := mem_set h.counts hm
    simpa using this

theorem copy (h : Serves s₀ id c Own t k a cache s) (hi : t.counts[i]? = some n) :
    ∃ s', s.clone i = some s' ∧ Serves s₀ id c Own ⟨t.counts ++ [n], t.peak⟩ k a cache s' := by
  have hF : s.fuel = (s.fuel - 1) + 1 := by
    have := h.fuel
    have := h.deep
    omega
  have hcopy : (machine s.fuel (.empty s.static)).clone (cache.handle id n) ⟨.ofSize 0, s.caches, none⟩ =
      some (cache.handle id n, ⟨.ofSize 0, s.caches, none⟩) := by
    rw [hF]
    unfold Cache.handle
    split <;> rfl
  refine ⟨_, Session.clone_of_copy (h.getElem? hi) hcopy, h.tidy, h.apart, h.deep, h.fuel, h.static, h.drawn,
    h.kept, ?_,
    h.stores, h.within, ?_, h.pulls, h.used⟩
  · rw [Array.toList_push, h.cursors, List.map_append]
    rfl
  · intro m hm
    rcases mem_append.mp hm with hm | hm
    · exact h.counts m hm
    · rw [mem_singleton.mp hm]
      exact h.counts n (mem_of_getElem? hi)

theorem act (h : Serves s₀ id c Own t k a cache s) {u : Session.Act} {t' : Session.Tally}
    (ht : t.act u = some t') (hN : (s₀.alone c).after N = some b) (hpeak : t'.peak ≤ N) :
    ∃ s' k' a' cache', s.act u = some s' ∧ Serves s₀ id c Own t' k' a' cache' s' := by
  cases u with
  | pull i =>
    obtain ⟨n, hi, rfl⟩ := map_eq_some_iff.mp ht
    obtain ⟨b', hb'⟩ := Session.exists_after_of_le hN (Nat.le_trans (Nat.le_max_right _ _) hpeak)
    obtain ⟨r, -, s', k', a', cache', -, -, hs', hserves⟩ := h.next hi hb'
    refine ⟨s', k', a', cache', ?_, hserves⟩
    simp only [Session.act, hs', map_some]
  | reset i =>
    obtain ⟨n, hi, rfl⟩ := map_eq_some_iff.mp ht
    exact ⟨s.reset i, k, a, cache, rfl, h.reset⟩
  | copy i =>
    obtain ⟨n, hi, rfl⟩ := map_eq_some_iff.mp ht
    obtain ⟨s', hs', hserves⟩ := h.copy hi
    exact ⟨s', k, a, cache, hs', hserves⟩

end Serves

theorem Session.Tally.peak_le_act (h : t.act u = some t') : t.peak ≤ t'.peak := by
  cases u with
  | pull i =>
    obtain ⟨n, -, rfl⟩ := map_eq_some_iff.mp h
    exact Nat.le_max_left _ _
  | reset i | copy i =>
    obtain ⟨n, -, rfl⟩ := map_eq_some_iff.mp h
    exact .refl

/-- A use of one cursor does not count for the others. -/
theorem Session.Tally.getElem?_act (hu : u.target ≠ i) (h : t.act u = some t')
    (hi : t.counts[i]? = some n) : t'.counts[i]? = some n := by
  cases u with
  | pull j | reset j =>
    obtain ⟨m, -, rfl⟩ := map_eq_some_iff.mp h
    exact (getElem?_set_ne hu).trans hi
  | copy j =>
    obtain ⟨m, -, rfl⟩ := map_eq_some_iff.mp h
    exact (List.getElem?_append_left (List.getElem?_eq_some_iff.mp hi).1).trans hi

theorem Session.Tally.peak_le_acts (h : t.acts us = some t') : t.peak ≤ t'.peak := by
  induction us generalizing t with
  | nil =>
    cases h
    exact .refl
  | cons u us ih =>
    obtain ⟨t₁, hu, hus⟩ := bind_eq_some_iff.mp h
    exact Nat.le_trans (peak_le_act hu) (ih hus)

namespace Serves

theorem outcome (h : Serves s₀ id c Own t k a cache s) (hi : t.counts[i]? = some n) (hN :
    (s₀.alone c).after N = some last) (hn : n < N) :
    ∃ b r, (s₀.alone c).after n = some b ∧ b.outcome 0 = some r ∧ s.outcome i = some r := by
  obtain ⟨b', hb'⟩ := Session.exists_after_of_le hN hn
  obtain ⟨r, b, s', -, -, -, hb, hnext, hs', -⟩ := h.next hi hb'
  refine ⟨b, r, hb, ?_, ?_⟩
  · rw [Session.outcome, hnext, map_some]
  · rw [Session.outcome, hs', map_some]

theorem acts {b : Session} (hN : (s₀.alone c).after N = some b) {us : List Session.Act} {t' : Session.Tally}
    (h : Serves s₀ id c Own t k a cache s) (ht : t.acts us = some t') (hpeak : t'.peak ≤ N) :
    ∃ s' k' a' cache', s.acts us = some s' ∧ Serves s₀ id c Own t' k' a' cache' s' := by
  induction us generalizing s t k a cache with
  | nil =>
    cases ht
    exact ⟨s, k, a, cache, rfl, h⟩
  | cons u us ih =>
    obtain ⟨t₁, hu, hus⟩ := bind_eq_some_iff.mp ht
    have hpeak₁ := Nat.le_trans (Session.Tally.peak_le_acts hus) hpeak
    obtain ⟨s₁, k₁, a₁, cache₁, hs₁, h₁⟩ := h.act hu hN hpeak₁
    obtain ⟨s', k', a', cache', hs', h'⟩ := ih h₁ hus
    refine ⟨s', k', a', cache', ?_, h'⟩
    rw [Session.acts, hs₁]
    exact hs'

theorem view (h : Serves s₀ id c Own t k a cache s) (hi : t.counts[i]? = some (n + 1)) :
    ∃ b item pos, (s₀.alone c).after (n + 1) = some b ∧ (b.view 0).map Prod.fst = some item ∧
      s.view i = some (item, pos) ∧ (item.isSome = true → pos = n + 1) := by
  obtain ⟨b, y, hb, hy, hcurrent⟩ := h.drawn.current h.tidy h.fuel_alone (h.knows_or hi) id
  refine ⟨b, y.current, (cache.handle id (n + 1)).position, hb, ?_, ?_, ?_⟩
  · simp only [Session.view, Session.cursor?, Session.getElem?_only hy, map_some]
  · simp only [Session.view, Session.cursor?, h.getElem? hi, map_some, hcurrent]
  · rw [hcurrent]
    unfold Cache.handle
    split
    · exact fun _ => rfl
    · exact nofun

end Serves

end

/-! ## A cache and its handles -/

namespace Session

variable {s s' : Session} {i : Nat}

theorem getElem?_copy (hi : i < s.cursors.size) (h : s.act (.copy j) = some s') : s'.cursors[i]? = s.cursors[i]? := by
  obtain ⟨x, hx, hcopy⟩ := bind_eq_some_iff.mp h
  obtain ⟨⟨y, s₁⟩, hrun, hpure⟩ := bind_eq_some_iff.mp hcopy
  obtain ⟨⟨_, st⟩, -, heq⟩ := map_eq_some_iff.mp hrun
  cases heq
  cases hpure
  exact (getElem?_push ..).trans (if_neg (Nat.ne_of_lt hi))

theorem getElem?_act (hu : u.target ≠ i) (hi : i < s.cursors.size) (h : s.act u = some s') :
    s'.cursors[i]? = s.cursors[i]? := by
  cases u with
  | pull j =>
    obtain ⟨⟨r, s''⟩, hnext, rfl⟩ := map_eq_some_iff.mp h
    obtain ⟨x, hx, -⟩ := bind_eq_some_iff.mp hnext
    obtain ⟨y, st, -, rfl⟩ := pull_of_next hx hnext
    exact getElem?_setIfInBounds_ne hu
  | reset j =>
    cases h
    exact (Array.getElem?_modify ..).trans (if_neg hu)
  | copy j => exact getElem?_copy hi h

/-- Handles of one cache are independent readers of its source. They are pulled, reset and copied in any
order, and a copy takes over the count of pulls. After `n` pulls a handle shows the `n`-th item of the source
with position `n`, and its next pull ends as the next pull of the source does that has been pulled `n` times
alone: with an item, at the end or with an error. The cache is filled by pulls of the source, at most as many
as any handle has had, each of which brought one item or was the last one. No use of a handle changes what
another one shows, or how its next pull ends. -/
theorem handles_deliver_source {id : Nat} {c : Cursor} {last : Session}
    (hcache : s.caches[id]? = some (.ofSource c)) (hcursors : s.cursors = #[.ofCache id]) (htidy : c.Tidy)
    (havoids : c.Avoids s.caches id) (hfuel : 4 ≤ s.fuel) (hrun : (s.alone c).after N = some last) {t : Tally}
    (ht : Tally.acts ⟨[0], 0⟩ us = some t) (hpeak : t.peak ≤ N) :
    ∃ s', s.acts us = some s' ∧ s'.cursors.size = t.counts.length ∧
      (∃ k a cache, s'.caches[id]? = some cache ∧ Drawn (s.alone c) k a cache ∧ k ≤ t.peak ∧
        (k < t.peak → cache.source = none)) ∧
      ∀ (i n : Nat), t.counts[i]? = some n →
        (n = 0 → s'.view i = some (none, 0)) ∧
        (0 < n → ∃ b item pos, (s.alone c).after n = some b ∧ (b.view 0).map Prod.fst = some item ∧
          s'.view i = some (item, pos) ∧ (item.isSome = true → pos = n)) ∧
        (n < N → ∃ b r, (s.alone c).after n = some b ∧ b.outcome 0 = some r ∧ s'.outcome i = some r) ∧
        ∀ u t', t.act u = some t' → t'.peak ≤ N → u.target ≠ i →
          ∃ s'', s'.act u = some s'' ∧ s''.view i = s'.view i ∧
            (n < N → s''.outcome i = s'.outcome i) := by
  obtain ⟨Own, hwithin, hid, hclosed⟩ := havoids
  have hstart : Serves s id c Own ⟨[0], 0⟩ 0 (s.alone c) (.ofSource c) s := by
    refine ⟨?_, hid, hfuel, rfl, rfl, .start rfl, hcache, ?_, ⟨rfl, rfl, fun _ _ => rfl, hclosed,
      fun _ _ => rfl, fun _ _ => rfl⟩, ?_, ?_, .refl, fun h => absurd h (Nat.lt_irrefl 0)⟩
    · rintro _ ⟨⟩
      exact htidy
    · rw [hcursors, List.map_singleton, Cache.handle_zero]
    · rintro _ ⟨⟩
      exact hwithin
    · intro n hn
      rw [mem_singleton.mp hn]
  obtain ⟨s', k, a, cache, hs', hserves⟩ := hstart.acts hrun ht hpeak
  refine ⟨s', hs', ?_, ⟨k, a, cache, hserves.kept, hserves.drawn, hserves.pulls, hserves.used⟩, ?_⟩
  · rw [← Array.length_toList, hserves.cursors, List.length_map]
  intro i n hi
  refine ⟨?_, ?_, hserves.outcome hi hrun, ?_⟩
  · rintro rfl
    simp [view, cursor?, hserves.getElem? hi, Cache.handle_zero, Cursor.ofCache, Cursor.current,
      Cursor.position]
  · intro hn
    obtain ⟨m, rfl⟩ : ∃ m, n = m + 1 := ⟨n - 1, by omega⟩
    exact hserves.view hi
  · intro u t' hu hpeak' htarget
    obtain ⟨s'', k', a', cache', hs'', hserves'⟩ := hserves.act hu hrun hpeak'
    have hi' : t'.counts[i]? = some n := by rw [Tally.getElem?_act htarget hu hi]
    have hsize : i < s'.cursors.size := (Array.getElem?_eq_some_iff.mp (hserves.getElem? hi)).1
    refine ⟨s'', hs'', ?_, ?_⟩
    · unfold view cursor?
      rw [getElem?_act htarget hsize hs'']
    · intro hn
      obtain ⟨b, r, hb, hr, hout⟩ := hserves.outcome hi hrun hn
      obtain ⟨b', r', hb', hr', hout'⟩ := hserves'.outcome hi' hrun hn
      cases hb.symm.trans hb'
      cases hr.symm.trans hr'
      rw [hout, hout']

end Session

/-- Two numbers, and something that must be a node and is not. -/
def numbersThenRefused : Cursor :=
  .ofParts [.ofRange 1 2, .requireNodes (.ofItem (.ofBool true))]

def refusedSession : Session :=
  { Session.new 8 .standard .empty with caches := #[.ofSource numbersThenRefused], cursors := #[.ofCache 0] }

/-- A handle and a copy of it; the copy is ahead while the handle begins again. The copy shows the second
number, and its next pull fails as that of the source does. -/
theorem Session.handles_refused :
    numbersThenRefused.Tidy ∧ numbersThenRefused.Avoids refusedSession.caches 0 ∧
      ∃ last, (refusedSession.alone numbersThenRefused).after 3 = some last ∧
      ∃ s', refusedSession.acts [.pull 0, .copy 0, .pull 1, .reset 0, .pull 0] = some s' ∧
        (∃ b item pos, (refusedSession.alone numbersThenRefused).after 2 = some b ∧
          (b.view 0).map Prod.fst = some item ∧ s'.view 1 = some (item, pos) ∧
          (item.isSome = true → pos = 2)) ∧
        ∃ b r, (refusedSession.alone numbersThenRefused).after 2 = some b ∧ b.outcome 0 = some r ∧
          s'.outcome 1 = some r := by
  have htidy : numbersThenRefused.Tidy := fun h => nomatch h
  have havoids : numbersThenRefused.Avoids refusedSession.caches 0 := by
    refine ⟨fun _ => False, .concat 0 false (fun _ h => nomatch h) ?_, id, fun _ _ _ h => h.elim⟩
    intro c hc
    rcases mem_cons.mp hc with rfl | hc
    · exact .range _ _ _ _ _
    · rw [mem_singleton.mp hc]
      exact .nodesOnly false (.items _ _ _ _ _)
  obtain ⟨last, hlast⟩ : ∃ last, (refusedSession.alone numbersThenRefused).after 3 = some last :=
    isSome_iff_exists.mp rfl
  have hcache : refusedSession.caches[0]? = some (.ofSource numbersThenRefused) := rfl
  have htally : Tally.acts ⟨[0], 0⟩ [.pull 0, .copy 0, .pull 1, .reset 0, .pull 0] =
      some ⟨[1, 2], 2⟩ := rfl
  obtain ⟨s', hs', -, -, hall⟩ := handles_deliver_source hcache rfl htidy havoids (by decide) hlast htally
    (by decide)
  obtain ⟨-, hshown, hnext, -⟩ := hall 1 2 rfl
  exact ⟨htidy, havoids, last, hlast, s', hs', hshown (by decide), hnext (by decide)⟩

end XPath
