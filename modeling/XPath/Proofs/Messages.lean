import XPath.Error
import Mathlib.Data.List.Infix

/-!
# Messages

A template is filled by one argument after the other, so the arguments after the one that a place
takes are filled into that argument's text as well. Nothing else happens: between the places stand
characters that no place has, and so no place arises across an argument's ends. Where no argument has
the place of a later one in its text, the message is the template with all its places filled at once.
-/

namespace XPath

open List

/-- The characters of a template and the numbers of its places. -/
def readTemplate : List Char → List (Char ⊕ Nat)
  | [] => []
  | '\x7b' :: d :: '\x7d' :: cs =>
    (if Text.isDigit d then [.inr (Text.digitValue d)] else ['\x7b', d, '\x7d'].map .inl)
      ++ readTemplate cs
  | c :: cs => .inl c :: readTemplate cs

/-- A template of which every place is replaced by its text. -/
def writeTemplate (text : Nat → List Char) (parts : List (Char ⊕ Nat)) : List Char :=
  parts.flatMap (Sum.elim ([·]) text)

/-- Fills all places that have a text, at once, and keeps everything else. -/
def substitute (template : String) (text : Nat → Option String) : String :=
  String.ofList
    (writeTemplate (fun i => (text i).elim (placeholder i) String.toList)
      (readTemplate template.toList))

namespace Text

variable {p r : List Char}

theorem isPrefixOf_append {a b : List Char} (hb : ∀ c ∈ b.head?, c ∉ p) : p.isPrefixOf (a ++ b) = p.isPrefixOf a := by
  rw [Bool.eq_iff_iff, isPrefixOf_iff_prefix, isPrefixOf_iff_prefix]
  refine ⟨fun h => ?_, fun h => h.trans (prefix_append ..)⟩
  obtain hle | hlt := le_or_gt p.length a.length
  · exact prefix_of_prefix_length_le h (prefix_append ..) hle
  -- a longer pattern would reach the first character of `b`
  · obtain ⟨q, rfl⟩ := prefix_of_prefix_length_le (prefix_append a b) h hlt.le
    cases q with
    | nil => simp at hlt
    | cons c q =>
      obtain ⟨t, rfl⟩ := (prefix_append_right_inj a).1 h
      exact absurd (by simp) (hb c rfl)

theorem replaceFrom_append {a b : List Char} (hb : ∀ c ∈ b.head?, c ∉ p) :
    ∀ {k}, k ≤ a.length → replaceFrom p r k (a ++ b) = replaceFrom p r k a ++ replaceAll p r b := by
  induction a with
  | nil =>
    intro k hk
    obtain rfl : k = 0 := by simpa using hk
    simp [replaceFrom, replaceAll]
  | cons c a ih =>
    intro k hk
    cases k with
    | succ k => exact ih (Nat.le_of_succ_le_succ hk)
    | zero =>
      have hpre := isPrefixOf_append (a := c :: a) hb
      rw [cons_append] at hpre ⊢
      simp only [replaceFrom, hpre]
      split
      next h =>
        have hlen := (List.isPrefixOf_iff_prefix.1 h).length_le
        rw [ih (by grind), append_assoc]
      next => rw [ih (Nat.zero_le _), cons_append]

theorem replaceAll_append {a b : List Char} (hb : ∀ c ∈ b.head?, c ∉ p) :
    replaceAll p r (a ++ b) = replaceAll p r a ++ replaceAll p r b :=
  replaceFrom_append hb (Nat.zero_le _)

theorem replaceAll_of_absent : ∀ {a : List Char}, ¬ p <:+: a → replaceAll p r a = a
  | [], _ => rfl
  | c :: a, h => by
    have ha : ¬ p <:+: a := fun hi => h (hi.trans (suffix_cons c a).isInfix)
    have hp : ¬ p.isPrefixOf (c :: a) := fun hp => h (List.isPrefixOf_iff_prefix.1 hp).isInfix
    simpa [replaceAll, replaceFrom, hp] using replaceAll_of_absent ha

theorem replaceFrom_length : ∀ a : List Char, replaceFrom p r a.length a = []
  | [] => rfl
  | _ :: a => replaceFrom_length a

theorem replaceAll_self (hp : p ≠ []) : replaceAll p r p = r := by
  obtain ⟨c, q, rfl⟩ := exists_cons_of_ne_nil hp
  simp [replaceAll, replaceFrom, replaceFrom_length]

end Text

/-! ## Places -/

def isPlaceChar (c : Char) : Bool :=
  c == '\x7b' || c == '\x7d' || Text.isDigit c

theorem isDigit_of_mem_natDigits {c : Char} {i : Nat} (h : c ∈ Text.natDigits i) : Text.isDigit c :=
  Nat.isDigit_of_mem_toDigits (by omega) (by omega) h

theorem isPlaceChar_of_mem {c : Char} {i : Nat} (h : c ∈ placeholder i) : isPlaceChar c := by
  obtain rfl | rfl | h : c = '\x7b' ∨ c = '\x7d' ∨ c ∈ Text.natDigits i := by grind [placeholder]
  · rfl
  · rfl
  · simp [isPlaceChar, isDigit_of_mem_natDigits h]

theorem natDigits_injective : Function.Injective Text.natDigits :=
  Function.LeftInverse.injective (g := Text.digitsValue) fun _ =>
    Nat.ofDigitChars_toDigits (by omega) (by omega)

/-- No place lies within another one. -/
theorem eq_of_placeholder_within {i j : Nat} (h : placeholder i <:+: placeholder j) : i = j := by
  obtain ⟨s, t, h⟩ := h
  cases s with
  | nil =>
    have hdigits := congrArg (fun cs => cs.tail.takeWhile Text.isDigit) h
    have hclose (cs) : ('\x7d' :: cs).takeWhile Text.isDigit = [] :=
      takeWhile_cons_of_neg (by decide)
    simp only [placeholder, nil_append, cons_append, tail_cons, append_assoc,
      hclose, takeWhile_append_of_pos fun _ => isDigit_of_mem_natDigits,
      append_nil] at hdigits
    exact natDigits_injective hdigits
  | cons c s =>
    have htail : s ++ placeholder i ++ t = Text.natDigits j ++ ['\x7d'] := (cons.inj h).2
    have hbrace : '\x7b' ∈ s ++ placeholder i ++ t := by simp [placeholder]
    exact absurd (isDigit_of_mem_natDigits (by simpa [htail] using hbrace)) (by decide)

theorem replaceAll_placeholder (i j : Nat) (r : List Char) :
    Text.replaceAll (placeholder i) r (placeholder j) = if i = j then r else placeholder j := by
  split
  next h => exact h ▸ Text.replaceAll_self nofun
  next h => exact Text.replaceAll_of_absent fun hi => h (eq_of_placeholder_within hi)

/-! ## Filling -/

/-- The characters between the places occur in no place, and some stand between any two places. -/
def isSpaced : List (Char ⊕ Nat) → Bool
  | [] => true
  | .inl c :: parts => !isPlaceChar c && isSpaced parts
  | .inr _ :: parts => parts.head?.all (·.isLeft) && isSpaced parts

theorem isSpaced_template (code : ErrorCode) : isSpaced (readTemplate code.template.toList) ∧
      writeTemplate placeholder (readTemplate code.template.toList) = code.template.toList := by
  cases code <;> decide


theorem replaceAll_writeTemplate (i : Nat) (r : List Char) (text : Nat → List Char) : ∀ {parts}, isSpaced parts →
      Text.replaceAll (placeholder i) r (writeTemplate text parts) =
        writeTemplate (fun j => Text.replaceAll (placeholder i) r (text j)) parts
  | [], _ => rfl
  | .inl c :: parts, h => by
    obtain ⟨hc, h⟩ := Bool.and_eq_true_iff.1 h
    have hne : '\x7b' ≠ c := by rintro rfl; cases hc
    simpa [writeTemplate, Text.replaceAll, Text.replaceFrom, placeholder, hne] using
      replaceAll_writeTemplate i r text h
  | .inr j :: parts, h => by
    obtain ⟨hparts, h⟩ := Bool.and_eq_true_iff.1 h
    have hhead : ∀ c ∈ (writeTemplate text parts).head?, c ∉ placeholder i := by
      match parts, hparts, h with
      | [], _, _ => nofun
      | .inl c :: _, _, h =>
        rintro _ ⟨⟩ hmem
        simp [isSpaced, isPlaceChar_of_mem hmem] at h
    have hrest := replaceAll_writeTemplate i r text h
    simp only [writeTemplate, flatMap_cons, Sum.elim_inr] at hhead hrest ⊢
    rw [Text.replaceAll_append hhead, hrest]

theorem fillFrom_writeTemplate {parts} (h : isSpaced parts) : ∀ (args : List String) (i : Nat) (text : Nat → List Char),
      fillFrom i args (writeTemplate text parts) =
        writeTemplate (fun j => fillFrom i args (text j)) parts
  | [], _, _ => rfl
  | arg :: args, i, text => by
    simp only [fillFrom, replaceAll_writeTemplate _ _ _ h, fillFrom_writeTemplate h]

/-- A place takes its argument, into which the later arguments are filled. -/
theorem fillFrom_placeholder (j : Nat) : ∀ (args : List String) (i : Nat), i ≤ j →
      fillFrom i args (placeholder j) =
        args[j - i]?.elim (placeholder j) fun arg =>
          fillFrom (j + 1) (args.drop (j + 1 - i)) arg.toList
  | [], _, _ => by simp [fillFrom]
  | arg :: args, i, h => by
    rw [fillFrom, replaceAll_placeholder]
    split
    next heq => simp [heq]
    next hne =>
      have : j - i = j - (i + 1) + 1 := by omega
      have : j + 1 - i = j + 1 - (i + 1) + 1 := by omega
      rw [fillFrom_placeholder j args (i + 1) (by omega)]
      simp [*]

theorem fillFrom_of_absent : ∀ {args : List String} {i : Nat} {msg : List Char},
      (∀ j, i ≤ j → j < i + args.length → ¬ placeholder j <:+: msg) → fillFrom i args msg = msg
  | [], _, _, _ => rfl
  | arg :: args, i, msg, h => by
    rw [fillFrom, Text.replaceAll_of_absent (h i le_rfl (by simp))]
    exact fillFrom_of_absent fun j hij hj => h j (by omega) (by simp; omega)

namespace Error

/-- The argument that a place takes, with the later arguments filled into it. -/
def expandedArg (args : List String) (i : Nat) : Option String :=
  args[i]?.map fun arg => String.ofList (fillFrom (i + 1) (args.drop (i + 1)) arg.toList)

theorem message_format (code : ErrorCode) (args : List String) :
    (format code args).message = substitute code.template (expandedArg args) := by
  obtain ⟨hspaced, htemplate⟩ := isSpaced_template code
  have hplace (j) : fillFrom 0 args (placeholder j) =
      (expandedArg args j).elim (placeholder j) String.toList := by
    rw [fillFrom_placeholder j args 0 (Nat.zero_le j), expandedArg]
    cases args[j]? <;> simp
  calc (format code args).message
      = String.ofList (fillFrom 0 args code.template.toList) := rfl
    _ = substitute code.template (expandedArg args) := by
      rw [← htemplate, fillFrom_writeTemplate hspaced, substitute, funext hplace]

/-- Every place of a message's template takes its argument with the later arguments filled into it.
If no argument has the place of a later one in its text, all places are filled at once and each
argument stands in the message as it is. -/
theorem format_substitutes (code : ErrorCode) (args : List String) :
    (format code args).message = substitute code.template (expandedArg args) ∧
      ((∀ i j arg, args[i]? = some arg → i < j → j < args.length →
          ¬ placeholder j <:+: arg.toList) →
        (format code args).message = substitute code.template (args[·]?)) := by
  refine ⟨message_format code args, fun h => ?_⟩
  rw [message_format]
  congr
  funext i
  cases harg : args[i]? with
  | none => simp [expandedArg, harg]
  | some arg =>
    have hkept : fillFrom (i + 1) (args.drop (i + 1)) arg.toList = arg.toList :=
      fillFrom_of_absent fun j hij hj => h i j arg harg hij (by grind)
    simp [expandedArg, harg, hkept]

theorem format_substitutes_brackets :
    (format .FORG0001 ["\x7b0\x7d", "xs:date"]).message = "cannot convert '\x7b0\x7d' to xs:date" := by
  refine ((format_substitutes .FORG0001 ["\x7b0\x7d", "xs:date"]).2 ?_).trans (by decide)
  intro i j arg harg hij hj
  obtain ⟨rfl, rfl⟩ : i = 0 ∧ j = 1 := by grind
  obtain rfl := Option.some.inj harg
  decide

/-- The text that could not be converted stands for a place, and is filled like one. -/
theorem format_expands_argument :
    (format .FORG0001 ["\x7b1\x7d", "xs:date"]).message = "cannot convert 'xs:date' to xs:date" ∧
      substitute ErrorCode.FORG0001.template (["\x7b1\x7d", "xs:date"][·]?) =
        "cannot convert '\x7b1\x7d' to xs:date" := by
  decide

end Error

end XPath
