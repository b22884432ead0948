/-
# Written tokens are read back

The text of a token in front of another text is cut off again, and gives the
token. A number needs a text behind it that does not go on with the number;
in a document that is so, since no number comes right after a number.

Key definitions: `Json.Token.Stops`, `Json.Token.fractionText`, `Json.Token.exponentText`,
`Json.Token.isNumber`, `Json.Token.Apart`.
Key theorems: `Json.Number.parts_spec`, `Json.Token.readNumber_numberText`,
`Json.Token.readString_escape`, `Json.Token.readOne_text`, `Json.Token.read?_texts`.
-/
import Mathlib.Data.List.Chain
import Mathlib.Tactic.SplitIfs
import Lockstep.Json.Token

namespace Lockstep.Json

/-! ### Digits -/

namespace Token

variable {s : List Char}

theorem ofDigits_eq (ds : List Char) : ofDigits ds = Nat.ofDigitChars 10 ds 0 := rfl

theorem ofDigits_padded (k n : Nat) :
    ofDigits (List.replicate k '0' ++ Nat.toDigits 10 n) = n := by
  rw [ofDigits_eq, Nat.ofDigitChars_append, Nat.ofDigitChars_replicate_zero, Nat.mul_zero,
    Nat.ofDigitChars_ten_toDigits]

theorem ofDigits_digits (n : Nat) : ofDigits (digits n) = n := Nat.ofDigitChars_ten_toDigits

theorem digits_ne_nil (n : Nat) : digits n ≠ [] := Nat.toDigits_ne_nil

theorem isDigit_digits {n : Nat} : ∀ d ∈ digits n, d.isDigit = true := fun _ hd =>
  Nat.isDigit_of_mem_toDigits (by decide) (by decide) hd

/-- Digits are read up to the first character that is none. -/
theorem readDigits_append {ds : List Char} (hds : ∀ d ∈ ds, d.isDigit = true)
    (hs : ∀ c ∈ s.head?, c.isDigit = false) : readDigits (ds ++ s) = (ds, s) := by
  have htake : s.takeWhile Char.isDigit = [] := by
    cases s with
    | nil => rfl
    | cons c s => rw [List.takeWhile_cons_of_neg (by simp [hs c rfl])]
  have hdrop : s.dropWhile Char.isDigit = s := by
    cases s with
    | nil => rfl
    | cons c s => rw [List.dropWhile_cons_of_neg (by simp [hs c rfl])]
  unfold readDigits
  rw [List.takeWhile_append_of_pos hds, List.dropWhile_append_of_pos hds, htake, hdrop,
    List.append_nil]

end Token

theorem eq_zero_of_head_toDigits {n : Nat} (h : (Nat.toDigits 10 n).head? = some '0') : n = 0 := by
  induction n using Nat.strongRecOn with
  | ind n ih =>
    by_cases hn : n < 10
    · rw [Nat.toDigits_of_lt_base hn] at h
      exact Nat.digitChar_eq_zero.1 (Option.some.inj h)
    · have hten : 10 ≤ n := Nat.le_of_not_lt hn
      rw [Nat.toDigits_of_base_le (by decide) hten,
        List.head?_append_of_ne_nil _ Nat.toDigits_ne_nil] at h
      have hdiv : n / 10 = 0 := ih (n / 10) (Nat.div_lt_self (by omega) (by decide)) h
      omega

namespace Number

/-- **The parts of a number** are digits that together denote its digits. As many as it has places
stand after the point, and before it stands a zero alone or no zero first. -/
theorem parts_spec (n : Number) :
    (∀ d ∈ n.parts.1 ++ n.parts.2, d.isDigit = true) ∧
      Token.ofDigits (n.parts.1 ++ n.parts.2) = n.digits ∧ n.parts.2.length = n.places ∧
      n.parts.1 ≠ [] ∧ (n.parts.1.head? = some '0' → n.parts.1.length ≤ 1) := by
  obtain ⟨k, hk⟩ : ∃ k, k = n.places + 1 - (Nat.toDigits 10 n.digits).length := ⟨_, rfl⟩
  obtain ⟨ds, hds⟩ : ∃ ds, ds = List.replicate k '0' ++ Nat.toDigits 10 n.digits := ⟨_, rfl⟩
  have hwhole : n.parts.1 = ds.take (ds.length - n.places) := by rw [hds, hk]; rfl
  have hfraction : n.parts.2 = ds.drop (ds.length - n.places) := by rw [hds, hk]; rfl
  have hlength : ds.length = k + (Nat.toDigits 10 n.digits).length := by
    rw [hds, List.length_append, List.length_replicate]
  have hpos : 0 < ds.length - n.places := by omega
  rw [hwhole, hfraction, List.take_append_drop]
  refine ⟨fun d hd => ?_, ?_, ?_, ?_, fun hzero => ?_⟩
  · rw [hds] at hd
    rcases List.mem_append.1 hd with hd | hd
    · rw [List.eq_of_mem_replicate hd]
      decide
    · exact Nat.isDigit_of_mem_toDigits (by decide) (by decide) hd
  · rw [hds, Token.ofDigits_padded]
  · rw [List.length_drop]
    omega
  · apply List.ne_nil_of_length_pos
    rw [List.length_take]
    omega
  · rw [List.length_take]
    by_cases hpadded : k = 0
    · -- without padding a leading zero is the whole number
      have hhead : (Nat.toDigits 10 n.digits).head? = some '0' := by
        rw [List.head?_take, if_neg (by omega)] at hzero
        rwa [hds, hpadded] at hzero
      rw [eq_zero_of_head_toDigits hhead] at hlength
      have hone : (Nat.toDigits 10 0).length = 1 := rfl
      omega
    · omega

end Number

namespace Token

variable {s : List Char}

/-! ### Numbers -/

/-- Does a text not go on with a number in front of it? -/
def Stops (s : List Char) : Prop :=
  ∀ c ∈ s.head?, c.isDigit = false ∧ c ≠ '.' ∧ c ≠ 'e' ∧ c ≠ 'E'

/-- The text of the places of a number, if it has any. -/
def fractionText (n : Number) : List Char := if n.places = 0 then [] else '.' :: n.parts.2

/-- The text of an exponent, if there is one. -/
def exponentText : Option Int → List Char
  | none => []
  | some e => 'e' :: (if e < 0 then '-' :: digits e.natAbs else digits e.natAbs)

theorem numberText_eq (n : Number) :
    numberText n = (if n.negative then ['-'] else []) ++
      (n.parts.1 ++ (fractionText n ++ exponentText n.exponent)) := by
  unfold numberText fractionText
  cases n.exponent <;> simp only [exponentText, List.append_assoc]

theorem readExponentDigits_digits (hs : Stops s) (negative : Bool) (n : Nat) :
    readExponentDigits negative (digits n ++ s) =
      some (some (if negative then -(n : Int) else n), s) := by
  have hread : readDigits (digits n ++ s) = (digits n, s) :=
    readDigits_append isDigit_digits fun c hc => (hs c hc).1
  unfold readExponentDigits
  rw [hread]
  dsimp only
  rw [if_neg (digits_ne_nil n), ofDigits_digits]

/-- Behind its mark an exponent without a sign starts with a digit. -/
theorem readExponent_unsigned {d : Char} (hd : d.isDigit = true) :
    readExponent ('e' :: d :: s) = readExponentDigits false (d :: s) := by
  unfold readExponent
  dsimp only
  rw [if_pos (Or.inl rfl)]
  split
  · rename_i h
    rw [(List.cons.inj h).1] at hd
    contradiction
  · rename_i h
    rw [(List.cons.inj h).1] at hd
    contradiction
  · rfl

/-- **An exponent** is read back. -/
theorem readExponent_text (hs : Stops s) (e : Option Int) :
    readExponent (exponentText e ++ s) = some (e, s) := by
  cases e with
  | none =>
    cases s with
    | nil => rfl
    | cons c s =>
      obtain ⟨-, -, he, hE⟩ := hs c rfl
      show readExponent (c :: s) = _
      simp [readExponent, he, hE]
  | some e =>
    by_cases hneg : e < 0
    · have htext : exponentText (some e) ++ s = 'e' :: '-' :: (digits e.natAbs ++ s) := by
        simp [exponentText, hneg]
      have habs : -(e.natAbs : Int) = e := by omega
      rw [htext]
      show readExponentDigits true _ = _
      rw [readExponentDigits_digits hs, if_pos rfl, habs]
    · have htext : exponentText (some e) ++ s = 'e' :: (digits e.natAbs ++ s) := by
        simp [exponentText, hneg]
      have habs : (e.natAbs : Int) = e := by omega
      obtain ⟨d, ds, hds⟩ := List.exists_cons_of_ne_nil (digits_ne_nil e.natAbs)
      have hd : d.isDigit = true := isDigit_digits d (hds ▸ List.mem_cons_self)
      have hread := readExponentDigits_digits hs false e.natAbs
      rw [hds] at hread
      rw [htext, hds, List.cons_append, readExponent_unsigned hd, ← List.cons_append, hread,
        if_neg Bool.false_ne_true, habs]

theorem head_fractionText (hs : Stops s) (n : Number) :
    ∀ c ∈ (fractionText n ++ (exponentText n.exponent ++ s)).head?, c.isDigit = false := by
  intro c hc
  unfold fractionText at hc
  split at hc
  · cases he : n.exponent with
    | none =>
      rw [he] at hc
      exact (hs c hc).1
    | some e =>
      rw [he] at hc
      obtain rfl := Option.some.inj hc
      rfl
  · obtain rfl := Option.some.inj hc
    rfl

/-- What follows the digits of a number goes on neither with digits nor with a point. -/
theorem head_exponentText (hs : Stops s) (e : Option Int) :
    ∀ c ∈ (exponentText e ++ s).head?, c.isDigit = false ∧ c ≠ '.' := by
  intro c hc
  cases e with
  | none => exact ⟨(hs c hc).1, (hs c hc).2.1⟩
  | some e =>
    obtain rfl := Option.some.inj hc
    exact ⟨rfl, by decide⟩

/-- **The places of a number** are read back. -/
theorem readFraction_text (n : Number) (hs : ∀ c ∈ s.head?, c.isDigit = false ∧ c ≠ '.') :
    readFraction (fractionText n ++ s) = some (n.parts.2, s) := by
  obtain ⟨hdigits, -, hplaces, -, -⟩ := n.parts_spec
  unfold fractionText
  by_cases hzero : n.places = 0
  · rw [if_pos hzero, List.eq_nil_of_length_eq_zero (hplaces.trans hzero)]
    cases s with
    | nil => rfl
    | cons c s =>
      have hpoint : c ≠ '.' := (hs c rfl).2
      simp [readFraction, hpoint]
  · have hread : readDigits (n.parts.2 ++ s) = (n.parts.2, s) :=
      readDigits_append (fun d hd => hdigits d (List.mem_append_right _ hd)) fun c hc => (hs c hc).1
    have hne : n.parts.2 ≠ [] := List.ne_nil_of_length_pos (by omega)
    rw [if_neg hzero]
    show (if (readDigits (n.parts.2 ++ s)).1 = [] then none else
      some (readDigits (n.parts.2 ++ s))) = _
    rw [hread, if_neg hne]

/-- **The text of a number** is read back in front of any text that does not go on with it. -/
theorem readNumber_numberText (hs : Stops s) (n : Number) :
    readNumber (numberText n ++ s) = some (n, s) := by
  obtain ⟨hdigits, hvalue, hplaces, hne, hzero⟩ := n.parts_spec
  obtain ⟨rest, hrest⟩ : ∃ rest, rest = fractionText n ++ (exponentText n.exponent ++ s) :=
    ⟨_, rfl⟩
  have hread : readDigits (n.parts.1 ++ rest) = (n.parts.1, rest) :=
    readDigits_append (fun d hd => hdigits d (List.mem_append_left _ hd))
      (hrest ▸ head_fractionText hs n)
  have hlead : ¬(n.parts.1 = [] ∨ (n.parts.1.head? = some '0' ∧ 1 < n.parts.1.length)) := by
    rintro (hnil | ⟨hhead, hlong⟩)
    · exact hne hnil
    · exact absurd (hzero hhead) (by omega)
  have hunsigned (negative : Bool) : readUnsigned negative (n.parts.1 ++ rest) =
      some (⟨negative, n.digits, n.places, n.exponent⟩, s) := by
    unfold readUnsigned
    rw [hread]
    dsimp only
    rw [if_neg hlead, hrest, readFraction_text n (head_exponentText hs n.exponent)]
    dsimp only [Option.bind_eq_bind, Option.bind_some]
    rw [readExponent_text hs]
    dsimp only [Option.bind_some]
    rw [hvalue, hplaces]
  rw [numberText_eq, List.append_assoc, List.append_assoc, List.append_assoc, ← hrest]
  cases hsign : n.negative with
  | true =>
    show readUnsigned true (n.parts.1 ++ rest) = _
    rw [hunsigned, ← hsign]
  | false =>
    obtain ⟨d, ds, hds⟩ := List.exists_cons_of_ne_nil hne
    have hd : d ≠ '-' := by
      rintro rfl
      have := hdigits '-' (by simp [hds])
      contradiction
    have hstart : readNumber (n.parts.1 ++ rest) = readUnsigned false (n.parts.1 ++ rest) := by
      rw [hds]
      simp [readNumber, hd]
    show readNumber (n.parts.1 ++ rest) = _
    rw [hstart, hunsigned, ← hsign]

/-! ### Strings -/

theorem readString_plain {c : Char} (hcontrol : ¬ c < ' ') (hquote : c ≠ '"')
    (hslash : c ≠ '\\') (s : List Char) : readString (c :: s) = consChar c (readString s) := by
  rw [readString.eq_def]
  split
  · contradiction
  · rename_i h
    exact absurd (List.cons.inj h).1 hquote
  · rename_i h
    exact absurd (List.cons.inj h).1 hslash
  · rename_i h
    exact absurd (List.cons.inj h).1 hslash
  · rename_i h
    exact absurd (List.cons.inj h).1 hslash
  · rename_i h
    obtain ⟨rfl, rfl⟩ := List.cons.inj h
    rw [if_neg (by simp [hcontrol, hslash])]

theorem readString_letter {l c : Char} (h : escaped? l = some c) (s : List Char) :
    readString ('\\' :: l :: s) = consChar c (readString s) := by
  have hu : l ≠ 'u' := by
    rintro rfl
    contradiction
  rw [readString.eq_def]
  split
  · contradiction
  · rename_i hs
    exact absurd (List.cons.inj hs).1 (by decide)
  · rename_i hs
    exact absurd (List.cons.inj (List.cons.inj hs).2).1 hu
  · rename_i hs
    exact absurd (List.cons.inj (List.cons.inj hs).2).1 hu
  · rename_i hs
    obtain ⟨rfl, rfl⟩ := List.cons.inj (List.cons.inj hs).2
    rw [h]
  · rename_i hslash hs
    exact (hslash l s (List.cons.inj hs).1.symm (List.cons.inj hs).2.symm).elim

theorem readString_malformed {a b c d : Char} (hunit : codeUnit? a b c d = none) (s : List Char) :
    readString ('\\' :: 'u' :: a :: b :: c :: d :: s) = none := by
  rw [readString.eq_def]
  split
  · contradiction
  · rename_i hs
    exact absurd (List.cons.inj hs).1 (by decide)
  · rename_i hs
    simp only [List.cons.injEq, true_and] at hs
    obtain ⟨rfl, rfl, rfl, rfl, rfl⟩ := hs
    rw [hunit]
  · rename_i hs
    simp only [List.cons.injEq, true_and] at hs
    obtain ⟨rfl, rfl, rfl, rfl, rfl⟩ := hs
    rw [hunit]
  · rename_i hunicode hs
    obtain ⟨rfl, rfl⟩ := List.cons.inj (List.cons.inj hs).2
    exact (hunicode a b c d s rfl rfl).elim
  · rename_i hslash hs
    obtain ⟨rfl, rfl⟩ := List.cons.inj hs
    exact (hslash _ _ rfl rfl).elim

/-- A unicode escape is four digits: what they denote, and the rest. The second half of a pair is
looked for only behind a first half, so the cases are the same whatever follows. -/
theorem readString_unicode {a b c d : Char} {u : Nat} (hunit : codeUnit? a b c d = some u)
    (hhigh : isHigh u = false) (hlow : isLow u = false) (s : List Char) :
    readString ('\\' :: 'u' :: a :: b :: c :: d :: s) = consChar (Char.ofNat u) (readString s) := by
  rw [readString.eq_def]
  split
  · contradiction
  · rename_i hs
    exact absurd (List.cons.inj hs).1 (by decide)
  · rename_i e f g h rest hs
    simp only [List.cons.injEq, true_and] at hs
    obtain ⟨rfl, rfl, rfl, rfl, rfl⟩ := hs
    rw [hunit]
    cases hnext : codeUnit? e f g h with
    | none => rw [readString_malformed hnext]; rfl
    | some v => simp only [hhigh, hlow, Bool.false_and, Bool.false_or, Bool.false_eq_true, if_false]
  · rename_i hs
    simp only [List.cons.injEq, true_and] at hs
    obtain ⟨rfl, rfl, rfl, rfl, rfl⟩ := hs
    rw [hunit]
    simp only [hhigh, hlow, Bool.or_self, Bool.false_eq_true, if_false]
  · rename_i hpair hunicode hs
    obtain ⟨rfl, rfl⟩ := List.cons.inj (List.cons.inj hs).2
    exact (hunicode a b c d s rfl rfl).elim
  · rename_i hpair hunicode hslash hs
    obtain ⟨rfl, rfl⟩ := List.cons.inj hs
    exact (hslash _ _ rfl rfl).elim

theorem codeUnit?_hexDigits {n : Nat} (h : n < 32) :
    codeUnit? '0' '0' (hexDigit (n / 16)) (hexDigit (n % 16)) = some n := by
  have hall : ∀ n < 32, codeUnit? '0' '0' (hexDigit (n / 16)) (hexDigit (n % 16)) = some n := by
    decide
  exact hall n h

/-- **A written character** is read back. -/
theorem readString_escape (c : Char) (s : List Char) :
    readString (escape c ++ s) = consChar c (readString s) := by
  unfold escape
  split_ifs with hquote hslash hback hfeed hline hreturn htab hcontrol
  · subst hquote
    exact readString_letter rfl s
  · subst hslash
    exact readString_letter rfl s
  · subst hback
    exact readString_letter rfl s
  · subst hfeed
    exact readString_letter rfl s
  · subst hline
    exact readString_letter rfl s
  · subst hreturn
    exact readString_letter rfl s
  · subst htab
    exact readString_letter rfl s
  · have hlt : c.toNat < 32 := UInt32.lt_iff_toNat_lt.1 hcontrol
    have hread := readString_unicode (codeUnit?_hexDigits hlt) (by simp [isHigh]; omega)
      (by simp [isLow]; omega) s
    rwa [Char.ofNat_toNat] at hread
  · exact readString_plain hcontrol hquote hslash s

/-- **The written characters of a string** are read back up to the closing quote. -/
theorem readString_flatMap_escape (cs s : List Char) :
    readString (cs.flatMap escape ++ '"' :: s) = some (some cs, s) := by
  induction cs with
  | nil => rw [readString.eq_def]; rfl
  | cons c cs ih =>
    rw [List.flatMap_cons, List.append_assoc, readString_escape, ih]
    rfl

/-! ### Tokens -/

def isNumber : Token → Bool
  | number _ => true
  | _ => false

theorem exists_numberText (n : Number) :
    ∃ c cs, numberText n = c :: cs ∧ (c = '-' ∨ c.isDigit = true) := by
  obtain ⟨hdigits, -, -, hne, -⟩ := n.parts_spec
  rw [numberText_eq]
  cases n.negative with
  | true => exact ⟨'-', _, rfl, .inl rfl⟩
  | false =>
    obtain ⟨d, ds, hds⟩ := List.exists_cons_of_ne_nil hne
    refine ⟨d, ds ++ (fractionText n ++ exponentText n.exponent), ?_,
      .inr (hdigits d (by simp [hds]))⟩
    rw [hds]
    rfl

theorem readOne_number {c : Char} {rest : List Char} {n : Number}
    (hc : c = '-' ∨ c.isDigit = true) (hread : readNumber (c :: s) = some (n, rest)) :
    readOne (c :: s) = some (number n, rest) := by
  have hmap : readOne (c :: s) = (readNumber (c :: s)).map (Prod.map number id) := by
    rcases hc with rfl | hc
    · rfl
    · rw [readOne.eq_def]
      split
      case h_11 => rfl
      all_goals
        rename_i h
        rw [(List.cons.inj h).1] at hc
        contradiction
  rw [hmap, hread]
  rfl

theorem readOne_string {rest : List Char} {body : Option (List Char)}
    (hread : readString s = some (body, rest)) :
    readOne ('"' :: s) = some (string (body.map String.ofList), rest) := by
  have hmap : readOne ('"' :: s) =
      (readString s).map (Prod.map (fun body => string (body.map String.ofList)) id) := rfl
  rw [hmap, hread]
  rfl

/-- **The text of a token** is read back; behind a number the text must not go on with it. -/
theorem readOne_text {t : Token} (hs : t.isNumber = true → Stops s) :
    readOne (text t ++ s) = some (t, s) := by
  cases t with
  | bool b => cases b <;> rfl
  | number n =>
    obtain ⟨c, cs, htext, hc⟩ := exists_numberText n
    have hread := readNumber_numberText (hs rfl) n
    show readOne (numberText n ++ s) = _
    rw [htext] at hread ⊢
    exact readOne_number hc hread
  | string body =>
    cases body with
    | none =>
      have hlone : readString ('\\' :: 'u' :: 'd' :: '8' :: '0' :: '0' :: '"' :: s) =
          some (none, s) := rfl
      exact readOne_string hlone
    | some body =>
      have hread := readOne_string (readString_flatMap_escape body.toList s)
      have htext : text (string (some body)) ++ s =
          '"' :: (body.toList.flatMap escape ++ '"' :: s) := by simp [text]
      rw [htext, hread, Option.map_some, String.ofList_toList]
  | _ => rfl

theorem exists_text (t : Token) : ∃ c cs, text t = c :: cs ∧ isBlank c = false := by
  cases t with
  | bool b => cases b <;> exact ⟨_, _, rfl, rfl⟩
  | number n =>
    obtain ⟨c, cs, htext, rfl | hc⟩ := exists_numberText n
    · exact ⟨_, cs, htext, rfl⟩
    · refine ⟨c, cs, htext, ?_⟩
      by_contra hblank
      simp only [isBlank, Bool.not_eq_false, Bool.or_eq_true, decide_eq_true_eq] at hblank
      rcases hblank with ((rfl | rfl) | rfl) | rfl <;> contradiction
  | string body => cases body <;> exact ⟨_, _, rfl, rfl⟩
  | _ => exact ⟨_, _, rfl, rfl⟩

theorem stops_text {t : Token} (ht : t.isNumber = false) (s : List Char) :
    Stops (text t ++ s) := by
  have hstart {c : Char} {cs : List Char} (htext : text t = c :: cs)
      (hc : c.isDigit = false ∧ c ≠ '.' ∧ c ≠ 'e' ∧ c ≠ 'E') : Stops (text t ++ s) := by
    rw [htext]
    rintro _ ⟨rfl⟩
    exact hc
  cases t with
  | number n => contradiction
  | bool b => cases b <;> exact hstart rfl (by decide)
  | string body => cases body <;> exact hstart rfl (by decide)
  | _ => exact hstart rfl (by decide)

/-- Does no number come right after a number? -/
def Apart (ts : List Token) : Prop :=
  ts.IsChain fun t u => t.isNumber = true → u.isNumber = false

theorem readMany_texts {ts : List Token} (h : Apart ts) {fuel : Nat} (hfuel : ts.length ≤ fuel) :
    readMany fuel (ts.flatMap text) = some ts := by
  induction ts generalizing fuel with
  | nil => cases fuel <;> rfl
  | cons t ts ih =>
    obtain ⟨fuel, rfl⟩ : ∃ k, fuel = k + 1 := ⟨fuel - 1, by simp at hfuel; omega⟩
    obtain ⟨hnext, hrest⟩ := List.isChain_cons.1 h
    have hstops : t.isNumber = true → Stops (ts.flatMap text) := by
      intro ht
      cases ts with
      | nil => exact fun c hc => (Option.not_mem_none c hc).elim
      | cons u ts => exact stops_text (hnext u rfl ht) _
    obtain ⟨c, cs, htext, hblank⟩ := exists_text t
    have hone : readOne (c :: (cs ++ ts.flatMap text)) = some (t, ts.flatMap text) := by
      rw [← List.cons_append, ← htext]
      exact readOne_text hstops
    rw [List.flatMap_cons, htext, List.cons_append]
    unfold readMany
    rw [hblank, if_neg Bool.false_ne_true, hone]
    dsimp only [Option.bind_eq_bind, Option.bind_some]
    rw [ih hrest (Nat.le_of_succ_le_succ hfuel)]
    rfl

/-- **A list of tokens** without neighbouring numbers is read back from its text. -/
theorem read?_texts {ts : List Token} (h : Apart ts) : read? (ts.flatMap text) = some ts := by
  apply readMany_texts h
  rw [List.length_flatMap]
  induction ts with
  | nil => exact Nat.le_refl 0
  | cons t ts ih =>
    obtain ⟨c, cs, htext, -⟩ := exists_text t
    have hrest := ih (List.isChain_cons.1 h).2
    rw [List.map_cons, List.sum_cons, htext]
    simp only [List.length_cons]
    omega

end Token
end Lockstep.Json
