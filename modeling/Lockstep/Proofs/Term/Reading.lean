/-
# The text of a term can be read back

The text of a term is a phrase: words, and groups of phrases between
parentheses. A phrase is determined by its characters (`Phrase.chars_inj`), and
what a term says is determined by its phrase: two constructors share a form,
and a variable, like most operations, is written without its width, but where
every variable has one width, terms of one text have one width and one meaning.

Key definitions: `Phrase`, `Phrase.chars`, `Term.phrase`, `Term.Same`.
Key theorems: `Phrase.chars_inj`, `Term.toList_text`, `Term.phrase_meaning`,
`Term.same_of_text_eq`, `Term.text_determines`.
-/
import Lockstep.Proofs.Term.Typing
import Lockstep.Term.Text

namespace Lockstep

/-- A word, or phrases between parentheses. -/
inductive Phrase where
  | word (letters : List Char)
  | group (parts : List Phrase)

namespace Phrase

/-- Does the character end a word? -/
def isMark (c : Char) : Bool := c = ' ' || c = '(' || c = ')'

mutual

def chars : Phrase → List Char
  | word letters => letters
  | group parts => '(' :: (listChars parts ++ [')'])

/-- The characters of phrases with a space between each two. -/
def listChars : List Phrase → List Char
  | [] => []
  | [p] => chars p
  | p :: q :: ps => chars p ++ ' ' :: listChars (q :: ps)

end

/-- Every word has letters, and only letters. -/
inductive Plain : Phrase → Prop
  | word {letters : List Char} (ne : letters ≠ []) (letter : ∀ c ∈ letters, isMark c = false) :
      Plain (word letters)
  | group {parts : List Phrase} (plain : ∀ p ∈ parts, Plain p) : Plain (group parts)

/-- No word goes on into the rest. -/
def Ends (rest : List Char) : Prop := ∀ c ∈ rest.head?, isMark c = true

theorem ends_cons {c : Char} (h : isMark c = true) (rest : List Char) : Ends (c :: rest) := by
  rintro d ⟨rfl⟩
  exact h

theorem ends_nil : Ends [] := by simp [Ends]

theorem letters_inj : ∀ {l l' r r' : List Char}, (∀ c ∈ l, isMark c = false) →
    (∀ c ∈ l', isMark c = false) → Ends r → Ends r' → l ++ r = l' ++ r' → l = l' ∧ r = r'
  | [], [], _, _, _, _, _, _, h => ⟨rfl, h⟩
  | [], c :: l', r, r', _, hl', hr, _, h => by
    have hc := hl' c List.mem_cons_self
    rw [hr c (by rw [← List.nil_append r, h]; rfl)] at hc
    cases hc
  | c :: l, [], r, r', hl, _, _, hr', h => by
    have hc := hl c List.mem_cons_self
    rw [hr' c (by rw [← List.nil_append r', ← h]; rfl)] at hc
    cases hc
  | c :: l, d :: l', r, r', hl, hl', hr, hr', h => by
    obtain ⟨rfl, htail⟩ := List.cons.inj h
    obtain ⟨rfl, rfl⟩ := letters_inj (fun e he => hl e (List.mem_cons_of_mem _ he))
      (fun e he => hl' e (List.mem_cons_of_mem _ he)) hr hr' htail
    exact ⟨rfl, rfl⟩

/-- The first character of a phrase is no space and no closing parenthesis. -/
theorem Plain.head {p : Phrase} (h : p.Plain) :
    ∃ c cs, p.chars = c :: cs ∧ (isMark c = false ∨ c = '(') := by
  cases h with
  | @word letters ne letter =>
    obtain ⟨c, cs, rfl⟩ := List.exists_cons_of_ne_nil ne
    exact ⟨c, cs, by rw [chars], .inl (letter c List.mem_cons_self)⟩
  | @group parts _ => exact ⟨'(', _, by rw [chars], .inr rfl⟩

theorem Plain.chars_ne_close {p : Phrase} (h : p.Plain) (r r' : List Char) :
    p.chars ++ r ≠ ')' :: r' := by
  intro he
  obtain ⟨c, cs, hp, hc⟩ := h.head
  rw [hp, List.cons_append] at he
  obtain ⟨rfl, -⟩ := List.cons.inj he
  rcases hc with hc | hc
  · exact absurd hc (by decide)
  · exact absurd hc (by decide)

theorem word_chars_ne_open {l r r' : List Char} (ne : l ≠ [])
    (letter : ∀ c ∈ l, isMark c = false) : l ++ r ≠ '(' :: r' := by
  intro he
  obtain ⟨c, cs, rfl⟩ := List.exists_cons_of_ne_nil ne
  obtain ⟨rfl, -⟩ := List.cons.inj he
  exact absurd (letter _ List.mem_cons_self) (by decide)

/-- What follows the first phrase of a group: the closing parenthesis and the
rest, or a space and the other phrases. -/
def follow (rest : List Char) : List Phrase → List Char
  | [] => ')' :: rest
  | q :: ps => ' ' :: (listChars (q :: ps) ++ ')' :: rest)

theorem ends_follow (rest : List Char) (ps : List Phrase) : Ends (follow rest ps) := by
  cases ps with
  | nil => exact ends_cons (by decide) _
  | cons q ps => exact ends_cons (by decide) _

theorem listChars_cons (p : Phrase) (ps : List Phrase) (rest : List Char) :
    listChars (p :: ps) ++ ')' :: rest = chars p ++ follow rest ps := by
  cases ps with
  | nil => rw [listChars, follow]
  | cons q ps => rw [listChars, follow, List.append_assoc, List.cons_append]

mutual

/-- **Phrases are read in one way.** -/
theorem chars_inj : ∀ (p q : Phrase) {r r' : List Char}, p.Plain → q.Plain → Ends r → Ends r' →
    p.chars ++ r = q.chars ++ r' → p = q ∧ r = r'
  | word l, word l', r, r', .word _ hl, .word _ hl', hr, hr', h => by
    rw [chars, chars] at h
    obtain ⟨rfl, rfl⟩ := letters_inj hl hl' hr hr' h
    exact ⟨rfl, rfl⟩
  | word l, group qs, r, r', .word ne hl, _, _, _, h => by
    rw [chars, chars, List.cons_append] at h
    exact absurd h (word_chars_ne_open ne hl)
  | group ps, word l', r, r', _, .word ne hl, _, _, h => by
    rw [chars, chars, List.cons_append] at h
    exact absurd h.symm (word_chars_ne_open ne hl)
  | group ps, group qs, r, r', .group hp, .group hq, _, _, h => by
    simp only [chars, List.cons_append, List.append_assoc, List.nil_append, List.cons.injEq,
      true_and] at h
    obtain ⟨rfl, rfl⟩ := listChars_inj ps qs hp hq h
    exact ⟨rfl, rfl⟩

theorem listChars_inj : ∀ (ps qs : List Phrase) {r r' : List Char}, (∀ p ∈ ps, p.Plain) →
    (∀ q ∈ qs, q.Plain) → listChars ps ++ ')' :: r = listChars qs ++ ')' :: r' → ps = qs ∧ r = r'
  | [], [], r, r', _, _, h => by simpa [listChars] using h
  | [], q :: qs, r, r', _, hq, h => by
    rw [listChars_cons] at h
    exact absurd h.symm ((hq q List.mem_cons_self).chars_ne_close _ _)
  | p :: ps, [], r, r', hp, _, h => by
    rw [listChars_cons] at h
    exact absurd h ((hp p List.mem_cons_self).chars_ne_close _ _)
  | p :: ps, q :: qs, r, r', hp, hq, h => by
    rw [listChars_cons, listChars_cons] at h
    obtain ⟨rfl, hfollow⟩ := chars_inj p q (hp p List.mem_cons_self) (hq q List.mem_cons_self)
      (ends_follow r ps) (ends_follow r' qs) h
    match ps, qs, hfollow with
    | [], [], hf => exact ⟨rfl, (List.cons.inj hf).2⟩
    | [], _ :: _, hf => exact absurd (List.cons.inj hf).1 (by decide)
    | _ :: _, [], hf => exact absurd (List.cons.inj hf).1 (by decide)
    | p' :: ps, q' :: qs, hf =>
      obtain ⟨hps, rfl⟩ := listChars_inj (p' :: ps) (q' :: qs)
        (fun x hx => hp x (List.mem_cons_of_mem _ hx))
        (fun x hx => hq x (List.mem_cons_of_mem _ hx)) (List.cons.inj hf).2
      exact ⟨by rw [hps], rfl⟩

end

end Phrase

/-! ### The phrase of a term -/

namespace Term

open Phrase

theorem toDigits_inj {m n : Nat} (h : Nat.toDigits 10 m = Nat.toDigits 10 n) : m = n := by
  rw [← Nat.ofDigitChars_ten_toDigits (n := m), h, Nat.ofDigitChars_ten_toDigits]

theorem isMark_of_mem_toDigits {n : Nat} {c : Char} (h : c ∈ Nat.toDigits 10 n) :
    isMark c = false := by
  have hd : c.isDigit = true := Nat.isDigit_of_mem_toDigits (by decide) (by decide) h
  simp only [isMark, Bool.or_eq_false_iff, decide_eq_false_iff_not]
  refine ⟨⟨?_, ?_⟩, ?_⟩ <;> rintro rfl <;> exact absurd hd (by decide)

def constPhrase (width value : Nat) : Phrase :=
  group [word ['_'], word ('b' :: 'v' :: Nat.toDigits 10 value), word (Nat.toDigits 10 width)]

def phrase : Term → Phrase
  | const w v => constPhrase w v
  | var _ i => word ('v' :: Nat.toDigits 10 i)
  | binary op _ a b => group [word op.symbol.toList, phrase a, phrase b]
  | invert _ a => group [word "bvnot".toList, phrase a]
  | slice w a lo =>
    group [group [word ['_'], word "extract".toList, word (Nat.toDigits 10 (lo + w - 1)),
      word (Nat.toDigits 10 lo)], phrase a]
  | concat _ lo hi => group [word "concat".toList, phrase hi, phrase lo]
  | ite _ c t f =>
    group [word "ite".toList, group [word ['='], phrase c, constPhrase 1 1], phrase t, phrase f]
  | equal a b =>
    group [word "ite".toList, group [word ['='], phrase a, phrase b], constPhrase 1 1,
      constPhrase 1 0]

theorem toDigits_zero_one : Nat.toDigits 10 0 = ['0'] ∧ Nat.toDigits 10 1 = ['1'] := ⟨rfl, rfl⟩

section

variable (w : Nat) (a b c : Term)

theorem text_binary (op : BinaryOp) :
    (binary op w a b).text = "(" ++ op.symbol ++ " " ++ a.text ++ " " ++ b.text ++ ")" := rfl

theorem text_invert : (invert w a).text = "(bvnot " ++ a.text ++ ")" := rfl

theorem text_slice (lo : Nat) :
    (slice w a lo).text =
      "((_ extract " ++ toString (lo + w - 1) ++ " " ++ toString lo ++ ") " ++ a.text ++ ")" := rfl

theorem text_concat : (concat w a b).text = "(concat " ++ b.text ++ " " ++ a.text ++ ")" := rfl

theorem text_ite :
    (ite w c a b).text = "(ite (= " ++ c.text ++ " (_ bv1 1)) " ++ a.text ++ " " ++ b.text ++ ")" :=
  rfl

theorem text_equal :
    (equal a b).text = "(ite (= " ++ a.text ++ " " ++ b.text ++ ") (_ bv1 1) (_ bv0 1))" := rfl

end

theorem toList_text (t : Term) : t.text.toList = t.phrase.chars := by
  induction t with
  | const w v =>
    rw [show (const w v).text = constText w v from rfl]
    simp [constText, phrase, constPhrase, chars, listChars]
  | var w i =>
    rw [show (var w i).text = variableText i from rfl]
    simp [variableText, phrase, chars]
  | binary op w a b iha ihb => simp [text_binary, phrase, chars, listChars, iha, ihb]
  | invert w a ih => simp [text_invert, phrase, chars, listChars, ih]
  | slice w a lo ih => simp [text_slice, phrase, chars, listChars, ih]
  | concat w lo hi ihl ihh => simp [text_concat, phrase, chars, listChars, ihl, ihh]
  | ite w c t f ihc iht ihf =>
    simp [text_ite, phrase, constPhrase, chars, listChars, ihc, iht, ihf, toDigits_zero_one]
  | equal a b iha ihb =>
    simp [text_equal, phrase, constPhrase, chars, listChars, iha, ihb, toDigits_zero_one]

/-! ### Phrases of terms are plain -/

theorem plain_digits (n : Nat) : (word (Nat.toDigits 10 n)).Plain :=
  .word Nat.toDigits_ne_nil fun _ => isMark_of_mem_toDigits

theorem plain_word {l : List Char} (ne : l ≠ []) (h : l.any isMark = false) : (word l).Plain :=
  .word ne fun c hc => Bool.eq_false_iff.2 (List.any_eq_false.1 h c hc)

theorem plain_letters_digits {l : List Char} (h : l.any isMark = false) (n : Nat) :
    (word (l ++ Nat.toDigits 10 n)).Plain := by
  refine .word ?_ fun c hc => ?_
  · simp
  · rcases List.mem_append.1 hc with hc | hc
    · exact Bool.eq_false_iff.2 (List.any_eq_false.1 h c hc)
    · exact isMark_of_mem_toDigits hc

theorem plain_constPhrase (w v : Nat) : (constPhrase w v).Plain := by
  have h1 : (word ['_']).Plain := plain_word (by decide) (by decide)
  have h2 : (word ('b' :: 'v' :: Nat.toDigits 10 v)).Plain :=
    plain_letters_digits (l := ['b', 'v']) (by decide) v
  refine .group ?_
  simp [h1, h2, plain_digits]

theorem plain_phrase (t : Term) : t.phrase.Plain := by
  induction t with
  | const w v => exact plain_constPhrase w v
  | var w i => exact plain_letters_digits (l := ['v']) (by decide) i
  | binary op w a b iha ihb =>
    have hop : (word op.symbol.toList).Plain := by
      cases op <;> exact plain_word (by decide) (by decide)
    refine .group ?_
    simp [iha, ihb, hop]
  | invert w a ih =>
    have hop : (word "bvnot".toList).Plain := plain_word (by decide) (by decide)
    refine .group ?_
    simpa [ih] using hop
  | slice w a lo ih =>
    have h1 : (word ['_']).Plain := plain_word (by decide) (by decide)
    have h2 : (word "extract".toList).Plain := plain_word (by decide) (by decide)
    refine .group ?_
    simp only [List.mem_cons, List.not_mem_nil, or_false, forall_eq_or_imp, forall_eq, ih, and_true]
    refine .group ?_
    simpa [h1, plain_digits] using h2
  | concat w lo hi ihl ihh =>
    have hop : (word "concat".toList).Plain := plain_word (by decide) (by decide)
    refine .group ?_
    simpa [ihl, ihh] using hop
  | ite w c t f ihc iht ihf =>
    have h1 : (word "ite".toList).Plain := plain_word (by decide) (by decide)
    have h2 : (word ['=']).Plain := plain_word (by decide) (by decide)
    have h3 : (group [word ['='], phrase c, constPhrase 1 1]).Plain :=
      .group (by simp [h2, ihc, plain_constPhrase])
    refine .group ?_
    simpa [h3, iht, ihf] using h1
  | equal a b iha ihb =>
    have h1 : (word "ite".toList).Plain := plain_word (by decide) (by decide)
    have h2 : (word ['=']).Plain := plain_word (by decide) (by decide)
    have h3 : (group [word ['='], phrase a, phrase b]).Plain :=
      .group (by simp [h2, iha, ihb])
    refine .group ?_
    simpa [h3, plain_constPhrase] using h1

theorem phrase_eq_of_text_eq {s t : Term} (h : s.text = t.text) : s.phrase = t.phrase := by
  have hc : s.phrase.chars ++ [] = t.phrase.chars ++ [] := by
    rw [← toList_text, ← toList_text, h]
  exact (chars_inj s.phrase t.phrase (plain_phrase s) (plain_phrase t) ends_nil ends_nil hc).1

/-! ### What a phrase says -/

/-- Two terms of one width that denote one word under every assignment. -/
structure Same (s t : Term) : Prop where
  width : s.width = t.width
  eval : ∀ ρ, s.eval ρ = t.eval ρ

theorem symbol_inj {op op' : BinaryOp} (h : op.symbol.toList = op'.symbol.toList) : op = op' := by
  revert h
  cases op <;> cases op' <;> decide

theorem symbol_ne (op : BinaryOp) :
    op.symbol.toList ≠ ['_'] ∧ op.symbol.toList ≠ ['c', 'o', 'n', 'c', 'a', 't'] := by
  cases op <;> decide

theorem constPhrase_inj {w v w' v' : Nat} (h : constPhrase w v = constPhrase w' v') :
    w = w' ∧ v = v' := by
  simp only [constPhrase, group.injEq, List.cons.injEq, word.injEq, true_and, and_true] at h
  exact ⟨toDigits_inj h.2, toDigits_inj h.1⟩

theorem eq_const_of_phrase {t : Term} {w v : Nat} (h : t.phrase = constPhrase w v) :
    t = const w v := by
  cases t with
  | const w' v' =>
    obtain ⟨rfl, rfl⟩ := constPhrase_inj h
    rfl
  | binary op w' a b => simp [phrase, constPhrase, symbol_ne] at h
  | _ => simp [phrase, constPhrase] at h

/-- A choice between the bits one and zero is a comparison of the condition with one. -/
theorem same_ite_equal {w : Nat} {c a : Term} (hc : c.WellTyped) (hw : c.width = 1) (h1 : w = 1)
    (hca : c.Same a) : (ite w c (const 1 1) (const 1 0)).Same (equal a (const 1 1)) := by
  refine ⟨h1, fun ρ => ?_⟩
  have hlt : c.eval ρ < 2 := by
    have := hc.eval_lt ρ
    rwa [hw] at this
  simp only [eval, Word.ite, h1, ← hca.eval]
  have hbit : c.eval ρ % 2 = c.eval ρ := Nat.mod_eq_of_lt hlt
  rw [hbit]
  split <;> rfl

variable {V : Widths}

/-- **A phrase determines the meaning.** The induction is on the first term;
the second is of the same constructor, or one is a choice between the bits one
and zero and the other a comparison with one. -/
theorem phrase_meaning (hV : V.Functional) {s t : Term} (hs : s.Typed V) (ht : t.Typed V)
    (h : s.phrase = t.phrase) : s.Same t := by
  induction s generalizing t with
  | const w v =>
    obtain rfl := eq_const_of_phrase h.symm
    exact ⟨rfl, fun _ => rfl⟩
  | var w i =>
    cases t with
    | var w' i' =>
      simp only [phrase, word.injEq, List.cons.injEq, true_and] at h
      obtain rfl := toDigits_inj h
      obtain rfl := hV i w w' (typed_var.1 hs).2.2 (typed_var.1 ht).2.2
      exact ⟨rfl, fun _ => rfl⟩
    | _ => simp [phrase, constPhrase] at h
  | binary op w a b iha ihb =>
    cases t with
    | binary op' w' a' b' =>
      simp only [phrase, group.injEq, List.cons.injEq, word.injEq, and_true] at h
      obtain ⟨hop, ha, hb⟩ := h
      obtain rfl := symbol_inj hop
      obtain ⟨hsa, hsb, rfl, -⟩ := typed_binary.1 hs
      obtain ⟨hta, htb, rfl, -⟩ := typed_binary.1 ht
      have ha := iha hsa hta ha
      have hb := ihb hsb htb hb
      exact ⟨ha.width, fun ρ => by simp only [eval, ha.eval, hb.eval, ha.width]⟩
    | const | concat => simp [phrase, constPhrase, symbol_ne] at h
    | _ => simp [phrase] at h
  | invert w a ih =>
    cases t with
    | invert w' a' =>
      simp only [phrase, group.injEq, List.cons.injEq, and_true, true_and] at h
      obtain ⟨hsa, rfl⟩ := typed_invert.1 hs
      obtain ⟨hta, rfl⟩ := typed_invert.1 ht
      have ha := ih hsa hta h
      exact ⟨ha.width, fun ρ => by simp only [eval, ha.eval, ha.width]⟩
    | _ => simp [phrase, constPhrase] at h
  | slice w a lo ih =>
    cases t with
    | slice w' a' lo' =>
      simp only [phrase, group.injEq, List.cons.injEq, word.injEq, and_true, true_and] at h
      obtain ⟨⟨hend, hlo⟩, ha⟩ := h
      obtain ⟨hsa, hpos, -⟩ := typed_slice.1 hs
      obtain ⟨hta, hpos', -⟩ := typed_slice.1 ht
      have ha := ih hsa hta ha
      have hend := toDigits_inj hend
      obtain rfl := toDigits_inj hlo
      obtain rfl : w = w' := by omega
      exact ⟨rfl, fun ρ => by simp only [eval, ha.eval]⟩
    | _ => simp [phrase, constPhrase] at h
  | concat w lo hi ihl ihh =>
    cases t with
    | concat w' lo' hi' =>
      simp only [phrase, group.injEq, List.cons.injEq, and_true, true_and] at h
      obtain ⟨hsl, hsh, rfl, -⟩ := typed_concat.1 hs
      obtain ⟨htl, hth, rfl, -⟩ := typed_concat.1 ht
      have hl := ihl hsl htl h.2
      have hh := ihh hsh hth h.1
      refine ⟨?_, fun ρ => ?_⟩
      · show lo.width + hi.width = lo'.width + hi'.width
        rw [hl.width, hh.width]
      · simp only [eval, hl.eval, hh.eval, hl.width, hh.width]
    | binary op w' a' b' => simp [phrase, (symbol_ne op).2.symm] at h
    | _ => simp [phrase, constPhrase] at h
  | ite w c a b ihc iha ihb =>
    obtain ⟨hsc, hsa, hsb, hwc, hwa, hwb⟩ := typed_ite.1 hs
    cases t with
    | ite w' c' a' b' =>
      simp only [phrase, group.injEq, List.cons.injEq, and_true, true_and] at h
      obtain ⟨htc, hta, htb, -, hwa', -⟩ := typed_ite.1 ht
      have hc := ihc hsc htc h.1
      have ha := iha hsa hta h.2.1
      have hb := ihb hsb htb h.2.2
      obtain rfl : w = w' := by rw [← hwa, ← hwa', ha.width]
      exact ⟨rfl, fun ρ => by simp only [eval, hc.eval, ha.eval, hb.eval]⟩
    | equal a' b' =>
      simp only [phrase, group.injEq, List.cons.injEq, and_true, true_and] at h
      obtain ⟨⟨hc, hone⟩, ha, hb⟩ := h
      obtain rfl := eq_const_of_phrase hone.symm
      obtain rfl := eq_const_of_phrase ha
      obtain rfl := eq_const_of_phrase hb
      exact same_ite_equal hsc.wellTyped hwc hwa.symm (ihc hsc (typed_equal.1 ht).1 hc)
    | _ => simp [phrase, constPhrase] at h
  | equal a b iha ihb =>
    obtain ⟨hsa, hsb, -⟩ := typed_equal.1 hs
    cases t with
    | equal a' b' =>
      simp only [phrase, group.injEq, List.cons.injEq, and_true, true_and] at h
      obtain ⟨hta, htb, -⟩ := typed_equal.1 ht
      have ha := iha hsa hta h.1
      have hb := ihb hsb htb h.2
      exact ⟨rfl, fun ρ => by simp only [eval, ha.eval, hb.eval]⟩
    | ite w c' a' b' =>
      simp only [phrase, group.injEq, List.cons.injEq, and_true, true_and] at h
      obtain ⟨⟨hc, hone⟩, ha, hb⟩ := h
      obtain ⟨htc, -, -, hwc, hwa, -⟩ := typed_ite.1 ht
      obtain rfl := eq_const_of_phrase hone
      obtain rfl := eq_const_of_phrase ha.symm
      obtain rfl := eq_const_of_phrase hb.symm
      have hca := iha hsa htc hc
      have := same_ite_equal htc.wellTyped hwc hwa.symm ⟨hca.width.symm, fun ρ => (hca.eval ρ).symm⟩
      exact ⟨this.width.symm, fun ρ => (this.eval ρ).symm⟩
    | _ => simp [phrase, constPhrase] at h

/-- **The text of a term determines its width and its meaning.** -/
theorem same_of_text_eq (hV : V.Functional) {s t : Term} (hs : s.Typed V) (ht : t.Typed V)
    (h : s.text = t.text) : s.Same t :=
  phrase_meaning hV hs ht (phrase_eq_of_text_eq h)

/-- **One text, one meaning.** Two well-typed terms in which every variable stands at one width
throughout have the same width and the same value under every assignment, if they have the
same text. -/
theorem text_determines {s t : Term} (hs : s.WellTyped) (ht : t.WellTyped)
    (hwidths : ∀ id w w', s.Mentions id w ∨ t.Mentions id w → s.Mentions id w' ∨ t.Mentions id w' →
      w = w') (h : s.text = t.text) :
    s.width = t.width ∧ ∀ ρ, s.eval ρ = t.eval ρ := by
  have hsame := same_of_text_eq (V := fun id w => s.Mentions id w ∨ t.Mentions id w) hwidths
    ⟨hs, fun _ _ => .inl⟩ ⟨ht, fun _ _ => .inr⟩ h
  exact ⟨hsame.width, hsame.eval⟩

/-- A choice between the bits one and zero is written as the comparison that it is. -/
theorem text_determines_choice :
    (ite 1 (var 1 0) (const 1 1) (const 1 0)).width = (equal (var 1 0) (const 1 1)).width ∧
      ∀ ρ, (ite 1 (var 1 0) (const 1 1) (const 1 0)).eval ρ =
        (equal (var 1 0) (const 1 1)).eval ρ := by
  refine text_determines ?_ ?_ ?_ rfl
  · simp only [WellTyped, width]
    decide
  · simp only [WellTyped, width]
    decide
  · simp only [Mentions, or_false, or_self]
    rintro id w w' ⟨-, rfl⟩ ⟨-, rfl⟩
    rfl

end Term
end Lockstep
