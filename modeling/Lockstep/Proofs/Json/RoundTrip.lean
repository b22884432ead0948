/-
# Written documents are read back

The reader gets over the tokens of a document to the state in which the
document is in its place, whatever is open around it. So the text of any
document reads as the document: numbers as they are written, repeated members,
and strings that denote no text.

Key theorems: `Json.apart_tokens`, `Json.foldlM_tokens`, `Json.read?_compact`.
-/
import Lockstep.Json.Printer
import Lockstep.Json.Reader
import Lockstep.Proofs.Json.Text

namespace Lockstep.Json

/-! ### The tokens of a document -/

namespace Token

variable {ts us : List Token}

theorem Apart.cons (hts : Apart ts) {t : Token} (ht : t.isNumber = false) : Apart (t :: ts) :=
  List.IsChain.cons hts fun _ _ hnumber => absurd hnumber (by simp [ht])

theorem Apart.append (hts : Apart ts) (hus : Apart us)
    (h : ∀ u ∈ us.head?, u.isNumber = false) : Apart (ts ++ us) :=
  List.IsChain.append hts hus fun _ _ u hu _ => h u hu

theorem Apart.single (t : Token) : Apart [t] := List.isChain_singleton t

end Token

mutual

/-- **No number comes right after a number** in a document. -/
theorem apart_tokens : ∀ v : Json, Token.Apart v.tokens
  | null => .single _
  | bool _ => .single _
  | number _ => .single _
  | string _ => .single _
  | array items =>
    ((apart_itemTokens items).cons (t := .openArray) rfl).append (.single .closeArray)
      (by rintro _ ⟨⟩; rfl)
  | object members =>
    ((apart_memberTokens members).cons (t := .openObject) rfl).append (.single .closeObject)
      (by rintro _ ⟨⟩; rfl)

theorem apart_itemTokens : ∀ items : List Json, Token.Apart (itemTokens items)
  | [] => List.isChain_nil
  | [v] => apart_tokens v
  | v :: w :: vs =>
    (apart_tokens v).append ((apart_itemTokens (w :: vs)).cons (t := .comma) rfl)
      (by rintro _ ⟨⟩; rfl)

theorem apart_memberTokens : ∀ members, Token.Apart (memberTokens members)
  | [] => List.isChain_nil
  | [(k, v)] => ((apart_tokens v).cons (t := .colon) rfl).cons (t := .string k) rfl
  | (k, v) :: m :: ms =>
    (((apart_tokens v).cons (t := .colon) rfl).cons (t := .string k) rfl).append
      ((apart_memberTokens (m :: ms)).cons (t := .comma) rfl) (by rintro _ ⟨⟩; rfl)

end

theorem exists_tokens (v : Json) : ∃ t ts, v.tokens = t :: ts ∧ t ≠ .closeArray := by
  cases v with
  | array items => exact ⟨_, _, rfl, nofun⟩
  | object members => exact ⟨_, _, rfl, nofun⟩
  | _ => exact ⟨_, _, rfl, nofun⟩

/-! ### Reading the tokens -/

/-- In front of an item an array that was just opened goes on as one with items. -/
theorem foldlM_itemOrEnd (v : Json) (rest : List Token) (items : List Json)
    (frames : List Frame) :
    (v.tokens ++ rest).foldlM Reader.step (.within .itemOrEnd (.array items :: frames)) =
      (v.tokens ++ rest).foldlM Reader.step (.within .value (.array items :: frames)) := by
  obtain ⟨t, ts, htokens, ht⟩ := exists_tokens v
  have hstep : Reader.step (.within .itemOrEnd (.array items :: frames)) t =
      Reader.step (.within .value (.array items :: frames)) t := by
    cases t with
    | closeArray => contradiction
    | _ => rfl
  rw [htokens, List.cons_append, List.foldlM_cons, List.foldlM_cons, hstep]

mutual

/-- **The reader gets over a document** to the state in which it is in its place. By induction on
the document: the items and members read so far lie on the stack in reverse. -/
theorem foldlM_tokens : ∀ (v : Json) (rest : List Token) (frames : List Frame),
    (v.tokens ++ rest).foldlM Reader.step (.within .value frames) =
      rest.foldlM Reader.step (Reader.place v frames)
  | null, _, _ => rfl
  | bool _, _, _ => rfl
  | number _, _, _ => rfl
  | string _, _, _ => rfl
  | array [], _, _ => rfl
  | array (v :: vs), rest, frames => by
    show ((itemTokens (v :: vs) ++ [Token.closeArray]) ++ rest).foldlM Reader.step
      (.within .itemOrEnd (.array [] :: frames)) = _
    obtain ⟨more, hmore⟩ : ∃ more, itemTokens (v :: vs) = v.tokens ++ more := by
      cases vs with
      | nil => exact ⟨[], (List.append_nil _).symm⟩
      | cons w vs => exact ⟨_, rfl⟩
    rw [List.append_assoc, hmore, List.append_assoc, foldlM_itemOrEnd, ← List.append_assoc,
      ← hmore]
    exact foldlM_itemTokens (v :: vs) [] rest frames (List.cons_ne_nil v vs)
  | object [], _, _ => rfl
  | object ((k, v) :: ms), rest, frames => by
    show ((memberTokens ((k, v) :: ms) ++ [Token.closeObject]) ++ rest).foldlM Reader.step
      (.within .keyOrEnd (.object [] none :: frames)) = _
    rw [List.append_assoc]
    have hmembers :=
      foldlM_memberTokens ((k, v) :: ms) [] none rest frames (List.cons_ne_nil _ ms)
    cases ms with
    | nil => exact hmembers
    | cons m ms => exact hmembers

theorem foldlM_itemTokens : ∀ (items read : List Json) (rest : List Token)
    (frames : List Frame), items ≠ [] →
    (itemTokens items ++ .closeArray :: rest).foldlM Reader.step
        (.within .value (.array read :: frames)) =
      rest.foldlM Reader.step (Reader.place (.array (read.reverse ++ items)) frames)
  | [], _, _, _, hne => absurd rfl hne
  | [v], read, rest, frames, _ => by
    rw [itemTokens, foldlM_tokens v]
    show rest.foldlM Reader.step (Reader.place (.array (v :: read).reverse) frames) = _
    rw [List.reverse_cons]
  | v :: w :: vs, read, rest, frames, _ => by
    show (v.tokens ++ .comma :: itemTokens (w :: vs) ++ .closeArray :: rest).foldlM _ _ = _
    rw [List.append_assoc, foldlM_tokens v]
    show (itemTokens (w :: vs) ++ .closeArray :: rest).foldlM Reader.step
      (.within .value (.array (v :: read) :: frames)) = _
    rw [foldlM_itemTokens (w :: vs) _ _ _ (List.cons_ne_nil w vs), List.reverse_cons,
      List.append_assoc]
    rfl

theorem foldlM_memberTokens : ∀ (members read : List (Option String × Json))
    (key : Option String) (rest : List Token) (frames : List Frame), members ≠ [] →
    (memberTokens members ++ .closeObject :: rest).foldlM Reader.step
        (.within .key (.object read key :: frames)) =
      rest.foldlM Reader.step (Reader.place (.object (read.reverse ++ members)) frames)
  | [], _, _, _, _, hne => absurd rfl hne
  | [(k, v)], read, key, rest, frames, _ => by
    show (v.tokens ++ .closeObject :: rest).foldlM Reader.step
      (.within .value (.object read k :: frames)) = _
    rw [foldlM_tokens v]
    show rest.foldlM Reader.step (Reader.place (.object ((k, v) :: read).reverse) frames) = _
    rw [List.reverse_cons]
  | (k, v) :: (l, u) :: ms, read, key, rest, frames, _ => by
    show (v.tokens ++ .comma :: memberTokens ((l, u) :: ms) ++ .closeObject :: rest).foldlM
      Reader.step (.within .value (.object read k :: frames)) = _
    rw [List.append_assoc, foldlM_tokens v]
    show (memberTokens ((l, u) :: ms) ++ .closeObject :: rest).foldlM Reader.step
      (.within .key (.object ((k, v) :: read) k :: frames)) = _
    rw [foldlM_memberTokens ((l, u) :: ms) _ _ _ _ (List.cons_ne_nil _ ms), List.reverse_cons,
      List.append_assoc]
    rfl

end

/-- **The text of a document reads as the document.** -/
theorem read?_compact (v : Json) : read? v.compact = some v := by
  have hrun := foldlM_tokens v [] []
  rw [List.append_nil] at hrun
  unfold read? compact
  rw [String.toList_ofList, Token.read?_texts (apart_tokens v)]
  show (v.tokens.foldlM Reader.step Reader.start >>= Reader.document?) = _
  unfold Reader.start
  rw [hrun]
  rfl

end Lockstep.Json
