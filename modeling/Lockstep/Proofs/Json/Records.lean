/-
# Records are decoded

A record whose keys are different gives each of its fields its value. What
nests in a record is less deep than the record, and a record of plain values is
plain. Of the numbers that stand without point and exponent all below two to
the power 53 fit a double.

Key theorems: `Json.Number.overflows_nat`, `Json.natBelow?_nat`, `Json.fields?_record`,
`Json.untag?_record`, `Json.depth_le_of_record`, `Json.isPlain_record`.
-/
import Mathlib.Data.List.Basic
import Mathlib.Tactic.SplitIfs
import Lockstep.Program.Document

namespace Lockstep.Json

/-! ### Numbers -/

namespace Number

/-- A number without point and exponent is all before the point. -/
theorem parts_nat (n : Nat) : (⟨false, n, 0, none⟩ : Number).parts = (Nat.toDigits 10 n, []) := by
  have hpad : 0 + 1 - (Nat.toDigits 10 n).length = 0 := by
    have := Nat.length_toDigits_pos (b := 10) (n := n)
    omega
  unfold parts
  dsimp only
  rw [hpad, List.replicate_zero, List.nil_append, Nat.sub_zero, List.take_length,
    List.drop_length]

theorem takeDigits_eq (n : Nat) (ds : List Char)
    (h : Nat.ofDigitChars 10 ds n < 0x10000000000000000) :
    takeDigits n ds = (Nat.ofDigitChars 10 ds n, ds.length) := by
  induction ds generalizing n with
  | nil => rw [takeDigits, Nat.ofDigitChars_nil, List.length_nil]
  | cons d ds ih =>
    have hcode : '0'.toNat = 48 := rfl
    rw [Nat.ofDigitChars_cons, hcode] at h ⊢
    have hle : 10 * n + (d.toNat - 48) ≤ Nat.ofDigitChars 10 ds (10 * n + (d.toNat - 48)) := by
      have hpow : 0 < 10 ^ ds.length := Nat.pow_pos (by decide)
      have hscaled := Nat.le_mul_of_pos_left (10 * n + (d.toNat - 48)) hpow
      rw [Nat.ofDigitChars_eq_ofDigitChars_zero]
      exact Nat.le_trans hscaled (Nat.le_add_right _ _)
    rw [takeDigits, if_pos (Nat.lt_of_le_of_lt hle h), ih _ h, List.length_cons]

/-- **A number of at most 53 bits** fits a double. -/
theorem overflows_nat {n : Nat} (h : n < Nat.pow 2 53) :
    (⟨false, n, 0, none⟩ : Number).overflows = false := by
  have htake : takeDigits 0 (Nat.toDigits 10 n) = (n, (Nat.toDigits 10 n).length) := by
    rw [takeDigits_eq, Nat.ofDigitChars_ten_toDigits]
    rw [Nat.ofDigitChars_ten_toDigits]
    exact Nat.lt_trans h (by decide)
  have hsignificand : (⟨false, n, 0, none⟩ : Number).significand = (n, 0) := by
    unfold significand
    rw [parts_nat]
    dsimp only
    rw [htake]
    simp [takeDigits]
  have hround : Double.round n * Double.round (Nat.pow 10 0) = n := by
    rw [Double.round_of_lt h, Double.round_of_lt (by decide)]
    exact Nat.mul_one n
  have hfinite : ¬ Double.infinite ≤ n :=
    Nat.not_le.2 (Nat.lt_trans h (by decide +kernel))
  have hproduct : Double.productOverflows n (Nat.pow 10 0) = false := by
    unfold Double.productOverflows
    simp only [hround, hfinite, decide_false]
  unfold overflows
  rw [hsignificand]
  dsimp only
  split_ifs with hzero hscale
  · rfl
  · exact absurd hscale (by decide)
  · exact hproduct

end Number

theorem natBelow?_nat {bound n : Nat} (h : n < bound) : natBelow? bound (nat n) = some n := by
  have hvalue : (⟨false, n, 0, none⟩ : Number).nat? = some n := rfl
  unfold natBelow? nat
  dsimp only
  rw [hvalue, Option.filter_some, if_pos (decide_eq_true h)]

theorem nat8?_nat {n : Nat} (h : n < 0x100) : (nat n).nat8? = some n := natBelow?_nat h

theorem nat32?_nat {n : Nat} (h : n < 0x100000000) : (nat n).nat32? = some n := natBelow?_nat h

theorem isPlain_nat {n : Nat} (h : n < Nat.pow 2 53) : (nat n).isPlain = true := by
  unfold nat isPlain
  rw [Number.overflows_nat h]
  rfl

theorem isPlain_nat8 {n : Nat} (h : n < 0x100) : (nat n).isPlain = true :=
  isPlain_nat (Nat.lt_trans h (by decide))

theorem isPlain_nat32 {n : Nat} (h : n < 0x100000000) : (nat n).isPlain = true :=
  isPlain_nat (Nat.lt_trans h (by decide))

/-! ### Texts -/

@[simp] theorem isPlain_text (s : String) : (text s).isPlain = true := rfl

@[simp] theorem text?_text (s : String) : (text s).text? = some s := rfl

@[simp] theorem name?_text (room : Nat) (s : String) : (text s).name? room = some s := rfl

@[simp] theorem plainName?_text (s : String) : (text s).plainName? = some s := rfl

@[simp] theorem tagAt?_text (tags : List String) (s : String) : tagAt? tags (text s) = some s := rfl

/-! ### Records -/

variable {m : String × Json} {room : Nat}

theorem filter_eq_nil {members : List (String × Json)} {key : String}
    (h : ∀ m ∈ members, m.1 ≠ key) :
    (members.map fun (k, v) => (some k, v)).filter (·.1 = some key) = [] := by
  rw [List.filter_eq_nil_iff]
  intro p hp
  obtain ⟨m, hm, rfl⟩ := List.mem_map.1 hp
  simpa using h m hm

theorem single?_of_mem {members : List (String × Json)}
    (hkeys : (members.map Prod.fst).Nodup) (hm : m ∈ members) :
    single? (members.map fun (k, v) => (some k, v)) m.1 = some (some m.2) := by
  obtain ⟨before, after, rfl⟩ := List.append_of_mem hm
  rw [List.map_append, List.map_cons] at hkeys
  obtain ⟨-, hafter, hapart⟩ := List.nodup_append.1 hkeys
  have hbefore : ∀ l ∈ before, l.1 ≠ m.1 := fun l hl =>
    hapart l.1 (List.mem_map_of_mem hl) m.1 List.mem_cons_self
  have hbehind : ∀ l ∈ after, l.1 ≠ m.1 := fun l hl hsame =>
    (List.nodup_cons.1 hafter).1 (hsame ▸ List.mem_map_of_mem hl)
  unfold single?
  rw [List.map_append, List.filter_append, filter_eq_nil hbefore, List.map_cons,
    List.filter_cons_of_pos (by simp), filter_eq_nil hbehind]
  rfl

/-- **The fields of a record** are its values. -/
theorem fields?_record (members : List (String × Json)) (hkeys : (members.map Prod.fst).Nodup)
    (room : Nat) : fields? (room + 1) (members.map Prod.fst) (record members) =
      some (members.map fun m => some m.2) := by
  have hall : (members.map fun (k, v) => (some k, v)).all (·.1.isSome) = true := by
    rw [List.all_map]
    exact List.all_eq_true.2 fun _ _ => rfl
  have hvalues (ms : List (String × Json)) (hms : ∀ m ∈ ms, m ∈ members) :
      (ms.map Prod.fst).mapM (single? (members.map fun (k, v) => (some k, v))) =
        some (ms.map fun m => some m.2) := by
    induction ms with
    | nil => rfl
    | cons m ms ih =>
      obtain ⟨hm, hms⟩ := List.forall_mem_cons.1 hms
      rw [List.map_cons, List.mapM_cons, single?_of_mem hkeys hm, ih hms]
      rfl
  unfold record fields?
  dsimp only
  rw [if_pos hall]
  exact hvalues members fun _ hm => hm

/-- **The tag of a tagged record** and the rest of it. -/
theorem untag?_record (tag : Json) (members : List (String × Json))
    (h : ∀ m ∈ members, m.1 ≠ "type") :
    untag? (record (("type", tag) :: members)) = some (tag, record members) := by
  have hsingle : single? ((("type", tag) :: members).map fun (k, v) => (some k, v)) "type" =
      some (some tag) := by
    unfold single?
    rw [List.map_cons, List.filter_cons_of_pos (by simp), filter_eq_nil h]
  have hrest : ((("type", tag) :: members).map fun (k, v) => (some k, v)).filter
      (·.1 ≠ some "type") = members.map fun (k, v) => (some k, v) := by
    rw [List.map_cons, List.filter_cons_of_neg (by simp), List.filter_eq_self]
    intro p hp
    obtain ⟨m, hm, rfl⟩ := List.mem_map.1 hp
    simpa using h m hm
  unfold record untag?
  dsimp only
  rw [hsingle]
  dsimp only
  rw [hrest]

/-- **What nests in a record** leaves room for the record. -/
theorem depth_le_of_record {members : List (String × Json)} (hm : m ∈ members)
    (hroom : (record members).depth ≤ room + 1) : m.2.depth ≤ room := by
  have hdepth : m.2.depth ≤ depthMembers (members.map fun (k, v) => (some k, v)) := by
    clear hroom
    induction members with
    | nil => cases hm
    | cons l ms ih =>
      rw [List.map_cons, depthMembers]
      rcases List.mem_cons.1 hm with rfl | hm
      · exact Nat.le_max_left _ _
      · exact Nat.le_trans (ih hm) (Nat.le_max_right _ _)
  exact Nat.le_trans hdepth (Nat.le_of_succ_le_succ hroom)

theorem depth_le_of_array {items : List Json} {v : Json} (hv : v ∈ items)
    (hroom : (array items).depth ≤ room + 1) : v.depth ≤ room := by
  have hdepth : v.depth ≤ depthItems items := by
    clear hroom
    induction items with
    | nil => cases hv
    | cons u us ih =>
      rw [depthItems]
      rcases List.mem_cons.1 hv with rfl | hv
      · exact Nat.le_max_left _ _
      · exact Nat.le_trans (ih hv) (Nat.le_max_right _ _)
  exact Nat.le_trans hdepth (Nat.le_of_succ_le_succ hroom)

theorem exists_of_lt_depthItems {items : List Json} (h : room < depthItems items) :
    ∃ v ∈ items, room < v.depth := by
  induction items with
  | nil => cases h
  | cons v vs ih =>
    rw [depthItems] at h
    by_cases hv : room < v.depth
    · exact ⟨v, List.mem_cons_self, hv⟩
    · obtain ⟨u, hu, hdeep⟩ := ih (by omega)
      exact ⟨u, List.mem_cons_of_mem v hu, hdeep⟩

/-- **A record of plain values** is plain. -/
theorem isPlain_record {members : List (String × Json)}
    (h : ∀ m ∈ members, m.2.isPlain = true) : (record members).isPlain = true := by
  show isPlainMembers (members.map fun (k, v) => (some k, v)) = true
  induction members with
  | nil => rfl
  | cons l ms ih =>
    obtain ⟨hl, hms⟩ := List.forall_mem_cons.1 h
    rw [List.map_cons, isPlainMembers, hl, ih hms]
    rfl

end Lockstep.Json
