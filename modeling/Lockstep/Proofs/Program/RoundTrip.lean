/-
# Written instructions are read back

Reading undoes writing: for expressions and statements where the document nests
no deeper than there is room, and so for the text of an instruction whose
document nests no deeper than a decoder follows. The numbers of an instruction
must be of their fields, as eight or 32 bits.

Key definitions: `Expr.fits`, `Statement.fits`, `Instruction.fits`.
Key theorems: `Expr.ofJson?_toJson`, `Statement.ofJson?_toJson`, `Instruction.ofJson?_toJson_eq`,
`Instruction.read?_write`, `Instruction.read?_write_eq_none`.
-/
import Lockstep.Proofs.Json.Records
import Lockstep.Proofs.Json.RoundTrip

namespace Lockstep

/-! ### Expressions -/

theorem BinaryOp.ofName?_op (op : BinaryOp) : ofName? op.name = some op := by
  cases op <;> decide

namespace Expr

/-- Is every number of the expression one of its field? -/
def fits : Expr → Bool
  | const value size => value < 0x100000000 && size < 0x100
  | register _ => true
  | memory size address => size < 0x100 && fits address
  | binary _ a b => fits a && fits b
  | invert a => fits a
  | slice a lo hi => fits a && lo < 0x100 && hi < 0x100
  | concat lo hi => fits lo && fits hi
  | isZero a => fits a
  | ite cond t f => fits cond && fits t && fits f
  | undefined size => size < 0x100

theorem depth_toJson_pos (e : Expr) : 0 < e.toJson.depth := by
  cases e <;> exact Nat.succ_pos _

/-- **An expression is read back** where there is room for its document. By induction on the room,
as it is read: each operand has room for one array or object less. -/
theorem ofJson?_toJson {e : Expr} (h : e.fits = true) {room : Nat}
    (hroom : e.toJson.depth ≤ room) : ofJson? room e.toJson = some e := by
  induction room generalizing e with
  | zero => exact absurd e.depth_toJson_pos (Nat.not_lt.2 hroom)
  | succ room ih =>
    have hoperand (key : String) {a : Expr} {members : List (String × Json)}
        (hfits : a.fits = true) (hm : (key, a.toJson) ∈ members)
        (hroom : (Json.record members).depth ≤ room + 1) : ofJson? room a.toJson = some a :=
      ih hfits (Json.depth_le_of_record hm hroom)
    cases e with
    | const value size =>
      obtain ⟨hvalue, hsize⟩ : value < 0x100000000 ∧ size < 0x100 := by simpa [fits] using h
      have hfields : Json.fields? (room + 1) ["value", "size"] _ = some [some _, some _] :=
        Json.fields?_record [("value", .nat value), ("size", .nat size)] (by simp) room
      simp [ofJson?, toJson, Json.untag?_record, hfields, Json.nat32?_nat hvalue,
        Json.nat8?_nat hsize]
    | register name =>
      have hfields : Json.fields? (room + 1) ["name"] _ = some [some _] :=
        Json.fields?_record [("name", .text name)] (by simp) room
      simp [ofJson?, toJson, Json.untag?_record, hfields]
    | memory size address =>
      obtain ⟨hsize, haddress⟩ : size < 0x100 ∧ address.fits = true := by simpa [fits] using h
      have hread := hoperand "addr" haddress (by simp) hroom
      have hfields : Json.fields? (room + 1) ["size", "addr"] _ = some [some _, some _] :=
        Json.fields?_record [("size", .nat size), ("addr", address.toJson)] (by simp) room
      simp [ofJson?, toJson, Json.untag?_record, hfields, Json.nat8?_nat hsize, hread]
    | binary op a b =>
      obtain ⟨ha, hb⟩ : a.fits = true ∧ b.fits = true := by simpa [fits] using h
      have hreada := hoperand "a" ha (by simp) hroom
      have hreadb := hoperand "b" hb (by simp) hroom
      have hfields : Json.fields? (room + 1) ["op", "a", "b"] _ = some [some _, some _, some _] :=
        Json.fields?_record [("op", .text op.name), ("a", a.toJson), ("b", b.toJson)] (by simp) room
      simp [ofJson?, toJson, Json.untag?_record, hfields, BinaryOp.ofName?_op, hreada, hreadb]
    | invert a =>
      have hread := hoperand "a" (a := a) h (by simp) hroom
      have hfields : Json.fields? (room + 1) ["a"] _ = some [some _] :=
        Json.fields?_record [("a", a.toJson)] (by simp) room
      simp [ofJson?, toJson, Json.untag?_record, hfields, hread]
    | slice a lo hi =>
      obtain ⟨⟨ha, hlo⟩, hhi⟩ : (a.fits = true ∧ lo < 0x100) ∧ hi < 0x100 := by
        simpa [fits] using h
      have hread := hoperand "a" ha (by simp) hroom
      have hfields : Json.fields? (room + 1) ["a", "lo", "hi"] _ = some [some _, some _, some _] :=
        Json.fields?_record [("a", a.toJson), ("lo", .nat lo), ("hi", .nat hi)] (by simp) room
      simp [ofJson?, toJson, Json.untag?_record, hfields, hread, Json.nat8?_nat hlo,
        Json.nat8?_nat hhi]
    | concat lo hi =>
      obtain ⟨hlo, hhi⟩ : lo.fits = true ∧ hi.fits = true := by simpa [fits] using h
      have hreadlo := hoperand "lo" hlo (by simp) hroom
      have hreadhi := hoperand "hi" hhi (by simp) hroom
      have hfields : Json.fields? (room + 1) ["lo", "hi"] _ = some [some _, some _] :=
        Json.fields?_record [("lo", lo.toJson), ("hi", hi.toJson)] (by simp) room
      simp [ofJson?, toJson, Json.untag?_record, hfields, hreadlo, hreadhi]
    | isZero a =>
      have hread := hoperand "a" (a := a) h (by simp) hroom
      have hfields : Json.fields? (room + 1) ["a"] _ = some [some _] :=
        Json.fields?_record [("a", a.toJson)] (by simp) room
      simp [ofJson?, toJson, Json.untag?_record, hfields, hread]
    | ite cond t f =>
      obtain ⟨⟨hcond, ht⟩, hf⟩ : (cond.fits = true ∧ t.fits = true) ∧ f.fits = true := by
        simpa [fits] using h
      have hreadcond := hoperand "cond" hcond (by simp) hroom
      have hreadt := hoperand "t" ht (by simp) hroom
      have hreadf := hoperand "f" hf (by simp) hroom
      have hfields : Json.fields? (room + 1) ["cond", "t", "f"] _ =
          some [some _, some _, some _] :=
        Json.fields?_record [("cond", cond.toJson), ("t", t.toJson), ("f", f.toJson)] (by simp) room
      simp [ofJson?, toJson, Json.untag?_record, hfields, hreadcond, hreadt, hreadf]
    | undefined size =>
      have hsize : size < 0x100 := by simpa [fits] using h
      have hfields : Json.fields? (room + 1) ["size"] _ = some [some _] :=
        Json.fields?_record [("size", .nat size)] (by simp) room
      simp [ofJson?, toJson, Json.untag?_record, hfields, Json.nat8?_nat hsize]

/-- The document of an expression is plain: its numbers are small and its strings are text. -/
theorem isPlain_toJson {e : Expr} (h : e.fits = true) : e.toJson.isPlain = true := by
  induction e with
  | const value size =>
    obtain ⟨hvalue, hsize⟩ : value < 0x100000000 ∧ size < 0x100 := by simpa [fits] using h
    apply Json.isPlain_record
    simp [Json.isPlain_nat32 hvalue, Json.isPlain_nat8 hsize]
  | register name => rfl
  | memory size address ih =>
    obtain ⟨hsize, haddress⟩ : size < 0x100 ∧ address.fits = true := by simpa [fits] using h
    apply Json.isPlain_record
    simp [Json.isPlain_nat8 hsize, ih haddress]
  | binary op a b iha ihb =>
    obtain ⟨ha, hb⟩ : a.fits = true ∧ b.fits = true := by simpa [fits] using h
    apply Json.isPlain_record
    simp [iha ha, ihb hb]
  | invert a ih =>
    apply Json.isPlain_record
    simp [ih h]
  | slice a lo hi ih =>
    obtain ⟨⟨ha, hlo⟩, hhi⟩ : (a.fits = true ∧ lo < 0x100) ∧ hi < 0x100 := by
      simpa [fits] using h
    apply Json.isPlain_record
    simp [ih ha, Json.isPlain_nat8 hlo, Json.isPlain_nat8 hhi]
  | concat lo hi ihlo ihhi =>
    obtain ⟨hlo, hhi⟩ : lo.fits = true ∧ hi.fits = true := by simpa [fits] using h
    apply Json.isPlain_record
    simp [ihlo hlo, ihhi hhi]
  | isZero a ih =>
    apply Json.isPlain_record
    simp [ih h]
  | ite cond t f ihcond iht ihf =>
    obtain ⟨⟨hcond, ht⟩, hf⟩ : (cond.fits = true ∧ t.fits = true) ∧ f.fits = true := by
      simpa [fits] using h
    apply Json.isPlain_record
    simp [ihcond hcond, iht ht, ihf hf]
  | undefined size =>
    have hsize : size < 0x100 := by simpa [fits] using h
    apply Json.isPlain_record
    simp [Json.isPlain_nat8 hsize]

end Expr

/-! ### Statements -/

namespace Statement

/-- Is every number of the statement one of its field? -/
def fits : Statement → Bool
  | setRegister _ value => value.fits
  | store size address value => size < 0x100 && address.fits && value.fits
  | jump target => target.fits
  | trap vector => vector < 0x100

theorem isPlain_toJson {s : Statement} (h : s.fits = true) : s.toJson.isPlain = true := by
  cases s with
  | setRegister register value =>
    apply Json.isPlain_record
    simp [value.isPlain_toJson h]
  | store size address value =>
    obtain ⟨⟨hsize, haddress⟩, hvalue⟩ :
        (size < 0x100 ∧ address.fits = true) ∧ value.fits = true := by simpa [fits] using h
    apply Json.isPlain_record
    simp [Json.isPlain_nat8 hsize, address.isPlain_toJson haddress, value.isPlain_toJson hvalue]
  | jump target =>
    apply Json.isPlain_record
    simp [target.isPlain_toJson h]
  | trap vector =>
    have hvector : vector < 0x100 := by simpa [fits] using h
    apply Json.isPlain_record
    simp [Json.isPlain_nat8 hvector]

/-- **A statement is read back** where there is room for its document. -/
theorem ofJson?_toJson {s : Statement} (h : s.fits = true) {room : Nat}
    (hroom : s.toJson.depth ≤ room) : ofJson? room s.toJson = some s := by
  have hpos : 0 < s.toJson.depth := by cases s <;> exact Nat.succ_pos _
  obtain ⟨room, rfl⟩ : ∃ k, room = k + 1 := ⟨room - 1, by omega⟩
  have hplain : ¬(room + 1 < s.toJson.depth ∨ s.toJson.isPlain = false) := by
    simp [isPlain_toJson h, hroom]
  have hoperand (key : String) {a : Expr} {members : List (String × Json)}
      (hfits : a.fits = true) (hm : (key, a.toJson) ∈ members)
      (hroom : (Json.record members).depth ≤ room + 1) :
      Expr.ofJson? (room + 1) a.toJson = some a :=
    a.ofJson?_toJson hfits (Nat.le_succ_of_le (Json.depth_le_of_record hm hroom))
  unfold ofJson?
  rw [if_neg hplain]
  cases s with
  | setRegister register value =>
    have hread := hoperand "value" (a := value) h (by simp) hroom
    have hfields : Json.fields? (room + 1) ["reg", "value"] _ = some [some _, some _] :=
      Json.fields?_record [("reg", .text register), ("value", value.toJson)] (by simp) room
    simp [toJson, Json.untag?_record, hfields, hread]
  | store size address value =>
    obtain ⟨⟨hsize, haddress⟩, hvalue⟩ :
        (size < 0x100 ∧ address.fits = true) ∧ value.fits = true := by simpa [fits] using h
    have hreada := hoperand "addr" haddress (by simp) hroom
    have hreadv := hoperand "value" hvalue (by simp) hroom
    have hfields : Json.fields? (room + 1) ["size", "addr", "value"] _ =
        some [some _, some _, some _] :=
      Json.fields?_record [("size", .nat size), ("addr", address.toJson), ("value", value.toJson)]
        (by simp) room
    simp [toJson, Json.untag?_record, hfields, Json.nat8?_nat hsize, hreada, hreadv]
  | jump target =>
    have hread := hoperand "target" (a := target) h (by simp) hroom
    have hfields : Json.fields? (room + 1) ["target"] _ = some [some _] :=
      Json.fields?_record [("target", target.toJson)] (by simp) room
    simp [toJson, Json.untag?_record, hfields, hread]
  | trap vector =>
    have hvector : vector < 0x100 := by simpa [fits] using h
    have hfields : Json.fields? (room + 1) ["vector"] _ = some [some _] :=
      Json.fields?_record [("vector", .nat vector)] (by simp) room
    simp [toJson, Json.untag?_record, hfields, Json.nat8?_nat hvector]

end Statement

/-! ### Instructions -/

theorem InstructionKind.ofName_name (k : InstructionKind) : ofName k.name = k := by
  cases k <;> decide

namespace Instruction

/-- Is every number of the instruction one of its field? -/
def fits (i : Instruction) : Bool :=
  i.address < 0x100000000 && i.length < 0x100 && i.statements.all Statement.fits

/-- The statements of an instruction are read back where there is room for each. -/
theorem mapM_statements {ss : List Statement} (h : ∀ s ∈ ss, s.fits = true) {room : Nat}
    (hroom : ∀ s ∈ ss, s.toJson.depth ≤ room) :
    (ss.map Statement.toJson).mapM (Statement.ofJson? room) = some ss := by
  induction ss with
  | nil => rfl
  | cons s ss ih =>
    obtain ⟨hs, hss⟩ := List.forall_mem_cons.1 h
    obtain ⟨hroom, hrooms⟩ := List.forall_mem_cons.1 hroom
    rw [List.map_cons, List.mapM_cons, Statement.ofJson?_toJson hs hroom, ih hss hrooms]
    rfl

/-- One statement that nests too deep is enough for none to be read. -/
theorem mapM_statements_eq_none {ss : List Statement} {room : Nat}
    (h : ∃ s ∈ ss, room < s.toJson.depth) :
    (ss.map Statement.toJson).mapM (Statement.ofJson? room) = none := by
  induction ss with
  | nil =>
    obtain ⟨s, hs, -⟩ := h
    cases hs
  | cons s ss ih =>
    rw [List.map_cons, List.mapM_cons]
    by_cases hs : room < s.toJson.depth
    · rw [Statement.ofJson?, if_pos (.inl hs)]
      rfl
    · obtain ⟨t, ht, hdeep⟩ := h
      have hrest : t ∈ ss := by
        rcases List.mem_cons.1 ht with rfl | ht
        · exact absurd hdeep hs
        · exact ht
      rw [ih ⟨t, hrest, hdeep⟩]
      cases Statement.ofJson? room s.toJson <;> rfl

/-- The record of an instruction and the array of its statements are two levels. -/
theorem depth_toJson (i : Instruction) :
    i.toJson.depth = Json.depthItems (i.statements.map Statement.toJson) + 2 := by
  have hmax : i.toJson.depth =
      max 0 (max 0 (max 0 (max 0
        (max (Json.depthItems (i.statements.map Statement.toJson) + 1) 0)))) + 1 := rfl
  omega

/-- **What is read of an instruction** whose numbers are of their fields depends on its statements
alone. -/
theorem ofJson?_toJson_eq {i : Instruction} (h : i.fits = true) (room : Nat) :
    ofJson? (room + 2) i.toJson =
      ((i.statements.map Statement.toJson).mapM (Statement.ofJson? room)).map
        fun statements => { i with statements } := by
  obtain ⟨⟨haddress, hlength⟩, -⟩ : (i.address < 0x100000000 ∧ i.length < 0x100) ∧
      ∀ s ∈ i.statements, s.fits = true := by simpa [fits] using h
  have hfields : Json.fields? (room + 2) ["address", "length", "kind", "text", "semantics"] _ =
      some [some _, some _, some _, some _, some _] :=
    Json.fields?_record [("address", .nat i.address), ("length", .nat i.length),
      ("kind", .text i.kind.name), ("text", .text i.text),
      ("semantics", .array (i.statements.map Statement.toJson))] (by simp) (room + 1)
  unfold ofJson? toJson
  rw [hfields]
  simp only [Json.nat32?_nat haddress, Json.nat8?_nat hlength, Json.withDefault,
    InstructionKind.ofJson?, Json.name?_text, Option.map_some, InstructionKind.ofName_name,
    Json.text?_text, Json.list?, Option.bind_eq_bind, Option.bind_some, Option.pure_def]
  rw [Option.map_eq_bind]
  rfl

/-- **Reading the text of an instruction undoes writing it**, as long as its document nests no
deeper than a decoder follows. -/
theorem read?_write {i : Instruction} (h : i.fits = true)
    (hdepth : i.toJson.depth ≤ Json.maxDepth) : read? i.write = some i := by
  have hread : (i.statements.map Statement.toJson).mapM (Statement.ofJson? 125) =
      some i.statements := by
    rw [depth_toJson] at hdepth
    have hstatements : ∀ s ∈ i.statements, s.fits = true := by
      simp only [fits, Bool.and_eq_true, List.all_eq_true] at h
      exact h.2
    apply mapM_statements hstatements
    intro s hs
    exact Json.depth_le_of_array (List.mem_map_of_mem hs) (Nat.le_of_succ_le_succ hdepth)
  unfold read? write
  rw [Json.read?_compact]
  show ofJson? (125 + 2) i.toJson = some i
  rw [ofJson?_toJson_eq h, hread]
  rfl

/-- An instruction as deep as a decoder follows, with a text that has a quote, a backslash and two
control characters after each other, and a register that does not exist. -/
theorem read?_write_deepest :
    let i : Instruction := ⟨0xffffffff, 255, .syscall, "say \"\\\" \u0001\u0002\n",
      [.store 32 (.slice (.register "no such") 0 255) (.const 0xffffffff 32), .trap 128,
        .jump (Nat.repeat Expr.invert 123 (.undefined 8))]⟩
    i.toJson.depth = Json.maxDepth ∧ read? i.write = some i := by
  intro i
  have hdepth : i.toJson.depth = Json.maxDepth := by decide +kernel
  have hfits : i.fits = true := by decide +kernel
  exact ⟨hdepth, read?_write hfits (Nat.le_of_eq hdepth)⟩

theorem read?_write_eq_none {i : Instruction} (h : i.fits = true)
    (hdepth : Json.maxDepth < i.toJson.depth) : read? i.write = none := by
  have hdeep : ∃ s ∈ i.statements, 125 < s.toJson.depth := by
    rw [depth_toJson] at hdepth
    have hitems : 125 < Json.depthItems (i.statements.map Statement.toJson) :=
      Nat.lt_of_add_lt_add_right (n := 2) hdepth
    obtain ⟨v, hv, hlt⟩ := Json.exists_of_lt_depthItems hitems
    obtain ⟨s, hs, rfl⟩ := List.mem_map.1 hv
    exact ⟨s, hs, hlt⟩
  unfold read? write
  rw [Json.read?_compact]
  show ofJson? (125 + 2) i.toJson = none
  rw [ofJson?_toJson_eq h, mapM_statements_eq_none hdeep]
  rfl

end Instruction
end Lockstep
