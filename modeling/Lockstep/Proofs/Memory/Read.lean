/-
# Reading the log

The byte that is read from the log describes the byte of the memory that the
log stands for at the address. The walk leaves the base and the candidates;
the choices over the candidates decide the rest, once the variables that the
read made for cells without a term have the bytes of these cells. All this holds
where the bounds that the read computes fit into 64 bits.

Key definitions: `Assignment.AgreesOutside`, `Widths.withBytes`, `MemoryLog.known`,
`MemoryLog.ReadsWord`.
Key theorems: `MemoryLog.selectAll_spec`, `MemoryLog.term_spec`, `MemoryLog.describes_known`,
`MemoryLog.readByte_spec`, `MemoryLog.readByte_sound`.
-/
import Lockstep.Engine
import Lockstep.Proofs.Memory.Merge

namespace Lockstep

/-! ### Fresh variables -/

/-- The assignments agree but on the variables from `m` up to `n`. -/
def Assignment.AgreesOutside (m n : Nat) (ρ ρ' : Assignment) : Prop :=
  ∀ id, id < m ∨ n ≤ id → ρ' id = ρ id

theorem Assignment.AgreesOutside.trans {l m n : Nat} {ρ ρ₁ ρ₂ : Assignment} (hlm : l ≤ m)
    (hmn : m ≤ n) (h₁ : AgreesOutside l m ρ ρ₁) (h₂ : AgreesOutside m n ρ₁ ρ₂) :
    AgreesOutside l n ρ ρ₂ := by
  intro id hid
  rw [h₂ id (by omega), h₁ id (by omega)]

theorem Assignment.AgreesOutside.below {m n id : Nat} {ρ ρ' : Assignment}
    (h : AgreesOutside m n ρ ρ') (hid : id < m) : ρ id = ρ' id :=
  (h id (.inl hid)).symm

/-- The widths with bytes for the variables from `m` up to `n`. -/
def Widths.withBytes (V : Widths) (m n : Nat) : Widths :=
  fun id w => V id w ∨ m ≤ id ∧ id < n ∧ w = 8

theorem Widths.withBytes_mono (V : Widths) {k l m n : Nat} (hk : k ≤ l) (hm : m ≤ n) :
    ∀ id w, V.withBytes l m id w → V.withBytes k n id w := by
  rintro id w (h | ⟨h1, h2, h3⟩)
  · exact .inl h
  · exact .inr ⟨by omega, by omega, h3⟩

theorem Widths.withBytes_withBytes (V : Widths) {l m n : Nat} (hlm : l ≤ m) (hmn : m ≤ n) :
    ∀ id w, (V.withBytes l m).withBytes m n id w → V.withBytes l n id w := by
  rintro id w ((h | ⟨h1, h2, h3⟩) | ⟨h1, h2, h3⟩)
  · exact .inl h
  · exact .inr ⟨h1, by omega, h3⟩
  · exact .inr ⟨by omega, h2, h3⟩

theorem Widths.lt_of_withBytes {V : Widths} {m n : Nat} (hV : ∀ id w, V id w → id < m)
    (hmn : m ≤ n) : ∀ id w, V.withBytes m n id w → id < n := by
  rintro id w (h | ⟨-, h, -⟩)
  · exact Nat.lt_of_lt_of_le (hV id w h) hmn
  · exact h

theorem Term.Typed.withBytes {V : Widths} {t : Term} (h : t.Typed V) (m n : Nat) :
    t.Typed (V.withBytes m n) := h.mono fun _ _ _ => .inl

namespace MemoryLog

variable {σ : Type} {V : Widths} {address : Term}

/-! ### The term of the byte -/

/-- The term under the choices: that of the base, or a new variable. -/
def baseTerm : Option Cell → SymbolicM σ Term
  | none => Symbolic.fresh 8
  | some c => c.term

theorem baseTerm_of_none {base : Option Cell} (h : base.bind (·.value.symbolic?) = none)
    (s : Symbolic σ) :
    baseTerm base s =
      (.var 8 s.nextVariable, { s with nextVariable := s.nextVariable + 1 }) := by
  cases base with
  | none => rfl
  | some c =>
    have hc : c.value.symbolic? = none := h
    unfold baseTerm Cell.term
    dsimp only
    rw [hc]
    rfl

theorem baseTerm_of_some {base : Option Cell} {t : Term}
    (h : base.bind (·.value.symbolic?) = some t) (s : Symbolic σ) :
    baseTerm base s = (t, s) := by
  obtain ⟨c, rfl, hc⟩ := Option.bind_eq_some_iff.1 h
  unfold baseTerm Cell.term
  dsimp only
  rw [hc]
  rfl

/-- The term under the choices is a byte over at most one new variable. With the right
value of this variable it denotes any given byte that the base, if there is one, describes. -/
theorem baseTerm_spec (base : Option Cell) (hbase : ∀ c ∈ base, c.WellFormed V)
    (s : Symbolic σ) :
    s.nextVariable ≤ (baseTerm base s).2.nextVariable ∧
      (baseTerm base s).1.Typed
        (V.withBytes s.nextVariable (baseTerm base s).2.nextVariable) ∧
      (baseTerm base s).1.width = 8 ∧
      ∀ (ρ : Assignment) (byte : Nat), byte < Word.count 8 →
        (∀ c ∈ base, c.value.Describes ρ byte) →
        ∃ ρ', ρ.AgreesOutside s.nextVariable (baseTerm base s).2.nextVariable ρ' ∧
          (baseTerm base s).1.eval ρ' = byte := by
  cases h : base.bind (·.value.symbolic?) with
  | none =>
    rw [baseTerm_of_none h]
    refine ⟨Nat.le_succ _, Term.typed_var.2 ⟨by decide, by decide, .inr ?_⟩, rfl, ?_⟩
    · exact ⟨Nat.le_refl _, Nat.lt_succ_self _, rfl⟩
    · intro ρ byte hlt _
      refine ⟨fun id => if id = s.nextVariable then byte else ρ id, fun id hid => ?_, ?_⟩
      · have hid : id < s.nextVariable ∨ s.nextVariable + 1 ≤ id := hid
        exact if_neg (by omega)
      · rw [Term.eval, if_pos rfl, Word.truncate_of_lt hlt]
  | some t =>
    obtain ⟨c, rfl, ht⟩ := Option.bind_eq_some_iff.1 h
    have hc := hbase c rfl
    obtain ⟨hty, hw⟩ := hc.value.symbolic? ht
    rw [baseTerm_of_some h]
    refine ⟨Nat.le_refl _, hty.withBytes _ _, hw.trans hc.bits, fun ρ byte _ hd => ?_⟩
    exact ⟨ρ, fun _ _ => rfl, (hd c rfl).symbolic? hc.value.le ht⟩

theorem selectAll_cons (address : Term) (c : Cell) (cs : List Cell) (t : Term) (s : Symbolic σ) :
    selectAll address (c :: cs) t s =
      let r := selectAll address cs t s
      let u := baseTerm (some c) r.2
      (.mkIte 8 (.mkEqual address c.address) u.1 r.1, u.2) := by
  rw [selectAll, List.foldrM_cons, applyState_bind]
  rfl

/-- **The choices denote the overwritten memory at the address**, under an assignment
that gives the variables made on the way the bytes of their cells. -/
theorem selectAll_spec (ha : address.Typed V) (hwidth : address.width = addressBits)
    (cs : List Cell) (hcs : ∀ c ∈ cs, c.WellFormed V) {t : Term} (ht : t.Typed V)
    (htw : t.width = 8) (s : Symbolic σ) :
    s.nextVariable ≤ (selectAll address cs t s).2.nextVariable ∧
      (selectAll address cs t s).1.Typed
        (V.withBytes s.nextVariable (selectAll address cs t s).2.nextVariable) ∧
      (selectAll address cs t s).1.width = 8 ∧
      ∀ (ρ : Assignment) (l : List (Cell × Nat)), (∀ id w, V id w → id < s.nextVariable) →
        l.map Prod.fst = cs → (∀ p ∈ l, p.1.value.Describes ρ p.2) →
        ∃ ρ', ρ.AgreesOutside s.nextVariable (selectAll address cs t s).2.nextVariable ρ' ∧
          (selectAll address cs t s).1.eval ρ' =
            overwritten ρ (fun _ => t.eval ρ) l (address.eval ρ) := by
  induction cs with
  | nil =>
    refine ⟨Nat.le_refl _, ht.withBytes _ _, htw, fun ρ l _ hl _ => ?_⟩
    obtain rfl := List.map_eq_nil_iff.1 hl
    exact ⟨ρ, fun _ _ => rfl, rfl⟩
  | cons c cs ih =>
    obtain ⟨hc, hcs⟩ := List.forall_mem_cons.1 hcs
    obtain ⟨hle, hty, hw, heval⟩ := ih hcs
    rw [selectAll_cons]
    dsimp only
    generalize selectAll address cs t s = r at hle hty hw heval ⊢
    have hsome : ∀ c' ∈ some c, c'.WellFormed V := by
      rintro c' ⟨⟩
      exact hc
    obtain ⟨hle', hty', hw', heval'⟩ := baseTerm_spec (some c) hsome r.2
    generalize baseTerm (some c) r.2 = u at hle' hty' hw' heval' ⊢
    have hbit := Term.denotes_mkEqual
      (⟨ha.withBytes s.nextVariable u.2.nextVariable, hwidth, fun _ => rfl⟩ :
        address.Denotes _ addressBits _)
      ⟨hc.address.withBytes _ _, hc.width, fun _ => rfl⟩
    have hite := Term.denotes_mkIte hbit
      ⟨hty'.mono fun id w _ => V.withBytes_mono hle (Nat.le_refl _) id w, hw', fun _ => rfl⟩
      ⟨hty.mono fun id w _ => V.withBytes_mono (Nat.le_refl _) hle' id w, hw, fun _ => rfl⟩
    refine ⟨Nat.le_trans hle hle', hite.typed, hite.width, fun ρ l hV hl hd => ?_⟩
    obtain ⟨⟨c', byte⟩, l, rfl, rfl, rfl⟩ := List.map_eq_cons_iff.1 hl
    obtain ⟨hbyte, hd⟩ := List.forall_mem_cons.1 hd
    obtain ⟨ρ₁, hρ₁, heq₁⟩ := heval ρ l hV rfl hd
    have hagree₁ : ∀ id w, V id w → ρ id = ρ₁ id := fun id w h => hρ₁.below (hV id w h)
    obtain ⟨ρ₂, hρ₂, heq₂⟩ := heval' ρ₁ byte (hc.bits ▸ hbyte.lt) (by
      rintro c'' ⟨⟩
      exact hbyte.congr hc.value hagree₁)
    refine ⟨ρ₂, hρ₁.trans hle hle' hρ₂, ?_⟩
    have hagree₂ : ∀ id w, V id w → ρ₂ id = ρ id := by
      intro id w h
      have hlt := hV id w h
      rw [hρ₂ id (.inl (Nat.lt_of_lt_of_le hlt hle)), hρ₁ id (.inl hlt)]
    have hinner : r.1.eval ρ₂ = r.1.eval ρ₁ := by
      refine Term.eval_congr fun id w hm => hρ₂ id (.inl ?_)
      exact Widths.lt_of_withBytes hV hle id w (hty.vars id w hm)
    have haddress : address.eval ρ₂ = address.eval ρ :=
      Term.eval_congr fun id w hm => hagree₂ id w (ha.vars id w hm)
    have hcell : c'.address.eval ρ₂ = c'.address.eval ρ :=
      Term.eval_congr fun id w hm => hagree₂ id w (hc.address.vars id w hm)
    rw [hite.eval, haddress, hcell, heq₂, hinner, heq₁, overwritten, Word.ite]
    by_cases h : address.eval ρ = c'.address.eval ρ
    · rw [if_pos h, if_pos rfl, if_pos h, Word.truncate_of_lt (hc.bits ▸ hbyte.lt)]
    · rw [if_neg h, if_neg (by decide), if_neg h, ← heq₁]
      exact Word.truncate_of_lt (hw ▸ hty.eval_lt ρ₁)

/-- **The term of a read** denotes the byte at the address of a memory that the cells overwrite:
the choices are made over the term of the base, both under the bytes of their cells. -/
theorem term_spec (ha : address.Typed V) (hwidth : address.width = addressBits)
    {base : Option Cell} (hbase : ∀ c ∈ base, c.WellFormed V) {cs : List Cell}
    (hcs : ∀ c ∈ cs, c.WellFormed V) (s : Symbolic σ) :
    let b := baseTerm base s
    let t := selectAll address cs b.1 b.2
    s.nextVariable ≤ t.2.nextVariable ∧
      t.1.Typed (V.withBytes s.nextVariable t.2.nextVariable) ∧ t.1.width = 8 ∧
      ∀ (ρ : Assignment) (byte : Nat) (l : List (Cell × Nat)),
        (∀ id w, V id w → id < s.nextVariable) → byte < Word.count 8 →
        (∀ c ∈ base, c.value.Describes ρ byte) → l.map Prod.fst = cs →
        (∀ p ∈ l, p.1.value.Describes ρ p.2) →
        ∃ ρ', ρ.AgreesOutside s.nextVariable t.2.nextVariable ρ' ∧
          t.1.eval ρ' = overwritten ρ (fun _ => byte) l (address.eval ρ) := by
  intro b t
  obtain ⟨hle₁, hty₁, hw₁, heval₁⟩ := baseTerm_spec base hbase s
  obtain ⟨hle₂, hty₂, hw₂, heval₂⟩ := selectAll_spec (ha.withBytes _ _) hwidth cs
    (fun c hc => (hcs c hc).mono fun _ _ => .inl) hty₁ hw₁ b.2
  refine ⟨hle₁.trans hle₂, hty₂.mono fun id w _ => V.withBytes_withBytes hle₁ hle₂ id w, hw₂, ?_⟩
  intro ρ byte l hV hbyte hdb hl hd
  obtain ⟨ρ₁, hρ₁, heq₁⟩ := heval₁ ρ byte hbyte hdb
  have hagree : ∀ id w, V id w → ρ id = ρ₁ id := fun id w hid => hρ₁.below (hV id w hid)
  have hmem : ∀ p ∈ l, p.1.WellFormed V := fun p hp => hcs p.1 (hl ▸ List.mem_map_of_mem hp)
  obtain ⟨ρ₂, hρ₂, heq₂⟩ := heval₂ ρ₁ l (Widths.lt_of_withBytes hV hle₁) hl fun p hp =>
    (hd p hp).congr (hmem p hp).value hagree
  refine ⟨ρ₂, hρ₁.trans hle₁ hle₂ hρ₂, ?_⟩
  have haddress : address.eval ρ₁ = address.eval ρ :=
    Term.eval_congr fun id w hm => (hagree id w (ha.vars id w hm)).symm
  rw [heq₂, haddress]
  refine overwritten_congr heq₁ fun p hp => ?_
  exact Term.eval_congr fun id w hm => (hagree id w ((hmem p hp).address.vars id w hm)).symm

/-! ### The number and the range of the byte -/

/-- What a read tells besides the term. -/
def known (base : Option Cell) (candidates : List Cell) : Value :=
  match base with
  | none => { bits := 8, interval := some (.top 8) }
  | some c =>
    { bits := 8
      concrete := mergeConcrete c candidates
      interval := mergeInterval c candidates }

theorem bits_known (base : Option Cell) (cs : List Cell) : (known base cs).bits = 8 := by
  cases base <;> rfl

theorem mem_hullByte {i j : Option Interval} {k : Interval} {byte : Nat}
    (hlt : byte < Word.count 8) (h : (∀ i' ∈ i, i'.Mem 8 byte) ∨ ∀ j' ∈ j, j'.Mem 8 byte)
    (hk : hullByte i j = some k) : k.Mem 8 byte := by
  unfold hullByte at hk
  split at hk
  · obtain rfl := Option.some.inj hk
    refine Interval.mem_hull (by decide) ?_
    rcases h with h | h
    · exact .inl (h _ rfl)
    · exact .inr (h _ rfl)
  · obtain rfl := Option.some.inj hk
    exact Interval.mem_top (by decide) hlt

/-- The merged range has every byte that the base or a candidate has. -/
theorem mem_mergeInterval {byte : Nat} (hlt : byte < Word.count 8) (cs : List Cell)
    (i : Option Interval)
    (h : (∀ i' ∈ i, i'.Mem 8 byte) ∨ ∃ c ∈ cs, ∀ j ∈ c.value.interval?, j.Mem 8 byte) :
    ∀ k ∈ cs.foldl (fun i c => hullByte i c.value.interval?) i, k.Mem 8 byte := by
  induction cs generalizing i with
  | nil =>
    rcases h with h | ⟨c, hc, -⟩
    · exact h
    · cases hc
  | cons c cs ih =>
    refine ih _ ?_
    rcases h with h | ⟨c', hc', h⟩
    · exact .inl fun k hk => mem_hullByte hlt (.inl h) hk
    · rcases List.mem_cons.1 hc' with rfl | hc'
      · exact .inl fun k hk => mem_hullByte hlt (.inr h) hk
      · exact .inr ⟨c', hc', h⟩

theorem mergeConcrete_eq_some {base : Cell} {cs : List Cell} {n : Nat}
    (h : mergeConcrete base cs = some n) :
    base.value.concrete = some n ∧ ∀ c ∈ cs, c.value.concrete = some n := by
  unfold mergeConcrete at h
  split at h
  · rename_i hall
    refine ⟨h, fun c hc => ?_⟩
    rw [← h]
    exact of_decide_eq_true (List.all_eq_true.1 hall c hc)
  · cases h

/-- The number and the range describe every byte that the base or a candidate describes, and
any byte at all without a base. -/
theorem describes_known {ρ : Assignment} {byte : Nat} (hlt : byte < Word.count 8)
    {base : Option Cell} {cs : List Cell} (hbase : ∀ c ∈ base, c.WellFormed V)
    (hcs : ∀ c ∈ cs, c.WellFormed V)
    (h : ∀ c ∈ base, c.value.Describes ρ byte ∨ ∃ c' ∈ cs, c'.value.Describes ρ byte) :
    (known base cs).Describes ρ byte := by
  cases base with
  | none =>
    refine ⟨hlt, nofun, ?_, nofun⟩
    rintro i ⟨⟩
    exact Interval.mem_top (by decide) hlt
  | some c =>
    have hc := hbase c rfl
    refine ⟨hlt, fun n hn => ?_, fun i hi => ?_, nofun⟩
    · obtain ⟨hb, hall⟩ := mergeConcrete_eq_some hn
      rcases h c rfl with h | ⟨c', hc', h⟩
      · exact h.concrete n hb
      · exact h.concrete n (hall c' hc')
    · refine mem_mergeInterval hlt cs _ ?_ i hi
      rcases h c rfl with h | ⟨c', hc', h⟩
      · exact .inl fun j hj => hc.bits ▸ h.interval? hc.value.le hj
      · have hc'' := hcs c' hc'
        exact .inr ⟨c', hc', fun j hj => hc''.bits ▸ h.interval? hc''.value.le hj⟩

/-- With a byte as its term, what a read tells is a well-formed value. -/
theorem wellFormed_known {W : Widths} {base : Option Cell} (cs : List Cell)
    (hbase : ∀ c ∈ base, c.WellFormed V) {t : Term} (ht : t.Typed W) (hw : t.width = 8) :
    ({ known base cs with symbolic := some t } : Value).WellFormed W := by
  have hbits := bits_known base cs
  refine ⟨?_, ?_, fun n hn => ?_, ?_⟩
  · show 0 < (known base cs).bits
    rw [hbits]
    decide
  · show (known base cs).bits ≤ maxBits
    rw [hbits]
    decide
  · show n < Word.count (known base cs).bits
    rw [hbits]
    cases base with
    | none => cases hn
    | some c =>
      have hc := hbase c rfl
      exact hc.bits ▸ hc.value.concrete n (mergeConcrete_eq_some hn).1
  · rintro u ⟨⟩
    exact ⟨ht, hw.trans hbits.symm⟩

/-! ### The byte -/

variable [Solver σ]

/-- The stages of a read: the walk, an event, the term under the choices, and the choices. -/
theorem readByte_stages (log : MemoryLog) (hwidth : address.width = addressBits) (prune : Bool)
    (s : Symbolic σ) :
    ∃ journal, log.readByte address prune s =
      let found := scan address prune log.cells s
      let b := baseTerm found.1.2 { found.2 with journal }
      let t := selectAll address found.1.1 b.1 b.2
      ((known found.1.2 found.1.1).setSymbolic t.1, t.2) := by
  unfold readByte
  rw [if_neg (not_not_intro hwidth)]
  beta_reduce
  rw [apply_bind_ok (apply_liftM _ _)]
  generalize scan address prune log.cells s = r
  obtain ⟨⟨candidates, base⟩, s'⟩ := r
  dsimp only
  rw [apply_bind_ok (apply_liftM _ _)]
  cases base with
  | none =>
    dsimp only
    rw [apply_bind_ok (apply_liftM _ _), apply_bind_ok (apply_liftM _ _), apply_liftExcept]
    exact ⟨_, rfl⟩
  | some base =>
    dsimp only
    rw [apply_bind_ok (apply_liftM _ _), apply_bind_ok (apply_liftM _ _), apply_liftExcept]
    exact ⟨_, rfl⟩

/-- Before the choices a read gives out no variable but the one under them. -/
theorem readByte_eq (log : MemoryLog) (hwidth : address.width = addressBits) (prune : Bool)
    (s : Symbolic σ) :
    ∃ s₁ : Symbolic σ, s₁.nextVariable = s.nextVariable ∧
      log.readByte address prune s =
        let found := (scan address prune log.cells s).1
        let b := baseTerm found.2 s₁
        let t := selectAll address found.1 b.1 b.2
        ((known found.2 found.1).setSymbolic t.1, t.2) := by
  obtain ⟨journal, hread⟩ := readByte_stages log hwidth prune s
  let s₁ := { (scan address prune log.cells s).2 with journal }
  exact ⟨s₁, nextVariable_scan address prune log.cells s, hread⟩

theorem bits_of_readByte {log : MemoryLog} {prune : Bool} {s s' : Symbolic σ} {v : Value}
    (h : log.readByte address prune s = (.ok v, s')) : v.bits = 8 := by
  by_cases hwidth : address.width = addressBits
  · obtain ⟨s₁, -, hread⟩ := readByte_eq log hwidth prune s
    rw [hread] at h
    rw [Value.eq_of_setSymbolic (Prod.mk.inj h).1]
    exact bits_known _ _
  · unfold readByte at h
    rw [if_pos hwidth] at h
    cases h

/-- The byte of the memory at the address is one that the base or a candidate describes. -/
theorem describes_overwritten {ρ : Assignment} (memory : Nat → Nat) {base : Option (Cell × Nat)}
    {cs : List (Cell × Nat)} (hbase : ∀ p ∈ base, p.1.value.Describes ρ p.2)
    (hcs : ∀ p ∈ cs, p.1.value.Describes ρ p.2) (a : Nat) :
    ∀ c ∈ base.map Prod.fst,
      c.value.Describes ρ (overwritten ρ (fun a => (base.map Prod.snd).getD (memory a)) cs a) ∨
        ∃ c' ∈ cs.map Prod.fst, c'.value.Describes ρ
          (overwritten ρ (fun a => (base.map Prod.snd).getD (memory a)) cs a) := by
  intro c hc
  obtain ⟨p, rfl, rfl⟩ := Option.map_eq_some_iff.1 hc
  rcases overwritten_cases ρ (fun a => ((some p).map Prod.snd).getD (memory a)) cs a with
    heq | ⟨p', hp', heq⟩
  · rw [heq]
    exact .inl (hbase p rfl)
  · rw [heq]
    exact .inr ⟨p'.1, List.mem_map_of_mem hp', hcs p' hp'⟩

/-- What a read of the cells gives from one symbolic state to the next: a value over old
variables and new bytes. Take any values of the variables, any initial memory and for each cell
a byte that its value describes: if the solver is right, then with some values of the new
variables the value describes the given word of the overwritten memory. -/
structure ReadsWord (V : Widths) (cells : List Cell) (bits : Nat)
    (word : Assignment → (Nat → Nat) → Nat) (s s' : Symbolic σ) (v : Value) : Prop where
  le : s.nextVariable ≤ s'.nextVariable
  bits : v.bits = bits
  wellFormed : v.WellFormed (V.withBytes s.nextVariable s'.nextVariable)
  sound : Solver.RightOver σ V → (∀ id w, V id w → id < s.nextVariable) →
    ∀ (ρ : Assignment) (memory : Nat → Nat) (l : List (Cell × Nat)),
      (∀ a, memory a < Word.count 8) → l.map Prod.fst = cells →
      (∀ p ∈ l, p.1.value.Describes ρ p.2) →
      ∃ ρ', ρ.AgreesOutside s.nextVariable s'.nextVariable ρ' ∧
        v.Describes ρ' (word ρ (overwritten ρ memory l))

/-- What a read gives depends on the number of the next variable only. -/
theorem ReadsWord.of_next {cells : List Cell} {bits : Nat} {word : Assignment → (Nat → Nat) → Nat}
    {s s₁ s' : Symbolic σ} {v : Value} (hnext : s₁.nextVariable = s.nextVariable)
    (h : ReadsWord V cells bits word s₁ s' v) : ReadsWord V cells bits word s s' v := by
  obtain ⟨hle, hbits, hwf, hsound⟩ := h
  rw [hnext] at hle hwf hsound
  exact ⟨hle, hbits, hwf, hsound⟩

/-- A read succeeds with the byte at the address, and always with a term of it. -/
theorem readByte_spec (log : MemoryLog) (hlog : ∀ c ∈ log.cells, c.WellFormed V)
    (ha : address.Typed V) (hwidth : address.width = addressBits) (prune : Bool)
    (s : Symbolic σ) :
    ∃ v s', log.readByte address prune s = (.ok v, s') ∧ v.symbolic.isSome = true ∧
      ReadsWord V log.cells 8 (fun ρ memory => memory (address.eval ρ)) s s' v := by
  obtain ⟨s₁, hnext, hread⟩ := readByte_eq log hwidth prune s
  obtain ⟨hcs, hbase⟩ := mem_scan address prune log.cells s
  have hscan (hsolver : Solver.RightOver σ V) (ρ memory) (l : List (Cell × Nat))
      (hl : l.map Prod.fst = log.cells) :=
    scan_sound hsolver ha hwidth prune ρ memory l
      (fun p hp => hlog p.1 (hl ▸ List.mem_map_of_mem hp)) s
  rw [hread]
  have hcells {l : List (Cell × Nat)} (hl : l.map Prod.fst = log.cells) :
      scan address prune (l.map Prod.fst) s = scan address prune log.cells s := by rw [hl]
  generalize scan address prune log.cells s = walk at hcs hbase hcells ⊢
  obtain ⟨⟨candidates, base⟩, s'⟩ := walk
  have hwf : ∀ c ∈ candidates, c.WellFormed V := fun c hc => hlog c (hcs c hc)
  have hbwf : ∀ c ∈ base, c.WellFormed V := fun c hc => hlog c (hbase c hc)
  obtain ⟨hle, hty, hw, heval⟩ := term_spec ha hwidth hbwf hwf s₁
  dsimp only
  generalize selectAll address candidates (baseTerm base s₁).1 (baseTerm base s₁).2 = t
    at hle hty hw heval ⊢
  have hbits := bits_known base candidates
  refine ⟨{ known base candidates with symbolic := some t.1 }, t.2, ?_, rfl,
    .of_next hnext ⟨hle, hbits, wellFormed_known candidates hbwf hty hw, ?_⟩⟩
  · rw [Value.setSymbolic_eq (hw.trans hbits.symm)]
  · intro hsolver hV ρ memory l hmemory hl hd
    obtain ⟨cs, base', hfound, hcsl, hbl, hbyte⟩ := hscan hsolver ρ memory l hl
    rw [hcells hl] at hfound
    obtain ⟨rfl, rfl⟩ := Prod.mk.inj hfound
    have hdb : ∀ p ∈ base', p.1.value.Describes ρ p.2 := fun p hp => hd p (hbl p hp)
    have hdc : ∀ p ∈ cs, p.1.value.Describes ρ p.2 := fun p hp => hd p (hcsl p hp)
    -- the byte under the choices is that of the base, or the initial one without a base
    have hunder : (base'.map Prod.snd).getD (memory (address.eval ρ)) < Word.count 8 ∧
        ∀ c ∈ base'.map Prod.fst,
          c.value.Describes ρ ((base'.map Prod.snd).getD (memory (address.eval ρ))) := by
      cases base' with
      | none => exact ⟨hmemory _, nofun⟩
      | some p =>
        refine ⟨(hbwf p.1 rfl).bits ▸ (hdb p rfl).lt, ?_⟩
        rintro c ⟨⟩
        exact hdb p rfl
    obtain ⟨ρ', hρ', hterm⟩ := heval ρ _ cs hV hunder.1 hunder.2 rfl hdc
    refine ⟨ρ', hρ', ?_⟩
    have hbytes := describes_overwritten memory hdb hdc (address.eval ρ)
    rw [← hbyte] at hbytes
    have hterm : t.1.eval ρ' = overwritten ρ memory l (address.eval ρ) := by
      rw [hterm, hbyte]
      refine overwritten_congr ?_ fun _ _ => rfl
      rfl
    have hlt : overwritten ρ memory l (address.eval ρ) < Word.count 8 := by
      rw [← hterm, ← hw]
      exact hty.eval_lt ρ'
    have hknown := describes_known hlt hbwf hwf hbytes
    refine ⟨hbits.symm ▸ hlt, hknown.concrete, hknown.interval, ?_⟩
    rintro u ⟨⟩
    exact hterm

/-- **A log read is a sound select.** If the hulls of the ranges of cells fit, then so does every
bound that the read computes. Where these fit, the read succeeds and leaves the engine but for the
symbolic state, and in particular the log. Take any values of the variables, any initial
memory and for each cell any byte that its value describes: with some values of the variables
that the read made, the byte that is read describes the byte at the read address in the
initial memory overwritten by the cells, the oldest first. The solver may be any that is right
over the widths of the variables, and it may also not decide or fail. -/
theorem readByte_sound (hsolver : Solver.RightOver σ V) (e : Engine σ)
    (hV : ∀ id w, V id w → id < e.machine.symbolic.nextVariable)
    (hlog : ∀ c ∈ e.log.cells, c.WellFormed V) (ha : address.Typed V)
    (hwidth : address.width = addressBits) (prune : Bool) :
    ((∀ c ∈ e.log.cells, c.Hullable) →
      e.log.readFits address prune e.machine.symbolic = true) ∧
    (e.log.readFits address prune e.machine.symbolic = true →
      ∃ v s', Engine.symbolically (e.log.readByte address prune) e =
          (.ok v, { e with machine := { e.machine with symbolic := s' } }) ∧
        e.machine.symbolic.nextVariable ≤ s'.nextVariable ∧
        v.bits = 8 ∧ v.symbolic.isSome = true ∧
        ∀ (ρ : Assignment) (memory : Nat → Nat) (l : List (Cell × Nat)),
          (∀ a, memory a < Word.count 8) → l.map Prod.fst = e.log.cells →
          (∀ p ∈ l, p.1.value.Describes ρ p.2) →
          ∃ ρ', ρ.AgreesOutside e.machine.symbolic.nextVariable s'.nextVariable ρ' ∧
            v.Describes ρ' (overwritten ρ memory l (address.eval ρ))) := by
  refine ⟨fun hrange => readFits_of_hullable (fun c hc => (hlog c hc).value.le) hrange _ _ _,
    fun _ => ?_⟩
  obtain ⟨v, s', hread, hsome, hv⟩ :=
    readByte_spec e.log hlog ha hwidth prune e.machine.symbolic
  refine ⟨v, s', ?_, hv.le, hv.bits, hsome, hv.sound hsolver hV⟩
  simp only [Engine.symbolically, Engine.onMachine, Machine.symbolically, hread]

/-- A read from a cell that may be at the address: where both addresses are zero, the byte of
the cell is described. -/
theorem readByte_sound_alias :
    let c : Cell := ⟨.var 32 3, { bits := 8, concrete := some 7 }⟩
    let e : Engine Normalizer := { Engine.start .empty {} (some {}) with log := ⟨[c]⟩ }
    ∃ v s' ρ', Engine.symbolically (e.log.readByte (.var 32 4) true) e =
        (.ok v, { e with machine := { e.machine with symbolic := s' } }) ∧ v.Describes ρ' 7 := by
  intro c e
  have hV : Widths.Functional fun id w => w = 32 ∧ id < 22 := by
    rintro id w w' ⟨rfl, -⟩ ⟨rfl, -⟩
    rfl
  have hvar : ∀ id, id < 22 → (Term.var 32 id).Typed fun id w => w = 32 ∧ id < 22 :=
    fun id hid => Term.typed_var.2 ⟨by decide, by decide, rfl, hid⟩
  have hc : c.WellFormed fun id w => w = 32 ∧ id < 22 := by
    refine ⟨hvar 3 (by decide), rfl, ⟨by decide, by decide, ?_, nofun⟩, rfl⟩
    rintro n ⟨⟩
    decide
  have hd : c.value.Describes (fun _ => 0) 7 := by
    refine ⟨by decide, ?_, nofun, nofun⟩
    rintro n ⟨⟩
    rfl
  obtain ⟨hfits, hread⟩ := readByte_sound (Normalizer.rightOver hV) e
    (fun id w h => h.2) (List.forall_mem_singleton.2 hc) (hvar 4 (by decide)) rfl true
  obtain ⟨v, s', hread, -, -, -, hsound⟩ := hread (hfits (List.forall_mem_singleton.2 nofun))
  obtain ⟨ρ', -, hv⟩ := hsound (fun _ => 0) (fun _ => 0) [(c, 7)] (fun _ => by decide) rfl
    (List.forall_mem_singleton.2 hd)
  exact ⟨v, s', ρ', hread, hv⟩

/-- Two cells with ranges on either side of zero, as far as 64 bits go: their hull does not fit. -/
example :
    let below : Cell := ⟨.var 32 1, { bits := 8, interval := some ⟨-2 ^ 63, 0⟩ }⟩
    let above : Cell := ⟨.const 32 2, { bits := 8, interval := some ⟨0, 2 ^ 63 - 1⟩ }⟩
    let e : Engine Normalizer := Engine.start .empty {} (some {})
    MemoryLog.readFits ⟨[below, above]⟩ (.const 32 2) false e.machine.symbolic = false := by
  decide +kernel

end MemoryLog
end Lockstep
