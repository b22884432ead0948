/-
# Engines whose ranges are near zero

A range near zero is one in order whose bounds are less than `2 ^ 61` away from
zero. While the ranges of registers and cells are near zero, so are those that
an instruction leaves: operations give ranges of words, and slices, choices and
writes give bounds of ranges that are there.

Key definitions: `Engine.Near`, `Engine.Stays`.
Key theorems: `Engine.Stays.bind`, `Engine.stays_readMemory`, `Engine.stays_evaluate`,
`Engine.mem_logged`, `Engine.hullable_logged`, `Engine.stays_step`, `Engine.stays_execute`.
-/
import Lockstep.Proofs.Engine.ActiveParts
import Lockstep.Proofs.Engine.Agreement
import Lockstep.Proofs.Engine.Ranges

namespace Lockstep

theorem MemoryLog.near_readByte {σ : Type} [Solver σ] {log : MemoryLog}
    (hlog : ∀ c ∈ log.cells, c.value.Near) {address : Term} {prune : Bool} {s s' : Symbolic σ}
    {v : Value} (h : log.readByte address prune s = (.ok v, s')) : v.Near := by
  by_cases hwidth : address.width = addressBits
  · obtain ⟨journal, hread⟩ := readByte_stages log hwidth prune s
    obtain ⟨-, hbase⟩ := mem_scan address prune log.cells s
    rw [hread] at h
    refine Value.Near.setSymbolic ?_ (Prod.mk.inj h).1
    have hbits := bits_known (scan address prune log.cells s).1.2
      (scan address prune log.cells s).1.1
    refine ⟨by rw [hbits]; decide, fun i hi => ?_⟩
    cases hfound : (scan address prune log.cells s).1.2 with
    | none =>
      rw [hfound] at hi
      obtain rfl := Option.some.inj hi
      exact Interval.near_top (by decide)
    | some c =>
      rw [hfound] at hi
      exact near_mergeInterval (fun j => (hlog c (hbase c hfound)).interval?) _ hi
  · unfold readByte at h
    rw [if_pos hwidth] at h
    cases h

/-- A slice of a value with a range of 64 bits has a range whose hulls fit. -/
theorem Value.hullable_slice {active : DomainSet} {v byte : Value} {lo hi : Nat}
    (hle : v.bits ≤ maxBits)
    (hrange : ∀ i, v.interval = some i → i.lo < 2 ^ 63 ∧ -2 ^ 63 ≤ i.hi)
    (h : v.slice active lo hi = .ok byte) : ∀ i, byte.interval = some i → i.Hullable := by
  unfold Value.slice at h
  by_cases hwidth : hi ≤ lo ∨ v.bits < hi
  · rw [if_pos hwidth] at h
    cases h
  rw [if_neg hwidth] at h
  have hbyte := eq_of_assemble active h
  rw [hbyte]
  intro i hbyte
  obtain ⟨x, hx, rfl⟩ := bind_eq_some (only_eq_some.1 hbyte).2
  have hbounds : x.lo < 2 ^ 63 ∧ -2 ^ 63 ≤ x.hi := by
    unfold Value.interval? at hx
    cases hv : v.interval with
    | some j =>
      rw [hv] at hx
      obtain rfl := Option.some.inj hx
      exact hrange _ hv
    | none =>
      rw [hv, Option.none_or] at hx
      obtain ⟨n, -, rfl⟩ := Option.map_eq_some_iff.1 hx
      obtain ⟨hle, hlow, hhigh⟩ := Interval.near_exact hle n
      exact ⟨by omega, by omega⟩
  exact Interval.hullable_slice (by omega) hbounds.1 hbounds.2

namespace Engine

variable {σ α β : Type} {P : α → Prop} {Q : β → Prop} {e e' : Engine σ} {v : Value}

/-- Are the ranges of all registers and all cells near zero? -/
structure Near (e : Engine σ) : Prop where
  registers : ∀ r, (e.machine.registers.get r).Near
  cells : ∀ c ∈ e.log.cells, c.value.Near

theorem Near.of_eq (h : e.Near) (hregisters : e'.machine.registers = e.machine.registers)
    (hlog : e'.log = e.log) : e'.Near := by
  refine ⟨fun r => ?_, fun c hc => ?_⟩
  · rw [hregisters]
    exact h.registers r
  · rw [hlog] at hc
    exact h.cells c hc

theorem Near.written (h : e.Near) (hv : v.Near) (r : Register) : (e.written r v).Near := by
  refine ⟨fun s => ?_, h.cells⟩
  rw [get_written]
  by_cases hs : s = r
  · rw [if_pos hs]
    exact (h.registers r).takeParts hv _
  · rw [if_neg hs]
    exact h.registers s

/-! ### Computations that leave ranges near zero -/

/-- Does a computation leave ranges near zero, and is its result, if it has one, as asked? -/
def Stays (act : EngineM σ α) (P : α → Prop) : Prop :=
  ∀ e, e.Near → (act e).2.Near ∧ ∀ a, (act e).1 = .ok a → P a

theorem stays_pure {a : α} (h : P a) : Stays (pure a : EngineM σ α) P := by
  refine fun e he => ⟨he, ?_⟩
  rintro _ ⟨⟩
  exact h

theorem stays_liftM {x : Except Fault α} (h : ∀ a, x = .ok a → P a) :
    Stays (liftM x : EngineM σ α) P := by
  intro e he
  rw [apply_liftExcept]
  exact ⟨he, h⟩

theorem stays_throw (f : Fault) : Stays (throw f : EngineM σ α) P := fun _ he => ⟨he, nofun⟩

/-- **Near zero in sequence.** -/
theorem Stays.bind {x : EngineM σ α} {f : α → EngineM σ β} (hx : Stays x P)
    (hf : ∀ a, P a → Stays (f a) Q) : Stays (x >>= f) Q := by
  intro e he
  obtain ⟨hnear, hresult⟩ := hx e he
  rcases hact : x e with ⟨fault | a, e'⟩
  · rw [apply_bind_error hact]
    rw [hact] at hnear
    exact ⟨hnear, nofun⟩
  · rw [apply_bind_ok hact]
    rw [hact] at hnear hresult
    exact hf a (hresult a rfl) e' hnear

theorem stays_get {f : Engine σ → EngineM σ β} (hf : ∀ e, e.Near → Stays (f e) Q) :
    Stays (get >>= f) Q := by
  intro e he
  rw [apply_get_bind]
  exact hf e he e he

theorem stays_modify {f : Engine σ → Engine σ} (hf : ∀ e, e.Near → (f e).Near) :
    Stays (modify f : EngineM σ Unit) fun _ => True :=
  fun e he => ⟨hf e he, fun _ _ => trivial⟩

theorem Observes.stays {act : EngineM σ α} (hact : Observes act)
    (hresult : ∀ e e' a, e.Near → act e = (.ok a, e') → P a) : Stays act P := by
  intro e he
  obtain ⟨s, hs⟩ := hact.frame e
  rw [hs]
  exact ⟨he.of_eq rfl rfl, fun a ha => hresult e _ a he (Prod.ext ha rfl)⟩

theorem stays_symbolically {act : ExceptT Fault (SymbolicM σ) α}
    (hact : ∀ s s' a, act s = (.ok a, s') → P a) : Stays (symbolically act) P :=
  (observes_symbolically act).stays fun e _ a _ h =>
    hact e.machine.symbolic (act e.machine.symbolic).2 a (Prod.ext (Prod.mk.inj h).1 rfl)

theorem stays_note (level : Level) (message : Unit → String) :
    Stays (note level message : EngineM σ Unit) fun _ => True :=
  (observes_note level message).stays fun _ _ _ _ _ => trivial

theorem stays_foldlM {f : β → α → EngineM σ β} (hf : ∀ b a, Q b → Stays (f b a) Q) (l : List α)
    {b : β} (hb : Q b) : Stays (l.foldlM f b) Q := by
  induction l generalizing b with
  | nil => exact stays_pure hb
  | cons a l ih =>
    rw [List.foldlM_cons]
    exact (hf b a hb).bind fun _ => ih

theorem stays_forM {f : α → EngineM σ Unit} (hf : ∀ a, Stays (f a) fun _ => True) (l : List α) :
    Stays (l.forM f) fun _ => True := by
  induction l with
  | nil => exact stays_pure trivial
  | cons a l ih => exact (hf a).bind fun _ _ => ih

/-- A computation that is run for its result, be it a fault. -/
theorem Stays.lift_run {x : EngineM σ α} (hx : Stays x P) :
    Stays (ExceptT.lift x.run : EngineM σ (Except Fault α)) fun _ => True := by
  intro e he
  rcases hact : x e with ⟨r, e'⟩
  have hnear := (hx e he).1
  rw [hact] at hnear
  rw [apply_lift_run hact]
  exact ⟨hnear, fun _ _ => trivial⟩

/-- A register is set to a value near zero, or nothing happens. -/
theorem stays_updateMachine {f : Machine σ → Except Fault (Machine σ)}
    (hf : ∀ e : Engine σ, e.Near → ∀ m, f e.machine = .ok m →
      ∃ r v, v.Near ∧ e.machine.writeRegister r v = .ok m) :
    Stays (updateMachine f) fun _ => True := by
  intro e he
  cases hm : f e.machine with
  | error fault =>
    rw [updateMachine_error hm]
    exact ⟨he, nofun⟩
  | ok m =>
    obtain ⟨r, v, hv, hwrite⟩ := hf e he m hm
    obtain rfl := Machine.eq_of_writeRegister hwrite
    rw [updateMachine_ok hm]
    exact ⟨he.written hv r, fun _ _ => trivial⟩

/-! ### Expressions -/

theorem near_machineReadMemory {address : Value} {bits : Nat}
    (h : onMachine (Machine.readMemory address bits) e = (.ok v, e')) : v.Near := by
  rw [onMachine_readMemory] at h
  obtain ⟨-, -, h⟩ := apply_check_eq_ok h
  obtain ⟨-, -, h⟩ := apply_check_eq_ok h
  rw [apply_get_bind] at h
  obtain ⟨-, e₁, -, h⟩ := apply_bind_eq_ok h
  obtain ⟨u, e₂, hu, h⟩ := apply_bind_eq_ok h
  obtain rfl := Except.ok.inj (Prod.mk.inj h).1
  have hnear : u.Near := Value.near_undefined (Prod.ext (Prod.mk.inj hu).1 rfl)
  exact ⟨hnear.le, hnear.range⟩

theorem stays_machineReadMemory (address : Value) (bits : Nat) :
    Stays (onMachine (Machine.readMemory address bits) : EngineM σ Value) Value.Near :=
  (machineReadMemory_observes address bits).stays fun _ _ _ _ => near_machineReadMemory

theorem near_readNamed (he : e.Near) {name : String} (h : e.machine.readNamed name = .ok v) :
    v.Near := by
  unfold Machine.readNamed at h
  cases hr : Register.named name with
  | error fault =>
    rw [hr] at h
    cases h
  | ok r =>
    rw [hr] at h
    obtain rfl := Except.ok.inj h
    exact (he.registers r).restrict _

variable [Solver σ]

theorem stays_readLogByte (base : Term) (offset : Nat) :
    Stays (readLogByte base offset : EngineM σ Value) Value.Near :=
  stays_get fun _ he => stays_symbolically fun _ _ _ => MemoryLog.near_readByte he.cells

theorem stays_readLogBytes (base : Term) (count : Nat) :
    Stays (readLogBytes base count : EngineM σ Value) Value.Near :=
  (stays_readLogByte base 0).bind fun _ hfirst =>
    stays_foldlM (fun _ i _ => (stays_readLogByte base (i + 1)).bind fun _ _ =>
      stays_get fun _ _ => stays_liftM fun _ => Value.near_concat) _ hfirst

/-- **A load** gives a range near zero. -/
theorem stays_readMemory (address : Value) (bits : Nat) :
    Stays (readMemory address bits : EngineM σ Value) Value.Near := by
  refine stays_get fun e _ => ?_
  have hmachine := stays_machineReadMemory (σ := σ) address bits
  by_cases htrig : (!e.governor.isTriggered) = true
  · rw [if_pos htrig]
    exact hmachine
  rw [if_neg htrig]
  refine (stays_liftM fun _ _ => trivial).bind fun _ _ =>
    (stays_liftM fun _ _ => trivial).bind fun _ _ => ?_
  by_cases hsym : (!e.machine.active.contains .symbolic) = true
  · rw [if_pos hsym]
    exact hmachine
  rw [if_neg hsym]
  cases address.ensureTerm e.machine.active with
  | error fault => exact (stays_note _ _).bind fun _ _ => hmachine
  | ok base =>
    refine (stays_readLogBytes base _).bind fun v hv => stays_get fun e' _ => stays_pure ?_
    refine Value.Near.restrict ?_ _
    split
    · split
      · exact ⟨hv.le, hv.range⟩
      · exact hv
    · exact hv

theorem stays_combine {a b : Value} (op : BinaryOp) (ha : a.Near) :
    Stays (combine op a b : EngineM σ Value) Value.Near := by
  have hbinary (op : BinaryOp) :
      Stays (do Value.binary (← get).machine.active op a b : EngineM σ Value) Value.Near :=
    stays_get fun _ _ => stays_liftM fun _ => Value.near_binary ha
  cases op with
  | xor =>
    refine stays_get fun e _ => (stays_liftM fun _ => Value.near_binary ha).bind fun v hv =>
      stays_symbolically fun s s' u hu => ?_
    obtain rfl := Except.ok.inj (Prod.mk.inj hu).1
    exact hv.refineZero s
  | _ => exact hbinary _

/-- **An evaluation** gives a range near zero, by induction on the expression. -/
theorem stays_evaluate (x : Expr) : Stays (evaluate x : EngineM σ Value) Value.Near := by
  induction x with
  | const value size => exact stays_get fun _ _ => stays_liftM fun _ => Value.near_number
  | register name => exact stays_get fun _ he => stays_liftM fun _ => near_readNamed he
  | memory size a ih => exact ih.bind fun u _ => stays_readMemory u size
  | binary op a b iha ihb => exact iha.bind fun u hu => ihb.bind fun _ _ => stays_combine op hu
  | invert a ih =>
    exact ih.bind fun u hu => stays_get fun _ _ => stays_liftM fun _ => Value.near_invert hu
  | slice a lo hi ih =>
    exact ih.bind fun u hu => stays_get fun _ _ => stays_liftM fun _ => hu.slice
  | concat lo hi ihl ihh =>
    exact ihl.bind fun _ _ => ihh.bind fun _ _ => stays_get fun _ _ =>
      stays_liftM fun _ => Value.near_concat
  | isZero a ih =>
    exact ih.bind fun _ _ => stays_get fun _ _ => stays_liftM fun _ => Value.near_isZero
  | ite c t f ihc iht ihf =>
    exact ihc.bind fun _ _ => iht.bind fun _ ht => ihf.bind fun _ hf => stays_get fun _ _ =>
      stays_liftM fun _ => ht.ite hf
  | undefined size =>
    exact stays_get fun _ _ => stays_symbolically fun _ _ _ => Value.near_undefined

/-! ### Instructions -/

omit [Solver σ] in
/-- **The cells that a store logs** have slices of its data, above the old cells. -/
theorem mem_logged {address data : Value} {log : MemoryLog} (h : e.logged address data = .ok log) :
    ∀ c ∈ log.cells, c ∈ e.log.cells ∨ ∃ (word : Value) (i : Nat), word.bits = data.bits ∧
      word.interval = data.interval ∧
      word.slice e.machine.active (8 * i) (8 * i + 8) = .ok c.value := by
  unfold logged at h
  split at h
  · split at h
    · obtain rfl := Except.ok.inj h
      exact fun _ => .inl
    · rename_i base _
      have hword : ((data.ensure e.machine.active .symbolic).toOption.getD data).bits = data.bits ∧
          ((data.ensure e.machine.active .symbolic).toOption.getD data).interval =
            data.interval := by
        cases hens : data.ensure e.machine.active .symbolic with
        | error fault => exact ⟨rfl, rfl⟩
        | ok u =>
          obtain ⟨hbits, -, hinterval⟩ := Value.ensure_symbolic_keeps hens
          exact ⟨hbits, hinterval⟩
      obtain ⟨cells, hcells, h⟩ := bind_eq_ok h
      obtain rfl := Except.ok.inj h
      rw [MemoryLog.foldl_write]
      intro c hc
      rcases List.mem_append.1 hc with hc | hc
      · obtain ⟨i, -, hmake⟩ := exists_of_mapM hcells c (List.mem_reverse.1 hc)
        obtain ⟨byte, hbyte, hmake⟩ := bind_eq_ok hmake
        obtain ⟨-, rfl⟩ := eq_of_cellMake hmake
        exact .inr ⟨_, i, hword.1, hword.2, hbyte⟩
      · exact .inl hc
  · obtain rfl := Except.ok.inj h
    exact fun _ => .inl

omit [Solver σ] in
theorem near_logged (he : e.Near) {address data : Value} (hdata : data.Near) {log : MemoryLog}
    (h : e.logged address data = .ok log) : ∀ c ∈ log.cells, c.value.Near := by
  intro c hc
  rcases mem_logged h c hc with hold | ⟨word, i, hbits, hinterval, hslice⟩
  · exact he.cells c hold
  · have hword : word.Near := ⟨hbits ▸ hdata.le, hinterval ▸ hdata.range⟩
    exact hword.slice hslice

omit [Solver σ] in
/-- **Whatever range of 64 bits is stored**, the hulls of the ranges of its cells fit. -/
theorem hullable_logged (he : ∀ c ∈ e.log.cells, c.Hullable) {address data : Value}
    (hle : data.bits ≤ maxBits)
    (hdata : ∀ i, data.interval = some i → i.lo < 2 ^ 63 ∧ -2 ^ 63 ≤ i.hi) {log : MemoryLog}
    (h : e.logged address data = .ok log) : ∀ c ∈ log.cells, c.Hullable := by
  intro c hc
  rcases mem_logged h c hc with hold | ⟨word, i, hbits, hinterval, hslice⟩
  · exact he c hold
  · exact Value.hullable_slice (hbits ▸ hle) (hinterval ▸ hdata) hslice

omit [Solver σ] in
theorem stays_writeMemory (address : Value) {data : Value} (hdata : data.Near) :
    Stays (writeMemory address data : EngineM σ Unit) fun _ => True := by
  refine fun e he => ⟨⟨fun r => ?_, ?_⟩, fun _ _ => trivial⟩
  · rw [registers_writeMemory]
    exact he.registers r
  · by_cases htrig : e.governor.isTriggered = true
    · rcases writeMemory_checks htrig address data with ⟨f, hrefused⟩ | ⟨hw, ha, hd⟩
      · rw [hrefused]
        exact he.cells
      · obtain ⟨journal, hstore⟩ := writeMemory_eq_storing htrig hw ha hd
        rw [hstore]
        cases hlog : e.logged address data with
        | ok log => exact near_logged he hdata hlog
        | error f => exact he.cells
    · unfold writeMemory
      rw [apply_get_bind, if_pos (by simpa using htrig)]
      exact he.cells

theorem stays_perform (s : Statement) : Stays (perform s : EngineM σ Unit) fun _ => True := by
  cases s with
  | setRegister name x =>
    refine (stays_evaluate x).bind fun v hv => stays_updateMachine fun e _ m hm => ?_
    obtain ⟨r, -, hm⟩ := bind_eq_ok hm
    exact ⟨r, v, hv, hm⟩
  | store size address x =>
    refine (stays_evaluate address).bind fun a _ => (stays_evaluate x).bind fun v hv => ?_
    dsimp only
    split
    · exact stays_throw _
    · exact stays_writeMemory a hv
  | jump target =>
    exact (stays_evaluate target).bind fun v hv => stays_updateMachine fun e _ m hm =>
      ⟨.eip, v, hv, hm⟩
  | trap vector => exact (stays_note _ _).bind fun _ _ => stays_modify fun _ he => he.of_eq rfl rfl

omit [Solver σ] in
theorem stays_advance (length : Nat) : Stays (advance length : EngineM σ Unit) fun _ => True := by
  refine stays_updateMachine fun e he m hm => ?_
  obtain ⟨n, -, hm⟩ := bind_eq_ok hm
  obtain ⟨v, hv, hm⟩ := bind_eq_ok hm
  exact ⟨.eip, v, Value.near_binary ((he.registers .eip).restrict _) hv, hm⟩

theorem stays_run (i : Instruction) : Stays (run i : EngineM σ Unit) fun _ => True := by
  refine stays_get fun _ _ => (stays_liftM fun _ _ => trivial).bind fun _ _ =>
    (stays_forM stays_perform _).bind fun _ _ => ?_
  cases i.jumps with
  | true => exact stays_pure trivial
  | false => exact stays_advance i.length

/-- **A step** leaves ranges near zero, also where it fails: the cells that are left then are old
ones. -/
theorem stays_step (i : Instruction) : Stays (step i : EngineM σ Unit) fun _ => True := by
  refine fun e he => ⟨?_, fun _ _ => trivial⟩
  have hrun := (stays_run i e.beginWrites (he.of_eq rfl rfl)).1
  unfold step
  rcases hout : run i e.beginWrites with ⟨fault | _, e'⟩
  · rw [hout] at hrun
    exact ⟨hrun.registers, fun c hc => hrun.cells c (List.mem_of_mem_drop hc)⟩
  · rw [hout] at hrun
    exact hrun.of_eq rfl rfl

omit [Solver σ] in
theorem stays_setActive (d : DomainSet) : Stays (setActive d : EngineM σ Unit) fun _ => True :=
  stays_modify fun _ he => he.of_eq rfl rfl

omit [Solver σ] in
theorem stays_writeAddress (address : Nat) :
    Stays (writeAddress address : EngineM σ Unit) fun _ => True := by
  refine stays_updateMachine fun e _ m hm => ?_
  obtain ⟨v, hv, hm⟩ := bind_eq_ok hm
  exact ⟨.eip, v, Value.near_number hv, hm⟩

omit [Solver σ] in
theorem stays_trigger (target : Nat) : Stays (trigger target : EngineM σ Unit) fun _ => True := by
  refine stays_get fun e _ => ?_
  by_cases htrig : e.governor.isTriggered = true
  · rw [if_pos htrig]
    exact stays_pure trivial
  rw [if_neg htrig]
  refine Stays.bind (stays_modify fun _ he => ⟨he.registers, he.cells⟩) fun _ _ => ?_
  refine (stays_note _ _).bind fun _ _ => ?_
  exact (stays_setActive _).bind fun _ _ => stays_writeAddress target

theorem stays_reportUsage : Stays (reportUsage : EngineM σ Unit) fun _ => True := by
  refine stays_get fun e _ => ?_
  split
  · exact stays_pure trivial
  · split
    · exact (stays_note _ _).bind fun _ _ => stays_modify fun _ he => he.of_eq rfl rfl
    · exact stays_pure trivial

theorem stays_beforeInstruction (i : Instruction) :
    Stays (beforeInstruction i : EngineM σ Unit) fun _ => True := by
  refine stays_get fun e _ => ?_
  by_cases htrig : e.governor.isTriggered = true
  swap
  · rw [if_neg htrig]
    exact stays_pure trivial
  rw [if_pos htrig]
  refine Stays.bind (stays_modify fun _ he => ⟨he.registers, he.cells⟩) fun _ _ => ?_
  have hrest : Stays (do
      let allowed := (← get).governor.allowed
      setActive (if i.kind.isTrap then .concreteOnly else allowed)
      writeAddress i.address
      modify fun e => { e with governor := e.governor.tick }
      if (← get).governor.reportDue then reportUsage : EngineM σ Unit) fun _ => True := by
    refine stays_get fun _ _ => (stays_setActive _).bind fun _ _ =>
      (stays_writeAddress i.address).bind fun _ _ => ?_
    refine Stays.bind (stays_modify fun _ he => ⟨he.registers, he.cells⟩) fun _ _ => ?_
    refine stays_get fun e _ => ?_
    cases e.governor.reportDue with
    | true => exact stays_reportUsage
    | false => exact stays_pure trivial
  cases e.governor.exceeds e.complexity with
  | true => exact (stays_note _ _).bind fun _ _ => hrest
  | false => exact hrest

omit [Solver σ] in
theorem stays_afterInstruction (i : Instruction) :
    Stays (afterInstruction i : EngineM σ Unit) fun _ => True := by
  refine stays_get fun e _ => ?_
  split
  · exact (stays_note _ _).bind fun _ _ => stays_setActive _
  · exact stays_pure trivial

/-- **An instruction** leaves ranges near zero. -/
theorem stays_execute (i : Instruction) : Stays (execute i : EngineM σ Unit) fun _ => True := by
  refine stays_get fun e _ => ?_
  split
  · exact stays_step i
  · refine Stays.bind (P := fun _ => True) ?_ fun result _ => ?_
    · refine Stays.lift_run (P := fun _ => True) ?_
      exact (stays_beforeInstruction i).bind fun _ _ => stays_step i
    · have hafter := stays_afterInstruction (σ := σ) i
      cases result with
      | error fault =>
        exact (stays_note _ _).bind fun _ _ => hafter.bind fun _ _ => stays_throw fault
      | ok _ => exact hafter.bind fun _ _ => stays_pure trivial

theorem near_execute (he : e.Near) (i : Instruction) : (execute i e).2.Near :=
  (stays_execute i e he).1

theorem near_executeAll (he : e.Near) (is : List Instruction) : (e.executeAll is).Near := by
  induction is generalizing e with
  | nil => exact he
  | cons i is ih => exact ih (near_execute he i)

end Engine
end Lockstep
