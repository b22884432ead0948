/-
# Stores that miss the bus

A store whose address or data has no known number does not reach the bus; it
only adds to the log. A load at a known address takes its number from the bus
all the same. So the number that a load returns is that of the stores with
known numbers. It is the number that all stores have left there if, for each
byte, the last store that covers it reached the bus, and it is out of date
where that store missed it.

Key definitions: `Value.meaning`, `StoreRequest`, `StoreRequest.bytes`,
`StoreRequest.reachesBus`, `lastCovering`, `Engine.writeAll`.
Key theorems: `Engine.writeAll_bus`, `Engine.concrete_readMemory`, `getByte_reached`,
`Engine.readMemory_writeAll`.
-/
import Lockstep.Proofs.Engine.Atomicity

namespace Lockstep

/-! ### Stores under an assignment -/

/-- The number that the term of a value, or else its known number, denotes. -/
def Value.meaning (ρ : Assignment) (v : Value) : Nat := (v.symbolic?.map (·.eval ρ)).getD 0

/-- Is the known number of a value, if it has one, what the value denotes? -/
def Value.KnownAs (ρ : Assignment) (v : Value) : Prop := ∀ n, v.known? = some n → v.meaning ρ = n

/-- What is stored, and where. -/
structure StoreRequest where
  address : Value
  data : Value
  deriving DecidableEq

namespace StoreRequest

/-- The bytes that are stored under an assignment, in order. -/
def bytes (ρ : Assignment) (w : StoreRequest) : List (Nat × UInt8) :=
  Bus.writes (w.address.meaning ρ) (w.data.bits / 8) (w.data.meaning ρ)

/-- Is a byte stored at the address? -/
def covers (ρ : Assignment) (w : StoreRequest) (a : Nat) : Bool := (w.bytes ρ).any (·.1 = a)

/-- Are the address and the data known, so that the store is seen on the bus? -/
def reachesBus (w : StoreRequest) : Bool := w.address.known?.isSome && w.data.known?.isSome

/-- Are known numbers what the values denote? -/
structure KnownAs (ρ : Assignment) (w : StoreRequest) : Prop where
  address : w.address.KnownAs ρ
  data : w.data.KnownAs ρ

theorem not_covers_iff {ρ : Assignment} {w : StoreRequest} {a : Nat} :
    w.covers ρ a = false ↔ ∀ b ∈ w.bytes ρ, b.1 ≠ a := by
  simp [covers]

theorem storeWrites_eq {active : DomainSet} (hc : active.contains .concrete = true)
    {ρ : Assignment} {w : StoreRequest} (hknown : w.KnownAs ρ) :
    Value.storeWrites active w.address w.data = if w.reachesBus then w.bytes ρ else [] := by
  unfold Value.storeWrites reachesBus bytes
  rw [if_pos hc]
  cases ha : w.address.known? with
  | none => rfl
  | some a =>
    cases hd : w.data.known? with
    | none => rfl
    | some n =>
      rw [hknown.address a ha, hknown.data n hd]
      rfl

end StoreRequest

/-- The last of the stores, in order, that covers an address. -/
def lastCovering (ρ : Assignment) (ws : List StoreRequest) (a : Nat) : Option StoreRequest :=
  ws.reverse.find? (·.covers ρ a)

theorem lastCovering_append (ρ : Assignment) (ws : List StoreRequest) (w : StoreRequest) (a : Nat) :
    lastCovering ρ (ws ++ [w]) a = if w.covers ρ a then some w else lastCovering ρ ws a := by
  unfold lastCovering
  rw [List.reverse_append, List.reverse_singleton, List.singleton_append, List.find?_cons]
  cases w.covers ρ a <;> rfl

/-- **A byte is up to date on the bus** if the last store that covers it, if there is one,
reached the bus. By induction on the stores from the last one: it covers the address, and then
it decides on both sides, or it leaves the byte on both sides. -/
theorem getByte_reached (b : Bus) {active : DomainSet} (hc : active.contains .concrete = true)
    {ρ : Assignment} {ws : List StoreRequest} (hknown : ∀ w ∈ ws, w.KnownAs ρ) {a : Nat}
    (hlast : ∀ w ∈ lastCovering ρ ws a, w.reachesBus = true) :
    (b.setBytes (ws.flatMap fun w => Value.storeWrites active w.address w.data)).getByte a =
      (b.setBytes (ws.flatMap (·.bytes ρ))).getByte a := by
  induction ws using List.reverseRecOn with
  | nil => rfl
  | append_singleton ws w ih =>
    obtain ⟨hws, hw⟩ := List.forall_mem_append.1 hknown
    have hw := StoreRequest.storeWrites_eq hc (hw w List.mem_cons_self)
    rw [List.flatMap_append, List.flatMap_append, List.flatMap_singleton, List.flatMap_singleton,
      Bus.setBytes_append, Bus.setBytes_append, hw]
    rw [lastCovering_append] at hlast
    cases hcovers : w.covers ρ a with
    | true =>
      rw [hcovers, if_pos rfl] at hlast
      rw [if_pos (hlast w rfl)]
      obtain ⟨p, hp, ha⟩ := List.any_eq_true.1 hcovers
      exact Bus.getByte_setBytes_of_mem _ _ ⟨p, hp, of_decide_eq_true ha⟩
    | false =>
      rw [hcovers, if_neg Bool.false_ne_true] at hlast
      have hne := StoreRequest.not_covers_iff.1 hcovers
      rw [Bus.getByte_setBytes_of_ne _ hne, ← ih hws hlast]
      refine Bus.getByte_setBytes_of_ne _ ?_
      split
      · exact hne
      · exact List.forall_mem_nil _

namespace Engine

variable {σ : Type} {e e' : Engine σ}

/-! ### Stores in order -/

/-- Stores in order; the first one that fails ends them. -/
def writeAll (ws : List StoreRequest) : EngineM σ Unit :=
  ws.forM fun w => writeMemory w.address w.data

/-- **A store that succeeds** has put the bytes that it knows on the bus. -/
theorem writeMemory_reaches (hstaged : e.machine.staged = none) {address data : Value}
    (h : writeMemory address data e = (.ok (), e')) :
    e'.machine.bus = e.machine.bus.setBytes (Value.storeWrites e.machine.active address data) ∧
      e'.machine.active = e.machine.active ∧ e'.machine.staged = none := by
  have hdefers := writeMemory_defers (e := e.beginWrites) address data rfl
  have hdirect := hdefers.direct
  rw [commitWrites_beginWrites hstaged, h] at hdirect
  obtain ⟨hok, rfl⟩ := Prod.mk.inj hdirect
  refine ⟨?_, hdefers.active, rfl⟩
  exact hdefers.committed (Prod.ext hok.symm rfl)

/-- **After stores that succeed** the bus has the bytes that they know, in order. -/
theorem writeAll_bus (hstaged : e.machine.staged = none) {ws : List StoreRequest}
    (h : writeAll ws e = (.ok (), e')) :
    e'.machine.bus = e.machine.bus.setBytes
        (ws.flatMap fun w => Value.storeWrites e.machine.active w.address w.data) ∧
      e'.machine.active = e.machine.active ∧ e'.machine.staged = none := by
  induction ws generalizing e with
  | nil =>
    obtain ⟨-, rfl⟩ := Prod.mk.inj h
    exact ⟨rfl, rfl, hstaged⟩
  | cons w ws ih =>
    have hbind : (writeMemory w.address w.data >>= fun _ => writeAll ws) e = (.ok (), e') := h
    rcases hw : writeMemory w.address w.data e with ⟨fault | _, e₁⟩
    · rw [apply_bind_error hw] at hbind
      cases hbind
    · rw [apply_bind_ok hw] at hbind
      obtain ⟨hbus₁, hactive₁, hstaged₁⟩ := writeMemory_reaches hstaged hw
      obtain ⟨hbus, hactive, hstaged'⟩ := ih hstaged₁ hbind
      refine ⟨?_, hactive.trans hactive₁, hstaged'⟩
      rw [hbus, hbus₁, hactive₁, List.flatMap_cons, Bus.setBytes_append]

/-! ### The number that is loaded -/

theorem concrete_machineReadMemory (hc : e.machine.active.contains .concrete = true)
    {address v : Value} {a bits : Nat} (ha : address.known? = some a)
    (h : onMachine (Machine.readMemory address bits) e = (.ok v, e')) :
    v.concrete = some (e.machine.load a bits) := by
  rcases hm : Machine.readMemory address bits e.machine with ⟨fault | u, m⟩
  · unfold onMachine at h
    rw [hm] at h
    cases h
  · unfold onMachine at h
    rw [hm] at h
    obtain rfl := Except.ok.inj (Prod.mk.inj h).1
    unfold Machine.readMemory at hm
    obtain ⟨-, -, hm⟩ := apply_check_eq_ok hm
    obtain ⟨-, -, hm⟩ := apply_check_eq_ok hm
    rw [apply_get_bind, ha, Option.isNone_some, Bool.and_false,
      if_neg Bool.false_ne_true] at hm
    obtain ⟨u, m', -, hm⟩ := apply_bind_eq_ok hm
    obtain rfl := Except.ok.inj (Prod.mk.inj hm).1
    exact Value.only_eq_some.2 ⟨hc, rfl⟩

variable [Solver σ]

theorem bits_of_readLogByte {base : Term} {i : Nat} {v : Value}
    (h : readLogByte base i e = (.ok v, e')) : v.bits = 8 := by
  unfold readLogByte at h
  rw [apply_get_bind] at h
  rcases hread : e.log.readByte (byteTerm base i) e.config.readPruning e.machine.symbolic with
    ⟨r, s'⟩
  simp only [symbolically, onMachine, Machine.symbolically, hread] at h
  obtain ⟨rfl, -⟩ := Prod.mk.inj h
  exact MemoryLog.bits_of_readByte hread

/-- A word out of the log is as wide as its bytes together. -/
theorem bits_of_readLogBytes {base : Term} {count : Nat} {v : Value}
    (h : readLogBytes base count e = (.ok v, e')) : v.bits = 8 + 8 * (count - 1) := by
  obtain ⟨first, e₁, hfirst, h⟩ := apply_bind_eq_ok h
  suffices hall : v.bits = first.bits + 8 * (List.range (count - 1)).length by
    rw [hall, bits_of_readLogByte hfirst, List.length_range]
  generalize List.range (count - 1) = places at h ⊢
  clear hfirst
  induction places generalizing first e₁ with
  | nil =>
    obtain ⟨hv, -⟩ := Prod.mk.inj h
    obtain rfl := Except.ok.inj hv
    rfl
  | cons i places ih =>
    rw [List.foldlM_cons] at h
    obtain ⟨next, e₂, hnext, h⟩ := apply_bind_eq_ok h
    obtain ⟨byte, e₃, hbyte, hconcat⟩ := apply_bind_eq_ok hnext
    rw [apply_get_bind, apply_liftExcept] at hconcat
    obtain ⟨-, -, hassemble⟩ := bind_eq_ok (Prod.mk.inj hconcat).1
    have hbits : next.bits = first.bits + 8 := by
      rw [Value.eq_of_assemble _ hassemble, bits_of_readLogByte hbyte]
    rw [ih next e₂ h, hbits, List.length_cons]
    omega

/-- **A load at a known address** has the number on the bus. -/
theorem concrete_readMemory (hc : e.machine.active.contains .concrete = true)
    {address v : Value} {a bits : Nat} (ha : address.known? = some a)
    (h : readMemory address bits e = (.ok v, e')) :
    v.concrete = some (e.machine.load a bits) := by
  unfold readMemory at h
  rw [apply_get_bind] at h
  by_cases htrig : (!e.governor.isTriggered) = true
  · rw [if_pos htrig] at h
    exact concrete_machineReadMemory hc ha h
  rw [if_neg htrig] at h
  obtain ⟨_, hw, h⟩ := apply_check_eq_ok h
  obtain ⟨-, -, h⟩ := apply_check_eq_ok h
  by_cases hsym : (!e.machine.active.contains .symbolic) = true
  · rw [if_pos hsym] at h
    exact concrete_machineReadMemory hc ha h
  rw [if_neg hsym] at h
  cases hens : address.ensureTerm e.machine.active with
  | error fault =>
    rw [hens] at h
    obtain ⟨_, e₁, hnote, h⟩ := apply_bind_eq_ok h
    obtain ⟨s, hs⟩ := (observes_note _ _).frame e
    rw [hnote] at hs
    obtain rfl : e₁ = e.withSymbolic s := hs
    exact concrete_machineReadMemory (e := e.withSymbolic s) hc ha h
  | ok base =>
    rw [hens] at h
    obtain ⟨u, e₁, hlog, h⟩ := apply_bind_eq_ok h
    have hbits := bits_of_readLogBytes hlog
    obtain ⟨s, hs⟩ := (readLogBytes_observes base (bits / 8)).frame e
    rw [hlog] at hs
    obtain rfl : e₁ = e.withSymbolic s := hs
    have hc' : (e.withSymbolic s).machine.active.contains .concrete = true := hc
    rw [apply_get_bind, if_pos hc', ha] at h
    obtain rfl := Except.ok.inj (Prod.mk.inj h).1
    refine Value.only_eq_some.2 ⟨hc, ?_⟩
    obtain ⟨h8, hpos, hle⟩ := bounds_of_checkAccessWidth hw
    have hwidth : u.bits = bits := by omega
    show some (Word.truncate u.bits ((e.withSymbolic s).machine.load a bits)) = _
    rw [hwidth, Word.truncate_of_lt (Machine.load_lt _ a h8 hle)]
    rfl

/-- **A load after stores.** Its number is what the stores with known numbers have left on the
bus. Under an assignment that gives known numbers to what they are known for, it is what all
stores have left in memory if for each byte of the load the last store that covers it, if there
is one, has a known address and known data. -/
theorem readMemory_writeAll (hstaged : e.machine.staged = none)
    (hc : e.machine.active.contains .concrete = true) {ws : List StoreRequest}
    {e₁ : Engine σ} (hwrites : writeAll ws e = (.ok (), e₁)) {address v : Value} {a bits : Nat}
    {e₂ : Engine σ} (ha : address.known? = some a)
    (hread : readMemory address bits e₁ = (.ok v, e₂)) :
    v.concrete = some ((e.machine.bus.setBytes (ws.flatMap fun w =>
        Value.storeWrites e.machine.active w.address w.data)).loadBytes a (bits / 8)) ∧
      ∀ ρ, (∀ w ∈ ws, w.KnownAs ρ) →
        (∀ i < bits / 8, ∀ w ∈ lastCovering ρ ws (byteAddress a i), w.reachesBus = true) →
        v.concrete = some
          ((e.machine.bus.setBytes (ws.flatMap (·.bytes ρ))).loadBytes a (bits / 8)) := by
  obtain ⟨hbus, hactive, hstaged₁⟩ := writeAll_bus hstaged hwrites
  have hnumber := concrete_readMemory (hactive ▸ hc) ha hread
  have hload : e₁.machine.load a bits = e₁.machine.bus.loadBytes a (bits / 8) := by
    unfold Machine.load Machine.getByte
    rw [hstaged₁]
    rfl
  rw [hload, hbus] at hnumber
  refine ⟨hnumber, fun ρ hknown hlast => ?_⟩
  rw [hnumber]
  unfold Bus.loadBytes
  rw [Word.ofBytes_range, Word.ofBytes_range]
  refine congrArg some (Word.gather_congr fun i hi => ?_)
  rw [getByte_reached _ hc hknown (hlast i hi)]

/-- A byte that is not known is stored, then a known word over it, then a byte that is not known
elsewhere: the word is loaded. -/
theorem readMemory_writeAll_over :
    let e : Engine Backend := (trigger 0 (Engine.start .empty {} (some (builtIn {})))).2
    let place (n : Nat) : Value := ⟨32, some n, none, some (.const 32 n)⟩
    let byte : Value := ⟨8, none, none, some (.var 8 22)⟩
    let word : Value := ⟨16, some 0x2211, none, some (.const 16 0x2211)⟩
    let ws : List StoreRequest := [⟨place 64, byte⟩, ⟨place 64, word⟩, ⟨place 80, byte⟩]
    let ρ : Assignment := fun _ => 1
    ∃ e₁ v e₂, writeAll ws e = (.ok (), e₁) ∧ readMemory (place 64) 16 e₁ = (.ok v, e₂) ∧
      v.concrete = some ((e.machine.bus.setBytes (ws.flatMap (·.bytes ρ))).loadBytes 64 2) ∧
      v.concrete = some 0x2211 := by
  intro e place byte word ws ρ
  have hwrites : (writeAll ws e).1 = .ok () := by decide +kernel
  have hread : (readMemory (place 64) 16 (writeAll ws e).2).1 =
      .ok ⟨16, some 0x2211, some ⟨0x2211, 0x2211⟩, some (.const 16 0x2211)⟩ := by decide +kernel
  have hplace (n : Nat) : (place n).KnownAs ρ := by
    rintro m ⟨⟩
    rfl
  have hbyte : byte.KnownAs ρ := nofun
  have hword : word.KnownAs ρ := by
    rintro m ⟨⟩
    rfl
  have hknown : ∀ w ∈ ws, w.KnownAs ρ := by
    refine List.forall_mem_cons.2 ⟨⟨hplace 64, hbyte⟩, List.forall_mem_cons.2 ⟨?_, ?_⟩⟩
    · exact ⟨hplace 64, hword⟩
    · exact List.forall_mem_singleton.2 ⟨hplace 80, hbyte⟩
  obtain ⟨-, hmemory⟩ := readMemory_writeAll (a := 64) rfl rfl (Prod.ext hwrites rfl) rfl
    (Prod.ext hread rfl)
  refine ⟨_, _, _, Prod.ext hwrites rfl, Prod.ext hread rfl, ?_, rfl⟩
  exact hmemory ρ hknown (by decide +kernel)

/-- A known byte is stored, and then one that is not known at the same address: the load has the
known byte, whatever the other one is. -/
theorem readMemory_writeAll_stale :
    let e : Engine Backend := (trigger 0 (Engine.start .empty {} (some (builtIn {})))).2
    let address : Value := ⟨32, some 64, none, some (.const 32 64)⟩
    let known : Value := ⟨8, some 17, none, some (.const 8 17)⟩
    let unknown : Value := ⟨8, none, none, some (.var 8 22)⟩
    let ws : List StoreRequest := [⟨address, known⟩, ⟨address, unknown⟩]
    let ρ : Assignment := fun _ => 1
    ∃ e₁ v e₂, writeAll ws e = (.ok (), e₁) ∧ readMemory address 8 e₁ = (.ok v, e₂) ∧
      (∀ w ∈ ws, w.KnownAs ρ) ∧ v.concrete = some 17 ∧
      (e.machine.bus.setBytes (ws.flatMap (·.bytes ρ))).loadBytes 64 1 = 1 := by
  intro e address known unknown ws ρ
  have hwrites : (writeAll ws e).1 = .ok () := by decide +kernel
  have hread : (readMemory address 8 (writeAll ws e).2).1 =
      .ok ⟨8, some 17, none, some (.var 8 22)⟩ := by decide +kernel
  refine ⟨_, _, _, Prod.ext hwrites rfl, Prod.ext hread rfl, ?_, rfl, by decide +kernel⟩
  have haddress : address.KnownAs ρ := by
    rintro m ⟨⟩
    rfl
  have hknown : known.KnownAs ρ := by
    rintro m ⟨⟩
    rfl
  exact List.forall_mem_cons.2 ⟨⟨haddress, hknown⟩,
    List.forall_mem_singleton.2 ⟨haddress, nofun⟩⟩

end Engine
end Lockstep
