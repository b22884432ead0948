/-
# The address that a run fetches next

A run goes on at the number that any domain has for the address of the next
instruction, be the domain active or not. So the last value that a step has put
there decides if a part of it is a number, as the domains that a step works
without have none that would come first. But if no part of it is a number, the
run goes on at what an inactive domain has kept, and there is nothing kept only
as long as the engine is idle, or if a step works in all domains of the
configuration. An instruction that is like a trap leaves an old address behind,
and so does the loss of the symbolic domain.

Key definitions: `Value.without`, `Engine.Dormant`.
Key theorems: `Value.known?_takeParts`, `Value.known?_takeParts_of_none`,
`Engine.samePart_of_transitions`, `Engine.dormant_call`, `Engine.execute_nextAddress?`,
`Engine.execute_nextAddress?_stale`.
-/
import Lockstep.Proofs.Engine.Beside
import Lockstep.Proofs.Engine.LastAddress
import Lockstep.Proofs.Engine.OneWay
import Lockstep.Proofs.Run.Seeds

namespace Lockstep

open Engine (addressIn)

/-! ### Known numbers of parts -/

namespace Value

variable {s u v : Value} {d : DomainSet} {x : Domain} {n : Nat}

/-- The value without the parts of the given domains. -/
def without (v : Value) (d : DomainSet) : Value := v.takeParts (.empty v.bits) d

/-- The known number is what the first domain has that pins it down. -/
theorem known?_eq_addressIn (v : Value) :
    v.known? =
      (addressIn v .concrete).or ((addressIn v .interval).or (addressIn v .symbolic)) := rfl

theorem addressIn_takeParts (hbits : v.bits = s.bits) (d : DomainSet) (x : Domain) :
    addressIn (s.takeParts v d) x = if d.contains x then addressIn v x else addressIn s x := by
  cases x <;> unfold takeParts addressIn <;> dsimp only <;> split <;> simp only [hbits]

theorem addressIn_without (s : Value) (d : DomainSet) (x : Domain) :
    addressIn (s.without d) x = if d.contains x then none else addressIn s x := by
  have hnone : addressIn (.empty s.bits) x = none := by cases x <;> rfl
  have hbits : (empty s.bits).bits = s.bits := rfl
  rw [without, addressIn_takeParts hbits, hnone]

theorem SamePart.addressIn_eq (h : v.SamePart u x) (hbits : u.bits = v.bits) :
    addressIn u x = addressIn v x := by
  cases x with
  | concrete => exact h
  | interval =>
    have hinterval : u.interval = v.interval := h
    unfold addressIn
    rw [hinterval, hbits]
  | symbolic =>
    have hsymbolic : u.symbolic = v.symbolic := h
    unfold addressIn
    rw [hsymbolic]

theorem known?_eq_none_iff : v.known? = none ↔ ∀ x, addressIn v x = none := by
  rw [known?_eq_addressIn, Option.or_eq_none_iff, Option.or_eq_none_iff]
  constructor
  · rintro ⟨hconcrete, hinterval, hsymbolic⟩ x
    cases x <;> assumption
  · exact fun h => ⟨h _, h _, h _⟩

theorem PartsIn.contains (h : v.PartsIn d) (hn : addressIn v x = some n) : d.contains x = true := by
  refine h x ?_
  cases x with
  | concrete =>
    have hconcrete : v.concrete = some n := hn
    rw [isValid, hconcrete, Option.isSome_some]
  | interval =>
    obtain ⟨i, hi, -⟩ := Option.bind_eq_some_iff.1 hn
    rw [isValid, hi, Option.isSome_some]
  | symbolic =>
    obtain ⟨t, ht, -⟩ := Option.bind_eq_some_iff.1 hn
    rw [isValid, ht, Option.isSome_some]

/-- **A known value that is taken over** gives its number, if a domain that is not taken over and
comes before a taken one has none. -/
theorem known?_takeParts (hbits : v.bits = s.bits) (hparts : v.PartsIn d)
    (hc : d.contains .concrete = true)
    (hi : d.contains .symbolic = true → d.contains .interval = false → addressIn s .interval = none)
    (hn : v.known? = some n) : (s.takeParts v d).known? = some n := by
  rw [known?_eq_addressIn] at hn ⊢
  rw [addressIn_takeParts hbits, addressIn_takeParts hbits, addressIn_takeParts hbits, if_pos hc]
  rcases Option.or_eq_some_iff.1 hn with hconcrete | ⟨hconcrete, hn⟩
  · rw [hconcrete, Option.some_or]
  rw [hconcrete, Option.none_or]
  rcases Option.or_eq_some_iff.1 hn with hinterval | ⟨hinterval, hsymbolic⟩
  · rw [if_pos (hparts.contains hinterval), hinterval, Option.some_or]
  · have hs := hparts.contains hsymbolic
    have hnone :
        (if d.contains .interval then addressIn v .interval else addressIn s .interval) = none := by
      split
      · exact hinterval
      · exact hi hs (Bool.eq_false_iff.2 ‹_›)
    rw [hnone, Option.none_or, if_pos hs, hsymbolic]

/-- **A value that is not known and taken over** leaves what the others have. -/
theorem known?_takeParts_of_none (hbits : v.bits = s.bits) (hnone : v.known? = none) :
    (s.takeParts v d).known? = (s.without d).known? := by
  have hparts (x : Domain) : addressIn (s.takeParts v d) x = addressIn (s.without d) x := by
    rw [addressIn_takeParts hbits, addressIn_without, known?_eq_none_iff.1 hnone x]
  rw [known?_eq_addressIn, known?_eq_addressIn, hparts, hparts, hparts]

theorem known?_without_eq_none (h : ∀ x, d.contains x = false → addressIn s x = none) :
    (s.without d).known? = none := by
  refine known?_eq_none_iff.2 fun x => ?_
  rw [addressIn_without]
  cases hx : d.contains x with
  | true => rfl
  | false => exact h x hx

end Value

namespace Engine

open Relation (ReflTransGen)

variable {σ : Type} [Solver σ] {w w' : World (Engine σ)} {e e' : Engine σ}

/-! ### What calls leave in registers -/

theorem bits_of_effects (h : ReflTransGen Effect w w') (r : Register) :
    (w'.state.machine.registers.get r).bits = (w.state.machine.registers.get r).bits := by
  induction h with
  | refl => rfl
  | tail _ h ih =>
    rw [← ih]
    cases h with
    | write q hv =>
      dsimp only
      rw [get_written]
      split
      · rename_i hr
        rw [hr, Value.bits_takeParts]
      · rfl
    | store writes =>
      dsimp only
      rw [Machine.registers_putBytes]
    | _ => rfl

theorem bits_of_transitions (h : ReflTransGen Transition w w') (r : Register) :
    (w'.state.machine.registers.get r).bits = (w.state.machine.registers.get r).bits := by
  induction h with
  | refl => rfl
  | tail _ h ih =>
    rw [← ih]
    cases h with
    | effect h => exact bits_of_effects (.single h) r
    | committed h | discarded h =>
      have hbits := bits_of_effects h r
      exact hbits
    | _ => rfl

/-- **Each transition** of an engine leaves what a domain that is not allowed knows of registers. -/
theorem Transition.samePart (h : Transition w w') (hw : w.state.Within) {x : Domain}
    (hx : w.state.governor.allowed.contains x = false) (r : Register) :
    (w.state.machine.registers.get r).SamePart (w'.state.machine.registers.get r) x := by
  have hinactive : w.state.machine.active.contains x = false := by
    rw [← Bool.not_eq_true] at hx ⊢
    exact mt (hw x) hx
  cases h with
  | effect h => exact h.untouched.registers x hinactive r
  | committed h | discarded h =>
    have hregisters := (untouched_of_effects h).registers x hinactive r
    exact hregisters
  | _ => exact .refl _ x

theorem samePart_of_transitions (h : ReflTransGen Transition w w') (hw : w.state.Within)
    {x : Domain} (hx : w.state.governor.allowed.contains x = false) (r : Register) :
    (w.state.machine.registers.get r).SamePart (w'.state.machine.registers.get r) x ∧
      w'.state.Within := by
  induction h with
  | refl => exact ⟨.refl _ x, hw⟩
  | tail hsteps h ih =>
    obtain ⟨hsame, hwithin⟩ := ih
    rw [← (later_of_transitions hsteps).allowed] at hx
    exact ⟨hsame.trans (h.samePart hwithin hx r), h.within hwithin⟩

theorem isTriggered_trigger (target : Nat) (e : Engine σ) :
    (trigger target e).2.governor.isTriggered = true := by
  cases hphase : e.governor.isTriggered with
  | true =>
    rw [trigger_of_isTriggered hphase]
    exact hphase
  | false =>
    obtain ⟨j, htrigger⟩ := trigger_of_idle hphase target
    rw [htrigger]
    generalize he : (e.withSymbolic _).under _ e.governor.trigger = e₁
    obtain ⟨V, heffects, -⟩ := writeAddress_leads (w := ⟨fun _ _ => True, e₁⟩) target
    have hgovernor : _ = e₁.governor := governor_of_effects heffects
    rw [hgovernor, ← he]
    rfl

/-- A call that leaves the engine idle leaves what is known beside the concrete domain. -/
theorem samePart_of_idle {c : Call} (h : e.Governed) (hidle : e.governor.isTriggered = false)
    (hidle' : (e.call c).governor.isTriggered = false) {x : Domain} (hx : x ≠ .concrete)
    (r : Register) :
    (e.machine.registers.get r).SamePart ((e.call c).machine.registers.get r) x := by
  have hactive : e.machine.active = .concreteOnly := by
    rw [h.active, hidle, if_neg Bool.false_ne_true]
  have hinactive : e.machine.active.contains x = false := by
    rw [hactive, DomainSet.contains_concreteOnly]
    exact decide_eq_false hx
  have hleads {α : Type} {act : EngineM σ α} {P : Widths → Except Fault α → Prop}
      (hact : Leads Effect ⟨fun _ _ => True, e⟩ act P) :
      (e.machine.registers.get r).SamePart ((act e).2.machine.registers.get r) x := by
    obtain ⟨V, heffects, -⟩ := hact
    exact (untouched_of_effects heffects).registers x hinactive r
  have hover := over_all c
  cases c with
  | trigger target =>
    have htrig : (trigger target e).2.governor.isTriggered = false := hidle'
    rw [isTriggered_trigger] at htrig
    cases htrig
  | execute i =>
    obtain ⟨hinterval, hsymbolic⟩ := (step_beside hactive i).2.registers r
    show (e.machine.registers.get r).SamePart ((execute i e).2.machine.registers.get r) x
    rw [execute_of_idle hidle]
    cases x with
    | concrete => exact absurd rfl hx
    | interval => exact hinterval
    | symbolic => exact hsymbolic
  | readMemory address bits => exact hleads (readMemory_leads (closed_all e) hover bits)
  | writeMemory address data => exact hleads (writeMemory_leads hover.1 hover.2)
  | xor a b => exact hleads (xor_leads hover.1 hover.2)
  | ensure d v =>
    show (e.machine.registers.get r).SamePart
      (((liftM (v.ensure e.machine.active d) : EngineM σ Value) e).2.machine.registers.get r) x
    rw [apply_liftExcept]
    exact .refl _ x
  | resetUsage => exact .refl _ x

/-! ### Domains without an address -/

omit [Solver σ] in
theorem registers_entered (e : Engine σ) (c : Call) :
    (e.entered c).machine.registers = e.machine.registers := by
  rcases entered_cases e c with hentered | ⟨i, -, hentered⟩ <;> rw [hentered]
  rfl

/-- Between calls no range and no term pins down the address of the next instruction as long as
the engine is idle, and later none of a domain that was not allowed at first does. Of the domains
that were allowed the symbolic one may be lost. -/
structure Dormant (first : DomainSet) (e : Engine σ) : Prop where
  governed : e.Governed
  allowed : e.governor.allowed = first ∨ e.governor.allowed = first.erase .symbolic
  address : ∀ x, x ≠ .concrete → (e.governor.isTriggered = true → first.contains x = false) →
    addressIn (e.machine.registers.get .eip) x = none

variable {first : DomainSet}

omit [Solver σ] in
theorem Dormant.allowed_checkComplexity (h : e.Dormant first) :
    let g := e.governor.checkComplexity e.complexity
    g.allowed = first ∨ g.allowed = first.erase .symbolic := by
  intro g
  show (if e.governor.exceeds e.complexity then _ else _) = first ∨
    (if e.governor.exceeds e.complexity then _ else _) = first.erase .symbolic
  split
  · refine .inr ?_
    rcases h.allowed with hallowed | hallowed <;> rw [hallowed]
    rfl
  · exact h.allowed

omit [Solver σ] in
theorem Dormant.allowed_entered (h : e.Dormant first) (c : Call) :
    (e.entered c).governor.allowed = first ∨
      (e.entered c).governor.allowed = first.erase .symbolic := by
  rcases entered_cases e c with hentered | ⟨i, -, hentered⟩ <;> rw [hentered]
  · exact h.allowed
  · exact h.allowed_checkComplexity

/-- A call leaves what a domain knows of the address that cannot be active in it: the engine is
idle before and after the call, or the domain was not allowed at first. -/
theorem Dormant.samePart (h : e.Dormant first) {c : Call} {x : Domain} (hx : x ≠ .concrete)
    (hout : (e.call c).governor.isTriggered = true → first.contains x = false) :
    (e.machine.registers.get .eip).SamePart ((e.call c).machine.registers.get .eip) x := by
  cases hfirst : first.contains x with
  | true =>
    have hidle' : (e.call c).governor.isTriggered = false := by
      rw [hfirst] at hout
      exact Bool.eq_false_iff.2 fun htrig => Bool.noConfusion (hout htrig)
    have hidle : e.governor.isTriggered = false := by
      rw [← Bool.not_eq_true] at hidle' ⊢
      exact mt (call_one_way e c).2 hidle'
    exact samePart_of_idle h.governed hidle hidle' hx .eip
  | false =>
    have hnot : (e.entered c).governor.allowed.contains x = false := by
      rcases h.allowed_entered c with hallowed | hallowed
      · rw [hallowed, hfirst]
      · rw [hallowed, DomainSet.contains_erase, hfirst, Bool.and_false]
    obtain ⟨V, hsteps⟩ := call_transitions (closed_all e) (over_all c)
    obtain ⟨hsame, -⟩ := samePart_of_transitions hsteps (within_entered h.governed c) hnot .eip
    dsimp only at hsame
    rwa [registers_entered] at hsame

/-- **A call** leaves dormant domains dormant, whether it succeeds or fails. -/
theorem dormant_call (h : e.Dormant first) (c : Call) : (e.call c).Dormant first := by
  obtain ⟨V, hsteps⟩ := call_transitions (closed_all e) (over_all c)
  refine ⟨governed_call h.governed c, ?_, fun x hx hout => ?_⟩
  · have hallowed := (later_of_transitions hsteps).allowed
    dsimp only at hallowed
    rw [hallowed]
    exact h.allowed_entered c
  · have hbits := bits_of_transitions hsteps .eip
    dsimp only at hbits
    rw [registers_entered] at hbits
    rw [(h.samePart hx hout).addressIn_eq hbits]
    exact h.address x hx fun htrig => hout ((call_one_way e c).2 htrig)

theorem dormant_calls (h : e.Dormant first) (cs : List Call) :
    (e.calls cs).Dormant first := by
  induction cs generalizing e with
  | nil => exact h
  | cons c cs ih => exact ih (dormant_call h c)

omit [Solver σ] in
/-- At the start no range and no term pins the address down, if no seed gives it a range. -/
theorem dormant_start (bus : Bus) (config : Config) (solver : Option σ) {j : Job}
    {g : RegisterFile} (hseed : j.seedRegisters (.ofVariables 0) = .ok g)
    (heip : ∀ p ∈ j.registers, p.1 = Register.eip.name → p.2.interval = none) :
    ((start bus config solver).withRegisters g).Dormant (config.allowed.insert .concrete) := by
  obtain ⟨hconcrete, hactive⟩ := governed_start bus config solver
  refine ⟨⟨hconcrete, hactive⟩, .inl rfl, fun x hx _ => ?_⟩
  have hbits := (Job.seeded_seedRegisters RegisterFile.seeded_start hseed).bits .eip
  have hinterval := Job.interval_seedRegisters hseed heip
  have hsymbolic := Job.symbolic_seedRegisters hseed .eip
  rw [RegisterFile.get_ofVariables] at hinterval hsymbolic
  show addressIn (g.get .eip) x = none
  cases x with
  | concrete => exact absurd rfl hx
  | interval =>
    unfold addressIn
    rw [hinterval, hbits]
    rfl
  | symbolic =>
    unfold addressIn
    rw [hsymbolic]
    rfl

/-! ### Where a run goes on -/

omit [Solver σ] in
/-- An instruction works in the concrete domain alone or in those that are still allowed. -/
theorem active_entered (h : e.Governed) (i : Instruction) :
    (e.entered (.execute i)).machine.active = .concreteOnly ∨
      (e.entered (.execute i)).machine.active =
        (e.governor.checkComplexity e.complexity).allowed := by
  have hactive := h.active
  unfold entered
  cases hphase : e.governor.isTriggered with
  | false =>
    rw [hphase] at hactive
    exact .inl hactive
  | true =>
    show (if i.kind.isTrap then _ else _) = _ ∨ (if i.kind.isTrap then _ else _) = _
    split
    · exact .inl rfl
    · exact .inr rfl

omit [Solver σ] in
theorem concrete_entered (h : e.Governed) (i : Instruction) :
    (e.entered (.execute i)).machine.active.contains .concrete = true := by
  rcases active_entered h i with hd | hd <;> rw [hd]
  · rfl
  · exact Governor.concrete_checkComplexity h.concrete _

omit [Solver σ] in
/-- No range stands before a term: with the symbolic domain an instruction works with ranges too,
or they were not allowed at first. -/
theorem Dormant.interval (h : e.Dormant first) (i : Instruction)
    (hs : (e.entered (.execute i)).machine.active.contains .symbolic = true)
    (hi : (e.entered (.execute i)).machine.active.contains .interval = false) :
    addressIn (e.machine.registers.get .eip) .interval = none := by
  rcases active_entered h.governed i with hd | hd
  · rw [hd] at hs
    cases hs
  · rw [hd] at hi
    refine h.address .interval nofun fun _ => ?_
    rcases h.allowed_checkComplexity with hallowed | hallowed
    · rwa [hallowed] at hi
    · rwa [hallowed, DomainSet.contains_erase] at hi

omit [Solver σ] in
/-- What an idle engine has kept, and what is kept beside all domains of the configuration. -/
theorem Dormant.kept (h : e.Dormant first) (i : Instruction)
    (hall : e.governor.isTriggered = true → (e.entered (.execute i)).machine.active = first)
    {x : Domain} (hx : (e.entered (.execute i)).machine.active.contains x = false) :
    addressIn (e.machine.registers.get .eip) x = none := by
  refine h.address x ?_ fun htrig => by rw [← hall htrig, hx]
  rintro rfl
  rw [concrete_entered h.governed i] at hx
  cases hx

/-- **Where a run goes on.** Over any calls from seeded registers, of which no seed gives `eip` a
range, let an instruction succeed. It has put a last value in `eip`. If a part of the value pins
down a number, the run goes on at the number of the first part that does, in the order of the
domains. If none does, it goes on at what the domains that the instruction worked without have
kept of an earlier address. They have kept none if the engine was idle, or if the instruction
worked in all domains of the configuration; then the run stops. -/
theorem execute_nextAddress? {bus : Bus} {config : Config} {solver : Option σ} {j : Job}
    {g : RegisterFile} {cs : List Call} {i : Instruction}
    (hseed : j.seedRegisters (.ofVariables 0) = .ok g)
    (heip : ∀ p ∈ j.registers, p.1 = Register.eip.name → p.2.interval = none)
    (he : e = ((start bus config solver).withRegisters g).calls cs)
    (h : execute i e = (.ok (), e')) :
    let active := (e.entered (.execute i)).machine.active
    ∃ v, e.lastAddress? i = some v ∧
      (∀ n, v.known? = some n → e'.nextAddress? = some n) ∧
      (v.known? = none →
        e'.nextAddress? = ((e.machine.registers.get .eip).without active).known?) ∧
      (v.known? = none →
        (e.governor.isTriggered = true → active = config.allowed.insert .concrete) →
          e'.nextAddress? = none) := by
  intro active
  have hdormant : e.Dormant (config.allowed.insert .concrete) := by
    rw [he]
    exact dormant_calls (dormant_start bus config solver hseed heip) cs
  obtain ⟨v, hv, hbits, hparts, hregister⟩ := execute_setTo h
  rw [registers_entered] at hbits hregister
  have hstale (hnone : v.known? = none) :
      e'.nextAddress? = ((e.machine.registers.get .eip).without active).known? := by
    rw [nextAddress?, hregister]
    exact Value.known?_takeParts_of_none hbits hnone
  refine ⟨v, hv, fun n hn => ?_, hstale, fun hnone hall => ?_⟩
  · rw [nextAddress?, hregister]
    exact Value.known?_takeParts hbits hparts (concrete_entered hdormant.governed i)
      (hdormant.interval i) hn
  · rw [hstale hnone]
    exact Value.known?_without_eq_none fun x hx => hdormant.kept i hall hx

/-- A run from the entry 0 that is triggered there and then jumps to an unknown address stops. -/
theorem execute_nextAddress?_unknown :
    let j : Job :=
      { registers := [("eax", { interval := some ⟨1, 2⟩ })], entry := 0, instructions := [] }
    let i : Instruction := { address := 0, length := 2, statements := [.jump (.undefined 32)] }
    ∃ g, j.seedRegisters (.ofVariables 0) = .ok g ∧
      (∀ p ∈ j.registers, p.1 = Register.eip.name → p.2.interval = none) ∧
      ∃ e e' v, e = ((start .empty {} (some Backend.normalizing)).withRegisters g).calls
          [.trigger 0] ∧
        execute i e = (.ok (), e') ∧ e.nextAddress? = some 0 ∧ e.lastAddress? i = some v ∧
        v.known? = none ∧ e'.nextAddress? = none := by
  intro j i
  let g := (j.seedRegisters (.ofVariables 0)).toOption.getD (.ofVariables 0)
  let e := ((start .empty {} (some Backend.normalizing)).withRegisters g).calls [.trigger 0]
  have hseed : j.seedRegisters (.ofVariables 0) = .ok g := rfl
  have heip : ∀ p ∈ j.registers, p.1 = Register.eip.name → p.2.interval = none := by decide
  have hresult : (execute i e).1 = .ok () := by decide +kernel
  have hnext : e.nextAddress? = some 0 := by decide +kernel
  have hlast : e.lastAddress? i = some ⟨32, none, some (.top 32), some (.var 32 22)⟩ := by
    decide +kernel
  have hactive : (e.entered (.execute i)).machine.active = .all := by decide +kernel
  have he : e = ((start .empty {} (some Backend.normalizing)).withRegisters g).calls
      [.trigger 0] := rfl
  clear_value e
  have hexecute : execute i e = (.ok (), (execute i e).2) := Prod.ext hresult rfl
  obtain ⟨v, hv, -, -, hstops⟩ := execute_nextAddress? hseed heip he hexecute
  obtain rfl := Option.some.inj (hlast.symm.trans hv)
  exact ⟨g, hseed, heip, e, _, _, he, hexecute, hnext, hv, rfl, hstops rfl fun _ => hactive⟩

/-- A jump to an unknown address by an instruction that is like a trap: the run goes on at the
address of the trigger, which is what the range of `eip` was then. -/
theorem execute_nextAddress?_stale :
    let j : Job := { entry := 0, instructions := [] }
    let i : Instruction :=
      { address := 0, length := 1, kind := .int3, statements := [.jump (.undefined 32)] }
    ∃ g, j.seedRegisters (.ofVariables 0) = .ok g ∧
      ∃ e e' v, e = ((start .empty {} (some Backend.normalizing)).withRegisters g).calls
          [.trigger 0] ∧
        execute i e = (.ok (), e') ∧ e.lastAddress? i = some v ∧ v.known? = none ∧
        e'.nextAddress? = some 0 := by
  intro j i
  let g := (j.seedRegisters (.ofVariables 0)).toOption.getD (.ofVariables 0)
  let e := ((start .empty {} (some Backend.normalizing)).withRegisters g).calls [.trigger 0]
  have hseed : j.seedRegisters (.ofVariables 0) = .ok g := rfl
  have hresult : (execute i e).1 = .ok () := by decide +kernel
  have hlast : e.lastAddress? i = some ⟨32, none, none, none⟩ := by decide +kernel
  have hnext : (execute i e).2.nextAddress? = some 0 := by decide +kernel
  have he : e = ((start .empty {} (some Backend.normalizing)).withRegisters g).calls
      [.trigger 0] := rfl
  clear_value e
  exact ⟨g, hseed, e, _, _, he, Prod.ext hresult rfl, hlast, rfl, hnext⟩

end Engine
end Lockstep
