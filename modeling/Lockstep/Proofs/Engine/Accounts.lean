/-
# The use of the solver is accounted for once

The built-in solver counts its queries, and the bytes that go to it and that
come back. Every so many triggered instructions the engine takes the count for
a report and lets it start anew. This is done before the instruction asks
anything, so the count is at all times that of the queries since the last
report, and together with the reports it is that of all queries.

Key definitions: `Usage.ofQueries`, `Symbolic.Counts`, `Account`, `Engine.Asks`, `Engine.ticked`,
`Engine.account`, `Engine.Balanced`.
Key theorems: `Engine.asks_of_effects`, `Engine.call_asks`, `Engine.balanced_call`,
`Engine.queries_counted_once`.
-/
import Lockstep.Proofs.Engine.NextAddress

namespace Lockstep

/-! ### The count of queries -/

namespace Usage

instance : Zero Usage := ⟨{}⟩

instance : Add Usage :=
  ⟨fun u v => ⟨u.calls + v.calls, u.sent + v.sent, u.received + v.received⟩⟩

/-- What queries to the built-in solver come to: their number, the bytes of their texts, and the
bytes of the lines of its replies. -/
def ofQueries (ts : List Term) : Usage where
  calls := ts.length
  sent := (ts.map fun t => t.zeroQuery.utf8ByteSize).sum
  received := (ts.map fun t => (Normalizer.replyText t.linearVerdict ++ "\n").utf8ByteSize).sum

variable {ts us : List Term}

theorem add_assoc (u v w : Usage) : u + v + w = u + (v + w) := by
  show Usage.mk _ _ _ = Usage.mk _ _ _
  congr 1 <;> exact Nat.add_assoc _ _ _

theorem ofQueries_append (ts us : List Term) :
    ofQueries (ts ++ us) = ofQueries ts + ofQueries us := by
  show Usage.mk _ _ _ = Usage.mk _ _ _
  congr 1
  · exact List.length_append
  · rw [List.map_append, List.sum_append]
    rfl
  · rw [List.map_append, List.sum_append]
    rfl

theorem calls_ofQueries_ne_zero : (ofQueries ts).calls ≠ 0 ↔ ts ≠ [] :=
  not_congr List.length_eq_zero_iff

end Usage

theorem Normalizer.usage_askZero {n : Normalizer} {ts : List Term} (h : n.usage = .ofQueries ts)
    (t : Term) : (n.askZero t).2.usage = .ofQueries (t :: ts) := by
  have hreply : (replyText t.linearVerdict ++ "\n").utf8ByteSize =
      (replyText t.linearVerdict).utf8ByteSize + 1 := String.utf8ByteSize_append
  show Usage.mk (n.usage.calls + 1) (n.usage.sent + _) (n.usage.received + _) = Usage.mk _ _ _
  rw [h, List.map_cons, List.map_cons, List.sum_cons, List.sum_cons, hreply]
  congr 1 <;> exact Nat.add_comm _ _

namespace Symbolic

/-- Is the built-in solver attached, and has it counted the given queries since it began? -/
def Counts (s : Symbolic (Recorder Backend)) (ts : List Term) : Prop :=
  ∃ n asked, s.solver = some ⟨.normalizer n, asked⟩ ∧ n.usage = .ofQueries ts

variable {s s' : Symbolic (Recorder Backend)} {ts us : List Term}

theorem Counts.of_solver (h : s.Counts ts) (hsolver : s'.solver = s.solver) : s'.Counts ts := by
  unfold Counts
  rw [hsolver]
  exact h

theorem Counts.usage? (h : s.Counts ts) : s.usage? = some (.ofQueries ts) := by
  obtain ⟨n, asked, hsolver, husage⟩ := h
  rw [Symbolic.usage?, hsolver, ← husage]
  rfl

theorem Counts.resetUsage (h : s.Counts ts) : s.resetUsage.Counts [] := by
  obtain ⟨n, asked, hsolver, -⟩ := h
  refine ⟨{ n with usage := {} }, asked, ?_, rfl⟩
  show s.solver.map Solver.resetUsage = _
  rw [hsolver]
  rfl

theorem Counts.ask (h : s.Counts ts) {state : Recorder Backend} (hsolver : s.solver = some state)
    (t : Term) : Counts { s with solver := some (Solver.askZero state t).2 } (t :: ts) := by
  obtain ⟨n, asked, hs, husage⟩ := h
  obtain rfl := Option.some.inj (hsolver.symm.trans hs)
  exact ⟨(n.askZero t).2, t :: asked, rfl, Normalizer.usage_askZero husage t⟩

end Symbolic

/-! ### Accounts -/

/-- The reports of a run, the newest first, and the queries since the last one. -/
structure Account where
  reports : List SolverReport := []
  unreported : List Term := []

/-- The account after a call that gives a report or none and then makes queries. -/
def Account.after (a : Account) (report? : Option SolverReport) (asked : List Term) : Account :=
  match report? with
  | none => { a with unreported := asked ++ a.unreported }
  | some r => ⟨r :: a.reports, asked⟩

namespace Engine

open Relation (ReflTransGen)

variable {e e' e'' : Engine (Recorder Backend)} {ts us : List Term}

/-! ### Queries between reports -/

/-- Does the engine only ask the given queries from the first state to the second, as far as the
count, the clock and the reports go? -/
structure Asks (ts : List Term) (e e' : Engine (Recorder Backend)) : Prop where
  queries : e'.queries = ts ++ e.queries
  counts : ∀ us, e.machine.symbolic.Counts us → e'.machine.symbolic.Counts (ts ++ us)
  instructions : e'.governor.instructions = e.governor.instructions
  reportInterval : e'.governor.reportInterval = e.governor.reportInterval
  lastReport : e'.lastReport = e.lastReport
  bits : ∀ r, (e'.machine.registers.get r).bits = (e.machine.registers.get r).bits

theorem Asks.refl (e : Engine (Recorder Backend)) : Asks [] e e :=
  ⟨rfl, fun _ => id, rfl, rfl, rfl, fun _ => rfl⟩

theorem Asks.trans (h : Asks ts e e') (h' : Asks us e' e'') : Asks (us ++ ts) e e'' where
  queries := by rw [h'.queries, h.queries, List.append_assoc]
  counts vs hvs := by
    rw [List.append_assoc]
    exact h'.counts _ (h.counts vs hvs)
  instructions := h'.instructions.trans h.instructions
  reportInterval := h'.reportInterval.trans h.reportInterval
  lastReport := h'.lastReport.trans h.lastReport
  bits r := (h'.bits r).trans (h.bits r)

theorem asks_of_solver (hsolver : e'.machine.symbolic.solver = e.machine.symbolic.solver)
    (hinstructions : e'.governor.instructions = e.governor.instructions)
    (hinterval : e'.governor.reportInterval = e.governor.reportInterval)
    (hreport : e'.lastReport = e.lastReport)
    (hbits : ∀ r, (e'.machine.registers.get r).bits = (e.machine.registers.get r).bits) :
    Asks [] e e' := by
  refine ⟨?_, fun us h => h.of_solver hsolver, hinstructions, hinterval, hreport, hbits⟩
  unfold queries Symbolic.queries
  rw [hsolver]
  rfl

theorem asks_withJournal (e : Engine (Recorder Backend)) (j : Journal) :
    Asks [] e (e.withSymbolic { e.machine.symbolic with journal := j }) :=
  asks_of_solver rfl rfl rfl rfl fun _ => rfl

theorem asks_of_effect {w w' : World (Engine (Recorder Backend))} (h : Effect w w') :
    ∃ ts, Asks ts w.state w'.state := by
  have hbits := bits_of_effects (.single h)
  cases h with
  | @symbolic V V' e s hs h =>
    cases h with
    | @ask _ _ state t hsolver ht =>
      have hasked : e.queries = state.asked := by
        unfold queries Symbolic.queries
        rw [hsolver]
        rfl
      refine ⟨[t], ?_, fun us hus => hus.ask hsolver t, rfl, rfl, rfl, hbits⟩
      rw [hasked]
      rfl
    | _ => exact ⟨[], asks_of_solver rfl rfl rfl rfl hbits⟩
  | @store V e writes hc =>
    have hsolver := congrArg Symbolic.solver (e.machine.symbolic_putBytes writes)
    exact ⟨[], asks_of_solver hsolver rfl rfl rfl hbits⟩
  | _ => exact ⟨[], asks_of_solver rfl rfl rfl rfl hbits⟩

/-- **Effects** ask queries, and leave the clock and the reports. -/
theorem asks_of_effects {w w' : World (Engine (Recorder Backend))} (h : ReflTransGen Effect w w') :
    ∃ ts, Asks ts w.state w'.state := by
  induction h with
  | refl => exact ⟨[], .refl _⟩
  | tail _ h ih =>
    obtain ⟨ts, hts⟩ := ih
    obtain ⟨us, hus⟩ := asks_of_effect h
    exact ⟨us ++ ts, hts.trans hus⟩

theorem step_asks (i : Instruction) (e : Engine (Recorder Backend)) :
    ∃ ts, Asks ts e (step i e).2 := by
  obtain ⟨V, heffects⟩ := run_effects i e.beginWrites
  obtain ⟨ts, hqueries, hcounts, hinstructions, hinterval, hreport, hbits⟩ :=
    asks_of_effects heffects
  refine ⟨ts, ?_⟩
  unfold step
  rcases hrun : run i e.beginWrites with ⟨fault | _, e'⟩ <;>
  · rw [hrun] at hqueries hcounts hinstructions hinterval hreport hbits
    exact ⟨hqueries, hcounts, hinstructions, hinterval, hreport, hbits⟩

/-! ### The tick of the clock -/

section

variable {σ : Type}

/-- Does a call let the clock of reports go on? -/
def ticks (e : Engine σ) : Call → Bool
  | .execute _ => e.governor.isTriggered
  | _ => false

variable [Solver σ]

/-- The report that a tick of the clock gives: one is due, and the solver was used. -/
def tickReport? (e : Engine σ) : Option SolverReport :=
  e.machine.symbolic.usage?.bind fun usage =>
    if e.governor.tick.reportDue = true ∧ usage.calls ≠ 0 then
      some ⟨e.governor.tick.instructions, usage⟩
    else none

/-- The engine after a tick of the clock; the solver counts anew after a report. -/
def ticked (e : Engine σ) : Engine σ :=
  match e.tickReport? with
  | none => { e with governor := e.governor.tick }
  | some r =>
    { e with
      machine := { e.machine with symbolic := e.machine.symbolic.resetUsage }
      governor := e.governor.tick
      lastReport := some r }

/-- The report that a call gives by the clock. -/
def callReport? (e : Engine σ) (c : Call) : Option SolverReport :=
  if e.ticks c then e.tickReport? else none

/-- What the governor does last before an instruction. -/
def tickClock : EngineM σ Unit := do
  modify fun e => { e with governor := e.governor.tick }
  if (← get).governor.reportDue then reportUsage

theorem tickClock_eq (e : Engine σ) :
    ∃ j, tickClock e =
      (.ok (), e.ticked.withSymbolic { e.ticked.machine.symbolic with journal := j }) := by
  unfold tickClock ticked tickReport?
  rw [apply_bind_ok (apply_modify _ e), apply_get_bind]
  by_cases hdue : e.governor.tick.reportDue = true
  · rw [if_pos hdue]
    unfold reportUsage
    rw [apply_get_bind]
    dsimp only
    cases husage : e.machine.symbolic.usage? with
    | none => exact ⟨e.machine.symbolic.journal, rfl⟩
    | some usage =>
      rw [Option.bind_some]
      dsimp only
      by_cases hcalls : usage.calls ≠ 0
      · obtain ⟨j, hnote⟩ := note_journal { e with governor := e.governor.tick } .info fun _ =>
          s!"solver: {usage.calls} calls, {usage.sent} bytes sent, {usage.received} bytes received"
        rw [if_pos hcalls, if_pos ⟨hdue, hcalls⟩, apply_bind_ok hnote, apply_modify]
        exact ⟨j, rfl⟩
      · rw [if_neg hcalls, if_neg fun h => hcalls h.2]
        exact ⟨e.machine.symbolic.journal, rfl⟩
  · refine ⟨e.machine.symbolic.journal, ?_⟩
    rw [if_neg hdue]
    cases e.machine.symbolic.usage? with
    | none => rfl
    | some usage =>
      rw [Option.bind_some, if_neg fun h => hdue h.1]
      rfl

theorem governor_ticked (e : Engine σ) : e.ticked.governor = e.governor.tick := by
  unfold ticked
  split <;> rfl

theorem lastReport_ticked (e : Engine σ) :
    e.ticked.lastReport = e.tickReport?.or e.lastReport := by
  unfold ticked
  split
  · rename_i hreport
    rw [hreport, Option.none_or]
  · rename_i r hreport
    rw [hreport, Option.some_or]

theorem registers_ticked (e : Engine σ) : e.ticked.machine.registers = e.machine.registers := by
  unfold ticked
  split <;> rfl

theorem queries_ticked (e : Engine (Recorder σ)) : e.ticked.queries = e.queries := by
  unfold ticked
  split
  · rfl
  · exact Symbolic.queries_resetUsage _

end

theorem counts_ticked (h : e.machine.symbolic.Counts us) :
    e.ticked.machine.symbolic.Counts (if e.tickReport?.isSome then [] else us) := by
  unfold ticked
  split
  · rename_i hreport
    rw [hreport]
    exact h
  · rename_i r hreport
    rw [hreport]
    exact h.resetUsage

/-- A tick reports the queries since the last report, if a report is due and there are any. -/
theorem tickReport?_eq_some (h : e.machine.symbolic.Counts us) {r : SolverReport} :
    e.tickReport? = some r ↔
      e.governor.tick.reportDue = true ∧ us ≠ [] ∧
        r = ⟨e.governor.tick.instructions, .ofQueries us⟩ := by
  unfold tickReport?
  rw [h.usage?, Option.bind_some, Option.ite_none_right_eq_some, Usage.calls_ofQueries_ne_zero,
    Option.some.injEq, and_assoc, eq_comm (a := r)]

theorem callReport?_eq_some (h : e.machine.symbolic.Counts us) {c : Call} {r : SolverReport} :
    e.callReport? c = some r ↔ e.ticks c = true ∧ e.governor.tick.reportDue = true ∧ us ≠ [] ∧
      r = ⟨e.governor.tick.instructions, .ofQueries us⟩ := by
  unfold callReport?
  rw [Option.ite_none_right_eq_some, tickReport?_eq_some h]

/-- The report of a tick is the same until a query is made. -/
theorem Asks.tickReport?_eq (h : Asks [] e e') (hcounts : e.machine.symbolic.Counts us) :
    e'.tickReport? = e.tickReport? := by
  have hclock : e'.governor.tick.instructions = e.governor.tick.instructions :=
    congrArg (· + 1) h.instructions
  have hdue : e'.governor.tick.reportDue = e.governor.tick.reportDue := by
    have hinterval : e'.governor.tick.reportInterval = e.governor.tick.reportInterval :=
      h.reportInterval
    unfold Governor.reportDue
    rw [hclock, hinterval]
  ext r
  rw [tickReport?_eq_some (h.counts us hcounts), tickReport?_eq_some hcounts, hclock, hdue]
  rfl

/-! ### Calls -/

/-- The governor's work before an instruction is a tick, once the address is set. -/
theorem enter_asks (hbits : (e.machine.registers.get .eip).bits = Register.eip.bits)
    (address : Nat) :
    ∃ e₁ e₂, Asks [] e e₁ ∧ enter address e = (.ok (), e₂) ∧ Asks [] e₁.ticked e₂ := by
  obtain ⟨v, hv, -⟩ := number_address (fun _ _ => True) e.machine.active address
  have hwrite := writeAddress_eq hbits hv
  obtain ⟨j, htick⟩ := tickClock_eq (e.written .eip v)
  refine ⟨e.written .eip v, _, asks_of_solver rfl rfl rfl rfl fun r => ?_, ?_,
    asks_withJournal _ j⟩
  · rw [get_written]
    split
    · rename_i hr
      rw [hr, Value.bits_takeParts]
    · rfl
  · unfold enter
    rw [apply_bind_ok hwrite]
    exact htick

theorem afterInstruction_asks (i : Instruction) (e : Engine (Recorder Backend)) :
    ∃ e', afterInstruction i e = (.ok (), e') ∧ Asks [] e e' := by
  unfold afterInstruction
  rw [apply_get_bind]
  split
  · obtain ⟨j, hnote⟩ := note_journal e .debug fun _ =>
      "after " ++ hexAddress i.address ++ " " ++ i.text ++ ":\n" ++ e.snapshot.text
    rw [apply_bind_ok hnote]
    exact ⟨_, rfl, asks_of_solver rfl rfl rfl rfl fun _ => rfl⟩
  · exact ⟨e, rfl, .refl e⟩

/-- **A triggered instruction** lets the clock tick and asks its queries after that, whether it
succeeds or fails. -/
theorem execute_asks (htrig : e.governor.isTriggered = true)
    (hbits : (e.machine.registers.get .eip).bits = Register.eip.bits) (i : Instruction) :
    ∃ e₁ ts, Asks [] e e₁ ∧ Asks ts e₁.ticked (execute i e).2 := by
  obtain ⟨j, hbefore⟩ := beforeInstruction_eq htrig i
  have hchosen : Asks [] e ((e.chosen i).withSymbolic { e.machine.symbolic with journal := j }) :=
    asks_of_solver rfl rfl rfl rfl fun _ => rfl
  obtain ⟨e₁, e₂, hset, henter, hticked⟩ := enter_asks (e := (e.chosen i).withSymbolic _) hbits
    i.address
  obtain ⟨ts, hstep⟩ := step_asks i e₂
  refine ⟨e₁, ts, hchosen.trans hset, ?_⟩
  rw [← List.append_nil ts]
  refine hticked.trans ?_
  have hboth : (beforeInstruction i *> step i) e = step i e₂ :=
    apply_bind_ok (hbefore.trans henter) _
  rcases hrun : step i e₂ with ⟨r, e₃⟩
  rw [hrun] at hstep hboth
  unfold execute
  rw [apply_get_bind, htrig, Bool.not_true, if_neg Bool.false_ne_true,
    apply_bind_ok (apply_lift_run hboth)]
  cases r with
  | ok _ =>
    obtain ⟨e₄, hafter, hlast⟩ := afterInstruction_asks i e₃
    dsimp only
    rw [apply_bind_ok hafter]
    exact hstep.trans hlast
  | error fault =>
    obtain ⟨k, hnote⟩ := note_journal e₃ .warn fun _ =>
      hexAddress i.address ++ " " ++ i.text ++ ": " ++ fault.message
    obtain ⟨e₄, hafter, hlast⟩ :=
      afterInstruction_asks i (e₃.withSymbolic { e₃.machine.symbolic with journal := k })
    dsimp only
    rw [apply_bind_ok hnote, apply_bind_ok hafter]
    exact hstep.trans ((asks_withJournal e₃ k).trans hlast)

theorem trigger_asks (target : Nat) (e : Engine (Recorder Backend)) :
    ∃ ts, Asks ts e (trigger target e).2 := by
  cases hphase : e.governor.isTriggered with
  | true =>
    rw [trigger_of_isTriggered hphase]
    exact ⟨[], .refl e⟩
  | false =>
    obtain ⟨j, htrigger⟩ := trigger_of_idle hphase target
    rw [htrigger]
    generalize he : (e.withSymbolic _).under _ e.governor.trigger = e₁
    obtain ⟨V, heffects, -⟩ := writeAddress_leads (w := ⟨fun _ _ => True, e₁⟩) target
    obtain ⟨ts, hts⟩ := asks_of_effects heffects
    have hunder : Asks [] e e₁ := he ▸ asks_of_solver rfl rfl rfl rfl fun _ => rfl
    exact ⟨ts ++ [], hunder.trans hts⟩

/-- **A call** that does not reset the count lets the clock tick, if it is one that does, and asks
its queries after that. -/
theorem call_asks {c : Call} (hc : c ≠ .resetUsage)
    (hbits : (e.machine.registers.get .eip).bits = Register.eip.bits) :
    ∃ e₁ ts, Asks [] e e₁ ∧ Asks ts (if e.ticks c then e₁.ticked else e₁) (e.call c) := by
  have hleads {α : Type} {act : EngineM (Recorder Backend) α} {P : Widths → Except Fault α → Prop}
      (hact : Leads Effect ⟨fun _ _ => True, e⟩ act P) :
      ∃ e₁ ts, Asks [] e e₁ ∧ Asks ts e₁ (act e).2 := by
    obtain ⟨V, heffects, -⟩ := hact
    obtain ⟨ts, hts⟩ := asks_of_effects heffects
    exact ⟨e, ts, .refl e, hts⟩
  have hover := over_all c
  cases c with
  | trigger target =>
    obtain ⟨ts, hts⟩ := trigger_asks target e
    exact ⟨e, ts, .refl e, hts⟩
  | execute i =>
    cases hphase : e.governor.isTriggered with
    | true =>
      have hticks : e.ticks (.execute i) = true := hphase
      rw [hticks]
      exact execute_asks hphase hbits i
    | false =>
      have hticks : e.ticks (.execute i) = false := hphase
      obtain ⟨ts, hts⟩ := step_asks i e
      rw [hticks]
      refine ⟨e, ts, .refl e, ?_⟩
      show Asks ts e (execute i e).2
      rwa [execute_of_idle hphase]
  | readMemory address bits => exact hleads (readMemory_leads (closed_all e) hover bits)
  | writeMemory address data => exact hleads (writeMemory_leads hover.1 hover.2)
  | xor a b => exact hleads (xor_leads hover.1 hover.2)
  | ensure d v =>
    refine ⟨e, [], .refl e, ?_⟩
    show Asks [] e ((liftM (v.ensure e.machine.active d) : EngineM _ Value) e).2
    rw [apply_liftExcept]
    exact .refl e
  | resetUsage => exact absurd rfl hc

/-- A call leaves the clock to its tick, and the limits and widths as they are. -/
theorem call_clock {c : Call} (hc : c ≠ .resetUsage)
    (hbits : (e.machine.registers.get .eip).bits = Register.eip.bits) :
    (e.call c).governor.instructions = e.governor.instructions + (if e.ticks c then 1 else 0) ∧
      (e.call c).governor.reportInterval = e.governor.reportInterval ∧
      ∀ r, ((e.call c).machine.registers.get r).bits = (e.machine.registers.get r).bits := by
  obtain ⟨e₁, ts, h₁, h₂⟩ := call_asks hc hbits
  cases hticks : e.ticks c with
  | false =>
    rw [hticks] at h₂
    have h := h₁.trans h₂
    exact ⟨h.instructions, h.reportInterval, h.bits⟩
  | true =>
    rw [hticks, if_pos rfl] at h₂
    refine ⟨?_, ?_, fun r => ?_⟩
    · rw [h₂.instructions, governor_ticked]
      exact congrArg (· + 1) h₁.instructions
    · rw [h₂.reportInterval, governor_ticked]
      exact h₁.reportInterval
    · rw [h₂.bits, registers_ticked, h₁.bits]

/-- **Reports in calls.** A call reports what was counted before it, if a report is due, and then
its own queries are counted. -/
theorem call_reports {c : Call} (hc : c ≠ .resetUsage)
    (hbits : (e.machine.registers.get .eip).bits = Register.eip.bits)
    (hcounts : e.machine.symbolic.Counts us) :
    ∃ ts, (e.call c).queries = ts ++ e.queries ∧
      (e.call c).machine.symbolic.Counts (ts ++ if (e.callReport? c).isSome then [] else us) ∧
      (e.call c).lastReport = (e.callReport? c).or e.lastReport := by
  obtain ⟨e₁, ts, h₁, h₂⟩ := call_asks hc hbits
  have hcounts₁ : e₁.machine.symbolic.Counts us := h₁.counts us hcounts
  refine ⟨ts, ?_⟩
  unfold callReport?
  cases hticks : e.ticks c with
  | false =>
    rw [hticks] at h₂
    exact ⟨h₂.queries.trans (congrArg _ h₁.queries), h₂.counts us hcounts₁,
      h₂.lastReport.trans h₁.lastReport⟩
  | true =>
    rw [hticks, if_pos rfl] at h₂
    rw [if_pos rfl, ← h₁.tickReport?_eq hcounts]
    refine ⟨?_, h₂.counts _ (counts_ticked hcounts₁), ?_⟩
    · rw [h₂.queries, queries_ticked]
      exact congrArg _ h₁.queries
    · rw [h₂.lastReport, lastReport_ticked, h₁.lastReport]

/-! ### The account of a run -/

section

variable {σ : Type} [Solver σ]

/-- The report that is the last one after a call, and was not before it. -/
def newReport? (e : Engine σ) (c : Call) : Option SolverReport :=
  if (e.call c).lastReport = e.lastReport then none else (e.call c).lastReport

/-- The queries that come to the others in a call. -/
def newQueries (e : Engine (Recorder σ)) (c : Call) : List Term :=
  (e.call c).queries.take ((e.call c).queries.length - e.queries.length)

/-- The account of calls in a row. -/
def account (e : Engine (Recorder σ)) (a : Account) : List Call → Account
  | [] => a
  | c :: cs => (e.call c).account (a.after (e.newReport? c) (e.newQueries c)) cs

theorem newQueries_eq {e : Engine (Recorder σ)} {c : Call} {ts : List Term}
    (h : (e.call c).queries = ts ++ e.queries) : e.newQueries c = ts := by
  unfold newQueries
  rw [h, List.length_append, Nat.add_sub_cancel, List.take_left]

end

variable {a : Account} {c : Call}

/-- Between calls the solver has counted what was not reported, this and the reports are what the
solver was used for, and the clock is not behind the last report. -/
structure Balanced (e : Engine (Recorder Backend)) (a : Account) : Prop where
  counts : e.machine.symbolic.Counts a.unreported
  total : .ofQueries a.unreported + (a.reports.map (·.usage)).sum = Usage.ofQueries e.queries
  last : e.lastReport = a.reports.head?
  clock : ∀ r, e.lastReport = some r → r.instruction ≤ e.governor.instructions
  bits : ∀ r, (e.machine.registers.get r).bits = r.bits

theorem Balanced.newReport?_eq (h : e.Balanced a) (hc : c ≠ .resetUsage) :
    e.newReport? c = e.callReport? c := by
  obtain ⟨ts, -, -, hlast⟩ := call_reports hc (h.bits .eip) h.counts
  unfold newReport?
  rw [hlast]
  cases hreport : e.callReport? c with
  | none => exact if_pos rfl
  | some r =>
    rw [Option.some_or]
    refine if_neg fun hsame => ?_
    obtain ⟨-, -, -, rfl⟩ := (callReport?_eq_some h.counts).1 hreport
    have hclock := h.clock _ hsame.symm
    exact absurd hclock (Nat.not_succ_le_self _)

/-- **A call** keeps the account balanced, whether it succeeds or fails. -/
theorem balanced_call (h : e.Balanced a) (hc : c ≠ .resetUsage) :
    (e.call c).Balanced (a.after (e.newReport? c) (e.newQueries c)) := by
  obtain ⟨hinstructions, -, hbits⟩ := call_clock hc (h.bits .eip)
  obtain ⟨ts, hqueries, hcounts, hlast⟩ := call_reports hc (h.bits .eip) h.counts
  have hbits' (r : Register) : ((e.call c).machine.registers.get r).bits = r.bits :=
    (hbits r).trans (h.bits r)
  rw [h.newReport?_eq hc, newQueries_eq hqueries]
  cases hreport : e.callReport? c with
  | none =>
    rw [hreport] at hcounts hlast
    refine ⟨hcounts, ?_, hlast.trans h.last, fun r hr => ?_, hbits'⟩
    · show .ofQueries (ts ++ a.unreported) + (a.reports.map (·.usage)).sum = _
      rw [hqueries, Usage.ofQueries_append, Usage.ofQueries_append, Usage.add_assoc, h.total]
    · have hclock := h.clock r (hlast.symm.trans hr)
      omega
  | some r =>
    rw [hreport, Option.isSome_some, if_pos rfl, List.append_nil] at hcounts
    rw [hreport] at hlast
    obtain ⟨hticks, -, -, hr⟩ := (callReport?_eq_some h.counts).1 hreport
    rw [hticks, if_pos rfl] at hinstructions
    refine ⟨hcounts, ?_, hlast, ?_, hbits'⟩
    · show .ofQueries ts + (r.usage + (a.reports.map (·.usage)).sum) = _
      rw [hqueries, Usage.ofQueries_append, ← h.total, hr]
    · rintro _ hr'
      obtain rfl := Option.some.inj (hlast.symm.trans hr')
      rw [hinstructions, hr]
      exact Nat.le_refl _

theorem balanced_calls (h : e.Balanced a) {cs : List Call} (hcs : .resetUsage ∉ cs) :
    (e.calls cs).Balanced (e.account a cs) ∧
      (e.calls cs).governor.reportInterval = e.governor.reportInterval := by
  induction cs generalizing e a with
  | nil => exact ⟨h, rfl⟩
  | cons c cs ih =>
    have hc : c ≠ .resetUsage := fun hc => hcs (hc ▸ List.mem_cons_self)
    obtain ⟨-, hinterval, -⟩ := call_clock hc (h.bits .eip)
    obtain ⟨hbalanced, hsame⟩ :=
      ih (balanced_call h hc) fun hcs' => hcs (List.mem_cons_of_mem c hcs')
    exact ⟨hbalanced, hsame.trans hinterval⟩

/-- An engine with the built-in solver starts with an empty account. -/
theorem balanced_start (bus : Bus) (config : Config) (verbose : Bool) {g : RegisterFile}
    (hg : ∀ r, (g.get r).bits = r.bits) :
    ((start bus config (some ({ inner := .normalizer { verbose } } : Recorder Backend)))
      |>.withRegisters g).Balanced {} :=
  ⟨⟨{ verbose }, [], rfl, rfl⟩, rfl, rfl, nofun, hg⟩

/-- **Every query is accounted for once.** On an engine with the built-in solver, take any calls
that do not reset the count. Then the solver has counted the queries since the last report; this
and the reports so far are the number of all queries, the bytes of their texts and the bytes of
the replies. The next call gives a report just if it is a triggered instruction which brings the
count of instructions to a multiple of an interval other than zero, and queries were made since
the last report. The report has that count, and what those queries come to. -/
theorem queries_counted_once (bus : Bus) (config : Config) (verbose : Bool) {g : RegisterFile}
    (hg : ∀ r, (g.get r).bits = r.bits) {cs : List Call} (hcs : .resetUsage ∉ cs) :
    let e₀ := (start bus config (some ({ inner := .normalizer { verbose } } : Recorder Backend)))
      |>.withRegisters g
    let e := e₀.calls cs
    let a := e₀.account {} cs
    e.machine.symbolic.usage? = some (.ofQueries a.unreported) ∧
    .ofQueries a.unreported + (a.reports.map (·.usage)).sum = Usage.ofQueries e.queries ∧
    e.lastReport = a.reports.head? ∧
    ∀ c, c ≠ .resetUsage →
      let n := (e.call c).governor.instructions
      n = e.governor.instructions + (if e.ticks c then 1 else 0) ∧
      ∀ r, e.newReport? c = some r ↔
        e.ticks c = true ∧ config.reportInterval ≠ 0 ∧ n % config.reportInterval = 0 ∧
          a.unreported ≠ [] ∧ r = ⟨n, .ofQueries a.unreported⟩ := by
  intro e₀ e a
  obtain ⟨h, hinterval⟩ : e.Balanced a ∧ e.governor.reportInterval = config.reportInterval :=
    balanced_calls (balanced_start bus config verbose hg) hcs
  refine ⟨h.counts.usage?, h.total, h.last, fun c hc => ?_⟩
  intro n
  obtain ⟨hn, -, -⟩ := call_clock hc (h.bits .eip)
  refine ⟨hn, fun r => ?_⟩
  have hdue : e.governor.tick.reportDue = true ↔ config.reportInterval ≠ 0 ∧
      (e.governor.instructions + 1) % config.reportInterval = 0 := by
    unfold Governor.reportDue
    rw [Bool.and_eq_true, decide_eq_true_iff, decide_eq_true_iff, ← hinterval]
    rfl
  rw [h.newReport?_eq hc, callReport?_eq_some h.counts, hdue, and_assoc]
  refine and_congr_right fun hticks => ?_
  rw [hticks, if_pos rfl] at hn
  subst n
  rw [hn]
  rfl

/-- A store at `esi` and a load from behind it take one query. The second such instruction is the
one that the interval asks for, so it reports this query before it makes two of its own. -/
theorem queries_counted_once_second :
    let body : List Statement :=
      [.store 8 (.register "esi") (.const 90 8),
        .setRegister "eax" (.concat
          (.memory 8 (.binary .add (.register "esi") (.const 1 32))) (.const 0 24))]
    let cs : List Call := [.trigger 0, .execute { address := 0, length := 4, statements := body }]
    let c : Call := .execute { address := 4, length := 4, statements := body }
    let e₀ := (start .empty { reportInterval := 2 }
      (some ({ inner := .normalizer { verbose := false } } : Recorder Backend)))
      |>.withRegisters (.ofVariables 0)
    let e := e₀.calls cs
    let a := e₀.account {} cs
    (∀ r, ((RegisterFile.ofVariables 0).get r).bits = r.bits) ∧ .resetUsage ∉ cs ∧
    a.unreported.length = 1 ∧ e.machine.symbolic.usage? = some ⟨1, 109, 4⟩ ∧
    e.newReport? c = some ⟨2, ⟨1, 109, 4⟩⟩ ∧ (e.call c).queries.length = 3 := by
  intro body cs c e₀ e a
  have hg (r : Register) : ((RegisterFile.ofVariables 0).get r).bits = r.bits := by
    rw [RegisterFile.get_ofVariables]
    rfl
  have hcs : Call.resetUsage ∉ cs := by simp [cs]
  have hticks : e.ticks c = true := by decide +kernel
  have hclock : (e.call c).governor.instructions = 2 := by decide +kernel
  have hasked : a.unreported.length = 1 := by decide +kernel
  have husage : Usage.ofQueries a.unreported = ⟨1, 109, 4⟩ := by decide +kernel
  have hqueries : (e.call c).queries.length = 3 := by decide +kernel
  have hsome : a.unreported ≠ [] := List.ne_nil_of_length_pos (hasked ▸ Nat.one_pos)
  have hmain := queries_counted_once .empty { reportInterval := 2 } false hg hcs
  extract_lets at hmain
  obtain ⟨hcount, -, -, hnext⟩ := hmain
  obtain ⟨-, hreport⟩ := hnext c nofun
  rw [husage] at hcount
  rw [hclock, husage] at hreport
  exact ⟨hg, hcs, hasked, hcount, (hreport _).2 ⟨hticks, by decide, rfl, hsome, rfl⟩, hqueries⟩

end Engine
end Lockstep
