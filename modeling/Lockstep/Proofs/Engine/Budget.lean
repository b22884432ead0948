/-
# The budget of nodes

A term counts its nodes as a tree, shared parts once for each use, and the count
stays at the largest number of 64 bits. The governor adds the counts of the
registers up in 64 bits, where nothing stays: the sum tells whether the budget
is exceeded if it fits, and otherwise the program ends. One instruction is
enough for that, as each of its statements can double a term.

Key definitions: `checkedSum`, `Engine.nodes`, `Engine.terms`, `Statement.doubling`,
`Term.doubled`, `Engine.Holds`.
Key theorems: `checkedSum_eq`, `sum_map_min`, `Engine.complexity_eq`,
`Engine.beforeInstruction_budget`, `Engine.execute_doublings`, `Engine.overflows_of_doublings`.
-/
import Lockstep.Proofs.Engine.OneWay
import Lockstep.Proofs.Run.Independence
import Lockstep.Proofs.Value.Exact

namespace Lockstep

/-! ### Sums in 64 bits -/

/-- The sum of a list, none if on the way it leaves 64 bits. -/
def checkedSum (ns : List Nat) : Option Nat :=
  ns.foldlM (fun sum n => if sum + n ≤ nodeLimit then some (sum + n) else none) 0

theorem foldlM_checked {sum : Nat} (h : sum ≤ nodeLimit) (ns : List Nat) :
    ns.foldlM (fun sum n => if sum + n ≤ nodeLimit then some (sum + n) else none) sum =
      if sum + ns.sum ≤ nodeLimit then some (sum + ns.sum) else none := by
  induction ns generalizing sum with
  | nil => simp [h]
  | cons n ns ih =>
    rw [List.foldlM_cons, List.sum_cons, ← Nat.add_assoc]
    by_cases hn : sum + n ≤ nodeLimit
    · rw [if_pos hn]
      exact ih hn
    · rw [if_neg hn, if_neg (by omega)]
      rfl

/-- **A sum in 64 bits** fails exactly if it is too large in the end. -/
theorem checkedSum_eq (ns : List Nat) :
    checkedSum ns = if ns.sum ≤ nodeLimit then some ns.sum else none := by
  have hsum := foldlM_checked (Nat.zero_le nodeLimit) ns
  rwa [Nat.zero_add] at hsum

theorem checkedSum_eq_none {ns : List Nat} : checkedSum ns = none ↔ nodeLimit < ns.sum := by
  rw [checkedSum_eq]
  split <;> simp <;> omega

/-- Numbers that were kept at a limit still have the right sum, if this is below the limit. -/
theorem sum_map_min {limit : Nat} {ns : List Nat} (h : (ns.map (min limit)).sum < limit) :
    (ns.map (min limit)).sum = ns.sum := by
  induction ns with
  | nil => rfl
  | cons n ns ih =>
    rw [List.map_cons, List.sum_cons] at h ⊢
    rw [List.sum_cons, ih (by omega), Nat.min_eq_right (by omega)]

theorem sum_map_min_le (limit : Nat) (ns : List Nat) : (ns.map (min limit)).sum ≤ ns.sum := by
  induction ns with
  | nil => exact Nat.le_refl 0
  | cons n ns ih =>
    rw [List.map_cons, List.sum_cons, List.sum_cons]
    omega

/-! ### The look at the complexity -/

/-- The symbolic domain is lost if the complexity exceeds the budget. -/
theorem Governor.symbolic_checkComplexity (g : Governor) (n : Nat) :
    (g.checkComplexity n).allowed.contains .symbolic = true ↔
      g.allowed.contains .symbolic = true ∧ n ≤ g.threshold := by
  show DomainSet.contains (if g.exceeds n then _ else _) .symbolic = true ↔ _
  unfold exceeds
  cases hs : g.allowed.contains .symbolic with
  | true =>
    by_cases hn : g.threshold < n
    · simp [hn]
    · simp [hn, hs, Nat.le_of_not_lt hn]
  | false => simp [hs]

namespace Engine

variable {σ : Type}

/-- The count of the nodes in a register. -/
def nodes (e : Engine σ) (r : Register) : Nat :=
  ((e.machine.registers.get r).symbolic.map Term.nodeCount).getD 0

theorem complexity_eq_sum (e : Engine σ) : e.complexity = (Register.all.map e.nodes).sum := by
  suffices h : ∀ (l : List Register) (n : Nat),
      (l.map fun r => (r, e.machine.registers.get r)).foldl
        (fun n p => n + (p.2.symbolic.map Term.nodeCount).getD 0) n =
        n + (l.map e.nodes).sum by
    exact (h Register.all 0).trans (Nat.zero_add _)
  intro l
  induction l with
  | nil => exact fun n => rfl
  | cons r l ih =>
    intro n
    rw [List.map_cons, List.foldl_cons, ih, List.map_cons, List.sum_cons, ← Nat.add_assoc]
    rfl

theorem nodes_add_le (e : Engine σ) {r s : Register} (hs : s ≠ r) :
    e.nodes r + e.nodes s ≤ e.complexity := by
  have hmem : s ∈ Register.all.erase r := (List.mem_erase_of_ne hs).2 s.mem_all
  rw [complexity_eq_sum, ← List.sum_map_erase e.nodes r.mem_all,
    ← List.sum_map_erase e.nodes hmem]
  omega

def terms (e : Engine σ) : List Term := e.machine.registers.toList.filterMap (·.2.symbolic)

theorem complexity_eq (e : Engine σ) : e.complexity = (e.terms.map Term.nodeCount).sum := by
  rw [complexity_eq_sum, terms, RegisterFile.toList]
  induction Register.all with
  | nil => rfl
  | cons r l ih =>
    rw [List.map_cons, List.sum_cons, ih, nodes]
    cases hv : (e.machine.registers.get r).symbolic <;> simp [hv]

variable [Solver σ] {e : Engine σ}

/-- **The budget.** The count of a term is its size as a tree, up to the largest number of 64
bits. The sum of the counts overflows exactly if it is above that number. And if it does not, the
symbolic domain stays allowed exactly if the registers have no more nodes than the budget. -/
theorem beforeInstruction_budget (htrig : e.governor.isTriggered = true) (i : Instruction) :
    let sizes := e.terms.map Term.treeSize
    let sum := checkedSum (e.terms.map Term.nodeCount)
    let after := (beforeInstruction i e).2
    (∀ t ∈ e.terms, t.nodeCount = min nodeLimit t.treeSize) ∧
    (sum = none ↔ nodeLimit < (sizes.map (min nodeLimit)).sum) ∧
    (after.governor.overflowed = true ↔ e.governor.overflowed = true ∨ sum = none) ∧
    (e.governor.threshold < nodeLimit → sum ≠ none →
      (after.governor.allowed.contains .symbolic = true ↔
        e.governor.allowed.contains .symbolic = true ∧ sizes.sum ≤ e.governor.threshold)) := by
  intro sizes sum after
  have hcounts : e.terms.map Term.nodeCount = sizes.map (min nodeLimit) := by
    rw [List.map_map]
    exact List.map_congr_left fun t _ => t.nodeCount_eq
  have hcomplexity := e.complexity_eq
  rw [hcounts] at hcomplexity
  have hsum : sum = none ↔ nodeLimit < (sizes.map (min nodeLimit)).sum := by
    rw [← hcounts]
    exact checkedSum_eq_none
  obtain ⟨V, hsteps⟩ := beforeInstruction_transitions (V := fun _ _ => True) htrig i
  have hoverflowed : after.governor.overflowed =
      (e.governor.overflowed || decide (nodeLimit < e.complexity)) :=
    (later_of_transitions hsteps).overflowed
  have hallowed : after.governor.allowed = (e.governor.checkComplexity e.complexity).allowed :=
    (later_of_transitions hsteps).allowed
  refine ⟨fun t _ => t.nodeCount_eq, hsum, ?_, fun hthreshold hfits => ?_⟩
  · rw [hoverflowed, Bool.or_eq_true, decide_eq_true_iff, hcomplexity, hsum]
  · rw [hallowed, Governor.symbolic_checkComplexity, hcomplexity]
    have hle := sum_map_min_le nodeLimit sizes
    refine and_congr_right fun _ => ?_
    constructor
    · -- a sum below the limit has lost nothing to it
      intro h
      rwa [← sum_map_min (Nat.lt_of_le_of_lt h hthreshold)]
    · exact Nat.le_trans hle

/-- The 22 registers of an engine that was just triggered exceed a budget of 5. -/
theorem beforeInstruction_budget_spent :
    let i : Instruction := { address := 0, length := 1, statements := [] }
    let e : Engine Backend :=
      (start .empty { complexityThreshold := 5 } (some .normalizing)).call (.trigger 0)
    e.governor.isTriggered = true ∧ e.governor.threshold < nodeLimit ∧
      checkedSum (e.terms.map Term.nodeCount) ≠ none ∧ (e.terms.map Term.treeSize).sum = 22 ∧
      ¬ (beforeInstruction i e).2.governor.allowed.contains .symbolic = true := by
  intro i e
  have htrig : e.governor.isTriggered = true := rfl
  have hthreshold : e.governor.threshold = 5 := rfl
  have hcomplexity : e.complexity = 22 := rfl
  have hsizes : (e.terms.map Term.treeSize).sum = 22 := by
    decide +kernel
  obtain ⟨-, -, -, hallowed⟩ := beforeInstruction_budget htrig i
  have hlimit : e.governor.threshold < nodeLimit := by
    rw [hthreshold]
    decide
  have hfits : checkedSum (e.terms.map Term.nodeCount) ≠ none := by
    rw [Ne, checkedSum_eq_none, ← complexity_eq, hcomplexity]
    decide
  refine ⟨htrig, hlimit, hfits, hsizes, fun h => ?_⟩
  have hle := ((hallowed hlimit hfits).1 h).2
  rw [hsizes, hthreshold] at hle
  exact absurd hle (by decide)

end Engine

/-! ### Doubling -/

def Statement.doubling (r : Register) : Statement :=
  .setRegister r.name (.binary .add (.register r.name) (.register r.name))

namespace Term

/-- The term added to itself, and so on, as often as given. -/
def doubled (t : Term) : Nat → Term
  | 0 => t
  | k + 1 => (binary .add t.width t t).doubled k

theorem treeSize_pos (t : Term) : 0 < t.treeSize := by
  cases t <;> exact Nat.succ_pos _

theorem treeSize_doubled (t : Term) (k : Nat) :
    (t.doubled k).treeSize + 1 = 2 ^ k * (t.treeSize + 1) := by
  induction k generalizing t with
  | zero => simp [doubled]
  | succ k ih =>
    rw [doubled, ih, treeSize, Nat.pow_succ, Nat.mul_assoc]
    congr 1
    omega

end Term

theorem Register.named_name (r : Register) : named r.name = .ok r := by
  unfold named
  rw [ofName?_name]
  rfl

variable {t : Term}

/-- A value with a term, added to itself, has the sum of the term with itself. -/
theorem Value.binary_doubling {v : Value} (ht : v.symbolic = some t) (hw : t.width = v.bits)
    (hconst : t.const? = none) : ∃ u, Value.binary .all .add v v = .ok u ∧ u.bits = v.bits ∧
      u.symbolic = some (.binary .add t.width t t) := by
  have hsum : Term.mkBinary .add v.bits t t = .binary .add t.width t t := by
    simp [Term.mkBinary, Term.mkBinaryOpen, hconst, hw]
  have hterm : v.symbolic? = some t := by
    unfold Value.symbolic?
    rw [ht]
    rfl
  unfold Value.binary Value.sameWidth
  rw [if_pos rfl, hterm]
  exact ⟨_, Value.assemble_all (t := Term.mkBinary .add v.bits t t) (by rw [hsum]; exact hw), rfl,
    congrArg some hsum⟩

namespace Engine

variable {σ : Type} [Solver σ] {e : Engine σ} {r : Register}

/-- **One doubling** of a register in all domains. -/
theorem perform_doubling (hactive : e.machine.active = .all)
    (hbits : (e.machine.registers.get r).bits = r.bits)
    (ht : (e.machine.registers.get r).symbolic = some t) (hw : t.width = r.bits)
    (hconst : t.const? = none) :
    ∃ u, perform (.doubling r) e = (.ok (), e.written r u) ∧ u.bits = r.bits ∧
      u.symbolic = some (.binary .add t.width t t) := by
  let v := e.machine.registers.get r
  obtain ⟨u, hu, hubits, hterm⟩ := Value.binary_doubling ht (hw.trans hbits.symm) hconst
  have hread : e.machine.readNamed r.name = .ok v := by
    unfold Machine.readNamed Machine.readRegister
    rw [Register.named_name, hactive]
    rfl
  have hregister : evaluate (.register r.name) e = (.ok v, e) := by
    unfold evaluate
    rw [apply_get_bind]
    exact congrArg (·, e) hread
  have hvalue : evaluate (.binary .add (.register r.name) (.register r.name)) e = (.ok u, e) := by
    unfold evaluate
    rw [apply_bind_ok hregister, apply_bind_ok hregister]
    show (do Value.binary (← get).machine.active .add v v : EngineM σ Value) e = _
    rw [apply_get_bind, hactive]
    exact congrArg (·, e) hu
  refine ⟨u, ?_, hubits.trans hbits, hterm⟩
  show (evaluate _ >>= fun v => updateMachine (·.writeNamed r.name v)) e = _
  rw [apply_bind_ok hvalue]
  refine updateMachine_ok ?_
  unfold Machine.writeNamed
  rw [Register.named_name]
  exact writeRegister_ok hbits (hubits.trans hbits)

/-- An engine in which all domains are active and a register has the given term. -/
structure Holds (e : Engine σ) (r : Register) (t : Term) : Prop where
  active : e.machine.active = .all
  bits : (e.machine.registers.get r).bits = r.bits
  symbolic : (e.machine.registers.get r).symbolic = some t
  width : t.width = r.bits

/-- **Doublings in a row** leave the other registers. By induction on their number, for any term
that is no constant. -/
theorem forM_doubling (h : e.Holds r t) (hconst : t.const? = none) (k : Nat) :
    ∃ e', (List.replicate k (Statement.doubling r)).forM perform e = (.ok (), e') ∧
      e'.Holds r (t.doubled k) ∧
      ∀ s, s ≠ r → e'.machine.registers.get s = e.machine.registers.get s := by
  induction k generalizing e t with
  | zero => exact ⟨e, rfl, h, fun _ _ => rfl⟩
  | succ k ih =>
    obtain ⟨hactive, hbits, ht, hw⟩ := h
    obtain ⟨u, hperform, hubits, hu⟩ := perform_doubling hactive hbits ht hw hconst
    have hget : (e.written r u).machine.registers.get r =
        (e.machine.registers.get r).takeParts u .all := by
      rw [get_written, if_pos rfl, hactive]
    obtain ⟨e', hrest, hholds, hothers⟩ := ih (e := e.written r u) (t := .binary .add t.width t t)
      ⟨hactive, by rw [hget]; exact hbits, by rw [hget]; exact hu, hw⟩ rfl
    refine ⟨e', ?_, hholds, fun s hs => ?_⟩
    · rw [List.replicate_succ]
      exact (apply_bind_ok hperform _).trans hrest
    · rw [hothers s hs, get_written, if_neg hs]

omit [Solver σ] in
theorem updateMachine_others {f : Machine σ → Except Fault (Machine σ)}
    (hf : ∀ m, f e.machine = .ok m → ∃ v, e.machine.writeRegister r v = .ok m) {s : Register}
    (hs : s ≠ r) :
    (updateMachine f e).2.machine.registers.get s = e.machine.registers.get s := by
  cases hm : f e.machine with
  | error fault => rw [updateMachine_error hm]
  | ok m =>
    obtain ⟨v, hwrite⟩ := hf m hm
    rw [updateMachine_ok hm, Machine.eq_of_writeRegister hwrite]
    exact (get_written e r s v).trans (if_neg hs)

omit [Solver σ] in
theorem advance_others (length : Nat) {s : Register} (hs : s ≠ .eip) :
    (advance length e).2.machine.registers.get s = e.machine.registers.get s := by
  refine updateMachine_others (fun m hm => ?_) hs
  obtain ⟨_, -, hm⟩ := bind_eq_ok hm
  obtain ⟨v, -, hm⟩ := bind_eq_ok hm
  exact ⟨v, hm⟩

variable {i : Instruction} {k : Nat}

theorem step_doublings (h : e.Holds r t) (hr : r ≠ .eip) (hconst : t.const? = none)
    (haddress : checkAddress e.machine i.address = .ok ())
    (hi : i.statements = List.replicate k (.doubling r)) :
    ((step i e).2.machine.registers.get r).symbolic = some (t.doubled k) ∧
      ∀ s, s ≠ r → s ≠ .eip →
        (step i e).2.machine.registers.get s = e.machine.registers.get s := by
  obtain ⟨e₁, hdoublings, hholds, hothers⟩ :=
    forM_doubling (e := e.beginWrites) ⟨h.active, h.bits, h.symbolic, h.width⟩ hconst k
  have hjumps : i.jumps = false := by
    rw [Instruction.jumps, hi]
    exact List.any_eq_false.2 fun s hs => by
      rw [List.eq_of_mem_replicate hs]
      exact Bool.false_ne_true
  have hbegin : checkAddress e.beginWrites.machine i.address = .ok () := haddress
  have hrun : run i e.beginWrites = advance i.length e₁ := by
    unfold run
    rw [apply_get_bind, apply_check_ok hbegin, hi, apply_bind_ok hdoublings, hjumps]
    rfl
  have hstep (s : Register) : (step i e).2.machine.registers.get s =
      (advance i.length e₁).2.machine.registers.get s := by
    unfold step
    rw [hrun]
    rcases advance i.length e₁ with ⟨fault | _, e₂⟩ <;> rfl
  refine ⟨?_, fun s hs heip => ?_⟩
  · rw [hstep, advance_others _ hr]
    exact hholds.symbolic
  · rw [hstep, advance_others _ heip]
    exact hothers s hs

/-- **An instruction made of doublings**, where all domains stay allowed. -/
theorem execute_doublings {V : Widths} (h : e.Settled V) (htrig : e.governor.isTriggered = true)
    (hallowed : (e.governor.checkComplexity e.complexity).allowed = .all)
    (ht : (e.machine.registers.get r).symbolic = some t) (hr : r ≠ .eip)
    (hconst : t.const? = none) (hkind : i.kind.isTrap = false)
    (haddress : i.address < Word.count addressBits)
    (hi : i.statements = List.replicate k (.doubling r)) :
    ((execute i e).2.machine.registers.get r).symbolic = some (t.doubled k) ∧
      ∀ s, s ≠ r → s ≠ .eip →
        (execute i e).2.machine.registers.get s = e.machine.registers.get s := by
  obtain ⟨e₁, hbefore, hentered⟩ := beforeInstruction_entered h htrig i
  have hallowed₁ : e₁.governor.allowed = .all := by
    rw [hentered.governor]
    exact hallowed
  have hlocated := hentered.located
  rw [hkind, if_neg Bool.false_ne_true, hallowed₁] at hlocated
  have hget (s : Register) (hs : s ≠ .eip) :
      e₁.machine.registers.get s = e.machine.registers.get s := by
    obtain ⟨v, -, halike⟩ := hlocated
    rw [halike.registers, get_written, if_neg hs]
    rfl
  have hdescribes := hlocated.describes h.ready rfl fun _ => 0
  rw [Word.truncate_of_lt haddress] at hdescribes
  have hholds : e₁.Holds r t := by
    refine ⟨hlocated.active, hentered.ready.bits r, by rw [hget r hr]; exact ht, ?_⟩
    exact ((h.ready.registers r).symbolic t ht).2.trans (h.ready.bits r)
  obtain ⟨hsymbolic, hothers⟩ :=
    step_doublings hholds hr hconst (checkAddress_ok hentered.ready hdescribes) hi
  rcases hstep : step i e₁ with ⟨result, e₂⟩
  rw [hstep] at hsymbolic hothers
  obtain ⟨_, hsteps, -⟩ := step_leads (closed_all e₁) i
  have htrig₂ := (later_of_transitions hsteps).phase hentered.triggered
  dsimp only at htrig₂
  rw [hstep] at htrig₂
  obtain ⟨e', hact, halike⟩ := execute_eq htrig hbefore hstep htrig₂
  rw [hact, halike.registers]
  exact ⟨hsymbolic, fun s hs heip => (hothers s hs heip).trans (hget s heip)⟩

/-- **One instruction is enough.** Where all domains stay allowed, the sum overflows after an
instruction that doubles a register 63 times, if another register has a term as well. -/
theorem overflows_of_doublings {V : Widths} (h : e.Settled V)
    (htrig : e.governor.isTriggered = true)
    (hallowed : (e.governor.checkComplexity e.complexity).allowed = .all)
    (ht : (e.machine.registers.get r).symbolic = some t) (hr : r ≠ .eip)
    (hconst : t.const? = none) (hkind : i.kind.isTrap = false)
    (haddress : i.address < Word.count addressBits)
    (hi : i.statements = List.replicate k (.doubling r)) (hk : 63 ≤ k) {s : Register} {u : Term}
    (hs : s ≠ r) (heip : s ≠ .eip) (hu : (e.machine.registers.get s).symbolic = some u) :
    checkedSum ((execute i e).2.terms.map Term.nodeCount) = none := by
  obtain ⟨hdoubled, hothers⟩ :=
    execute_doublings h htrig hallowed ht hr hconst hkind haddress hi
  have hu : ((execute i e).2.machine.registers.get s).symbolic = some u := by
    rw [hothers s hs heip, hu]
  rw [checkedSum_eq_none, ← complexity_eq]
  have htwo := nodes_add_le (execute i e).2 hs
  have hsize : nodeLimit ≤ (t.doubled k).treeSize := by
    have hsize := t.treeSize_doubled k
    have hpow : 2 ^ 63 * 2 ≤ 2 ^ k * (t.treeSize + 1) :=
      Nat.mul_le_mul (Nat.pow_le_pow_right (by decide) hk) (Nat.succ_le_succ t.treeSize_pos)
    have hvalue : nodeLimit = 2 ^ 64 - 1 := rfl
    omega
  have hlimit : (execute i e).2.nodes r = nodeLimit := by
    rw [nodes, hdoubled, Option.map_some, Option.getD_some, Term.nodeCount_eq,
      Nat.min_eq_left hsize]
  have hmore : 0 < (execute i e).2.nodes s := by
    rw [nodes, hu, Option.map_some, Option.getD_some, Term.nodeCount_eq]
    exact Nat.lt_min.2 ⟨by decide, u.treeSize_pos⟩
  omega

theorem threshold_call (e : Engine σ) (c : Call) :
    (e.call c).governor.threshold = e.governor.threshold := by
  obtain ⟨V, hsteps⟩ := call_transitions (closed_all e) (over_all c)
  refine (later_of_transitions hsteps).threshold.trans ?_
  rcases entered_cases e c with hentered | ⟨i, -, hentered⟩
  · rw [hentered]
  · rw [hentered]
    rfl

/-- An engine that is triggered and then doubles `eax` 64 times: its budget is in range, and the
look at the complexity before the next instruction overflows. -/
theorem beforeInstruction_overflows :
    let i : Instruction :=
      { address := 0, length := 1, statements := List.replicate 64 (.doubling .eax) }
    let e : Engine Backend :=
      (start .empty {} (some .normalizing)).calls [.trigger 0, .execute i]
    e.governor.isTriggered = true ∧ e.governor.threshold < nodeLimit ∧
      checkedSum (e.terms.map Term.nodeCount) = none ∧
      ∀ next, (beforeInstruction next e).2.governor.overflowed = true := by
  intro i e
  obtain ⟨e₁, htrigger, hsettled, -⟩ := trigger_settled
    (start_settled .empty {} (some Backend.normalizing) {} RegisterFile.seeded_start)
  have hfirst : (start .empty {} (some Backend.normalizing)).call (.trigger 0) = e₁ :=
    congrArg Prod.snd htrigger
  have hallowed : (e₁.governor.checkComplexity e₁.complexity).allowed = .all := by
    rw [← hfirst]
    rfl
  have htrig : e₁.governor.isTriggered = true := by
    rw [← hfirst]
    rfl
  have hthreshold : e₁.governor.threshold < nodeLimit := by
    rw [← hfirst]
    decide
  have heax : (e₁.machine.registers.get .eax).symbolic = some (.var 32 0) := by
    rw [← hfirst]
    rfl
  have hebx : (e₁.machine.registers.get .ebx).symbolic = some (.var 32 3) := by
    rw [← hfirst]
    rfl
  have he : e = e₁.call (.execute i) := by
    rw [← hfirst]
    rfl
  clear_value e
  subst he
  have hnone : checkedSum ((execute i e₁).2.terms.map Term.nodeCount) = none :=
    overflows_of_doublings hsettled htrig hallowed heax (by decide) rfl rfl (by decide) rfl
      (by decide) (by decide) (by decide) hebx
  have htriggered := (call_one_way e₁ (.execute i)).2 htrig
  refine ⟨htriggered, ?_, hnone, fun next => ?_⟩
  · rw [threshold_call]
    exact hthreshold
  · obtain ⟨V, hsteps⟩ := beforeInstruction_transitions (V := fun _ _ => True) htriggered next
    rw [checkedSum_eq_none, ← complexity_eq] at hnone
    refine (later_of_transitions hsteps).overflowed.trans ?_
    exact Bool.or_eq_true_iff.2 (.inr (decide_eq_true hnone))

end Engine
end Lockstep
