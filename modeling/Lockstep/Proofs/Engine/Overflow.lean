/-
# Runs in which every bound fits

While the ranges of registers and cells are near zero, every bound that an
instruction computes fits into 64 bits, and its ranges are near zero again. So
a run from such an engine is never ended by a bound, and neither is a job whose
registers start in such ranges.

Key definitions: `Engine.Fits`.
Key theorems: `Engine.andThen_of_stays`, `Engine.loadFits_of_near`,
`Engine.evaluateFits_of_near`, `Engine.fits_of_near`, `Engine.throughout_fits`,
`Job.fits_of_near`.
-/
import Lockstep.Proofs.Engine.Near

namespace Lockstep
namespace Engine

variable {σ α : Type} {P : α → Prop} {e : Engine σ} {v : Value} [Solver σ]

/-! ### Loads and expressions -/

omit [Solver σ] in
theorem andThen_of_stays {act : EngineM σ α} {next : α → Engine σ → Bool} (hact : Stays act P)
    (he : e.Near) (hnext : ∀ a e, P a → e.Near → next a e = true) :
    andThen act next e = true := by
  obtain ⟨hnear, hresult⟩ := hact e he
  unfold andThen
  rcases hrun : act e with ⟨fault | a, e'⟩
  · rfl
  · rw [hrun] at hnear hresult
    exact hnext a e' (hresult a rfl) hnear

omit [Solver σ] in
/-- What is asked before a computation holds, and then what is asked after it. -/
theorem fits_andThen {fits : Bool} {act : EngineM σ α} {next : α → Engine σ → Bool}
    (hfits : fits = true) (hact : Stays act P) (he : e.Near)
    (hnext : ∀ a e, P a → e.Near → next a e = true) : (fits && andThen act next e) = true := by
  rw [hfits, Bool.true_and]
  exact andThen_of_stays hact he hnext

theorem byteFits_of_near (he : e.Near) (base : Term) (offset : Nat) :
    byteFits base offset e = true :=
  MemoryLog.readFits_of_hullable (fun c hc => (he.cells c hc).le)
    (fun c hc i hi => ((he.cells c hc).range i hi).hullable) _ _ _

/-- The bytes of a word are put together one by one, each above those before it. -/
theorem bytesFit_of_near (base : Term) (is : List Nat) (hv : v.Near) (he : e.Near) :
    bytesFit base is v e = true := by
  induction is generalizing v e with
  | nil => rfl
  | cons i is ih =>
    refine fits_andThen (byteFits_of_near he base _) (stays_readLogByte base (i + 1)) he
      fun byte e hbyte he => ?_
    rw [Value.Checked.concat_eq _ hv hbyte]
    exact andThen_of_stays (stays_liftM fun _ => Value.near_concat) he fun _ _ hv he => ih hv he

/-- **A load fits**, whatever its address is. -/
theorem loadFits_of_near (he : e.Near) (address : Value) (bits : Nat) :
    loadFits address bits e = true := by
  unfold loadFits
  dsimp only
  split
  · rename_i base _ _
    exact fits_andThen (byteFits_of_near he base 0) (stays_readLogByte base 0) he
      fun _ _ hv he => bytesFit_of_near base _ hv he
  · rfl

/-- **An evaluation fits**, by induction on the expression: its operands leave ranges near zero,
and of such ranges an operation computes bounds that fit. -/
theorem evaluateFits_of_near (x : Expr) (he : e.Near) : evaluateFits x e = true := by
  induction x generalizing e with
  | const value size => rfl
  | register name => rfl
  | memory size a ih =>
    exact fits_andThen (ih he) (stays_evaluate a) he fun u _ _ he =>
      loadFits_of_near he u size
  | binary op a b iha ihb =>
    refine fits_andThen (iha he) (stays_evaluate a) he fun u _ hu he => ?_
    refine fits_andThen (ihb he) (stays_evaluate b) he fun w _ hw _ => ?_
    rw [Value.Checked.binary_eq _ op hu hw]
    rfl
  | invert a ih =>
    refine fits_andThen (ih he) (stays_evaluate a) he fun u _ hu _ => ?_
    rw [Value.Checked.invert_eq _ hu]
    rfl
  | slice a lo hi ih =>
    refine fits_andThen (ih he) (stays_evaluate a) he fun u _ hu _ => ?_
    rw [Value.Checked.slice_eq _ lo hi hu]
    rfl
  | concat lo hi ihl ihh =>
    refine fits_andThen (ihl he) (stays_evaluate lo) he fun u _ hu he => ?_
    refine fits_andThen (ihh he) (stays_evaluate hi) he fun w _ hw _ => ?_
    rw [Value.Checked.concat_eq _ hu hw]
    rfl
  | isZero a ih =>
    refine fits_andThen (ih he) (stays_evaluate a) he fun u _ hu _ => ?_
    rw [Value.Checked.isZero_eq _ hu]
    rfl
  | ite c t f ihc iht ihf =>
    refine fits_andThen (ihc he) (stays_evaluate c) he fun b _ _ he => ?_
    refine fits_andThen (iht he) (stays_evaluate t) he fun u _ hu he => ?_
    refine fits_andThen (ihf he) (stays_evaluate f) he fun w _ hw _ => ?_
    rw [Value.Checked.ite_eq _ b hu hw]
    rfl
  | undefined size => rfl

/-! ### Instructions and runs -/

theorem performFits_of_near (s : Statement) (he : e.Near) : performFits s e = true := by
  cases s with
  | setRegister name x => exact evaluateFits_of_near x he
  | store size address x =>
    exact fits_andThen (evaluateFits_of_near address he) (stays_evaluate address) he
      fun _ _ _ he => evaluateFits_of_near x he
  | jump target => exact evaluateFits_of_near target he
  | trap vector => rfl

theorem statementsFit_of_near (ss : List Statement) (he : e.Near) :
    statementsFit ss e = true := by
  induction ss generalizing e with
  | nil => rfl
  | cons s ss ih =>
    exact fits_andThen (performFits_of_near s he) (stays_perform s) he
      fun _ _ _ he => ih he

omit [Solver σ] in
theorem advanceFits_of_near (length : Nat) (he : e.Near) : advanceFits length e = true := by
  unfold advanceFits
  split
  · rename_i n hn
    have haddress : (e.machine.readRegister .eip).Near := (he.registers .eip).restrict _
    rw [Value.Checked.binary_eq _ _ haddress (Value.near_number hn)]
    rfl
  · rfl

theorem stepFits_of_near (i : Instruction) (he : e.Near) : stepFits i e = true := by
  have hbegin : e.beginWrites.Near := he.of_eq rfl rfl
  refine andThen_of_stays (stays_liftM (P := fun _ => True) fun _ _ => trivial) hbegin
    fun _ _ _ he => ?_
  refine fits_andThen (statementsFit_of_near _ he) (stays_forM stays_perform _) he
    fun _ _ _ he => ?_
  rw [advanceFits_of_near i.length he, Bool.or_true]

/-- Do all bounds fit that the instruction computes? -/
def Fits (e : Engine σ) (i : Instruction) : Prop := executeFits i e = true

/-- **An instruction fits.** -/
theorem fits_of_near (i : Instruction) (he : e.Near) : e.Fits i := by
  unfold Fits executeFits
  split
  · exact stepFits_of_near i he
  · exact andThen_of_stays (stays_beforeInstruction i) he fun _ _ _ he => stepFits_of_near i he

/-- **A run fits**, by induction on its instructions: each leaves ranges near zero. -/
theorem throughout_fits (he : e.Near) (is : List Instruction) : Throughout Fits e is := by
  induction is generalizing e with
  | nil => trivial
  | cons i is ih => exact ⟨fits_of_near i he, ih (near_execute he i)⟩

/-- **Fetched instructions fit**, by induction on how many may still be fetched. -/
theorem fetchFits_of_near (program : Nat → Option Instruction) (trigger : Option Nat) (left : Nat)
    (he : e.Near) : fetchFits program trigger left e = true := by
  induction left generalizing e with
  | zero => rfl
  | succ left ih =>
    unfold fetchFits
    cases e.nextAddress? with
    | none => rfl
    | some address =>
      have htarget : (if trigger = some address then (Engine.trigger address e).2 else e).Near := by
        split
        · exact (stays_trigger address e he).1
        · exact he
      dsimp only
      generalize (if trigger = some address then (Engine.trigger address e).2 else e) = e₁
        at htarget ⊢
      cases program address with
      | none => rfl
      | some i =>
        exact fits_andThen (fits_of_near i htarget) (stays_execute i) htarget
          fun _ _ _ he => ih he

end Engine

/-- **A job fits** if the ranges that it puts in registers are near zero. -/
theorem Job.fits_of_near {σ : Type} [Solver σ] (j : Job) (limit : Nat) {e : Engine σ}
    (hseeded : ∀ e', j.seed e = .ok e' → e'.Near) : j.fits limit e = true := by
  unfold Job.fits
  cases hseed : j.seed e with
  | error f => rfl
  | ok e' => exact Engine.fetchFits_of_near _ _ _ (hseeded e' hseed)

end Lockstep
