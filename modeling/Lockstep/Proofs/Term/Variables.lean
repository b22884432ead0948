/-
# The variables of a term

What `mk` functions build mentions the variables of its operands only, whatever
the widths of these are. Where every variable stands at one width, the list of
the variables of a term has each of them once, at that width, so a query
declares exactly what its assertion mentions.

Key definitions: `Widths.Sub`, `Term.Over`, `Term.Sorted`.
Key theorems: `Term.over_iff`, `Term.over_mkBinary`, `Term.over_mkSlice`, `Term.over_mkConcat`,
`Term.sorted_vars`, `Term.mem_vars`.
-/
import Lockstep.Proofs.Term.Folding

namespace Lockstep

/-- Do the second widths allow what the first ones do? -/
def Widths.Sub (V V' : Widths) : Prop := ∀ id w, V id w → V' id w

theorem Widths.Sub.refl (V : Widths) : V.Sub V := fun _ _ => id

theorem Widths.Sub.trans {V V' V'' : Widths} (h : V.Sub V') (h' : V'.Sub V'') : V.Sub V'' :=
  fun id w hv => h' id w (h id w hv)

namespace Term

variable {V V' : Widths} {a b c t : Term}

/-- Does every variable of the term stand at an allowed width? Nothing is asked of the widths of
the parts. -/
def Over (V : Widths) : Term → Prop
  | const _ _ => True
  | var w id => V id w
  | binary _ _ a b => a.Over V ∧ b.Over V
  | invert _ a => a.Over V
  | slice _ a _ => a.Over V
  | concat _ lo hi => lo.Over V ∧ hi.Over V
  | ite _ c t f => c.Over V ∧ t.Over V ∧ f.Over V
  | equal a b => a.Over V ∧ b.Over V

theorem over_iff : t.Over V ↔ ∀ id w, t.Mentions id w → V id w := by
  induction t with
  | const => simp [Over, Mentions]
  | var w i => simp [Over, Mentions]
  | invert _ _ ih | slice _ _ _ ih => exact ih
  | binary _ _ _ _ iha ihb | concat _ _ _ iha ihb | equal _ _ iha ihb =>
    simp only [Over, Mentions, iha, ihb, or_imp, forall_and]
  | ite _ _ _ _ ihc iha ihb => simp only [Over, Mentions, ihc, iha, ihb, or_imp, forall_and]

theorem Over.mono (h : t.Over V) (hV : V.Sub V') : t.Over V' :=
  over_iff.2 fun id w hm => hV id w (over_iff.1 h id w hm)

/-! ### Built terms -/

theorem over_mkBinary (op : BinaryOp) (w : Nat) (ha : a.Over V) (hb : b.Over V) :
    (mkBinary op w a b).Over V := by
  unfold mkBinary
  split
  · exact trivial
  · cases op <;> simp only [mkBinaryOpen] <;> split_ifs <;>
      first | exact ha | exact hb | exact trivial | exact ⟨ha, hb⟩

theorem over_mkInvert (w : Nat) (ha : a.Over V) : (mkInvert w a).Over V := by
  unfold mkInvert
  split
  · exact trivial
  · exact ha
  · exact ha

theorem over_mkSlice (bits lo hi : Nat) (ha : a.Over V) : (mkSlice bits a lo hi).Over V := by
  fun_induction mkSlice bits a lo hi with
  | case1 => exact trivial
  | case2 => exact ha
  | case3 bits lo hi w arg base hall ih => exact ih ha
  | case4 => exact ha
  | case5 bits lo hi w low high hall hlow ih => exact ih ha.1
  | case6 bits lo hi w low high hall hlow hhigh ih => exact ih ha.2
  | case7 => exact ha
  | case8 => exact ha
  | case9 => exact ha

/-- Two slices are glued into one of what they are slices of. -/
theorem over_mkConcat (m n : Nat) (ha : a.Over V) (hb : b.Over V) : (mkConcat a m b n).Over V := by
  unfold mkConcat
  split
  · exact trivial
  · split
    · rename_i s start t next hs ht
      split_ifs with hglue
      · cases a with
        | slice w arg lo =>
          obtain ⟨rfl, rfl⟩ := Prod.mk.inj (Option.some.inj hs)
          exact over_mkSlice _ _ _ ha
        | _ => cases hs
      · exact ⟨ha, hb⟩
    · exact ⟨ha, hb⟩

theorem over_mkIte (w : Nat) (hc : c.Over V) (ha : a.Over V) (hb : b.Over V) :
    (mkIte w c a b).Over V := by
  unfold mkIte
  split
  · split_ifs <;> assumption
  · split_ifs
    · exact ha
    · exact ⟨hc, ha, hb⟩

theorem over_mkEqual (ha : a.Over V) (hb : b.Over V) : (mkEqual a b).Over V := by
  unfold mkEqual
  split
  · exact trivial
  · split_ifs
    · exact trivial
    · exact ⟨ha, hb⟩

/-! ### The list of variables -/

/-- The variables of a list, by increasing number. -/
abbrev Sorted (vs : List (Nat × Nat)) : Prop := vs.Pairwise fun u v => u.1 < v.1

variable {vs : List (Nat × Nat)}

theorem mem_setVar (h : Sorted vs) (id w i x : Nat) :
    (i, x) ∈ setVar id w vs ↔ (i = id ∧ x = w) ∨ (i ≠ id ∧ (i, x) ∈ vs) := by
  induction vs with
  | nil => simp [setVar]
  | cons u vs ih =>
    obtain ⟨j, y⟩ := u
    obtain ⟨hlt, hvs⟩ := List.pairwise_cons.1 h
    have hbehind : (i, x) ∈ vs → j < i := fun hm => hlt (i, x) hm
    unfold setVar
    split_ifs with hid hj
    · simp only [List.mem_cons, Prod.mk.injEq]
      grind
    · simp only [List.mem_cons, Prod.mk.injEq]
      grind
    · simp only [List.mem_cons, Prod.mk.injEq, ih hvs]
      grind

theorem sorted_setVar (h : Sorted vs) (id w : Nat) : Sorted (setVar id w vs) := by
  induction vs with
  | nil => simp [setVar]
  | cons u vs ih =>
    obtain ⟨j, y⟩ := u
    obtain ⟨hlt, hvs⟩ := List.pairwise_cons.1 h
    unfold setVar
    split_ifs with hid hj
    · refine List.pairwise_cons.2 ⟨?_, h⟩
      rintro v (_ | ⟨_, hv⟩)
      · exact hid
      · exact Nat.lt_trans hid (hlt v hv)
    · exact List.pairwise_cons.2 ⟨fun v hv => hj ▸ hlt v hv, hvs⟩
    · refine List.pairwise_cons.2 ⟨?_, ih hvs⟩
      rintro ⟨i, x⟩ hm
      obtain ⟨rfl, -⟩ | ⟨-, hm⟩ := (mem_setVar hvs id w i x).1 hm
      · exact Nat.lt_of_le_of_ne (Nat.le_of_not_lt hid) (Ne.symm hj)
      · exact hlt (i, x) hm

theorem sorted_addVars (t : Term) (h : Sorted vs) : Sorted (t.addVars vs) := by
  induction t generalizing vs with
  | const => exact h
  | var w i => exact sorted_setVar h i w
  | invert _ _ ih => exact ih h
  | slice _ _ _ ih => exact ih h
  | binary _ _ _ _ iha ihb => exact ihb (iha h)
  | concat _ _ _ iha ihb => exact ihb (iha h)
  | equal _ _ iha ihb => exact ihb (iha h)
  | ite _ _ _ _ ihc iha ihb => exact ihb (iha (ihc h))

/-- **A term adds its variables to a list**, if every variable stands at one width. The parts of
a term add theirs one after the other. -/
theorem mem_addVars (hV : V.Functional) (ht : t.Over V) (h : Sorted vs)
    (hvs : ∀ i x, (i, x) ∈ vs → V i x) (i x : Nat) :
    (i, x) ∈ t.addVars vs ↔ t.Mentions i x ∨ (i, x) ∈ vs := by
  -- what two parts add, of which the second comes to the list that the first leaves
  have htwo {a b : Term} {vs : List (Nat × Nat)} (ha : a.Over V) (h : Sorted vs)
      (hvs : ∀ i x, (i, x) ∈ vs → V i x)
      (iha : ∀ i x, (i, x) ∈ a.addVars vs ↔ a.Mentions i x ∨ (i, x) ∈ vs)
      (ihb : Sorted (a.addVars vs) → (∀ i x, (i, x) ∈ a.addVars vs → V i x) → ∀ i x,
        (i, x) ∈ b.addVars (a.addVars vs) ↔ b.Mentions i x ∨ (i, x) ∈ a.addVars vs) (i x : Nat) :
      (i, x) ∈ b.addVars (a.addVars vs) ↔ (a.Mentions i x ∨ b.Mentions i x) ∨ (i, x) ∈ vs := by
    have hadded : ∀ i x, (i, x) ∈ a.addVars vs → V i x := fun i x hm =>
      ((iha i x).1 hm).elim (over_iff.1 ha i x) (hvs i x)
    rw [ihb (sorted_addVars a h) hadded, iha, or_left_comm, or_assoc]
  induction t generalizing vs i x with
  | const => simp [addVars, Mentions]
  | var w id =>
    have hsame : (id, x) ∈ vs → w = x := fun hm => hV id w x ht (hvs id x hm)
    rw [addVars, mem_setVar h, Mentions]
    grind
  | invert _ _ ih => exact ih ht h hvs i x
  | slice _ _ _ ih => exact ih ht h hvs i x
  | binary _ _ a b iha ihb => exact htwo ht.1 h hvs (iha ht.1 h hvs) (ihb ht.2) i x
  | concat _ a b iha ihb => exact htwo ht.1 h hvs (iha ht.1 h hvs) (ihb ht.2) i x
  | equal a b iha ihb => exact htwo ht.1 h hvs (iha ht.1 h hvs) (ihb ht.2) i x
  | ite _ c a b ihc iha ihb =>
    obtain ⟨hc, ha, hb⟩ := ht
    have hca := htwo hc h hvs (ihc hc h hvs) (iha ha)
    have hadded : ∀ i x, (i, x) ∈ a.addVars (c.addVars vs) → V i x := fun i x hm =>
      ((hca i x).1 hm).elim (Or.elim · (over_iff.1 hc i x) (over_iff.1 ha i x)) (hvs i x)
    refine (ihb hb (sorted_addVars a (sorted_addVars c h)) hadded i x).trans ?_
    rw [hca, Mentions]
    grind

/-- **The variables of a term**, each once, at the width at which it stands. -/
theorem mem_vars (hV : V.Functional) (ht : t.Over V) (id w : Nat) :
    (id, w) ∈ t.vars ↔ t.Mentions id w := by
  have hmem := mem_addVars hV ht .nil nofun id w
  rwa [List.mem_nil_iff, or_false] at hmem

theorem sorted_vars (t : Term) : Sorted t.vars := sorted_addVars t .nil

end Term
end Lockstep
