import HornResolution.Proofs.ObtainableBindings

/-!
# The order of bindings

`extend` makes one binding and checks it against those that there are. Bindings that are made
one after the other are therefore checked against different substitutions in different orders,
and are refused at different places. All the same, whether they can be made does not depend on
the order: they can exactly if their variables are distinct and unbound and all bindings
together are acyclic. The results of two orders list the same bindings differently, and nothing
that reads a substitution sees more of it than the value of each variable and the number of
bindings.
-/

namespace HornResolution

namespace Substitution

section Extending

variable {θ σ : Substitution} {v w : Var} {e : Expr} {bs bs' : List (Var × Expr)}

/-- Makes the bindings of a list one after the other. -/
def extendAll (θ : Substitution) (bs : List (Var × Expr)) : Except Misuse Substitution :=
  bs.foldlM (fun σ b => σ.extend b.1 b.2) θ

/-- The first variable has a binding in the list, and the second occurs in its value. -/
def Linked (bs : List (Var × Expr)) (v w : Var) : Prop := ∃ e, (v, e) ∈ bs ∧ w ∈ e.occurrences

/-- No variable leads back to itself through the bindings of a list. -/
def CycleFree (bs : List (Var × Expr)) : Prop := ∀ v, ¬ Relation.TransGen (Linked bs) v v

theorem CycleFree.subset (h : CycleFree bs') (hbs : bs ⊆ bs') : CycleFree bs := by
  intro v hv
  refine h v (Relation.TransGen.mono ?_ v v hv)
  rintro u w ⟨e, he, hw⟩
  exact ⟨e, hbs he, hw⟩

theorem acyclic_iff_cycleFree : θ.Acyclic ↔ CycleFree θ.bindings := by
  have hleads : θ.Leads = Linked θ.bindings := by
    funext v w
    simp only [Leads, Linked, get?_eq_some_iff]
  rw [Acyclic, CycleFree, hleads]

/-- The bindings of a list can be added to a substitution: each gives a value to another unbound
variable, and together with those that there are they close no cycle. -/
structure Admits (θ : Substitution) (bs : List (Var × Expr)) : Prop where
  nodup : (bs.map Prod.fst).Nodup
  unbound : ∀ b ∈ bs, θ.isBound b.1 = false
  cycleFree : CycleFree (θ.bindings ++ bs)

theorem isBound_eq_false_iff : θ.isBound v = false ↔ θ.get? v = none := by
  simp [isBound]

theorem isBound_add_eq_false_iff :
    (θ.add v e).isBound w = false ↔ θ.isBound w = false ∧ w ≠ v := by
  simp [isBound_eq_false_iff, get?_add]

theorem extend_eq_ok_iff :
    θ.extend v e = .ok σ ↔ (θ.get? v = none ∧ θ.occursIn v e = false) ∧ σ = θ.add v e := by
  rw [← isBound_eq_false_iff]
  unfold extend
  split_ifs with hbound hocc
  · simp [hbound]
  · simp [hocc]
  · simp [hbound, hocc, eq_comm]

theorem bindings_add_append (hv : θ.get? v = none) (e : Expr) (bs : List (Var × Expr)) :
    (θ.add v e).bindings ++ bs = θ.bindings ++ (v, e) :: bs := by
  simp [bindings_add hv]

/-- The first binding is admitted under the substitution as it is, and the others under the
extended one. -/
theorem Acyclic.admits_cons (hθ : θ.Acyclic) :
    θ.Admits ((v, e) :: bs) ↔
      (θ.get? v = none ∧ θ.occursIn v e = false) ∧ (θ.add v e).Admits bs := by
  constructor
  · intro h
    have hv : θ.get? v = none := isBound_eq_false_iff.mp (h.unbound (v, e) (by simp))
    have hcycleFree : CycleFree ((θ.add v e).bindings ++ bs) :=
      bindings_add_append hv e bs ▸ h.cycleFree
    have hadd := acyclic_iff_cycleFree.mpr (hcycleFree.subset (List.subset_append_left _ bs))
    obtain ⟨hfirst, hnodup⟩ := List.nodup_cons.mp h.nodup
    refine ⟨⟨hv, (hθ.acyclic_add_iff hv).mp hadd⟩, hnodup, fun b hb => ?_, hcycleFree⟩
    refine isBound_add_eq_false_iff.mpr ⟨h.unbound b (by simp [hb]), ?_⟩
    intro hbv
    exact hfirst (List.mem_map.mpr ⟨b, hb, hbv⟩)
  · rintro ⟨⟨hv, -⟩, h⟩
    have hothers : ∀ b ∈ bs, θ.isBound b.1 = false ∧ b.1 ≠ v :=
      fun b hb => isBound_add_eq_false_iff.mp (h.unbound b hb)
    refine ⟨List.nodup_cons.mpr ⟨?_, h.nodup⟩, ?_, bindings_add_append hv e bs ▸ h.cycleFree⟩
    · intro hmem
      obtain ⟨b, hb, hbv⟩ := List.mem_map.mp hmem
      exact (hothers b hb).2 hbv
    · intro b hb
      rcases List.mem_cons.mp hb with rfl | hb
      · exact isBound_eq_false_iff.mpr hv
      · exact (hothers b hb).1

theorem extendAll_cons_eq_ok_iff :
    θ.extendAll ((v, e) :: bs) = .ok σ ↔
      (θ.get? v = none ∧ θ.occursIn v e = false) ∧ (θ.add v e).extendAll bs = .ok σ := by
  have hcons : θ.extendAll ((v, e) :: bs) = θ.extend v e >>= fun τ => τ.extendAll bs :=
    List.foldlM_cons
  rw [hcons]
  cases h : θ.extend v e with
  | ok τ =>
    obtain ⟨hadmits, rfl⟩ := extend_eq_ok_iff.mp h
    simp [hadmits, bind, Except.bind]
  | error misuse =>
    have hrefused : ¬ (θ.get? v = none ∧ θ.occursIn v e = false) := by
      intro hadmits
      rw [extend_eq_ok_iff.mpr ⟨hadmits, rfl⟩] at h
      simp at h
    simp [hrefused, bind, Except.bind]

theorem bindings_extendAll (h : θ.extendAll bs = .ok σ) : σ.bindings = θ.bindings ++ bs := by
  induction bs generalizing θ with
  | nil => rw [← Except.ok.inj h, List.append_nil]
  | cons b bs ih =>
    obtain ⟨⟨hv, -⟩, hrest⟩ := extendAll_cons_eq_ok_iff.mp h
    rw [ih hrest, bindings_add_append hv]

theorem Acyclic.exists_extendAll_iff (hθ : θ.Acyclic) :
    (∃ σ, θ.extendAll bs = .ok σ) ↔ θ.Admits bs := by
  induction bs generalizing θ with
  | nil =>
    have hcycleFree : CycleFree (θ.bindings ++ []) := by
      rwa [List.append_nil, ← acyclic_iff_cycleFree]
    exact ⟨fun _ => ⟨List.nodup_nil, by simp, hcycleFree⟩, fun _ => ⟨θ, rfl⟩⟩
  | cons b bs ih =>
    obtain ⟨v, e⟩ := b
    simp only [extendAll_cons_eq_ok_iff, exists_and_left]
    rw [hθ.admits_cons]
    apply and_congr_right
    intro hadmits
    exact ih (hθ.add hadmits.2)

theorem Admits.perm (h : θ.Admits bs) (hperm : bs.Perm bs') : θ.Admits bs' where
  nodup := (hperm.map Prod.fst).nodup_iff.mp h.nodup
  unbound b hb := h.unbound b (hperm.mem_iff.mpr hb)
  cycleFree := h.cycleFree.subset (hperm.append_left θ.bindings).symm.subset

end Extending

section Reading

variable {σ τ : Substitution} {v : Var} {e : Expr}

/-- Two substitutions with the same bindings, from which the same is read everywhere. -/
structure Interchangeable (σ τ : Substitution) : Prop where
  agrees : σ.agrees τ = true
  walk : ∀ e, σ.walk e = τ.walk e
  applyTerm : ∀ t : Term, t.apply σ = t.apply τ
  applyAtom : ∀ a : Atom, a.apply σ = a.apply τ
  applyExpr : ∀ e : Expr, e.apply σ = e.apply τ
  applyFormula : ∀ f : Formula, f.apply σ = f.apply τ
  applyClause : ∀ c : Clause, c.apply σ = c.apply τ
  occursIn : ∀ v e, σ.occursIn v e = τ.occursIn v e
  isGround : σ.isGround = τ.isGround

theorem walkWithin_congr (h : σ.get? = τ.get?) (links : ℕ) (e : Expr) :
    σ.walkWithin links e = τ.walkWithin links e := by
  induction links generalizing e with
  | zero => rfl
  | succ links ih => simp only [walkWithin, h, ih]

theorem reaches_congr (h : σ.get? = τ.get?) (target : Var) (links : ℕ) (v : Var) :
    σ.reaches target links v = τ.reaches target links v := by
  induction links generalizing v with
  | zero => rfl
  | succ links ih => simp only [reaches, h, funext ih]

theorem resolve_congr (h : σ.get? = τ.get?) (links : ℕ) (v : Var) :
    σ.resolve links v = τ.resolve links v := by
  induction links generalizing v with
  | zero => rfl
  | succ links ih => simp only [resolve, h, funext ih]

/-- Only the values of the variables and the number of bindings are ever looked at. -/
theorem interchangeable_of_perm (h : σ.bindings.Perm τ.bindings) : Interchangeable σ τ := by
  have hget : σ.get? = τ.get? := by
    funext v
    ext e
    rw [get?_eq_some_iff, get?_eq_some_iff, h.mem_iff]
  have hlength : σ.length = τ.length := h.length_eq
  have hwalk : σ.walk = τ.walk := by
    funext e
    rw [walk, walk, hlength, walkWithin_congr hget]
  have happly : Term.apply σ = Term.apply τ := by
    funext t
    rw [Term.apply, Term.apply, hlength, funext (resolve_congr hget _)]
  have happlyExpr : ∀ e : Expr, e.apply σ = e.apply τ := by
    intro e
    rw [Expr.apply, Expr.apply, hwalk, happly]
  constructor
  · have hvalues : ∀ b ∈ σ.bindings, τ.get? b.1 = some b.2 :=
      fun b hb => hget ▸ get?_eq_some_iff.mpr hb
    simpa [agrees, hlength] using hvalues
  · exact fun e => congrFun hwalk e
  · exact fun t => congrFun happly t
  · exact fun a => by rw [Atom.apply, Atom.apply, happly]
  · exact happlyExpr
  · exact fun f => by rw [Formula.apply, Formula.apply, happly]
  · exact fun c => by rw [Clause.apply, Clause.apply, happly]
  · exact fun v e => by rw [Substitution.occursIn, Substitution.occursIn, hlength,
      funext (reaches_congr hget v _)]
  · simp only [isGround, happlyExpr]
    exact h.all_eq

end Reading

end Substitution

open Substitution

/-- The order in which bindings are made does not matter. Under an acyclic substitution the
bindings of a list can be made one after the other exactly if their variables are distinct and
unbound and all bindings together close no cycle. So they can be made in any order or in none, and
the results of two orders are equal up to the order of their bindings and have the same readings
of every expression. -/
theorem extendAll_order_irrelevant {θ : Substitution} (hθ : θ.Acyclic) (bs : List (Var × Expr)) :
    ((∃ σ, θ.extendAll bs = .ok σ) ↔
      (bs.map Prod.fst).Nodup ∧ (∀ b ∈ bs, θ.isBound b.1 = false) ∧
        CycleFree (θ.bindings ++ bs)) ∧
    ∀ bs', bs.Perm bs' →
      ((∃ σ, θ.extendAll bs = .ok σ) ↔ ∃ τ, θ.extendAll bs' = .ok τ) ∧
      ∀ σ τ, θ.extendAll bs = .ok σ → θ.extendAll bs' = .ok τ → Interchangeable σ τ := by
  refine ⟨?_, fun bs' hperm => ⟨?_, fun σ τ hσ hτ => ?_⟩⟩
  · rw [hθ.exists_extendAll_iff]
    exact ⟨fun h => ⟨h.nodup, h.unbound, h.cycleFree⟩, fun h => ⟨h.1, h.2.1, h.2.2⟩⟩
  · rw [hθ.exists_extendAll_iff, hθ.exists_extendAll_iff]
    exact ⟨fun h => h.perm hperm, fun h => h.perm hperm.symm⟩
  · apply interchangeable_of_perm
    rw [bindings_extendAll hσ, bindings_extendAll hτ]
    exact hperm.append_left θ.bindings

/-- A chain of bindings on from the values of `sampleBindings`, to an atom. -/
def chainedPairs : List (Var × Expr) :=
  [(⟨1⟩, .term (.var ⟨3⟩)), (⟨3⟩, .atom ⟨⟨8⟩, [.var ⟨4⟩]⟩), (⟨4⟩, .term (.const ⟨6⟩))]

/-- The chain and the same in reverse give interchangeable substitutions. The second list leads
from the variable of the first pair through `sampleBindings` back to it. Either order is
refused, at one pair or at the other. -/
theorem extendAll_order_irrelevant_chainedPairs :
    (∃ σ τ, sampleBindings.extendAll chainedPairs = .ok σ ∧
      sampleBindings.extendAll chainedPairs.reverse = .ok τ ∧ Interchangeable σ τ) ∧
    ¬ CycleFree (sampleBindings.bindings ++
      [(⟨1⟩, .term (.var ⟨3⟩)), (⟨3⟩, .atom ⟨⟨8⟩, [.var ⟨0⟩]⟩)]) := by
  have hreordered := (extendAll_order_irrelevant acyclic_sampleBindings chainedPairs).2
    chainedPairs.reverse (List.reverse_perm chainedPairs).symm
  refine ⟨⟨_, _, rfl, rfl, hreordered.2 _ _ rfl rfl⟩, fun hcycleFree => ?_⟩
  have hmade := (extendAll_order_irrelevant acyclic_sampleBindings
    [(⟨1⟩, .term (.var ⟨3⟩)), (⟨3⟩, .atom ⟨⟨8⟩, [.var ⟨0⟩]⟩)]).1.mpr
    ⟨by decide, by decide, hcycleFree⟩
  obtain ⟨σ, hσ⟩ := hmade
  have hrefused : sampleBindings.extendAll
      [(⟨1⟩, .term (.var ⟨3⟩)), (⟨3⟩, .atom ⟨⟨8⟩, [.var ⟨0⟩]⟩)] = .error (.cycle ⟨3⟩) := rfl
  rw [hrefused] at hσ
  simp at hσ

end HornResolution
