import HornResolution.Proofs.Valuation
import Mathlib.Data.Finset.Card
import Mathlib.Logic.Relation

/-!
# Acyclic substitutions

A bound variable leads to the variables of its value. A substitution is acyclic
if no variable leads back to itself. The rank of a variable is the number of
bound variables it leads to, itself included; it falls along every link and is at
most the number of bindings, which is why following chains for that many links
follows them to the end.
-/

namespace HornResolution

namespace Substitution

variable {θ : Substitution} {v w : Var} {e : Expr}

/-- The first variable is bound, and the second occurs in its value. -/
def Leads (θ : Substitution) (v w : Var) : Prop := ∃ e, θ.get? v = some e ∧ w ∈ e.occurrences

/-- No variable leads back to itself, by however many links. -/
def Acyclic (θ : Substitution) : Prop := ∀ v, ¬ Relation.TransGen θ.Leads v v

theorem acyclic_of_decreasing (r : Var → ℕ) (h : ∀ v w, θ.Leads v w → r w < r v) :
    θ.Acyclic := by
  have hpath : ∀ v w, Relation.TransGen θ.Leads v w → r w < r v := by
    intro v w hvw
    induction hvw with
    | single hlink => exact h _ _ hlink
    | tail _ hlink ih => exact (h _ _ hlink).trans ih
  intro v hv
  exact lt_irrefl _ (hpath v v hv)

theorem acyclic_empty : empty.Acyclic := by
  apply acyclic_of_decreasing (fun _ => 0)
  rintro v w ⟨e, he, -⟩
  simp at he

theorem mem_bindings_of_get? (h : θ.get? v = some e) : (v, e) ∈ θ.bindings := by
  obtain ⟨l₁, l₂, hl, -⟩ := List.lookup_eq_some_iff.mp h
  simp [hl]

def keys (θ : Substitution) : Finset Var := (θ.bindings.map Prod.fst).toFinset

theorem mem_keys_of_get? (h : θ.get? v = some e) : v ∈ θ.keys :=
  List.mem_toFinset.mpr (List.mem_map_of_mem (mem_bindings_of_get? h))

theorem get?_of_mem_keys (h : v ∈ θ.keys) : ∃ e, θ.get? v = some e := by
  cases he : θ.get? v with
  | some e => exact ⟨e, rfl⟩
  | none =>
    obtain ⟨b, hb, rfl⟩ := List.mem_map.mp (List.mem_toFinset.mp h)
    have := List.lookup_eq_none_iff.mp he b hb
    simp at this

theorem get?_eq_some_iff : θ.get? v = some e ↔ (v, e) ∈ θ.bindings := by
  refine ⟨mem_bindings_of_get?, fun h => ?_⟩
  obtain ⟨e', he'⟩ := get?_of_mem_keys (List.mem_toFinset.mpr (List.mem_map_of_mem h))
  have heq := List.inj_on_of_nodup_map θ.nodup (mem_bindings_of_get? he') h rfl
  rw [he', (Prod.mk.inj heq).2]

theorem card_keys_le (θ : Substitution) : θ.keys.card ≤ θ.length := by
  calc
    θ.keys.card ≤ (θ.bindings.map Prod.fst).length := List.toFinset_card_le _
    _ = θ.length := List.length_map ..

section Rank

open Classical in
/-- The bound variables to which a variable leads, itself included if it is bound. -/
noncomputable def boundFrom (θ : Substitution) (v : Var) : Finset Var :=
  θ.keys.filter fun u => Relation.ReflTransGen θ.Leads v u

theorem mem_boundFrom {u : Var} :
    u ∈ θ.boundFrom v ↔ u ∈ θ.keys ∧ Relation.ReflTransGen θ.Leads v u := by
  classical exact Finset.mem_filter

/-- How far a variable is from having no bound variable below it. -/
noncomputable def rank (θ : Substitution) (v : Var) : ℕ := (θ.boundFrom v).card

theorem rank_pos (h : θ.get? v = some e) : 0 < θ.rank v :=
  Finset.card_pos.mpr ⟨v, mem_boundFrom.mpr ⟨mem_keys_of_get? h, .refl⟩⟩

theorem rank_le_card_keys (θ : Substitution) (v : Var) : θ.rank v ≤ θ.keys.card :=
  Finset.card_le_card fun _ hu => (mem_boundFrom.mp hu).1

theorem rank_le_length (θ : Substitution) (v : Var) : θ.rank v ≤ θ.length :=
  (θ.rank_le_card_keys v).trans θ.card_keys_le

/-- The rank falls along a link: the start of the link is led to from itself, and not
from its end. -/
theorem Acyclic.rank_lt (hθ : θ.Acyclic) (h : θ.Leads v w) : θ.rank w < θ.rank v := by
  have hsub : θ.boundFrom w ⊆ θ.boundFrom v := by
    intro u hu
    obtain ⟨hkey, hwu⟩ := mem_boundFrom.mp hu
    exact mem_boundFrom.mpr ⟨hkey, .head h hwu⟩
  have hv : v ∉ θ.boundFrom w := by
    intro hv
    exact hθ v (.head' h (mem_boundFrom.mp hv).2)
  obtain ⟨e, he, -⟩ := id h
  apply Finset.card_lt_card
  exact (Finset.ssubset_iff_of_subset hsub).mpr
    ⟨v, mem_boundFrom.mpr ⟨mem_keys_of_get? he, .refl⟩, hv⟩

end Rank

section OccursCheck

theorem leads_of_reaches {target : Var} {links : ℕ} (h : θ.reaches target links v = true) :
    Relation.ReflTransGen θ.Leads v target := by
  induction links generalizing v with
  | zero =>
    obtain rfl : v = target := by simpa [reaches] using h
    exact .refl
  | succ links ih =>
    rw [reaches, Bool.or_eq_true] at h
    rcases h with h | h
    · obtain rfl : v = target := by simpa using h
      exact .refl
    · split at h
      · rename_i e he
        obtain ⟨u, hu, hreach⟩ := List.any_eq_true.mp h
        exact .head ⟨e, he, hu⟩ (ih hreach)
      · simp at h

theorem Acyclic.reaches_of_leads (hθ : θ.Acyclic) {target : Var}
    (h : Relation.ReflTransGen θ.Leads v target) {links : ℕ} (hlinks : θ.rank v ≤ links) :
    θ.reaches target links v = true := by
  induction h using Relation.ReflTransGen.head_induction_on generalizing links with
  | refl => cases links <;> simp [reaches]
  | @head v u hvu _ ih =>
    have hrank := hθ.rank_lt hvu
    obtain ⟨links, rfl⟩ : ∃ n, links = n + 1 := ⟨links - 1, by omega⟩
    obtain ⟨e, he, hu⟩ := hvu
    rw [reaches, he, Bool.or_eq_true]
    exact Or.inr (List.any_eq_true.mpr ⟨u, hu, ih (by omega)⟩)

/-- The occurs check decides whether some variable of the expression leads to the given one. -/
theorem Acyclic.occursIn_iff (hθ : θ.Acyclic) :
    θ.occursIn v e = true ↔ ∃ u ∈ e.occurrences, Relation.ReflTransGen θ.Leads u v := by
  rw [occursIn, List.any_eq_true]
  constructor
  · rintro ⟨u, hu, h⟩
    exact ⟨u, hu, leads_of_reaches h⟩
  · rintro ⟨u, hu, h⟩
    exact ⟨u, hu, hθ.reaches_of_leads h (θ.rank_le_length u)⟩

end OccursCheck

theorem leads_add {u : Var} (h : (θ.add v e).Leads u w) :
    θ.Leads u w ∨ u = v ∧ w ∈ e.occurrences := by
  obtain ⟨e', he', hw⟩ := h
  rcases of_get?_add he' with he' | ⟨huv, rfl⟩
  · exact Or.inl ⟨e', he', hw⟩
  · exact Or.inr ⟨huv, hw⟩

theorem Acyclic.add (hθ : θ.Acyclic) (hocc : θ.occursIn v e = false) :
    (θ.add v e).Acyclic := by
  classical
  have hfree : ∀ u ∈ e.occurrences, ¬ Relation.ReflTransGen θ.Leads u v := by
    intro u hu h
    rw [hθ.occursIn_iff.mpr ⟨u, hu, h⟩] at hocc
    simp at hocc
  -- What leads to `v` is raised above every variable of its value; nothing there is raised.
  let top := θ.length + 1
  apply acyclic_of_decreasing fun u =>
    if Relation.ReflTransGen θ.Leads u v then θ.rank u + top else θ.rank u
  intro u w huw
  rcases leads_add huw with huw | ⟨rfl, hw⟩
  · have hrank := hθ.rank_lt huw
    by_cases hwv : Relation.ReflTransGen θ.Leads w v
    · simpa [hwv, Relation.ReflTransGen.head huw hwv] using hrank
    · rw [if_neg hwv]
      split_ifs <;> omega
  · have hrank := θ.rank_le_length w
    simp only [if_neg (hfree w hw), Relation.ReflTransGen.refl, if_true]
    omega

section Containment

variable {σ τ : Substitution}

/-- The second substitution has all bindings of the first. -/
def ContainedIn (σ τ : Substitution) : Prop := ∀ v e, σ.get? v = some e → τ.get? v = some e

theorem containedIn_add (θ : Substitution) (v : Var) (e : Expr) : θ.ContainedIn (θ.add v e) := by
  intro w e' h
  rw [get?_add, h, Option.some_or]

theorem ContainedIn.leads (h : σ.ContainedIn τ) (hvw : σ.Leads v w) : τ.Leads v w := by
  obtain ⟨e, he, hw⟩ := hvw
  exact ⟨e, h v e he, hw⟩

theorem ContainedIn.acyclic (h : σ.ContainedIn τ) (hτ : τ.Acyclic) : σ.Acyclic :=
  fun v hv => hτ v (Relation.TransGen.mono (fun _ _ => h.leads) v v hv)

/-- Under an acyclic substitution the occurs check passes exactly the bindings of an unbound
variable that close no cycle. -/
theorem Acyclic.acyclic_add_iff (hθ : θ.Acyclic) (hv : θ.get? v = none) :
    (θ.add v e).Acyclic ↔ θ.occursIn v e = false := by
  refine ⟨fun hadd => ?_, hθ.add⟩
  rw [Bool.eq_false_iff]
  intro hocc
  obtain ⟨u, hu, hpath⟩ := hθ.occursIn_iff.mp hocc
  have hlink : (θ.add v e).Leads v u := ⟨e, get?_add_self hv, hu⟩
  have hback : Relation.ReflTransGen (θ.add v e).Leads u v :=
    Relation.ReflTransGen.mono (fun _ _ => (θ.containedIn_add v e).leads) u v hpath
  exact hadd v (.head' hlink hback)

end Containment

section Resolution

theorem resolve_of_unbound (h : θ.get? v = none) (links : ℕ) : θ.resolve links v = .var v := by
  cases links with
  | zero => rfl
  | succ links => rw [resolve, h]

theorem unbound_of_rank_eq_zero (h : θ.rank v = 0) : θ.get? v = none := by
  cases he : θ.get? v with
  | none => rfl
  | some e =>
    have := rank_pos he
    omega

theorem Acyclic.resolve_eq (hθ : θ.Acyclic) {m n : ℕ} (hm : θ.rank v ≤ m) (hn : θ.rank v ≤ n) :
    θ.resolve m v = θ.resolve n v := by
  induction m generalizing v n with
  | zero =>
    have hv := unbound_of_rank_eq_zero (Nat.le_zero.mp hm)
    rw [resolve_of_unbound hv, resolve_of_unbound hv]
  | succ m ih =>
    cases n with
    | zero =>
      have hv := unbound_of_rank_eq_zero (Nat.le_zero.mp hn)
      rw [resolve_of_unbound hv, resolve_of_unbound hv]
    | succ n =>
      rw [resolve, resolve]
      split
      · rename_i t ht
        apply Term.bind_congr
        intro u hu
        have hrank := hθ.rank_lt ⟨_, ht, hu⟩
        exact ih (by omega) (by omega)
      · rfl

theorem Acyclic.instantiates_resolve (hθ : θ.Acyclic) (hterm : θ.TermValued) :
    Instantiates (θ.resolve θ.length) θ := by
  intro v e he
  obtain ⟨t, rfl⟩ := hterm v e he
  have hpos := (rank_pos he).trans_le (θ.rank_le_length v)
  obtain ⟨n, hn⟩ : ∃ n, θ.length = n + 1 := ⟨θ.length - 1, by omega⟩
  have hv : θ.resolve (n + 1) v = t.bind (θ.resolve n) := by rw [resolve, he]
  rw [Expr.bind, Expr.mapTerms, hn, hv]
  congr 1
  apply Term.bind_congr
  intro u hu
  have hu := hθ.rank_lt ⟨_, he, hu⟩
  have hle := θ.rank_le_length v
  exact hθ.resolve_eq (by omega) (by omega)

end Resolution

end Substitution

end HornResolution
