import HornResolution.Proofs.VocabularyTables

/-!
# Made-up names

A made-up name is a stem followed by a number. The numbers are tried one after the other, from a
counter that no two requests share, until one gives a name that is not taken. Nothing in the loop
says that it ends. It does because different numbers give one stem different names, and there are
only as many names to be taken as there are symbols: among one number more than that, one is unused.

Names made up for different stems, or interned by hand, may well read alike, such as `G1` with `2`
after it and `G` with `12`. A taken name is passed over whoever took it, so each made-up symbol is a
new one.
-/

namespace HornResolution

namespace Vocabulary

open Registry

variable {V : Vocabulary} {stem : String} {n N k : ℕ}

section Numbering

theorem contains_iff {name : String} : V.contains name = true ↔ name ∈ V.names.toList := by
  rw [contains, find?, Option.isSome_map, List.findIdx?_isSome, List.any_eq_true]
  simp

theorem numbered_injective (stem : String) :
    Function.Injective fun n : ℕ => stem ++ toString n := by
  intro m n h
  have htext : toString m = toString n := (String.append_right_inj stem).mp h
  have hdigits : Nat.toDigits 10 m = Nat.toDigits 10 n := by
    simpa only [Nat.toString_eq_repr, Nat.toList_repr] using congrArg String.toList htext
  calc
    m = Nat.ofDigitChars 10 (Nat.toDigits 10 m) 0 := Nat.ofDigitChars_ten_toDigits.symm
    _ = Nat.ofDigitChars 10 (Nat.toDigits 10 n) 0 := by rw [hdigits]
    _ = n := Nat.ofDigitChars_ten_toDigits

/-- As many different numbers as give the stem a taken name, so many symbols there are. -/
theorem length_le_symbolCount_of_taken {ns : List ℕ} (hnodup : ns.Nodup)
    (h : ∀ n ∈ ns, V.contains (stem ++ toString n) = true) : ns.length ≤ V.symbolCount := by
  have hsub : (ns.map fun n => stem ++ toString n) ⊆ V.names.toList := by
    intro name hname
    obtain ⟨n, hn, rfl⟩ := List.mem_map.mp hname
    exact contains_iff.mp (h n hn)
  have hlength := (List.subperm_of_subset (hnodup.map (numbered_injective stem)) hsub).length_le
  simpa [symbolCount] using hlength

theorem le_symbolCount_of_taken (h : ∀ i < k, V.contains (stem ++ toString (n + i)) = true) :
    k ≤ V.symbolCount := by
  have htaken : ∀ i ∈ List.range' n k, V.contains (stem ++ toString i) = true := by
    intro i hi
    obtain ⟨hle, hlt⟩ := List.mem_range'_1.mp hi
    have hi' := h (i - n) (by omega)
    rwa [Nat.add_sub_cancel' hle] at hi'
  simpa using length_le_symbolCount_of_taken (List.nodup_range' 1) htaken

end Numbering

section Searching

/-- The number is the least from the start on that gives the stem a name which is not taken. -/
structure FirstUnused (V : Vocabulary) (stem : String) (start N : ℕ) : Prop where
  le : start ≤ N
  unused : V.contains (stem ++ toString N) = false
  taken : ∀ m, start ≤ m → m < N → V.contains (stem ++ toString m) = true

/-- The loop without a bound, from a value of the counter to the number it ends with. In each round
the counter is raised, and it has to stay a number of 32 bits. -/
inductive Rounds (V : Vocabulary) (stem : String) : (counter rounds N : ℕ) → Prop
  | last {n : ℕ} (hword : n + 1 < 2 ^ 32) (hunused : V.contains (stem ++ toString n) = false) :
      Rounds V stem n 1 n
  | again {n k N : ℕ} (hword : n + 1 < 2 ^ 32) (htaken : V.contains (stem ++ toString n) = true)
      (hnext : Rounds V stem (n + 1) k N) : Rounds V stem n (k + 1) N

theorem FirstUnused.le_add_symbolCount (h : V.FirstUnused stem n N) : N ≤ n + V.symbolCount := by
  have hcount : N - n ≤ V.symbolCount :=
    le_symbolCount_of_taken fun i hi => h.taken (n + i) (by omega) (by omega)
  omega

theorem FirstUnused.rounds (h : V.FirstUnused stem n N) (hword : N + 1 < 2 ^ 32) :
    V.Rounds stem n (N - n + 1) N := by
  obtain ⟨d, rfl⟩ := Nat.exists_eq_add_of_le h.le
  rw [Nat.add_sub_cancel_left]
  induction d generalizing n with
  | zero => exact .last hword h.unused
  | succ d ih =>
    have hadd : n + (d + 1) = n + 1 + d := by omega
    rw [hadd] at h hword ⊢
    refine .again (by omega) (h.taken n (by omega) (by omega)) (ih ?_ hword)
    exact ⟨by omega, h.unused, fun m hm => h.taken m (by omega)⟩

theorem firstUnused_unusedNumber (h : ∃ i < k, V.contains (stem ++ toString (n + i)) = false) :
    V.FirstUnused stem n (V.unusedNumber stem k n) := by
  induction k generalizing n with
  | zero => obtain ⟨i, hi, -⟩ := h; omega
  | succ k ih =>
    rw [unusedNumber]
    split_ifs with htaken
    · obtain ⟨i, hi, hunused⟩ := h
      have hi0 : i ≠ 0 := by
        rintro rfl
        rw [Nat.add_zero, htaken] at hunused
        simp at hunused
      have hadd : n + 1 + (i - 1) = n + i := by omega
      have hnext := ih (n := n + 1) ⟨i - 1, by omega, by rwa [hadd]⟩
      refine ⟨by have := hnext.le; omega, hnext.unused, fun m hm hlt => ?_⟩
      rcases hm.eq_or_lt with rfl | hlt'
      · exact htaken
      · exact hnext.taken m hlt' hlt
    · exact ⟨le_rfl, by simpa using htaken, fun m hm hlt => by omega⟩

theorem exists_unused (V : Vocabulary) (stem : String) (n : ℕ) :
    ∃ i < V.symbolCount + 1, V.contains (stem ++ toString (n + i)) = false := by
  by_contra hnone
  push Not at hnone
  have hle : V.symbolCount + 1 ≤ V.symbolCount :=
    le_symbolCount_of_taken fun i hi => by simpa using hnone i hi
  omega

end Searching

section Coining

theorem coin_eq (V : Vocabulary) (hne : stem ≠ "") :
    ∃ N, V.FirstUnused stem V.generated N ∧
      V.coin stem = intern { V with generated := N + 1 } (stem ++ toString N) :=
  ⟨_, firstUnused_unusedNumber (V.exists_unused stem V.generated), if_neg hne⟩

/-- A request for a made-up name adds one symbol, whose name has the first unused number. -/
theorem coin_spec (V : Vocabulary) (hne : stem ≠ "") :
    ∃ N, V.FirstUnused stem V.generated N ∧
      V.coin stem = (.ok ⟨V.symbolCount⟩,
        { V with names := V.names.push (stem ++ toString N), generated := N + 1 }) := by
  obtain ⟨N, hfirst, hcoin⟩ := V.coin_eq hne
  have hname : stem ++ toString N ≠ "" := fun h => hne (String.append_eq_empty_iff.mp h).1
  have hfind : V.find? (stem ++ toString N) = none := by simpa [contains] using hfirst.unused
  have hfind' : find? { V with generated := N + 1 } (stem ++ toString N) = none := hfind
  refine ⟨N, hfirst, hcoin.trans ?_⟩
  rw [intern, if_neg hname, hfind']
  rfl

theorem generated_intern (V : Vocabulary) (name : String) :
    (V.intern name).2.generated = V.generated := by
  rw [intern]
  split_ifs
  · rfl
  · split <;> rfl

theorem generated_le_serve (V : Vocabulary) (r : Request) :
    V.generated ≤ (serve V r).2.generated := by
  cases r with
  | intern name => exact (V.generated_intern name).ge
  | declare name =>
    show V.generated ≤ (V.declare name).2.generated
    rw [declare, ← V.generated_intern name]
    rcases V.intern name with ⟨e | s, V'⟩ <;> exact le_rfl
  | copyVar like =>
    show V.generated ≤ (V.copyVar like).2.generated
    rw [copyVar]
    split <;> exact le_rfl
  | coin stem =>
    show V.generated ≤ (V.coin stem).2.generated
    by_cases hne : stem = ""
    · rw [coin, if_pos hne]
    · obtain ⟨N, hfirst, hcoin⟩ := V.coin_eq hne
      rw [hcoin, generated_intern]
      exact hfirst.le.trans (Nat.le_succ N)

theorem generated_le_serveAll (rs : List Request) (V : Vocabulary) :
    V.generated ≤ (serveAll rs V).2.generated := by
  induction rs generalizing V with
  | nil => exact le_rfl
  | cons r rs ih => exact (V.generated_le_serve r).trans (ih _)

def madeUp (requests : List Request) (replies : List Reply) : List Symbol :=
  (requests.zip replies).filterMap fun
    | (.coin _, .symbol s) => some s
    | _ => none

theorem serve_coin (V : Vocabulary) (hne : stem ≠ "") :
    ∃ V', serve V (.coin stem) = (.symbol ⟨V.symbolCount⟩, V') ∧
      V'.symbolCount = V.symbolCount + 1 := by
  obtain ⟨N, -, hcoin⟩ := V.coin_spec hne
  refine ⟨_, congrArg (Prod.map (Reply.ofResult .symbol) id) hcoin, ?_⟩
  simp [symbolCount]

/-- The symbols made up in a run have numbers that were not given away before it, in growing
order. -/
theorem madeUp_serveAll (requests : List Request) (V : Vocabulary) :
    (∀ s ∈ madeUp requests (serveAll requests V).1, V.symbolCount ≤ s.id) ∧
      (madeUp requests (serveAll requests V).1).Pairwise fun s t => s.id < t.id := by
  induction requests generalizing V with
  | nil => simp [madeUp, serveAll]
  | cons r requests ih =>
    obtain ⟨hold, hsorted⟩ := ih (serve V r).2
    have hle := (V.serve_extends r).grows.symbolCount_le
    have hlater : ∀ s ∈ madeUp requests (serveAll requests (serve V r).2).1,
        V.symbolCount ≤ s.id := fun s hs => hle.trans (hold s hs)
    cases r with
    | coin stem =>
      by_cases hne : stem = ""
      · subst hne
        exact ⟨hlater, hsorted⟩
      · obtain ⟨V', hserve, hcount⟩ := V.serve_coin hne
        simp only [hserve] at hold hsorted hlater
        have hnew : madeUp (.coin stem :: requests) (serveAll (.coin stem :: requests) V).1 =
            ⟨V.symbolCount⟩ :: madeUp requests (serveAll requests V').1 := by
          simp only [madeUp, serveAll, hserve, List.zip_cons_cons, List.filterMap_cons]
        rw [hnew, List.pairwise_cons]
        refine ⟨List.forall_mem_cons.mpr ⟨le_rfl, hlater⟩, fun s hs => ?_, hsorted⟩
        have := hold s hs
        show V.symbolCount < s.id
        omega
    | intern name => exact ⟨hlater, hsorted⟩
    | declare name => exact ⟨hlater, hsorted⟩
    | copyVar like => exact ⟨hlater, hsorted⟩

end Coining

/-- Making up a name always finds a new one. For a stem that is not empty, and a counter that has
room for as many numbers as there are symbols and one more, the loop ends after at most that many
rounds and without overflow. The number it ends with is the least from the counter on that gives the
stem an unused name. One symbol of that name is added, the counter goes on behind the number, and
nothing else changes. So a made-up symbol was unknown just before, whatever requests came earlier,
and the symbols that are made up in a run of any requests differ from each other. -/
theorem coin_finds_unused (V : Vocabulary) (hne : stem ≠ "")
    (hword : V.generated + V.symbolCount + 1 < 2 ^ 32) :
    (∃ N V', V.Rounds stem V.generated (N - V.generated + 1) N ∧
      N - V.generated + 1 ≤ V.symbolCount + 1 ∧
      V.FirstUnused stem V.generated N ∧ V.coin stem = (.ok ⟨V.symbolCount⟩, V') ∧
      V'.name? ⟨V.symbolCount⟩ = some (stem ++ toString N) ∧
      V' = { V with names := V.names.push (stem ++ toString N), generated := N + 1 }) ∧
      (∀ earlier other, other ≠ "" → ∃ s,
        (serve (serveAll earlier V).2 (.coin other)).1 = .symbol s ∧
          (serveAll earlier V).2.knowsSymbol s = false) ∧
      ∀ requests, (madeUp requests (serveAll requests V).1).Nodup := by
  obtain ⟨N, hfirst, hcoin⟩ := V.coin_spec hne
  have hbound := hfirst.le_add_symbolCount
  refine ⟨⟨N, _, hfirst.rounds (by omega), by omega, hfirst, hcoin, ?_, rfl⟩, ?_, ?_⟩
  · simp [name?, symbolCount]
  · intro earlier other hother
    obtain ⟨V', hserve, -⟩ := (serveAll earlier V).2.serve_coin hother
    exact ⟨_, by rw [hserve], by simp [knowsSymbol]⟩
  · intro requests
    exact (madeUp_serveAll requests V).2.imp fun hlt heq => hlt.ne (congrArg Symbol.id heq)

/-- Two names were made up, and a third was interned that reads like a made-up one. -/
def numberedNames : Vocabulary := (serveAll [.coin "x", .coin "x", .intern "G12"] empty).2

/-- The stem `G1` with the next number is the interned name, so there is a second round. -/
theorem coin_finds_unused_numberedNames :
    numberedNames.generated + numberedNames.symbolCount + 1 < 2 ^ 32 ∧
      numberedNames.Rounds "G1" 2 2 3 ∧
      numberedNames.coin "G1" =
        (.ok ⟨3⟩, { names := #["x0", "x1", "G12", "G13"], generated := 4 }) ∧
      (madeUp [.coin "G", .intern "G5", .coin "G"]
        (serveAll [.coin "G", .intern "G5", .coin "G"] numberedNames).1).Nodup := by
  have hnames : numberedNames = { names := #["x0", "x1", "G12"], generated := 2 } := by cbv
  have hcoin : numberedNames.coin "G1" =
      (.ok ⟨3⟩, { names := #["x0", "x1", "G12", "G13"], generated := 4 }) := by cbv
  have hword : numberedNames.generated + numberedNames.symbolCount + 1 < 2 ^ 32 := by
    rw [hnames]
    decide
  obtain ⟨⟨N, V', hrounds, -, -, hresult, -, rfl⟩, -, hnodup⟩ :=
    numberedNames.coin_finds_unused (show "G1" ≠ "" by decide) hword
  have hcounter : 4 = N + 1 :=
    congrArg generated (congrArg Prod.snd (hcoin.symm.trans hresult))
  obtain rfl : N = 3 := by omega
  have hgenerated : numberedNames.generated = 2 := congrArg generated hnames
  rw [hgenerated] at hrounds
  exact ⟨hword, hrounds, hcoin, hnodup _⟩

end Vocabulary

end HornResolution
