import Mathlib.Data.List.Nodup

/-! Runs of a step relation that have to end, because every step brings a rank down. The rank of a
system of many parties is a total over the parties. -/
namespace RankedRuns

variable {σ α : Type}

/-- A run of so many steps. -/
inductive Steps (step : σ → σ → Prop) (s : σ) : ℕ → σ → Prop where
  | refl : Steps step s 0 s
  | tail {n t u} (h : Steps step s n t) (hstep : step t u) : Steps step s (n + 1) u

def Final (step : σ → σ → Prop) (s : σ) : Prop := ∀ t, ¬ step s t

section Rank
variable {step : σ → σ → Prop} {I : σ → Prop} {rank : σ → ℕ} {s t : σ} {n : ℕ}

theorem Steps.keeps (hI : ∀ s t, I s → step s t → I t) (hs : I s) (h : Steps step s n t) : I t := by
  induction h with
  | refl => exact hs
  | tail _ hstep ih => exact hI _ _ ih hstep

theorem Steps.le_rank (hI : ∀ s t, I s → step s t → I t)
    (hrank : ∀ s t, I s → step s t → rank t < rank s) (hs : I s) (h : Steps step s n t) :
    n + rank t ≤ rank s := by
  induction h with
  | refl => exact Nat.le_of_eq (Nat.zero_add _)
  | tail h hstep ih =>
    have hlt := hrank _ _ (h.keeps hI hs) hstep
    omega

/-- Where runs are not longer than `k`, one that is not at its end yet can be taken there. -/
theorem exists_final_of_bound {k : ℕ} (hk : ∀ n t, Steps step s n t → n ≤ k) :
    ∃ n t, Steps step s n t ∧ Final step t := by
  by_contra hnone
  have hlong : ∀ n, ∃ t, Steps step s n t := by
    intro n
    induction n with
    | zero => exact ⟨s, .refl⟩
    | succ n ih =>
      obtain ⟨t, ht⟩ := ih
      have hgo : ¬ Final step t := fun hend => hnone ⟨n, t, ht, hend⟩
      obtain ⟨u, hu⟩ := not_forall_not.mp hgo
      exact ⟨u, ht.tail hu⟩
  obtain ⟨t, ht⟩ := hlong (k + 1)
  have hle := hk _ t ht
  omega

theorem exists_final (hI : ∀ s t, I s → step s t → I t)
    (hrank : ∀ s t, I s → step s t → rank t < rank s) (hs : I s) :
    ∃ n t, Steps step s n t ∧ Final step t := by
  apply exists_final_of_bound (k := rank s)
  intro n t ht
  have hle := ht.le_rank hI hrank hs
  omega

end Rank

/-! ### Totals -/

def total (f : α → ℕ) : List α → ℕ
  | [] => 0
  | a :: l => f a + total f l

section Total
variable {f g : α → ℕ} {l : List α}

theorem total_mono (h : ∀ b ∈ l, g b ≤ f b) : total g l ≤ total f l := by
  induction l with
  | nil => exact Nat.le_refl 0
  | cons b l ih =>
    have hb := h b List.mem_cons_self
    have hl := ih fun c hc => h c (List.mem_cons_of_mem b hc)
    exact Nat.add_le_add hb hl

theorem total_lt {a : α} (h : ∀ b ∈ l, g b ≤ f b) (ha : a ∈ l) (hlt : g a < f a) :
    total g l < total f l := by
  induction l with
  | nil => cases ha
  | cons b l ih =>
    have hb := h b List.mem_cons_self
    have hrest : ∀ c ∈ l, g c ≤ f c := fun c hc => h c (List.mem_cons_of_mem b hc)
    rcases List.mem_cons.mp ha with rfl | ha
    · exact Nat.add_lt_add_of_lt_of_le hlt (total_mono hrest)
    · exact Nat.add_lt_add_of_le_of_lt hb (ih hrest ha)

/-- One party at most gains `k`. -/
theorem total_le_add (a : α) (hl : l.Nodup) {k : ℕ} (hother : ∀ b, b ≠ a → g b ≤ f b)
    (ha : g a ≤ f a + k) : total g l ≤ total f l + k := by
  induction l with
  | nil => exact Nat.zero_le _
  | cons b l ih =>
    obtain ⟨hb, hl⟩ := List.nodup_cons.mp hl
    by_cases hba : b = a
    · subst hba
      have hrest : total g l ≤ total f l :=
        total_mono fun c hc => hother c fun hcb => hb (hcb ▸ hc)
      simp only [total]
      omega
    · have hhead := hother b hba
      have htail := ih hl
      simp only [total]
      omega

end Total

end RankedRuns
