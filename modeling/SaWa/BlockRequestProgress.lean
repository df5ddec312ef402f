import SaWa.BlockRequestEngine

/-! Queued requests always have somebody to serve them. -/
namespace BlockRequestProgress

open GuardedRuns BlockRequestEngine

/-- A handler run that has not passed the test that lets it return. -/
def Running (h : Handler) : Prop := h = .looping ∨ (∃ ret, h = .ending ret) ∨ h = .testing

structure NotStranded (s : Engine) : Prop where
  queued : s.queue ≠ [] → s.currentReq ≠ none
  served : s.currentReq ≠ none → s.pending = true ∨ Running s.handler

structure Invariant (s : Engine) : Prop extends NotStranded s where
  queue_set : s.currentReq ≠ none → s.theQueue = true

section Step
variable {s t : Engine}

theorem invariant_initial : Invariant initial := by
  constructor
  · constructor <;> simp [initial]
  · simp [initial]

theorem invariant_called {rs q : List Request} (hi : Invariant s)
    (h : Called { s with queue := q, arrived := rs ++ s.arrived } t) : Invariant t := by
  cases h with
  | busy hc =>
    constructor
    · constructor
      · intro _
        exact hc
      · exact hi.served
    · intro _
      rfl
  | nothing hc hf ht =>
    constructor
    · constructor
      · exact hf.queued
      · intro hne
        exact absurd ht hne
    · intro _
      exact hf.unchanged.1
  | scheduled hc hf ht =>
    constructor
    · constructor
      · exact hf.queued
      · intro _
        exact Or.inl rfl
    · intro _
      exact hf.unchanged.1

theorem invariant_ended {ret : ℤ} {r : Request} (hs : s.theQueue = true) (h : Ended ret r s t) :
    Invariant t := by
  cases h with
  | more h =>
    constructor
    · constructor
      · intro _
        exact Option.some_ne_none _
      · intro _
        exact Or.inr (Or.inr (Or.inr rfl))
    · intro _
      exact hs
  | last h hf =>
    obtain ⟨hset, -, hhandler, -⟩ := hf.unchanged
    constructor
    · constructor
      · exact hf.queued
      · intro _
        exact Or.inr (Or.inr (Or.inr hhandler))
    · intro _
      exact hset.trans hs

theorem invariant_endSegment {ret : ℤ} (hi : Invariant s) : Invariant (endSegment ret s) := by
  cases hc : s.currentReq with
  | none =>
    have he : endSegment ret s = { s with handler := .nullUsed } := by simp [endSegment, hc]
    rw [he]
    constructor
    · constructor
      · exact hi.queued
      · intro hne
        exact absurd hc hne
    · exact hi.queue_set
  | some r =>
    have hs : s.theQueue = true := hi.queue_set (by simp [hc])
    exact invariant_ended hs (endSegment_ended hs hc)

theorem invariant_transfer {ret : ℤ} (hi : Invariant s) : Invariant (transfer ret s) := by
  cases hc : s.currentReq with
  | none =>
    have ht : transfer ret s = { s with handler := .nullUsed } := by simp [transfer, hc]
    rw [ht]
    constructor
    · constructor
      · exact hi.queued
      · intro hne
        exact absurd hc hne
    · exact hi.queue_set
  | some r =>
    constructor
    · constructor
      · simp [transfer, hc]
      · intro _
        exact Or.inr (Or.inr (Or.inl ⟨ret, by simp [transfer, hc]⟩))
    · intro _
      simpa [transfer, hc] using hi.queue_set (by simp [hc])

/-- The handler returns only where there is no current request, so it leaves nobody behind. -/
theorem invariant_test (hi : Invariant s) : Invariant (test s) := by
  constructor
  · constructor
    · exact hi.queued
    · intro hne
      have hc : s.currentReq ≠ none := hne
      exact Or.inr (Or.inl (by simp [test, hc]))
  · exact hi.queue_set

end Step

theorem invariant_next {s : Engine} (a : Action) (he : Enabled s a) (hi : Invariant s) :
    Invariant (next s a) := by
  cases a with
  | arrive rs q => exact invariant_called hi (blockdevRequest_called _)
  | start =>
    constructor
    · constructor
      · exact hi.queued
      · intro _
        exact Or.inr (Or.inl rfl)
    · exact hi.queue_set
  | transfer ret => exact invariant_transfer hi
  | endSegment =>
    obtain ⟨ret, hret⟩ := he
    have hn : next s .endSegment = endSegment ret s := by simp [next, hret]
    rw [hn]
    exact invariant_endSegment hi
  | test => exact invariant_test hi

theorem reachable_invariant {s : Engine} {ok : Engine → Action → Prop} (h : Reach engine ok s) :
    Invariant s := by
  apply h.invariant
  · rintro s rfl
    exact invariant_initial
  · intro s a he _ hi
    exact invariant_next a he hi

/-- In every state between two steps, of every interleaving. -/
theorem no_request_stranded {s : Engine} (h : Reachable engine s) : NotStranded s :=
  (reachable_invariant h).toNotStranded

def oneSegment (nb : ℕ) : Request := ⟨nb, .fs, true, [⟨8 * nb, 8, 0⟩], 0, by simp⟩

/-- A request arrives while the handler is between its locked section and its test. -/
theorem not_stranded_arrival_before_test :
    NotStranded (engine.run initial
      [.arrive [oneSegment 0] [oneSegment 0], .start, .transfer 0, .endSegment,
        .arrive [oneSegment 1] [oneSegment 1]]) := by
  apply no_request_stranded
  apply Reach.run (.start rfl)
  exact ⟨⟨by decide, .refl _⟩, trivial, ⟨rfl, rfl⟩, trivial, rfl, trivial, ⟨0, rfl⟩, trivial,
    ⟨by decide, .refl _⟩, trivial, trivial⟩

end BlockRequestProgress
