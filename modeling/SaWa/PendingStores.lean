import SaWa.RangeStore

/-! Stores that are still to be made. A sequence of them has one outcome, which stays the same
when the store made first overlaps none of those before it in the sequence. -/
namespace RangeStore

variable {α : Type*}

structure Update (α : Type*) where
  pos : ℕ
  data : List α
  deriving DecidableEq, Repr

/-- The update touches none of the `n` cells from `p` on. -/
def Update.ApartFrom (u : Update α) (p n : ℕ) : Prop := Apart u.pos u.data.length p n

/-- The memory after updates made in the order given. -/
def storeAll : (ℕ → α) → List (Update α) → ℕ → α
  | m, [] => m
  | m, u :: us => storeAll (store m u.pos u.data) us

theorem storeAll_append (m : ℕ → α) (us vs : List (Update α)) :
    storeAll m (us ++ vs) = storeAll (storeAll m us) vs := by
  induction us generalizing m with
  | nil => rfl
  | cons u us ih => exact ih _

/-- An update may be made ahead of those before it when it overlaps none of them. -/
theorem storeAll_ahead (m : ℕ → α) {us : List (Update α)} {v : Update α}
    (h : ∀ u ∈ us, u.ApartFrom v.pos v.data.length) (vs : List (Update α)) :
    storeAll (store m v.pos v.data) (us ++ vs) = storeAll m (us ++ v :: vs) := by
  induction us generalizing m with
  | nil => rfl
  | cons u us ih =>
    rcases List.forall_mem_cons.mp h with ⟨hu, hus⟩
    have hcomm := store_comm_of_apart m (d := u.data) (e := v.data) hu
    rw [List.cons_append, List.cons_append, storeAll, storeAll, ← hcomm]
    exact ih _ hus

/-- Cells that no update touches keep what they hold. -/
theorem load_storeAll_apart (m : ℕ → α) {us : List (Update α)} {p n : ℕ}
    (h : ∀ u ∈ us, u.ApartFrom p n) : load (storeAll m us) p n = load m p n := by
  induction us generalizing m with
  | nil => rfl
  | cons u us ih =>
    rcases List.forall_mem_cons.mp h with ⟨hu, hus⟩
    rw [storeAll, ih _ hus]
    exact load_store_apart m hu

end RangeStore
