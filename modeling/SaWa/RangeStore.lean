import Mathlib.Data.List.GetD
import Mathlib.Data.Nat.Notation
import Mathlib.Order.Lattice
import Mathlib.Tactic.Common

/-! Ranges of cells. A memory is a total function of the address. A file is a list of cells;
it is compared with the memory that holds the filler `z` past its end, so that a fact about
ranges is proved once, for memories, and used for both. -/
namespace RangeStore

variable {α : Type*}

/-- The `n` cells from address `p` on. -/
def load (m : ℕ → α) (p n : ℕ) : List α := (List.range n).map fun i => m (p + i)

/-- The memory after the cells `d` are written from address `p` on. -/
def store (m : ℕ → α) (p : ℕ) (d : List α) : ℕ → α :=
  fun a => if p ≤ a then d.getD (a - p) (m a) else m a

/-- The ranges `[p, p + n)` and `[q, q + k)` have no cell in common. -/
def Apart (p n q k : ℕ) : Prop := n = 0 ∨ k = 0 ∨ p + n ≤ q ∨ q + k ≤ p

instance (p n q k : ℕ) : Decidable (Apart p n q k) :=
  inferInstanceAs (Decidable (_ = _ ∨ _ = _ ∨ _ ≤ _ ∨ _ ≤ _))

theorem apart_iff (p n q k : ℕ) :
    Apart p n q k ↔ ∀ a, p ≤ a → a < p + n → q ≤ a → ¬ a < q + k := by
  constructor
  · rintro h a _ _ _
    unfold Apart at h
    omega
  · intro h
    have hp := h p
    have hq := h q
    unfold Apart
    omega

theorem Apart.symm {p n q k : ℕ} (h : Apart p n q k) : Apart q k p n := by
  unfold Apart at *
  omega

section Load

@[simp] theorem length_load (m : ℕ → α) (p n : ℕ) : (load m p n).length = n := by simp [load]

@[simp] theorem load_zero (m : ℕ → α) (p : ℕ) : load m p 0 = [] := rfl

theorem getElem_load (m : ℕ → α) (p n i : ℕ) (hi : i < (load m p n).length) :
    (load m p n)[i] = m (p + i) := by simp [load]

theorem load_congr {m m' : ℕ → α} {p n : ℕ} (h : ∀ a, p ≤ a → a < p + n → m a = m' a) :
    load m p n = load m' p n := by
  apply List.ext_getElem (by simp)
  intro i hi _
  rw [length_load] at hi
  rw [getElem_load, getElem_load]
  exact h (p + i) (by omega) (by omega)

theorem load_inj {m m' : ℕ → α} {p n : ℕ} (h : load m p n = load m' p n) {a : ℕ} (hp : p ≤ a)
    (hn : a < p + n) : m a = m' a := by
  have hi : a - p < (load m p n).length := by rw [length_load]; omega
  have hc := List.getElem_of_eq h hi
  rw [getElem_load, getElem_load] at hc
  rwa [Nat.add_sub_cancel' hp] at hc

theorem load_add (m : ℕ → α) (p n k : ℕ) : load m p (n + k) = load m p n ++ load m (p + n) k := by
  simp [load, List.range_add, Nat.add_assoc]

theorem load_shift (m : ℕ → α) (q p n : ℕ) : load (fun i => m (q + i)) p n = load m (q + p) n := by
  simp [load, Nat.add_assoc]

theorem load_one (m : ℕ → α) (p : ℕ) : load m p 1 = [m p] := by simp [load]

theorem load_succ (m : ℕ → α) (p n : ℕ) : load m p (n + 1) = m p :: load m (p + 1) n := by
  rw [Nat.add_comm, load_add, load_one, List.singleton_append]

end Load

section Store

@[simp] theorem store_nil (m : ℕ → α) (p : ℕ) : store m p [] = m := by
  funext a
  simp [store]

theorem store_inside (m : ℕ → α) (p : ℕ) (d : List α) {a : ℕ} (hp : p ≤ a)
    (hd : a - p < d.length) : store m p d a = d[a - p] := by
  rw [store, if_pos hp, List.getD_eq_getElem _ _ hd]

theorem store_outside (m : ℕ → α) (p : ℕ) (d : List α) {a : ℕ}
    (h : p ≤ a → p + d.length ≤ a) : store m p d a = m a := by
  unfold store
  split_ifs with hp
  · exact List.getD_eq_default _ _ (by have := h hp; omega)
  · rfl

theorem store_cons (m : ℕ → α) (p : ℕ) (b : α) (d : List α) :
    store m p (b :: d) = store (Function.update m p b) (p + 1) d := by
  funext a
  by_cases ha : a = p
  · subst ha
    rw [store_inside m a _ le_rfl (by simp), store_outside _ _ _ (by omega)]
    simp
  · by_cases hin : p < a ∧ a - (p + 1) < d.length
    · obtain ⟨hp, hd⟩ := hin
      obtain ⟨k, hk⟩ := Nat.exists_eq_add_of_lt hp
      have hi : a - p = k + 1 := by omega
      have hj : a - (p + 1) = k := by omega
      rw [store_inside m p _ hp.le (by simp; omega), store_inside _ (p + 1) _ hp hd]
      simp [hi, hj]
    · rw [store_outside m p _ (by simp; omega), store_outside _ (p + 1) _ (by omega)]
      simp [ha]

theorem load_store_self (m : ℕ → α) (p : ℕ) (d : List α) : load (store m p d) p d.length = d := by
  apply List.ext_getElem (by simp)
  intro i _ hi
  rw [getElem_load, store_inside m p d (by omega) (by omega)]
  simp

theorem store_load_self (m : ℕ → α) (p n : ℕ) : store m p (load m p n) = m := by
  funext a
  by_cases h : p ≤ a ∧ a < p + n
  · have hd : a - p < (load m p n).length := by rw [length_load]; omega
    rw [store_inside m p _ h.1 hd, getElem_load, Nat.add_sub_cancel' h.1]
  · exact store_outside m p _ fun _ => by rw [length_load]; omega

theorem load_store_apart (m : ℕ → α) {p q n : ℕ} {d : List α} (h : Apart p d.length q n) :
    load (store m p d) q n = load m q n := by
  apply load_congr
  intro a hq hn
  apply store_outside
  intro hp
  by_contra hlt
  exact (apart_iff p d.length q n).mp h a hp (by omega) hq hn

/-- Stores to ranges without a common cell commute. -/
theorem store_comm_of_apart (m : ℕ → α) {p q : ℕ} {d e : List α}
    (h : Apart p d.length q e.length) :
    store (store m p d) q e = store (store m q e) p d := by
  funext a
  by_cases hq : q ≤ a ∧ a < q + e.length
  · have hp : p ≤ a → p + d.length ≤ a := by
      intro hp
      by_contra hlt
      exact (apart_iff _ _ _ _).mp h a hp (by omega) hq.1 hq.2
    rw [store_inside _ q e hq.1 (by omega), store_outside _ p d hp,
      store_inside _ q e hq.1 (by omega)]
  · rw [store_outside _ q e (by omega)]
    by_cases hp : p ≤ a ∧ a < p + d.length
    · rw [store_inside _ p d hp.1 (by omega), store_inside _ p d hp.1 (by omega)]
    · rw [store_outside _ p d (by omega), store_outside _ p d (by omega),
        store_outside _ q e (by omega)]

end Store

/-! ### Files -/

/-- The memory a file stands for, `z` at every address past its end. -/
def image (z : α) (l : List α) : ℕ → α := fun a => l.getD a z

/-- The at most `n` cells of a file from position `p` on. -/
def slice (l : List α) (p n : ℕ) : List α := (l.drop p).take n

/-- The file after `d` is written at position `p`; a gap before `p` is filled with `z`. -/
def patch (z : α) (l : List α) (p : ℕ) (d : List α) : List α :=
  if d.isEmpty then l
  else (l ++ List.replicate (p - l.length) z).take p ++ d ++ l.drop (p + d.length)

section File
variable (z : α)

theorem image_apply {l : List α} {a : ℕ} (ha : a < l.length) : image z l a = l[a] :=
  List.getD_eq_getElem _ _ ha

theorem load_image (l : List α) : load (image z l) 0 l.length = l := by
  apply List.ext_getElem (by simp)
  intro i _ hi
  rw [getElem_load, image_apply z (by omega)]
  simp

theorem file_ext {l l' : List α} (hl : l.length = l'.length) (hi : image z l = image z l') :
    l = l' := by
  rw [← load_image z l, ← load_image z l', hl, hi]

theorem length_slice {l : List α} {p n : ℕ} (h : p + n ≤ l.length) :
    (slice l p n).length = n := by
  simp only [slice, List.length_take, List.length_drop]
  omega

theorem length_slice_le (l : List α) (p n : ℕ) : (slice l p n).length ≤ n := by
  simp [slice]

/-- What there is of a range. -/
theorem slice_eq_load_min (l : List α) (p n : ℕ) :
    slice l p n = load (image z l) p (min n (l.length - p)) := by
  apply List.ext_getElem (by simp [slice])
  intro i hi _
  simp only [slice, List.length_take, List.length_drop] at hi
  rw [getElem_load, image_apply z (by omega)]
  simp [slice]

theorem slice_eq_load {l : List α} {p n : ℕ} (h : p + n ≤ l.length) :
    slice l p n = load (image z l) p n := by
  rw [slice_eq_load_min z, Nat.min_eq_left (by omega)]

theorem length_slice_eq_iff (l : List α) (p n : ℕ) :
    (slice l p n).length = n ↔ n = 0 ∨ p + n ≤ l.length := by
  simp only [slice, List.length_take, List.length_drop]
  omega

theorem slice_eq_load_of_full {l : List α} {p n : ℕ} (h : (slice l p n).length = n) :
    slice l p n = load (image z l) p n := by
  rcases (length_slice_eq_iff l p n).mp h with rfl | hle
  · rfl
  · exact slice_eq_load z hle

@[simp] theorem patch_nil (l : List α) (p : ℕ) : patch z l p [] = l := rfl

theorem patch_of_ne (l : List α) (p : ℕ) {d : List α} (hd : d ≠ []) :
    patch z l p d =
      (l ++ List.replicate (p - l.length) z).take p ++ d ++ l.drop (p + d.length) := by
  rw [patch, if_neg (by simpa using hd)]

private theorem length_gap (l : List α) (p : ℕ) :
    ((l ++ List.replicate (p - l.length) z).take p).length = p := by
  simp only [List.length_take, List.length_append, List.length_replicate]
  omega

theorem length_patch (l : List α) (p : ℕ) {d : List α} (hd : d ≠ []) :
    (patch z l p d).length = max l.length (p + d.length) := by
  rw [patch_of_ne z l p hd, List.length_append, List.length_append, length_gap,
    List.length_drop]
  omega

theorem length_patch_within {l : List α} {p : ℕ} {d : List α} (h : p + d.length ≤ l.length) :
    (patch z l p d).length = l.length := by
  by_cases hd : d = []
  · rw [hd, patch_nil]
  · rw [length_patch z l p hd]
    omega

theorem length_le_length_patch (l : List α) (p : ℕ) (d : List α) :
    l.length ≤ (patch z l p d).length := by
  by_cases hd : d = []
  · rw [hd, patch_nil]
  · rw [length_patch z l p hd]
    omega

/-- Writing to a file is storing to the memory it stands for. -/
theorem image_patch (l : List α) (p : ℕ) (d : List α) :
    image z (patch z l p d) = store (image z l) p d := by
  by_cases hd : d = []
  · rw [hd, patch_nil, store_nil]
  funext a
  rw [patch_of_ne z l p hd]
  have hg := length_gap z l p
  unfold image
  by_cases hp : p ≤ a
  · rw [List.append_assoc, List.getD_append_right _ _ _ _ (by omega), hg]
    by_cases hin : a - p < d.length
    · rw [List.getD_append _ _ _ _ hin, store_inside _ p d hp hin,
        List.getD_eq_getElem _ _ hin]
    · rw [List.getD_append_right _ _ _ _ (by omega), store_outside _ p d (by omega)]
      simp only [List.getD_eq_getElem?_getD, List.getElem?_drop]
      rw [show p + d.length + (a - p - d.length) = a by omega]
  · rw [List.append_assoc, List.getD_append _ _ _ _ (by omega), store_outside _ p d (by omega)]
    simp only [List.getD_eq_getElem?_getD, List.getElem?_take_of_lt (show a < p by omega)]
    by_cases hl : a < l.length
    · rw [List.getElem?_append_left hl]
    · rw [List.getElem?_append_right (by omega), List.getElem?_eq_none (by omega : l.length ≤ a)]
      simp only [List.getElem?_replicate]
      split_ifs <;> rfl

/-- Loading past the end of a stored list: the list, and after it what was there before. -/
theorem load_store_past (m : ℕ → α) {d : List α} {n : ℕ} (h : d.length ≤ n) :
    load (store m 0 d) 0 n = d ++ load m d.length (n - d.length) := by
  obtain ⟨k, rfl⟩ := Nat.exists_eq_add_of_le h
  have hrest : load (store m 0 d) (0 + d.length) k = load m d.length k := by
    rw [Nat.zero_add]
    exact load_congr fun a ha _ => store_outside m 0 d (by omega)
  rw [load_add, load_store_self, hrest, Nat.add_sub_cancel_left]

/-- Loading inside a freshly stored range reads the stored list. -/
theorem load_store_within (m : ℕ → α) {d : List α} {q n : ℕ} (h : q + n ≤ d.length) :
    load (store m 0 d) q n = slice d q n := by
  apply List.ext_getElem (by rw [length_load, length_slice h])
  intro i hi _
  rw [length_load] at hi
  rw [getElem_load, store_inside m 0 d (Nat.zero_le _) (by omega)]
  simp [slice]

theorem slice_patch_self {l : List α} {p : ℕ} {d : List α} (h : p + d.length ≤ l.length) :
    slice (patch z l p d) p d.length = d := by
  rw [slice_eq_load z (by rwa [length_patch_within z h]), image_patch, load_store_self]

theorem slice_patch_apart {l : List α} {p q n : ℕ} {d : List α} (hd : p + d.length ≤ l.length)
    (hn : q + n ≤ l.length) (h : Apart p d.length q n) :
    slice (patch z l p d) q n = slice l q n := by
  rw [slice_eq_load z (by rwa [length_patch_within z hd]), slice_eq_load z hn, image_patch,
    load_store_apart _ h]

end File
end RangeStore
