import Mathlib.Logic.Function.Basic
import SaWa.RangeStore

/-! A file behind a stream that keeps some of the cells written to it in a buffer of its own,
until it is moved or closed. The stream shows the buffer over the file; the file alone is what
is left when the stream is lost. -/
namespace BufferedFile

open RangeStore

variable {α : Type*}

structure Stream (α : Type*) where
  length : ℕ
  cell : ℕ → α
  pos : ℕ
  kept : ℕ → Option α
  keptEnd : ℕ
  kept_lt : ∀ a b, kept a = some b → a < keptEnd

namespace Stream

/-- The file itself. -/
def stored (s : Stream α) (a : ℕ) : Option α := if a < s.length then some (s.cell a) else none

def view (s : Stream α) (a : ℕ) : Option α := (s.kept a).or (s.stored a)

/-- Nothing has been kept since the last flush. -/
def Clean (s : Stream α) : Prop := s.keptEnd = 0

def opened (z : α) (l : List α) : Stream α where
  length := l.length
  cell := image z l
  pos := 0
  kept _ := none
  keptEnd := 0
  kept_lt _ _ h := by cases h

/-- One cell, kept in the buffer or passed on to the file. -/
def put (s : Stream α) (b : α) : Bool → Stream α
  | true =>
    { s with
      pos := s.pos + 1
      kept := Function.update s.kept s.pos (some b)
      keptEnd := max s.keptEnd (s.pos + 1)
      kept_lt := by
        intro a c h
        by_cases ha : a = s.pos
        · omega
        · have := s.kept_lt a c (by simpa [ha] using h)
          omega }
  | false =>
    { s with
      pos := s.pos + 1
      length := max s.length (s.pos + 1)
      cell := Function.update s.cell s.pos b
      kept := Function.update s.kept s.pos none
      kept_lt := by
        intro a c h
        by_cases ha : a = s.pos
        · simp [ha] at h
        · exact s.kept_lt a c (by simpa [ha] using h) }

/-- `keep i` says whether the `i`th cell stays in the buffer. -/
def write (s : Stream α) (keep : ℕ → Bool) : List α → Stream α
  | [] => s
  | b :: bs => (s.put b (keep 0)).write (fun i => keep (i + 1)) bs

def flush (s : Stream α) : Stream α where
  length := max s.length s.keptEnd
  cell a := (s.kept a).getD (s.cell a)
  pos := s.pos
  kept _ := none
  keptEnd := 0
  kept_lt _ _ h := by cases h

def seek (s : Stream α) (p : ℕ) : Stream α := { s.flush with pos := p }

def readCells (s : Stream α) (n : ℕ) : List α := load s.cell s.pos (min n (s.length - s.pos))

def read (s : Stream α) (n : ℕ) : Stream α := { s with pos := s.pos + (s.readCells n).length }

end Stream

/-- What a list of cells written at `p` puts at `a`. -/
def written (p : ℕ) (bs : List α) (a : ℕ) : Option α := if p ≤ a then bs[a - p]? else none

@[simp] theorem written_nil (p a : ℕ) : written p ([] : List α) a = none := by simp [written]

theorem written_before {p a : ℕ} (h : a < p) (bs : List α) : written p bs a = none := by
  simp [written, h]

theorem written_cons_self (p : ℕ) (b : α) (bs : List α) : written p (b :: bs) p = some b := by
  simp [written]

theorem written_cons_of_ne {p a : ℕ} (h : a ≠ p) (b : α) (bs : List α) :
    written p (b :: bs) a = written (p + 1) bs a := by
  unfold written
  by_cases hp : p + 1 ≤ a
  · obtain ⟨k, rfl⟩ : ∃ k, a = p + 1 + k := ⟨a - (p + 1), by omega⟩
    have hk : p + 1 + k - p = k + 1 := by omega
    have hle : p ≤ p + 1 + k := by omega
    simp [hk, hle]
  · have hlt : ¬ p ≤ a := by omega
    simp [hp, hlt]

variable {s : Stream α} {a : ℕ} {b c : α}

theorem stored_eq_some : s.stored a = some c ↔ a < s.length ∧ s.cell a = c := by
  simp [Stream.stored]

theorem view_of_kept_none (h : s.kept a = none) : s.view a = s.stored a := by
  simp [Stream.view, h]

theorem view_eq_some :
    s.view a = some c ↔ s.kept a = some c ∨ s.kept a = none ∧ s.stored a = some c := by
  simp [Stream.view]

/-! ### Flushing -/

theorem clean_opened (z : α) (l : List α) : (Stream.opened z l).Clean := rfl

theorem clean_flush (s : Stream α) : s.flush.Clean := rfl

theorem clean_seek (s : Stream α) (p : ℕ) : (s.seek p).Clean := rfl

theorem Stream.Clean.kept_eq (h : s.Clean) (a : ℕ) : s.kept a = none := by
  cases hk : s.kept a with
  | none => rfl
  | some b =>
    have hlt := s.kept_lt a b hk
    rw [h] at hlt
    omega

theorem Stream.Clean.length_flush (h : s.Clean) : s.flush.length = s.length := by
  have hk : s.keptEnd = 0 := h
  simp [Stream.flush, hk]

theorem Stream.Clean.cell_flush (h : s.Clean) : s.flush.cell = s.cell := by
  funext a
  simp [Stream.flush, h.kept_eq a]

/-- A flush loses nothing of what the stream shows. -/
theorem view_flush (h : s.view a = some c) : s.flush.view a = some c := by
  rw [view_of_kept_none ((clean_flush s).kept_eq a), stored_eq_some]
  rcases view_eq_some.mp h with hk | ⟨hk, hs⟩
  · have hlt := s.kept_lt a c hk
    simp [Stream.flush, hk, hlt]
  · rcases stored_eq_some.mp hs with ⟨hlt, hc⟩
    simp [Stream.flush, hk, hlt, hc]

theorem view_seek (p : ℕ) (h : s.view a = some c) : (s.seek p).view a = some c := view_flush h

/-! ### Writing -/

theorem view_put_self (s : Stream α) (b : α) (k : Bool) : (s.put b k).view s.pos = some b := by
  cases k <;> simp [Stream.put, Stream.view, Stream.stored]

theorem kept_put_of_ne (k : Bool) (ha : a ≠ s.pos) : (s.put b k).kept a = s.kept a := by
  cases k <;> simp [Stream.put, ha]

theorem view_put_of_ne (k : Bool) (ha : a ≠ s.pos) (h : s.view a = some c) :
    (s.put b k).view a = some c := by
  rw [view_eq_some, kept_put_of_ne k ha]
  rcases view_eq_some.mp h with hk | ⟨hk, hs⟩
  · exact Or.inl hk
  · refine Or.inr ⟨hk, ?_⟩
    rcases stored_eq_some.mp hs with ⟨hlt, hc⟩
    cases k <;> simp [Stream.put, Stream.stored, ha, hlt, hc]

@[simp] theorem pos_put (s : Stream α) (b : α) (k : Bool) : (s.put b k).pos = s.pos + 1 := by
  cases k <;> rfl

theorem view_write_outside {bs : List α} (keep : ℕ → Bool) (h : written s.pos bs a = none)
    (hv : s.view a = some c) : (s.write keep bs).view a = some c := by
  induction bs generalizing s keep with
  | nil => exact hv
  | cons b bs ih =>
    have ha : a ≠ s.pos := by
      rintro rfl
      rw [written_cons_self] at h
      cases h
    rw [written_cons_of_ne ha] at h
    apply ih
    · rwa [pos_put]
    · exact view_put_of_ne _ ha hv

/-- Kept or passed on, the cells written are what the stream shows. -/
theorem view_write_inside {bs : List α} (keep : ℕ → Bool) (h : written s.pos bs a = some c) :
    (s.write keep bs).view a = some c := by
  induction bs generalizing s keep with
  | nil =>
    rw [written_nil] at h
    cases h
  | cons b bs ih =>
    by_cases ha : a = s.pos
    · subst ha
      rw [written_cons_self, Option.some_inj] at h
      subst h
      have hself := view_put_self s b (keep 0)
      exact view_write_outside (s := s.put b (keep 0)) _ (written_before (by simp) bs) hself
    · rw [written_cons_of_ne ha] at h
      apply ih
      rwa [pos_put]

/-- A write leaves in the buffer nothing but cells of its own and what was there. -/
theorem kept_write {bs : List α} (keep : ℕ → Bool) (h : (s.write keep bs).kept a = some c) :
    written s.pos bs a = some c ∨ s.kept a = some c := by
  induction bs generalizing s keep with
  | nil => exact Or.inr h
  | cons b bs ih =>
    rcases ih _ h with hw | hk
    · left
      rw [pos_put] at hw
      have ha : a ≠ s.pos := by
        rintro rfl
        rw [written_before (Nat.lt_succ_self _)] at hw
        cases hw
      rwa [written_cons_of_ne ha]
    · by_cases ha : a = s.pos
      · left
        subst ha
        rw [written_cons_self]
        cases hb : keep 0 <;> simp [Stream.put, hb] at hk
        rw [hk]
      · right
        rwa [kept_put_of_ne _ ha] at hk

/-- A write that passes everything on leaves a clean stream clean. -/
theorem clean_write (h : s.Clean) (bs : List α) : (s.write (fun _ => false) bs).Clean := by
  induction bs generalizing s with
  | nil => exact h
  | cons b bs ih => exact ih h

/-- A write that is kept whole does not reach the file. -/
theorem length_write_kept (s : Stream α) (bs : List α) :
    (s.write (fun _ => true) bs).length = s.length := by
  induction bs generalizing s with
  | nil => rfl
  | cons b bs ih => exact ih (s.put b true)

theorem cell_write_kept (s : Stream α) (bs : List α) :
    (s.write (fun _ => true) bs).cell = s.cell := by
  induction bs generalizing s with
  | nil => rfl
  | cons b bs ih => exact ih (s.put b true)

/-! ### What a flush makes of a write -/

theorem pos_write (s : Stream α) (keep : ℕ → Bool) (bs : List α) :
    (s.write keep bs).pos = s.pos + bs.length := by
  induction bs generalizing s keep with
  | nil => rfl
  | cons b bs ih =>
    rw [Stream.write, ih, pos_put, List.length_cons]
    omega

theorem cell_flush_put (s : Stream α) (b : α) (k : Bool) :
    (s.put b k).flush.cell = Function.update s.flush.cell s.pos b := by
  funext a
  by_cases ha : a = s.pos
  · cases k <;> simp [Stream.put, Stream.flush, ha]
  · cases k <;> simp [Stream.put, Stream.flush, ha]

theorem length_flush_put (s : Stream α) (b : α) (k : Bool) :
    (s.put b k).flush.length = max s.flush.length (s.pos + 1) := by
  cases k <;> simp only [Stream.put, Stream.flush] <;> omega

/-- Kept or not, the cells written are stored in the end. -/
theorem cell_flush_write (s : Stream α) (keep : ℕ → Bool) (bs : List α) :
    (s.write keep bs).flush.cell = store s.flush.cell s.pos bs := by
  induction bs generalizing s keep with
  | nil => simp [Stream.write]
  | cons b bs ih => rw [Stream.write, ih, cell_flush_put, pos_put, store_cons]

theorem length_flush_write (s : Stream α) (keep : ℕ → Bool) {bs : List α} (h : bs ≠ []) :
    (s.write keep bs).flush.length = max s.flush.length (s.pos + bs.length) := by
  induction bs generalizing s keep with
  | nil => exact absurd rfl h
  | cons b bs ih =>
    rw [Stream.write, List.length_cons]
    rcases eq_or_ne bs [] with rfl | hne
    · exact length_flush_put s b (keep 0)
    · rw [ih _ _ hne, length_flush_put, pos_put]
      omega

end BufferedFile
