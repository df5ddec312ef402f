import Mathlib.Data.List.DropRight

/-! Paths as steps from a directory: `.` and `..` are resolved by name alone, and what a whole
path does is known from the levels it climbs and the names it leaves. -/
namespace LexicalPaths

variable {α : Type*}

inductive Step (α : Type*) where
  | here
  | up
  | name (a : α)
  deriving DecidableEq, Repr

/-- A directory is the list of its names from the root; the root is its own parent. -/
def enter (dir : List α) : Step α → List α
  | .here => dir
  | .up => dir.dropLast
  | .name a => dir ++ [a]

def walk (dir : List α) (steps : List (Step α)) : List α := steps.foldl enter dir

/-- Levels climbed above the start, and the names entered below that. -/
structure Reduced (α : Type*) where
  ups : ℕ
  names : List α
  deriving DecidableEq, Repr

def Reduced.enter (r : Reduced α) : Step α → Reduced α
  | .here => r
  | .up =>
    if r.names = [] then { r with ups := r.ups + 1 } else { r with names := r.names.dropLast }
  | .name a => { r with names := r.names ++ [a] }

def reduce (steps : List (Step α)) : Reduced α := steps.foldl Reduced.enter ⟨0, []⟩

theorem walk_append (dir : List α) (l m : List (Step α)) :
    walk dir (l ++ m) = walk (walk dir l) m := List.foldl_append

theorem rdrop_succ (dir : List α) (n : ℕ) : (dir.rdrop n).dropLast = dir.rdrop (n + 1) := by
  rw [List.rdrop, List.rdrop, List.dropLast_eq_take, List.take_take, List.length_take]
  congr 1
  omega

/-- One step keeps the two descriptions of where the walk is together. -/
theorem enter_reduced (dir : List α) (r : Reduced α) (c : Step α) :
    enter (dir.rdrop r.ups ++ r.names) c = dir.rdrop (r.enter c).ups ++ (r.enter c).names := by
  cases c with
  | here => rfl
  | up =>
    by_cases h : r.names = []
    · simp [enter, Reduced.enter, h, rdrop_succ]
    · simp [enter, Reduced.enter, h, List.dropLast_append_of_ne_nil]
  | name a => simp [enter, Reduced.enter]

theorem walk_eq (dir : List α) (steps : List (Step α)) :
    walk dir steps = dir.rdrop (reduce steps).ups ++ (reduce steps).names := by
  have haux : ∀ (r : Reduced α), walk (dir.rdrop r.ups ++ r.names) steps =
      dir.rdrop (steps.foldl Reduced.enter r).ups ++ (steps.foldl Reduced.enter r).names := by
    induction steps with
    | nil =>
      intro r
      rfl
    | cons c steps ih =>
      intro r
      rw [walk, List.foldl_cons, enter_reduced, List.foldl_cons]
      exact ih (r.enter c)
  simpa [reduce] using haux ⟨0, []⟩

/-- From the child `a` of `base`, a path stays under the child `t`: it never leaves a child that
is `t` itself, or after climbing `k` levels above `base` it names its way back. -/
def Reduced.Within (base : List α) (t a : α) (r : Reduced α) : Prop :=
  match r.ups with
  | 0 => a = t
  | k + 1 => base.rtake k ++ [t] <+: r.names

theorem prefix_walk_iff (base : List α) (t a : α) (steps : List (Step α)) :
    base ++ [t] <+: walk (base ++ [a]) steps ↔ (reduce steps).Within base t a := by
  rw [walk_eq, Reduced.Within]
  cases hups : (reduce steps).ups with
  | zero =>
    rw [List.rdrop_zero, List.append_assoc, List.prefix_append_right_inj]
    simp [List.cons_prefix_cons, eq_comm]
  | succ k =>
    rw [List.rdrop_concat_succ]
    have hsplit : base ++ [t] = base.rdrop k ++ (base.rtake k ++ [t]) := by
      rw [← List.append_assoc, List.rdrop, List.rtake, List.take_append_drop]
    rw [hsplit, List.prefix_append_right_inj]

end LexicalPaths
