import SaWa.LexicalPaths

/-! Directories as a graph: what is on a filesystem has an identity, and a directory leads from
names to identities. A path is followed step by step, through directories only. -/
namespace FileTree

open LexicalPaths

variable {ι α : Type*}

structure Directory (ι α : Type*) where
  entry : α → Option ι
  parent : ι

/-- From the directory `d` with the identity `i`. -/
def Directory.follow (d : Directory ι α) (i : ι) : Step α → Option ι
  | .here => some i
  | .up => some d.parent
  | .name a => d.entry a

/-- `dirs` has the directories that may be gone through. -/
def follow (dirs : ι → Option (Directory ι α)) (i : ι) (c : Step α) : Option ι :=
  (dirs i).bind fun d => d.follow i c

def reach (dirs : ι → Option (Directory ι α)) (i : ι) : List (Step α) → Option ι
  | [] => some i
  | c :: steps => (follow dirs i c).bind fun j => reach dirs j steps

variable {dirs dirs' : ι → Option (Directory ι α)} {i j : ι}

theorem reach_append (l m : List (Step α)) :
    reach dirs i (l ++ m) = (reach dirs i l).bind fun j => reach dirs j m := by
  induction l generalizing i with
  | nil => rfl
  | cons c l ih =>
    rw [List.cons_append, reach, reach, Option.bind_assoc]
    congr 1
    funext k
    exact ih

theorem reach_single (c : Step α) : reach dirs i [c] = follow dirs i c := by
  simp [reach]

/-- A step that stays goes through the directory, as the name behind it does. -/
theorem reach_here_name (k : ℕ) (a : α) :
    reach dirs i (List.replicate k .here ++ [.name a]) = follow dirs i (.name a) := by
  induction k with
  | zero => exact reach_single _
  | succ k ih =>
    rw [List.replicate_succ, List.cons_append, reach, follow, follow]
    cases h : dirs i with
    | none => rfl
    | some d =>
      rw [Option.bind_some, Directory.follow, Option.bind_some, ih, follow, h]

/-- More directories lead nowhere else. -/
theorem reach_mono (hdirs : ∀ k d, dirs k = some d → dirs' k = some d) {l : List (Step α)}
    (h : reach dirs i l = some j) : reach dirs' i l = some j := by
  induction l generalizing i with
  | nil => exact h
  | cons c l ih =>
    obtain ⟨k, hk, hj⟩ := Option.bind_eq_some_iff.mp h
    obtain ⟨d, hd, hc⟩ := Option.bind_eq_some_iff.mp hk
    have hfollow : follow dirs' i c = some k := by
      rw [follow, hdirs i d hd]
      exact hc
    rw [reach, hfollow]
    exact ih hj

end FileTree
