import SaWa.EffectProgram

/-! Threads that run finite programs over one shared state, each with a local state of its own,
interleaved one call at a time. A thread is verified alone: an invariant of the shared state is
all it knows of the others, and all it owes them. -/
namespace InterleavedPrograms

open EffectProgram

variable {ι : Type} {E : Type} {R : E → Type} {α β σ l : Type}

structure Threads (ι : Type) (E : Type) (R : E → Type) (α σ l : Type) where
  shared : σ
  here : ι → l
  rest : ι → Prog E R α

namespace Threads

variable [DecidableEq ι] (h : Handler E R (σ × l))

/-- Thread `i` makes its next call; a thread that has returned stays as it is. -/
def step (t : Threads ι E R α σ l) (i : ι) : Threads ι E R α σ l :=
  match t.rest i with
  | .ret _ => t
  | .call e k =>
    let (r, shared, c) := h e (t.shared, t.here i)
    { shared := shared
      here := Function.update t.here i c
      rest := Function.update t.rest i (k r) }

/-- The run in which the threads take their steps in the order given. -/
def runs (t : Threads ι E R α σ l) : List ι → Threads ι E R α σ l
  | [] => t
  | i :: is => (t.step h i).runs is

theorem runs_append (t : Threads ι E R α σ l) (is js : List ι) :
    t.runs h (is ++ js) = (t.runs h is).runs h js := by
  induction is generalizing t with
  | nil => rfl
  | cons i is ih => exact ih (t.step h i)

/-- The next call of thread `i` is made in a state that meets `Ok`. -/
def Meets (Ok : E → σ × l → Prop) (t : Threads ι E R α σ l) (i : ι) : Prop :=
  match t.rest i with
  | .ret _ => True
  | .call e _ => Ok e (t.shared, t.here i)

/-- So is every call of a run. -/
def AllMeet (Ok : E → σ × l → Prop) (t : Threads ι E R α σ l) : List ι → Prop
  | [] => True
  | i :: is => t.Meets Ok i ∧ (t.step h i).AllMeet Ok is

theorem allMeet_append (Ok : E → σ × l → Prop) (t : Threads ι E R α σ l) (is js : List ι) :
    t.AllMeet h Ok (is ++ js) ↔ t.AllMeet h Ok is ∧ (t.runs h is).AllMeet h Ok js := by
  induction is generalizing t with
  | nil => exact (iff_of_eq (true_and _)).symm
  | cons i is ih =>
    rw [List.cons_append, AllMeet, AllMeet, ih, and_assoc]
    rfl

theorem rest_step_of_ne (t : Threads ι E R α σ l) {i j : ι} (hij : j ≠ i) :
    (t.step h i).rest j = t.rest j := by
  unfold step
  cases t.rest i with
  | ret a => rfl
  | call e k => exact Function.update_of_ne hij _ _

theorem rest_runs_of_not_mem (t : Threads ι E R α σ l) {is : List ι} {j : ι} (hj : j ∉ is) :
    (t.runs h is).rest j = t.rest j := by
  induction is generalizing t with
  | nil => rfl
  | cons i is ih =>
    obtain ⟨hji, hjs⟩ := not_or.mp (List.mem_cons.not.mp hj)
    rw [runs, ih _ hjs, rest_step_of_ne h t hji]

end Threads

section Safe
variable (h : Handler E R (σ × l)) (I : σ → Prop) (Ok : E → σ × l → Prop) (P : l → Prop)

/-- From the local state given, the program keeps the shared invariant `I` and its own `P` at
every call, whatever the others do to the shared state between two calls, and returns with `Q`.
Calls are taken to be made in states that meet `Ok`. -/
def Safe (Q : α → l → Prop) : Prog E R α → l → Prop
  | .ret a, c => P c ∧ Q a c
  | .call e k, c => P c ∧ ∀ s, I s → Ok e (s, c) →
      I (h e (s, c)).2.1 ∧ Safe Q (k (h e (s, c)).1) (h e (s, c)).2.2

variable {h I Ok P} {Q : α → l → Prop} {c : l}

theorem Safe.here {p : Prog E R α} (hs : Safe h I Ok P Q p c) : P c := by
  cases p with
  | ret => exact hs.1
  | call => exact hs.1

theorem safe_ret {a : α} (hp : P c) (hq : Q a c) :
    Safe h I Ok P Q (.ret a : Prog E R α) c := ⟨hp, hq⟩

theorem safe_call {e : E} {k : R e → Prog E R α} (hp : P c)
    (hI : ∀ s, I s → Ok e (s, c) → I (h e (s, c)).2.1)
    (hk : ∀ s, I s → Ok e (s, c) → Safe h I Ok P Q (k (h e (s, c)).1) (h e (s, c)).2.2) :
    Safe h I Ok P Q (.call e k) c :=
  ⟨hp, fun s hs hok => ⟨hI s hs hok, hk s hs hok⟩⟩

theorem safe_bind {Q' : β → l → Prop} {f : α → Prog E R β} {p : Prog E R α}
    (hp : Safe h I Ok P Q p c) (hf : ∀ a c', Q a c' → Safe h I Ok P Q' (f a) c') :
    Safe h I Ok P Q' (p >>= f) c := by
  induction p generalizing c with
  | ret a => exact hf a c hp.2
  | call e k ih =>
    apply safe_call hp.1
    · intro s hs hok
      exact (hp.2 s hs hok).1
    · intro s hs hok
      exact ih _ (hp.2 s hs hok).2

end Safe

section Runs
variable {h : Handler E R (σ × l)} {I : σ → Prop} {Ok : E → σ × l → Prop} {P : ι → l → Prop}
  {Q : ι → α → l → Prop} {t : Threads ι E R α σ l}

/-- The shared invariant holds, and every thread is safe from where it is. -/
structure AllSafe (h : Handler E R (σ × l)) (I : σ → Prop) (Ok : E → σ × l → Prop)
    (P : ι → l → Prop) (Q : ι → α → l → Prop) (t : Threads ι E R α σ l) : Prop where
  shared : I t.shared
  threads : ∀ i, Safe h I Ok (P i) (Q i) (t.rest i) (t.here i)

/-- A thread that has returned has kept its promise. -/
theorem AllSafe.returned (hs : AllSafe h I Ok P Q t) {i : ι} {a : α} (hp : t.rest i = .ret a) :
    Q i a (t.here i) := by
  have hi := hs.threads i
  rw [hp] at hi
  exact hi.2

variable [DecidableEq ι]

theorem allSafe_step (hs : AllSafe h I Ok P Q t) {i : ι} (hok : t.Meets Ok i) :
    AllSafe h I Ok P Q (t.step h i) := by
  unfold Threads.Meets at hok
  unfold Threads.step
  cases hp : t.rest i with
  | ret a => exact hs
  | call e k =>
    have hi := hs.threads i
    rw [hp] at hi hok
    obtain ⟨hI, hk⟩ := hi.2 t.shared hs.shared hok
    constructor
    · exact hI
    · intro j
      by_cases hj : j = i
      · subst hj
        simpa using hk
      · simpa [hj] using hs.threads j

/-- Threads that are safe alone are safe together. -/
theorem allSafe_runs (hs : AllSafe h I Ok P Q t) {is : List ι} (hok : t.AllMeet h Ok is) :
    AllSafe h I Ok P Q (t.runs h is) := by
  induction is generalizing t with
  | nil => exact hs
  | cons i is ih => exact ih (allSafe_step hs hok.1) hok.2

end Runs

end InterleavedPrograms
