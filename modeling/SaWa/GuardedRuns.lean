import Mathlib.Init

/-! Runs of a transition system, and runs that take only the steps a guard lets through. -/
namespace GuardedRuns

structure System (σ ε : Type*) where
  start : σ → Prop
  enabled : σ → ε → Prop
  next : σ → ε → σ

variable {σ ε : Type*}

/-- States of the runs whose steps all meet `ok`, each in the state it is taken from. -/
inductive Reach (M : System σ ε) (ok : σ → ε → Prop) : σ → Prop where
  | start {s} (h : M.start s) : Reach M ok s
  | next {s} (e : ε) (r : Reach M ok s) (he : M.enabled s e) (hok : ok s e) :
      Reach M ok (M.next s e)

abbrev Reachable (M : System σ ε) : σ → Prop := Reach M fun _ _ => True

def System.run (M : System σ ε) (s : σ) (es : List ε) : σ := es.foldl M.next s

/-- Every step of `es` is enabled and meets `ok` where it is taken. -/
def System.Runs (M : System σ ε) (ok : σ → ε → Prop) : σ → List ε → Prop
  | _, [] => True
  | s, e :: es => M.enabled s e ∧ ok s e ∧ M.Runs ok (M.next s e) es

variable {M : System σ ε} {ok : σ → ε → Prop} {s : σ}

theorem Reach.invariant {I : σ → Prop} (h : Reach M ok s) (hstart : ∀ s, M.start s → I s)
    (hnext : ∀ s e, M.enabled s e → ok s e → I s → I (M.next s e)) : I s := by
  induction h with
  | start h => exact hstart _ h
  | next e _ he hok ih => exact hnext _ e he hok ih

theorem Reach.run (h : Reach M ok s) {es : List ε} (hes : M.Runs ok s es) :
    Reach M ok (M.run s es) := by
  induction es generalizing s with
  | nil => exact h
  | cons e es ih => exact ih (.next e h hes.1 hes.2.1) hes.2.2

theorem System.Runs.mono {ok' : σ → ε → Prop} {es : List ε} (hes : M.Runs ok s es)
    (h : ∀ s, ∀ e ∈ es, ok s e → ok' s e) : M.Runs ok' s es := by
  induction es generalizing s with
  | nil => trivial
  | cons e es ih =>
    rcases hes with ⟨he, hok, hes⟩
    refine ⟨he, h s e List.mem_cons_self hok, ih hes fun s e he => ?_⟩
    exact h s e (List.mem_cons_of_mem _ he)

/-- What every step keeps of the steps taken so far and the state they lead to. -/
theorem System.Runs.invariant {I : List ε → σ → Prop}
    (hnext : ∀ done s e, M.enabled s e → ok s e → I done s → I (done ++ [e]) (M.next s e))
    {es : List ε} (hes : M.Runs ok s es) {done : List ε} (hs : I done s) :
    I (done ++ es) (M.run s es) := by
  induction es generalizing s done with
  | nil => simpa [System.run] using hs
  | cons e es ih =>
    rcases hes with ⟨he, hok, hes⟩
    have hstep := ih hes (hnext done s e he hok hs)
    simpa [System.run] using hstep

end GuardedRuns
