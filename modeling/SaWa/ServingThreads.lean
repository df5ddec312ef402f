import SaWa.InterleavedPrograms
import SaWa.Linearizability

/-! Threads that serve the clients of a shared object, each with a client of its own. A thread is
verified alone: every call it makes is a step of the object for its client, or changes nothing of
the object. The threads together then give histories that are linearizable. -/
namespace ServingThreads

open EffectProgram InterleavedPrograms Linearizability

variable {ι E : Type} {R : E → Type} {α β σ l Op Ret St : Type}

/-- The shared state, with what has been seen of the threads: the ends of their operations, and
whether every call was made in a state that it may be made in. -/
structure Observed (ι σ Op Ret : Type) where
  state : σ
  history : History ι Op Ret
  undisturbed : Bool

section Observing
variable (h : Handler E R (σ × l)) (event : E → Option (Event Op Ret)) (ok : E → σ × l → Bool)

/-- The calls as `h` answers them. Each thread knows which client it serves. -/
def observing : Handler E R (Observed ι σ Op Ret × (ι × l)) := fun e (s, i, c) =>
  let (r, state, here) := h e (s.state, c)
  (r, ⟨state, s.history ++ (event e).toList.map (Prod.mk i), s.undisturbed && ok e (s.state, c)⟩,
    i, here)

/-- Nothing has been seen yet. -/
def unseen (s : σ) : Observed ι σ Op Ret := ⟨s, [], true⟩

variable (spec : Spec Op Ret St) (object : σ → St)

/-- The program serves its client, from where the client is, until the client is idle. -/
def Serves : Prog E R α → l → Client Op Ret → Prop
  | .ret _, _, q => q = .idle
  | .call e k, c, q => ∀ s, ok e (s, c) = true →
      ∃ q', Moves spec (object s) q (event e) (object (h e (s, c)).2.1) q' ∧
        Serves (k (h e (s, c)).1) (h e (s, c)).2.2 q'

section Serves
variable {h event ok spec object} {c : l} {q : Client Op Ret}

theorem serves_bind {p : Prog E R α} {f : α → Prog E R β}
    (hp : Serves h event ok spec object p c q)
    (hf : ∀ a c', Serves h event ok spec object (f a) c' .idle) :
    Serves h event ok spec object (p >>= f) c q := by
  induction p generalizing c q with
  | ret a =>
    obtain rfl : q = .idle := hp
    exact hf a c
  | call e k ih =>
    intro s hok
    obtain ⟨q', hm, hk⟩ := hp s hok
    exact ⟨q', hm, ih _ hk⟩

/-- A call that leaves the object alone, and of which nothing is seen. -/
theorem serves_quiet {e : E} {k : R e → Prog E R α} (he : event e = none)
    (hsame : ∀ s, object (h e (s, c)).2.1 = object s)
    (hk : ∀ s, ok e (s, c) = true →
      Serves h event ok spec object (k (h e (s, c)).1) (h e (s, c)).2.2 q) :
    Serves h event ok spec object (.call e k) c q := by
  intro s hok
  refine ⟨q, ?_, hk s hok⟩
  rw [he, hsame]
  exact .stay _ _

end Serves

end Observing

section Runs
variable {h : Handler E R (σ × l)} {event : E → Option (Event Op Ret)} {ok : E → σ × l → Bool}
  {spec : Spec Op Ret St} {object : σ → St} {x : St}

/-- Every thread has the client of its name, and as long as no call was disturbed what has been seen
is explained and each thread serves its client from where it is. -/
structure Followed (h : Handler E R (σ × l)) (event : E → Option (Event Op Ret))
    (ok : E → σ × l → Bool) (spec : Spec Op Ret St) (object : σ → St) [DecidableEq ι] (x : St)
    (t : Threads ι E R α (Observed ι σ Op Ret) (ι × l)) : Prop where
  named : ∀ i, (t.here i).1 = i
  explained : t.shared.undisturbed = true → ∃ q os,
    Explains spec x t.shared.history q os (object t.shared.state) ∧
      ∀ i, Serves h event ok spec object (t.rest i) (t.here i).2 (q i)

variable [DecidableEq ι] {t : Threads ι E R α (Observed ι σ Op Ret) (ι × l)}

theorem followed_step (hf : Followed h event ok spec object x t) (i : ι) :
    Followed h event ok spec object x (t.step (observing h event ok) i) := by
  unfold Threads.step
  cases hp : t.rest i with
  | ret a => exact hf
  | call e k =>
    rcases hc : t.here i with ⟨name, c⟩
    obtain rfl : name = i := by
      have hname := hf.named i
      rwa [hc] at hname
    constructor
    · intro j
      by_cases hj : j = name
      · subst hj
        simp only [Function.update_self]
        rfl
      · simp only [Function.update_of_ne hj]
        exact hf.named j
    · intro hund
      obtain ⟨hbefore, hok⟩ := Bool.and_eq_true_iff.mp hund
      obtain ⟨q, os, hexplains, hserves⟩ := hf.explained hbefore
      have hi := hserves name
      rw [hp, hc] at hi
      obtain ⟨q', hm, hk⟩ := hi t.shared.state hok
      obtain ⟨os', hexplains'⟩ := hexplains.moves hm
      refine ⟨Function.update q name q', os', hexplains', ?_⟩
      intro j
      by_cases hj : j = name
      · subst hj
        simp only [Function.update_self]
        exact hk
      · simp only [Function.update_of_ne hj]
        exact hserves j

theorem followed_runs (hf : Followed h event ok spec object x t) (order : List ι) :
    Followed h event ok spec object x (t.runs (observing h event ok) order) := by
  induction order generalizing t with
  | nil => exact hf
  | cons i order ih => exact ih (followed_step hf i)

/-- Threads that serve their clients alone serve them together: their histories are linearizable,
the object is where the operations lead, and a thread that has returned has answered all. -/
theorem linearizes_runs (hname : ∀ i, (t.here i).1 = i) {s : σ} (hs : t.shared = unseen s)
    (hserves : ∀ i, Serves h event ok spec object (t.rest i) (t.here i).2 .idle) (order : List ι)
    (hund : (t.runs (observing h event ok) order).shared.undisturbed = true) :
    (∃ os, Linearizes spec (object s) (t.runs (observing h event ok) order).shared.history os
      (object (t.runs (observing h event ok) order).shared.state)) ∧
    ∀ i a, (t.runs (observing h event ok) order).rest i = .ret a →
      (answers i (t.runs (observing h event ok) order).shared.history).length =
        (asks i (t.runs (observing h event ok) order).shared.history).length := by
  have hstart : Followed h event ok spec object (object s) t := by
    refine ⟨hname, fun _ => ⟨fun _ => .idle, [], ?_, hserves⟩⟩
    rw [hs]
    exact explains_start (object s)
  obtain ⟨q, os, hexplains, hrest⟩ := (followed_runs hstart order).explained hund
  refine ⟨⟨os, hexplains.linearizes⟩, ?_⟩
  intro i a ha
  have hi := hrest i
  rw [ha] at hi
  have hidle : q i = .idle := hi
  have hfits := hexplains.clients i
  rw [hidle] at hfits
  rw [hfits.1, ← hfits.2, List.length_map, List.length_map]

/-- Every thread has kept the answers that have been seen of it. -/
def Kept (sent : l → List Ret) (before : ι → List Ret)
    (t : Threads ι E R α (Observed ι σ Op Ret) (ι × l)) : Prop :=
  ∀ i, (t.here i).1 = i ∧ sent (t.here i).2 = before i ++ answers i t.shared.history

variable (ok) {sent : l → List Ret} {before : ι → List Ret}

theorem kept_step
    (hsent : ∀ e s c, sent (h e (s, c)).2.2 = sent c ++ ((event e).bind Event.ret?).toList)
    (hk : Kept sent before t) (i : ι) : Kept sent before (t.step (observing h event ok) i) := by
  unfold Threads.step
  cases hp : t.rest i with
  | ret a => exact hk
  | call e k =>
    rcases hc : t.here i with ⟨name, c⟩
    obtain rfl : name = i := by
      have hname := (hk i).1
      rwa [hc] at hname
    intro j
    by_cases hj : j = name
    · subst hj
      have hseen := (hk j).2
      rw [hc] at hseen
      simp only [Function.update_self, observing, hsent, answers_append, answers_shown, if_true,
        hseen, List.append_assoc, and_self]
    · simp only [Function.update_of_ne hj, observing, answers_append, answers_shown,
        if_neg (Ne.symm hj), List.append_nil]
      exact hk j

theorem kept_runs
    (hsent : ∀ e s c, sent (h e (s, c)).2.2 = sent c ++ ((event e).bind Event.ret?).toList)
    (hk : Kept sent before t) (order : List ι) :
    Kept sent before (t.runs (observing h event ok) order) := by
  induction order generalizing t with
  | nil => exact hk
  | cons i order ih => exact ih (kept_step ok hsent hk i)

end Runs

end ServingThreads
