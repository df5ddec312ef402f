import SaWa.InterleavedPrograms

/-! Threads that rely on what every step keeps. `G` relates the shared state before a step to the
one after it; a thread is verified alone against any number of such steps of the others, and owes
them that its own steps are of that kind. -/
namespace InterleavedPrograms

open EffectProgram

variable {ι : Type} {E : Type} {R : E → Type} {α β σ l : Type}

section Sound
variable (h : Handler E R (σ × l)) (G : σ → σ → Prop) (Ok : E → σ × l → Prop) (P : l → Prop)

/-- Whatever the others do between two calls, each call made in a state that meets `Ok` is a step
of `G`, the local state meets `P` all along, and the program returns with `Q`, which may speak of
the shared state. -/
def Sound (Q : α → σ → l → Prop) : Prog E R α → σ → l → Prop
  | .ret a, s, c => P c ∧ ∀ s', G s s' → Q a s' c
  | .call e k, s, c => P c ∧ ∀ s', G s s' → Ok e (s', c) → G s' (h e (s', c)).2.1 ∧
      Sound Q (k (h e (s', c)).1) (h e (s', c)).2.1 (h e (s', c)).2.2

variable {h G Ok P} {Q : α → σ → l → Prop} {s s' : σ} {c : l}

theorem Sound.here {p : Prog E R α} (hp : Sound h G Ok P Q p s c) : P c := by
  cases p with
  | ret a => exact hp.1
  | call e k => exact hp.1

/-- Steps of the others do no harm. -/
theorem Sound.stable (htrans : ∀ a b d, G a b → G b d → G a d) {p : Prog E R α}
    (hp : Sound h G Ok P Q p s c) (hs : G s s') : Sound h G Ok P Q p s' c := by
  cases p with
  | ret a => exact ⟨hp.1, fun t ht => hp.2 t (htrans _ _ _ hs ht)⟩
  | call e k => exact ⟨hp.1, fun t ht => hp.2 t (htrans _ _ _ hs ht)⟩

theorem sound_call {e : E} {k : R e → Prog E R α} (hP : P c)
    (hk : ∀ t, G s t → Ok e (t, c) → G t (h e (t, c)).2.1 ∧
      Sound h G Ok P Q (k (h e (t, c)).1) (h e (t, c)).2.1 (h e (t, c)).2.2) :
    Sound h G Ok P Q (.call e k) s c := ⟨hP, hk⟩

theorem sound_ret {a : α} (hP : P c) (hQ : ∀ t, G s t → Q a t c) :
    Sound h G Ok P Q (.ret a : Prog E R α) s c := ⟨hP, hQ⟩

theorem sound_bind {Q' : β → σ → l → Prop} (hrefl : ∀ a, G a a) {f : α → Prog E R β}
    {p : Prog E R α} (hp : Sound h G Ok P Q p s c)
    (hf : ∀ a s' c', Q a s' c' → Sound h G Ok P Q' (f a) s' c') :
    Sound h G Ok P Q' (p >>= f) s c := by
  induction p generalizing s c with
  | ret a => exact hf a s c (hp.2 s (hrefl s))
  | call e k ih =>
    refine ⟨hp.1, ?_⟩
    intro t ht hok
    exact ⟨(hp.2 t ht hok).1, ih _ (hp.2 t ht hok).2⟩

end Sound

section Steps
variable (h : Handler E R (σ × l)) (I : σ → Prop) (Ok : E → σ × l → Prop)
  (T : σ × l → σ × l → Prop)

/-- Whatever states of `I` the others leave between two calls, each call made in a state that meets
`Ok` is a step of `T`, and the program returns with `Q`. -/
def Steps (Q : α → l → Prop) : Prog E R α → l → Prop
  | .ret a, c => Q a c
  | .call e k, c => ∀ s, I s → Ok e (s, c) →
      T (s, c) (h e (s, c)).2 ∧ Steps Q (k (h e (s, c)).1) (h e (s, c)).2.2

variable {h I Ok T} {Q : α → l → Prop} {c : l}

theorem steps_bind {Q' : β → l → Prop} {f : α → Prog E R β} {p : Prog E R α}
    (hp : Steps h I Ok T Q p c) (hf : ∀ a c', Q a c' → Steps h I Ok T Q' (f a) c') :
    Steps h I Ok T Q' (p >>= f) c := by
  induction p generalizing c with
  | ret a => exact hf a c hp
  | call e k ih =>
    intro s hs hok
    exact ⟨(hp s hs hok).1, ih _ (hp s hs hok).2⟩

end Steps

section Runs
variable {h : Handler E R (σ × l)} {G : σ → σ → Prop} {Ok : E → σ × l → Prop} {P : ι → l → Prop}
  {Q : ι → α → σ → l → Prop} {t : Threads ι E R α σ l}

/-- Every thread is sound from where it is. -/
def AllSound (h : Handler E R (σ × l)) (G : σ → σ → Prop) (Ok : E → σ × l → Prop)
    (P : ι → l → Prop) (Q : ι → α → σ → l → Prop) (t : Threads ι E R α σ l) : Prop :=
  ∀ i, Sound h G Ok (P i) (Q i) (t.rest i) t.shared (t.here i)

theorem AllSound.returned (hrefl : ∀ a, G a a) (hs : AllSound h G Ok P Q t) {i : ι} {a : α}
    (hp : t.rest i = .ret a) : Q i a t.shared (t.here i) := by
  have hi := hs i
  rw [hp] at hi
  exact hi.2 t.shared (hrefl _)

variable [DecidableEq ι]

theorem allSound_step (hrefl : ∀ a, G a a) (htrans : ∀ a b d, G a b → G b d → G a d)
    (hs : AllSound h G Ok P Q t) {i : ι} (hok : t.Meets Ok i) :
    AllSound h G Ok P Q (t.step h i) := by
  unfold Threads.Meets at hok
  unfold Threads.step
  cases hp : t.rest i with
  | ret a => exact hs
  | call e k =>
    have hi := hs i
    rw [hp] at hi hok
    obtain ⟨hstep, hk⟩ := hi.2 t.shared (hrefl _) hok
    intro j
    by_cases hj : j = i
    · subst hj
      simpa using hk
    · simpa [hj] using (hs j).stable htrans hstep

/-- Threads that are sound alone are sound together, in any order of their steps. -/
theorem allSound_runs (hrefl : ∀ a, G a a) (htrans : ∀ a b d, G a b → G b d → G a d)
    (hs : AllSound h G Ok P Q t) {is : List ι} (hok : t.AllMeet h Ok is) :
    AllSound h G Ok P Q (t.runs h is) := by
  induction is generalizing t with
  | nil => exact hs
  | cons i is ih => exact ih (allSound_step hrefl htrans hs hok.1) hok.2

end Runs

/-! ### Threads that come to an end -/

section Within

/-- The program makes at most `n` calls, whatever they are answered. -/
def Within : ℕ → Prog E R α → Prop
  | _, .ret _ => True
  | 0, .call _ _ => False
  | n + 1, .call _ k => ∀ r, Within n (k r)

theorem within_ret (n : ℕ) (a : α) : Within n (.ret a : Prog E R α) := by
  cases n <;> trivial

theorem within_perform (e : E) : Within 1 (perform e : Prog E R (R e)) := fun r => within_ret 0 r

theorem Within.mono {n m : ℕ} {p : Prog E R α} (h : Within n p) (hnm : n ≤ m) : Within m p := by
  induction p generalizing n m with
  | ret a => exact within_ret m a
  | call e k ih =>
    cases n with
    | zero => exact h.elim
    | succ n =>
      obtain ⟨m, rfl⟩ : ∃ j, m = j + 1 := ⟨m - 1, by omega⟩
      exact fun r => ih r (h r) (by omega)

theorem within_bind {n m : ℕ} {p : Prog E R α} {f : α → Prog E R β} (hp : Within n p)
    (hf : ∀ a, Within m (f a)) : Within (n + m) (p >>= f) := by
  induction p generalizing n with
  | ret a => exact (hf a).mono (Nat.le_add_left m n)
  | call e k ih =>
    cases n with
    | zero => exact hp.elim
    | succ n =>
      rw [Nat.succ_add]
      exact fun r => ih r (hp r)

variable {h : Handler E R (σ × l)} [DecidableEq ι]

theorem within_step {t : Threads ι E R α σ l} {i : ι} (j : ι) {n : ℕ}
    (hw : Within (n + if j = i then 1 else 0) (t.rest i)) : Within n ((t.step h j).rest i) := by
  unfold Threads.step
  by_cases hj : j = i
  · subst hj
    rw [if_pos rfl] at hw
    cases hp : t.rest j with
    | ret a =>
      simp only [hp]
      exact within_ret n a
    | call e k =>
      rw [hp] at hw
      simpa using hw _
  · rw [if_neg hj] at hw
    cases hp : t.rest j with
    | ret a => exact hw
    | call e k => simpa [Ne.symm hj] using hw

/-- A thread that has had its turn often enough has returned. -/
theorem returned_of_within {t : Threads ι E R α σ l} {i : ι} {n : ℕ} {is : List ι}
    (hw : Within n (t.rest i)) (hn : n ≤ is.count i) :
    ∃ a, (t.runs h is).rest i = .ret a := by
  induction is generalizing t n with
  | nil =>
    obtain rfl : n = 0 := Nat.le_zero.mp hn
    rw [Threads.runs]
    cases hp : t.rest i with
    | ret a => exact ⟨a, rfl⟩
    | call e k =>
      rw [hp] at hw
      exact hw.elim
  | cons j is ih =>
    rw [List.count_cons] at hn
    have hstep : Within (n - if j = i then 1 else 0) ((t.step h j).rest i) :=
      within_step j (hw.mono (by omega))
    apply ih hstep
    simp only [beq_iff_eq] at hn
    omega

end Within

section Ends
variable (h : Handler E R (σ × l))

/-- From the local state given, the program returns with `Q` after at most `n` calls, whatever the
shared state is at each of them. -/
def Ends (Q : α → l → Prop) : ℕ → Prog E R α → l → Prop
  | _, .ret a, c => Q a c
  | 0, .call _ _, _ => False
  | n + 1, .call e k, c => ∀ s, Ends Q n (k (h e (s, c)).1) (h e (s, c)).2.2

variable {h} {Q : α → l → Prop} {n m : ℕ} {c : l}

theorem ends_ret_iff {a : α} : Ends h Q n (.ret a : Prog E R α) c ↔ Q a c := by
  cases n <;> rfl

theorem ends_ret (n : ℕ) {a : α} (hq : Q a c) : Ends h Q n (.ret a : Prog E R α) c :=
  ends_ret_iff.mpr hq

theorem ends_call {e : E} {k : R e → Prog E R α}
    (hk : ∀ s, Ends h Q n (k (h e (s, c)).1) (h e (s, c)).2.2) :
    Ends h Q (n + 1) (.call e k) c :=
  hk

theorem Ends.mono {Q' : α → l → Prop} {p : Prog E R α} (hp : Ends h Q n p c) (hnm : n ≤ m)
    (hQ : ∀ a c, Q a c → Q' a c) : Ends h Q' m p c := by
  induction p generalizing n m c with
  | ret a => exact ends_ret m (hQ a c (ends_ret_iff.mp hp))
  | call e k ih =>
    cases n with
    | zero => exact hp.elim
    | succ n =>
      obtain ⟨m, rfl⟩ : ∃ j, m = j + 1 := ⟨m - 1, by omega⟩
      exact fun s => ih _ (hp s) (by omega)

theorem ends_bind {Q' : β → l → Prop} {p : Prog E R α} {f : α → Prog E R β}
    (hp : Ends h Q n p c) (hf : ∀ a c', Q a c' → Ends h Q' m (f a) c') :
    Ends h Q' (n + m) (p >>= f) c := by
  induction p generalizing n c with
  | ret a => exact (hf a c (ends_ret_iff.mp hp)).mono (Nat.le_add_left m n) fun _ _ h => h
  | call e k ih =>
    cases n with
    | zero => exact hp.elim
    | succ n =>
      rw [Nat.succ_add]
      exact fun s => ih _ (hp s)

/-- A handler that answers from a part of its states, and moves that part alike. -/
theorem Ends.lift {σ' l' : Type} {h' : Handler E R (σ' × l')} (shared : σ' → σ) (here : l' → l)
    (hanswer : ∀ e s c, (h' e (s, c)).1 = (h e (shared s, here c)).1)
    (hhere : ∀ e s c, here (h' e (s, c)).2.2 = (h e (shared s, here c)).2.2) {p : Prog E R α}
    {c : l'} (hp : Ends h Q n p (here c)) : Ends h' (fun a c => Q a (here c)) n p c := by
  induction p generalizing n c with
  | ret a => exact ends_ret n (ends_ret_iff.mp hp)
  | call e k ih =>
    cases n with
    | zero => exact hp.elim
    | succ n =>
      intro s
      have hs := hp (shared s)
      rw [← hanswer, ← hhere] at hs
      exact ih _ hs

end Ends

/-! ### Calls that another call prepares -/

section Primed
variable (needs : E → Bool) (after : Bool → E → Bool)

/-- Every call that needs the mark finds it set, whatever the calls before it are answered. `after`
is what a call makes of the mark. -/
def Primed : Bool → Prog E R α → Prop
  | _, .ret _ => True
  | mark, .call e k => (needs e = true → mark = true) ∧ ∀ r, Primed (after mark e) (k r)

variable {needs after} {mark : Bool}

theorem primed_ret {a : α} : Primed needs after mark (.ret a : Prog E R α) := trivial

theorem primed_call {e : E} {k : R e → Prog E R α} (he : needs e = false)
    (hk : ∀ r, Primed needs after (after mark e) (k r)) : Primed needs after mark (.call e k) :=
  ⟨fun h => absurd (he.symm.trans h) Bool.false_ne_true, hk⟩

theorem primed_bind {p : Prog E R α} {f : α → Prog E R β} (hp : Primed needs after mark p)
    (hf : ∀ a mark, Primed needs after mark (f a)) : Primed needs after mark (p >>= f) := by
  induction p generalizing mark with
  | ret a => exact hf a mark
  | call e k ih => exact ⟨hp.1, fun r => ih r (hp.2 r)⟩

end Primed

end InterleavedPrograms
