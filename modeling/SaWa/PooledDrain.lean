import SaWa.PooledServer
import SaWa.RelyGuarantee
import SaWa.ThreadPoolDrain

/-! What a server on the thread pool comes to when no more connections arrive, and `readData` makes
a bounded number of calls on each connection. -/
namespace PooledDrain

open EffectProgram InterleavedPrograms RankedRuns ThreadPool ThreadPoolHandoff ThreadPoolDrain
  PooledServer

variable {E : Type} {R : E → Type} {α σ l : Type}

/-- A step other than the acceptance of a connection. -/
def Goes (h : Handler E R (σ × l)) (readData : Prog E R α) (s u : Pooled E R α σ l) : Prop :=
  Moves h readData s u ∧ u.pool.accepted = s.pool.accepted

/-- Every connection's thread has at most so many calls to make, and then it returns with `Q`. -/
def Bounded (h : Handler E R (σ × l)) (Q : α → l → Prop) (left : ℕ → ℕ)
    (t : Threads ℕ E R α σ l) : Prop := ∀ c, Ends h Q (left c) (t.rest c) (t.here c)

structure Tracked (h : Handler E R (σ × l)) (readData : Prog E R α) (Q : α → l → Prop)
    (left : ℕ → ℕ) (s : Pooled E R α σ l) : Prop where
  reachable : Reachable s.pool
  threads : ∃ t, Agree readData s t ∧ Bounded h Q left t

def todo (s : Pooled E R α σ l) (left : ℕ → ℕ) : ℕ :=
  work s.pool + total left (List.range s.pool.accepted)

section Steps
variable {h : Handler E R (σ × l)} {readData : Prog E R α} {Q : α → l → Prop} {left : ℕ → ℕ}
  {s u : Pooled E R α σ l}

theorem tracked_opened {heap : Addr → ConnectionThread} {shared : σ} {here : ℕ → l}
    (hends : ∀ c, Ends h Q (left c) readData (here c)) :
    Tracked h readData Q left (opened heap shared here readData) :=
  ⟨Reachable.init heap, threads shared here readData, agree_opened heap shared here, hends⟩

theorem bounded_step {t : Threads ℕ E R α σ l} (hb : Bounded h Q left t) {c : ℕ} {e : E}
    {k : R e → Prog E R α} (hcall : t.rest c = .call e k) :
    0 < left c ∧ Bounded h Q (Function.update left c (left c - 1)) (t.step h c) := by
  have hc := hb c
  rw [hcall] at hc
  obtain ⟨n, hn⟩ : ∃ n, left c = n + 1 := by
    cases hleft : left c with
    | zero =>
      rw [hleft] at hc
      exact hc.elim
    | succ n => exact ⟨n, rfl⟩
  rw [hn] at hc ⊢
  refine ⟨Nat.succ_pos n, ?_⟩
  intro d
  simp only [Threads.step, hcall]
  by_cases hd : d = c
  · subst hd
    simp only [Function.update_self]
    exact hc t.shared
  · simp only [Function.update_of_ne hd]
    exact hb d

/-- No step adds to what is left, and all but the acceptance of a connection take from it. -/
theorem tracked_step (ht : Tracked h readData Q left s) (hm : Moves h readData s u) :
    ∃ left', Tracked h readData Q left' u ∧ (∀ c, left' c ≤ left c) ∧
      (u.pool.accepted = s.pool.accepted → todo u left' < todo s left) := by
  obtain ⟨hr, t, ha, hb⟩ := ht
  have hi := reachable_invariant hr
  cases hm with
  | pool p hp hleft =>
    refine ⟨left, ⟨hr.step hp, t, agree_pool hi ha hp hleft, hb⟩, fun _ => le_rfl, ?_⟩
    intro hsame
    have hwork := work_quiet s.pool p hr ⟨hp, hsame⟩
    simp only [todo]
    have hacc : p.accepted = s.pool.accepted := hsame
    rw [hacc]
    exact Nat.add_lt_add_right hwork _
  | call a sock c e k hpc hconn hrest =>
    obtain ⟨d, hassigned, hdesc, -⟩ := assigned_of_serving hi hpc
    obtain rfl : c = d := Option.some.inj (hconn.symm.trans hdesc)
    have hcall : t.rest c = .call e k := by
      rw [← hrest]
      exact ha.served a (by rw [hpc]; trivial) c hassigned
    obtain ⟨hpos, hbounded⟩ := bounded_step hb hcall
    have hle : ∀ d, Function.update left c (left c - 1) d ≤ left d := by
      intro d
      by_cases hd : d = c
      · subst hd
        rw [Function.update_self]
        exact Nat.sub_le _ 1
      · rw [Function.update_of_ne hd]
    refine ⟨_, ⟨hr, _, agree_call hi ha hpc hconn hrest, hbounded⟩, hle, ?_⟩
    intro _
    apply Nat.add_lt_add_left
    apply total_lt (fun d _ => hle d) (List.mem_range.mpr (hi.ownership.descriptor_lt sock c hconn))
    rw [Function.update_self]
    omega

theorem tracked_runs (ht : Tracked h readData Q left s) (hr : Runs h readData s u) :
    ∃ left', Tracked h readData Q left' u ∧ ∀ c, left' c ≤ left c := by
  induction hr with
  | refl => exact ⟨left, ht, fun _ => le_rfl⟩
  | step _ hm ih =>
    obtain ⟨left₁, ht₁, hle₁⟩ := ih
    obtain ⟨left₂, ht₂, hle₂, -⟩ := tracked_step ht₁ hm
    exact ⟨left₂, ht₂, fun c => (hle₂ c).trans (hle₁ c)⟩

theorem tracked_steps {n : ℕ} (ht : Tracked h readData Q left s)
    (hs : Steps (Goes h readData) s n u) :
    ∃ left', Tracked h readData Q left' u ∧ n + todo u left' ≤ todo s left := by
  induction hs with
  | refl => exact ⟨left, ht, by omega⟩
  | tail _ hg ih =>
    obtain ⟨left₁, ht₁, hle⟩ := ih
    obtain ⟨left₂, ht₂, -, hlt⟩ := tracked_step ht₁ hg.1
    have hless := hlt hg.2
    exact ⟨left₂, ht₂, by omega⟩

theorem runs_steps {s₀ : Pooled E R α σ l} {n : ℕ} (hr : Runs h readData s₀ s)
    (hs : Steps (Goes h readData) s n u) : Runs h readData s₀ u := by
  induction hs with
  | refl => exact hr
  | tail _ hg ih => exact ih.step hg.1

end Steps

section Rest
variable {h : Handler E R (σ × l)} {readData : Prog E R α} {u : Pooled E R α σ l}

/-- A worker that serves can make its next call, so where nothing can go on `readData` has
returned. -/
theorem final_returned (hi : Invariant u.pool) (hf : Final (Goes h readData) u) {a : Addr}
    (ha : (u.pool.worker a).isServing) : ∃ v, u.rest a = .ret v := by
  cases hrest : u.rest a with
  | ret v => exact ⟨v, rfl⟩
  | call e k =>
    cases hpc : u.pool.worker a with
    | serving sock =>
      obtain ⟨c, -, hconn, -⟩ := assigned_of_serving hi hpc
      exact absurd ⟨.call u a sock c e k hpc hconn hrest, rfl⟩ (hf _)
    | _ =>
      rw [hpc] at ha
      exact ha.elim

theorem final_pool (hi : Invariant u.pool) (hf : Final (Goes h readData) u) :
    Final Quiet u.pool := by
  intro p hp
  exact hf _ ⟨.pool u p hp.1 fun a hwas _ => final_returned hi hf hwas, hp.2⟩

end Rest

section Drains
variable {h : Handler E R (σ × l)} {readData : Prog E R α} {Q : α → l → Prop} {bound : ℕ → ℕ}
  {heap : Addr → ConnectionThread} {shared : σ} {here : ℕ → l} {s : Pooled E R α σ l}

/-- However the threads take turns, the server is done after ten steps of the pool for each
connection and the calls that its connections have to make, and is never stuck before. -/
theorem server_drains (hends : ∀ c, Ends h Q (bound c) readData (here c))
    (hr : Runs h readData (opened heap shared here readData) s) :
    (∀ n u, Steps (Goes h readData) s n u →
      n ≤ 10 * s.pool.accepted + total bound (List.range s.pool.accepted)) ∧
    (∀ n u, Steps (Goes h readData) s n u → Final (Goes h readData) u → Drained u.pool) ∧
    ∃ n u, Steps (Goes h readData) s n u ∧ Final (Goes h readData) u := by
  obtain ⟨left, ht, hle⟩ := tracked_runs (tracked_opened hends) hr
  have hbound : ∀ n u, Steps (Goes h readData) s n u →
      n ≤ 10 * s.pool.accepted + total bound (List.range s.pool.accepted) := by
    intro n u hs
    obtain ⟨left', -, hn⟩ := tracked_steps ht hs
    have hwork := work_le ht.reachable
    have htotal := total_mono fun c (_ : c ∈ List.range s.pool.accepted) => hle c
    simp only [todo] at hn
    omega
  refine ⟨hbound, ?_, exists_final_of_bound hbound⟩
  intro n u hs hf
  obtain ⟨left', ht', -⟩ := tracked_steps ht hs
  have hi := reachable_invariant ht'.reachable
  exact final_drained ht'.reachable (final_pool hi hf)

end Drains

end PooledDrain
