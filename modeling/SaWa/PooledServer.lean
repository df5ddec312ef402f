import SaWa.InterleavedPrograms
import SaWa.SawaServerBounds
import SaWa.ThreadPoolHandoff

/-! The thread pool with the code that its workers run. A worker that enters `readData` runs it on
the connection behind its descriptor, one call at a time. This is a server in which every connection
has a thread of its own. -/
namespace PooledServer

open EffectProgram InterleavedPrograms ThreadPool ThreadPoolHandoff

variable {E : Type} {R : E → Type} {α σ l : Type}

instance : DecidablePred WorkerPc.isServing := fun pc =>
  match pc with
  | .serving _ => isTrue trivial
  | .absent | .starting | .closing | .clearing | .pushing | .waiting => isFalse not_false

/-- `here` is what belongs to a connection, `rest` what a worker has still to run. -/
structure Pooled (E : Type) (R : E → Type) (α σ l : Type) where
  pool : State
  shared : σ
  here : ℕ → l
  rest : Addr → Prog E R α

section Steps
variable (h : Handler E R (σ × l)) (readData : Prog E R α)

/-- A step of the pool, in which a worker may enter `readData`, or leave it when it has returned; or
a call of a worker in `readData`. -/
inductive Moves : Pooled E R α σ l → Pooled E R α σ l → Prop where
  | pool (s) (p : State) (hp : Step s.pool p)
      (hleft : ∀ a, (s.pool.worker a).isServing → ¬ (p.worker a).isServing →
        ∃ v, s.rest a = .ret v) :
      Moves s { s with
        pool := p
        rest := fun a =>
          if (p.worker a).isServing ∧ ¬ (s.pool.worker a).isServing then readData else s.rest a }
  | call (s) (a : Addr) (sock : ℤ) (c : ℕ) (e : E) (k : R e → Prog E R α)
      (hpc : s.pool.worker a = .serving sock) (hconn : s.pool.descriptor sock = some c)
      (hrest : s.rest a = .call e k) :
      Moves s { s with
        shared := (h e (s.shared, s.here c)).2.1
        here := Function.update s.here c (h e (s.shared, s.here c)).2.2
        rest := Function.update s.rest a (k (h e (s.shared, s.here c)).1) }

inductive Runs (s : Pooled E R α σ l) : Pooled E R α σ l → Prop where
  | refl : Runs s s
  | step {t u} (hr : Runs s t) (hm : Moves h readData t u) : Runs s u

end Steps

/-- The server before its first connection. -/
def opened (heap : Addr → ConnectionThread) (shared : σ) (here : ℕ → l) (readData : Prog E R α) :
    Pooled E R α σ l :=
  ⟨initial heap, shared, here, fun _ => readData⟩

/-- Every connection with a thread of its own. -/
def threads (shared : σ) (here : ℕ → l) (readData : Prog E R α) : Threads ℕ E R α σ l :=
  ⟨shared, here, fun _ => readData⟩

/-- The pool has done what the threads have: a connection that no worker has entered `readData` with
is untouched, one that is served has run as far as its worker, one that is finished has returned. -/
structure Agree (readData : Prog E R α) (s : Pooled E R α σ l) (t : Threads ℕ E R α σ l) :
    Prop where
  shared : t.shared = s.shared
  here : t.here = s.here
  untouched : ∀ c, some c ∉ started s.pool → t.rest c = readData
  served : ∀ a, (s.pool.worker a).isServing → ∀ c, s.pool.assigned a = some c → t.rest c = s.rest a
  returned : ∀ c ∈ s.pool.finished, ∃ v, t.rest c = .ret v

section Agree
variable {h : Handler E R (σ × l)} {readData : Prog E R α} {s u : Pooled E R α σ l}
  {t : Threads ℕ E R α σ l}

theorem agree_opened (heap : Addr → ConnectionThread) (shared : σ) (here : ℕ → l) :
    Agree readData (opened heap shared here readData) (threads shared here readData) :=
  ⟨rfl, rfl, fun _ _ => rfl, fun _ _ _ _ => rfl, nofun⟩

/-- The connection behind the descriptor of a worker is the one assigned to it. -/
theorem assigned_of_serving {p : State} (hi : Invariant p) {a : Addr} {sock : ℤ}
    (hpc : p.worker a = .serving sock) :
    ∃ c, p.assigned a = some c ∧ p.descriptor sock = some c ∧ some c ∈ started p := by
  have hheld : Held p a := Or.inr (Or.inr (Or.inr (by rw [hpc]; trivial)))
  obtain ⟨c, hassigned, hdesc, -⟩ := hi.ownership.owns a hheld
  rw [← hi.ownership.serving a sock hpc] at hdesc
  exact ⟨c, hassigned, hdesc, hi.service.begun_started a c (by rw [hpc]; trivial) hassigned⟩

theorem agree_call {a : Addr} {sock : ℤ} {c : ℕ} {e : E} {k : R e → Prog E R α}
    (hi : Invariant s.pool) (ha : Agree readData s t) (hpc : s.pool.worker a = .serving sock)
    (hconn : s.pool.descriptor sock = some c) (hrest : s.rest a = .call e k) :
    Agree readData
      { s with
        shared := (h e (s.shared, s.here c)).2.1
        here := Function.update s.here c (h e (s.shared, s.here c)).2.2
        rest := Function.update s.rest a (k (h e (s.shared, s.here c)).1) }
      (t.step h c) := by
  obtain ⟨c', hassigned, hdesc, hstarted⟩ := assigned_of_serving hi hpc
  obtain rfl : c = c' := Option.some.inj (hconn.symm.trans hdesc)
  have hcall : t.rest c = .call e k := (ha.served a (by rw [hpc]; trivial) c hassigned).trans hrest
  have hstep : t.step h c = ⟨(h e (s.shared, s.here c)).2.1,
      Function.update s.here c (h e (s.shared, s.here c)).2.2,
      Function.update t.rest c (k (h e (s.shared, s.here c)).1)⟩ := by
    simp only [Threads.step, hcall, ha.shared, ha.here]
  rw [hstep]
  refine ⟨rfl, rfl, ?_, ?_, ?_⟩
  · intro d hd
    have hne : d ≠ c := fun he => hd (he ▸ hstarted)
    exact (Function.update_of_ne hne _ _).trans (ha.untouched d hd)
  · intro b hb d hd
    by_cases hba : b = a
    · subst hba
      obtain rfl : d = c := Option.some.inj (hd.symm.trans hassigned)
      simp only [Function.update_self]
    · have hne : d ≠ c := fun he => hba (hi.ownership.assigned_inj b a c (he ▸ hd) hassigned)
      simp only [Function.update_of_ne hne, Function.update_of_ne hba]
      exact ha.served b hb d hd
  · intro d hd
    obtain ⟨v, hv⟩ := ha.returned d hd
    have hne : d ≠ c := by
      rintro rfl
      rw [hcall] at hv
      cases hv
    exact ⟨v, (Function.update_of_ne hne _ _).trans hv⟩

/-! ### Steps of the pool -/

section PoolStep
variable {p q : State} {a : Addr} {c : ℕ}

theorem started_step (hp : Step p q) (h : some c ∉ started q) : some c ∉ started p := by
  cases hp <;> grind

/-- A worker that serves did so before, or enters `readData` with the connection it was given. -/
theorem serving_of_step (hp : Step p q) (hc : Control p) (h : (q.worker a).isServing) :
    q.assigned a = p.assigned a ∧ ((p.worker a).isServing ∨ Due p a) := by
  cases hp with
  | store sock b hpc =>
    have hstoring := hc.storing sock b hpc
    grind
  | create sock b hpc hnew =>
    have habsent := hc.absent b
    grind
  | _ => grind

/-- A connection is finished when its worker leaves `readData`. -/
theorem finished_of_step (hp : Step p q) (hi : Invariant p) (h : c ∈ q.finished) :
    c ∈ p.finished ∨
      ∃ a, (p.worker a).isServing ∧ ¬ (q.worker a).isServing ∧ p.assigned a = some c := by
  cases hp with
  | finish a sock hpc =>
    obtain ⟨d, hassigned, hdesc, -⟩ := assigned_of_serving hi hpc
    grind
  | _ => exact Or.inl h

/-- No worker leaves `readData` in a step that finishes no connection. -/
theorem serving_stays (hp : Step p q) (hi : Invariant p) (hsame : q.finished = p.finished)
    (h : (p.worker a).isServing) : (q.worker a).isServing := by
  cases hp with
  | finish b sock hpc =>
    obtain ⟨d, -, hdesc, -⟩ := assigned_of_serving hi hpc
    simp [hdesc] at hsame
  | spawn b hpc =>
    have habsent := hi.control.absent b
    grind
  | _ => grind

end PoolStep

theorem agree_pool {q : State} (hi : Invariant s.pool) (ha : Agree readData s t)
    (hp : Step s.pool q)
    (hleft : ∀ a, (s.pool.worker a).isServing → ¬ (q.worker a).isServing →
      ∃ v, s.rest a = .ret v) :
    Agree readData
      { s with
        pool := q
        rest := fun a =>
          if (q.worker a).isServing ∧ ¬ (s.pool.worker a).isServing then readData else s.rest a }
      t := by
  refine ⟨ha.shared, ha.here, ?_, ?_, ?_⟩
  · intro c hc
    exact ha.untouched c (started_step hp hc)
  · intro a hserving c hc
    obtain ⟨hsame, hbefore⟩ := serving_of_step hp hi.control hserving
    have hassigned : s.pool.assigned a = some c := hsame.symm.trans hc
    by_cases hwas : (s.pool.worker a).isServing
    · simp only [hwas, not_true, and_false, if_false]
      exact ha.served a hwas c hassigned
    · -- The connection is new, so nothing of it has been run yet.
      have hdue := hbefore.resolve_left hwas
      simp only [hserving, hwas, not_false_iff, and_self, if_true]
      exact ha.untouched c (hi.service.due_new a c hdue hassigned)
  · intro c hc
    rcases finished_of_step hp hi hc with hc | ⟨a, hwas, hnow, hassigned⟩
    · exact ha.returned c hc
    · obtain ⟨v, hv⟩ := hleft a hwas hnow
      exact ⟨v, (ha.served a hwas c hassigned).trans hv⟩

end Agree

section Runs
variable {h : Handler E R (σ × l)} {readData : Prog E R α} {s u : Pooled E R α σ l}

theorem reachable_run (hs : Reachable s.pool) (hr : Runs h readData s u) : Reachable u.pool := by
  induction hr with
  | refl => exact hs
  | step _ hm ih =>
    cases hm with
    | pool p hp => exact ih.step hp
    | call => exact ih

theorem Runs.quiet {p : State} (hr : Runs h readData s u) (hs : Reachable s.pool)
    (hp : Step u.pool p) (hsame : p.finished = u.pool.finished) :
    Runs h readData s { u with
      pool := p
      rest := fun a =>
        if (p.worker a).isServing ∧ ¬ (u.pool.worker a).isServing then readData
        else u.rest a } := by
  have hi := reachable_invariant (reachable_run hs hr)
  exact hr.step (.pool u p hp fun a hwas hnow => absurd (serving_stays hp hi hsame hwas) hnow)

/-- A worker that is not interrupted runs its code as on a connection by itself. -/
theorem Runs.worker {a : Addr} {sock : ℤ} {c : ℕ} {p : Prog E R α} (hr : Runs h readData s u)
    (hpc : u.pool.worker a = .serving sock) (hconn : u.pool.descriptor sock = some c)
    (hrest : u.rest a = p) :
    Runs h readData s { u with
      shared := (run h p (u.shared, u.here c)).2.1
      here := Function.update u.here c (run h p (u.shared, u.here c)).2.2
      rest := Function.update u.rest a (.ret (run h p (u.shared, u.here c)).1) } := by
  induction p generalizing u with
  | ret v =>
    rw [run_ret, Function.update_eq_self, ← hrest, Function.update_eq_self]
    exact hr
  | call e k ih =>
    have hstep := hr.step (.call u a sock c e k hpc hconn hrest)
    have hend := ih _ hstep hpc hconn (Function.update_self _ _ _)
    simpa only [run_call, Function.update_self, Function.update_idem] using hend

/-- The threads take one step for each call of a worker, and none for a step of the pool. -/
theorem agree_run {t : Threads ℕ E R α σ l} (hs : Reachable s.pool) (ha : Agree readData s t)
    (hr : Runs h readData s u) : ∃ order, Agree readData u (t.runs h order) := by
  induction hr with
  | refl => exact ⟨[], ha⟩
  | step hr hm ih =>
    obtain ⟨order, hagree⟩ := ih
    have hi := reachable_invariant (reachable_run hs hr)
    cases hm with
    | pool p hp hleft => exact ⟨order, agree_pool hi hagree hp hleft⟩
    | call a sock c e k hpc hconn hrest =>
      refine ⟨order ++ [c], ?_⟩
      rw [Threads.runs_append]
      exact agree_call hi hagree hpc hconn hrest

/-- Workers and descriptors that are used again serve every connection as a thread of its own
would: from its first call, to its end, and by itself. -/
theorem pool_refines_threads (h : Handler E R (σ × l)) (readData : Prog E R α)
    (heap : Addr → ConnectionThread) (shared : σ) (here : ℕ → l)
    (hr : Runs h readData (opened heap shared here readData) s) :
    ∃ order, Agree readData s ((threads shared here readData).runs h order) :=
  agree_run (Reachable.init heap) (agree_opened heap shared here) hr

end Runs

/-! ### A worker that is used again -/

open SawaServerRun SawaProtocol LittleEndian in
/-- A connection that sends an INFO request and waits for the answer. -/
def infoConn : Conn := ⟨wordBytes 1 ++ Request.info.frame, fun _ => 4, [], fun _ => 0⟩

/-- The SaWa server answers a connection; a second one reuses the worker and the descriptor. -/
theorem info_then_reuse : ∃ s : Pooled SawaServer.Call SawaServer.Answer (Option SawaServer.Leave)
      SawaServerRun.Shared SawaServerRun.Conn,
    (s.here 0).output = [LittleEndian.wordBytes SawaServer.nbSectors] ∧ s.pool.finished = [0] ∧
      started s.pool = [some 1, some 0] ∧
      ∃ order, Agree (SawaServer.readData 1) s
        ((threads SawaServerBounds.newWorld.1 (fun _ => infoConn) (SawaServer.readData 1)).runs
          SawaServerRun.sysHandler order) := by
  let heap : Addr → ConnectionThread := fun _ => ⟨0, 0, 0, fun _ => 0, none, none⟩
  have hs := Reachable.init heap
  have r := @Runs.refl _ _ _ _ _ SawaServerRun.sysHandler (SawaServer.readData 1)
    (opened heap SawaServerBounds.newWorld.1 (fun _ => infoConn) (SawaServer.readData 1))
  replace r := r.quiet hs (.accept _ 5 rfl (by decide) rfl) rfl
  replace r := r.quiet hs (.testEmpty _ 5 rfl rfl) rfl
  replace r := r.quiet hs (.create _ 5 0 rfl (by simp [opened, initial])) rfl
  replace r := r.quiet hs (.spawn _ 0 rfl) rfl
  replace r := r.quiet hs (.start _ 0 rfl) rfl
  replace r := r.step (.call _ 0 5 0 _ _ rfl rfl rfl)
  replace r := r.step (.call _ 0 5 0 _ _ rfl rfl rfl)
  replace r := r.step (.call _ 0 5 0 _ _ rfl rfl rfl)
  replace r := r.step (.call _ 0 5 0 _ _ rfl rfl rfl)
  replace r := r.step (.call _ 0 5 0 _ _ rfl rfl rfl)
  replace r := r.step (.call _ 0 5 0 _ _ rfl rfl rfl)
  replace r := r.step (.call _ 0 5 0 _ _ rfl rfl rfl)
  replace r := r.step (.pool _ _ (.finish _ 0 5 rfl) (fun a hwas hnow => by
    by_cases h : a = 0
    · subst h
      exact ⟨_, rfl⟩
    · simp [Function.update_of_ne h] at hwas hnow
      exact absurd hwas hnow))
  replace r := r.quiet hs (.close _ 0 rfl) rfl
  replace r := r.quiet hs (.clear _ 0 rfl) rfl
  replace r := r.quiet hs (.push _ 0 rfl) rfl
  replace r := r.quiet hs (.accept _ 5 rfl (by decide) rfl) rfl
  replace r := r.quiet hs (.testIdle _ 5 rfl (Option.some_ne_none 0)) rfl
  replace r := r.quiet hs (.pop _ 5 0 _ rfl rfl) rfl
  replace r := r.quiet hs (.store _ 5 0 rfl) rfl
  replace r := r.quiet hs (.signal _ 0 rfl) rfl
  replace r := r.quiet hs (.wake _ 0 rfl rfl) rfl
  replace r := r.quiet hs (.start _ 0 rfl) rfl
  exact ⟨_, rfl, rfl, rfl, pool_refines_threads _ _ _ _ _ r⟩

end PooledServer
