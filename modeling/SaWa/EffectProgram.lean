import Mathlib.Logic.Function.Basic
import Mathlib.Data.Nat.Notation

/-! Finite programs over a signature of calls. `E` names the calls and `R e` is the type of
the answer to `e`. A handler answers each call from a state and moves that state; one program
can be run by several handlers. Loops carry a bound on their rounds, and a run that stops
inside the bound is the same under every larger one. -/
namespace EffectProgram

inductive Prog (E : Type) (R : E → Type) (α : Type) where
  | ret (a : α)
  | call (e : E) (k : R e → Prog E R α)

variable {E : Type} {R : E → Type} {α β γ σ : Type}

namespace Prog

def bind : Prog E R α → (α → Prog E R β) → Prog E R β
  | .ret a, f => f a
  | .call e k, f => .call e fun r => (k r).bind f

instance : Monad (Prog E R) where
  pure := .ret
  bind := .bind

@[simp] theorem pure_eq (a : α) : (pure a : Prog E R α) = .ret a := rfl
@[simp] theorem ret_bind (a : α) (f : α → Prog E R β) : (.ret a : Prog E R α) >>= f = f a := rfl
@[simp] theorem call_bind (e : E) (k : R e → Prog E R α) (f : α → Prog E R β) :
    (.call e k : Prog E R α) >>= f = .call e fun r => k r >>= f := rfl

theorem bind_ret (p : Prog E R α) : (p >>= fun a => .ret a) = p := by
  induction p with
  | ret => rfl
  | call e k ih =>
    rw [call_bind]
    exact congrArg (Prog.call e) (funext ih)

theorem bind_assoc (p : Prog E R α) (f : α → Prog E R β) (g : β → Prog E R γ) :
    (p >>= f) >>= g = p >>= fun a => f a >>= g := by
  induction p with
  | ret => rfl
  | call e k ih =>
    simp only [call_bind]
    exact congrArg (Prog.call e) (funext ih)

instance : LawfulMonad (Prog E R) := .mk' _ bind_ret (fun _ _ => rfl) bind_assoc

end Prog

/-- The program that makes one call and returns its answer. -/
def perform (e : E) : Prog E R (R e) := .call e .ret

@[simp] theorem perform_bind (e : E) (f : R e → Prog E R β) :
    (perform e : Prog E R (R e)) >>= f = .call e f := rfl

/-- A handler answers a call and moves the state it is given. -/
abbrev Handler (E : Type) (R : E → Type) (σ : Type) := (e : E) → σ → R e × σ

def run (h : Handler E R σ) : Prog E R α → σ → α × σ
  | .ret a, s => (a, s)
  | .call e k, s => run h (k (h e s).1) (h e s).2

/-- The calls a run makes, each with the state it is made in. -/
def calls (h : Handler E R σ) : Prog E R α → σ → List (E × σ)
  | .ret _, _ => []
  | .call e k, s => (e, s) :: calls h (k (h e s).1) (h e s).2

/-- What a run shows of itself to an observer `f` of its calls. -/
def observe (f : E × σ → Option β) (h : Handler E R σ) (p : Prog E R α) (s : σ) : List β :=
  (calls h p s).filterMap f

section Run
variable (h : Handler E R σ)

@[simp] theorem run_ret (a : α) (s : σ) : run h (.ret a : Prog E R α) s = (a, s) := rfl
@[simp] theorem run_call (e : E) (k : R e → Prog E R α) (s : σ) :
    run h (.call e k) s = run h (k (h e s).1) (h e s).2 := rfl
@[simp] theorem run_perform (e : E) (s : σ) : run h (perform e : Prog E R (R e)) s = h e s := rfl
@[simp] theorem calls_ret (a : α) (s : σ) : calls h (.ret a : Prog E R α) s = [] := rfl
@[simp] theorem calls_call (e : E) (k : R e → Prog E R α) (s : σ) :
    calls h (.call e k) s = (e, s) :: calls h (k (h e s).1) (h e s).2 := rfl

theorem run_bind (p : Prog E R α) (f : α → Prog E R β) (s : σ) :
    run h (p >>= f) s = run h (f (run h p s).1) (run h p s).2 := by
  induction p generalizing s with
  | ret => rfl
  | call e k ih => exact ih _ _

theorem calls_bind (p : Prog E R α) (f : α → Prog E R β) (s : σ) :
    calls h (p >>= f) s = calls h p s ++ calls h (f (run h p s).1) (run h p s).2 := by
  induction p generalizing s with
  | ret => rfl
  | call e k ih =>
    simp only [Prog.call_bind, calls_call, run_call, List.cons_append]
    rw [ih]

section Observe
variable (f : E × σ → Option γ)

@[simp] theorem observe_ret (a : α) (s : σ) : observe f h (.ret a : Prog E R α) s = [] := rfl

theorem observe_call_some {e : E} {s : σ} {b : γ} (hf : f (e, s) = some b)
    (k : R e → Prog E R α) :
    observe f h (.call e k) s = b :: observe f h (k (h e s).1) (h e s).2 :=
  List.filterMap_cons_some hf

theorem observe_call_none {e : E} {s : σ} (hf : f (e, s) = none) (k : R e → Prog E R α) :
    observe f h (.call e k) s = observe f h (k (h e s).1) (h e s).2 :=
  List.filterMap_cons_none hf

theorem observe_bind (p : Prog E R α) (g : α → Prog E R β) (s : σ) :
    observe f h (p >>= g) s =
      observe f h p s ++ observe f h (g (run h p s).1) (run h p s).2 := by
  rw [observe, calls_bind, List.filterMap_append]
  rfl

end Observe

/-- A property of states kept by every call is kept by every run. -/
theorem run_preserves {I : σ → Prop} (step : ∀ e s, I s → I (h e s).2) (p : Prog E R α) {s : σ}
    (hs : I s) : I (run h p s).2 := by
  induction p generalizing s with
  | ret => exact hs
  | call e k ih => exact ih _ (step e s hs)

/-- Every call of a run meets `P` in the state it is made in. -/
def AllCalls (P : E × σ → Prop) (p : Prog E R α) (s : σ) : Prop := ∀ c ∈ calls h p s, P c

section AllCalls
variable {P : E × σ → Prop}

@[simp] theorem allCalls_ret (a : α) (s : σ) : AllCalls h P (.ret a : Prog E R α) s := by
  intro c hc
  cases hc

@[simp] theorem allCalls_call {e : E} {k : R e → Prog E R α} {s : σ} :
    AllCalls h P (.call e k) s ↔ P (e, s) ∧ AllCalls h P (k (h e s).1) (h e s).2 :=
  List.forall_mem_cons

@[simp] theorem allCalls_perform {e : E} {s : σ} :
    AllCalls h P (perform e : Prog E R (R e)) s ↔ P (e, s) := by
  simp [perform]

theorem allCalls_bind {p : Prog E R α} {f : α → Prog E R β} {s : σ} :
    AllCalls h P (p >>= f) s ↔
      AllCalls h P p s ∧ AllCalls h P (f (run h p s).1) (run h p s).2 := by
  unfold AllCalls
  rw [calls_bind]
  exact List.forall_mem_append

/-- A property kept by every call that meets `P` holds at every point of a run whose calls
all meet it. -/
theorem calls_preserve {I : σ → Prop} (step : ∀ e s, P (e, s) → I s → I (h e s).2)
    (p : Prog E R α) {s : σ} (hP : AllCalls h P p s) (hs : I s) :
    (∀ c ∈ calls h p s, I c.2) ∧ I (run h p s).2 := by
  induction p generalizing s with
  | ret => exact ⟨allCalls_ret (P := fun c => I c.2) h _ s, hs⟩
  | call e k ih =>
    rcases (allCalls_call h).mp hP with ⟨hP₀, hrest⟩
    rcases ih _ hrest (step e s hP₀ hs) with ⟨hcalls, hrun⟩
    exact ⟨List.forall_mem_cons.mpr ⟨hs, hcalls⟩, hrun⟩

/-- Two handlers that answer related states alike, and keep them related, cannot be told apart
by a program whose calls all meet `P`. -/
theorem run_simulates {τ : Type} {h' : Handler E R τ} {S : σ → τ → Prop}
    (step : ∀ e s t, P (e, s) → S s t → (h e s).1 = (h' e t).1 ∧ S (h e s).2 (h' e t).2)
    (p : Prog E R α) {s : σ} {t : τ} (hP : AllCalls h P p s) (hs : S s t) :
    (run h p s).1 = (run h' p t).1 ∧ S (run h p s).2 (run h' p t).2 := by
  induction p generalizing s t with
  | ret => exact ⟨rfl, hs⟩
  | call e k ih =>
    rcases (allCalls_call h).mp hP with ⟨hP₀, hrest⟩
    rcases step e s t hP₀ hs with ⟨hanswer, hstate⟩
    have hrun := ih _ hrest hstate
    rw [run_call, run_call, ← hanswer]
    exact hrun

end AllCalls

end Run

/-! ### Calls that are not come back from -/

section Fatal
variable (h : Handler E R σ) (fatal : E × σ → Bool)

/-- A run that is over at its first fatal call, and then has no answer. -/
def runUntil : Prog E R α → σ → Option α × σ
  | .ret a, s => (some a, s)
  | .call e k, s => if fatal (e, s) then (none, s) else runUntil (k (h e s).1) (h e s).2

/-- Its calls, the fatal one included. -/
def callsUntil : Prog E R α → σ → List (E × σ)
  | .ret _, _ => []
  | .call e k, s => (e, s) :: if fatal (e, s) then [] else callsUntil (k (h e s).1) (h e s).2

theorem allCalls_of_runUntil {p : Prog E R α} {s : σ} {a : α}
    (hr : (runUntil h fatal p s).1 = some a) : AllCalls h (fun c => fatal c = false) p s := by
  induction p generalizing s with
  | ret b => exact allCalls_ret h b s
  | call e k ih =>
    rw [runUntil] at hr
    by_cases hf : fatal (e, s) = true
    · rw [if_pos hf] at hr
      cases hr
    · rw [if_neg hf] at hr
      exact (allCalls_call h).mpr ⟨Bool.eq_false_iff.mpr hf, ih _ hr⟩

/-- A run without a fatal call is the whole run. -/
theorem runUntil_eq {p : Prog E R α} {s : σ} (hs : AllCalls h (fun c => fatal c = false) p s) :
    runUntil h fatal p s = (some (run h p s).1, (run h p s).2) ∧
      callsUntil h fatal p s = calls h p s := by
  induction p generalizing s with
  | ret => exact ⟨rfl, rfl⟩
  | call e k ih =>
    obtain ⟨hf, hrest⟩ := (allCalls_call h).mp hs
    obtain ⟨hrun, hcalls⟩ := ih _ hrest
    rw [runUntil, callsUntil, hf, if_neg Bool.false_ne_true, if_neg Bool.false_ne_true, hrun, hcalls]
    exact ⟨rfl, rfl⟩

end Fatal

/-! ### Bounded loops -/

/-- At most `n` rounds of `body`. A round goes on with a new loop state or leaves with an
answer; `none` says that the rounds ran out first. -/
def loop (body : γ → Prog E R (γ ⊕ β)) : ℕ → γ → Prog E R (Option β)
  | 0, _ => .ret none
  | n + 1, c => body c >>= fun
    | .inl c' => loop body n c'
    | .inr b => .ret (some b)

section Loop
variable (h : Handler E R σ) (body : γ → Prog E R (γ ⊕ β))

theorem run_loop_zero (c : γ) (s : σ) : run h (loop body 0 c) s = (none, s) := rfl

theorem run_loop_next {n : ℕ} {c c' : γ} {s s' : σ} (hb : run h (body c) s = (.inl c', s')) :
    run h (loop body (n + 1) c) s = run h (loop body n c') s' := by
  rw [loop, run_bind, hb]

theorem run_loop_leave {n : ℕ} {c : γ} {b : β} {s s' : σ} (hb : run h (body c) s = (.inr b, s')) :
    run h (loop body (n + 1) c) s = (some b, s') := by
  rw [loop, run_bind, hb]
  rfl

theorem observe_loop_next (f : E × σ → Option α) {n : ℕ} {c c' : γ} {s s' : σ}
    (hb : run h (body c) s = (.inl c', s')) :
    observe f h (loop body (n + 1) c) s =
      observe f h (body c) s ++ observe f h (loop body n c') s' := by
  rw [loop, observe_bind, hb]

theorem observe_loop_leave (f : E × σ → Option α) {n : ℕ} {c : γ} {b : β} {s s' : σ}
    (hb : run h (body c) s = (.inr b, s')) :
    observe f h (loop body (n + 1) c) s = observe f h (body c) s := by
  rw [loop, observe_bind, hb]
  exact List.append_nil _

/-- Two loops whose rounds match along `g`, from the loop states that `I` keeps, run alike. -/
theorem loop_map {δ : Type} {body' : δ → Prog E R (δ ⊕ β)} {g : γ → δ} {I : γ → Prop}
    (hcalls : ∀ c s, I c → calls h (body' (g c)) s = calls h (body c) s)
    (hround : ∀ c s, I c → run h (body' (g c)) s =
      ((run h (body c) s).1.map g id, (run h (body c) s).2))
    (hkeep : ∀ c c' s, I c → (run h (body c) s).1 = .inl c' → I c') (n : ℕ) {c : γ} (s : σ)
    (hc : I c) :
    calls h (loop body' n (g c)) s = calls h (loop body n c) s ∧
      run h (loop body' n (g c)) s = run h (loop body n c) s := by
  induction n generalizing c s with
  | zero => exact ⟨rfl, rfl⟩
  | succ n ih =>
    rw [loop, loop, calls_bind, calls_bind, run_bind, run_bind, hcalls c s hc, hround c s hc]
    cases hb : (run h (body c) s).1 with
    | inl c' =>
      obtain ⟨ihcalls, ihrun⟩ := ih (run h (body c) s).2 (hkeep c c' s hc hb)
      exact ⟨congrArg (calls h (body c) s ++ ·) ihcalls, ihrun⟩
    | inr b => exact ⟨rfl, rfl⟩

/-- A loop that has stopped stops in the same way under a larger bound. -/
theorem run_loop_mono {n m : ℕ} (hnm : n ≤ m) {c : γ} {s s' : σ} {b : β}
    (hr : run h (loop body n c) s = (some b, s')) : run h (loop body m c) s = (some b, s') := by
  induction n generalizing m c s with
  | zero => simp [run_loop_zero] at hr
  | succ n ih =>
    obtain ⟨m, rfl⟩ : ∃ k, m = k + 1 := ⟨m - 1, by omega⟩
    rcases hb : run h (body c) s with ⟨c' | b', t⟩
    · rw [run_loop_next h body hb] at hr ⊢
      exact ih (by omega) hr
    · rw [run_loop_leave h body hb] at hr ⊢
      exact hr

end Loop

end EffectProgram
