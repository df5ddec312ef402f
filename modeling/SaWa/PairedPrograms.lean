import SaWa.RelyGuarantee

/-! Two partners of which one waits while the other runs. Together they are one thread, with the
calls of both; what one of them is asked for is a program of such calls. -/
namespace PairedPrograms

open EffectProgram InterleavedPrograms

variable {E E' : Type} {R : E → Type} {R' : E' → Type} {α β σ l m : Type}

def first : Prog E R α → Prog (E ⊕ E') (Sum.elim R R') α
  | .ret a => .ret a
  | .call e k => .call (.inl e) fun r => first (k r)

/-- The calls of the second partner reach the local states of both. -/
def paired (h : Handler E R (σ × l)) (h' : Handler E' R' (σ × l × m)) :
    Handler (E ⊕ E') (Sum.elim R R') (σ × l × m)
  | .inl e, (s, c, d) => ((h e (s, c)).1, (h e (s, c)).2.1, (h e (s, c)).2.2, d)
  | .inr e, x => h' e x

/-- Every call is carried out by the program that `f` has for it. -/
def expand (f : (e : E) → Prog E' R' (R e)) : Prog E R α → Prog E' R' α
  | .ret a => .ret a
  | .call e k => f e >>= fun r => expand f (k r)

theorem expand_bind (f : (e : E) → Prog E' R' (R e)) (p : Prog E R α) (g : α → Prog E R β) :
    expand f (p >>= g) = expand f p >>= fun a => expand f (g a) := by
  induction p with
  | ret a => rfl
  | call e k ih =>
    simp only [Prog.call_bind, expand, Prog.bind_assoc]
    exact congrArg (f e >>= ·) (funext ih)

def onFirst (Ok : E → σ × l → Prop) : E ⊕ E' → σ × l × m → Prop
  | .inl e, (s, c, _) => Ok e (s, c)
  | .inr _, _ => True

section Sound
variable {h : Handler E R (σ × l)} {h' : Handler E' R' (σ × l × m)} {G : σ → σ → Prop}
  {I : σ → Prop} {Ok : E → σ × l → Prop} {T : σ × l → σ × l → Prop} {P : l × m → Prop}
  {Q : α → l → Prop} {J : σ → l → Prop} {s : σ} {c : l} {d : m}

/-- A program of the first partner whose steps keep `J`, as the steps of the other threads do. -/
theorem sound_first (hI : ∀ s c, J s c → I s) (hP : ∀ s c, J s c → P (c, d))
    (hstable : ∀ s s' c, J s c → G s s' → J s' c)
    (hstep : ∀ s c s' c', J s c → T (s, c) (s', c') → G s s' ∧ J s' c') {p : Prog E R α}
    (hp : Steps h I Ok T Q p c) (hJ : J s c) :
    Sound (paired h h') G (onFirst Ok) P (fun a s x => Q a x.1 ∧ J s x.1 ∧ x.2 = d) (first p) s
      (c, d) := by
  induction p generalizing s c with
  | ret a => exact sound_ret (hP s c hJ) fun t ht => ⟨hp, hstable s t c hJ ht, rfl⟩
  | call e k ih =>
    apply sound_call (hP s c hJ)
    intro t ht hok
    have hJt := hstable s t c hJ ht
    obtain ⟨hT, hk⟩ := hp t (hI t c hJt) hok
    obtain ⟨hG, hJ'⟩ := hstep _ _ _ _ hJt hT
    exact ⟨hG, ih _ hk hJ'⟩

end Sound

section Within

theorem within_first {n : ℕ} {p : Prog E R α} (hp : Within n p) :
    Within n (first p : Prog (E ⊕ E') (Sum.elim R R') α) := by
  induction p generalizing n with
  | ret a => exact within_ret n a
  | call e k ih =>
    cases n with
    | zero => exact hp.elim
    | succ n => exact fun r => ih r (hp r)

theorem within_expand {f : (e : E) → Prog E' R' (R e)} {n m : ℕ} (hf : ∀ e, Within m (f e))
    {p : Prog E R α} (hp : Within n p) : Within (m * n) (expand f p) := by
  induction p generalizing n with
  | ret a => exact within_ret _ a
  | call e k ih =>
    cases n with
    | zero => exact hp.elim
    | succ n =>
      rw [Nat.mul_succ, Nat.add_comm]
      exact within_bind (hf e) fun r => ih r (hp r)

end Within

/-- The second partner neither needs the mark nor moves it. -/
theorem primed_first {needs : E → Bool} {after : Bool → E → Bool} {mark : Bool} {p : Prog E R α}
    (hp : Primed needs after mark p) :
    Primed (Sum.elim needs fun _ => false) (fun mark => Sum.elim (after mark) fun _ => mark) mark
      (first p : Prog (E ⊕ E') (Sum.elim R R') α) := by
  induction p generalizing mark with
  | ret a => exact primed_ret
  | call e k ih => exact ⟨hp.1, fun r => ih r (hp.2 r)⟩

end PairedPrograms
