import SaWa.EffectProgram

/-! A ledger beside a program: each call, with its answer, makes an entry. What a program does to
its ledger is said of every answer that its calls can get. -/
namespace EffectLedger

open EffectProgram

variable {E : Type} {R : E → Type} {α β γ L : Type}

/-- What a call that was answered does to the ledger. -/
abbrev Book (E : Type) (R : E → Type) (L : Type) := (e : E) → R e → L → L

/-- The program, begun with one ledger, can end with this result and this ledger. -/
inductive Ends (book : Book E R L) : Prog E R α → L → α → L → Prop where
  | ret (a : α) (l : L) : Ends book (.ret a) l a l
  | call {e : E} {k : R e → Prog E R α} {l l' : L} {a : α} (r : R e)
      (h : Ends book (k r) (book e r l) a l') : Ends book (.call e k) l a l'

section Ends
variable {book : Book E R L} {l l' : L} {a : α}

theorem ends_ret {b : α} : Ends book (.ret b) l a l' ↔ a = b ∧ l' = l := by
  constructor
  · rintro ⟨⟩
    exact ⟨rfl, rfl⟩
  · rintro ⟨rfl, rfl⟩
    exact .ret a l'

theorem ends_call {e : E} {k : R e → Prog E R α} :
    Ends book (.call e k) l a l' ↔ ∃ r, Ends book (k r) (book e r l) a l' := by
  constructor
  · rintro (_ | ⟨r, h⟩)
    exact ⟨r, h⟩
  · rintro ⟨r, h⟩
    exact .call r h

theorem ends_perform {e : E} {r : R e} :
    Ends book (perform e : Prog E R (R e)) l r l' ↔ l' = book e r l := by
  rw [perform, ends_call]
  constructor
  · rintro ⟨r', h⟩
    obtain ⟨rfl, rfl⟩ := ends_ret.mp h
    rfl
  · rintro rfl
    exact ⟨r, .ret _ _⟩

theorem ends_bind {p : Prog E R β} {f : β → Prog E R α} :
    Ends book (p >>= f) l a l' ↔ ∃ b m, Ends book p l b m ∧ Ends book (f b) m a l' := by
  induction p generalizing l with
  | ret b =>
    constructor
    · intro h
      exact ⟨b, l, .ret b l, h⟩
    · rintro ⟨b', m, hb, h⟩
      obtain ⟨rfl, rfl⟩ := ends_ret.mp hb
      exact h
  | call e k ih =>
    rw [Prog.call_bind, ends_call]
    constructor
    · rintro ⟨r, h⟩
      obtain ⟨b, m, hb, hf⟩ := ih r |>.mp h
      exact ⟨b, m, .call r hb, hf⟩
    · rintro ⟨b, m, hb, hf⟩
      obtain ⟨r, hr⟩ := ends_call.mp hb
      exact ⟨r, ih r |>.mpr ⟨b, m, hr, hf⟩⟩

/-- The end of a program whose calls get these answers, each always the same. -/
def settle (book : Book E R L) (answer : (e : E) → R e) : Prog E R α → L → α × L
  | .ret a, l => (a, l)
  | .call e k, l => settle book answer (k (answer e)) (book e (answer e) l)

theorem ends_settle (answer : (e : E) → R e) (p : Prog E R α) (l : L) :
    Ends book p l (settle book answer p l).1 (settle book answer p l).2 := by
  induction p generalizing l with
  | ret a => exact .ret a l
  | call e k ih => exact .call (answer e) (ih (answer e) _)

end Ends

/-! ### Programs that make no entry -/

/-- The program makes only calls that meet `P`, whatever it is answered. -/
def Only (P : E → Prop) : Prog E R α → Prop
  | .ret _ => True
  | .call e k => P e ∧ ∀ r, Only P (k r)

section Only
variable {P : E → Prop}

theorem only_bind {p : Prog E R β} {f : β → Prog E R α} (hp : Only P p) (hf : ∀ b, Only P (f b)) :
    Only P (p >>= f) := by
  induction p with
  | ret b => exact hf b
  | call e k ih => exact ⟨hp.1, fun r => ih r (hp.2 r)⟩

theorem only_loop {body : γ → Prog E R (γ ⊕ β)} (h : ∀ c, Only P (body c)) (n : ℕ) (c : γ) :
    Only P (loop body n c) := by
  induction n generalizing c with
  | zero => trivial
  | succ n ih =>
    apply only_bind (h c)
    intro r
    cases r with
    | inl c' => exact ih c'
    | inr b => trivial

theorem Ends.of_only {book : Book E R L} (hP : ∀ e, P e → ∀ r l, book e r l = l)
    {p : Prog E R α} (hp : Only P p) {l l' : L} {a : α} (h : Ends book p l a l') : l' = l := by
  induction h with
  | ret => rfl
  | call r _ ih =>
    have hl := ih (hp.2 r)
    rwa [hP _ hp.1] at hl

end Only

end EffectLedger
