import Mathlib.Data.List.Nodup
import Mathlib.Data.Set.Function

/-! Linked lists in a heap. `next` follows one pointer field, and a chain says which nodes are
met from a pointer up to the null pointer. -/
namespace PointerChain

variable {α : Type*}

inductive Chain (next : α → Option α) : Option α → List α → Prop where
  | nil : Chain next none []
  | cons {a l} : Chain next (next a) l → Chain next (some a) (a :: l)

variable {next next' : α → Option α} {p : Option α} {a : α} {l l' : List α}

@[simp] theorem chain_none : Chain next none l ↔ l = [] := by
  constructor
  · intro h
    cases h
    rfl
  · rintro rfl
    exact .nil

@[simp] theorem chain_some : Chain next (some a) l ↔ ∃ t, l = a :: t ∧ Chain next (next a) t := by
  constructor
  · intro h
    cases h with
    | cons ht => exact ⟨_, rfl, ht⟩
  · rintro ⟨t, rfl, ht⟩
    exact .cons ht

@[simp] theorem chain_empty : Chain next p [] ↔ p = none := by
  constructor
  · intro h
    cases h
    rfl
  · rintro rfl
    exact .nil

theorem chain_head : Chain next p (a :: l) ↔ p = some a ∧ Chain next (next a) l := by
  constructor
  · intro h
    cases h with
    | cons ht => exact ⟨rfl, ht⟩
  · rintro ⟨rfl, ht⟩
    exact .cons ht

theorem Chain.head_eq (h : Chain next p l) : p = l.head? := by
  cases h <;> rfl

/-- A pointer leads to one list only. -/
theorem Chain.unique (h : Chain next p l) (h' : Chain next p l') : l = l' := by
  induction h generalizing l' with
  | nil => exact (chain_none.mp h').symm
  | cons _ ih =>
    obtain ⟨t, rfl, ht⟩ := chain_some.mp h'
    rw [ih ht]

theorem Chain.suffix {m : List α} (h : Chain next p (l ++ a :: m)) :
    Chain next (some a) (a :: m) := by
  induction l generalizing p with
  | nil =>
    obtain ⟨rfl, ht⟩ := chain_head.mp h
    exact .cons ht
  | cons b l ih => exact ih (chain_head.mp h).2

/-- No node is met twice: what follows the first visit would have to follow the second. -/
theorem Chain.nodup (h : Chain next p l) : l.Nodup := by
  induction h with
  | nil => exact List.nodup_nil
  | @cons a l ht ih =>
    refine List.nodup_cons.mpr ⟨?_, ih⟩
    intro hmem
    obtain ⟨s, t, rfl⟩ := List.append_of_mem hmem
    have heq := Chain.unique (.cons ht) ht.suffix
    have hlen := congrArg List.length heq
    simp at hlen
    omega

theorem Chain.congr (h : Chain next p l) (heq : ∀ b ∈ l, next' b = next b) : Chain next' p l := by
  induction h with
  | nil => exact .nil
  | @cons a l ht ih =>
    have ha := heq a List.mem_cons_self
    exact .cons (ha ▸ ih fun b hb => heq b (List.mem_cons_of_mem a hb))

/-- A node in front, its pointer set to the old head and all others left as they are. -/
theorem Chain.push (h : Chain next p l) (ha : next' a = p) (heq : ∀ b ∈ l, next' b = next b) :
    Chain next' (some a) (a :: l) := .cons (ha ▸ h.congr heq)

/-- One pointer is rewritten: a chain through its node continues where the pointer now leads. -/
theorem Chain.redirect (h : Chain next p l) (heq : ∀ b, b ≠ a → next' b = next b)
    (ha : Chain next' (some a) l') :
    ∃ m, Chain next' p m ∧ ∀ b ∈ m, b ∈ l ∨ b ∈ l' := by
  classical
  induction h with
  | nil => exact ⟨[], .nil, fun b hb => absurd hb List.not_mem_nil⟩
  | @cons c l _ ih =>
    by_cases hc : c = a
    · subst c
      exact ⟨l', ha, fun b hb => Or.inr hb⟩
    · obtain ⟨m, hm, hsub⟩ := ih
      refine ⟨c :: m, .cons (heq c hc ▸ hm), ?_⟩
      intro b hb
      rcases List.mem_cons.mp hb with rfl | hb
      · exact Or.inl List.mem_cons_self
      · rcases hsub b hb with hb | hb
        · exact Or.inl (List.mem_cons_of_mem c hb)
        · exact Or.inr hb

/-- Whatever the walk reaches is where it starts or what some node on the way points to. -/
theorem Chain.reached_from {q : Option α} (h : Chain next p l) (hq : ∀ b, q = some b → b ∈ l) :
    p = q ∨ ∃ c ∈ l, next c = q := by
  induction h with
  | nil =>
    cases q with
    | none => exact Or.inl rfl
    | some b => exact absurd (hq b rfl) List.not_mem_nil
  | @cons a l _ ih =>
    by_cases hstart : q = some a
    · exact Or.inl hstart.symm
    · right
      have htail : ∀ b, q = some b → b ∈ l := by
        intro b hb
        rcases List.mem_cons.mp (hq b hb) with rfl | hl
        · exact absurd hb hstart
        · exact hl
      rcases ih htail with hnext | ⟨c, hc, hnext⟩
      · exact ⟨a, List.mem_cons_self, hnext⟩
      · exact ⟨c, List.mem_cons_of_mem a hc, hnext⟩

theorem Chain.next_ne_start (h : Chain next p l) : ∀ a ∈ l, next a ≠ p := by
  intro a ha heq
  obtain ⟨s, t, rfl⟩ := List.append_of_mem ha
  have htail : Chain next p t := heq ▸ (chain_head.mp h.suffix).2
  have hlen := congrArg List.length (h.unique htail)
  simp at hlen
  omega

theorem Chain.injOn (h : Chain next p l) : Set.InjOn next {a | a ∈ l} := by
  induction h with
  | nil =>
    intro a ha
    exact absurd ha List.not_mem_nil
  | @cons c l ht ih =>
    intro a ha b hb heq
    rcases List.mem_cons.mp ha with rfl | hal <;> rcases List.mem_cons.mp hb with rfl | hbl
    · rfl
    · exact absurd heq.symm (ht.next_ne_start b hbl)
    · exact absurd heq (ht.next_ne_start a hal)
    · exact ih hal hbl heq

/-- The walk from `p` meets all of `S` exactly when the pointers of `S` make one list that `p`
heads: no two of them agree and none leads back to `p`. -/
theorem Chain.covers_iff {S : Set α} (h : Chain next p l) (hsub : ∀ a ∈ l, a ∈ S)
    (hS : ∀ a ∈ S, ∃ m, Chain next (some a) m ∧ ∀ b ∈ m, b ∈ S) :
    (∀ a ∈ S, a ∈ l) ↔ Set.InjOn next S ∧ ∀ a ∈ S, next a ≠ p := by
  constructor
  · intro hall
    constructor
    · intro a ha b hb heq
      exact h.injOn (hall a ha) (hall b hb) heq
    · intro a ha
      exact h.next_ne_start a (hall a ha)
  · rintro ⟨hinj, hstart⟩
    -- from the null pointer at the end of `a`'s own list back to `a`
    have hback : ∀ q m, Chain next q m → (∀ b ∈ m, b ∈ S) → ∀ b ∈ m, b ∈ l := by
      intro q m hm
      induction hm with
      | nil =>
        intro _ b hb
        exact absurd hb List.not_mem_nil
      | @cons a m ht ih =>
        intro hmS
        have hmem : ∀ b ∈ m, b ∈ l := ih fun b hb => hmS b (List.mem_cons_of_mem a hb)
        have haS : a ∈ S := hmS a List.mem_cons_self
        have hnext : ∀ b, next a = some b → b ∈ l := by
          intro b hb
          obtain ⟨t, rfl, -⟩ := chain_some.mp (hb ▸ ht)
          exact hmem b List.mem_cons_self
        have hal : a ∈ l := by
          rcases h.reached_from hnext with hp | ⟨c, hc, heq⟩
          · exact absurd hp.symm (hstart a haS)
          · exact hinj (hsub c hc) haS heq ▸ hc
        intro b hb
        rcases List.mem_cons.mp hb with rfl | hb
        · exact hal
        · exact hmem b hb
    intro a ha
    obtain ⟨m, hm, hmS⟩ := hS a ha
    obtain ⟨t, rfl, -⟩ := chain_some.mp hm
    exact hback _ _ hm hmS a List.mem_cons_self

end PointerChain
