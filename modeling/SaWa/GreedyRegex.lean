import Mathlib.Data.List.TakeWhile

/-! Regular expressions with greedy, ordered backtracking. The ways an expression matches at the
front of a text are a list, the preferred one first; a search takes the first way at the leftmost
place that has one. -/
namespace GreedyRegex

variable {α : Type}

inductive Regex (α : Type) where
  | empty
  | start
  | cls (p : α → Bool)
  | seq (r q : Regex α)
  | star (r : Regex α)
  | opt (r : Regex α)
  | group (k : ℕ) (r : Regex α)

/-- The groups captured, the newest first. -/
abbrev Groups (α : Type) := List (ℕ × List α)

/-- The groups captured and the text left over. -/
abbrev Way (α : Type) := Groups α × List α

def after (g : Groups α) (w : Way α) : Way α := (w.1 ++ g, w.2)

/-- As many rounds as there are, before fewer of them; a round that takes nothing is none. -/
def rounds (step : List α → List (Way α)) : ℕ → List α → List (Way α)
  | 0, s => [([], s)]
  | fuel + 1, s =>
    ((step s).filter (·.2.length < s.length)).flatMap
      (fun w => (rounds step fuel w.2).map (after w.1)) ++ [([], s)]

/-- The ways to match at the front of `s`, in a text of length `n` of which `s` is the end. -/
def ways : Regex α → ℕ → List α → List (Way α)
  | .empty, _, s => [([], s)]
  | .start, n, s => if s.length = n then [([], s)] else []
  | .cls _, _, [] => []
  | .cls p, _, c :: s => if p c then [([], s)] else []
  | .seq r q, n, s => (ways r n s).flatMap fun w => (ways q n w.2).map (after w.1)
  | .star r, n, s => rounds (ways r n) s.length s
  | .opt r, n, s => (ways r n s).filter (·.2.length < s.length) ++ [([], s)]
  | .group k r, n, s =>
    (ways r n s).map fun w => ((k, s.take (s.length - w.2.length)) :: w.1, w.2)

def searchFrom (r : Regex α) (n : ℕ) : List α → Option (Way α)
  | [] => (ways r n []).head?
  | c :: s => (ways r n (c :: s)).head?.or (searchFrom r n s)

/-- The first match in a text: its groups, and what follows it. -/
def search (r : Regex α) (s : List α) : Option (Way α) := searchFrom r s.length s

/-- The text of a group, empty for one that took no part in the match. -/
def captured (w : Way α) (k : ℕ) : List α := (w.1.lookup k).getD []

def plus (r : Regex α) : Regex α := .seq r (.star r)

def word [DecidableEq α] : List α → Regex α
  | [] => .empty
  | c :: cs => .seq (.cls (· = c)) (word cs)

section Basic
variable {p : α → Bool} {r q : Regex α} {n : ℕ} {c : α} {s : List α}

@[simp] theorem ways_empty : ways (.empty : Regex α) n s = [([], s)] := rfl
@[simp] theorem ways_cls_nil : ways (.cls p) n [] = [] := rfl
@[simp] theorem ways_cls_cons : ways (.cls p) n (c :: s) = if p c then [([], s)] else [] := rfl

@[simp] theorem after_nil : after ([] : Groups α) = id := by
  funext w
  simp [after]

theorem after_after (g h : Groups α) (w : Way α) : after g (after h w) = after (h ++ g) w := by
  simp [after]

theorem ways_seq : ways (.seq r q) n s =
    (ways r n s).flatMap fun w => (ways q n w.2).map (after w.1) := rfl

theorem ways_start : ways (.start : Regex α) s.length s = [([], s)] := if_pos rfl

theorem ways_seq_assoc (t : Regex α) :
    ways (.seq (.seq r q) t) n s = ways (.seq r (.seq q t)) n s := by
  simp only [ways_seq, List.flatMap_assoc, List.flatMap_map, List.map_flatMap, List.map_map]
  congr 1
  funext w
  congr 1
  funext v
  congr 1
  funext u
  exact (after_after w.1 v.1 u).symm

/-- An anchored expression is found at the start of the text or not at all. -/
theorem search_start : search (.seq .start r) s = (ways r s.length s).head? := by
  have hlater : ∀ (n : ℕ) (t : List α), t.length < n → searchFrom (.seq .start r) n t = none := by
    intro n t
    induction t with
    | nil =>
      intro hn
      have hne : ([] : List α).length ≠ n := hn.ne
      rw [searchFrom, ways_seq, ways, if_neg hne]
      rfl
    | cons c t ih =>
      intro hn
      have hne : (c :: t).length ≠ n := hn.ne
      have ht := ih (Nat.lt_of_succ_lt hn)
      simp only [searchFrom, ways, if_neg hne, List.flatMap_nil, List.head?_nil, Option.or, ht]
  have hfront : ways (.seq .start r) s.length s = ways r s.length s := by
    rw [ways_seq, ways_start, List.flatMap_singleton, after_nil, List.map_id]
  cases s with
  | nil => rw [search, searchFrom, hfront]
  | cons c t =>
    have ht := hlater (c :: t).length t (Nat.lt_succ_self _)
    rw [search, searchFrom, hfront, ht, Option.or_none]

end Basic

/-! ### Runs of a class -/

/-- What is left behind a run of `p`, the longest run first. -/
def leavings (p : α → Bool) : List α → List (List α)
  | [] => [[]]
  | c :: s => if p c then leavings p s ++ [c :: s] else [c :: s]

section Runs
variable {p : α → Bool} {r : Regex α} {n : ℕ} {s : List α}

theorem rounds_cls {fuel : ℕ} (hf : s.length ≤ fuel) :
    rounds (ways (.cls p) n) fuel s = (leavings p s).map ([], ·) := by
  induction fuel generalizing s with
  | zero =>
    rw [List.length_eq_zero_iff.mp (Nat.le_zero.mp hf)]
    rfl
  | succ fuel ih =>
    cases s with
    | nil => rfl
    | cons c s =>
      have hs := ih (Nat.le_of_succ_le_succ hf)
      by_cases hc : p c
      · simp [rounds, leavings, hc, hs]
      · simp [rounds, leavings, hc]

theorem ways_star_cls : ways (.star (.cls p)) n s = (leavings p s).map ([], ·) :=
  rounds_cls (Nat.le_refl _)

/-- Where what follows cannot begin with a character of the run, only the longest run counts. -/
theorem flatMap_leavings {β : Type} {f : List α → List β}
    (hf : ∀ c t, p c = true → f (c :: t) = []) :
    (leavings p s).flatMap f = f (s.dropWhile p) := by
  induction s with
  | nil => simp [leavings]
  | cons c s ih =>
    by_cases hc : p c = true
    · simp [leavings, hc, ih, hf c s hc]
    · simp [leavings, hc]

/-- The expression cannot begin with a character of `p`. -/
def Rejects (r : Regex α) (p : α → Bool) : Prop := ∀ n c t, p c = true → ways r n (c :: t) = []

theorem ways_plus_cls (hr : Rejects r p) : ways (.seq (plus (.cls p)) r) n s =
    if s.takeWhile p = [] then [] else ways r n (s.dropWhile p) := by
  cases s with
  | nil => rfl
  | cons c s =>
    by_cases hc : p c = true
    · have hstar : ways (.seq (.star (.cls p)) r) n s = ways r n (s.dropWhile p) := by
        rw [ways_seq, ways_star_cls, List.flatMap_map]
        simp only [after_nil, List.map_id]
        exact flatMap_leavings fun d t hd => hr n d t hd
      rw [plus, ways_seq_assoc, ways_seq]
      simp [hc, hstar]
    · simp [plus, ways_seq, hc]

/-- The run as a group. -/
theorem ways_group_plus_cls (k : ℕ) (hr : Rejects r p) :
    ways (.seq (.group k (plus (.cls p))) r) n s =
      if s.takeWhile p = [] then []
      else (ways r n (s.dropWhile p)).map (after [(k, s.takeWhile p)]) := by
  cases s with
  | nil => rfl
  | cons c s =>
    by_cases hc : p c = true
    · have hgroup : ways (.group k (plus (.cls p))) n (c :: s) = (leavings p s).map fun t =>
          ([(k, (c :: s).take ((c :: s).length - t.length))], t) := by
        simp [ways, plus, hc, rounds_cls, Function.comp_def]
      have hrun : (c :: s).take ((c :: s).length - (s.dropWhile p).length) =
          c :: s.takeWhile p := by
        have hlen := congrArg List.length (List.takeWhile_append_dropWhile (p := p) (l := s))
        rw [List.length_append] at hlen
        have hsub : (c :: s).length - (s.dropWhile p).length = (s.takeWhile p).length + 1 := by
          rw [List.length_cons]
          omega
        rw [hsub, List.take_succ_cons, ← List.prefix_iff_eq_take.mp (List.takeWhile_prefix p)]
      rw [ways_seq, hgroup, List.flatMap_map, flatMap_leavings]
      · simp only [hrun, List.takeWhile_cons_of_pos hc, List.dropWhile_cons_of_pos hc]
        rw [if_neg (List.cons_ne_nil c _)]
      · intro d t hd
        rw [hr n d t hd, List.map_nil]
    · simp [plus, ways_seq, ways, hc]

end Runs

theorem length_leavings {p : α → Bool} {s t : List α} (ht : t ∈ leavings p s) :
    t.length ≤ s.length := by
  induction s with
  | nil => simp_all [leavings]
  | cons c s ih =>
    rw [leavings] at ht
    split_ifs at ht
    · rcases List.mem_append.mp ht with ht | ht
      · exact (ih ht).trans (Nat.le_succ _)
      · rw [List.mem_singleton.mp ht]
    · rw [List.mem_singleton.mp ht]

/-- The run before what is left, with one more character in front. -/
theorem take_leavings {p : α → Bool} {s t : List α} (ht : t ∈ leavings p s) (c : α) :
    (c :: s).take ((c :: s).length - t.length) = c :: s.take (s.length - t.length) := by
  have hle := length_leavings ht
  have hlen : (c :: s).length - t.length = s.length - t.length + 1 := by
    rw [List.length_cons]
    omega
  rw [hlen, List.take_succ_cons]

/-! ### Words -/

section Words
variable [DecidableEq α] {n : ℕ}

theorem ways_word (w s : List α) :
    ways (word w) n s = if w <+: s then [([], s.drop w.length)] else [] := by
  induction w generalizing s with
  | nil => simp [word]
  | cons c w ih =>
    rw [word, ways_seq]
    cases s with
    | nil => simp
    | cons d s =>
      by_cases hd : d = c
      · subst hd
        simp [ih, List.cons_prefix_cons]
      · simp [hd, List.cons_prefix_cons, Ne.symm hd]

theorem rejects_word {p : α → Bool} {c : α} (w : List α) (hc : p c = false) :
    Rejects (word (c :: w)) p := by
  intro n d t hd
  have hne : c ≠ d := by
    rintro rfl
    exact absurd hd (by simp [hc])
  rw [ways_word, if_neg]
  intro h
  exact hne (List.cons_prefix_cons.mp h).1

end Words

end GreedyRegex
