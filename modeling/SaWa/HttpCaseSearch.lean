import SaWa.HttpServer
import Mathlib.Data.Nat.Find

/-! `Util::strnCaseStr` on C strings, with whatever the memory behind them holds. -/
namespace HttpCaseSearch

open HttpServer

structure CString where
  text : Text
  no_null : '\x00' ∉ text

/-- The memory at the string: its null comes after it, and then `junk`. -/
def CString.memory (s : CString) (junk : Text) : Text := s.text ++ '\x00' :: junk

/-- `find` stands at position `p` of `s`, whatever the case of the letters is. -/
def OccursAt (s find : Text) (p : ℕ) : Prop :=
  ∀ i < find.length, s[p + i]?.map Char.toLower = find[i]?.map Char.toLower

instance (s find : Text) (p : ℕ) : Decidable (OccursAt s find p) :=
  inferInstanceAs (Decidable (∀ i < find.length, _))

/-- The answer is whether `find` occurs within the first `min(strlen(s), max)` characters. -/
def Answers (s find : CString) (max : ℕ) : Prop :=
  ∀ junk, strnCaseStr (s.memory junk) find.text max = true ↔
    ∃ p, p + find.text.length ≤ min s.text.length max ∧ OccursAt s.text find.text p

def FirstAt (s find : Text) (p : ℕ) : Prop :=
  OccursAt s find p ∧ ∀ q < p, ¬OccursAt s find q

theorem toLower_eq_null {c : Char} (h : c.toLower = '\x00') : c = '\x00' := by
  unfold Char.toLower at h
  split at h
  · next hupper =>
    have hval := congrArg Char.val h
    have := UInt32.le_iff_toNat_le.1 hupper.1
    have := UInt32.le_iff_toNat_le.1 hupper.2
    have hnat := congrArg UInt32.toNat hval
    simp at *
    omega
  · exact h

section Occurrences
variable {s find : Text} {p : ℕ}

theorem occursAt_drop : OccursAt (s.drop p) find 0 ↔ OccursAt s find p := by
  simp [OccursAt]

theorem occursAt_cons {c : Char} :
    OccursAt s (c :: find) 0 ↔ s[0]?.map Char.toLower = some c.toLower ∧
      OccursAt s.tail find 0 := by
  simp only [OccursAt, List.length_cons, Nat.zero_add]
  constructor
  · intro h
    refine ⟨by simpa using h 0 (Nat.succ_pos _), fun i hi => ?_⟩
    simpa using h (i + 1) (by omega)
  · rintro ⟨hhead, htail⟩ i hi
    cases i with
    | zero => simpa using hhead
    | succ i => simpa using htail i (by omega)

theorem OccursAt.le_length (h : OccursAt s find p) (hfind : find ≠ []) :
    p + find.length ≤ s.length := by
  have hpos := List.length_pos_iff.2 hfind
  have hlast := h (find.length - 1) (by omega)
  rw [@List.getElem?_eq_getElem _ find _ (by omega), Option.map_some,
    Option.map_eq_some_iff] at hlast
  obtain ⟨c, hc, -⟩ := hlast
  have := (List.getElem?_eq_some_iff.1 hc).1
  omega

theorem not_occursAt_nil (hfind : find ≠ []) : ¬OccursAt [] find p := by
  intro h
  have hpos := List.length_pos_iff.2 hfind
  have hle := h.le_length hfind
  rw [List.length_nil] at hle
  omega

end Occurrences

section Search
variable {find : Text}

theorem caseEqual_iff (hfind : '\x00' ∉ find) {s : Text} :
    caseEqual s find = true ↔ OccursAt s find 0 := by
  induction find generalizing s with
  | nil => simp [caseEqual, OccursAt]
  | cons c find ih =>
    rw [List.mem_cons, not_or] at hfind
    rw [occursAt_cons, ← ih hfind.2, caseEqual, Bool.and_eq_true, decide_eq_true_eq]
    cases s with
    | nil =>
      have hc : '\x00' ≠ c.toLower := fun h => hfind.1 (toLower_eq_null h.symm).symm
      simp [hc]
    | cons d s => simp

theorem caseSearch_iff {c : Char} {n : ℕ} {s : Text} :
    caseSearch c find n s = true ↔ ∃ p, p + 1 < n ∧ caseEqual (s.drop p) (c :: find) = true := by
  induction n generalizing s with
  | zero => simp [caseSearch]
  | succ n ih =>
    rw [caseSearch]
    by_cases hn : n = 0
    · simp [hn]
    have hhead : (decide ((s.headD '\x00').toLower = c.toLower) && caseEqual s.tail find) =
        caseEqual (s.drop 0) (c :: find) := rfl
    rw [if_neg hn, hhead, Bool.or_eq_true, ih]
    constructor
    · rintro (h | ⟨p, hp, h⟩)
      · exact ⟨0, by omega, h⟩
      · exact ⟨p + 1, by omega, by rwa [List.drop_tail] at h⟩
    · rintro ⟨p, hp, h⟩
      cases p with
      | zero => exact .inl h
      | succ p => exact .inr ⟨p, by omega, by rwa [List.drop_tail]⟩

/-- The bound is on the first character of `find` alone, and the memory is gone through. -/
theorem strnCaseStr_iff (hne : find ≠ []) (hfind : '\x00' ∉ find) {memory : Text} {max : ℕ} :
    strnCaseStr memory find max = true ↔ ∃ p, p + 1 < max ∧ OccursAt memory find p := by
  cases find with
  | nil => exact absurd rfl hne
  | cons c find =>
    rw [strnCaseStr, caseSearch_iff]
    simp only [caseEqual_iff hfind, occursAt_drop]

/-- `find` has no null: it stands before the null or after it. -/
theorem occursAt_memory (s : CString) (hne : find ≠ []) (hfind : '\x00' ∉ find) {junk : Text}
    {p : ℕ} : OccursAt (s.memory junk) find p ↔
      OccursAt s.text find p ∨ ∃ q, p = s.text.length + 1 + q ∧ OccursAt junk find q := by
  have hpos := List.length_pos_iff.2 hne
  have hbefore : ∀ k < s.text.length, (s.memory junk)[k]? = s.text[k]? :=
    fun k hk => List.getElem?_append_left hk
  have hnull : (s.memory junk)[s.text.length]? = some '\x00' := by
    rw [CString.memory, List.getElem?_append_right (Nat.le_refl _), Nat.sub_self]
    rfl
  have hafter : ∀ k, (s.memory junk)[s.text.length + 1 + k]? = junk[k]? := by
    intro k
    have hk : s.text.length + 1 + k - s.text.length = k + 1 := by omega
    rw [CString.memory, List.getElem?_append_right (by omega), hk, List.getElem?_cons_succ]
  constructor
  · intro h
    rcases Nat.lt_or_ge s.text.length p with hp | hp
    · refine .inr ⟨p - s.text.length - 1, by omega, fun i hi => ?_⟩
      have hi' : s.text.length + 1 + (p - s.text.length - 1 + i) = p + i := by omega
      rw [← hafter, hi']
      exact h i hi
    · refine .inl fun i hi => ?_
      by_cases hin : p + i < s.text.length
      · rw [← hbefore _ hin]
        exact h i hi
      -- some character of `find` would have to be the null
      · have hmeets := h (s.text.length - p) (by omega)
        rw [Nat.add_sub_cancel' hp, hnull, Option.map_some, eq_comm, Option.map_eq_some_iff]
          at hmeets
        obtain ⟨c, hc, hlower⟩ := hmeets
        rw [toLower_eq_null (c := c) hlower] at hc
        exact absurd (List.mem_of_getElem? hc) hfind
  · rintro (h | ⟨q, rfl, h⟩) i hi
    · have hle := h.le_length hne
      rw [hbefore _ (by omega)]
      exact h i hi
    · rw [Nat.add_assoc, hafter]
      exact h i hi

/-- The header is found wherever it ends before the bound. -/
theorem keepAlive_of_header (s : CString) (junk : Text) {p : ℕ}
    (hp : p + 22 ≤ requestMessageLen)
    (h : OccursAt s.text "Connection: Keep-Alive".toList p) :
    (parseRequest (s.memory junk)).keepAlive = true := by
  have hne : "Connection: Keep-Alive".toList ≠ [] := by decide
  have hnull : '\x00' ∉ "Connection: Keep-Alive".toList := by decide
  show strnCaseStr (s.memory junk) "Connection: Keep-Alive".toList requestMessageLen = true
  rw [strnCaseStr_iff hne hnull]
  exact ⟨p, by omega, (occursAt_memory s hne hnull).2 (.inl h)⟩

end Search

section Answers
variable (s find : CString) (max : ℕ)

theorem firstAt_of_occursAt {s find : Text} {p : ℕ} (h : OccursAt s find p) :
    ∃ q, FirstAt s find q :=
  ⟨Nat.find ⟨p, h⟩, Nat.find_spec ⟨p, h⟩, fun _ => Nat.find_min ⟨p, h⟩⟩

/-- The first place decides whether there is one below a bound. -/
theorem FirstAt.exists_iff {s find : Text} {p k : ℕ} (h : FirstAt s find p) :
    (∃ q, q + k ≤ max ∧ OccursAt s find q) ↔ p + k ≤ max := by
  constructor
  · rintro ⟨q, hq, hocc⟩
    have hle : p ≤ q := Nat.not_lt.1 fun hlt => h.2 q hlt hocc
    omega
  · intro hp
    exact ⟨p, hp, h.1⟩

theorem answers_empty (hfind : find.text = []) : Answers s find max := by
  intro junk
  rw [hfind]
  exact iff_of_true rfl ⟨0, Nat.zero_le _, fun i hi => absurd hi (Nat.not_lt_zero i)⟩

theorem answers_iff_of_ne (hne : find.text ≠ []) : Answers s find max ↔ ∀ junk : Text,
    (∃ p, p + 2 ≤ max ∧ OccursAt s.text find.text p) ∨
        (∃ q, s.text.length + 3 + q ≤ max ∧ OccursAt junk find.text q) ↔
      ∃ p, p + find.text.length ≤ max ∧ OccursAt s.text find.text p := by
  apply forall_congr'
  intro junk
  have hfound : (∃ p, p + 1 < max ∧ OccursAt (s.memory junk) find.text p) ↔
      (∃ p, p + 2 ≤ max ∧ OccursAt s.text find.text p) ∨
        ∃ q, s.text.length + 3 + q ≤ max ∧ OccursAt junk find.text q := by
    simp only [occursAt_memory s hne find.no_null]
    constructor
    · rintro ⟨p, hp, h | ⟨q, rfl, h⟩⟩
      · exact .inl ⟨p, hp, h⟩
      · exact .inr ⟨q, by omega, h⟩
    · rintro (⟨p, hp, h⟩ | ⟨q, hq, h⟩)
      · exact ⟨p, hp, .inl h⟩
      · exact ⟨s.text.length + 1 + q, by omega, .inr ⟨q, rfl, h⟩⟩
  have hpromised : (∃ p, p + find.text.length ≤ min s.text.length max ∧
      OccursAt s.text find.text p) ↔
        ∃ p, p + find.text.length ≤ max ∧ OccursAt s.text find.text p := by
    constructor
    · rintro ⟨p, hp, h⟩
      exact ⟨p, by omega, h⟩
    · rintro ⟨p, hp, h⟩
      exact ⟨p, Nat.le_min.2 ⟨h.le_length hne, hp⟩, h⟩
  rw [strnCaseStr_iff hne find.no_null, hfound, hpromised]

/-- Exactly when the answer is right: the pattern comes first where the two bounds agree, or does
not come at all and the search stays within the string. -/
theorem answers_iff : Answers s find max ↔
    find.text = [] ∨
      (∃ p, FirstAt s.text find.text p ∧ (p + 1 < max ↔ p + find.text.length ≤ max)) ∨
      (∀ p, ¬OccursAt s.text find.text p) ∧ max ≤ s.text.length + 2 := by
  by_cases hne : find.text = []
  · exact iff_of_true (answers_empty s find max hne) (.inl hne)
  rw [answers_iff_of_ne s find max hne, or_iff_right hne]
  constructor
  · intro h
    by_cases hocc : ∃ p, OccursAt s.text find.text p
    · obtain ⟨p, hp⟩ := hocc
      obtain ⟨q, hq⟩ := firstAt_of_occursAt hp
      have hnone : ¬∃ q, s.text.length + 3 + q ≤ max ∧ OccursAt [] find.text q :=
        fun ⟨_, _, h⟩ => not_occursAt_nil hne h
      have hbounds := h []
      rw [or_iff_left hnone, hq.exists_iff, hq.exists_iff] at hbounds
      exact .inl ⟨q, hq, hbounds⟩
    -- a copy of the pattern right behind the null must be out of reach
    · refine .inr ⟨fun p hp => hocc ⟨p, hp⟩, ?_⟩
      by_contra hlong
      obtain ⟨p, -, hp⟩ := (h find.text).1 (.inr ⟨0, by omega, fun i _ => by rw [Nat.zero_add]⟩)
      exact hocc ⟨p, hp⟩
  · rintro (⟨p, hp, hbounds⟩ | ⟨hnone, hmax⟩) junk
    · have hle := hp.1.le_length hne
      rw [hp.exists_iff, hp.exists_iff]
      constructor
      · rintro (h | ⟨q, hq, -⟩)
        · exact hbounds.1 h
        · omega
      · intro h
        exact .inl (hbounds.2 h)
    · constructor
      · rintro (⟨p, -, hp⟩ | ⟨q, hq, -⟩)
        · exact absurd hp (hnone p)
        · omega
      · rintro ⟨p, -, hp⟩
        exact absurd hp (hnone p)

def one : CString := ⟨['a'], by decide⟩

def three : CString := ⟨['a', 'b', 'c'], by decide⟩

def empty : CString := ⟨[], by decide⟩

/-- A match that ends at the bound is missed, one that crosses it is found, and one behind the null
is found too. -/
theorem wrong_answers :
    (strnCaseStr (one.memory []) one.text 1 = false ∧ ¬Answers one one 1) ∧
      (strnCaseStr (three.memory []) three.text 2 = true ∧ ¬Answers three three 2) ∧
      strnCaseStr (empty.memory ['A']) one.text 10 = true ∧
      strnCaseStr (empty.memory []) one.text 10 = false ∧ ¬Answers empty one 10 := by
  refine ⟨⟨by decide, fun h => ?_⟩, ⟨by decide, fun h => ?_⟩, by decide, by decide, fun h => ?_⟩
  · exact absurd ((h []).2 ⟨0, by decide⟩) (by decide)
  · obtain ⟨p, hp, -⟩ := (h []).1 (by decide)
    have hle : p + 3 ≤ min 3 2 := hp
    omega
  · obtain ⟨p, hp, -⟩ := (h ['A']).1 (by decide)
    have hle : p + 1 ≤ min 0 10 := hp
    omega

end Answers

end HttpCaseSearch
