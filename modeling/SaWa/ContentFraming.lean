import Mathlib.Data.List.Basic

/-! Messages with a head of lines, an empty line and a body whose length one of the lines declares,
taken off a stream one after the other. -/
namespace ContentFraming

abbrev Line := List Char

def unlines (lines : List Line) : List Char := lines.flatMap (· ++ ['\n'])

/-- The lines up to the first empty one, and what follows that; `line` has been read already of
the first line. -/
def readHead (line : Line) : List Char → Option (List Line × List Char)
  | [] => none
  | c :: s =>
    if c = '\n' then
      if line = [] then some ([], s)
      else (readHead [] s).map fun p => (line :: p.1, p.2)
    else readHead (line ++ [c]) s

def lengthField : Line := "Content-Length: ".toList

/-- The number a line declares as the length of the body. -/
def declaredBy (line : Line) : Option ℕ :=
  if lengthField <+: line ∧ (line.drop lengthField.length).all Char.isDigit then
    some (Nat.ofDigitChars 10 (line.drop lengthField.length) 0)
  else none

def contentLength (lines : List Line) : Option ℕ := lines.findSome? declaredBy

/-- A message declares the length of its body: all that it has behind its first empty line. -/
def Declares (message : List Char) : Prop :=
  ∃ lines body, readHead [] message = some (lines, body) ∧ contentLength lines = some body.length

def body (message : List Char) : List Char := ((readHead [] message).map Prod.snd).getD []

/-- The body of the first message of a stream, and the rest of the stream. -/
def readMessage (s : List Char) : Option (List Char × List Char) :=
  match readHead [] s with
  | none => none
  | some (lines, s) =>
    match contentLength lines with
    | none => none
    | some n => if n ≤ s.length then some (s.take n, s.drop n) else none

/-- The bodies of so many messages, and what is left of the stream. -/
def readMessages : ℕ → List Char → Option (List (List Char) × List Char)
  | 0, s => some ([], s)
  | n + 1, s =>
    match readMessage s with
    | none => none
    | some (body, s) => (readMessages n s).map fun p => (body :: p.1, p.2)

section ReadHead

theorem readHead_line {l : Line} (hl : '\n' ∉ l) (line : Line) (hne : line ++ l ≠ [])
    (s : List Char) :
    readHead line (l ++ '\n' :: s) = (readHead [] s).map fun p => ((line ++ l) :: p.1, p.2) := by
  induction l generalizing line with
  | nil =>
    rw [List.append_nil] at hne ⊢
    rw [List.nil_append, readHead, if_pos rfl, if_neg hne]
  | cons c l ih =>
    have hc : c ≠ '\n' := fun h => hl (h ▸ List.mem_cons_self)
    rw [List.cons_append, readHead, if_neg hc,
      ih (fun h => hl (List.mem_cons_of_mem c h)) (line ++ [c]) (by simp)]
    simp

/-- A head of lines that are not empty is read back as it was written. -/
theorem readHead_unlines {lines : List Line} (h : ∀ l ∈ lines, l ≠ [] ∧ '\n' ∉ l)
    (body : List Char) : readHead [] (unlines lines ++ '\n' :: body) = some (lines, body) := by
  induction lines with
  | nil => rfl
  | cons l lines ih =>
    obtain ⟨hne, hl⟩ := h l List.mem_cons_self
    have hsplit : unlines (l :: lines) ++ '\n' :: body =
        l ++ '\n' :: (unlines lines ++ '\n' :: body) := by
      simp [unlines]
    rw [hsplit, readHead_line hl [] hne, ih fun l hm => h l (List.mem_cons_of_mem _ hm)]
    rfl

/-- What follows a message does not change its head. -/
theorem readHead_append {line : Line} {s body : List Char} {lines : List Line}
    (h : readHead line s = some (lines, body)) (rest : List Char) :
    readHead line (s ++ rest) = some (lines, body ++ rest) := by
  induction s generalizing line lines with
  | nil => cases h
  | cons c s ih =>
    rw [List.cons_append, readHead] at *
    by_cases hc : c = '\n'
    · rw [if_pos hc] at h ⊢
      by_cases hline : line = []
      · rw [if_pos hline] at h ⊢
        cases h
        rfl
      · rw [if_neg hline] at h ⊢
        obtain ⟨p, hp, hlines⟩ := Option.map_eq_some_iff.mp h
        cases hlines
        rw [ih hp]
        rfl
    · rw [if_neg hc] at h ⊢
      exact ih h

end ReadHead

section Declared

theorem declaredBy_field (n : ℕ) : declaredBy (lengthField ++ (toString n).toList) = some n := by
  have hdigits : (toString n).toList = Nat.toDigits 10 n := Nat.toList_repr
  have hall : (Nat.toDigits 10 n).all Char.isDigit = true := by
    rw [List.all_eq_true]
    intro c hc
    exact Nat.isDigit_of_mem_toDigits (by decide) (by decide) hc
  rw [declaredBy, List.drop_left, hdigits, if_pos ⟨List.prefix_append _ _, hall⟩,
    Nat.ofDigitChars_ten_toDigits]

theorem newline_not_digit (n : ℕ) : '\n' ∉ (toString n).toList := by
  intro h
  have hdigits : (toString n).toList = Nat.toDigits 10 n := Nat.toList_repr
  rw [hdigits] at h
  exact absurd (Nat.isDigit_of_mem_toDigits (by decide) (by decide) h) (by decide)

end Declared

/-! ### Streams -/

theorem readMessage_append {message : List Char} (h : Declares message) (rest : List Char) :
    readMessage (message ++ rest) = some (body message, rest) := by
  obtain ⟨lines, content, hhead, hlen⟩ := h
  rw [readMessage, readHead_append hhead, body, hhead]
  simp [hlen]

/-- Messages that declare the lengths of their bodies are taken apart into these bodies, and
nothing is left over. -/
theorem readMessages_flatten {messages : List (List Char)} (h : ∀ m ∈ messages, Declares m) :
    readMessages messages.length messages.flatten = some (messages.map body, []) := by
  induction messages with
  | nil => rfl
  | cons m messages ih =>
    rw [List.length_cons, List.flatten_cons, readMessages,
      readMessage_append (h m List.mem_cons_self)]
    simp only [ih fun m hm => h m (List.mem_cons_of_mem _ hm)]
    rfl

end ContentFraming
