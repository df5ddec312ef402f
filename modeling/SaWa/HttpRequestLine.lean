import SaWa.HttpServer
import SaWa.GreedyRegex
import Mathlib.Data.List.Basic

/-! The request line. The regular expression of `HTTPRequest`, written out, has `regexSearch` as
its first match, and the request is valid exactly for the lines of a grammar. -/
namespace HttpRequestLine

open HttpServer GreedyRegex

/-! ### The regular expression -/

/-- What `.` matches. -/
def isInLine (c : Char) : Bool := !(c = '\n' || c = '\r')

/-- `\s+HTTP`. -/
def ending : Regex Char := .seq (plus (.cls isSpace)) (word ['H', 'T', 'T', 'P'])

/-- `\?(.*)` as the second group. -/
def query : Regex Char := .group 2 (.seq (.cls (· = '?')) (.group 3 (.star (.cls isInLine))))

/-- `^GET\s+`, the path as the first group, `(\?(.*))?` and `\s+HTTP`. -/
def requestLine : Regex Char :=
  .seq .start (.seq (word ['G', 'E', 'T']) (.seq (plus (.cls isSpace))
    (.seq (.group 1 (plus (.cls isPathChar))) (.seq (.opt query) ending))))

section Search
variable {n : ℕ}

theorem isSpace_not_path {c : Char} (hc : isSpace c = true) : isPathChar c = false := by
  have hle : c.toNat ≤ 32 := by
    simp only [isSpace, Bool.or_eq_true, Bool.and_eq_true, decide_eq_true_eq] at hc
    rcases hc with rfl | ⟨-, hc⟩
    · decide
    · have hval : c.toNat ≤ '\r'.toNat := hc
      exact hval.trans (by decide)
  have hsmall : ∀ n ≤ 32, isPathChar (Char.ofNat n) = false := by decide
  have h := hsmall c.toNat hle
  rwa [Char.ofNat_toNat] at h

theorem ways_ending (s : Text) : ways ending n s = (matchEnd s).toList.map ([], ·) := by
  have hH : Rejects (word ['H', 'T', 'T', 'P']) isSpace := rejects_word _ (by decide)
  rw [ending, ways_plus_cls hH, matchEnd]
  by_cases hs : s.takeWhile isSpace = []
  · rw [if_pos hs, if_pos hs]
    rfl
  rw [if_neg hs, if_neg hs, ways_word]
  by_cases hp : ['H', 'T', 'T', 'P'] <+: s.dropWhile isSpace
  · obtain ⟨rest, hrest⟩ := hp
    rw [← hrest, if_pos (List.prefix_append _ _)]
    rfl
  · rw [if_neg hp]
    split
    · next rest hrest => exact absurd ⟨rest, hrest.symm⟩ hp
    · rfl

theorem ways_optional_plain {s : Text} (hs : ∀ t, s ≠ '?' :: t) :
    ways (.seq (.opt query) ending) n s = ways ending n s := by
  have hq : ways query n s = [] := by
    cases s with
    | nil => rfl
    | cons c s =>
      have hc : c ≠ '?' := by
        rintro rfl
        exact hs s rfl
      simp [query, ways, hc]
  simp [ways, hq]

/-- What `.*` takes and what the ending behind it leaves, the longest text first. -/
def queries (s : Text) : List (Text × Text) :=
  (leavings isInLine s).flatMap fun t =>
    (matchEnd t).toList.map fun rest => (s.take (s.length - t.length), rest)

theorem queries_cons (c : Char) (s : Text) : queries (c :: s) =
    (if isInLine c then (queries s).map fun m => (c :: m.1, m.2) else []) ++
      (matchEnd (c :: s)).toList.map fun rest => ([], rest) := by
  have hlast : (c :: s).take ((c :: s).length - (c :: s).length) = [] := by simp
  have hrest : (leavings isInLine s).flatMap (fun t => (matchEnd t).toList.map fun rest =>
      ((c :: s).take ((c :: s).length - t.length), rest)) =
        (queries s).map fun m => (c :: m.1, m.2) := by
    rw [queries, List.map_flatMap]
    apply List.flatMap_congr
    intro t ht
    rw [take_leavings ht, List.map_map]
    rfl
  rw [queries, leavings]
  split_ifs
  · rw [List.flatMap_append, hrest, List.flatMap_singleton, hlast]
  · rw [List.flatMap_singleton, hlast, List.nil_append]

/-- `matchAny` is the first of them. -/
theorem matchAny_eq (s : Text) : matchAny s = (queries s).head? := by
  induction s with
  | nil => rfl
  | cons c s ih =>
    rw [matchAny, queries_cons, ih, List.head?_append]
    by_cases hterm : (c = '\n' || c = '\r') = true
    · have hc : ¬ isInLine c = true := by simp only [isInLine, hterm, Bool.not_true,
        Bool.false_eq_true, not_false_eq_true]
      rw [if_pos hterm, if_neg hc]
      cases matchEnd (c :: s) <;> rfl
    · have hc : isInLine c = true := by simp only [isInLine, eq_false_of_ne_true hterm,
        Bool.not_false]
      rw [if_neg hterm, if_pos hc, List.head?_map]
      cases (queries s).head? with
      | some m => rfl
      | none => cases matchEnd (c :: s) <;> rfl

/-- The groups 2 and 3 of a query. -/
theorem ways_optional_query (s : Text) :
    ways (.seq (.opt query) ending) n ('?' :: s) =
      (queries s).map fun m => ([(2, '?' :: m.1), (3, m.1)], m.2) := by
  have hquery : ways query n ('?' :: s) = (leavings isInLine s).map fun t =>
      ([(2, ('?' :: s).take (('?' :: s).length - t.length)), (3, s.take (s.length - t.length))],
        t) := by
    simp [query, ways, rounds_cls, after, Function.comp_def]
  have hend : ways ending n ('?' :: s) = [] := by
    rw [ways_ending]
    rfl
  have hopt : ways (.opt query) n ('?' :: s) =
      ways query n ('?' :: s) ++ [([], '?' :: s)] := by
    rw [ways, List.filter_eq_self.mpr]
    intro w hw
    rw [hquery] at hw
    obtain ⟨t, ht, rfl⟩ := List.mem_map.mp hw
    exact decide_eq_true (Nat.lt_succ_of_le (length_leavings ht))
  rw [ways_seq, hopt, hquery, List.flatMap_append, List.flatMap_singleton, hend, List.map_nil,
    List.append_nil, List.flatMap_map, queries, List.map_flatMap]
  apply List.flatMap_congr
  intro t ht
  rw [ways_ending, take_leavings ht, List.map_map, List.map_map]
  rfl

theorem rejects_optional : Rejects (.seq (.opt query) ending) isPathChar := by
  intro n c t hc
  have hq : ∀ u, c :: t ≠ '?' :: u := by
    intro u hu
    rw [(List.cons.inj hu).1] at hc
    exact absurd hc (by decide)
  rw [ways_optional_plain hq, ways_ending, matchEnd, List.takeWhile_cons_of_neg]
  · rfl
  · intro hs
    exact absurd hc (by simp [isSpace_not_path hs])

theorem rejects_path :
    Rejects (.seq (.group 1 (plus (.cls isPathChar))) (.seq (.opt query) ending)) isSpace := by
  intro n c t hc
  rw [ways_group_plus_cls 1 rejects_optional, if_pos]
  exact List.takeWhile_cons_of_neg (by simp [isSpace_not_path hc])

/-- `regexSearch` is the first match of the regular expression. -/
theorem regexSearch_eq (s : Text) : regexSearch s =
    (search requestLine s).map fun w => ⟨captured w 1, captured w 2, captured w 3, w.2⟩ := by
  rw [requestLine, search_start, ways_seq, ways_word]
  by_cases hget : ['G', 'E', 'T'] <+: s
  · obtain ⟨t, rfl⟩ := hget
    rw [if_pos (List.prefix_append _ _), List.flatMap_singleton, List.drop_left, after_nil,
      List.map_id, ways_plus_cls rejects_path, ways_group_plus_cls 1 rejects_optional]
    simp only [List.cons_append, List.nil_append, regexSearch]
    split_ifs with hspace hpath
    · rfl
    · rfl
    split
    · next q hq =>
      rw [hq, ways_optional_query, matchAny_eq, List.head?_map, List.head?_map]
      cases (queries q).head? with
      | none => rfl
      | some m => rfl
    · next hq =>
      rw [ways_optional_plain fun u hu => hq u hu, ways_ending]
      cases matchEnd _ with
      | none => rfl
      | some rest => rfl
  · rw [if_neg hget]
    unfold regexSearch
    split
    · next t => exact absurd ⟨t, rfl⟩ hget
    · rfl

end Search

/-! ### The grammar -/

/-- Spaces and then `HTTP`. -/
def EndsLine (s : Text) : Prop :=
  ∃ w t, w ≠ [] ∧ (∀ c ∈ w, isSpace c = true) ∧ s = w ++ (['H', 'T', 'T', 'P'] ++ t)

/-- `q` can be the query at the front of `s`. -/
def QueryAt (s q : Text) : Prop :=
  (∀ c ∈ q, c ≠ '\n' ∧ c ≠ '\r') ∧ ∃ t, EndsLine t ∧ s = q ++ t

/-- The line is `GET`, spaces, the longest run `p` of path characters, and `rest`. -/
structure Line (line p rest : Text) : Prop where
  front : ∃ w, w ≠ [] ∧ (∀ c ∈ w, isSpace c = true) ∧ line = ['G', 'E', 'T'] ++ (w ++ (p ++ rest))
  nonempty : p ≠ []
  chars : ∀ c ∈ p, isPathChar c = true
  maximal : ∀ c t, rest = c :: t → isPathChar c = false

/-- What may follow the path. -/
def Follows (rest : Text) : Prop := EndsLine rest ∨ ∃ v q, rest = '?' :: v ∧ QueryAt v q

/-- The request has the path `p`, and the longest possible query if a `?` follows it. -/
structure ParsedAs (r : HTTPRequest) (p rest : Text) : Prop where
  path : r.path = p
  query : ∀ v, rest = '?' :: v →
    QueryAt v r.queryString ∧ ∀ q, QueryAt v q → q.length ≤ r.queryString.length
  plain : (∀ v, rest ≠ '?' :: v) → r.queryString = []

/-- The search behind the path `p`. -/
def behindPath (p : Text) : Text → Option HttpServer.Groups
  | '?' :: v => (matchAny v).map fun m => ⟨p, '?' :: m.1, m.1, m.2⟩
  | v => (matchEnd v).map fun t => ⟨p, [], [], t⟩

def firstLine (buffer : Text) : Text := buffer.takeWhile fun c => c ≠ '\x00' && c ≠ '\n'

section Grammar
variable {s line p rest : Text}

theorem matchEnd_iff : (∃ t, matchEnd s = some t) ↔ EndsLine s := by
  constructor
  · rintro ⟨t, ht⟩
    unfold matchEnd at ht
    split_ifs at ht with hs
    split at ht
    · next u hu =>
      refine ⟨s.takeWhile isSpace, u, hs, fun c hc => List.mem_takeWhile_imp hc, ?_⟩
      calc s = s.takeWhile isSpace ++ s.dropWhile isSpace :=
            List.takeWhile_append_dropWhile.symm
        _ = _ := by rw [hu]; rfl
    · cases ht
  · rintro ⟨w, t, hw, hspace, rfl⟩
    have hstop : (['H', 'T', 'T', 'P'] ++ t).takeWhile isSpace = [] := rfl
    have hdrop : (['H', 'T', 'T', 'P'] ++ t).dropWhile isSpace = ['H', 'T', 'T', 'P'] ++ t := rfl
    refine ⟨t, ?_⟩
    rw [matchEnd, List.takeWhile_append_of_pos hspace, List.dropWhile_append_of_pos hspace, hstop,
      List.append_nil, if_neg hw, hdrop]
    rfl

theorem endsLine_nonempty (h : EndsLine s) : s ≠ [] := by
  obtain ⟨w, t, hw, -, rfl⟩ := h
  simp

theorem queryAt_cons {c : Char} {q : Text} : QueryAt (c :: s) q ↔
    (q = [] ∧ EndsLine (c :: s)) ∨ ∃ u, q = c :: u ∧ (c ≠ '\n' ∧ c ≠ '\r') ∧ QueryAt s u := by
  constructor
  · rintro ⟨hq, t, ht, heq⟩
    cases q with
    | nil => exact Or.inl ⟨rfl, heq ▸ ht⟩
    | cons d u =>
      obtain ⟨rfl, rfl⟩ := List.cons.inj heq
      exact Or.inr ⟨u, rfl, hq c List.mem_cons_self,
        fun e he => hq e (List.mem_cons_of_mem c he), t, ht, rfl⟩
  · rintro (⟨rfl, hend⟩ | ⟨u, rfl, hc, hu, t, ht, rfl⟩)
    · exact ⟨fun e he => absurd he List.not_mem_nil, c :: s, hend, rfl⟩
    · refine ⟨?_, t, ht, rfl⟩
      intro e he
      rcases List.mem_cons.mp he with rfl | he
      · exact hc
      · exact hu e he

/-- The longest query at the front of `s`, if there is one. -/
def Longest (s : Text) : Option (Text × Text) → Prop
  | none => ∀ q, ¬ QueryAt s q
  | some m => QueryAt s m.1 ∧ ∀ q, QueryAt s q → q.length ≤ m.1.length

theorem longest_nil : Longest [] none := by
  rintro q ⟨-, t, ht, heq⟩
  exact endsLine_nonempty ht (List.append_eq_nil_iff.mp heq.symm).2

/-- A query of the rest goes on with a character of the line. -/
theorem longest_through {c : Char} {m : Text × Text} (hc : c ≠ '\n' ∧ c ≠ '\r')
    (h : Longest s (some m)) : Longest (c :: s) (some (c :: m.1, m.2)) := by
  obtain ⟨hquery, hlong⟩ := h
  refine ⟨queryAt_cons.mpr (Or.inr ⟨m.1, rfl, hc, hquery⟩), ?_⟩
  intro q hq
  rcases queryAt_cons.mp hq with ⟨rfl, -⟩ | ⟨u, rfl, -, hu⟩
  · exact Nat.zero_le _
  · exact Nat.succ_le_succ (hlong u hu)

/-- Where the rest has no query that the character goes on with, only the empty one is left. -/
theorem longest_here {c : Char} (hrest : c ≠ '\n' ∧ c ≠ '\r' → Longest s none) :
    Longest (c :: s) ((matchEnd (c :: s)).map fun rest => ([], rest)) := by
  have hshort : ∀ q, QueryAt (c :: s) q → q = [] ∧ EndsLine (c :: s) := by
    intro q hq
    rcases queryAt_cons.mp hq with h | ⟨u, -, hc, hu⟩
    · exact h
    · exact absurd hu (hrest hc u)
  cases ht : matchEnd (c :: s) with
  | none =>
    intro q hq
    obtain ⟨t, ht'⟩ := matchEnd_iff.mpr (hshort q hq).2
    rw [ht] at ht'
    cases ht'
  | some t =>
    refine ⟨queryAt_cons.mpr (Or.inl ⟨rfl, matchEnd_iff.mp ⟨t, ht⟩⟩), ?_⟩
    intro q hq
    rw [(hshort q hq).1]

/-- `matchAny` finds the longest query there is. -/
theorem matchAny_longest (s : Text) : Longest s (matchAny s) := by
  induction s with
  | nil => exact longest_nil
  | cons c s ih =>
    rw [matchAny]
    by_cases hterm : (c = '\n' || c = '\r') = true
    · rw [if_pos hterm]
      exact longest_here fun hc => absurd hterm (by simpa using hc)
    · rw [if_neg hterm]
      cases hm : matchAny s with
      | none => exact longest_here fun _ => hm ▸ ih
      | some m => exact longest_through (by simpa using hterm) (hm ▸ ih)

/-- On a line that begins as it should, the search goes on behind the path. -/
theorem regexSearch_line (h : Line line p rest) : regexSearch line = behindPath p rest := by
  obtain ⟨⟨w, hw, hspace, rfl⟩, hp, hchars, hmax⟩ := h
  have hstop : (p ++ rest).takeWhile isSpace = [] ∧
      (p ++ rest).dropWhile isSpace = p ++ rest := by
    cases p with
    | nil => exact absurd rfl hp
    | cons c t =>
      have hc : ¬ isSpace c = true := fun hs =>
        absurd (hchars c List.mem_cons_self) (by simp [isSpace_not_path hs])
      exact ⟨List.takeWhile_cons_of_neg hc, List.dropWhile_cons_of_neg hc⟩
  have hpath : rest.takeWhile isPathChar = [] ∧ rest.dropWhile isPathChar = rest := by
    cases rest with
    | nil => exact ⟨rfl, rfl⟩
    | cons c t =>
      have hc : ¬ isPathChar c = true := by simp [hmax c t rfl]
      exact ⟨List.takeWhile_cons_of_neg hc, List.dropWhile_cons_of_neg hc⟩
  simp only [List.cons_append, List.nil_append, regexSearch]
  rw [List.takeWhile_append_of_pos hspace, List.dropWhile_append_of_pos hspace, hstop.1, hstop.2,
    List.append_nil, if_neg hw, List.takeWhile_append_of_pos hchars,
    List.dropWhile_append_of_pos hchars, hpath.1, hpath.2, List.append_nil, if_neg hp]
  rfl

/-- Only such lines are matched. -/
theorem line_of_regexSearch {g : HttpServer.Groups} (h : regexSearch line = some g) :
    ∃ rest, Line line g.path rest := by
  unfold regexSearch at h
  split at h
  · next t =>
    simp only at h
    split_ifs at h with hspace hpath
    have hline : Line ('G' :: 'E' :: 'T' :: t) ((t.dropWhile isSpace).takeWhile isPathChar)
        ((t.dropWhile isSpace).dropWhile isPathChar) := by
      constructor
      · refine ⟨t.takeWhile isSpace, hspace, fun c hc => List.mem_takeWhile_imp hc, ?_⟩
        rw [List.takeWhile_append_dropWhile, List.takeWhile_append_dropWhile]
        rfl
      · exact hpath
      · exact fun c hc => List.mem_takeWhile_imp hc
      · intro c u hcu
        have hstop := List.head?_dropWhile_not isPathChar (t.dropWhile isSpace)
        rwa [hcu] at hstop
    split at h
    · obtain ⟨m, -, rfl⟩ := Option.map_eq_some_iff.mp h
      exact ⟨_, hline⟩
    · obtain ⟨m, -, rfl⟩ := Option.map_eq_some_iff.mp h
      exact ⟨_, hline⟩
  · cases h

/-- What is found behind the path, if anything is. -/
theorem behindPath_some {g : HttpServer.Groups} (h : behindPath p rest = some g) :
    Follows rest ∧ g.path = p ∧
      (∀ v, rest = '?' :: v → QueryAt v g.query ∧ ∀ q, QueryAt v q → q.length ≤ g.query.length) ∧
      ((∀ v, rest ≠ '?' :: v) → g.query = []) := by
  unfold behindPath at h
  split at h
  · next v =>
    obtain ⟨m, hm, rfl⟩ := Option.map_eq_some_iff.mp h
    have hlongest := matchAny_longest v
    rw [hm] at hlongest
    obtain ⟨hquery, hlong⟩ := hlongest
    refine ⟨Or.inr ⟨v, m.1, rfl, hquery⟩, rfl, ?_, fun hne => absurd rfl (hne v)⟩
    rintro v' ⟨rfl⟩
    exact ⟨hquery, hlong⟩
  · next hne =>
    obtain ⟨t, ht, rfl⟩ := Option.map_eq_some_iff.mp h
    exact ⟨Or.inl (matchEnd_iff.mp ⟨t, ht⟩), rfl, fun v hv => absurd hv (hne v), fun _ => rfl⟩

theorem behindPath_follows (h : Follows rest) : ∃ g, behindPath p rest = some g := by
  cases hg : behindPath p rest with
  | some g => exact ⟨g, rfl⟩
  | none =>
    unfold behindPath at hg
    split at hg
    · next v =>
      rcases h with ⟨w, t, hw, hspace, heq⟩ | ⟨v', q, heq, hq⟩
      · cases w with
        | nil => exact absurd rfl hw
        | cons c w =>
          have hc := hspace c List.mem_cons_self
          rw [← (List.cons.inj heq).1] at hc
          exact absurd hc (by decide)
      · obtain ⟨-, rfl⟩ := List.cons.inj heq
        have hlongest := matchAny_longest v
        rw [Option.map_eq_none_iff.mp hg] at hlongest
        exact absurd hq (hlongest q)
    · next hne =>
      rcases h with hend | ⟨v, q, rfl, -⟩
      · obtain ⟨t, ht⟩ := matchEnd_iff.mpr hend
        rw [Option.map_eq_none_iff.mp hg] at ht
        cases ht
      · exact absurd rfl (hne v)

end Grammar

/-! ### The request -/

/-- After the first match `idx` is past the groups that are used. -/
theorem matchLoop_later {fuel idx : ℕ} (hidx : 4 ≤ idx) (s : Text) (r : HTTPRequest) :
    matchLoop fuel idx s r = r := by
  induction fuel generalizing idx s r with
  | zero => rfl
  | succ fuel ih =>
    rw [matchLoop]
    cases regexSearch s with
    | none => rfl
    | some g =>
      have hassign : ∀ k x, ((r : HTTPRequest).assign (idx + k) x) = r := by
        intro k x
        rw [HTTPRequest.assign, if_neg (by omega), if_neg (by omega)]
      have hzero := hassign 0 []
      rw [Nat.add_zero] at hzero
      simp only [hzero, hassign]
      exact ih (by omega) g.suffix r

theorem firstLine_eq (buffer : Text) :
    getline (buffer.takeWhile (· ≠ '\x00')) = firstLine buffer := by
  rw [getline, List.takeWhile_takeWhile, firstLine]
  congr 1
  funext c
  simp [and_comm]

/-- Only the first match counts. -/
theorem parseRequest_first (buffer : Text) :
    ((parseRequest buffer).path, (parseRequest buffer).queryString) =
      ((regexSearch (firstLine buffer)).map fun g => (g.path, g.query)).getD ([], []) := by
  simp only [parseRequest, firstLine_eq, matchLoop]
  cases regexSearch (firstLine buffer) with
  | none => rfl
  | some g =>
    simp only [matchLoop_later (Nat.le_refl 4)]
    rfl

/-- A request is valid exactly when its first line is of the grammar, and then its path and its
query are the parts of the line; what comes behind them plays no part. -/
theorem request_line_grammar (buffer : Text) :
    ((parseRequest buffer).valid = true ↔
      ∃ p rest, Line (firstLine buffer) p rest ∧ Follows rest) ∧
    ∀ p rest, Line (firstLine buffer) p rest → Follows rest →
      ParsedAs (parseRequest buffer) p rest := by
  have hfirst := parseRequest_first buffer
  have hvalid : (parseRequest buffer).valid = decide ((parseRequest buffer).path ≠ []) := rfl
  constructor
  · rw [hvalid, decide_eq_true_eq]
    constructor
    · intro hp
      cases hg : regexSearch (firstLine buffer) with
      | none =>
        rw [hg] at hfirst
        exact absurd (congrArg Prod.fst hfirst) hp
      | some g =>
        obtain ⟨rest, hline⟩ := line_of_regexSearch hg
        rw [regexSearch_line hline] at hg
        exact ⟨g.path, rest, hline, (behindPath_some hg).1⟩
    · rintro ⟨p, rest, hline, hfollows⟩
      obtain ⟨g, hg⟩ := behindPath_follows (p := p) hfollows
      rw [regexSearch_line hline, hg] at hfirst
      have hpath : (parseRequest buffer).path = g.path := congrArg Prod.fst hfirst
      rw [hpath, (behindPath_some hg).2.1]
      exact hline.nonempty
  · intro p rest hline hfollows
    obtain ⟨g, hg⟩ := behindPath_follows (p := p) hfollows
    rw [regexSearch_line hline, hg] at hfirst
    have hpath : (parseRequest buffer).path = g.path := congrArg Prod.fst hfirst
    have hquery : (parseRequest buffer).queryString = g.query := congrArg Prod.snd hfirst
    obtain ⟨-, hgpath, hlong, hplain⟩ := behindPath_some hg
    constructor
    · rw [hpath, hgpath]
    · rw [hquery]
      exact hlong
    · rw [hquery]
      exact hplain

end HttpRequestLine
