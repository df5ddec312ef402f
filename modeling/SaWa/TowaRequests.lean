import SaWa.TowaMessages
import SaWa.TowaPipes
import Mathlib.Data.List.TakeWhile

/-! From the request line to the servlet: `sendMsg` joins the method, the class and the query with
bars, and the towa process splits what it reads at the bars. -/
namespace TowaRequests

open HttpServer TowaMessages TowaPipes

/-- The calls of `getline` up to the one that fails; `item` is what has been read of an item. -/
def tokens (item : Text) : Text → List Text
  | [] => if item = [] then [] else [item]
  | c :: s => if c = '|' then item :: tokens [] s else tokens (item ++ [c]) s

/-- The request that `TowaAppPool::processRequest` makes of a message. -/
def splitRequest (s : Text) : Option Request :=
  match tokens [] s with
  | method :: className :: rest => some ⟨method, className, rest.headD []⟩
  | _ => none

/-- What `HTTPServer::processRequest` passes to `sendMsg`. -/
def sentRequest (r : HTTPRequest) : Request := ⟨r.method, r.path.drop 1, r.queryString⟩

/-- The string that the towa process gets out of the pipe. -/
def arrived (fresh : ℕ → Text) (request : Request) : Option Text :=
  (ofString request.text).bind fun p => (readFrom fresh false p.sendTo).map Prod.snd

/-- The towa process gets a message of two tokens or more, and makes of it the request that was
parsed. -/
def Recovered (r : HTTPRequest) : Prop :=
  ∀ fresh : ℕ → Text, (∀ n, (fresh n).length = n) → ∃ s, arrived fresh (sentRequest r) = some s ∧
    2 ≤ (tokens [] s).length ∧ splitRequest s = some (sentRequest r)

section Tokens

theorem tokens_bar {t : Text} (ht : '|' ∉ t) (item s : Text) :
    tokens item (t ++ '|' :: s) = (item ++ t) :: tokens [] s := by
  induction t generalizing item with
  | nil => simp [tokens]
  | cons c t ih =>
    have hc : c ≠ '|' := fun h => ht (h ▸ List.mem_cons_self)
    rw [List.cons_append, tokens, if_neg hc, ih fun h => ht (List.mem_cons_of_mem c h)]
    simp

/-- Behind the last bar that counts, an item ends at the next bar or the end. -/
theorem headD_tokens (item s : Text) :
    (tokens item s).headD [] = item ++ s.takeWhile (· ≠ '|') := by
  induction s generalizing item with
  | nil => by_cases h : item = [] <;> simp [tokens, h]
  | cons c s ih =>
    by_cases hc : c = '|'
    · simp [tokens, hc]
    · rw [tokens, if_neg hc, ih, List.takeWhile_cons_of_pos (by simpa using hc)]
      simp

theorem length_flatten_tokens (item s : Text) :
    (tokens item s).flatten.length ≤ item.length + s.length := by
  induction s generalizing item with
  | nil => by_cases h : item = [] <;> simp [tokens, h]
  | cons c s ih =>
    by_cases hc : c = '|'
    · have hs := ih []
      simp only [tokens, hc, if_true, List.flatten_cons, List.length_append, List.length_cons,
        List.length_nil] at hs ⊢
      omega
    · have hs := ih (item ++ [c])
      simp only [tokens, hc, if_false, List.length_append, List.length_cons,
        List.length_nil] at hs ⊢
      omega

theorem tokens_text {r : Request} (hv : '|' ∉ r.verb) (hc : '|' ∉ r.className) :
    tokens [] r.text = r.verb :: r.className :: tokens [] r.queryString := by
  rw [Request.text, List.append_assoc, List.cons_append, tokens_bar hv, tokens_bar hc]
  rfl

theorem splitRequest_text {r : Request} (hv : '|' ∉ r.verb) (hc : '|' ∉ r.className) :
    splitRequest r.text = some { r with queryString := r.queryString.takeWhile (· ≠ '|') } := by
  have hq := headD_tokens [] r.queryString
  rw [splitRequest, tokens_text hv hc]
  simp only [hq, List.nil_append]

theorem length_text (r : Request) :
    r.text.length = r.verb.length + r.className.length + r.queryString.length + 2 := by
  simp only [Request.text, List.length_append, List.length_cons]
  omega

/-- A request is never made of less than its parts. -/
theorem length_of_splitRequest {s : Text} {r : Request} (h : splitRequest s = some r) :
    r.text.length ≤ s.length + 2 := by
  have hlen := length_flatten_tokens [] s
  unfold splitRequest at h
  split at h
  · next method className rest heq =>
    cases h
    rw [heq] at hlen
    rw [length_text]
    cases rest with
    | nil =>
      simp at hlen ⊢
      omega
    | cons q rest =>
      simp at hlen ⊢
      omega
  · cases h

end Tokens

/-! ### What the parser lets through -/

section Parse

theorem method_assign (r : HTTPRequest) (idx : ℕ) (x : Text) :
    (r.assign idx x).method = r.method := by
  unfold HTTPRequest.assign
  split_ifs <;> rfl

theorem method_matchLoop (fuel idx : ℕ) (s : Text) (r : HTTPRequest) :
    (matchLoop fuel idx s r).method = r.method := by
  induction fuel generalizing idx s r with
  | zero => rfl
  | succ fuel ih =>
    rw [matchLoop]
    cases regexSearch s with
    | none => rfl
    | some g =>
      simp only [ih, method_assign]

theorem regexSearch_path {s : Text} {g : Groups} (h : regexSearch s = some g) :
    ∀ c ∈ g.path, isPathChar c = true := by
  unfold regexSearch at h
  split at h
  · simp only at h
    split_ifs at h
    split at h
    · obtain ⟨m, -, rfl⟩ := Option.map_eq_some_iff.mp h
      exact fun c hc => List.mem_takeWhile_imp hc
    · obtain ⟨m, -, rfl⟩ := Option.map_eq_some_iff.mp h
      exact fun c hc => List.mem_takeWhile_imp hc
  · cases h

theorem path_assign (r : HTTPRequest) (idx : ℕ) (x : Text) :
    (r.assign idx x).path = if idx = 1 then x else r.path := by
  unfold HTTPRequest.assign
  split_ifs <;> rfl

theorem path_matchLoop {fuel idx : ℕ} {s : Text} {r : HTTPRequest}
    (hr : ∀ c ∈ r.path, isPathChar c = true) :
    ∀ c ∈ (matchLoop fuel idx s r).path, isPathChar c = true := by
  induction fuel generalizing idx s r with
  | zero => exact hr
  | succ fuel ih =>
    rw [matchLoop]
    cases hg : regexSearch s with
    | none => exact hr
    | some g =>
      apply ih
      have hpath := regexSearch_path hg
      -- only the first match has a group number 1, its path
      rw [path_assign, path_assign, path_assign, path_assign, if_neg (by omega),
        if_neg (by omega)]
      split_ifs
      · exact hpath
      · simp
      · exact hr

theorem method_parseRequest (buffer : Text) : (parseRequest buffer).method = "GET".toList :=
  method_matchLoop _ _ _ _

/-- The parts in front of the query have no bar in them. -/
theorem bar_not_mem_sent (buffer : Text) :
    '|' ∉ (sentRequest (parseRequest buffer)).verb ∧
      '|' ∉ (sentRequest (parseRequest buffer)).className := by
  constructor
  · have hverb : (sentRequest (parseRequest buffer)).verb = "GET".toList :=
      method_parseRequest buffer
    rw [hverb]
    decide
  · intro h
    have hchars : ∀ c ∈ (parseRequest buffer).path, isPathChar c = true :=
      path_matchLoop (fun c hc => by cases hc)
    exact absurd (hchars '|' (List.mem_of_mem_drop h)) (by decide)

end Parse

/-! ### The round trip -/

theorem takeWhile_bar_iff (q : Text) : q.takeWhile (· ≠ '|') = q ↔ '|' ∉ q := by
  rw [List.takeWhile_eq_self_iff]
  constructor
  · intro h hm
    simpa using h '|' hm
  · intro h c hc
    exact decide_eq_true fun he => h (he ▸ hc)

theorem arrived_short {fresh : ℕ → Text} (hf : ∀ n, (fresh n).length = n) {r : Request}
    (h : r.text.length < 2 ^ 31) : arrived fresh r = some r.text := by
  rw [arrived, ofString_short h, Option.bind_some, readFrom_sendTo hf]
  rfl

/-- What arrives of a request that is too long has lost at least 2^32 bytes. -/
theorem length_of_arrived {fresh : ℕ → Text} (hf : ∀ n, (fresh n).length = n) {r : Request}
    {s : Text} (hlong : 2 ^ 31 ≤ r.text.length) (h : arrived fresh r = some s) :
    s.length + 2 ^ 32 ≤ r.text.length := by
  obtain ⟨p, hp, hs⟩ := Option.bind_eq_some_iff.mp h
  rw [readFrom_sendTo hf] at hs
  obtain rfl : p.content = s := Option.some.inj hs
  have hfits := p.fits
  have hcontent := congrArg List.length (ofString_some hp)
  rw [List.length_take] at hcontent
  omega

/-- A request that is recovered has arrived in some array. -/
theorem Recovered.arrives {r : HTTPRequest} (h : Recovered r) : ∃ fresh : ℕ → Text,
    (∀ n, (fresh n).length = n) ∧ ∃ s, arrived fresh (sentRequest r) = some s ∧
      splitRequest s = some (sentRequest r) := by
  have hf : ∀ n, (List.replicate n ' ').length = n := fun _ => List.length_replicate
  obtain ⟨s, hs, -, hreq⟩ := h _ hf
  exact ⟨_, hf, s, hs, hreq⟩

/-- A request that the parser accepts always makes two tokens, and it is recovered exactly when its
query has no bar and its message is not too long. -/
theorem request_recovered_iff (buffer : Text) :
    2 ≤ (tokens [] (sentRequest (parseRequest buffer)).text).length ∧
      (Recovered (parseRequest buffer) ↔
        '|' ∉ (parseRequest buffer).queryString ∧
          (sentRequest (parseRequest buffer)).text.length < 2 ^ 31) := by
  obtain ⟨hverb, hclass⟩ := bar_not_mem_sent buffer
  have htokens := tokens_text hverb hclass
  have hsplit := splitRequest_text hverb hclass
  have htwo : 2 ≤ (tokens [] (sentRequest (parseRequest buffer)).text).length := by
    rw [htokens]
    simp
  refine ⟨htwo, ?_⟩
  by_cases hshort : (sentRequest (parseRequest buffer)).text.length < 2 ^ 31
  · rw [and_iff_left hshort, ← takeWhile_bar_iff]
    constructor
    · intro h
      obtain ⟨fresh, hf, s, hs, hreq⟩ := h.arrives
      rw [arrived_short hf hshort] at hs
      obtain rfl := Option.some.inj hs
      rw [hsplit] at hreq
      exact congrArg Request.queryString (Option.some.inj hreq)
    · intro hq fresh hf
      refine ⟨_, arrived_short hf hshort, htwo, ?_⟩
      rw [hsplit]
      exact congrArg (fun q => some { sentRequest (parseRequest buffer) with queryString := q }) hq
  · refine iff_of_false ?_ fun h => hshort h.2
    intro h
    obtain ⟨fresh, hf, s, hs, hreq⟩ := h.arrives
    have hlost := length_of_arrived hf (Nat.not_lt.mp hshort) hs
    have hparts := length_of_splitRequest hreq
    omega

/-- A query with a bar in it is cut there. -/
theorem bar_query_not_recovered :
    (parseRequest "GET /T?a|b HTTP".toList).valid = true ∧
      (parseRequest "GET /T?a|b HTTP".toList).queryString = "a|b".toList ∧
      splitRequest (sentRequest (parseRequest "GET /T?a|b HTTP".toList)).text =
        some ⟨"GET".toList, "T".toList, "a".toList⟩ ∧
      ¬ Recovered (parseRequest "GET /T?a|b HTTP".toList) := by
  have hparse : sentRequest (parseRequest "GET /T?a|b HTTP".toList) =
      ⟨"GET".toList, "T".toList, "a|b".toList⟩ := by decide
  have hshort : (sentRequest (parseRequest "GET /T?a|b HTTP".toList)).text.length < 2 ^ 31 := by
    rw [hparse]
    decide
  refine ⟨by decide, by decide, by rw [hparse]; decide, ?_⟩
  intro h
  obtain ⟨fresh, hf, s, hs, hreq⟩ := h.arrives
  rw [arrived_short hf hshort] at hs
  obtain rfl := Option.some.inj hs
  rw [hparse] at hreq
  exact absurd hreq (by decide)

end TowaRequests
