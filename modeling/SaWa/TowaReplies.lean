import SaWa.HttpResponses
import SaWa.TowaMessages
import Mathlib.Data.List.TakeWhile

/-! From the reply of the towa process to the response of the HTTP server: the status byte goes
through the pipe in front of the reply and decides what is written to the browser. -/
namespace TowaReplies

open HttpServer ContentFraming HttpResponses TowaMessages

/-! ### A reply and its response -/

/-- The message that `sendMsg` returns for a reply. -/
def received (fresh : ℕ → Text) (reply : Packet) : Option Message :=
  (readFrom fresh true reply.sendTo).map fun m => ⟨(m.1.map Char.toNat).getD 0, m.2⟩

/-- The status code in the first line of a response. -/
def statusOf (response : Text) : Option Text :=
  (readHead [] response).bind fun p => p.1.head?.map fun line => (line.drop 9).take 3

/-- What the browser is to get for a reply with this status byte, and the counter for it. -/
def Answers (o : Outcome) (status : Char) (rest : Text) : Prop :=
  if status.toNat = towaHttp200 then
    statusOf o.writes.flatten = some "200".toList ∧ body o.writes.flatten = rest ∧
      o.counted = [.http200]
  else if status.toNat = towaHttp404 then
    statusOf o.writes.flatten = some "404".toList ∧ o.counted = [.http404]
  else
    statusOf o.writes.flatten = some "500".toList ∧ rest <:+ body o.writes.flatten ∧
      o.counted = [.http500]

/-- The response to a request that the towa process gives this reply to. -/
def Delivers (cache : Cache) (buffer : Text) (reply : Packet) (P : Outcome → Prop) : Prop :=
  ∀ fresh : ℕ → Text, (∀ n, (fresh n).length = n) → ∃ msg, received fresh reply = some msg ∧
    P (processRequest (.towa fun _ _ _ => msg) cache buffer)

section Response
variable {cache : Cache} {buffer : Text} {reply : Packet} {status : Char} {rest : Text}

theorem received_cons {fresh : ℕ → Text} (hf : ∀ n, (fresh n).length = n)
    (hr : reply.content = status :: rest) :
    received fresh reply = some ⟨status.toNat, rest⟩ := by
  rw [received, readFrom_header hf hr]
  rfl

theorem delivers_cons {P : Outcome → Prop} (hr : reply.content = status :: rest) :
    Delivers cache buffer reply P ↔
      P (processRequest (.towa fun _ _ _ => ⟨status.toNat, rest⟩) cache buffer) := by
  constructor
  · intro h
    obtain ⟨msg, hmsg, hP⟩ := h (fun n => List.replicate n ' ') fun _ => List.length_replicate
    rw [received_cons (fun _ => List.length_replicate) hr] at hmsg
    cases hmsg
    exact hP
  · intro h fresh hf
    exact ⟨_, received_cons hf hr, h⟩

theorem status_200 (size : ℕ) (content : Text) :
    statusOf (header200 size ++ content) = some "200".toList ∧
      body (header200 size ++ content) = content := by
  have hcode : ("HTTP/1.1 200 OK".toList.drop 9).take 3 = "200".toList := by decide
  rw [statusOf, body, head_200]
  exact ⟨congrArg some hcode, rfl⟩

theorem status_500 (desc : Text) :
    statusOf (generate500Response desc) = some "500".toList ∧
      desc <:+ body (generate500Response desc) := by
  have hcode : ("HTTP/1.1 500 Internal Server Error".toList.drop 9).take 3 = "500".toList := by
    decide
  rw [statusOf, body, head_500]
  exact ⟨congrArg some hcode, List.suffix_append _ _⟩

/-- The response that is made of a message with the status of a 200 or a 404. -/
theorem processRequest_content (cache : Cache) (status : ℕ) (rest : Text)
    (hv : (parseRequest buffer).valid = true) (hm : status = towaHttp200 ∨ status = towaHttp404) :
    (processRequest (.towa fun _ _ _ => ⟨status, rest⟩) cache buffer).writes.flatten =
        header200 rest.length ++ rest ∧
      (processRequest (.towa fun _ _ _ => ⟨status, rest⟩) cache buffer).counted = [.http200] := by
  rw [processRequest_towa _ cache hv rfl, if_pos hm]
  exact ⟨by simp [replyFile], rfl⟩

theorem processRequest_error (cache : Cache) (status : ℕ) (rest : Text)
    (hv : (parseRequest buffer).valid = true)
    (hm : ¬ (status = towaHttp200 ∨ status = towaHttp404)) :
    (processRequest (.towa fun _ _ _ => ⟨status, rest⟩) cache buffer).writes.flatten =
        generate500Response rest ∧
      (processRequest (.towa fun _ _ _ => ⟨status, rest⟩) cache buffer).counted = [.http500] := by
  rw [processRequest_towa _ cache hv rfl, if_neg hm]
  exact ⟨by simp, rfl⟩

/-- A reply is answered as its status byte says exactly when that is not the one of a 404. -/
theorem reply_answered_iff (cache : Cache) (hv : (parseRequest buffer).valid = true)
    (hr : reply.content = status :: rest) :
    Delivers cache buffer reply (fun o => Answers o status rest) ↔ status.toNat ≠ towaHttp404 := by
  rw [delivers_cons hr]
  by_cases h200 : status.toNat = towaHttp200
  · obtain ⟨hwrites, hcounted⟩ := processRequest_content cache _ rest hv (Or.inl h200)
    rw [Answers, if_pos h200, hwrites, hcounted]
    refine iff_of_true ⟨(status_200 _ _).1, (status_200 _ _).2, rfl⟩ ?_
    rw [h200]
    decide
  by_cases h404 : status.toNat = towaHttp404
  · obtain ⟨hwrites, -⟩ := processRequest_content cache _ rest hv (Or.inr h404)
    rw [Answers, if_neg h200, if_pos h404, hwrites, (status_200 _ _).1]
    exact iff_of_false (fun h => absurd h.1 (by decide)) fun h => h h404
  · obtain ⟨hwrites, hcounted⟩ := processRequest_error cache _ rest hv (not_or.mpr ⟨h200, h404⟩)
    rw [Answers, if_neg h200, if_neg h404, hwrites, hcounted]
    exact iff_of_true ⟨(status_500 _).1, (status_500 _).2, rfl⟩ h404

end Response

def emptyCache : Cache := fun _ => none

def classRequest : Text := "GET /T HTTP".toList

theorem classRequest_valid : (parseRequest classRequest).valid = true := by decide

def pageReply : Packet := ⟨['\x01', 'a'], by decide⟩

def missingReply : Packet := ⟨['\x02', 'a'], by decide⟩

theorem page_reply_answered :
    Delivers emptyCache classRequest pageReply (fun o => Answers o '\x01' ['a']) :=
  (reply_answered_iff emptyCache classRequest_valid rfl).mpr (by decide)

/-- A reply that says 404 goes out as a 200, and is counted as one. -/
theorem missing_reply_answered_200 :
    Delivers emptyCache classRequest missingReply (fun o =>
        statusOf o.writes.flatten = some "200".toList ∧ o.counted = [.http200]) ∧
      ¬ ∀ cache buffer, (parseRequest buffer).valid = true → ∀ (reply : Packet) status rest,
        reply.content = status :: rest →
          Delivers cache buffer reply (fun o => Answers o status rest) := by
  have hr : missingReply.content = '\x02' :: ['a'] := rfl
  obtain ⟨hwrites, hcounted⟩ := processRequest_content emptyCache '\x02'.toNat ['a']
    classRequest_valid (Or.inr rfl)
  constructor
  · rw [delivers_cons hr, hwrites, hcounted]
    exact ⟨(status_200 _ _).1, rfl⟩
  · intro hall
    have hans := hall emptyCache classRequest classRequest_valid missingReply '\x02' ['a'] hr
    rw [delivers_cons hr, Answers, if_neg (by decide), if_pos (by decide), hcounted] at hans
    exact absurd hans.2 (by decide)

/-! ### The output of a servlet -/

/-- The string that starts in this memory, which ends at the first null. -/
def cString (memory : Text) : Option Text :=
  if '\x00' ∈ memory then some (memory.takeWhile (· ≠ '\x00')) else none

/-- What `TowaAppPool::processRequest` returns for the array of a servlet that has finished: the
array is read as a string, and `after` is the memory behind it. -/
def servletReply (output after : Text) : Option Packet :=
  (cString (output ++ after)).bind fun s => ofString (Char.ofNat towaHttp200 :: s)

/-- The body of the response is the output. -/
def OutputDelivered (cache : Cache) (buffer output after : Text) : Prop :=
  ∃ reply, servletReply output after = some reply ∧
    Delivers cache buffer reply fun o => body o.writes.flatten = output

/-- The string made of the array is the array: it has no null, one follows at once (or after a
multiple of 2^32 bytes), and its length with the status fits in an `int`. -/
def EndsInNull (output after : Text) : Prop :=
  '\x00' ∉ output ∧ '\x00' ∈ after ∧ (after.takeWhile (· ≠ '\x00')).length % 2 ^ 32 = 0 ∧
    output.length + 1 < 2 ^ 31

instance (output after : Text) : Decidable (EndsInNull output after) :=
  inferInstanceAs (Decidable (_ ∧ _ ∧ _ ∧ _))

section Servlet
variable {cache : Cache} {buffer output after : Text}

theorem not_delivers_nil {reply : Packet} {P : Outcome → Prop} (hr : reply.content = []) :
    ¬ Delivers cache buffer reply P := by
  intro h
  obtain ⟨msg, hmsg, -⟩ := h (fun n => List.replicate n ' ') fun _ => List.length_replicate
  rw [received, readFrom_empty _ hr] at hmsg
  cases hmsg

theorem null_not_mem_takeWhile (s : Text) : '\x00' ∉ s.takeWhile (· ≠ '\x00') := by
  intro h
  have hne := List.mem_takeWhile_imp h
  simp at hne

/-- A string of which a beginning is sent is delivered as far as it is sent. -/
theorem delivers_take (hv : (parseRequest buffer).valid = true) {reply : Packet} {s : Text}
    (hr : reply.content = Char.ofNat towaHttp200 :: s) :
    (Delivers cache buffer reply fun o => body o.writes.flatten = output) ↔ s = output := by
  obtain ⟨hwrites, -⟩ := processRequest_content cache _ s hv
    (Or.inl (show (Char.ofNat towaHttp200).toNat = towaHttp200 from rfl))
  rw [delivers_cons hr, hwrites, (status_200 _ _).2]

/-- What is left of a string, its status byte in front, by the `int` in its message. -/
theorem outputDelivered_iff_take (hv : (parseRequest buffer).valid = true) :
    OutputDelivered cache buffer output after ↔ ∃ s j, cString (output ++ after) = some s ∧
      (s.length + 1) % 2 ^ 32 = j + 1 ∧ j + 1 < 2 ^ 31 ∧ s.take j = output := by
  constructor
  · rintro ⟨reply, hreply, hd⟩
    obtain ⟨s, hs, hof⟩ := Option.bind_eq_some_iff.mp hreply
    have hcontent := ofString_some hof
    rw [List.length_cons] at hcontent
    cases hk : (s.length + 1) % 2 ^ 32 with
    | zero =>
      rw [hk, List.take_zero] at hcontent
      exact absurd hd (not_delivers_nil hcontent)
    | succ j =>
      rw [hk, List.take_succ_cons] at hcontent
      have hfits := reply.fits
      have hle := Nat.mod_le (s.length + 1) (2 ^ 32)
      rw [hcontent, List.length_cons, List.length_take, Nat.min_eq_left (by omega)] at hfits
      exact ⟨s, j, hs, hk, hfits, (delivers_take hv hcontent).mp hd⟩
  · rintro ⟨s, j, hs, hk, hfits, hout⟩
    obtain ⟨reply, hof⟩ := ofString_fits (s := Char.ofNat towaHttp200 :: s)
      (by rw [List.length_cons, hk]; exact hfits)
    have hcontent := ofString_some hof
    rw [List.length_cons, hk, List.take_succ_cons] at hcontent
    refine ⟨reply, ?_, (delivers_take hv hcontent).mpr hout⟩
    rw [servletReply, hs]
    exact hof

/-- The output of a servlet is the body of the response exactly when the string that its array is
read as ends with the array. -/
theorem output_delivered_iff (cache : Cache) (output after : Text)
    (hv : (parseRequest buffer).valid = true) :
    OutputDelivered cache buffer output after ↔ EndsInNull output after := by
  rw [outputDelivered_iff_take hv]
  have hsplit : '\x00' ∉ output → (output ++ after).takeWhile (· ≠ '\x00') =
      output ++ after.takeWhile (· ≠ '\x00') := by
    intro hnot
    apply List.takeWhile_append_of_pos
    intro c hc
    exact decide_eq_true fun h => hnot (h ▸ hc)
  constructor
  · rintro ⟨s, j, hs, hk, hfits, hout⟩
    rw [cString] at hs
    split_ifs at hs with hmem
    have hs := Option.some.inj hs
    have hnot : '\x00' ∉ output := by
      intro h
      rw [← hout, ← hs] at h
      exact null_not_mem_takeWhile _ (List.mem_of_mem_take h)
    have hafter := (List.mem_append.mp hmem).resolve_left hnot
    rw [hsplit hnot] at hs
    have hlen := congrArg List.length hs
    have hj := congrArg List.length hout
    have hle := Nat.mod_le (s.length + 1) (2 ^ 32)
    rw [List.length_append] at hlen
    rw [List.length_take] at hj
    refine ⟨hnot, hafter, ?_, ?_⟩ <;> omega
  · rintro ⟨hnot, hafter, hgap, hfits⟩
    refine ⟨_, output.length, if_pos (List.mem_append_right output hafter), ?_, hfits, ?_⟩
    · rw [hsplit hnot, List.length_append]
      omega
    · rw [hsplit hnot, List.take_left]

end Servlet

/-- A page, with a null behind its array. -/
theorem page_output_delivered : OutputDelivered emptyCache classRequest ['a'] ['\x00'] :=
  (output_delivered_iff emptyCache ['a'] ['\x00'] classRequest_valid).mpr (by decide)

/-- Output with a null in it is cut there, and what follows the array goes out with it. -/
theorem binary_output_not_delivered :
    ¬ OutputDelivered emptyCache classRequest ['\x00', 'a'] ['\x00'] ∧
      ¬ OutputDelivered emptyCache classRequest ['a'] ['b', '\x00'] := by
  rw [outputDelivered_iff_take classRequest_valid, outputDelivered_iff_take classRequest_valid]
  constructor
  · rintro ⟨s, j, hs, -, -, hout⟩
    obtain rfl : [] = s := Option.some.inj hs
    rw [List.take_nil] at hout
    cases hout
  · rintro ⟨s, j, hs, hk, -, hout⟩
    obtain rfl : ['a', 'b'] = s := Option.some.inj hs
    obtain rfl : 2 = j := Nat.succ.inj hk
    cases hout

end TowaReplies
