import SaWa.TowaReplies

/-! The stack traces of `server/towa_app_pool.cpp`: `GetJNIException` follows the causes of a Java
exception and appends what it finds to one text, which goes to the browser with the status of an
error. -/
namespace TowaTraces

open HttpServer ContentFraming HttpResponses TowaMessages TowaReplies

/-- A Java exception: `toString` of it and of its stack trace elements, and its cause. -/
structure Throwable (ι : Type) where
  toString : Text
  frames : List Text
  cause : Option ι

section Trace
variable {ι : Type} (heap : ι → Throwable ι)

/-- The text after the head of `t`: a cause is announced when there is something before it. -/
def appendHead (errorMsg : Text) (t : Throwable ι) : Text :=
  if errorMsg ≠ [] then errorMsg ++ "\nCaused by: ".toList ++ t.toString else t.toString

def appendFrames (errorMsg : Text) (frames : List Text) : Text :=
  frames.foldl (fun errorMsg frame => errorMsg ++ "\n    ".toList ++ frame) errorMsg

/-- `GetJNIException`, cut after a number of nested calls. -/
def getJNIException : ℕ → ι → Text → Option Text
  | 0, _, _ => none
  | n + 1, exc, errorMsg =>
    let errorMsg := appendFrames (appendHead errorMsg (heap exc)) (heap exc).frames
    match (heap exc).cause with
    | none => some errorMsg
    | some cause => getJNIException n cause errorMsg

/-- The exceptions from `exc` along their causes to the last one. -/
inductive Chain : ι → List (Throwable ι) → Prop where
  | last (exc : ι) (h : (heap exc).cause = none) : Chain exc [heap exc]
  | cause (exc c : ι) (ts : List (Throwable ι)) (h : (heap exc).cause = some c)
      (rest : Chain c ts) : Chain exc (heap exc :: ts)

end Trace

/-! ### The text of a chain -/

section Text
variable {ι : Type} {heap : ι → Throwable ι}

/-- The calls on a chain, one for each of its exceptions. -/
def appendAll (errorMsg : Text) (ts : List (Throwable ι)) : Text :=
  ts.foldl (fun errorMsg t => appendFrames (appendHead errorMsg t) t.frames) errorMsg

theorem getJNIException_chain {exc : ι} {ts : List (Throwable ι)} (h : Chain heap exc ts)
    (errorMsg : Text) {n : ℕ} (hn : ts.length ≤ n) :
    getJNIException heap n exc errorMsg = some (appendAll errorMsg ts) := by
  induction h generalizing n errorMsg with
  | last exc hnone =>
    obtain ⟨n, rfl⟩ : ∃ m, n = m + 1 := ⟨n - 1, by simp at hn; omega⟩
    simp only [getJNIException, hnone]
    rfl
  | cause exc c ts hcause rest ih =>
    rw [List.length_cons] at hn
    obtain ⟨n, rfl⟩ : ∃ m, n = m + 1 := ⟨n - 1, by omega⟩
    simp only [getJNIException, hcause]
    rw [ih _ (by omega)]
    rfl

theorem chain_of_getJNIException {n : ℕ} {exc : ι} {errorMsg text : Text}
    (h : getJNIException heap n exc errorMsg = some text) : ∃ ts, Chain heap exc ts := by
  induction n generalizing exc errorMsg with
  | zero => cases h
  | succ n ih =>
    cases hcause : (heap exc).cause with
    | none => exact ⟨_, .last exc hcause⟩
    | some c =>
      simp only [getJNIException, hcause] at h
      obtain ⟨ts, hts⟩ := ih h
      exact ⟨_, .cause exc c ts hcause hts⟩

/-- The lines that a frame and a cause are written as. -/
def frameLine (frame : Text) : Text := "    ".toList ++ frame

def causeLines (t : Throwable ι) : List Text :=
  ("Caused by: ".toList ++ t.toString) :: t.frames.map frameLine

/-- Lines behind others. -/
def below (lines : List Text) : Text := lines.flatMap ('\n' :: ·)

theorem appendFrames_eq (errorMsg : Text) (frames : List Text) :
    appendFrames errorMsg frames = errorMsg ++ below (frames.map frameLine) := by
  induction frames generalizing errorMsg with
  | nil => exact (List.append_nil errorMsg).symm
  | cons frame frames ih =>
    rw [appendFrames, List.foldl_cons, ← appendFrames, ih, List.append_assoc, List.append_assoc]
    rfl

theorem appendAll_causes {errorMsg : Text} (hne : errorMsg ≠ []) (ts : List (Throwable ι)) :
    appendAll errorMsg ts = errorMsg ++ below (ts.flatMap causeLines) := by
  induction ts generalizing errorMsg with
  | nil => exact (List.append_nil errorMsg).symm
  | cons t ts ih =>
    have hne' : appendFrames (appendHead errorMsg t) t.frames ≠ [] := by
      simp [appendFrames_eq, appendHead, hne]
    rw [appendAll, List.foldl_cons, ← appendAll, ih hne', appendFrames_eq, appendHead, if_pos hne]
    simp only [List.flatMap_cons, causeLines, below, List.flatMap_append, List.cons_append,
      List.append_assoc]
    rfl

/-- The text of a chain whose first exception says something of itself. -/
theorem appendAll_eq {t : Throwable ι} (hne : t.toString ≠ []) (ts : List (Throwable ι)) :
    appendAll [] (t :: ts) =
      t.toString ++ below (t.frames.map frameLine ++ ts.flatMap causeLines) := by
  have hne' : appendFrames (appendHead [] t) t.frames ≠ [] := by
    simp [appendFrames_eq, appendHead, hne]
  rw [appendAll, List.foldl_cons, ← appendAll, appendAll_causes hne', appendFrames_eq, appendHead,
    if_neg (not_not.mpr rfl), below, below, below, List.flatMap_append, List.append_assoc]

end Text

/-! ### Reading it back -/

/-- What is told of an exception: its text and those of its frames. -/
abbrev Record := Text × List Text

def Throwable.record {ι : Type} (t : Throwable ι) : Record := (t.toString, t.frames)

/-- The frames that come before the first cause, and the causes. -/
def readCauses : List Text → List Text × List Record
  | [] => ([], [])
  | line :: lines =>
    let r := readCauses lines
    if "    ".toList.isPrefixOf line then (line.drop 4 :: r.1, r.2)
    else ([], (line.drop 11, r.1) :: r.2)

def readTrace (text : Text) : List Record :=
  match text.splitOn '\n' with
  | [] => []
  | head :: lines => (head, (readCauses lines).1) :: (readCauses lines).2

/-- No text of the exception goes over a line. -/
structure OneLine {ι : Type} (t : Throwable ι) : Prop where
  head : '\n' ∉ t.toString
  frames : ∀ f ∈ t.frames, '\n' ∉ f

section Read
variable {ι : Type} {heap : ι → Throwable ι}

theorem readCauses_frames (frames : List Text) (lines : List Text) :
    readCauses (frames.map frameLine ++ lines) =
      (frames ++ (readCauses lines).1, (readCauses lines).2) := by
  induction frames with
  | nil => rfl
  | cons frame frames ih =>
    rw [List.map_cons, List.cons_append, readCauses, ih]
    rfl

theorem readCauses_causes (ts : List (Throwable ι)) :
    readCauses (ts.flatMap causeLines) = ([], ts.map Throwable.record) := by
  induction ts with
  | nil => rfl
  | cons t ts ih =>
    rw [List.flatMap_cons, causeLines, List.cons_append, readCauses, readCauses_frames, ih]
    simp only [List.append_nil]
    rfl

theorem splitOn_below {head : Text} {lines : List Text} (hhead : '\n' ∉ head)
    (hlines : ∀ l ∈ lines, '\n' ∉ l) : (head ++ below lines).splitOn '\n' = head :: lines := by
  have hjoin : head ++ below lines = ['\n'].intercalate (head :: lines) := by
    induction lines generalizing head with
    | nil => simp [below]
    | cons l lines ih =>
      obtain ⟨hl, hrest⟩ := List.forall_mem_cons.mp hlines
      rw [List.intercalate_cons_cons, ← ih hl hrest]
      simp [below]
  rw [hjoin]
  exact List.splitOn_intercalate '\n' (List.forall_mem_cons.mpr ⟨hhead, hlines⟩)
    (List.cons_ne_nil head lines)

theorem oneLine_lines {t : Throwable ι} {ts : List (Throwable ι)}
    (h : ∀ u ∈ t :: ts, OneLine u) :
    ∀ l ∈ t.frames.map frameLine ++ ts.flatMap causeLines, '\n' ∉ l := by
  have hframe : ∀ u : Throwable ι, OneLine u → ∀ l ∈ u.frames.map frameLine, '\n' ∉ l := by
    intro u hu l hl
    obtain ⟨f, hf, rfl⟩ := List.mem_map.mp hl
    simp only [frameLine, List.mem_append, not_or]
    exact ⟨by decide, hu.frames f hf⟩
  intro l hl
  rcases List.mem_append.mp hl with hl | hl
  · exact hframe t (h t List.mem_cons_self) l hl
  · obtain ⟨u, hu, hl⟩ := List.mem_flatMap.mp hl
    have hone := h u (List.mem_cons_of_mem t hu)
    rcases List.mem_cons.mp hl with rfl | hl
    · simp only [List.mem_append, not_or]
      exact ⟨by decide, hone.head⟩
    · exact hframe u hone l hl

/-- The text names every exception of the chain, each with all its frames, in order. -/
theorem readTrace_appendAll {t : Throwable ι} {ts : List (Throwable ι)} (hne : t.toString ≠ [])
    (h : ∀ u ∈ t :: ts, OneLine u) :
    readTrace (appendAll [] (t :: ts)) = (t :: ts).map Throwable.record := by
  rw [appendAll_eq hne, readTrace,
    splitOn_below (h t List.mem_cons_self).head (oneLine_lines h)]
  simp only [readCauses_frames, readCauses_causes, List.append_nil]
  rfl

theorem Chain.read {exc : ι} {ts : List (Throwable ι)} (h : Chain heap exc ts)
    (hne : (heap exc).toString ≠ []) (hone : ∀ t ∈ ts, OneLine t) :
    readTrace (appendAll [] ts) = ts.map Throwable.record := by
  cases h with
  | last exc hnone => exact readTrace_appendAll hne hone
  | cause exc c ts hcause rest => exact readTrace_appendAll hne hone

end Read

/-! ### In the browser -/

/-- `TOWA_HTTP_500`. -/
def towaHttp500 : ℕ := 0x03

/-- An error message as it is shown. -/
def pre (error : Text) : Text := "<pre>".toList ++ error ++ "</pre>".toList

/-- What `TowaAppPool::processRequest` returns for a servlet that has thrown `exc`. -/
def errorReply {ι : Type} (heap : ι → Throwable ι) (n : ℕ) (exc : ι) : Option Packet :=
  (getJNIException heap n exc []).bind fun error => ofString (Char.ofNat towaHttp500 :: pre error)

/-- The trace on a page: behind the heading and `<pre>`, before `</pre>`. -/
def readPage (page : Text) : List Record :=
  let error := page.drop ((content500 []).length + 5)
  readTrace (error.take (error.length - 6))

/-- What the browser gets for a reply that has the trace of these exceptions. -/
def Explains {ι : Type} (ts : List (Throwable ι)) (o : Outcome) : Prop :=
  statusOf o.writes.flatten = some "500".toList ∧ o.counted = [.http500] ∧
    readPage (body o.writes.flatten) = ts.map Throwable.record

/-- What has to fit in the `int` of a message. -/
def textLength {ι : Type} (ts : List (Throwable ι)) : ℕ := (appendAll [] ts).length + 12

section Browser
variable {ι : Type} {heap : ι → Throwable ι} {cache : Cache} {buffer : Text}

theorem readPage_content500 (error : Text) :
    readPage (content500 (pre error)) = readTrace error := by
  have hassoc : ∀ heading before after : Text, heading ++ (before ++ error ++ after) =
      (heading ++ [] ++ before) ++ (error ++ after) := by simp
  have hsplit : content500 (pre error) =
      (content500 [] ++ "<pre>".toList) ++ (error ++ "</pre>".toList) := hassoc _ _ _
  have hlen : (content500 [] ++ "<pre>".toList).length = (content500 []).length + 5 :=
    List.length_append
  have hdrop : (content500 (pre error)).drop ((content500 []).length + 5) =
      error ++ "</pre>".toList := by
    rw [hsplit, ← hlen]
    exact List.drop_left
  have hend : (error ++ "</pre>".toList).length - 6 = error.length := by
    rw [List.length_append]
    exact Nat.add_sub_cancel error.length 6
  simp only [readPage]
  rw [hdrop, hend, List.take_left]

theorem length_error (ts : List (Throwable ι)) :
    (Char.ofNat towaHttp500 :: pre (appendAll [] ts)).length = textLength ts := by
  simp only [textLength, pre, List.length_cons, List.length_append]
  change 5 + _ + 6 + 1 = _
  omega

/-- The calls of `GetJNIException` end exactly when the causes do, and then the browser can read
every exception of the chain with all its frames on the page it gets. -/
theorem trace_explains (heap : ι → Throwable ι) (exc : ι) (cache : Cache)
    (hv : (parseRequest buffer).valid = true) :
    ((∃ n text, getJNIException heap n exc [] = some text) ↔ ∃ ts, Chain heap exc ts) ∧
      ∀ ts, Chain heap exc ts → (heap exc).toString ≠ [] → (∀ t ∈ ts, OneLine t) →
        textLength ts < 2 ^ 31 → ∃ n reply, errorReply heap n exc = some reply ∧
          Delivers cache buffer reply (Explains ts) := by
  refine ⟨⟨?_, ?_⟩, ?_⟩
  · rintro ⟨n, text, h⟩
    exact chain_of_getJNIException h
  · rintro ⟨ts, hts⟩
    exact ⟨_, _, getJNIException_chain hts [] le_rfl⟩
  · intro ts hts hne hone hfits
    have hcall := getJNIException_chain hts [] le_rfl
    have hread := hts.read hne hone
    have hshort := (length_error ts).trans_lt hfits
    refine ⟨ts.length, ⟨_, hshort⟩, ?_, ?_⟩
    · rw [errorReply, hcall]
      exact ofString_short hshort
    · obtain ⟨hwrites, hcounted⟩ := processRequest_error cache (Char.ofNat towaHttp500).toNat
        (pre (appendAll [] ts)) hv (by decide)
      rw [@delivers_cons _ _ ⟨_, hshort⟩ _ _ _ rfl, Explains, hwrites, body, head_500]
      refine ⟨(status_500 _).1, hcounted, ?_⟩
      exact (readPage_content500 _).trans hread

end Browser

def sampleHeap : Bool → Throwable Bool
  | true => ⟨"E: no".toList, ["A.f".toList], some false⟩
  | false => ⟨"F".toList, ["B.g".toList, "B.h".toList], none⟩

theorem two_exceptions_explained :
    ∃ n reply, errorReply sampleHeap n true = some reply ∧
      Delivers emptyCache classRequest reply (Explains [sampleHeap true, sampleHeap false]) := by
  have hone : ∀ b, OneLine (sampleHeap b) := by
    intro b
    cases b <;> exact ⟨by decide, by decide⟩
  refine (trace_explains sampleHeap true emptyCache classRequest_valid).2 _
    (.cause true false _ rfl (.last false rfl)) (by decide) ?_ (by decide)
  intro t ht
  simp only [List.mem_cons, List.not_mem_nil, or_false] at ht
  rcases ht with rfl | rfl <;> exact hone _

end TowaTraces
