import SaWa.HttpServer
import Mathlib.Data.List.Forall2

/-! `HTTPServer::readData`: how what `read` returns is put into blocks, and when a chain of
blocks is handed to `processRequest`. -/
namespace HttpReadData

open HttpServer

def blankLine : Text := ['\r', '\n', '\r', '\n']

/-- A zeroed `request_message` after a `read` into its data. -/
def block (bytes : Text) : Text := bytes ++ List.replicate (requestMessageLen - bytes.length) '\x00'

/-- The memory from the first block on: its data and the pointer to the next block, null in the
last one, and then whatever lies there. -/
def bufferAt (after : List Text → Text) : List Text → Text
  | [] => []
  | [b] => b ++ List.replicate 8 '\x00' ++ after [b]
  | b :: bs => b ++ after (b :: bs)

structure Call where
  chain : List Text
  size : ℕ
  deriving DecidableEq, Repr

/-- What goes on from call to call: how many there have been, and the cache. -/
abbrev Session := ℕ × Cache

section ReadData
variable (mode : ℕ → Mode) (after : List Text → Text)

/-- One call of `processRequest`, and whether the connection stays open; `mode` gives the
filesystem or the towa process as each call meets it. -/
def serve (s : Session) (chain : List Text) : Bool × Session :=
  let o := processRequest (mode s.1) s.2 (bufferAt after chain)
  (o.result = some true, (s.1 + 1, o.cache))

/-- `full` are the blocks filled before; at the end of `reads` the connection is closed. The
string compared with the blank line ends at the null pointer behind the data. -/
def readLoop : Session → List Text → List Text → List Call
  | _, _, [] => []
  | s, full, bytes :: reads =>
    if bytes = [] then []
    else
      let chain := full ++ [block bytes]
      if bytes.length < requestMessageLen ∨
          (block bytes).drop (requestMessageLen - 4) ≠ blankLine then
        let r := serve mode after s chain
        ⟨chain, bytes.length⟩ :: if r.1 then readLoop r.2 [] reads else []
      else readLoop s chain reads

def readData (s : Session) (reads : List Text) : List Call := readLoop mode after s [] reads

end ReadData

/-- A `GET` request ends with its first blank line. -/
structure GetRequest where
  bytes : Text
  get : ['G', 'E', 'T'] <+: bytes
  ends : ∃ a, bytes = a ++ blankLine
  only : ∀ a b, bytes = a ++ blankLine ++ b → b = []

/-- The chain holds the bytes of `r` and only zeros behind them. -/
def Call.Holds (c : Call) (r : Text) : Prop :=
  c.chain.flatten = r ++ List.replicate (requestMessageLen - c.size) '\x00'

section Exact
variable (mode : ℕ → Mode) (after : List Text → Text)

/-- What leaves the connection open: a request line that parses, the keep-alive header, and a file
or an answer that is not an error. -/
theorem serve_open_iff (s : Session) (chain : List Text) :
    (serve mode after s chain).1 = true ↔
      (parseRequest (bufferAt after chain)).valid = true ∧
        (parseRequest (bufferAt after chain)).keepAlive = true ∧
        match mode s.1 with
        | .files d =>
          ∃ f, (getFile d s.2 (parseRequest (bufferAt after chain)).path).found = .file f
        | .towa sendMsg =>
          let r := parseRequest (bufferAt after chain)
          let header := (sendMsg r.method (r.path.drop 1) r.queryString).header
          header = towaHttp200 ∨ header = towaHttp404 := by
  simp only [serve, decide_eq_true_eq]
  exact processRequest_open_iff _ _ _

/-- Each request but the last, in a block of its own, is answered with the connection left open. -/
def KeptOpen : Session → List GetRequest → Prop
  | _, [] => True
  | s, r :: rs =>
    (rs ≠ [] → (serve mode after s [block r.bytes]).1 = true) ∧
      KeptOpen (serve mode after s [block r.bytes]).2 rs

variable {mode after}

theorem length_block {bytes : Text} (h : bytes.length ≤ requestMessageLen) :
    (block bytes).length = requestMessageLen := by
  simp [block]
  omega

/-- The first chain handed over begins with the blocks filled before and has another one. -/
theorem head_readLoop {reads : List Text} :
    ∀ {s : Session} {full : List Text} {c : Call} {cs : List Call},
      (∀ b ∈ reads, b.length ≤ requestMessageLen) → readLoop mode after s full reads = c :: cs →
      ∃ more, c.chain = full ++ more ∧ requestMessageLen ≤ more.flatten.length ∧ 0 < c.size := by
  induction reads with
  | nil =>
    intro s full c cs _ h
    cases h
  | cons bytes reads ih =>
    intro s full c cs hlen h
    have hb := hlen bytes List.mem_cons_self
    unfold readLoop at h
    by_cases hnil : bytes = []
    · rw [if_pos hnil] at h
      cases h
    · rw [if_neg hnil] at h
      simp only at h
      split_ifs at h with hend hopen
      · obtain ⟨rfl, -⟩ := List.cons.inj h
        refine ⟨[block bytes], rfl, ?_, List.length_pos_iff.mpr hnil⟩
        simp [length_block hb]
      · obtain ⟨rfl, -⟩ := List.cons.inj h
        refine ⟨[block bytes], rfl, ?_, List.length_pos_iff.mpr hnil⟩
        simp [length_block hb]
      · obtain ⟨more, hmore, hsize, hpos⟩ :=
          ih (fun b hb => hlen b (List.mem_cons_of_mem bytes hb)) h
        refine ⟨block bytes :: more, ?_, ?_, hpos⟩
        · simpa using hmore
        · simp only [List.flatten_cons, List.length_append]
          omega

theorem GetRequest.ne_nil (r : GetRequest) : r.bytes ≠ [] := by
  obtain ⟨a, ha⟩ := r.ends
  rw [ha]
  simp [blankLine]

theorem GetRequest.drop_blankLine (r : GetRequest) (h : r.bytes.length = requestMessageLen) :
    (block r.bytes).drop (requestMessageLen - 4) = blankLine := by
  obtain ⟨a, ha⟩ := r.ends
  have hlen : a.length = requestMessageLen - 4 := by
    rw [ha, List.length_append] at h
    simp only [blankLine, List.length_cons, List.length_nil] at h
    omega
  rw [block, h, Nat.sub_self, List.replicate_zero, List.append_nil, ha, ← hlen,
    List.drop_left]

/-- A full block that does not end in the blank line, or one that is not full, goes to
`processRequest` by itself. -/
theorem readLoop_end {s : Session} {bytes : Text} {reads : List Text} (hne : bytes ≠ [])
    (hend : bytes.length < requestMessageLen ∨
      (block bytes).drop (requestMessageLen - 4) ≠ blankLine) :
    readLoop mode after s [] (bytes :: reads) =
      ⟨[block bytes], bytes.length⟩ ::
        if (serve mode after s [block bytes]).1 then
          readLoop mode after (serve mode after s [block bytes]).2 [] reads
        else [] := by
  rw [readLoop, if_neg hne]
  simp only [List.nil_append, if_pos hend]

/-- A full block that ends in the blank line waits for more, so nothing handed over is it. -/
theorem full_request_not_held {s : Session} {bytes : Text} {reads : List Text} {r : GetRequest}
    {cs : List Text} (hne : bytes ≠ []) (hlen : ∀ b ∈ bytes :: reads, b.length ≤ requestMessageLen)
    (hend : ¬ (bytes.length < requestMessageLen ∨
      (block bytes).drop (requestMessageLen - 4) ≠ blankLine)) :
    ¬ List.Forall₂ Call.Holds (readLoop mode after s [] (bytes :: reads)) (r.bytes :: cs) := by
  intro h
  rw [readLoop, if_neg hne] at h
  simp only [List.nil_append, if_neg hend] at h
  rw [not_or, not_not] at hend
  have hfull : bytes.length = requestMessageLen := by
    have hb := hlen bytes List.mem_cons_self
    omega
  cases hcalls : readLoop mode after s [block bytes] reads with
  | nil =>
    rw [hcalls] at h
    cases h
  | cons c calls =>
    rw [hcalls] at h
    obtain ⟨hholds, -⟩ := List.forall₂_cons.mp h
    obtain ⟨more, hmore, hsize, hpos⟩ :=
      head_readLoop (fun b hb => hlen b (List.mem_cons_of_mem bytes hb)) hcalls
    have hblock : block bytes = bytes := by simp [block, hfull]
    have hflat : bytes ++ more.flatten =
        r.bytes ++ List.replicate (requestMessageLen - c.size) '\x00' := by
      rw [← hholds, hmore]
      simp [hblock]
    -- the request is longer than the block, and the blank line at the block's end is too early
    have hlonger : bytes.length < r.bytes.length := by
      have hl := congrArg List.length hflat
      have hL : requestMessageLen = 1016 := rfl
      simp only [List.length_append, List.length_replicate] at hl
      omega
    obtain ⟨t, ht⟩ : ∃ t, r.bytes = bytes ++ t := by
      rcases List.append_eq_append_iff.mp hflat with ⟨t, ht, -⟩ | ⟨t, ht, -⟩
      · exact ⟨t, ht⟩
      · rw [ht, List.length_append] at hlonger
        omega
    have hbytes : bytes = bytes.take (requestMessageLen - 4) ++ blankLine := by
      have hd := hend.2
      rw [hblock] at hd
      rw [← hd, List.take_append_drop]
    have hnil := r.only (bytes.take (requestMessageLen - 4)) t (by rw [← hbytes, ht])
    rw [ht, hnil] at hlonger
    simp at hlonger

theorem holds_block_iff {bytes r : Text} :
    Call.Holds ⟨[block bytes], bytes.length⟩ r ↔ bytes = r := by
  simp [Call.Holds, block]

theorem GetRequest.short_of_end (r : GetRequest) (hlen : r.bytes.length ≤ requestMessageLen)
    (hend : r.bytes.length < requestMessageLen ∨
      (block r.bytes).drop (requestMessageLen - 4) ≠ blankLine) :
    r.bytes.length < requestMessageLen := by
  rcases hend with h | h
  · exact h
  · have hneq : r.bytes.length ≠ requestMessageLen := fun heq => h (r.drop_blankLine heq)
    omega

/-- Reads without a byte in all are no reads: none of them is empty. -/
theorem reads_eq_nil {reads : List Text} (hne : ∀ b ∈ reads, b ≠ []) (h : reads.flatten = []) :
    reads = [] := by
  cases reads with
  | nil => rfl
  | cons b reads =>
    have hb := List.flatten_eq_nil_iff.mp h b List.mem_cons_self
    exact absurd hb (hne b List.mem_cons_self)

/-- The calls behind the first one are those for the reads that are left, if the connection is
still open. -/
theorem rest_held_iff {keep : Bool} {s : Session} {reads : List Text} {rs : List GetRequest}
    (hne : ∀ b ∈ reads, b ≠ []) (hflat : reads.flatten = (rs.map GetRequest.bytes).flatten)
    (ih : List.Forall₂ Call.Holds (readLoop mode after s [] reads) (rs.map GetRequest.bytes) ↔
      reads = rs.map GetRequest.bytes ∧ (∀ r ∈ rs, r.bytes.length < requestMessageLen) ∧
        KeptOpen mode after s rs) :
    List.Forall₂ Call.Holds (if keep then readLoop mode after s [] reads else [])
        (rs.map GetRequest.bytes) ↔
      reads = rs.map GetRequest.bytes ∧ (∀ r ∈ rs, r.bytes.length < requestMessageLen) ∧
        (rs ≠ [] → keep = true) ∧ KeptOpen mode after s rs := by
  cases keep with
  | true => simpa using ih
  | false =>
    cases rs with
    | nil => simp [reads_eq_nil hne hflat, KeptOpen]
    | cons r rs => simp

/-- `processRequest` is called once for each request, in order, with exactly its bytes, just when
each `read` returns one whole request that leaves a byte of its block free, and each request but
the last leaves the connection open. -/
theorem calls_exact_iff {requests : List GetRequest} :
    ∀ {reads : List Text} (s : Session),
      (∀ b ∈ reads, b ≠ [] ∧ b.length ≤ requestMessageLen) →
      reads.flatten = (requests.map GetRequest.bytes).flatten →
      (List.Forall₂ Call.Holds (readData mode after s reads) (requests.map GetRequest.bytes) ↔
        reads = requests.map GetRequest.bytes ∧
          (∀ r ∈ requests, r.bytes.length < requestMessageLen) ∧
            KeptOpen mode after s requests) := by
  induction requests with
  | nil =>
    intro reads s hreads hflat
    obtain rfl : reads = [] := reads_eq_nil (fun b hb => (hreads b hb).1) hflat
    simp [readData, readLoop, KeptOpen]
  | cons r rs ih =>
    intro reads s hreads hflat
    cases reads with
    | nil =>
      simp at hflat
      exact absurd hflat.1 r.ne_nil
    | cons b reads =>
      obtain ⟨hne, hlen⟩ := hreads b List.mem_cons_self
      have hrest : ∀ b ∈ reads, b ≠ [] ∧ b.length ≤ requestMessageLen :=
        fun b hb => hreads b (List.mem_cons_of_mem _ hb)
      have hrest' : ∀ b ∈ reads, b ≠ [] := fun b hb => (hrest b hb).1
      by_cases hend : b.length < requestMessageLen ∨
          (block b).drop (requestMessageLen - 4) ≠ blankLine
      · rw [readData, readLoop_end hne hend, List.map_cons, List.forall₂_cons, holds_block_iff]
        constructor
        · rintro ⟨rfl, hcalls⟩
          have hshort := r.short_of_end hlen hend
          have hflat' : reads.flatten = (rs.map GetRequest.bytes).flatten := by
            simpa using hflat
          obtain ⟨hr, hl, hk⟩ := (rest_held_iff hrest' hflat' (ih _ hrest hflat')).mp hcalls
          exact ⟨by rw [hr], List.forall_mem_cons.mpr ⟨hshort, hl⟩, hk⟩
        · rintro ⟨heq, hl, hk⟩
          obtain ⟨rfl, rfl⟩ := List.cons.inj heq
          have hl' := (List.forall_mem_cons.mp hl).2
          exact ⟨rfl, (rest_held_iff hrest' rfl (ih _ hrest rfl)).mpr ⟨rfl, hl', hk⟩⟩
      -- the block is full and ends in the blank line: `readData` waits for more
      · constructor
        · intro hcalls
          exact absurd hcalls (full_request_not_held hne (fun b hb => (hreads b hb).2) hend)
        · rintro ⟨heq, hl, -⟩
          obtain ⟨rfl, -⟩ := List.cons.inj heq
          exact absurd (Or.inl (hl r List.mem_cons_self)) hend

theorem only_at_end {bytes : Text}
    (h : ∀ i < bytes.length, (bytes.drop i).take 4 = blankLine → i + 4 = bytes.length) (a b : Text)
    (heq : bytes = a ++ blankLine ++ b) : b = [] := by
  have hlen : bytes.length = a.length + 4 + b.length := by
    simp only [heq, blankLine, List.length_append, List.length_cons, List.length_nil]
  have hend := h a.length (by omega) (by simp [heq, blankLine])
  exact List.length_eq_zero_iff.mp (by omega)

def pageRequest : GetRequest where
  bytes := "GET /a HTTP/1.1\r\nConnection: keep-alive\r\n\r\n".toList
  get := by decide
  ends := ⟨"GET /a HTTP/1.1\r\nConnection: keep-alive".toList, by decide⟩
  only := only_at_end (by decide)

def pageDisk : Disk := ⟨fun _ => some ⟨0x81A0, 1⟩, fun _ => some ['x'], fun _ => []⟩

theorem separate_reads_exact :
    List.Forall₂ Call.Holds
      (readData (fun _ => .files pageDisk) (fun _ => []) (0, fun _ => none)
        [pageRequest.bytes, pageRequest.bytes])
      [pageRequest.bytes, pageRequest.bytes] := by
  have hiff := @calls_exact_iff (fun _ => .files pageDisk) (fun _ => []) [pageRequest, pageRequest]
    [pageRequest.bytes, pageRequest.bytes] (0, fun _ => none) (by decide) rfl
  exact hiff.mpr ⟨rfl, by decide, fun _ => by decide, fun h => absurd rfl h, trivial⟩

/-- Two requests that one `read` returns together are handed over as one. -/
theorem joined_requests_not_exact :
    ¬ ∀ (requests : List GetRequest) (reads : List Text) (mode : ℕ → Mode)
        (after : List Text → Text) (s : Session),
      (∀ b ∈ reads, b ≠ [] ∧ b.length ≤ requestMessageLen) →
      reads.flatten = (requests.map GetRequest.bytes).flatten →
      List.Forall₂ Call.Holds (readData mode after s reads) (requests.map GetRequest.bytes) := by
  intro hall
  have h := hall [pageRequest, pageRequest] [pageRequest.bytes ++ pageRequest.bytes]
    (fun _ => .files pageDisk) (fun _ => []) (0, fun _ => none) (by decide) (by simp)
  rw [readData, readLoop_end (by decide) (Or.inl (by decide))] at h
  have hone := holds_block_iff.mp (List.forall₂_cons.mp h).1
  exact absurd (congrArg List.length hone) (by decide)

end Exact

end HttpReadData
