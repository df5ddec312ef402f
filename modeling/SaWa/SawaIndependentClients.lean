import Mathlib.Order.MinMax
import SaWa.GuardedRuns
import SaWa.SawaSharedStream

/-! Several connections, each with a byte range of the disk to itself, served one whole request
at a time in any order. -/
namespace SawaIndependentClients

open EffectProgram GuardedRuns RangeStore LittleEndian SawaProtocol SawaServer SawaServerRun
  SawaServerBounds SawaServerFlatDisk SawaSharedStream

/-! ### One client and a memory -/

def storeOf : Request → Mem → Mem
  | .write offset payload, m => store m offset.toNat payload
  | _, m => m

def answerOf : Request → Mem → List UInt8
  | .info, _ => wordBytes nbSectors
  | .read offset size, m => load m offset.toNat size.toNat
  | .write _ _, _ => [sawaMsgOk]

def memoryAfter (rs : List Request) (m : Mem) : Mem := rs.foldl (fun m r => storeOf r m) m

def answers : List Request → Mem → List (List UInt8)
  | [], _ => []
  | r :: rs, m => answerOf r m :: answers rs (storeOf r m)

theorem memoryAfter_snoc (rs : List Request) (r : Request) (m : Mem) :
    memoryAfter (rs ++ [r]) m = storeOf r (memoryAfter rs m) := by
  simp [memoryAfter]

theorem answers_snoc (rs : List Request) (r : Request) (m : Mem) :
    answers (rs ++ [r]) m = answers rs m ++ [answerOf r (memoryAfter rs m)] := by
  induction rs generalizing m with
  | nil => rfl
  | cons q rs ih =>
    rw [List.cons_append, answers, ih]
    rfl

/-! ### The server and its connections -/

variable {ι : Type}

structure Server (ι : Type) where
  shared : Shared
  conn : ι → Conn

/-- An `fread` transfers all it is asked for. -/
def InFull : Call × World → Prop
  | (.fread size, w) => (w.1.fp.freadBytes size).length = size
  | _ => True

/-- Every stdio call made for the request succeeds in full. -/
def ServedInFull (s : Server ι) (e : ι × Request) : Prop :=
  AllCalls sysHandler InFull (receive e.2.frame) (s.shared, s.conn e.1)

/-- A request that addresses bytes of `[lo, hi)` only. -/
structure StaysIn (lo hi : ℕ) (r : Request) : Prop where
  start_le : lo ≤ r.start
  end_le : r.start + r.count ≤ hi

instance (lo hi : ℕ) (r : Request) : Decidable (StaysIn lo hi r) :=
  decidable_of_iff (lo ≤ r.start ∧ r.start + r.count ≤ hi)
    ⟨fun h => ⟨h.1, h.2⟩, fun h => ⟨h.start_le, h.end_le⟩⟩

/-- Byte ranges of the disk, one for each connection and without a common byte. -/
structure OwnRanges (lo hi : ι → ℕ) : Prop where
  le_capacity : ∀ i, hi i ≤ capacity
  apart : ∀ i j, i ≠ j → Apart (lo i) (hi i - lo i) (lo j) (hi j - lo j)

theorem OwnRanges.not_both {lo hi : ι → ℕ} (h : OwnRanges lo hi) {i j : ι} {a : ℕ} (hij : i ≠ j)
    (hi₁ : lo i ≤ a) (hi₂ : a < hi i) : ¬ (lo j ≤ a ∧ a < hi j) := by
  rintro ⟨hj₁, hj₂⟩
  exact (apart_iff _ _ _ _).mp (h.apart i j hij) a hi₁ (by omega) hj₁ (by omega)

/-! ### One request -/

/-- Where a WRITE makes the file end at least. -/
def reach : Request → ℕ
  | .write offset payload => if payload = [] then 0 else offset.toNat + payload.length
  | _ => 0

section Step
variable {lo hi : ℕ} {r : Request}

theorem StaysIn.inside (h : StaysIn lo hi r) (hc : hi ≤ capacity) : Inside capacity r := by
  have hend := h.end_le.trans hc
  exact ⟨hend, hend⟩

theorem image_contentsAfter (h : Inside capacity r) (l : List UInt8) :
    image 0 (contentsAfter r l) = storeOf r (image 0 l) := by
  cases r with
  | info => rfl
  | read offset size => rfl
  | write offset payload =>
    rw [contentsAfter, if_pos h.accepted_write, image_patch]
    rfl

theorem length_after_max (h : Inside capacity r) (l : List UInt8) :
    (contentsAfter r l).length = max l.length (reach r) := by
  cases r with
  | info => simp [contentsAfter, reach]
  | read offset size => simp [contentsAfter, reach]
  | write offset payload =>
    rw [contentsAfter, if_pos h.accepted_write, reach]
    by_cases hp : payload = []
    · simp [hp]
    · rw [if_neg hp, length_patch 0 _ _ hp]

theorem storeOf_outside (h : StaysIn lo hi r) (m : Mem) {a : ℕ} (ha : ¬ (lo ≤ a ∧ a < hi)) :
    storeOf r m a = m a := by
  cases r with
  | info => rfl
  | read offset size => rfl
  | write offset payload =>
    have hlo : lo ≤ offset.toNat := h.start_le
    have hhi : offset.toNat + payload.length ≤ hi := h.end_le
    exact store_outside _ _ _ (by omega)

theorem storeOf_congr {m m' : Mem} {a : ℕ} (h : m a = m' a) : storeOf r m a = storeOf r m' a := by
  cases r with
  | info => exact h
  | read offset size => exact h
  | write offset payload => simp [storeOf, store, h]

/-- The one `fread` is that of a READ, made at its offset. -/
theorem readFile_in_full_iff {offset size : UInt32} (h : Accepted offset size) (w : World) :
    AllCalls sysHandler InFull (readFile offset size) w ↔
      (slice w.1.fp.contents offset.toNat size.toNat).length = size.toNat := by
  rw [readFile_accepted h]
  simp only [allCalls_call, allCalls_ret, InFull, true_and, and_true]
  rfl

theorem writeFile_in_full {offset size : UInt32} (h : Accepted offset size) (addr : Mem)
    (w : World) : AllCalls sysHandler InFull (writeFile addr offset size) w := by
  rw [writeFile_accepted h]
  simp only [allCalls_call, InFull, true_and]
  split_ifs <;> simp [InFull]

theorem servedInFull_iff {s : Server ι} {i : ι} (h : Inside capacity r) :
    ServedInFull s (i, r) ↔ ∀ offset size, r = .read offset size →
      (slice s.shared.fp.contents offset.toNat size.toNat).length = size.toNat := by
  unfold ServedInFull
  simp only [receive, perform_bind, allCalls_call, processRequest_frame _ h.frame_lt]
  cases r with
  | info => simp [requestProgram, sendInfo, updateScreen, InFull]
  | read offset size =>
    simp only [requestProgram, allCalls_bind, readFile_in_full_iff h.accepted_read, updateScreen,
      allCalls_perform, InFull, true_and, and_true]
    constructor
    · rintro hlen _ _ ⟨⟩
      exact hlen
    · intro hlen
      exact hlen offset size rfl
  | write offset payload =>
    simp only [requestProgram, allCalls_bind, writeFile_in_full h.accepted_write, updateScreen,
      allCalls_perform, InFull, true_and]
    simp

theorem replyTo_eq_answerOf {s : Server ι} {i : ι} {m : Mem} (h : StaysIn lo hi r)
    (hc : hi ≤ capacity) (hfull : ServedInFull s (i, r))
    (hm : ∀ a, lo ≤ a → a < hi → image 0 s.shared.fp.contents a = m a) :
    replyTo r s.shared.afterAlloc = answerOf r m := by
  have hin := h.inside hc
  cases r with
  | info => rfl
  | write offset payload =>
    rw [replyTo, if_pos hin.accepted_write]
    rfl
  | read offset size =>
    have hlen := (servedInFull_iff hin).mp hfull offset size rfl
    have hself := load_store_self (s.shared.heap 1) 0
      (slice s.shared.fp.contents offset.toNat size.toNat)
    rw [hlen] at hself
    rw [replyTo, if_pos hin.accepted_read, answerOf]
    refine hself.trans ?_
    -- The range is read in full, from bytes that only this client writes.
    have hlo : lo ≤ offset.toNat := h.start_le
    have hhi : offset.toNat + size.toNat ≤ hi := h.end_le
    rw [slice_eq_load_of_full 0 hlen]
    exact load_congr fun a ha₁ ha₂ => hm a (hlo.trans ha₁) (ha₂.trans_le hhi)

end Step

/-! ### Requests of several connections -/

variable [DecidableEq ι] {r : Request}

/-- The thread of a connection serves one request, from its frame to its reply. -/
def Server.serve (s : Server ι) (e : ι × Request) : Server ι :=
  let w := (run sysHandler (receive e.2.frame) (s.shared, s.conn e.1)).2
  ⟨w.1, Function.update s.conn e.1 w.2⟩

def server (ι : Type) [DecidableEq ι] : System (Server ι) (ι × Request) where
  start _ := True
  enabled _ _ := True
  next := Server.serve

/-- The requests of connection `i`, in their order. -/
def requestsOf (i : ι) (es : List (ι × Request)) : List Request :=
  (es.filter fun e => e.1 = i).map Prod.snd

/-- The order of service holds every connection's sequence, as an interleaving. -/
def Interleaves (requests : ι → List Request) (es : List (ι × Request)) : Prop :=
  ∀ i, requestsOf i es = requests i

theorem requestsOf_snoc_self (i : ι) (es : List (ι × Request)) (r : Request) :
    requestsOf i (es ++ [(i, r)]) = requestsOf i es ++ [r] := by
  simp [requestsOf]

theorem requestsOf_snoc_of_ne {i j : ι} (h : j ≠ i) (es : List (ι × Request)) (r : Request) :
    requestsOf i (es ++ [(j, r)]) = requestsOf i es := by
  simp [requestsOf, h]

theorem mem_requestsOf {i : ι} {es : List (ι × Request)} {r : Request} :
    r ∈ requestsOf i es ↔ (i, r) ∈ es := by
  simp [requestsOf]

theorem Interleaves.mem_iff {requests : ι → List Request} {es : List (ι × Request)}
    (h : Interleaves requests es) {i : ι} : (i, r) ∈ es ↔ r ∈ requests i := by
  rw [← h i]
  exact mem_requestsOf.symm

theorem Interleaves.stays {requests : ι → List Request} {es : List (ι × Request)} {lo hi : ι → ℕ}
    (h : Interleaves requests es) (hstay : ∀ i, ∀ r ∈ requests i, StaysIn (lo i) (hi i) r) :
    ∀ e ∈ es, StaysIn (lo e.1) (hi e.1) e.2 :=
  fun e he => hstay e.1 e.2 (h.mem_iff.mp he)

theorem conn_serve (s : Server ι) (i : ι) (h : Inside capacity r) :
    (s.serve (i, r)).conn =
      Function.update s.conn i (requestEffect r (afterAlloc (s.shared, s.conn i))).2 := by
  simp only [Server.serve, run_receive_decode (decode_frame r) h.frame_lt]

theorem contents_serve (s : Server ι) (i : ι) (h : Inside capacity r) :
    (s.serve (i, r)).shared.fp.contents = contentsAfter r s.shared.fp.contents := by
  simp only [Server.serve, run_receive_decode (decode_frame r) h.frame_lt,
    contents_requestEffect, fp_afterAlloc]

/-! ### Whole runs -/

/-- After the requests in `done` every connection has the replies it would have got alone, and
its range holds what it would hold. -/
structure Alone (lo hi : ι → ℕ) (s₀ : Server ι) (done : List (ι × Request)) (s : Server ι) :
    Prop where
  output : ∀ i, (s.conn i).output =
    (s₀.conn i).output ++ answers (requestsOf i done) (image 0 s₀.shared.fp.contents)
  inside : ∀ i a, lo i ≤ a → a < hi i → image 0 s.shared.fp.contents a =
    memoryAfter (requestsOf i done) (image 0 s₀.shared.fp.contents) a
  outside : ∀ a, (∀ i, ¬ (lo i ≤ a ∧ a < hi i)) →
    image 0 s.shared.fp.contents a = image 0 s₀.shared.fp.contents a
  length : ∀ n, n < s.shared.fp.contents.length ↔
    n < s₀.shared.fp.contents.length ∨ ∃ e ∈ done, n < reach e.2

section Runs
variable {lo hi : ι → ℕ} {requests : ι → List Request} {s₀ s : Server ι}
  {es es' done : List (ι × Request)}

theorem alone_start : Alone lo hi s₀ [] s₀ := by
  constructor
  · intro i
    simp [requestsOf, answers]
  · intro i a _ _
    rfl
  · intro a _
    rfl
  · simp

theorem Alone.serve (hown : OwnRanges lo hi) (h : Alone lo hi s₀ done s) {i : ι} {r : Request}
    (hr : StaysIn (lo i) (hi i) r) (hfull : ServedInFull s (i, r)) :
    Alone lo hi s₀ (done ++ [(i, r)]) (s.serve (i, r)) := by
  have hin := hr.inside (hown.le_capacity i)
  have himage := image_contentsAfter hin s.shared.fp.contents
  constructor
  · intro j
    rw [conn_serve s i hin]
    by_cases hj : j = i
    · subst hj
      rw [Function.update_self, output_requestEffect, requestsOf_snoc_self, answers_snoc,
        conn_afterAlloc, h.output j, List.append_assoc]
      congr
      exact replyTo_eq_answerOf hr (hown.le_capacity j) hfull (h.inside j)
    · rw [Function.update_of_ne hj, requestsOf_snoc_of_ne (Ne.symm hj)]
      exact h.output j
  · intro j a ha₁ ha₂
    rw [contents_serve s i hin, himage]
    by_cases hj : j = i
    · subst hj
      rw [requestsOf_snoc_self, memoryAfter_snoc]
      exact storeOf_congr (h.inside j a ha₁ ha₂)
    · rw [requestsOf_snoc_of_ne (Ne.symm hj), storeOf_outside hr _ (hown.not_both hj ha₁ ha₂)]
      exact h.inside j a ha₁ ha₂
  · intro a ha
    rw [contents_serve s i hin, himage, storeOf_outside hr _ (ha i)]
    exact h.outside a ha
  · intro n
    rw [contents_serve s i hin, length_after_max hin, lt_max_iff, h.length n]
    simp only [List.mem_append, List.mem_singleton, or_and_right, exists_or, exists_eq_left,
      or_assoc]

theorem alone_run (hown : OwnRanges lo hi) (hes : Interleaves requests es)
    (hstay : ∀ i, ∀ r ∈ requests i, StaysIn (lo i) (hi i) r)
    (hfull : (server ι).Runs ServedInFull s₀ es) :
    Alone lo hi s₀ es ((server ι).run s₀ es) := by
  have hboth : (server ι).Runs
      (fun s e => ServedInFull s e ∧ StaysIn (lo e.1) (hi e.1) e.2) s₀ es :=
    hfull.mono fun s e he hok => ⟨hok, hes.stays hstay e he⟩
  have hrun := hboth.invariant (I := Alone lo hi s₀)
    (fun done s e _ hok h => h.serve hown hok.2 hok.1) alone_start
  simpa using hrun

theorem exists_reach_iff (hes : Interleaves requests es) {n : ℕ} :
    (∃ e ∈ es, n < reach e.2) ↔ ∃ i, ∃ r ∈ requests i, n < reach r := by
  constructor
  · rintro ⟨⟨i, r⟩, he, hn⟩
    exact ⟨i, r, hes.mem_iff.mp he, hn⟩
  · rintro ⟨i, r, hr, hn⟩
    exact ⟨(i, r), hes.mem_iff.mpr hr, hn⟩

/-- Two interleavings give every connection the same replies, and leave the same file. -/
theorem interleavings_agree (hown : OwnRanges lo hi)
    (hstay : ∀ i, ∀ r ∈ requests i, StaysIn (lo i) (hi i) r) (hes : Interleaves requests es)
    (hes' : Interleaves requests es') (hfull : (server ι).Runs ServedInFull s₀ es)
    (hfull' : (server ι).Runs ServedInFull s₀ es') :
    (∀ i, (((server ι).run s₀ es).conn i).output = (((server ι).run s₀ es').conn i).output) ∧
      ((server ι).run s₀ es).shared.fp.contents = ((server ι).run s₀ es').shared.fp.contents := by
  have h := alone_run hown hes hstay hfull
  have h' := alone_run hown hes' hstay hfull'
  constructor
  · intro i
    rw [h.output i, h'.output i, hes i, hes' i]
  · apply file_ext 0
    · have hlt : ∀ n, n < ((server ι).run s₀ es).shared.fp.contents.length ↔
          n < ((server ι).run s₀ es').shared.fp.contents.length := by
        intro n
        rw [h.length n, h'.length n, exists_reach_iff hes, exists_reach_iff hes']
      exact Nat.le_antisymm (le_of_forall_lt fun n hn => (hlt n).mp hn)
        (le_of_forall_lt fun n hn => (hlt n).mpr hn)
    · funext a
      by_cases ha : ∃ i, lo i ≤ a ∧ a < hi i
      · obtain ⟨i, ha₁, ha₂⟩ := ha
        rw [h.inside i a ha₁ ha₂, h'.inside i a ha₁ ha₂, hes i, hes' i]
      · have hout : ∀ i, ¬ (lo i ≤ a ∧ a < hi i) := fun i hi => ha ⟨i, hi⟩
        rw [h.outside a hout, h'.outside a hout]

/-- A file that holds all the ranges is long enough for every call. -/
theorem runs_in_full (hown : OwnRanges lo hi) (hlen : ∀ i, hi i ≤ s.shared.fp.contents.length)
    (hes : Interleaves requests es) (hstay : ∀ i, ∀ r ∈ requests i, StaysIn (lo i) (hi i) r) :
    (server ι).Runs ServedInFull s es := by
  have hstay' := hes.stays hstay
  clear hes hstay
  induction es generalizing s with
  | nil => trivial
  | cons e es ih =>
    rcases List.forall_mem_cons.mp hstay' with ⟨he, hrest⟩
    have hin := he.inside (hown.le_capacity e.1)
    refine ⟨trivial, ?_, ih (fun i => ?_) hrest⟩
    · apply (servedInFull_iff hin).mpr
      intro offset size hr
      apply length_slice
      have hend := he.end_le.trans (hlen e.1)
      rwa [hr] at hend
    · have hnext : ((server ι).next s e).shared.fp.contents.length =
          max s.shared.fp.contents.length (reach e.2) := by
        rw [← length_after_max hin, ← contents_serve s e.1 hin]
        rfl
      rw [hnext]
      exact (hlen i).trans (le_max_left _ _)

end Runs

/-! ### Two clients in two orders -/

/-- Each client writes a byte of a sector of its own and reads it back. -/
def ownSector : Bool → List Request
  | false => [.write 0 [1], .read 0 1]
  | true => [.write 512 [2], .read 512 1]

def sectorStart (i : Bool) : ℕ := if i then 512 else 0

def oneByOne : List (Bool × Request) :=
  [(false, .write 0 [1]), (false, .read 0 1), (true, .write 512 [2]), (true, .read 512 1)]

def inTurns : List (Bool × Request) :=
  [(true, .write 512 [2]), (false, .write 0 [1]), (true, .read 512 1), (false, .read 0 1)]

def newServer : Server Bool := ⟨newWorld.1, fun _ => newWorld.2⟩

theorem two_clients_agree :
    Interleaves ownSector oneByOne ∧ Interleaves ownSector inTurns ∧
      (∀ i, (((server Bool).run newServer oneByOne).conn i).output =
        (((server Bool).run newServer inTurns).conn i).output) ∧
      ((server Bool).run newServer oneByOne).shared.fp.contents =
        ((server Bool).run newServer inTurns).shared.fp.contents := by
  have hown : OwnRanges sectorStart fun i => sectorStart i + 512 := ⟨by decide, by decide⟩
  have hstay : ∀ i, ∀ r ∈ ownSector i, StaysIn (sectorStart i) (sectorStart i + 512) r := by
    decide
  have hlen : ∀ i, sectorStart i + 512 ≤ newServer.shared.fp.contents.length := by
    have hnew : newServer.shared.fp.contents.length = capacity := length_newFile
    rw [hnew]
    decide
  have hes : Interleaves ownSector oneByOne := by
    unfold Interleaves
    decide
  have hes' : Interleaves ownSector inTurns := by
    unfold Interleaves
    decide
  exact ⟨hes, hes', interleavings_agree hown hstay hes hes' (runs_in_full hown hlen hes hstay)
    (runs_in_full hown hlen hes' hstay)⟩

end SawaIndependentClients
