import SaWa.EffectProgram
import SaWa.SawaProtocol

/-! `SawaClient::threadTest`: every page is written, read again, and compared with what was
written. The answers of the two commands are left to the other end. -/
namespace SawaClientTest

open EffectProgram RangeStore SawaProtocol

inductive Message where
  /-- `Error code RESULT at page PAGE` -/
  | errorCode (result : ℤ) (page : ℕ)
  /-- `Error page PAGE read/write operation failed` -/
  | pageFailed (page : ℕ)
  /-- `End thread THREAD_ID` -/
  | endThread (threadId : ℕ)
  deriving DecidableEq, Repr

/-- `sendInfo` is the INFO command with the read of its answer. -/
inductive TestCall where
  | sendInfo
  | sendWriteCmd (payload : List UInt8) (offset payloadSize : ℕ)
  | sendReadCmd (offset payloadSize : ℕ)
  | cout (m : Message)
  | cerr (m : Message)
  deriving DecidableEq, Repr

/-- `sendReadCmd` returns the memory at its buffer, or throws. -/
abbrev TestAnswer : TestCall → Type
  | .sendInfo | .cout _ | .cerr _ => Unit
  | .sendWriteCmd _ _ _ => ℤ
  | .sendReadCmd _ _ => Except UInt8 Mem

abbrev TestM := Prog TestCall TestAnswer

abbrev ask (e : TestCall) : TestM (TestAnswer e) := perform e

/-- A difference counts when it comes before a null or at it. -/
def strncmp : ℕ → Mem → Mem → ℤ
  | 0, _, _ => 0
  | n + 1, s, t =>
    if s 0 ≠ t 0 then (s 0).toNat - (t 0).toNat
    else if s 0 = 0 then 0
    else strncmp n (fun k => s (k + 1)) (fun k => t (k + 1))

def bufferOut (i : ℕ) : Mem := fun j => UInt8.ofNat ((i + j) % 256)

def msgOk : ℤ := sawaMsgOk.toNat

def writePage (i : ℕ) : TestM Unit := do
  let result ← ask (.sendWriteCmd (load (bufferOut i) 0 4096) (i * 4096) 4096)
  if result ≠ msgOk then ask (.cout (.errorCode result i))

def checkPage (i : ℕ) (bufferIn : Mem) : TestM Unit := do
  if strncmp 4096 bufferIn (bufferOut i) ≠ 0 then ask (.cerr (.pageFailed i))

/-- `some` code is thrown out of the function. -/
def readPage (i : ℕ) : TestM (Option UInt8) := do
  match ← ask (.sendReadCmd (i * 4096) 4096) with
  | .error code => return some code
  | .ok bufferIn =>
    checkPage i bufferIn
    return none

/-- The next `n` pages. -/
def testPages : ℕ → ℕ → TestM (Option UInt8)
  | 0, _ => return none
  | n + 1, i => do
    writePage i
    match ← readPage i with
    | some code => return some code
    | none => testPages n (i + 1)

def threadTest (threadId : ℕ) : TestM (Option UInt8) := do
  ask .sendInfo
  match ← testPages 256 0 with
  | some code => return some code
  | none =>
    ask (.cout (.endThread threadId))
    return none

/-! ### What a run shows -/

inductive Event where
  | wrote (page : ℕ) (result : ℤ)
  | read (page : ℕ) (bufferIn : Mem)
  | reported (page : ℕ)

def Event.page : Event → ℕ
  | .wrote page _ | .read page _ | .reported page => page

section Handlers
variable {σ : Type} (h : Handler TestCall TestAnswer σ)

/-- Both messages with a page number report an error for it. -/
def event : TestCall × σ → Option Event
  | (.sendWriteCmd payload offset size, s) =>
    some (.wrote (offset / 4096) (h (.sendWriteCmd payload offset size) s).1)
  | (.sendReadCmd offset size, s) =>
    match (h (.sendReadCmd offset size) s).1 with
    | .error _ => none
    | .ok bufferIn => some (.read (offset / 4096) bufferIn)
  | (.cout (.errorCode _ page), _) => some (.reported page)
  | (.cerr (.pageFailed page), _) => some (.reported page)
  | _ => none

def trace (threadId : ℕ) (s : σ) : List Event := observe (event h) h (threadTest threadId) s

end Handlers

def Corrupted (page : ℕ) (bufferIn : Mem) : Prop := ∃ j < 4096, bufferIn j ≠ bufferOut page j

def Detects (t : List Event) : Prop :=
  ∀ page bufferIn, .read page bufferIn ∈ t → Corrupted page bufferIn → .reported page ∈ t

/-- Where page `i` has its first null. -/
def firstNull (i : ℕ) : ℕ := (256 - i % 256) % 256

/-- Every corrupted page is one whose write was refused, or has a wrong byte up to the first
null. -/
def CorruptedEarly (t : List Event) : Prop :=
  ∀ page bufferIn, .read page bufferIn ∈ t → Corrupted page bufferIn →
    (∃ result, result ≠ msgOk ∧ .wrote page result ∈ t) ∨
      ∃ j ≤ firstNull page, bufferIn j ≠ bufferOut page j

section Compare

theorem strncmp_succ_ne_zero (n : ℕ) (s t : Mem) : strncmp (n + 1) s t ≠ 0 ↔
    s 0 ≠ t 0 ∨ s 0 ≠ 0 ∧ strncmp n (fun k => s (k + 1)) (fun k => t (k + 1)) ≠ 0 := by
  rw [strncmp]
  by_cases hdiff : s 0 = t 0
  · by_cases hzero : s 0 = 0 <;> simp [← hdiff, hzero]
  · have hnat : (s 0).toNat ≠ (t 0).toNat := fun h => hdiff (UInt8.toNat_inj.1 h)
    rw [if_pos hdiff]
    exact iff_of_true (by omega) (.inl hdiff)

/-- The comparison goes as far as the first null of `t`. -/
theorem strncmp_ne_zero_iff {n z : ℕ} {s t : Mem} (hz : z < n) (hnull : t z = 0)
    (hfirst : ∀ k < z, t k ≠ 0) : strncmp n s t ≠ 0 ↔ ∃ j ≤ z, s j ≠ t j := by
  induction z generalizing n s t with
  | zero =>
    obtain ⟨n, rfl⟩ : ∃ m, n = m + 1 := ⟨n - 1, by omega⟩
    rw [strncmp_succ_ne_zero, hnull]
    constructor
    · intro h
      exact ⟨0, le_rfl, by rw [hnull]; exact h.elim id And.left⟩
    · rintro ⟨j, hj, hne⟩
      obtain rfl : j = 0 := by omega
      exact .inl (hnull ▸ hne)
  | succ z ih =>
    obtain ⟨n, rfl⟩ : ∃ m, n = m + 1 := ⟨n - 1, by omega⟩
    rw [strncmp_succ_ne_zero, ih (by omega) hnull fun k hk => hfirst (k + 1) (by omega)]
    constructor
    · rintro (hne | ⟨-, j, hj, hne⟩)
      · exact ⟨0, by omega, hne⟩
      · exact ⟨j + 1, by omega, hne⟩
    · rintro ⟨j, hj, hne⟩
      by_cases hhead : s 0 = t 0
      · cases j with
        | zero => exact absurd hhead hne
        | succ j =>
          exact .inr ⟨hhead ▸ hfirst 0 (by omega), j, by omega, hne⟩
      · exact .inl hhead

theorem bufferOut_firstNull (i : ℕ) : bufferOut i (firstNull i) = 0 := by
  have hsum : (i + firstNull i) % 256 = 0 := by
    unfold firstNull
    omega
  rw [bufferOut, hsum]
  rfl

theorem bufferOut_before (i : ℕ) {k : ℕ} (hk : k < firstNull i) : bufferOut i k ≠ 0 := by
  have hsum : (i + k) % 256 ≠ 0 := by
    unfold firstNull at hk
    omega
  intro h
  have hnat := congrArg UInt8.toNat h
  rw [bufferOut, UInt8.toNat_ofNat_of_lt' (Nat.mod_lt _ (by decide))] at hnat
  exact hsum hnat

theorem strncmp_bufferOut (i : ℕ) (bufferIn : Mem) : strncmp 4096 bufferIn (bufferOut i) ≠ 0 ↔
    ∃ j ≤ firstNull i, bufferIn j ≠ bufferOut i j := by
  apply strncmp_ne_zero_iff _ (bufferOut_firstNull i) fun k hk => bufferOut_before i hk
  unfold firstNull
  omega

end Compare

/-! ### One round after the other -/

/-- What a round shows: `bufferIn` is what `sendReadCmd` returned, if it did. -/
def roundEvents (i : ℕ) (result : ℤ) (bufferIn : Option Mem) : List Event :=
  .wrote i result :: (if result ≠ msgOk then [.reported i] else []) ++
    match bufferIn with
    | none => []
    | some b => .read i b :: if strncmp 4096 b (bufferOut i) ≠ 0 then [.reported i] else []

/-- What the pages from `i` on can show. -/
inductive Shown : ℕ → List Event → Prop where
  | done (i : ℕ) : Shown i []
  | thrown (i : ℕ) (result : ℤ) : Shown i (roundEvents i result none)
  | next {i : ℕ} {t : List Event} (result : ℤ) (bufferIn : Mem) (rest : Shown (i + 1) t) :
      Shown i (roundEvents i result (some bufferIn) ++ t)

section Rounds
variable {σ : Type} (h : Handler TestCall TestAnswer σ) {s : σ}

theorem observe_writePage (i : ℕ) (s : σ) : ∃ result, observe (event h) h (writePage i) s =
    .wrote i result :: if result ≠ msgOk then [.reported i] else [] := by
  have hevent : event h (.sendWriteCmd (load (bufferOut i) 0 4096) (i * 4096) 4096, s) =
      some (.wrote i (h (.sendWriteCmd (load (bufferOut i) 0 4096) (i * 4096) 4096) s).1) := by
    rw [event, Nat.mul_div_cancel i (by decide)]
  refine ⟨_, (observe_call_some h (event h) hevent _).trans (congrArg (List.cons _) ?_)⟩
  show observe (event h) h (if _ ≠ msgOk then _ else _) _ = _
  split_ifs <;> rfl

theorem observe_checkPage (i : ℕ) (b : Mem) (s : σ) : observe (event h) h (checkPage i b) s =
    if strncmp 4096 b (bufferOut i) ≠ 0 then [.reported i] else [] := by
  unfold checkPage
  split_ifs <;> rfl

/-- The page is read, or the call throws and nothing is shown. -/
theorem readPage_cases (i : ℕ) (s : σ) :
    (∃ code, (run h (readPage i) s).1 = some code ∧ observe (event h) h (readPage i) s = []) ∨
      ∃ b, (run h (readPage i) s).1 = none ∧ observe (event h) h (readPage i) s =
        .read i b :: if strncmp 4096 b (bufferOut i) ≠ 0 then [.reported i] else [] := by
  unfold readPage
  rw [perform_bind, run_call]
  cases hanswer : (h (.sendReadCmd (i * 4096) 4096) s).1 with
  | error code =>
    have hevent : event h (.sendReadCmd (i * 4096) 4096, s) = none := by
      rw [event, hanswer]
    rw [observe_call_none h _ hevent, hanswer]
    exact .inl ⟨code, rfl, rfl⟩
  | ok b =>
    have hevent : event h (.sendReadCmd (i * 4096) 4096, s) = some (.read i b) := by
      rw [event, hanswer, Nat.mul_div_cancel i (by decide)]
    rw [observe_call_some h _ hevent, hanswer]
    refine .inr ⟨b, ?_, congrArg (List.cons _) ?_⟩
    · show (run h (checkPage i b >>= fun _ => .ret none) _).1 = none
      rw [run_bind]
      rfl
    · show observe _ h (checkPage i b >>= fun _ => .ret none) _ = _
      rw [observe_bind, observe_checkPage, observe_ret, List.append_nil]

theorem shown_testPages (n i : ℕ) (s : σ) :
    Shown i (observe (event h) h (testPages n i) s) := by
  induction n generalizing i s with
  | zero => exact .done i
  | succ n ih =>
    obtain ⟨result, hwrite⟩ := observe_writePage h i s
    rw [testPages, observe_bind, observe_bind, hwrite]
    rcases readPage_cases h i (run h (writePage i) s).2 with ⟨code, hrun, hread⟩ | ⟨b, hrun, hread⟩
    · rw [hrun, hread]
      exact .thrown i result
    · rw [hrun, hread, ← List.append_assoc]
      exact .next result b (ih (i + 1) _)

end Rounds

section Detection
variable {i k : ℕ} {t : List Event} {bufferIn : Mem} {e : Event}

theorem mem_roundEvents_none {result : ℤ} : e ∈ roundEvents i result none ↔
    e = .wrote i result ∨ (result ≠ msgOk ∧ e = .reported i) := by
  simp [roundEvents]

theorem mem_roundEvents_some {result : ℤ} {b : Mem} : e ∈ roundEvents i result (some b) ↔
    e = .wrote i result ∨ (result ≠ msgOk ∧ e = .reported i) ∨ e = .read i b ∨
      (strncmp 4096 b (bufferOut i) ≠ 0 ∧ e = .reported i) := by
  simp [roundEvents]

theorem page_roundEvents {result : ℤ} {b : Option Mem} (he : e ∈ roundEvents i result b) :
    e.page = i := by
  cases b with
  | none => rcases mem_roundEvents_none.1 he with rfl | ⟨-, rfl⟩ <;> rfl
  | some b => rcases mem_roundEvents_some.1 he with rfl | ⟨-, rfl⟩ | rfl | ⟨-, rfl⟩ <;> rfl

theorem Shown.le_page (ht : Shown i t) (he : e ∈ t) : i ≤ e.page := by
  induction ht with
  | done => cases he
  | thrown i result => exact (page_roundEvents he).ge
  | next result b rest ih =>
    rcases List.mem_append.1 he with he | he
    · exact (page_roundEvents he).ge
    · exact Nat.le_of_succ_le (ih he)

/-- The rounds after a round show nothing of its page. -/
theorem mem_round_iff (ht : Shown (i + 1) t) (hpage : e.page = i) {l : List Event} :
    e ∈ l ++ t ↔ e ∈ l := by
  rw [List.mem_append, or_iff_left]
  intro he
  have hle := ht.le_page he
  omega

theorem mem_later_iff {result : ℤ} {b : Option Mem} (hpage : i < e.page) :
    e ∈ roundEvents i result b ++ t ↔ e ∈ t := by
  rw [List.mem_append, or_iff_right]
  intro he
  rw [page_roundEvents he] at hpage
  omega

/-- A page that is read is reported when its write was refused or the comparison fails. -/
theorem Shown.reported_iff (ht : Shown i t) (hread : .read k bufferIn ∈ t) :
    .reported k ∈ t ↔ (∃ result, result ≠ msgOk ∧ .wrote k result ∈ t) ∨
      ∃ j ≤ firstNull k, bufferIn j ≠ bufferOut k j := by
  rw [← strncmp_bufferOut]
  induction ht with
  | done => cases hread
  | thrown i result => simp [mem_roundEvents_none] at hread
  | @next i t result b rest ih =>
    rcases List.mem_append.1 hread with hround | hlater
    · obtain ⟨rfl, rfl⟩ : k = i ∧ bufferIn = b := by simpa [mem_roundEvents_some] using hround
      simp only [mem_round_iff (e := .reported k) rest rfl,
        mem_round_iff (e := .wrote k _) rest rfl, mem_roundEvents_some]
      simp
    · have hpage : i < k := rest.le_page hlater
      simp only [mem_later_iff (e := .reported k) hpage, mem_later_iff (e := .wrote k _) hpage]
      exact ih hlater

/-- A page that comes back as it was written is not reported. -/
theorem Shown.right_page_quiet (ht : Shown i t) (hread : .read k bufferIn ∈ t)
    (hright : ¬Corrupted k bufferIn) (hok : ∀ result, .wrote k result ∈ t → result = msgOk) :
    .reported k ∉ t := by
  rw [ht.reported_iff hread]
  rintro (⟨result, hresult, hwrote⟩ | ⟨j, hj, hne⟩)
  · exact hresult (hok result hwrote)
  · have hlt : j < 4096 := by
      unfold firstNull at hj
      omega
    exact hright ⟨j, hlt, hne⟩

end Detection

section Runs
variable {σ : Type} (h : Handler TestCall TestAnswer σ)

/-- The calls around the pages show nothing. -/
theorem shown_trace (threadId : ℕ) (s : σ) : Shown 0 (trace h threadId s) := by
  have hpages := shown_testPages h 256 0 (h .sendInfo s).2
  have htrace : trace h threadId s = observe (event h) h (testPages 256 0) (h .sendInfo s).2 := by
    unfold trace threadTest
    rw [perform_bind, observe_call_none h _ rfl, observe_bind]
    cases (run h (testPages 256 0) (h .sendInfo s).2).1 <;> exact List.append_nil _
  rwa [htrace]

/-- Whatever the other end answers, a run reports every corrupted page exactly when none of them,
with its write accepted, is wrong behind its first null alone. -/
theorem detects_iff (threadId : ℕ) (s : σ) :
    Detects (trace h threadId s) ↔ CorruptedEarly (trace h threadId s) := by
  have hshown := shown_trace h threadId s
  constructor
  · intro hdetects page bufferIn hread hcorrupted
    exact (hshown.reported_iff hread).1 (hdetects page bufferIn hread hcorrupted)
  · intro hearly page bufferIn hread hcorrupted
    exact (hshown.reported_iff hread).2 (hearly page bufferIn hread hcorrupted)

end Runs

theorem wrote_answer {σ : Type} {h : Handler TestCall TestAnswer σ} {threadId page : ℕ} {s : σ}
    {result : ℤ} (hwrote : .wrote page result ∈ trace h threadId s) :
    ∃ payload offset size s', result = (h (.sendWriteCmd payload offset size) s').1 := by
  obtain ⟨⟨c, s'⟩, -, hc⟩ := List.mem_filterMap.1 hwrote
  cases c with
  | sendInfo => cases hc
  | sendWriteCmd payload offset size =>
    obtain ⟨-, rfl⟩ : _ ∧ _ = result := by simpa [event] using hc
    exact ⟨payload, offset, size, s', rfl⟩
  | sendReadCmd offset size =>
    rw [event] at hc
    split at hc <;> cases hc
  | cout m => cases m <;> cases hc
  | cerr m => cases m <;> cases hc

/-- Every write is answered with `SAWA_MSG_OK` and every page is read as nulls. -/
def nullPages : Handler TestCall TestAnswer Unit
  | .sendInfo, s | .cout _, s | .cerr _, s => ((), s)
  | .sendWriteCmd _ _ _, s => (msgOk, s)
  | .sendReadCmd _ _, s => (.ok fun _ => 0, s)

/-- The page of nulls is wrong at 4080 places of page 0, and nothing is said of that page. -/
theorem nullPages_unreported :
    .read 0 (fun _ => 0) ∈ trace nullPages 0 () ∧ .reported 0 ∉ trace nullPages 0 () ∧
      ¬Detects (trace nullPages 0 ()) := by
  have hshown := shown_trace nullPages 0 ()
  have hread : .read 0 (fun _ => 0) ∈ trace nullPages 0 () := by
    unfold trace threadTest
    rw [perform_bind, observe_call_none nullPages _ rfl, observe_bind, testPages, observe_bind,
      observe_bind]
    apply List.mem_append_left
    apply List.mem_append_right
    apply List.mem_append_left
    exact List.mem_cons_self
  have hquiet : .reported 0 ∉ trace nullPages 0 () := by
    rw [hshown.reported_iff hread]
    rintro (⟨result, hresult, hwrote⟩ | ⟨j, hj, hne⟩)
    · obtain ⟨payload, offset, size, s, rfl⟩ := wrote_answer hwrote
      exact hresult rfl
    · obtain rfl : j = 0 := Nat.le_zero.1 hj
      exact hne rfl
  refine ⟨hread, hquiet, fun h => hquiet (h 0 _ hread ⟨1, by decide, by decide⟩)⟩

end SawaClientTest
