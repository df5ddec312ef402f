import SaWa.GuardedRuns
import Mathlib.Data.List.Perm.Basic
import Mathlib.Algebra.Ring.Nat
import Mathlib.Data.Int.Notation

/-! The request engine of `main.c`: `blockdev_request` under the queue lock, and `work_handler`,
which tests `current_req` after it has let the lock go. -/
namespace BlockRequestEngine

open GuardedRuns

structure Segment where
  pos : ℕ
  curSectors : ℕ
  buffer : ℕ
  deriving DecidableEq, Repr

inductive CmdType where
  | fs
  | other
  deriving DecidableEq, Repr

/-- A request is always at one of its segments; `nb` tells requests apart. -/
structure Request where
  nb : ℕ
  cmdType : CmdType
  dataDir : Bool
  segments : List Segment
  cur : ℕ
  cur_lt : cur < segments.length
  deriving DecidableEq

def Request.segment (r : Request) : Segment := r.segments.get ⟨r.cur, r.cur_lt⟩

inductive Event where
  | transferred (nb i : ℕ) (seg : Segment) (write : Bool)
  | ended (nb i : ℕ) (ret : ℤ)
  | endedAll (nb : ℕ) (err : ℤ)
  deriving DecidableEq, Repr

inductive Handler where
  | idle
  /-- Before the transfer of an iteration. -/
  | looping
  | ending (ret : ℤ)
  /-- After the locked section, before the test of `current_req`. -/
  | testing
  /-- A null `current_req` was used. -/
  | nullUsed
  deriving DecidableEq, Repr

/-- `log` has the newest event first, `arrived` every request ever queued. -/
structure Engine where
  theQueue : Bool
  queue : List Request
  currentReq : Option Request
  pending : Bool
  handler : Handler
  log : List Event
  arrived : List Request

def EIO : ℤ := 5

/-! ### The kernel's side -/

/-- `__blk_end_request_cur`: `none` when that was the last segment. -/
def endRequestCur (r : Request) : Option Request :=
  if h : r.cur + 1 < r.segments.length then some { r with cur := r.cur + 1, cur_lt := h } else none

/-- `schedule_delayed_work` on a work item that is pending already changes nothing. -/
def scheduleDelayedWork (s : Engine) : Engine := { s with pending := true }

/-! ### The driver's side -/

/-- The loop of `set_next_request`, over the queue `blk_fetch_request` takes from. -/
def fetchLoop : List Request → Engine → Engine
  | [], s => { s with queue := [], currentReq := none }
  | r :: q, s =>
    if r.cmdType = .fs then { s with queue := q, currentReq := some r }
    else fetchLoop q { s with log := .endedAll r.nb (- EIO) :: s.log }

def setNextRequest (s : Engine) : Engine :=
  if s.theQueue then fetchLoop s.queue s else { s with currentReq := none }

def blockdevRequest (s : Engine) : Engine :=
  let s := { s with theQueue := true }
  if s.currentReq.isSome then s
  else
    let s := setNextRequest s
    if s.currentReq = none then s else scheduleDelayedWork s

/-- `blockdev_transfer` on the current segment; `ret` is what it returns. -/
def transfer (ret : ℤ) (s : Engine) : Engine :=
  match s.currentReq with
  | none => { s with handler := .nullUsed }
  | some r =>
    { s with
      handler := .ending ret
      log := .transferred r.nb r.cur r.segment r.dataDir :: s.log }

/-- The locked section of `work_handler`. -/
def endSegment (ret : ℤ) (s : Engine) : Engine :=
  match s.currentReq with
  | none => { s with handler := .nullUsed }
  | some r =>
    let s := { s with handler := .testing, log := .ended r.nb r.cur ret :: s.log }
    match endRequestCur r with
    | some r' => { s with currentReq := some r' }
    | none => setNextRequest s

def test (s : Engine) : Engine :=
  { s with handler := if s.currentReq = none then .idle else .looping }

/-! ### Runs -/

/-- `arrive`: the block layer queues `rs`, the elevator makes the queue `q`, and
`blockdev_request` is called before the lock is let go. -/
inductive Action where
  | arrive (rs q : List Request)
  | start
  | transfer (ret : ℤ)
  | endSegment
  | test

def Fresh (s : Engine) (rs : List Request) : Prop :=
  ((rs ++ s.arrived).map Request.nb).Nodup ∧ ∀ r ∈ rs, r.cur = 0

instance (s : Engine) (rs : List Request) : Decidable (Fresh s rs) :=
  inferInstanceAs (Decidable (_ ∧ _))

def Enabled (s : Engine) : Action → Prop
  | .arrive rs q => Fresh s rs ∧ q.Perm (s.queue ++ rs)
  | .start => s.pending = true ∧ s.handler = .idle
  | .transfer _ => s.handler = .looping
  | .endSegment => ∃ ret, s.handler = .ending ret
  | .test => s.handler = .testing

def next (s : Engine) : Action → Engine
  | .arrive rs q => blockdevRequest { s with queue := q, arrived := rs ++ s.arrived }
  | .start => { s with pending := false, handler := .looping }
  | .transfer ret => transfer ret s
  | .endSegment =>
    match s.handler with
    | .ending ret => endSegment ret s
    | _ => s
  | .test => test s

def initial : Engine := ⟨false, [], none, false, .idle, [], []⟩

def engine : System Engine Action := ⟨(· = initial), Enabled, next⟩

/-! ### What the fetch does -/

section Fetch
variable {s : Engine}

/-- Requests that are not filesystem requests are ended on the way, the oldest first. -/
def skip (l : List Request) : List Event := (l.map fun r => .endedAll r.nb (- EIO)).reverse

theorem fetchLoop_cases (q : List Request) :
    ∀ s : Engine, ∃ l, (∀ r ∈ l, r.cmdType ≠ .fs) ∧
      (q = l ∧ fetchLoop q s = { s with queue := [], currentReq := none, log := skip l ++ s.log } ∨
        ∃ r q', q = l ++ r :: q' ∧ r.cmdType = .fs ∧ fetchLoop q s =
          { s with queue := q', currentReq := some r, log := skip l ++ s.log }) := by
  induction q with
  | nil =>
    intro s
    refine ⟨[], fun r hr => absurd hr List.not_mem_nil, Or.inl ⟨rfl, rfl⟩⟩
  | cons r q ih =>
    intro s
    by_cases hr : r.cmdType = .fs
    · refine ⟨[], fun r hr => absurd hr List.not_mem_nil, Or.inr ⟨r, q, rfl, hr, ?_⟩⟩
      simp [fetchLoop, hr, skip]
    · obtain ⟨l, hl, h⟩ := ih { s with log := .endedAll r.nb (- EIO) :: s.log }
      have hstep : fetchLoop (r :: q) s =
          fetchLoop q { s with log := .endedAll r.nb (- EIO) :: s.log } := by
        rw [fetchLoop, if_neg hr]
      have hskip : skip (r :: l) ++ s.log = skip l ++ .endedAll r.nb (- EIO) :: s.log := by
        simp [skip]
      refine ⟨r :: l, List.forall_mem_cons.mpr ⟨hr, hl⟩, ?_⟩
      rw [hstep, hskip]
      rcases h with ⟨rfl, h⟩ | ⟨r', q', rfl, hfs, h⟩
      · exact Or.inl ⟨rfl, h⟩
      · exact Or.inr ⟨r', q', rfl, hfs, h⟩

/-- What one fetch has done: `l` skipped, and then the queue is empty or its first filesystem
request is the current one. -/
inductive Fetched (s : Engine) : Engine → Prop where
  | empty (l) (hl : ∀ r ∈ l, r.cmdType ≠ .fs) (hq : s.queue = l) :
      Fetched s { s with queue := [], currentReq := none, log := skip l ++ s.log }
  | found (l r q) (hl : ∀ r ∈ l, r.cmdType ≠ .fs) (hq : s.queue = l ++ r :: q)
      (hr : r.cmdType = .fs) :
      Fetched s { s with queue := q, currentReq := some r, log := skip l ++ s.log }

theorem Fetched.unchanged {t : Engine} (h : Fetched s t) :
    t.theQueue = s.theQueue ∧ t.pending = s.pending ∧ t.handler = s.handler ∧
      t.arrived = s.arrived := by
  cases h <;> exact ⟨rfl, rfl, rfl, rfl⟩

theorem Fetched.queued {t : Engine} (h : Fetched s t) (hq : t.queue ≠ []) :
    t.currentReq ≠ none := by
  cases h with
  | empty l hl heq => exact absurd rfl hq
  | found l r q hl heq hr => exact Option.some_ne_none r

theorem setNextRequest_fetched (h : s.theQueue = true) : Fetched s (setNextRequest s) := by
  obtain ⟨l, hl, ⟨hq, hs⟩ | ⟨r, q, hq, hr, hs⟩⟩ := fetchLoop_cases s.queue s
  · rw [setNextRequest, if_pos h, hs]
    exact .empty l hl hq
  · rw [setNextRequest, if_pos h, hs]
    exact .found l r q hl hq hr

/-- All that `blockdev_request` can do: nothing while there is a current request, else one
fetch, after which the work is scheduled if there was a request to fetch. -/
inductive Called (s : Engine) : Engine → Prop where
  | busy (h : s.currentReq ≠ none) : Called s { s with theQueue := true }
  | nothing (h : s.currentReq = none) {t} (hf : Fetched { s with theQueue := true } t)
      (ht : t.currentReq = none) : Called s t
  | scheduled (h : s.currentReq = none) {t} (hf : Fetched { s with theQueue := true } t)
      (ht : t.currentReq ≠ none) : Called s { t with pending := true }

theorem blockdevRequest_called (s : Engine) : Called s (blockdevRequest s) := by
  have hf : Fetched { s with theQueue := true } (setNextRequest { s with theQueue := true }) :=
    setNextRequest_fetched rfl
  cases hc : s.currentReq with
  | some r =>
    have hb : blockdevRequest s = { s with theQueue := true } := by simp [blockdevRequest, hc]
    rw [hb]
    exact .busy (by simp [hc])
  | none =>
    have hn : ¬ s.currentReq.isSome = true := by simp [hc]
    by_cases ht : (setNextRequest { s with theQueue := true }).currentReq = none
    · have hb : blockdevRequest s = setNextRequest { s with theQueue := true } := by
        simp only [blockdevRequest, if_neg hn, if_pos ht]
      rw [hb]
      exact .nothing hc hf ht
    · have hb : blockdevRequest s =
          { setNextRequest { s with theQueue := true } with pending := true } := by
        simp only [blockdevRequest, scheduleDelayedWork, if_neg hn, if_neg ht]
      rw [hb]
      exact .scheduled hc hf ht

/-- The locked section with a current request: its next segment, or another fetch. -/
inductive Ended (ret : ℤ) (r : Request) (s : Engine) : Engine → Prop where
  | more (h : r.cur + 1 < r.segments.length) :
      Ended ret r s
        { s with
          handler := .testing
          log := .ended r.nb r.cur ret :: s.log
          currentReq := some { r with cur := r.cur + 1, cur_lt := h } }
  | last (h : ¬ r.cur + 1 < r.segments.length) {t}
      (hf : Fetched { s with handler := .testing, log := .ended r.nb r.cur ret :: s.log } t) :
      Ended ret r s t

theorem endSegment_ended {ret : ℤ} {r : Request} (hs : s.theQueue = true)
    (hc : s.currentReq = some r) : Ended ret r s (endSegment ret s) := by
  by_cases h : r.cur + 1 < r.segments.length
  · have he : endSegment ret s =
        { s with
          handler := .testing
          log := .ended r.nb r.cur ret :: s.log
          currentReq := some { r with cur := r.cur + 1, cur_lt := h } } := by
      simp [endSegment, hc, endRequestCur, h]
    rw [he]
    exact .more h
  · have he : endSegment ret s =
        setNextRequest { s with handler := .testing, log := .ended r.nb r.cur ret :: s.log } := by
      simp [endSegment, hc, endRequestCur, h]
    rw [he]
    exact .last h (setNextRequest_fetched hs)

end Fetch

end BlockRequestEngine
