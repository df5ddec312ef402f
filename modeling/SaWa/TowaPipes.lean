import SaWa.GuardedRuns
import SaWa.HttpServer
import Mathlib.Logic.Function.Basic
import Mathlib.Data.List.Nodup
import Mathlib.Data.List.Perm.Subperm

/-! The two pipes of `server/towa_ipc.cpp`: HTTP threads in `TowaPipe::sendMsg` and the towa
process in `listenToMsg`. Each message has the pipe opened and closed for it, and a pipe that
nobody has open holds nothing. Neither requests nor replies say which call they belong to; the
numbers of the calls are kept with them here only to say what happened. -/
namespace TowaPipes

open GuardedRuns HttpServer

variable {ι : Type*}

structure Request where
  verb : Text
  className : Text
  queryString : Text
  deriving DecidableEq, Repr

/-- The string that `sendMsg` puts into the message. -/
def Request.text (r : Request) : Text := r.verb ++ '|' :: r.className ++ '|' :: r.queryString

/-- `answered` is the call that the reply was computed for. Where the pipe is at its end there is
no reply: the size read is 0, and the array made for it, of size -1, ends the process. -/
structure Returned (ι : Type*) where
  thread : ι
  call : ℕ
  answered : Option ℕ
  reply : Option Message
  deriving DecidableEq

/-- Where a thread is in `sendMsg`: behind the `fopen` of the ping pipe, behind its `fclose`, in
the `fopen` of the pong pipe, or behind that. -/
inductive Phase where
  | idle
  | opened
  | sent (call : ℕ)
  | opening (call : ℕ)
  | reading (call : ℕ)
  deriving DecidableEq, Repr

def Phase.call : Phase → Option ℕ
  | .idle | .opened => none
  | .sent c | .opening c | .reading c => some c

/-- The other end of the pong pipe is opened, and `fopen` returns. -/
def Phase.wake : Phase → Phase
  | .opening c => .reading c
  | p => p

/-- Where the towa process is in `listenToMsg`, with the request it has and then the reply. -/
inductive Towa where
  | idle
  | listening
  | taken (request : ℕ × Text)
  | answering (request : ℕ × Text)
  | opening (call : ℕ) (reply : Message)
  | writing (call : ℕ) (reply : Message)
  | written
  deriving DecidableEq, Repr

/-- It has the ping pipe open, or waits for that. -/
def Towa.hasPing : Towa → Bool
  | .listening | .taken _ => true
  | _ => false

def Towa.hasPong : Towa → Bool
  | .opening _ _ | .writing _ _ | .written => true
  | _ => false

def Towa.wake : Towa → Towa
  | .opening c reply => .writing c reply
  | towa => towa

def Towa.call : Towa → Option ℕ
  | .taken m | .answering m => some m.1
  | .opening c _ | .writing c _ => some c
  | _ => none

/-- Messages with the number of the call they are for, the front of each pipe first. So many
threads have the ping pipe open, as `writers`, or the pong pipe, as `readers`, or wait for that. -/
structure State (ι : Type*) where
  phase : ι → Phase
  sent : ℕ
  writers : ℕ
  ping : List (ℕ × Text)
  towa : Towa
  pong : List (ℕ × Message)
  readers : ℕ
  returned : List (Returned ι)

/-- Of a thread: the `fopen` of each pipe, and what `sendMsg` does behind it up to the `fclose`.
Of the towa process: each call on a pipe. An `fclose` loses the `ahead` messages behind the first
one that were read into the buffer of the `FILE`, and where it closes the last end of the pipe
(`send`, `leave`, `receive`, `finish`) all that lies in it. -/
inductive Action (ι : Type*) where
  | connect (t : ι)
  | send (t : ι) (request : Request)
  | await (t : ι)
  | receive (t : ι) (ahead : ℕ)
  | listen
  | take (ahead : ℕ)
  | leave
  | answer (reply : Message)
  | write
  | finish

/-- An `fopen` waits for the other end, and a read for a message while the other end is open. All
threads share `fp_ping` and `fp_pong`, and two of them with the same `FILE` would race for it:
what a thread does behind an `fopen` is one step here. -/
def Enabled (s : State ι) : Action ι → Prop
  | .connect t => s.phase t = .idle ∧ s.towa.hasPing = true
  | .send t _ => s.phase t = .opened
  | .await t => ∃ c, s.phase t = .sent c
  | .receive t _ => (∃ c, s.phase t = .reading c) ∧ (s.pong ≠ [] ∨ s.towa.hasPong = false)
  | .listen => s.towa = .idle
  | .take _ => s.towa = .listening ∧ s.ping ≠ []
  | .leave => ∃ m, s.towa = .taken m
  | .answer _ => ∃ m, s.towa = .answering m
  | .write => ∃ c reply, s.towa = .writing c reply
  | .finish => s.towa = .written

/-- What is left in the pong pipe when one end is closed and `ends` others are still open. -/
def keptIn {α : Type*} (ends : ℕ) (queue : List α) : List α := if ends = 0 then [] else queue

theorem keptIn_eq {α : Type*} {ends : ℕ} {queue : List α} (h : queue = [] ∨ ends ≠ 0) :
    keptIn ends queue = queue := by
  rcases h with rfl | hends
  · exact ite_self []
  · exact if_neg hends

/-- What is behind the reply at the front of the pong pipe after the `fclose`. -/
def afterRead (s : State ι) (ahead : ℕ) : List (ℕ × Message) :=
  keptIn (s.readers - 1 + s.towa.hasPong.toNat) (s.pong.tail.drop ahead)

/-- What is written to a pipe that nobody has open for reading is lost with the signal that this
raises. -/
def next [DecidableEq ι] (s : State ι) : Action ι → State ι
  | .connect t =>
    { s with phase := Function.update s.phase t .opened, writers := s.writers + 1 }
  | .send t request =>
    { s with
      phase := Function.update s.phase t (.sent s.sent)
      sent := s.sent + 1
      writers := s.writers - 1
      ping := if s.towa.hasPing then s.ping ++ [(s.sent, request.text)] else [] }
  | .await t =>
    match s.phase t with
    | .sent c =>
      { s with
        phase := Function.update s.phase t (if s.towa.hasPong then .reading c else .opening c)
        towa := s.towa.wake
        readers := s.readers + 1 }
    | _ => s
  | .receive t ahead =>
    match s.phase t with
    | .reading c =>
      { s with
        phase := Function.update s.phase t .idle
        pong := afterRead s ahead
        readers := s.readers - 1
        returned := ⟨t, c, s.pong.head?.map Prod.fst, s.pong.head?.map Prod.snd⟩ :: s.returned }
    | _ => s
  | .listen => { s with towa := .listening }
  | .take ahead =>
    match s.ping with
    | [] => s
    | m :: rest => { s with towa := .taken m, ping := rest.drop ahead }
  | .leave =>
    match s.towa with
    | .taken m => { s with towa := .answering m, ping := keptIn s.writers s.ping }
    | _ => s
  | .answer reply =>
    match s.towa with
    | .answering m =>
      { s with
        phase := fun t => (s.phase t).wake
        towa := if s.readers = 0 then .opening m.1 reply else .writing m.1 reply }
    | _ => s
  | .write =>
    match s.towa with
    | .writing c reply =>
      { s with towa := .written, pong := s.pong ++ if s.readers = 0 then [] else [(c, reply)] }
    | _ => s
  | .finish => { s with towa := .idle, pong := keptIn s.readers s.pong }

def initial : State ι := ⟨fun _ => .idle, 0, 0, [], .idle, [], 0, []⟩

def towa [DecidableEq ι] : System (State ι) (Action ι) := ⟨(· = initial), Enabled, next⟩

/-! ### What is wanted, and when it is so -/

def pingTags (s : State ι) : List ℕ := s.ping.map Prod.fst
def towaTags (s : State ι) : List ℕ := s.towa.call.toList
def pongTags (s : State ι) : List ℕ := s.pong.map Prod.fst
def answered (s : State ι) : List (Option ℕ) := s.returned.map Returned.answered

/-- The calls whose message is in a pipe or with the towa process, the first one first. -/
def underWay (s : State ι) : List ℕ := pongTags s ++ towaTags s ++ pingTags s

/-- The call that a thread is in, once its request is sent. -/
def waiting (s : State ι) (t : ι) : Option ℕ := (s.phase t).call

/-- Each call returned the reply to its own request; every request sent is in a pipe, with the
towa process or answered to a call; none is answered twice. -/
structure Exact (s : State ι) : Prop where
  own : ∀ r ∈ s.returned, r.answered = some r.call
  kept : ∀ c < s.sent, c ∈ underWay s ∨ some c ∈ answered s
  once : ((pongTags s).map some ++ answered s).Nodup

/-- A reply is read by the call that has waited longest. What is read from a pipe is all there is
in it, or the buffer takes nothing along; nothing is left in a pipe when its last end is closed; and
there is someone to read what is written. -/
def Orderly (s : State ι) : Action ι → Prop
  | .receive t ahead =>
    (∀ c t' c', waiting s t = some c → waiting s t' = some c' → c ≤ c') ∧ s.pong ≠ [] ∧
      (s.pong.length = 1 ∨ ahead = 0 ∧ (1 < s.readers ∨ s.towa.hasPong = true))
  | .send _ _ => s.towa.hasPing = true
  | .take ahead => ahead = 0 ∨ s.ping.length = 1
  | .leave => s.ping = [] ∨ s.writers ≠ 0
  | .write => s.readers ≠ 0
  | .finish => s.pong = [] ∨ s.readers ≠ 0
  | _ => True

/-- The calls in progress are numbered one after the other, and their messages lie in the pipes
in that order. -/
structure Invariant (s : State ι) : Prop where
  queue : underWay s = List.range' s.returned.length (s.sent - s.returned.length)
  le_sent : s.returned.length ≤ s.sent
  waiting_bounds : ∀ t c, waiting s t = some c → s.returned.length ≤ c ∧ c < s.sent
  waiting_all : ∀ c, s.returned.length ≤ c → c < s.sent → ∃ t, waiting s t = some c
  waiting_inj : ∀ t t' c, waiting s t = some c → waiting s t' = some c → t = t'
  answered_eq : answered s = ((List.range s.returned.length).map some).reverse
  own : ∀ r ∈ s.returned, r.answered = some r.call

theorem invariant_initial : Invariant (initial : State ι) := by
  constructor <;>
    simp [initial, underWay, pongTags, towaTags, pingTags, answered, Towa.call, waiting, Phase.call]

theorem mem_underWay {s : State ι} (hi : Invariant s) {n : ℕ} :
    n ∈ underWay s ↔ s.returned.length ≤ n ∧ n < s.sent := by
  have hle := hi.le_sent
  rw [hi.queue, List.mem_range'_1]
  omega

theorem mem_answered {s : State ι} (hi : Invariant s) {n : ℕ} :
    some n ∈ answered s ↔ n < s.returned.length := by
  rw [hi.answered_eq, List.mem_reverse, List.mem_map]
  simp

theorem exact_of_invariant {s : State ι} (h : Invariant s) : Exact s := by
  constructor
  · exact h.own
  · intro c hc
    rw [mem_underWay h, mem_answered h]
    omega
  · have hnd : (underWay s).Nodup := h.queue ▸ List.nodup_range'
    rw [underWay, List.append_assoc] at hnd
    apply List.nodup_append.mpr
    refine ⟨(List.nodup_append.mp hnd).1.map fun _ _ => Option.some.inj, ?_, ?_⟩
    · rw [h.answered_eq]
      exact List.nodup_reverse.mpr (List.nodup_range.map fun _ _ => Option.some.inj)
    · rintro a ha b hb rfl
      obtain ⟨n, hn, rfl⟩ := List.mem_map.mp ha
      have hmem : n ∈ underWay s := by
        rw [underWay, List.append_assoc]
        exact List.mem_append_left _ hn
      have hge := ((mem_underWay h).mp hmem).1
      have hlt := (mem_answered h).mp hb
      omega

/-- The reply in front is the one to the call that has waited longest. -/
theorem front_reply {s : State ι} (hi : Invariant s) {m : ℕ × Message} {rest : List (ℕ × Message)}
    (hm : s.pong = m :: rest) :
    m.1 = s.returned.length ∧ s.returned.length < s.sent ∧
      rest.map Prod.fst ++ towaTags s ++ pingTags s =
        List.range' (s.returned.length + 1) (s.sent - (s.returned.length + 1)) := by
  have hq := hi.queue
  simp only [underWay, pongTags, hm, List.map_cons, List.cons_append] at hq
  have hlt : s.returned.length < s.sent := by
    by_contra hge
    rw [Nat.sub_eq_zero_of_le (by omega)] at hq
    cases hq
  have hsub : s.sent - s.returned.length = (s.sent - (s.returned.length + 1)) + 1 := by omega
  rw [hsub, List.range'_succ] at hq
  obtain ⟨hhead, htail⟩ := List.cons.inj hq
  exact ⟨hhead, hlt, htail⟩

/-- The calls that wait are the numbers from `lo` up to `hi`, each for one thread. -/
structure Numbered (waiting : ι → Option ℕ) (lo hi : ℕ) : Prop where
  bounds : ∀ t c, waiting t = some c → lo ≤ c ∧ c < hi
  all : ∀ c, lo ≤ c → c < hi → ∃ t, waiting t = some c
  inj : ∀ t t' c, waiting t = some c → waiting t' = some c → t = t'

theorem Invariant.numbered {s : State ι} (hi : Invariant s) :
    Numbered (waiting s) s.returned.length s.sent :=
  ⟨hi.waiting_bounds, hi.waiting_all, hi.waiting_inj⟩

section Numbered
variable [DecidableEq ι] {waiting : ι → Option ℕ} {lo hi : ℕ} {t : ι}

theorem update_some_iff {x c : ℕ} {t' : ι} : Function.update waiting t (some x) t' = some c ↔
    (t' = t ∧ x = c) ∨ (t' ≠ t ∧ waiting t' = some c) := by
  by_cases ht : t' = t
  · subst t'
    simp
  · simp [ht]

theorem update_none_iff {c : ℕ} {t' : ι} : Function.update waiting t none t' = some c ↔
    t' ≠ t ∧ waiting t' = some c := by
  by_cases ht : t' = t
  · subst t'
    simp
  · simp [ht]

/-- A thread that did not wait takes the next number. -/
theorem Numbered.push (h : Numbered waiting lo hi) (hle : lo ≤ hi) (ht : waiting t = none) :
    Numbered (Function.update waiting t (some hi)) lo (hi + 1) := by
  constructor
  · intro t' c hc
    rcases update_some_iff.mp hc with ⟨-, rfl⟩ | ⟨-, hc⟩
    · omega
    · have hb := h.bounds t' c hc
      omega
  · intro c hc hlt
    by_cases hcs : c = hi
    · exact ⟨t, update_some_iff.mpr (Or.inl ⟨rfl, hcs.symm⟩)⟩
    · obtain ⟨t', ht'⟩ := h.all c hc (by omega)
      have hne : t' ≠ t := by
        rintro rfl
        rw [ht] at ht'
        cases ht'
      exact ⟨t', update_some_iff.mpr (Or.inr ⟨hne, ht'⟩)⟩
  · intro t₁ t₂ c h₁ h₂
    rcases update_some_iff.mp h₁ with ⟨ht₁, hc₁⟩ | ⟨-, hw₁⟩ <;>
      rcases update_some_iff.mp h₂ with ⟨ht₂, hc₂⟩ | ⟨-, hw₂⟩
    · rw [ht₁, ht₂]
    · have hb := h.bounds t₂ c hw₂
      omega
    · have hb := h.bounds t₁ c hw₁
      omega
    · exact h.inj t₁ t₂ c hw₁ hw₂

/-- The thread with the first number stops waiting. -/
theorem Numbered.pop (h : Numbered waiting lo hi) (ht : waiting t = some lo) :
    Numbered (Function.update waiting t none) (lo + 1) hi := by
  constructor
  · intro t' c hc
    obtain ⟨hne, hc⟩ := update_none_iff.mp hc
    have hb := h.bounds t' c hc
    have hcne : c ≠ lo := by
      rintro rfl
      exact hne (h.inj t' t _ hc ht)
    omega
  · intro c hge hlt
    obtain ⟨t', ht'⟩ := h.all c (by omega) hlt
    have hne : t' ≠ t := by
      rintro rfl
      have heq := Option.some.inj (ht'.symm.trans ht)
      omega
    exact ⟨t', update_none_iff.mpr ⟨hne, ht'⟩⟩
  · intro t₁ t₂ c h₁ h₂
    exact h.inj t₁ t₂ c (update_none_iff.mp h₁).2 (update_none_iff.mp h₂).2

end Numbered

section Step
variable {s : State ι} {t : ι} {c : ℕ}

theorem waiting_of_phase {p : Phase} (h : s.phase t = p) : waiting s t = p.call :=
  congrArg Phase.call h

/-- A step that moves no message and ends no call. -/
theorem Invariant.congr {s' : State ι} (hi : Invariant s) (hq : underWay s' = underWay s)
    (hw : waiting s' = waiting s) (hs : s'.sent = s.sent) (hr : s'.returned = s.returned) :
    Invariant s' := by
  have ha : answered s' = answered s := by rw [answered, hr, answered]
  constructor
  · rw [hq, hs, hr]
    exact hi.queue
  · rw [hs, hr]
    exact hi.le_sent
  · rw [hw, hs, hr]
    exact hi.waiting_bounds
  · rw [hw, hs, hr]
    exact hi.waiting_all
  · rw [hw]
    exact hi.waiting_inj
  · rw [ha, hr]
    exact hi.answered_eq
  · rw [hr]
    exact hi.own

@[simp] theorem call_wake (towa : Towa) : towa.wake.call = towa.call := by
  cases towa <;> rfl

@[simp] theorem phase_call_wake (p : Phase) : p.wake.call = p.call := by
  cases p <;> rfl

/-- An orderly receive leaves all the other replies in the pipe. -/
theorem afterRead_orderly {ahead : ℕ} {m : ℕ × Message} {rest : List (ℕ × Message)}
    (hm : s.pong = m :: rest)
    (hok : s.pong.length = 1 ∨ ahead = 0 ∧ (1 < s.readers ∨ s.towa.hasPong = true)) :
    afterRead s ahead = rest := by
  rw [afterRead, hm, List.tail_cons]
  rcases hok with hone | ⟨rfl, hopen⟩
  · have hrest : rest = [] := List.length_eq_zero_iff.mp (by simpa [hm] using hone)
    rw [hrest, List.drop_nil, keptIn, ite_self]
  · have hends : s.readers - 1 + s.towa.hasPong.toNat ≠ 0 := by
      rcases hopen with hreaders | hpong
      · omega
      · rw [hpong]
        exact Nat.succ_ne_zero _
    rw [List.drop_zero, keptIn_eq (Or.inr hends)]

variable [DecidableEq ι]

theorem waiting_update (phase : ι → Phase) (p : Phase) :
    (fun t' => (Function.update phase t p t').call) =
      Function.update (fun t' => (phase t').call) t p.call :=
  funext fun t' => Function.apply_update (fun _ => Phase.call) phase t p t'

theorem invariant_connect (hi : Invariant s) (he : s.phase t = .idle) :
    Invariant (next s (.connect t)) := by
  have hwait : waiting (next s (.connect t)) = waiting s := by
    refine (waiting_update s.phase .opened).trans ?_
    have hidle : Phase.opened.call = waiting s t := (waiting_of_phase he).symm
    rw [hidle]
    exact Function.update_eq_self t (waiting s)
  exact hi.congr rfl hwait rfl rfl

theorem invariant_send {request : Request} (hi : Invariant s) (he : s.phase t = .opened)
    (hok : s.towa.hasPing = true) : Invariant (next s (.send t request)) := by
  have hle := hi.le_sent
  have hnumbered := hi.numbered.push hle (waiting_of_phase he)
  have hwait : waiting (next s (.send t request)) =
      Function.update (waiting s) t (some s.sent) := waiting_update s.phase (.sent s.sent)
  rw [← hwait] at hnumbered
  refine ⟨?_, Nat.le_succ_of_le hle, hnumbered.bounds, hnumbered.all, hnumbered.inj, hi.answered_eq,
    hi.own⟩
  have hq : underWay s ++ [s.sent] =
      List.range' s.returned.length (s.sent + 1 - s.returned.length) := by
    rw [hi.queue, Nat.succ_sub hle, List.range'_1_concat]
    congr 2
    omega
  simpa [next, underWay, pongTags, towaTags, pingTags, hok] using hq

theorem invariant_await (hi : Invariant s) (he : s.phase t = .sent c) :
    Invariant (next s (.await t)) := by
  have hn : next s (.await t) = { s with
      phase := Function.update s.phase t (if s.towa.hasPong then .reading c else .opening c)
      towa := s.towa.wake
      readers := s.readers + 1 } := by simp only [next, he]
  have hcall : (if s.towa.hasPong then Phase.reading c else .opening c).call = waiting s t := by
    rw [waiting_of_phase he]
    split_ifs <;> rfl
  rw [hn]
  apply hi.congr
  · simp only [underWay, pongTags, towaTags, pingTags, call_wake]
  · refine (waiting_update s.phase _).trans ?_
    rw [hcall]
    exact Function.update_eq_self t (waiting s)
  · rfl
  · rfl

theorem invariant_take {ahead : ℕ} (hi : Invariant s) (he : Enabled s (.take ahead))
    (hok : Orderly s (.take ahead)) : Invariant (next s (.take ahead)) := by
  obtain ⟨htowa, hping⟩ := he
  obtain ⟨m, rest, hm⟩ := List.exists_cons_of_ne_nil hping
  have hdrop : rest.drop ahead = rest := by
    rcases hok with rfl | hone
    · rfl
    · have hrest : rest = [] := List.length_eq_zero_iff.mp (by simpa [hm] using hone)
      rw [hrest, List.drop_nil]
  have hn : next s (.take ahead) = { s with towa := .taken m, ping := rest } := by
    simp only [next, hm, hdrop]
  rw [hn]
  refine hi.congr ?_ rfl rfl rfl
  simp [underWay, pongTags, towaTags, pingTags, htowa, hm, Towa.call]

theorem invariant_leave {m : ℕ × Text} (hi : Invariant s) (he : s.towa = .taken m)
    (hok : s.ping = [] ∨ s.writers ≠ 0) : Invariant (next s .leave) := by
  have hn : next s .leave = { s with towa := .answering m } := by
    simp only [next, he, keptIn_eq hok]
  rw [hn]
  refine hi.congr ?_ rfl rfl rfl
  simp only [underWay, pongTags, towaTags, pingTags, he, Towa.call]

theorem invariant_answer {reply : Message} {m : ℕ × Text} (hi : Invariant s)
    (he : s.towa = .answering m) : Invariant (next s (.answer reply)) := by
  have hn : next s (.answer reply) = { s with
      phase := fun t => (s.phase t).wake
      towa := if s.readers = 0 then .opening m.1 reply else .writing m.1 reply } := by
    simp only [next, he]
  rw [hn]
  apply hi.congr
  · simp only [underWay, pongTags, towaTags, pingTags, he]
    split_ifs <;> rfl
  · funext t
    exact phase_call_wake (s.phase t)
  · rfl
  · rfl

theorem invariant_write {reply : Message} (hi : Invariant s) (he : s.towa = .writing c reply)
    (hok : s.readers ≠ 0) : Invariant (next s .write) := by
  have hn : next s .write = { s with towa := .written, pong := s.pong ++ [(c, reply)] } := by
    simp only [next, he, if_neg hok]
  rw [hn]
  refine hi.congr ?_ rfl rfl rfl
  simp [underWay, pongTags, towaTags, pingTags, he, Towa.call]

theorem invariant_finish (hi : Invariant s) (he : s.towa = .written)
    (hok : s.pong = [] ∨ s.readers ≠ 0) : Invariant (next s .finish) := by
  have hn : next s .finish = { s with towa := .idle } := by
    simp only [next, keptIn_eq hok]
  rw [hn]
  refine hi.congr ?_ rfl rfl rfl
  simp only [underWay, pongTags, towaTags, pingTags, he, Towa.call]

theorem invariant_receive {ahead : ℕ} (hi : Invariant s) (he : s.phase t = .reading c)
    (hok : Orderly s (.receive t ahead)) : Invariant (next s (.receive t ahead)) := by
  obtain ⟨hfirst, hpong, hkept⟩ := hok
  obtain ⟨m, rest, hm⟩ := List.exists_cons_of_ne_nil hpong
  obtain ⟨hhead, hlt, htail⟩ := front_reply hi hm
  have hc : waiting s t = some c := waiting_of_phase he
  have hcd : c = s.returned.length := by
    obtain ⟨t', ht'⟩ := hi.waiting_all s.returned.length (Nat.le_refl _) hlt
    have hle := hfirst c t' _ hc ht'
    have hge := (hi.waiting_bounds t c hc).1
    omega
  subst hcd
  have hn : next s (.receive t ahead) = { s with
      phase := Function.update s.phase t .idle
      pong := rest
      readers := s.readers - 1
      returned := ⟨t, s.returned.length, some m.1, some m.2⟩ :: s.returned } := by
    simp only [next, he, afterRead_orderly hm hkept, hm, List.head?_cons, Option.map_some]
  have hwait : waiting (next s (.receive t ahead)) = Function.update (waiting s) t none := by
    rw [hn]
    exact waiting_update s.phase .idle
  have hnumbered := hi.numbered.pop hc
  rw [← hwait, hn] at hnumbered
  rw [hn]
  refine ⟨?_, hlt, hnumbered.bounds, hnumbered.all, hnumbered.inj, ?_, ?_⟩
  · simpa [underWay, pongTags, towaTags, pingTags] using htail
  · have ha := hi.answered_eq
    simp only [answered] at ha ⊢
    rw [List.map_cons, ha, List.length_cons, List.range_succ, hhead]
    simp
  · intro r hr
    rcases List.mem_cons.mp hr with rfl | hr
    · exact congrArg some hhead
    · exact hi.own r hr

theorem invariant_next {a : Action ι} (hi : Invariant s) (he : Enabled s a) (hok : Orderly s a) :
    Invariant (next s a) := by
  cases a with
  | connect t => exact invariant_connect hi he.1
  | send t request => exact invariant_send hi he hok
  | await t =>
    obtain ⟨c, hc⟩ := he
    exact invariant_await hi hc
  | receive t ahead =>
    obtain ⟨⟨c, hc⟩, -⟩ := he
    exact invariant_receive hi hc hok
  | listen =>
    have hidle : s.towa = .idle := he
    refine hi.congr ?_ rfl rfl rfl
    simp only [next, underWay, pongTags, towaTags, pingTags, hidle, Towa.call]
  | take ahead => exact invariant_take hi he hok
  | leave =>
    obtain ⟨m, hm⟩ := he
    exact invariant_leave hi hm hok
  | answer reply =>
    obtain ⟨m, hm⟩ := he
    exact invariant_answer hi hm
  | write =>
    obtain ⟨c, reply, hw⟩ := he
    exact invariant_write hi hw hok
  | finish => exact invariant_finish hi he hok

end Step

/-! ### A step that is not orderly -/

section Lost
variable {s s' : State ι} {t : ι} {c ahead : ℕ}

theorem length_underWay (s : State ι) :
    (underWay s).length = s.pong.length + s.towa.call.toList.length + s.ping.length := by
  simp [underWay, pongTags, towaTags, pingTags, Nat.add_assoc]

/-- Every message that was under way still is, or has just been answered to a call. -/
theorem length_le_of_exact (hi : Invariant s) (hexact : Exact s') (hsent : s'.sent = s.sent)
    {l : List (Option ℕ)} (hans : answered s' = l ++ answered s) :
    (underWay s).length ≤ l.length + (underWay s').length := by
  have hnd : ((underWay s).map some).Nodup := by
    rw [hi.queue]
    exact List.Nodup.map (fun _ _ => Option.some.inj) List.nodup_range'
  have hsub : (underWay s).map some ⊆ l ++ (underWay s').map some := by
    intro x hx
    obtain ⟨n, hn, rfl⟩ := List.mem_map.mp hx
    have hbounds := (mem_underWay hi).mp hn
    rcases hexact.kept n (hsent ▸ hbounds.2) with hkept | hanswered
    · exact List.mem_append_right _ (List.mem_map_of_mem hkept)
    · rw [hans] at hanswered
      rcases List.mem_append.mp hanswered with hnew | hold
      · exact List.mem_append_left _ hnew
      · have hlt := (mem_answered hi).mp hold
        omega
  have hle := (hnd.subperm hsub).length_le
  simpa only [List.length_append, List.length_map] using hle

variable [DecidableEq ι]

/-- A request that the buffer took along from behind the one read is lost. -/
theorem orderly_take_of_exact (hi : Invariant s) (he : Enabled s (.take ahead))
    (hx : Exact (next s (.take ahead))) : Orderly s (.take ahead) := by
  obtain ⟨htowa, hping⟩ := he
  obtain ⟨m, rest, hm⟩ := List.exists_cons_of_ne_nil hping
  have hn : next s (.take ahead) = { s with towa := .taken m, ping := rest.drop ahead } := by
    simp only [next, hm]
  rw [hn] at hx
  have hle := length_le_of_exact hi hx rfl (l := []) rfl
  rw [length_underWay, length_underWay] at hle
  simp only [htowa, hm, Towa.call, Option.toList_none, Option.toList_some, List.length_nil,
    List.length_cons, List.length_drop] at hle
  simp only [Orderly, hm, List.length_cons]
  omega

/-- A request that nobody can read is lost. -/
theorem orderly_send_of_exact {request : Request} (hi : Invariant s)
    (hx : Exact (next s (.send t request))) : Orderly s (.send t request) := by
  by_contra hping
  have hping : s.towa.hasPing = false := Bool.eq_false_iff.mpr hping
  have hsub : ∀ n ∈ underWay (next s (.send t request)), n ∈ underWay s := by
    intro n hn
    simp only [next, hping, underWay, pongTags, towaTags, pingTags, Bool.false_eq_true, if_false,
      List.map_nil, List.append_nil] at hn
    exact List.mem_append_left _ hn
  rcases hx.kept s.sent (Nat.lt_succ_self _) with hkept | hanswered
  · have hlt := ((mem_underWay hi).mp (hsub _ hkept)).2
    omega
  · have hlt := (mem_answered hi).mp hanswered
    have hle := hi.le_sent
    omega

/-- What is in the pipe at the last close is lost. -/
theorem orderly_leave_of_exact {m : ℕ × Text} (hi : Invariant s) (he : s.towa = .taken m)
    (hx : Exact (next s .leave)) : Orderly s .leave := by
  by_cases hwriters : s.writers = 0
  · have hn : next s .leave = { s with towa := .answering m, ping := [] } := by
      simp only [next, he, keptIn, if_pos hwriters]
    rw [hn] at hx
    have hle := length_le_of_exact hi hx rfl (l := []) rfl
    rw [length_underWay, length_underWay] at hle
    simp only [he, Towa.call, List.length_nil] at hle
    exact Or.inl (List.length_eq_zero_iff.mp (by omega))
  · exact Or.inr hwriters

theorem orderly_finish_of_exact (hi : Invariant s) (he : s.towa = .written)
    (hx : Exact (next s .finish)) : Orderly s .finish := by
  by_cases hreaders : s.readers = 0
  · have hn : next s .finish = { s with towa := .idle, pong := [] } := by
      simp only [next, keptIn, if_pos hreaders]
    rw [hn] at hx
    have hle := length_le_of_exact hi hx rfl (l := []) rfl
    rw [length_underWay, length_underWay] at hle
    simp only [he, Towa.call, List.length_nil] at hle
    exact Or.inl (List.length_eq_zero_iff.mp (by omega))
  · exact Or.inr hreaders

/-- A reply that nobody can read is lost. -/
theorem orderly_write_of_exact {reply : Message} (hi : Invariant s) (he : s.towa = .writing c reply)
    (hx : Exact (next s .write)) : Orderly s .write := by
  intro hreaders
  have hn : next s .write = { s with towa := .written } := by
    simp only [next, he, if_pos hreaders, List.append_nil]
  rw [hn] at hx
  have hle := length_le_of_exact hi hx rfl (l := []) rfl
  rw [length_underWay, length_underWay] at hle
  simp only [he, Towa.call, Option.toList_none, Option.toList_some, List.length_nil,
    List.length_singleton] at hle
  omega

/-- The call that read the front reply is the one it was computed for, hence the oldest, and the
replies behind it are still there. -/
theorem orderly_receive_of_exact (hi : Invariant s) (he : s.phase t = .reading c)
    (hx : Exact (next s (.receive t ahead))) : Orderly s (.receive t ahead) := by
  have hn : next s (.receive t ahead) = { s with
      phase := Function.update s.phase t .idle
      pong := afterRead s ahead
      readers := s.readers - 1
      returned := ⟨t, c, s.pong.head?.map Prod.fst, s.pong.head?.map Prod.snd⟩ :: s.returned } := by
    simp only [next, he]
  rw [hn] at hx
  have hc : waiting s t = some c := waiting_of_phase he
  have hown := hx.own _ List.mem_cons_self
  cases hm : s.pong with
  | nil =>
    rw [hm] at hown
    cases hown
  | cons m rest =>
    have hmc : m.1 = c := by
      rw [hm] at hown
      exact Option.some.inj hown
    obtain ⟨hhead, -, -⟩ := front_reply hi hm
    have hle := length_le_of_exact hi hx rfl (l := [some m.1]) (by simp [answered, hm])
    rw [length_underWay, length_underWay] at hle
    simp only [afterRead, keptIn, hm, List.tail_cons, List.length_cons, List.length_nil] at hle
    refine ⟨?_, by simp [hm], ?_⟩
    · intro c₁ t' c' h₁ h'
      have hge := (hi.waiting_bounds t' c' h').1
      have heq := Option.some.inj (hc.symm.trans h₁)
      omega
    · rw [hm, List.length_cons]
      by_cases hends : s.readers - 1 + s.towa.hasPong.toNat = 0
      · rw [if_pos hends, List.length_nil] at hle
        omega
      · rw [if_neg hends, List.length_drop] at hle
        have hkept : rest.length = 0 ∨ ahead = 0 := by omega
        refine hkept.imp (fun hnil => by rw [hnil]) fun hahead => ⟨hahead, ?_⟩
        cases hpong : s.towa.hasPong with
        | true => exact Or.inr rfl
        | false =>
          rw [hpong, Bool.toNat_false] at hends
          omega

/-- A step that is not orderly loses a message or returns the reply to another call. -/
theorem orderly_of_exact {a : Action ι} (hi : Invariant s) (he : Enabled s a)
    (hx : Exact (next s a)) : Orderly s a := by
  cases a with
  | connect t => trivial
  | send t request => exact orderly_send_of_exact hi hx
  | await t => trivial
  | receive t ahead =>
    obtain ⟨⟨c, hc⟩, -⟩ := he
    exact orderly_receive_of_exact hi hc hx
  | listen => trivial
  | take ahead => exact orderly_take_of_exact hi he hx
  | leave =>
    obtain ⟨m, hm⟩ := he
    exact orderly_leave_of_exact hi hm hx
  | answer reply => trivial
  | write =>
    obtain ⟨c, reply, hw⟩ := he
    exact orderly_write_of_exact hi hw hx
  | finish => exact orderly_finish_of_exact hi he hx

end Lost

/-! ### Runs -/

section Runs
variable [DecidableEq ι]

theorem orderly_steps_iff {es : List (Action ι)} :
    ∀ {s : State ι}, Invariant s → towa.Runs (fun _ _ => True) s es →
      ((∀ n ≤ es.length, Exact (towa.run s (es.take n))) ↔ towa.Runs Orderly s es) := by
  induction es with
  | nil =>
    intro s hi _
    constructor
    · intro _
      trivial
    · intro _ n hn
      obtain rfl : n = 0 := by simpa using hn
      exact exact_of_invariant hi
  | cons a es ih =>
    rintro s hi ⟨he, -, hes⟩
    constructor
    · intro hall
      have hok := orderly_of_exact hi he (hall 1 (by simp))
      refine ⟨he, hok, (ih (invariant_next hi he hok) hes).mp ?_⟩
      intro n hn
      exact hall (n + 1) (by simpa using hn)
    · rintro ⟨-, hok, hrest⟩ n hn
      cases n with
      | zero => exact exact_of_invariant hi
      | succ n => exact (ih (invariant_next hi he hok) hes).mpr hrest n (by simpa using hn)

end Runs

def get : Request := ⟨"GET".toList, ['A'], []⟩

/-- A request is sent and answered while no other one is under way, up to the read of the reply,
which the thread is slow to make. -/
def exchange (t : Bool) (reply : Message) : List (Action Bool) :=
  [.listen, .connect t, .send t get, .take 0, .leave, .await t, .answer reply, .write, .finish]

/-- The second thread sends when the reply to the first one is there, and has its own reply
written behind that. -/
def overlapping (t t' : Bool) : List (Action Bool) :=
  exchange false ⟨1, ['a']⟩ ++ exchange true ⟨1, ['b']⟩ ++ [.receive t 0, .receive t' 0]

theorem runs_overlapping (t : Bool) :
    towa.Runs (fun _ _ => True) initial (overlapping t (!t)) := by
  have hreads : ∀ t : Bool, (∃ c, (towa.run initial (exchange false ⟨1, ['a']⟩ ++
      exchange true ⟨1, ['b']⟩)).phase t = .reading c) := by
    intro t
    cases t
    · exact ⟨0, rfl⟩
    · exact ⟨1, rfl⟩
  cases t
  all_goals
    exact ⟨rfl, trivial, ⟨rfl, rfl⟩, trivial, rfl, trivial, ⟨rfl, by decide⟩, trivial, ⟨_, rfl⟩,
      trivial, ⟨_, rfl⟩, trivial, ⟨_, rfl⟩, trivial, ⟨_, _, rfl⟩, trivial, rfl, trivial, rfl, trivial,
      ⟨rfl, rfl⟩, trivial, rfl, trivial, ⟨rfl, by decide⟩, trivial, ⟨_, rfl⟩, trivial, ⟨_, rfl⟩,
      trivial, ⟨_, rfl⟩, trivial, ⟨_, _, rfl⟩, trivial, rfl, trivial,
      ⟨hreads _, Or.inl (by decide)⟩, trivial, ⟨⟨_, rfl⟩, Or.inl (by decide)⟩, trivial, trivial⟩

end TowaPipes
