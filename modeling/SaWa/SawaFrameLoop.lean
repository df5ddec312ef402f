import SaWa.SawaServerRun

/-! The two frame loops over a byte stream. What a loop does with one whole message is proved
for a loop in general, of which `SawaServer::readData` and `AdminInterface::readCommand` are
the two instances; a run over a list of messages follows by induction on the list. -/
namespace SawaFrameLoop

open EffectProgram RangeStore LittleEndian SawaProtocol SawaServer SawaServerRun

/-- The frames handed to `processRequest` or to `processCommand`. -/
def executed : Call × World → Option (List UInt8)
  | (.enter (.processRequest frame), _) | (.enter (.processCommand frame), _) => some frame
  | _ => none

/-- A connection with other bytes to read, and nothing else changed. -/
def withSocket (input : List UInt8) (cut : ℕ → ℕ) (w : World) : World :=
  (w.1, { w.2 with input := input, cut := cut })

@[simp] theorem shared_withSocket (input : List UInt8) (cut : ℕ → ℕ) (w : World) :
    (withSocket input cut w).1 = w.1 := rfl

/-- Every read delivers what it asks for, or all that is left. -/
def Ample (c : Conn) : Prop := ∀ k, c.input.length ≤ c.cut k

theorem Ample.readBytes_eq {c : Conn} (h : Ample c) (n : ℕ) : c.readBytes n = c.input.take n := by
  have h0 := h 0
  rw [Conn.readBytes]
  by_cases hn : n ≤ max 1 (c.cut 0)
  · rw [Nat.min_eq_left hn]
  · rw [List.take_of_length_le (by omega), List.take_of_length_le (by omega)]

theorem Ample.afterRead {c : Conn} (h : Ample c) (n : ℕ) : Ample (c.afterRead n) := by
  intro k
  have hk := h (k + 1)
  show (c.input.drop _).length ≤ c.cut (k + 1)
  rw [List.length_drop]
  omega

theorem input_afterRead {c : Conn} (ha : Ample c) (h4 : 4 ≤ c.input.length) :
    (c.afterRead 4).input = c.input.drop 4 := by
  show c.input.drop (c.readBytes 4).length = _
  rw [ha.readBytes_eq, List.length_take, Nat.min_eq_left h4]

/-! ### One round -/

section Round
variable (tooLong positive : UInt32 → Bool) (process : Mem → UInt32 → ServerM (Unit ⊕ Leave))

theorem run_frameRound (w : World) :
    run sysHandler (frameRound tooLong positive process ()) w =
      if (w.2.readBytes 4).length < 4 then (.inr .returned, (w.1, w.2.afterRead 4))
      else if tooLong (wordOf (w.2.readBytes 4)) then (.inr .returned, (w.1, w.2.afterRead 4))
      else if positive (wordOf (w.2.readBytes 4)) then
        run sysHandler
          (process
            (store (w.1.heap 0) 0 ((w.2.afterRead 4).readBytes (wordOf (w.2.readBytes 4)).toNat))
            (wordOf (w.2.readBytes 4)))
          (afterAlloc (w.1, (w.2.afterRead 4).afterRead (wordOf (w.2.readBytes 4)).toNat))
      else (.inl (), (w.1, w.2.afterRead 4)) := by
  obtain ⟨s, c⟩ := w
  rw [frameRound, perform_bind, run_call]
  simp only [sysHandler]
  split_ifs <;> rfl

/-- What an observer sees of a round, when it looks neither at reads nor at allocations. -/
theorem observe_frameRound {β : Type} (f : Call × World → Option β)
    (hread : ∀ n w, f (.read n, w) = none) (halloc : ∀ n w, f (.alloc n, w) = none) (w : World) :
    observe f sysHandler (frameRound tooLong positive process ()) w =
      if (w.2.readBytes 4).length < 4 then []
      else if tooLong (wordOf (w.2.readBytes 4)) then []
      else if positive (wordOf (w.2.readBytes 4)) then
        observe f sysHandler
          (process
            (store (w.1.heap 0) 0 ((w.2.afterRead 4).readBytes (wordOf (w.2.readBytes 4)).toNat))
            (wordOf (w.2.readBytes 4)))
          (afterAlloc (w.1, (w.2.afterRead 4).afterRead (wordOf (w.2.readBytes 4)).toNat))
      else [] := by
  obtain ⟨s, c⟩ := w
  rw [frameRound, perform_bind, observe_call_none _ _ (hread _ _)]
  simp only [sysHandler]
  split_ifs
  · rfl
  · rfl
  · rw [perform_bind, observe_call_none _ _ (halloc _ _), perform_bind,
      observe_call_none _ _ (hread _ _)]
    rfl
  · rfl

theorem executed_frameRound (w : World) :
    observe executed sysHandler (frameRound tooLong positive process ()) w =
      if (w.2.readBytes 4).length < 4 then []
      else if tooLong (wordOf (w.2.readBytes 4)) then []
      else if positive (wordOf (w.2.readBytes 4)) then
        observe executed sysHandler
          (process
            (store (w.1.heap 0) 0 ((w.2.afterRead 4).readBytes (wordOf (w.2.readBytes 4)).toNat))
            (wordOf (w.2.readBytes 4)))
          (afterAlloc (w.1, (w.2.afterRead 4).afterRead (wordOf (w.2.readBytes 4)).toNat))
      else [] :=
  observe_frameRound tooLong positive process executed (fun _ _ => rfl) (fun _ _ => rfl) w

end Round

/-! ### Loops -/

/-- What the rules below use of a frame loop: which length fields it goes on with, what it does
with a frame, and after which frames the process exits. Length fields are below `lengths`. -/
structure FrameLoop where
  tooLong : UInt32 → Bool
  positive : UInt32 → Bool
  process : Mem → UInt32 → ServerM (Unit ⊕ Leave)
  limit : ℕ
  lengths : ℕ
  effect : Mem → UInt32 → World → World
  stops : List UInt8 → Bool
  limit_lt : limit < lengths
  lengths_le : lengths ≤ 2 ^ 32
  tooLong_eq : ∀ n, n < lengths → tooLong (UInt32.ofNat n) = decide (limit < n)
  positive_eq : ∀ n, n ≤ limit → positive (UInt32.ofNat n) = decide (0 < n)
  run_process : ∀ addr size w, 0 < size.toNat → run sysHandler (process addr size) w =
    (if stops (load addr 0 size.toNat) then .inr .exited else .inl (), effect addr size w)
  executed_process : ∀ addr size w, observe executed sysHandler (process addr size) w =
    [load addr 0 size.toNat]
  effect_socket : ∀ addr size input cut w,
    effect addr size (withSocket input cut w) = withSocket input cut (effect addr size w)

namespace FrameLoop

variable (L : FrameLoop)

def round : Unit → ServerM (Unit ⊕ Leave) := frameRound L.tooLong L.positive L.process

def program (rounds : ℕ) : ServerM (Option Leave) := loop L.round rounds ()

/-- One frame in a new block, as the loop hands it on. -/
def serveFrame (f : List UInt8) (w : World) : World :=
  L.effect (store (w.1.heap 0) 0 f) (UInt32.ofNat f.length) (afterAlloc w)

def serveFrames : List (List UInt8) → World → World
  | [], w => w
  | f :: fs, w => serveFrames fs (L.serveFrame f w)

theorem serveFrame_socket (f : List UInt8) (input : List UInt8) (cut : ℕ → ℕ) (w : World) :
    L.serveFrame f (withSocket input cut w) = withSocket input cut (L.serveFrame f w) :=
  L.effect_socket (store (w.1.heap 0) 0 f) (UInt32.ofNat f.length) input cut (afterAlloc w)

theorem serveFrames_append (fs gs : List (List UInt8)) (w : World) :
    L.serveFrames (fs ++ gs) w = L.serveFrames gs (L.serveFrames fs w) := by
  induction fs generalizing w with
  | nil => rfl
  | cons f fs ih => exact ih _

/-! ### One whole message -/

theorem readBytes_append (w : World) (a b : List UInt8) (cut : ℕ → ℕ)
    (hcut : a.length ≤ max 1 (cut 0)) :
    (withSocket (a ++ b) cut w).2.readBytes a.length = a := by
  rw [Conn.readBytes, withSocket, Nat.min_eq_left hcut, List.take_left]

theorem afterRead_append (w : World) (a b : List UInt8) (cut : ℕ → ℕ)
    (hcut : a.length ≤ max 1 (cut 0)) :
    (w.1, (withSocket (a ++ b) cut w).2.afterRead a.length) =
      withSocket b (fun k => cut (k + 1)) w := by
  rw [Conn.afterRead, readBytes_append w a b cut hcut, withSocket, List.drop_left]
  rfl

/-- The `read` calls a message takes: an empty one has no body to read. -/
def reads (f : List UInt8) : ℕ := if f = [] then 1 else 2

variable {L}

theorem tooLong_within {n : ℕ} (h : n ≤ L.limit) : L.tooLong (UInt32.ofNat n) = false := by
  have hlt := L.limit_lt
  rw [L.tooLong_eq n (by omega)]
  exact decide_eq_false (Nat.not_lt.mpr h)

theorem positive_within {n : ℕ} (h : n ≤ L.limit) (hpos : 0 < n) :
    L.positive (UInt32.ofNat n) = true := by
  rw [L.positive_eq n h]
  exact decide_eq_true hpos

theorem header_read (w : World) (f tail : List UInt8) {cut : ℕ → ℕ} (hcut : 4 ≤ cut 0) :
    (withSocket (message f ++ tail) cut w).2.readBytes 4 = wordBytes (UInt32.ofNat f.length) ∧
      (w.1, (withSocket (message f ++ tail) cut w).2.afterRead 4) =
        withSocket (f ++ tail) (fun k => cut (k + 1)) w := by
  have hlen : (wordBytes (UInt32.ofNat f.length)).length ≤ max 1 (cut 0) := by
    rw [length_wordBytes]
    omega
  have hr := readBytes_append w _ (f ++ tail) cut hlen
  have ha := afterRead_append w _ (f ++ tail) cut hlen
  rw [length_wordBytes] at hr ha
  rw [message, List.append_assoc]
  exact ⟨hr, ha⟩

theorem round_empty (w : World) (tail : List UInt8) {cut : ℕ → ℕ} (hcut : 4 ≤ cut 0) :
    run sysHandler (L.round ()) (withSocket (message [] ++ tail) cut w) =
        (.inl (), withSocket tail (fun k => cut (k + 1)) w) ∧
      observe executed sysHandler (L.round ()) (withSocket (message [] ++ tail) cut w) = [] := by
  obtain ⟨hr, ha⟩ := header_read w [] tail hcut
  have hpos : L.positive (UInt32.ofNat 0) = false := by
    rw [L.positive_eq 0 (Nat.zero_le _)]
    rfl
  rw [round, run_frameRound, executed_frameRound, hr, wordOf_wordBytes, length_wordBytes,
    List.length_nil, tooLong_within (Nat.zero_le _), hpos]
  exact ⟨congrArg (Prod.mk _) ha, rfl⟩

theorem round_message (w : World) {f : List UInt8} (tail : List UInt8) {cut : ℕ → ℕ}
    (hcut : 4 ≤ cut 0) (hbody : f.length ≤ max 1 (cut 1)) (hne : f ≠ [])
    (hlim : f.length ≤ L.limit) :
    run sysHandler (L.round ()) (withSocket (message f ++ tail) cut w) =
        (if L.stops f then .inr .exited else .inl (),
          withSocket tail (fun k => cut (k + 2)) (L.serveFrame f w)) ∧
      observe executed sysHandler (L.round ()) (withSocket (message f ++ tail) cut w) = [f] := by
  have hlen := L.limit_lt
  have hle := L.lengths_le
  have hf : f.length < 2 ^ 32 := by omega
  have hpos0 : 0 < f.length := List.length_pos_iff.mpr hne
  obtain ⟨hr, ha⟩ := header_read w f tail hcut
  have hr2 := readBytes_append w f tail (fun k => cut (k + 1)) hbody
  have ha2 := afterRead_append w f tail (fun k => cut (k + 1)) hbody
  have hc : (withSocket (message f ++ tail) cut w).2.afterRead 4 =
      (withSocket (f ++ tail) (fun k => cut (k + 1)) w).2 := congrArg Prod.snd ha
  have hload : load (store (w.1.heap 0) 0 f) 0 f.length = f := load_store_self _ _ _
  rw [round, run_frameRound, executed_frameRound, hr, wordOf_wordBytes, length_wordBytes,
    tooLong_within hlim, positive_within hlim hpos0, toNat_ofNat hf, hc, hr2, shared_withSocket,
    ha2]
  simp only [Nat.lt_irrefl, if_false, if_true, Bool.false_eq_true]
  rw [L.run_process _ _ _ (by rwa [toNat_ofNat hf]), L.executed_process, toNat_ofNat hf, hload]
  exact ⟨congrArg (Prod.mk _) (L.serveFrame_socket f tail (fun k => cut (k + 2)) w), rfl⟩

/-! ### Streams of messages -/

end FrameLoop

def stream (frames : List (List UInt8)) : List UInt8 := (frames.map message).flatten

theorem stream_cons (f : List UInt8) (fs : List (List UInt8)) :
    stream (f :: fs) = message f ++ stream fs := rfl

theorem stream_append (fs gs : List (List UInt8)) : stream (fs ++ gs) = stream fs ++ stream gs := by
  simp [stream]

/-- The frames that are handed on: those with a body. -/
def bodies (frames : List (List UInt8)) : List (List UInt8) := frames.filter (· ≠ [])

/-- The frames executed when the process exits after the first one that stops it. -/
def upToStop (stops : List UInt8 → Bool) : List (List UInt8) → List (List UInt8)
  | [] => []
  | f :: fs => if stops f then [f] else f :: upToStop stops fs

/-- Every `read` made for these messages delivers all the bytes it asks for. -/
def WholeReads : (ℕ → ℕ) → List (List UInt8) → Prop
  | _, [] => True
  | cut, f :: fs => 4 ≤ cut 0 ∧ f.length ≤ max 1 (cut 1) ∧
      WholeReads (fun k => cut (k + FrameLoop.reads f)) fs

/-- The readiness of the reads that follow those made for these messages. -/
def restCut : (ℕ → ℕ) → List (List UInt8) → ℕ → ℕ
  | cut, [] => cut
  | cut, f :: fs => restCut (fun k => cut (k + FrameLoop.reads f)) fs

/-- Reads that deliver all that is left of the stream are whole. -/
theorem wholeReads_of_ample {cut : ℕ → ℕ} {frames : List (List UInt8)}
    (hcut : ∀ k, (stream frames).length ≤ cut k) : WholeReads cut frames := by
  induction frames generalizing cut with
  | nil => trivial
  | cons f fs ih =>
    have hlen : (stream (f :: fs)).length = 4 + f.length + (stream fs).length := by
      rw [stream_cons, List.length_append, length_message]
    have h0 := hcut 0
    have h1 := hcut 1
    refine ⟨by omega, (show f.length ≤ cut 1 by omega).trans (le_max_right _ _), ?_⟩
    exact ih fun k => (show _ ≤ _ by omega : (stream fs).length ≤ _).trans (hcut _)

theorem restCut_ample {cut : ℕ → ℕ} {b : ℕ} (hcut : ∀ k, b ≤ cut k)
    (frames : List (List UInt8)) (k : ℕ) : b ≤ restCut cut frames k := by
  induction frames generalizing cut with
  | nil => exact hcut k
  | cons f fs ih => exact ih fun k => hcut _

/-- Each message has at least the four bytes of its length. -/
theorem length_le_stream (frames : List (List UInt8)) : frames.length ≤ (stream frames).length := by
  induction frames with
  | nil => exact le_rfl
  | cons f fs ih =>
    rw [stream_cons, List.length_append, length_message, List.length_cons]
    omega

theorem bodies_cons (f : List UInt8) (fs : List (List UInt8)) :
    bodies (f :: fs) = bodies [f] ++ bodies fs := List.filter_append [f] fs

theorem mem_bodies_singleton {f g : List UInt8} : g ∈ bodies [f] ↔ g = f ∧ f ≠ [] := by
  simp only [bodies, List.mem_filter, List.mem_singleton, decide_eq_true_eq]
  constructor
  · rintro ⟨rfl, hne⟩
    exact ⟨rfl, hne⟩
  · rintro ⟨rfl, hne⟩
    exact ⟨rfl, hne⟩

theorem bodies_eq_self {frames : List (List UInt8)} (h : ∀ f ∈ frames, f ≠ []) :
    bodies frames = frames := List.filter_eq_self.mpr (by simpa using h)

theorem upToStop_append {stops : List UInt8 → Bool} {frames : List (List UInt8)}
    (h : ∀ f ∈ frames, stops f = false) (more : List (List UInt8)) :
    upToStop stops (frames ++ more) = frames ++ upToStop stops more := by
  induction frames with
  | nil => rfl
  | cons f fs ih =>
    rw [List.cons_append, upToStop, h f List.mem_cons_self,
      ih fun g hg => h g (List.mem_cons_of_mem f hg)]
    rfl

theorem upToStop_eq_self {stops : List UInt8 → Bool} {frames : List (List UInt8)}
    (h : ∀ f ∈ frames, stops f = false) : upToStop stops frames = frames := by
  simpa [upToStop] using upToStop_append h []

namespace FrameLoop

variable {L : FrameLoop}

/-- A message without a stop, at the front of the stream. -/
theorem program_message (w : World) {f : List UInt8} (fs : List (List UInt8)) {cut : ℕ → ℕ}
    (hcut : 4 ≤ cut 0) (hbody : f.length ≤ max 1 (cut 1)) (hlim : f.length ≤ L.limit)
    (hgo : f ≠ [] → L.stops f = false) (tail : List UInt8) (n : ℕ) :
    run sysHandler (L.program (n + 1)) (withSocket (stream (f :: fs) ++ tail) cut w) =
        run sysHandler (L.program n) (withSocket (stream fs ++ tail)
          (fun k => cut (k + reads f)) (L.serveFrames (bodies [f]) w)) ∧
      observe executed sysHandler (L.program (n + 1))
          (withSocket (stream (f :: fs) ++ tail) cut w) =
        bodies [f] ++ observe executed sysHandler (L.program n) (withSocket (stream fs ++ tail)
          (fun k => cut (k + reads f)) (L.serveFrames (bodies [f]) w)) := by
  rw [stream_cons, List.append_assoc]
  by_cases hf : f = []
  · subst hf
    obtain ⟨hrun, hobs⟩ := round_empty (L := L) w (stream fs ++ tail) hcut
    rw [program, run_loop_next _ _ hrun, observe_loop_next _ _ _ hrun, hobs]
    exact ⟨rfl, rfl⟩
  · have hbs : bodies [f] = [f] := by simp [bodies, hf]
    have hrd : reads f = 2 := if_neg hf
    obtain ⟨hrun, hobs⟩ := round_message w (stream fs ++ tail) hcut hbody hf hlim
    rw [hgo hf, if_neg Bool.false_ne_true] at hrun
    rw [program, run_loop_next _ _ hrun, observe_loop_next _ _ _ hrun, hobs, hbs, hrd]
    exact ⟨rfl, rfl⟩

/-- Whole messages without a stop are served in order, and the loop goes on with what follows
them. -/
theorem run_frames {frames : List (List UInt8)} {w : World} {cut : ℕ → ℕ}
    (hw : WholeReads cut frames) (hl : ∀ f ∈ frames, f.length ≤ L.limit)
    (hs : ∀ f ∈ bodies frames, L.stops f = false) (tail : List UInt8) (n : ℕ) :
    run sysHandler (L.program (frames.length + n)) (withSocket (stream frames ++ tail) cut w) =
        run sysHandler (L.program n)
          (withSocket tail (restCut cut frames) (L.serveFrames (bodies frames) w)) ∧
      observe executed sysHandler (L.program (frames.length + n))
          (withSocket (stream frames ++ tail) cut w) =
        bodies frames ++ observe executed sysHandler (L.program n)
          (withSocket tail (restCut cut frames) (L.serveFrames (bodies frames) w)) := by
  induction frames generalizing w cut with
  | nil =>
    rw [List.length_nil, Nat.zero_add]
    exact ⟨rfl, rfl⟩
  | cons f fs ih =>
    obtain ⟨h4, hbody, hrest⟩ := hw
    rw [bodies_cons] at hs ⊢
    have hgo : f ≠ [] → L.stops f = false := fun hf =>
      hs f (List.mem_append_left _ (mem_bodies_singleton.mpr ⟨rfl, hf⟩))
    have hlen : (f :: fs).length + n = fs.length + n + 1 := by
      rw [List.length_cons]
      omega
    obtain ⟨hrun, hobs⟩ :=
      program_message w fs h4 hbody (hl f List.mem_cons_self) hgo tail (fs.length + n)
    obtain ⟨hrun', hobs'⟩ := ih (w := L.serveFrames (bodies [f]) w) hrest
      (fun g hg => hl g (List.mem_cons_of_mem f hg)) fun g hg => hs g (List.mem_append_right _ hg)
    rw [hlen, hrun, hobs, hrun', hobs', serveFrames_append, List.append_assoc]
    exact ⟨rfl, rfl⟩

/-- With a stop among the messages, the process exits right after the first one. -/
theorem run_frames_stop {frames : List (List UInt8)} {w : World} {cut : ℕ → ℕ}
    (hw : WholeReads cut frames) (hl : ∀ f ∈ frames, f.length ≤ L.limit)
    (hs : ∃ f ∈ bodies frames, L.stops f = true) (tail : List UInt8) (n : ℕ) :
    ∃ tail' cut', run sysHandler (L.program (frames.length + n))
          (withSocket (stream frames ++ tail) cut w) =
        (some .exited,
          withSocket tail' cut' (L.serveFrames (upToStop L.stops (bodies frames)) w)) ∧
      observe executed sysHandler (L.program (frames.length + n))
          (withSocket (stream frames ++ tail) cut w) = upToStop L.stops (bodies frames) := by
  induction frames generalizing w cut with
  | nil =>
    obtain ⟨f, hf, -⟩ := hs
    exact absurd hf List.not_mem_nil
  | cons f fs ih =>
    obtain ⟨h4, hbody, hrest⟩ := hw
    have hlf := hl f List.mem_cons_self
    have hlen : (f :: fs).length + n = fs.length + n + 1 := by
      rw [List.length_cons]
      omega
    rw [bodies_cons] at hs ⊢
    rw [hlen]
    by_cases hstop : f ≠ [] ∧ L.stops f = true
    · have hbs : bodies [f] = [f] := bodies_eq_self (by simpa using hstop.1)
      obtain ⟨hrun, hobs⟩ := round_message w (stream fs ++ tail) h4 hbody hstop.1 hlf
      rw [hstop.2, if_pos rfl] at hrun
      rw [stream_cons, List.append_assoc, program, run_loop_leave _ _ hrun,
        observe_loop_leave _ _ _ hrun, hobs, hbs, List.singleton_append, upToStop, hstop.2,
        if_pos rfl]
      exact ⟨_, _, rfl, rfl⟩
    · have hgo : f ≠ [] → L.stops f = false := fun hf =>
        Bool.eq_false_iff.mpr fun h => hstop ⟨hf, h⟩
      have hpass : ∀ g ∈ bodies [f], L.stops g = false := by
        intro g hg
        obtain ⟨rfl, hne⟩ := mem_bodies_singleton.mp hg
        exact hgo hne
      have hs' : ∃ g ∈ bodies fs, L.stops g = true := by
        obtain ⟨g, hg, hgs⟩ := hs
        rcases List.mem_append.mp hg with hg | hg
        · rw [hpass g hg] at hgs
          cases hgs
        · exact ⟨g, hg, hgs⟩
      obtain ⟨hrun, hobs⟩ := program_message w fs h4 hbody hlf hgo tail (fs.length + n)
      obtain ⟨tail', cut', hrun', hobs'⟩ := ih (w := L.serveFrames (bodies [f]) w) hrest
        (fun g hg => hl g (List.mem_cons_of_mem f hg)) hs'
      refine ⟨tail', cut', ?_, ?_⟩
      · rw [hrun, hrun', upToStop_append hpass, serveFrames_append]
      · rw [hobs, hobs', upToStop_append hpass]

end FrameLoop

/-! ### `SawaServer::readData` -/

theorem executed_readFile (offset size : UInt32) (w : World) :
    observe executed sysHandler (readFile offset size) w = [] := by
  rw [readFile, perform_bind, observe_call_none _ _ rfl, observe_checked _ fun _ _ => rfl]
  exact ite_self _

theorem executed_writeFile (addr : Mem) (offset size : UInt32) (w : World) :
    observe executed sysHandler (writeFile addr offset size) w = [] := by
  rw [writeFile, perform_bind, observe_call_none _ _ rfl, observe_checked _ fun _ _ => rfl]
  exact ite_self _

theorem executed_processRequest (addr : Mem) (size : UInt32) (w : World) :
    observe executed sysHandler (processRequest addr size) w = [load addr 0 size.toNat] := by
  rw [processRequest, perform_bind, observe_call_some sysHandler executed rfl]
  refine congrArg (load addr 0 size.toNat :: ·) ?_
  by_cases hi : addr 0 = sawaInfo
  · simp only [if_pos hi]
    rfl
  by_cases hr : addr 0 = sawaRead
  · simp only [if_neg hi, if_pos hr, observe_bind, executed_readFile]
    rfl
  by_cases hw : addr 0 = sawaWrite
  · simp only [if_neg hi, if_neg hr, if_pos hw, observe_bind, executed_writeFile]
    rfl
  · simp only [if_neg hi, if_neg hr, if_neg hw]
    rfl

theorem readFileEffect_socket (offset size : UInt32) (input : List UInt8) (cut : ℕ → ℕ)
    (w : World) : readFileEffect offset size (withSocket input cut w) =
      withSocket input cut (readFileEffect offset size w) := by
  unfold readFileEffect
  split_ifs <;> rfl

theorem writeFileEffect_socket (offset size : UInt32) (bytes input : List UInt8) (cut : ℕ → ℕ)
    (w : World) : writeFileEffect offset size bytes (withSocket input cut w) =
      withSocket input cut (writeFileEffect offset size bytes w) := by
  unfold writeFileEffect
  split_ifs <;> rfl

theorem processEffect_socket (addr : Mem) (size : UInt32) (input : List UInt8) (cut : ℕ → ℕ)
    (w : World) : processEffect addr size (withSocket input cut w) =
      withSocket input cut (processEffect addr size w) := by
  unfold processEffect
  rw [readFileEffect_socket, writeFileEffect_socket]
  split_ifs <;> rfl

def serverLoop : FrameLoop where
  tooLong n := 32768 < n
  positive n := 0 < n
  process addr size := do
    processRequest addr size
    return .inl ()
  limit := 32768
  lengths := 2 ^ 32
  effect := processEffect
  stops _ := false
  limit_lt := by decide
  lengths_le := le_rfl
  tooLong_eq n hn := by
    rw [decide_eq_decide, UInt32.lt_iff_toNat_lt, toNat_ofNat hn]
    rfl
  positive_eq n hn := by
    rw [decide_eq_decide, UInt32.lt_iff_toNat_lt, toNat_ofNat (by omega)]
    rfl
  run_process addr size w _ := by
    rw [run_bind, run_processRequest]
    rfl
  executed_process addr size w := by
    rw [observe_bind, executed_processRequest]
    rfl
  effect_socket := processEffect_socket

theorem serverLoop_program (n : ℕ) : serverLoop.program n = readData n := rfl

theorem serverLoop_serveFrames (frames : List (List UInt8)) (w : World) :
    serverLoop.serveFrames frames w = after frames w := by
  induction frames generalizing w with
  | nil => rfl
  | cons f fs ih =>
    rw [FrameLoop.serveFrames, ih, after_cons, run_receive]
    rfl

/-! ### `AdminInterface::readCommand` -/

def statEffect (w : World) : World :=
  (w.1, w.2.reply (load w.1.stats 0 (wordAt w.1.stats 0).toNat))

def commandEffect (addr : Mem) (_ : UInt32) (w : World) : World :=
  if addr 0 = sawaStat then statEffect w else w

theorem signed_ofNat {n : ℕ} (h : n < 2 ^ 31) : signed (UInt32.ofNat n) = n := by
  have hb : signed (UInt32.ofNat n) = (BitVec.ofNat 32 n).toInt := rfl
  have hm : (BitVec.ofNat 32 n).toNat = n := by
    rw [BitVec.toNat_ofNat, Nat.mod_eq_of_lt (by omega)]
  rw [hb, BitVec.toInt_eq_toNat_of_lt (by omega), hm]

def isStop (f : List UInt8) : Bool := f.head? = some sawaStop

theorem isStop_load (addr : Mem) {n : ℕ} (hn : 0 < n) :
    isStop (load addr 0 n) = decide (addr 0 = sawaStop) := by
  obtain ⟨k, rfl⟩ : ∃ k, n = 1 + k := ⟨n - 1, by omega⟩
  rw [isStop, load_add, load_one]
  simp

theorem run_processCommand (addr : Mem) (size : UInt32) (w : World) (hs : 0 < size.toNat) :
    run sysHandler (processCommand addr size) w =
      (if isStop (load addr 0 size.toNat) then .inr .exited else .inl (),
        commandEffect addr size w) := by
  rw [processCommand, perform_bind, run_call, isStop_load addr hs, commandEffect]
  by_cases hstop : addr 0 = sawaStop
  · simp only [hstop]
    rfl
  by_cases hstat : addr 0 = sawaStat
  · simp only [hstat]
    rfl
  · simp only [if_neg hstop, if_neg hstat, decide_eq_false hstop]
    rfl

theorem executed_processCommand (addr : Mem) (size : UInt32) (w : World) :
    observe executed sysHandler (processCommand addr size) w = [load addr 0 size.toNat] := by
  rw [processCommand, perform_bind, observe_call_some sysHandler executed rfl]
  refine congrArg (load addr 0 size.toNat :: ·) ?_
  by_cases hstop : addr 0 = sawaStop
  · simp only [if_pos hstop]
    rfl
  by_cases hstat : addr 0 = sawaStat
  · simp only [if_neg hstop, if_pos hstat]
    rfl
  · simp only [if_neg hstop, if_neg hstat]
    rfl

/-- The length field is an `int` here, so fields from 2^31 on are another matter. -/
def adminLoop : FrameLoop where
  tooLong n := 1024 < signed n
  positive n := 0 < signed n
  process := processCommand
  limit := 1024
  lengths := 2 ^ 31
  effect := commandEffect
  stops := isStop
  limit_lt := by decide
  lengths_le := by decide
  tooLong_eq n hn := by
    rw [decide_eq_decide, signed_ofNat hn]
    omega
  positive_eq n hn := by
    rw [decide_eq_decide, signed_ofNat (by omega)]
    omega
  run_process := run_processCommand
  executed_process := executed_processCommand
  effect_socket addr size input cut w := by
    unfold commandEffect
    split_ifs <;> rfl

theorem adminLoop_program (n : ℕ) : adminLoop.program n = readCommand n := rfl

end SawaFrameLoop
