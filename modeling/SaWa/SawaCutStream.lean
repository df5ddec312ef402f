import SaWa.SawaBrokenPipe
import Mathlib.Data.List.TakeWhile

/-! Streams that end in the middle of a message. The frame loops test the size of a body for
`n < 0` only, so whether the cut message does harm depends on whether its length field arrived
whole: a cut length is noticed, a cut body is not. -/
namespace SawaCutStream

open EffectProgram RangeStore LittleEndian SawaProtocol SawaServer SawaServerRun SawaFrameLoop
  SawaBrokenPipe

/-! ### What the loop makes of the bytes that are left -/

/-- Bytes of which a loop executes nothing: too few for a length, a length that the loop
refuses, or a length it takes for an empty message in front of such bytes. -/
inductive Ignored (L : FrameLoop) : List UInt8 → Prop where
  | short {s : List UInt8} (h : s.length < 4) : Ignored L s
  | refused {s : List UInt8} (h : L.tooLong (wordOf (s.take 4)) = true) : Ignored L s
  | empty {s : List UInt8} (h : L.positive (wordOf (s.take 4)) = false)
      (rest : Ignored L (s.drop 4)) : Ignored L s

section Rest
variable {L : FrameLoop}

theorem length_header (s : List UInt8) : (s.take 4).length < 4 ↔ s.length < 4 := by
  rw [List.length_take]
  omega

theorem round_leaves {w : World} (ha : Ample w.2)
    (h : w.2.input.length < 4 ∨ L.tooLong (wordOf (w.2.input.take 4)) = true) :
    run sysHandler (L.round ()) w = (.inr .returned, (w.1, w.2.afterRead 4)) ∧
      observe executed sysHandler (L.round ()) w = [] := by
  rw [FrameLoop.round, run_frameRound, executed_frameRound, ha.readBytes_eq]
  rcases h with h | h
  · simp only [length_header, if_pos h, and_self]
  · simp only [h, if_true, ite_self, and_self]

theorem round_skips {w : World} (ha : Ample w.2) (h4 : 4 ≤ w.2.input.length)
    (hlong : L.tooLong (wordOf (w.2.input.take 4)) = false)
    (hpos : L.positive (wordOf (w.2.input.take 4)) = false) :
    run sysHandler (L.round ()) w = (.inl (), (w.1, w.2.afterRead 4)) ∧
      observe executed sysHandler (L.round ()) w = [] := by
  rw [FrameLoop.round, run_frameRound, executed_frameRound, ha.readBytes_eq]
  simp only [length_header, if_neg (Nat.not_lt.mpr h4), hlong, hpos, Bool.false_eq_true, if_false,
    and_self]

theorem round_executes {w : World} (ha : Ample w.2) (h4 : 4 ≤ w.2.input.length)
    (hlong : L.tooLong (wordOf (w.2.input.take 4)) = false)
    (hpos : L.positive (wordOf (w.2.input.take 4)) = true) :
    observe executed sysHandler (L.round ()) w ≠ [] := by
  rw [FrameLoop.round, executed_frameRound, ha.readBytes_eq]
  simp only [length_header, if_neg (Nat.not_lt.mpr h4), hlong, hpos, Bool.false_eq_true, if_false,
    if_true, L.executed_process]
  exact List.cons_ne_nil _ _

theorem program_leaves {w : World} (ha : Ample w.2)
    (h : w.2.input.length < 4 ∨ L.tooLong (wordOf (w.2.input.take 4)) = true) (n : ℕ) :
    observe executed sysHandler (L.program (n + 1)) w = [] ∧
      run sysHandler (L.program (n + 1)) w = (some .returned, (w.1, w.2.afterRead 4)) := by
  obtain ⟨hrun, hobs⟩ := round_leaves ha h
  rw [FrameLoop.program, run_loop_leave _ _ hrun, observe_loop_leave _ _ _ hrun]
  exact ⟨hobs, rfl⟩

theorem program_skips {w : World} (ha : Ample w.2) (h4 : 4 ≤ w.2.input.length)
    (hlong : L.tooLong (wordOf (w.2.input.take 4)) = false)
    (hpos : L.positive (wordOf (w.2.input.take 4)) = false) (n : ℕ) :
    observe executed sysHandler (L.program (n + 1)) w =
        observe executed sysHandler (L.program n) (w.1, w.2.afterRead 4) ∧
      run sysHandler (L.program (n + 1)) w =
        run sysHandler (L.program n) (w.1, w.2.afterRead 4) := by
  obtain ⟨hrun, hobs⟩ := round_skips ha h4 hlong hpos
  rw [FrameLoop.program, run_loop_next _ _ hrun, observe_loop_next _ _ _ hrun, hobs]
  exact ⟨rfl, rfl⟩

/-- A loop on such bytes returns, having executed and changed nothing. -/
theorem run_ignored {s : List UInt8} (hs : Ignored L s) {w : World} (hin : w.2.input = s)
    (ha : Ample w.2) {n : ℕ} (hn : s.length < n) :
    observe executed sysHandler (L.program n) w = [] ∧
      ∃ c, run sysHandler (L.program n) w = (some .returned, (w.1, c)) := by
  induction hs generalizing w n with
  | @short s h =>
    obtain ⟨n, rfl⟩ : ∃ m, n = m + 1 := ⟨n - 1, by omega⟩
    obtain ⟨hobs, hrun⟩ := program_leaves (L := L) ha (.inl (by rwa [hin])) n
    exact ⟨hobs, _, hrun⟩
  | @refused s h =>
    obtain ⟨n, rfl⟩ : ∃ m, n = m + 1 := ⟨n - 1, by omega⟩
    obtain ⟨hobs, hrun⟩ := program_leaves (L := L) ha (.inr (by rwa [hin])) n
    exact ⟨hobs, _, hrun⟩
  | @empty s h rest ih =>
    obtain ⟨n, rfl⟩ : ∃ m, n = m + 1 := ⟨n - 1, by omega⟩
    by_cases hstop : s.length < 4 ∨ L.tooLong (wordOf (s.take 4)) = true
    · obtain ⟨hobs, hrun⟩ := program_leaves (L := L) ha (by rwa [hin]) n
      exact ⟨hobs, _, hrun⟩
    · rw [← hin] at hstop h
      obtain ⟨h4, hlong⟩ := not_or.mp hstop
      have h4' : 4 ≤ w.2.input.length := by omega
      obtain ⟨hobs, hrun⟩ := program_skips ha h4' (by simpa using hlong) h n
      rw [hobs, hrun]
      exact ih (by rw [input_afterRead ha h4', hin]) (ha.afterRead 4)
        (by rw [List.length_drop, ← hin]; rw [← hin] at hn; omega)

/-- Those are the only bytes of which a loop executes nothing. -/
theorem ignored_of_executed_nil {n : ℕ} {w : World} (ha : Ample w.2) (hn : w.2.input.length < n)
    (hobs : observe executed sysHandler (L.program n) w = []) : Ignored L w.2.input := by
  induction n generalizing w with
  | zero => omega
  | succ n ih =>
    by_cases h4 : w.2.input.length < 4
    · exact .short h4
    have h4' : 4 ≤ w.2.input.length := by omega
    cases hlong : L.tooLong (wordOf (w.2.input.take 4)) with
    | true => exact .refused hlong
    | false =>
      cases hpos : L.positive (wordOf (w.2.input.take 4)) with
      | true =>
        rw [FrameLoop.program, loop, observe_bind, List.append_eq_nil_iff] at hobs
        exact absurd hobs.1 (round_executes ha h4' hlong hpos)
      | false =>
        rw [(program_skips ha h4' hlong hpos n).1] at hobs
        have hin := input_afterRead ha h4'
        have hlen : (w.2.afterRead 4).input.length < n := by
          rw [hin, List.length_drop]
          omega
        have hrest := ih (w := (w.1, w.2.afterRead 4)) (ha.afterRead 4) hlen hobs
        exact .empty hpos (by rwa [← hin])

end Rest

/-! ### Complete messages and the cut one -/

/-- Complete messages and the first `kept` bytes of one more, after which the peer closes. -/
structure CutStream where
  frames : List (List UInt8)
  last : List UInt8
  kept : ℕ
  frames_lt : ∀ f ∈ frames, f.length < 2 ^ 32
  last_lt : last.length < 2 ^ 32
  kept_pos : 0 < kept
  kept_lt : kept < (message last).length

namespace CutStream

def bytes (c : CutStream) : List UInt8 := stream c.frames ++ (message c.last).take c.kept

/-- The messages before the first one over the limit of the loop, at which it hangs up. -/
def admitted (L : FrameLoop) (c : CutStream) : List (List UInt8) :=
  c.frames.takeWhile fun f => f.length ≤ L.limit

/-- The bytes after those messages. -/
def left (L : FrameLoop) (c : CutStream) : List UInt8 :=
  stream (c.frames.dropWhile fun f => f.length ≤ L.limit) ++ (message c.last).take c.kept

/-- The frames that are due: the admitted ones, up to one that ends the process. -/
def due (L : FrameLoop) (c : CutStream) : List (List UInt8) :=
  upToStop L.stops (bodies (c.admitted L))

def Stopped (L : FrameLoop) (c : CutStream) : Prop := ∃ f ∈ bodies (c.admitted L), L.stops f = true

instance (L : FrameLoop) (c : CutStream) : Decidable (c.Stopped L) :=
  inferInstanceAs (Decidable (∃ f ∈ _, _))

theorem bytes_eq (L : FrameLoop) (c : CutStream) : c.bytes = stream (c.admitted L) ++ c.left L := by
  rw [left, ← List.append_assoc, ← stream_append, admitted, List.takeWhile_append_dropWhile, bytes]

theorem length_bytes (L : FrameLoop) (c : CutStream) :
    c.bytes.length = (stream (c.admitted L)).length + (c.left L).length := by
  rw [c.bytes_eq L, List.length_append]

theorem admitted_le {L : FrameLoop} {c : CutStream} : ∀ f ∈ c.admitted L, f.length ≤ L.limit :=
  fun _ hf => by simpa using List.mem_takeWhile_imp hf

end CutStream

/-- What is promised of a run on a cut stream: exactly the due frames are executed, the shared
state is the one they lead to, and the process goes on unless one of them ends it. A reply that
meets a broken pipe is the end of the process. -/
structure Survived (L : FrameLoop) (broken : ℕ → Bool) (c : CutStream) (n : ℕ) (w : World) :
    Prop where
  executed_eq : (callsUntil sysHandler (brokenPipe broken) (L.program n) w).filterMap executed =
    c.due L
  shared_eq : (runUntil sysHandler (brokenPipe broken) (L.program n) w).2.1 =
    (L.serveFrames (c.due L) w).1
  leaves : (runUntil sysHandler (brokenPipe broken) (L.program n) w).1 =
    some (some (if c.Stopped L then .exited else .returned))

/-- None of the replies to these frames meets a broken pipe. -/
def Received (broken : ℕ → Bool) (answered : List UInt8 → Bool) (frames : List (List UInt8))
    (w : World) : Prop := ∀ k < frames.countP answered, broken (w.2.output.length + k) = false

instance (broken : ℕ → Bool) (answered : List UInt8 → Bool) (frames : List (List UInt8))
    (w : World) : Decidable (Received broken answered frames w) :=
  inferInstanceAs (Decidable (∀ k < _, _))

/-- The same of a run whose replies all get through. -/
structure Answered (L : FrameLoop) (c : CutStream) (n : ℕ) (w : World) : Prop where
  executed_eq : observe executed sysHandler (L.program n) w = c.due L
  shared_eq : (run sysHandler (L.program n) w).2.1 = (L.serveFrames (c.due L) w).1
  leaves : (run sysHandler (L.program n) w).1 =
    some (if c.Stopped L then .exited else .returned)

section Answered
variable {L : FrameLoop} {c : CutStream} {w : World}

theorem wholeReads_admitted (hin : w.2.input = c.bytes) (ha : Ample w.2) :
    WholeReads w.2.cut (c.admitted L) := by
  have hb := c.length_bytes L
  have hcut : ∀ k, c.bytes.length ≤ w.2.cut k := by
    rw [← hin]
    exact ha
  exact wholeReads_of_ample fun k => (show _ ≤ c.bytes.length by omega).trans (hcut k)

theorem withSocket_admitted (L : FrameLoop) (hin : w.2.input = c.bytes) :
    withSocket (stream (c.admitted L) ++ c.left L) w.2.cut w = w := by
  rw [← c.bytes_eq L, ← hin]
  rfl

/-- The process is gone before the cut message is looked at. -/
theorem answered_of_stopped (hin : w.2.input = c.bytes) (ha : Ample w.2) (hstop : c.Stopped L)
    (m : ℕ) : Answered L c ((c.admitted L).length + m) w := by
  obtain ⟨tail, cut, hrun, hobs⟩ := FrameLoop.run_frames_stop (w := w)
    (wholeReads_admitted hin ha) c.admitted_le hstop (c.left L) m
  rw [withSocket_admitted L hin] at hrun hobs
  exact ⟨hobs, by rw [hrun]; rfl, by rw [hrun, if_pos hstop]⟩

theorem answered_iff_of_not_stopped (hin : w.2.input = c.bytes) (ha : Ample w.2)
    (hstop : ¬ c.Stopped L) {m : ℕ} (hm : (c.left L).length < m) :
    Answered L c ((c.admitted L).length + m) w ↔ Ignored L (c.left L) := by
  have hb := c.length_bytes L
  have hno : ∀ f ∈ bodies (c.admitted L), L.stops f = false := by
    intro f hf
    cases hs : L.stops f with
    | false => rfl
    | true => exact absurd ⟨f, hf, hs⟩ hstop
  have hdue : c.due L = bodies (c.admitted L) := upToStop_eq_self hno
  obtain ⟨hrun, hobs⟩ := FrameLoop.run_frames (w := w)
    (wholeReads_admitted hin ha) c.admitted_le hno (c.left L) m
  rw [withSocket_admitted L hin] at hrun hobs
  have hcut : ∀ k, c.bytes.length ≤ w.2.cut k := by
    rw [← hin]
    exact ha
  have hrest : Ample (withSocket (c.left L) (restCut w.2.cut (c.admitted L))
      (L.serveFrames (bodies (c.admitted L)) w)).2 := fun k =>
    (show (c.left L).length ≤ c.bytes.length by omega).trans (restCut_ample hcut (c.admitted L) k)
  constructor
  · intro h
    refine ignored_of_executed_nil hrest hm ?_
    have he := h.executed_eq
    rwa [hdue, hobs, List.append_right_eq_self] at he
  · intro h
    obtain ⟨hobs', conn, hrun'⟩ := run_ignored h rfl hrest hm
    refine ⟨?_, ?_, ?_⟩
    · rw [hobs, hobs', List.append_nil, hdue]
    · rw [hrun, hrun', hdue]
      rfl
    · rw [hrun, hrun', if_neg hstop]

/-- The cut message does no harm exactly when the process ends before it, or when the loop
ignores all that comes after the admitted messages. -/
theorem answered_iff_ignored (L : FrameLoop) (c : CutStream) {w : World}
    (hin : w.2.input = c.bytes) (ha : Ample w.2) {n : ℕ} (hn : c.bytes.length < n) :
    Answered L c n w ↔ c.Stopped L ∨ Ignored L (c.left L) := by
  have hlen := length_le_stream (c.admitted L)
  have hb := c.length_bytes L
  obtain ⟨m, rfl⟩ : ∃ m, n = (c.admitted L).length + m :=
    ⟨n - (c.admitted L).length, by omega⟩
  by_cases hstop : c.Stopped L
  · exact iff_of_true (answered_of_stopped hin ha hstop m) (.inl hstop)
  · rw [answered_iff_of_not_stopped hin ha hstop (by omega), or_iff_right hstop]

end Answered

section Survived
variable {L : FrameLoop} {answered : List UInt8 → Bool} {broken : ℕ → Bool} {c : CutStream}
  {w : World} {n : ℕ}

/-- A run that has come to its end has met no broken pipe, so it is the whole run. -/
theorem survived_iff_unbroken : Survived L broken c n w ↔ Answered L c n w ∧
    AllCalls sysHandler (fun e => brokenPipe broken e = false) (L.program n) w := by
  constructor
  · intro h
    have hsafe := allCalls_of_runUntil sysHandler _ h.leaves
    obtain ⟨hrun, hcalls⟩ := runUntil_eq sysHandler _ hsafe
    obtain ⟨hexecuted, hshared, hleaves⟩ := h
    rw [hrun] at hshared hleaves
    rw [hcalls] at hexecuted
    exact ⟨⟨hexecuted, hshared, Option.some.inj hleaves⟩, hsafe⟩
  · rintro ⟨h, hsafe⟩
    obtain ⟨hrun, hcalls⟩ := runUntil_eq sysHandler _ hsafe
    refine ⟨?_, ?_, ?_⟩
    · rw [hcalls]
      exact h.executed_eq
    · rw [hrun]
      exact h.shared_eq
    · rw [hrun, h.leaves]

/-- Then the due frames are what is replied to. -/
theorem survived_iff_answered (hL : Replies L answered) :
    Survived L broken c n w ↔ Answered L c n w ∧ Received broken answered (c.due L) w := by
  rw [survived_iff_unbroken]
  refine and_congr_right fun h => ?_
  rw [unbroken_iff, length_written hL, h.executed_eq, Received]

end Survived

/-! ### Which bytes after the admitted messages are ignored -/

section Left
variable {L : FrameLoop}

theorem tooLong_header {f : List UInt8} (hf : f.length < L.lengths) {s : List UInt8}
    (hs : s.take 4 = wordBytes (UInt32.ofNat f.length)) :
    L.tooLong (wordOf (s.take 4)) = decide (L.limit < f.length) := by
  rw [hs, wordOf_wordBytes, L.tooLong_eq _ hf]

theorem not_ignored_of_admitted {f : List UInt8} (hf : f.length ≤ L.limit) (hne : 0 < f.length)
    {s : List UInt8} (h4 : 4 ≤ s.length) (hs : s.take 4 = wordBytes (UInt32.ofNat f.length)) :
    ¬ Ignored L s := by
  have hlt := L.limit_lt
  intro h
  cases h with
  | short h => omega
  | refused h =>
    rw [tooLong_header (by omega) hs] at h
    exact absurd (of_decide_eq_true h) (by omega)
  | empty h _ =>
    rw [hs, wordOf_wordBytes, L.positive_eq _ hf] at h
    exact absurd hne (of_decide_eq_false h)

theorem take_four_message (f tail : List UInt8) :
    (message f ++ tail).take 4 = wordBytes (UInt32.ofNat f.length) := by
  have h : ((wordBytes (UInt32.ofNat f.length)) ++ (f ++ tail)).take
      (wordBytes (UInt32.ofNat f.length)).length = _ := List.take_left
  rwa [length_wordBytes, ← List.append_assoc] at h

/-- Where no length field has its top bit read as a sign, the cut message is harmless when it
comes after a message over the limit, is over the limit itself, or has not even its length. -/
theorem ignored_left_iff {c : CutStream} (hf : ∀ f ∈ c.frames, f.length < L.lengths)
    (hl : c.last.length < L.lengths) :
    Ignored L (c.left L) ↔
      (∃ f ∈ c.frames, L.limit < f.length) ∨ c.kept < 4 ∨ L.limit < c.last.length := by
  cases hd : c.frames.dropWhile fun f => f.length ≤ L.limit with
  | nil =>
    have hall : ∀ f ∈ c.frames, f.length ≤ L.limit := by
      simpa [List.dropWhile_eq_nil_iff] using hd
    have hleft : c.left L = (message c.last).take c.kept := by rw [CutStream.left, hd]; rfl
    have hno : ¬ ∃ f ∈ c.frames, L.limit < f.length := fun ⟨f, hm, hlt⟩ => by
      have := hall f hm
      omega
    have hkept := c.kept_lt
    have hlen : ((message c.last).take c.kept).length = c.kept := by
      rw [List.length_take]
      omega
    rw [hleft, or_iff_right hno]
    by_cases h4 : c.kept < 4
    · exact iff_of_true (.short (by omega)) (.inl h4)
    have hs : ((message c.last).take c.kept).take 4 = wordBytes (UInt32.ofNat c.last.length) := by
      have h := take_four_message c.last []
      rwa [List.append_nil, ← Nat.min_eq_left (show 4 ≤ c.kept by omega), ← List.take_take] at h
    rw [or_iff_right h4]
    by_cases hlim : L.limit < c.last.length
    · exact iff_of_true (.refused (by rw [tooLong_header hl hs]; exact decide_eq_true hlim)) hlim
    · rw [length_message] at hkept
      exact iff_of_false (not_ignored_of_admitted (by omega) (by omega) (by omega) hs) hlim
  | cons f fs =>
    have hmem : f ∈ c.frames := (List.dropWhile_sublist _).subset (hd ▸ List.mem_cons_self)
    have hlim : L.limit < f.length := by
      have hne : c.frames.dropWhile (fun f => f.length ≤ L.limit) ≠ [] := by
        rw [hd]
        exact List.cons_ne_nil f fs
      have h := List.head_dropWhile_not _ hne
      simpa [hd] using h
    refine iff_of_true ?_ (.inl ⟨f, hmem, hlim⟩)
    rw [CutStream.left, hd, stream_cons, List.append_assoc]
    refine .refused ?_
    rw [tooLong_header (hf f hmem) (take_four_message f _)]
    exact decide_eq_true hlim

end Left

theorem serverLoop_stopped (c : CutStream) : ¬ c.Stopped serverLoop := by
  rintro ⟨f, -, h⟩
  exact absurd h Bool.false_ne_true

/-- A cut message leaves `readData` unharmed exactly when its length did not arrive whole or is
over the limit, or a message over the limit came before it, and no reply to the messages before
meets a broken pipe. The same holds of `readCommand`, which a STOP before the cut spares as well;
its lengths are `int`s, and one that is negative is taken for that of an empty message. -/
theorem cut_message_harmless_iff (c : CutStream) (broken : ℕ → Bool) {w : World}
    (hin : w.2.input = c.bytes) (ha : Ample w.2) {n : ℕ} (hn : c.bytes.length < n) :
    (Survived serverLoop broken c n w ↔
      ((∃ f ∈ c.frames, 32768 < f.length) ∨ c.kept < 4 ∨ 32768 < c.last.length) ∧
        Received broken isCommand (c.due serverLoop) w) ∧
    (Survived adminLoop broken c n w ↔
      (c.Stopped adminLoop ∨ Ignored adminLoop (c.left adminLoop)) ∧
        Received broken isStat (c.due adminLoop) w) ∧
    ((∀ f ∈ c.frames, f.length < 2 ^ 31) → c.last.length < 2 ^ 31 →
      (Survived adminLoop broken c n w ↔
        (c.Stopped adminLoop ∨ (∃ f ∈ c.frames, 1024 < f.length) ∨ c.kept < 4 ∨
          1024 < c.last.length) ∧ Received broken isStat (c.due adminLoop) w)) := by
  have hadmin := (@survived_iff_answered adminLoop isStat broken c w n adminLoop_replies).trans
    (and_congr (answered_iff_ignored adminLoop c hin ha hn) Iff.rfl)
  refine ⟨?_, hadmin, ?_⟩
  · rw [survived_iff_answered serverLoop_replies, answered_iff_ignored serverLoop c hin ha hn,
      or_iff_right (serverLoop_stopped c)]
    exact and_congr_left' (ignored_left_iff c.frames_lt c.last_lt)
  · intro hf hl
    rw [hadmin, ignored_left_iff (L := adminLoop) hf hl]
    rfl

/-- A connection that has these bytes to read, on a server with these old bytes in every block. -/
def connWorld (fp : FileStream) (old : List UInt8) (input : List UInt8) : World :=
  (⟨fp, fun _ => store (fun _ => 0) 0 old, fun _ => 0⟩,
    ⟨input, fun _ => 32768, [], fun _ => 0⟩)

/-- An INFO message, and three of the four bytes of another length. -/
def cutInLength : CutStream where
  frames := [[sawaInfo]]
  last := [sawaInfo]
  kept := 3
  frames_lt := by decide
  last_lt := by decide
  kept_pos := by decide
  kept_lt := by decide

/-- The client is there to get its reply. -/
theorem cutInLength_harmless :
    Survived serverLoop (fun _ => false) cutInLength 9
      (connWorld (getFilesystemFile none) [] cutInLength.bytes) ∧
    Survived adminLoop (fun _ => false) cutInLength 9
      (connWorld (getFilesystemFile none) [] cutInLength.bytes) := by
  have h := cut_message_harmless_iff cutInLength (fun _ => false)
    (w := connWorld (getFilesystemFile none) [] cutInLength.bytes) rfl
    (fun _ => show cutInLength.bytes.length ≤ 32768 by decide) (n := 9) (by decide)
  exact ⟨h.1.mpr ⟨.inr (.inl (by decide)), fun _ _ => rfl⟩,
    (h.2.2 (by decide) (by decide)).mpr ⟨.inr (.inr (.inl (by decide))), fun _ _ => rfl⟩⟩

/-- The length of a one-byte WRITE, of which nothing else arrives. -/
def cutWrite : CutStream where
  frames := []
  last := Request.frame (.write 0 [7])
  kept := 4
  frames_lt := by decide
  last_lt := by decide
  kept_pos := by decide
  kept_lt := by decide

/-- The length of a one-byte command. -/
def cutCommand : CutStream where
  frames := []
  last := [sawaStat]
  kept := 4
  frames_lt := by decide
  last_lt := by decide
  kept_pos := by decide
  kept_lt := by decide

/-- With an old WRITE frame in the new block its bytes are written, and with an old STOP there
the server exits. A client that is gone before its INFO is answered ends the server. -/
theorem cut_message_executed :
    ¬ Survived serverLoop (fun _ => false) cutWrite 9 (connWorld (getFilesystemFile (some [0]))
      (Request.frame (.write 0 [170])) cutWrite.bytes) ∧
    (runUntil sysHandler (brokenPipe fun _ => false) (readData 9)
      (connWorld (getFilesystemFile (some [0])) (Request.frame (.write 0 [170]))
        cutWrite.bytes)).2.1.fp.contents = [170] ∧
    ¬ Survived adminLoop (fun _ => false) cutCommand 9
      (connWorld (getFilesystemFile none) [sawaStop] cutCommand.bytes) ∧
    (runUntil sysHandler (brokenPipe fun _ => false) (readCommand 9)
      (connWorld (getFilesystemFile none) [sawaStop] cutCommand.bytes)).1 = some (some .exited) ∧
    ¬ Survived serverLoop (fun _ => true) cutInLength 9
      (connWorld (getFilesystemFile (some [0])) [] cutInLength.bytes) ∧
    (runUntil sysHandler (brokenPipe fun _ => true) (readData 9)
      (connWorld (getFilesystemFile (some [0])) [] cutInLength.bytes)).1 = none := by
  have hw : (runUntil sysHandler (brokenPipe fun _ => false) (readData 9)
      (connWorld (getFilesystemFile (some [0])) (Request.frame (.write 0 [170]))
        cutWrite.bytes)).2.1.fp.contents = [170] := by decide
  have hs : (runUntil sysHandler (brokenPipe fun _ => false) (readCommand 9)
      (connWorld (getFilesystemFile none) [sawaStop] cutCommand.bytes)).1 =
        some (some .exited) := by decide
  have hp : (runUntil sysHandler (brokenPipe fun _ => true) (readData 9)
      (connWorld (getFilesystemFile (some [0])) [] cutInLength.bytes)).1 = none := by decide
  refine ⟨fun h => ?_, hw, fun h => ?_, hs, fun h => ?_, hp⟩
  · have he := h.shared_eq
    rw [serverLoop_program] at he
    rw [he] at hw
    exact absurd hw (by decide)
  · have he := h.leaves
    rw [adminLoop_program, hs] at he
    exact absurd he (by decide)
  · have he := h.leaves
    rw [serverLoop_program, hp] at he
    cases he

end SawaCutStream
