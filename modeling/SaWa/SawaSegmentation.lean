import SaWa.SawaFrameLoop

/-! What TCP's cuts do to `SawaServer::readData`. Each `read` is made once and takes what is
there, so the requests executed are those of the stream exactly when no `read` came out short. -/
namespace SawaSegmentation

open EffectProgram RangeStore LittleEndian SawaProtocol SawaServer SawaServerRun SawaFrameLoop

/-- Every frame, once and in order, is handed to `processRequest`; the file becomes what these
frames make of it; and the function returns at the end of the stream. -/
structure Delivered (frames : List (List UInt8)) (n : ℕ) (w : World) : Prop where
  executed_eq : observe executed sysHandler (readData n) w = frames
  contents_eq : (run sysHandler (readData n) w).2.1.fp.contents =
    (after frames w).1.fp.contents
  returned : (run sysHandler (readData n) w).1 = some .returned

/-! ### Whole reads -/

/-- At the end of the stream `read` answers 0. -/
theorem round_end (L : FrameLoop) (cut : ℕ → ℕ) (w : World) :
    ∃ c, run sysHandler (L.round ()) (withSocket [] cut w) = (.inr .returned, (w.1, c)) ∧
      observe executed sysHandler (L.round ()) (withSocket [] cut w) = [] := by
  have hr : (withSocket [] cut w).2.readBytes 4 = [] := List.take_nil
  rw [FrameLoop.round, run_frameRound, executed_frameRound, hr]
  exact ⟨_, rfl, rfl⟩

theorem delivered_of_wholeReads {frames : List (List UInt8)}
    (hf : ∀ f ∈ frames, f ≠ [] ∧ f.length ≤ 32768) {w : World}
    (hin : w.2.input = stream frames) (hw : WholeReads w.2.cut frames) {n : ℕ}
    (hn : frames.length < n) : Delivered frames n w := by
  obtain ⟨m, rfl⟩ : ∃ m, n = frames.length + (m + 1) := ⟨n - frames.length - 1, by omega⟩
  have hsock : w = withSocket (stream frames ++ []) w.2.cut w := by
    rw [List.append_nil, ← hin]
    rfl
  obtain ⟨hrun, hobs⟩ := FrameLoop.run_frames (L := serverLoop) hw (fun f h => (hf f h).2)
    (fun _ _ => rfl) (w := w) [] (m + 1)
  rw [← hsock, bodies_eq_self fun f h => (hf f h).1, serverLoop_program, serverLoop_serveFrames]
    at hrun hobs
  obtain ⟨c, hend, hnone⟩ := round_end serverLoop (restCut w.2.cut frames) (after frames w)
  rw [FrameLoop.program, run_loop_leave _ _ hend] at hrun
  rw [FrameLoop.program, observe_loop_leave _ _ _ hend, hnone, List.append_nil] at hobs
  exact ⟨hobs, by rw [hrun], by rw [hrun]⟩

/-! ### A short read -/

/-- Where reads are not all whole, there is a first message of which one is short. -/
theorem exists_short_read {cut : ℕ → ℕ} {frames : List (List UInt8)}
    (h : ¬ WholeReads cut frames) :
    ∃ before f rest, frames = before ++ f :: rest ∧ WholeReads cut before ∧
      (restCut cut before 0 < 4 ∨
        4 ≤ restCut cut before 0 ∧ max 1 (restCut cut before 1) < f.length) := by
  induction frames generalizing cut with
  | nil => exact absurd trivial h
  | cons f fs ih =>
    by_cases h4 : cut 0 < 4
    · exact ⟨[], f, fs, rfl, trivial, .inl h4⟩
    by_cases hbody : f.length ≤ max 1 (cut 1)
    · have hrest : ¬ WholeReads (fun k => cut (k + FrameLoop.reads f)) fs :=
        fun hr => h ⟨by omega, hbody, hr⟩
      obtain ⟨before, g, rest, rfl, hw, hshort⟩ := ih hrest
      exact ⟨f :: before, g, rest, rfl, ⟨by omega, hbody, hw⟩, hshort⟩
    · exact ⟨[], f, fs, rfl, trivial, .inr ⟨Nat.not_lt.mp h4, Nat.not_le.mp hbody⟩⟩

/-- A length read in part ends the loop. -/
theorem executed_short_header {s : List UInt8} {cut : ℕ → ℕ} (hcut : cut 0 < 4) (w : World)
    (n : ℕ) : observe executed sysHandler (readData n) (withSocket s cut w) = [] := by
  have hshort : ((withSocket s cut w).2.readBytes 4).length < 4 := by
    show (s.take (min 4 (max 1 (cut 0)))).length < 4
    rw [List.length_take]
    omega
  cases n with
  | zero => rfl
  | succ n =>
    rw [← serverLoop_program, FrameLoop.program, loop, observe_bind, FrameLoop.round,
      run_frameRound, executed_frameRound, if_pos hshort, if_pos hshort]
    rfl

/-- A body read in part is handed on with the old bytes of its block at its end. -/
theorem executed_short_body {f tail : List UInt8} {cut : ℕ → ℕ} (h4 : 4 ≤ cut 0)
    (hbody : max 1 (cut 1) < f.length) (hlim : f.length ≤ 32768) (w : World) (n : ℕ) :
    ∃ more, observe executed sysHandler (readData (n + 1))
        (withSocket (message f ++ tail) cut w) =
      load (store (w.1.heap 0) 0 (f.take (max 1 (cut 1)))) 0 f.length :: more := by
  obtain ⟨hr, ha⟩ := FrameLoop.header_read w f tail h4
  have hc : (withSocket (message f ++ tail) cut w).2.afterRead 4 =
      (withSocket (f ++ tail) (fun k => cut (k + 1)) w).2 := congrArg Prod.snd ha
  have hread : (withSocket (f ++ tail) (fun k => cut (k + 1)) w).2.readBytes f.length =
      f.take (max 1 (cut 1)) := by
    show (f ++ tail).take (min f.length (max 1 (cut 1))) = _
    rw [Nat.min_eq_right hbody.le, List.take_append_of_le_length hbody.le]
  have hf : f.length < 2 ^ 32 := by omega
  have hlong : serverLoop.tooLong (UInt32.ofNat f.length) = false :=
    FrameLoop.tooLong_within hlim
  have hpos : serverLoop.positive (UInt32.ofNat f.length) = true :=
    FrameLoop.positive_within hlim (by omega)
  rw [← serverLoop_program, FrameLoop.program, loop, observe_bind, FrameLoop.round,
    executed_frameRound, hr, wordOf_wordBytes, length_wordBytes, hlong, hpos, hc,
    toNat_ofNat hf, hread, serverLoop.executed_process, toNat_ofNat hf]
  exact ⟨_, rfl⟩

/-- Blocks that all hold the same bytes: no call of the server writes to a block before it is
handed out. -/
def OldBytes (m : Mem) (w : World) : Prop := ∀ k, w.1.heap k = m

theorem oldBytes_after {m : Mem} {w : World} (h : OldBytes m w) (frames : List (List UInt8)) :
    OldBytes m (after frames w) := by
  refine run_preserves sysHandler (I := OldBytes m) ?_ (serve frames) h
  intro e s hs k
  cases e with
  | alloc => exact hs (k + 1)
  | _ => exact hs k

/-- A byte that differs from the one at the same place of the frame. -/
def otherBytes (f : List UInt8) : Mem := fun k => f.getD k 0 + 1

theorem load_short_ne {f : List UInt8} {k : ℕ} (hk : k < f.length) :
    load (store (otherBytes f) 0 (f.take k)) 0 f.length ≠ f := by
  intro h
  have hi : k < (load (store (otherBytes f) 0 (f.take k)) 0 f.length).length := by
    rwa [length_load]
  have hc := List.getElem_of_eq h hi
  rw [getElem_load, store_outside _ _ _ (by rw [List.length_take]; omega), Nat.zero_add,
    otherBytes, List.getD_eq_getElem _ _ hk] at hc
  exact absurd hc (by simp)

theorem not_delivered_of_short {cut : ℕ → ℕ} {frames : List (List UInt8)}
    (hf : ∀ f ∈ frames, f ≠ [] ∧ f.length ≤ 32768) (h : ¬ WholeReads cut frames) :
    ∃ w : World, w.2.input = stream frames ∧ w.2.cut = cut ∧
      ¬ Delivered frames (frames.length + 1) w := by
  obtain ⟨before, f, rest, rfl, hw, hshort⟩ := exists_short_read h
  let w : World := (⟨getFilesystemFile none, fun _ => otherBytes f, fun _ => 0⟩,
    ⟨stream (before ++ f :: rest), cut, [], fun _ => 0⟩)
  refine ⟨w, rfl, rfl, fun hd => ?_⟩
  have hb : ∀ g ∈ before, g ≠ [] ∧ g.length ≤ 32768 := fun g hg =>
    hf g (List.mem_append_left _ hg)
  have hsock : w = withSocket (stream before ++ stream (f :: rest)) cut w := by
    rw [← stream_append]
    rfl
  obtain ⟨-, hobs⟩ := FrameLoop.run_frames (L := serverLoop) hw (fun f h => (hb f h).2)
    (fun _ _ => rfl) (w := w) (stream (f :: rest)) (rest.length + 2)
  rw [← hsock, bodies_eq_self fun f h => (hb f h).1, serverLoop_program, serverLoop_program,
    serverLoop_serveFrames] at hobs
  have he := hd.executed_eq
  rw [List.length_append, List.length_cons,
    show before.length + (rest.length + 1) + 1 = before.length + (rest.length + 2) by omega,
    hobs, List.append_cancel_left_eq] at he
  rcases hshort with h0 | ⟨h0, h1⟩
  · rw [executed_short_header h0] at he
    exact absurd he.symm (List.cons_ne_nil _ _)
  · obtain ⟨more, hmore⟩ := executed_short_body h0 h1
      (hf f (by simp)).2 (after before w) (rest.length + 1)
    have hold : (after before w).1.heap 0 = otherBytes f :=
      oldBytes_after (m := otherBytes f) (fun _ => rfl) before 0
    rw [stream_cons, hmore, hold] at he
    exact load_short_ne h1 (List.cons.inj he).1

/-- Whatever the state of the server, a cut of the stream delivers the frames exactly when every
`read` it makes for a length or a body is whole. -/
theorem segmentation_delivers_iff {frames : List (List UInt8)}
    (hf : ∀ f ∈ frames, f ≠ [] ∧ f.length ≤ 32768) (cut : ℕ → ℕ) :
    (∀ (w : World) (n : ℕ), w.2.input = stream frames → w.2.cut = cut → frames.length < n →
      Delivered frames n w) ↔ WholeReads cut frames := by
  constructor
  · intro h
    by_contra hw
    obtain ⟨w, hin, hcut, hno⟩ := not_delivered_of_short hf hw
    exact hno (h w _ hin hcut (Nat.lt_succ_self _))
  · rintro hw w n hin rfl hn
    exact delivered_of_wholeReads hf hin hw hn

def infoThenRead : List (List UInt8) := [Request.frame .info, Request.frame (.read 0 1)]

/-- Reads of 4, 1, 4 and 9 bytes take these two messages whole. -/
def wholeCut : ℕ → ℕ := fun k => [4, 1, 4, 9].getD k 1

theorem wholeCut_delivers : WholeReads wholeCut infoThenRead ∧
    ∀ (w : World) (n : ℕ), w.2.input = stream infoThenRead → w.2.cut = wholeCut →
      infoThenRead.length < n → Delivered infoThenRead n w := by
  have hw : WholeReads wholeCut infoThenRead :=
    ⟨by decide, by decide, by decide, by decide, trivial⟩
  exact ⟨hw, (segmentation_delivers_iff (by decide) wholeCut).mpr hw⟩

/-- An INFO message on the way to a new server. -/
def infoWorld (cut : ℕ → ℕ) : World :=
  (⟨getFilesystemFile none, fun _ _ => 0, fun _ => 0⟩,
    ⟨stream [Request.frame .info], cut, [], fun _ => 0⟩)

theorem infoWorld_bytewise_not_delivered :
    observe executed sysHandler (readData 2) (infoWorld fun _ => 1) = [] ∧
      ¬ Delivered [Request.frame .info] 2 (infoWorld fun _ => 1) ∧
      observe executed sysHandler (readData 2) (infoWorld fun _ => 5) = [Request.frame .info] := by
  have hnone : observe executed sysHandler (readData 2) (infoWorld fun _ => 1) = [] := by decide
  refine ⟨hnone, fun h => ?_, by decide⟩
  rw [h.executed_eq] at hnone
  exact absurd hnone (by decide)

end SawaSegmentation
