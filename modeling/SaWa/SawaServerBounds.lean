import SaWa.SawaServerRun

/-! The bound check of the server. `checkValidRequest` adds two client-controlled `uint32_t`
fields, so it decides on their sum modulo 2^32: it keeps every request inside the filesystem
exactly as long as no sum wraps back below the capacity. -/
namespace SawaServerBounds

open EffectProgram RangeStore LittleEndian SawaProtocol SawaServer SawaServerRun

/-- A READ frame of at least 9 bytes or a WRITE frame of at least 5, as `readData` admits it. -/
structure TransferFrame (f : List UInt8) : Prop where
  shape : (f.head? = some sawaRead ∧ 9 ≤ f.length) ∨ (f.head? = some sawaWrite ∧ 5 ≤ f.length)
  length_le : f.length ≤ 32768

/-- The request of a transfer frame. -/
def transfer (f : List UInt8) : Request := (decode f).getD .info

theorem TransferFrame.decode_eq {f : List UInt8} (h : TransferFrame f) :
    decode f = some (transfer f) := by
  have hd : (decode f).isSome := by
    rcases h.shape with ⟨hop, hl⟩ | ⟨hop, hl⟩ <;>
      simp [decode, hop, hl, sawaInfo, sawaRead, sawaWrite]
  obtain ⟨r, hr⟩ := Option.isSome_iff_exists.mp hd
  simp [transfer, hr]

theorem TransferFrame.not_info {f : List UInt8} (h : TransferFrame f) : transfer f ≠ .info := by
  rcases h.shape with ⟨hop, hl⟩ | ⟨hop, hl⟩ <;>
    simp [transfer, decode, hop, hl, sawaInfo, sawaRead, sawaWrite]

theorem TransferFrame.length_lt {f : List UInt8} (h : TransferFrame f) : f.length < 2 ^ 32 := by
  have := h.length_le
  omega

theorem start_lt (r : Request) : r.start < 2 ^ 32 := by
  cases r with
  | info => exact Nat.two_pow_pos 32
  | read offset size => exact offset.toNat_lt
  | write offset payload => exact offset.toNat_lt

theorem TransferFrame.count_lt {f : List UInt8} (h : TransferFrame f) :
    (transfer f).count < 2 ^ 32 := by
  have hl := h.length_le
  rcases h.shape with ⟨hop, h9⟩ | ⟨hop, h5⟩
  · simpa [transfer, decode, hop, h9, sawaInfo, sawaRead, Request.count] using UInt32.toNat_lt _
  · simp [transfer, decode, hop, h5, sawaInfo, sawaRead, sawaWrite, Request.count]
    omega

/-- The request stays inside the filesystem, its end computed without wrapping. -/
def InRange (r : Request) : Prop := r.start + r.count ≤ capacity

/-- What `checkValidRequest` computes of a request. -/
def Admitted (r : Request) : Prop := (r.start + r.count) % 2 ^ 32 ≤ capacity

/-- The end of the request fits in 32 bits, or wraps to a number that is still past the end
of the filesystem. -/
def NoWrap (r : Request) : Prop :=
  r.start + r.count < 2 ^ 32 ∨ 2 ^ 32 + capacity < r.start + r.count

instance (r : Request) : Decidable (InRange r) := inferInstanceAs (Decidable (_ ≤ _))
instance (r : Request) : Decidable (Admitted r) := inferInstanceAs (Decidable (_ ≤ _))
instance (r : Request) : Decidable (NoWrap r) := inferInstanceAs (Decidable (_ ∨ _))

theorem noWrap_iff {r : Request} (hc : r.count < 2 ^ 32) :
    NoWrap r ↔ (Admitted r ↔ InRange r) := by
  have hs := start_lt r
  have hcap := capacity_eq
  unfold NoWrap Admitted InRange
  omega

/-! ### The check, request by request -/

theorem accepted_read (offset size : UInt32) :
    Accepted offset size ↔ Admitted (.read offset size) := accepted_iff offset size

theorem accepted_write (offset : UInt32) {payload : List UInt8} (h : payload.length < 2 ^ 32) :
    Accepted offset (UInt32.ofNat payload.length) ↔ Admitted (.write offset payload) := by
  rw [accepted_iff, toNat_ofNat h]
  rfl

/-- The range a stdio transfer touches: the position it starts at and the bytes it is for. -/
def touch : Call × World → Option (ℕ × ℕ)
  | (.fread size, w) => some (w.1.fp.pos, size)
  | (.fwrite bytes, w) => some (w.1.fp.pos, bytes.length)
  | _ => none

/-- The ranges of the file touched while one frame is served. -/
def touched (w : World) (f : List UInt8) : List (ℕ × ℕ) := observe touch sysHandler (receive f) w

theorem touched_readFile (offset size : UInt32) (w : World) :
    observe touch sysHandler (readFile offset size) w =
      if Accepted offset size then [(offset.toNat, size.toNat)] else [] := by
  rw [readFile, perform_bind, observe_call_none _ _ rfl, observe_checked _ fun _ _ => rfl]
  rfl

theorem touched_writeFile (addr : Mem) (offset size : UInt32) (w : World) :
    observe touch sysHandler (writeFile addr offset size) w =
      if Accepted offset size then [(offset.toNat, size.toNat)] else [] := by
  rw [writeFile, perform_bind, observe_call_none _ _ rfl, observe_checked _ fun _ _ => rfl]
  show (if Accepted offset size then [(offset.toNat, (load addr 0 size.toNat).length)] else []) = _
  rw [length_load]

theorem touched_processRequest (addr : Mem) (size : UInt32) (w : World) :
    observe touch sysHandler (processRequest addr size) w =
      if addr 0 = sawaInfo then []
      else if addr 0 = sawaRead then
        if Accepted (wordAt addr 1) (wordAt addr 5) then
          [((wordAt addr 1).toNat, (wordAt addr 5).toNat)] else []
      else if addr 0 = sawaWrite then
        if Accepted (wordAt addr 1) (size - 5) then
          [((wordAt addr 1).toNat, (size - 5).toNat)] else []
      else [] := by
  rw [processRequest, perform_bind, observe_call_none _ _ rfl]
  by_cases hi : addr 0 = sawaInfo
  · simp only [if_pos hi]
    rfl
  by_cases hr : addr 0 = sawaRead
  · simp only [if_neg hi, if_pos hr, observe_bind, touched_readFile, run_readFile]
    exact List.append_nil _
  by_cases hw : addr 0 = sawaWrite
  · simp only [if_neg hi, if_neg hr, if_pos hw, observe_bind, touched_writeFile, run_writeFile]
    exact List.append_nil _
  · simp only [if_neg hi, if_neg hr, if_neg hw]
    rfl

theorem touched_receive (f : List UInt8) (w : World) :
    touched w f = observe touch sysHandler
      (processRequest (store (w.1.heap 0) 0 f) (UInt32.ofNat f.length)) (afterAlloc w) := rfl

/-- Serving a transfer frame touches exactly the range it names, or nothing. -/
theorem touched_transfer {f : List UInt8} (hf : TransferFrame f) (w : World) :
    touched w f =
      if Admitted (transfer f) then [((transfer f).start, (transfer f).count)] else [] := by
  have hlen := hf.length_lt
  rw [touched_receive, touched_processRequest]
  rcases hf.shape with ⟨hop, h9⟩ | ⟨hop, h5⟩
  · have hr : transfer f = .read (wordOf (slice f 1 4)) (wordOf (slice f 5 4)) := by
      simp [transfer, decode, hop, h9, sawaInfo, sawaRead]
    have h0 := store_head (w.1.heap 0) hop
    rw [if_neg (by rw [h0]; decide), if_pos h0]
    simp only [wordAt_store _ (show 1 + 4 ≤ f.length by omega),
      wordAt_store _ (show 5 + 4 ≤ f.length by omega), hr, accepted_read]
    rfl
  · have hr : transfer f = .write (wordOf (slice f 1 4)) (f.drop 5) := by
      simp [transfer, decode, hop, h5, sawaInfo, sawaRead, sawaWrite]
    have h0 := store_head (w.1.heap 0) hop
    have hd : (f.drop 5).length < 2 ^ 32 := by rw [List.length_drop]; omega
    rw [if_neg (by rw [h0]; decide), if_neg (by rw [h0]; decide), if_pos h0]
    simp only [wordAt_store _ (show 1 + 4 ≤ f.length by omega), hr,
      write_size h5 hlen, accepted_write _ hd, toNat_ofNat hd]
    rfl

theorem replyTo_refused {f : List UInt8} (hf : TransferFrame f) (h : ¬ Admitted (transfer f))
    (s : Shared) : replyTo (transfer f) s = [sawaMsgNoauth] := by
  have hc := hf.count_lt
  revert h hc
  cases hr : transfer f with
  | info => exact fun _ _ => absurd hr hf.not_info
  | read offset size => exact fun h _ => if_neg (fun ha => h ((accepted_read _ _).mp ha))
  | write offset payload => exact fun h hc => if_neg (fun ha => h ((accepted_write _ hc).mp ha))

theorem contentsAfter_refused {r : Request} (hc : r.count < 2 ^ 32) (h : ¬ Admitted r)
    (l : List UInt8) : contentsAfter r l = l := by
  cases r with
  | info => rfl
  | read => rfl
  | write offset payload => exact if_neg (fun ha => h ((accepted_write _ hc).mp ha))

theorem length_contentsAfter {r : Request} (hc : r.count < 2 ^ 32) (hw : NoWrap r)
    {l : List UInt8} (hl : l.length = capacity) : (contentsAfter r l).length = capacity := by
  by_cases ha : Admitted r
  · have hin : InRange r := ((noWrap_iff hc).mp hw).mp ha
    cases r with
    | info => exact hl
    | read => exact hl
    | write offset payload =>
      rw [contentsAfter, if_pos ((accepted_write _ hc).mpr ha), length_patch_within 0 (by
        rw [hl]; exact hin), hl]
  · rw [contentsAfter_refused hc ha, hl]

/-! ### Runs -/

/-- What the bound check promises about one frame served in the world `w`: it is carried out
exactly when it is in range, it is refused otherwise, and the file keeps its length. -/
structure Guarded (w : World) (f : List UInt8) : Prop where
  carried_iff : ((transfer f).start, (transfer f).count) ∈ touched w f ↔ InRange (transfer f)
  refused : ¬ InRange (transfer f) →
    (after [f] w).2.output = w.2.output ++ [[sawaMsgNoauth]] ∧
      (after [f] w).1.fp.contents = w.1.fp.contents
  length_kept : (after [f] w).1.fp.contents.length = capacity
  touched_within : ∀ t ∈ touched w f, t.1 + t.2 ≤ capacity

theorem after_transfer {f : List UInt8} (hf : TransferFrame f) (w : World) :
    after [f] w = requestEffect (transfer f) (afterAlloc w) := by
  rw [after_cons, run_receive_decode hf.decode_eq hf.length_lt, after_nil]

/-- One frame whose sum does not wrap is guarded. -/
theorem guarded_of_noWrap {f : List UInt8} (hf : TransferFrame f) (hw : NoWrap (transfer f))
    {w : World} (hl : w.1.fp.contents.length = capacity) : Guarded w f := by
  have hc := hf.count_lt
  have hiff := (noWrap_iff hc).mp hw
  have ht := touched_transfer hf w
  have ha := after_transfer hf w
  constructor
  · rw [ht, ← hiff]
    by_cases h : Admitted (transfer f) <;> simp [h]
  · intro hout
    have hadm : ¬ Admitted (transfer f) := fun h => hout (hiff.mp h)
    rw [ha, output_requestEffect, contents_requestEffect, replyTo_refused hf hadm,
      contentsAfter_refused hc hadm]
    exact ⟨rfl, rfl⟩
  · rw [ha, contents_requestEffect]
    exact length_contentsAfter hc hw hl
  · intro t hm
    rw [ht] at hm
    by_cases h : Admitted (transfer f)
    · rw [if_pos h, List.mem_singleton] at hm
      rw [hm]
      exact hiff.mp h
    · simp [h] at hm

/-- A frame whose sum wraps is carried out although it is out of range, in every world. -/
theorem not_guarded_of_wrap {f : List UInt8} (hf : TransferFrame f) (hw : ¬ NoWrap (transfer f))
    (w : World) : ¬ Guarded w f := by
  intro hg
  have hcar := hg.carried_iff
  rw [touched_transfer hf w] at hcar
  apply hw
  rw [noWrap_iff hf.count_lt, ← hcar]
  by_cases h : Admitted (transfer f) <;> simp [h]

theorem length_after {frames : List (List UInt8)} (hf : ∀ f ∈ frames, TransferFrame f)
    (hn : ∀ f ∈ frames, NoWrap (transfer f)) {w : World}
    (hl : w.1.fp.contents.length = capacity) :
    (after frames w).1.fp.contents.length = capacity := by
  induction frames generalizing w with
  | nil => exact hl
  | cons f fs ih =>
    have hg := guarded_of_noWrap (hf f List.mem_cons_self) (hn f List.mem_cons_self) hl
    rw [← List.singleton_append, after_append]
    exact ih (fun g h => hf g (List.mem_cons_of_mem f h))
      (fun g h => hn g (List.mem_cons_of_mem f h)) hg.length_kept

theorem length_newFile : (getFilesystemFile none).contents.length = capacity := by
  have hne : List.replicate (nbSectors * 512).toNat (0 : UInt8) ≠ [] := by
    rw [ne_eq, List.replicate_eq_nil_iff]
    decide
  rw [getFilesystemFile, FileStream.fwrite, length_patch 0 _ _ hne, List.length_replicate]
  rfl

/-- Over every run of READ and WRITE frames on a new filesystem, every frame is guarded if and
only if no request of the run wraps. -/
theorem guarded_run_iff {frames : List (List UInt8)} (hf : ∀ f ∈ frames, TransferFrame f)
    {w : World} (hnew : w.1.fp = getFilesystemFile none) :
    (∀ before f rest, frames = before ++ f :: rest → Guarded (after before w) f) ↔
      ∀ f ∈ frames, NoWrap (transfer f) := by
  constructor
  · intro hg f hm
    obtain ⟨before, rest, heq⟩ := List.append_of_mem hm
    by_contra hw
    exact not_guarded_of_wrap (hf f hm) hw _ (hg before f rest heq)
  · intro hn before f rest heq
    subst heq
    have hl : (after before w).1.fp.contents.length = capacity :=
      length_after (fun g h => hf g (List.mem_append_left _ h))
        (fun g h => hn g (List.mem_append_left _ h)) (by rw [hnew]; exact length_newFile)
    have hm : f ∈ before ++ f :: rest := List.mem_append_right _ List.mem_cons_self
    exact guarded_of_noWrap (hf f hm) (hn f hm) hl

/-- A world on a new filesystem, its memory and socket empty. -/
def newWorld : World :=
  (⟨getFilesystemFile none, fun _ _ => 0, fun _ => 0⟩, ⟨[], fun _ => 0, [], fun _ => 0⟩)

/-- A WRITE of one byte at offset 2^32 - 1. -/
def wrappingWrite : List UInt8 := (Request.write 0xFFFFFFFF [7]).frame

theorem wrappingWrite_transfer : TransferFrame wrappingWrite := ⟨by decide, by decide⟩

/-- A WRITE and a READ of the last byte of the filesystem. -/
def lastByteRun : List (List UInt8) :=
  [(Request.write 1048575 [7]).frame, (Request.read 1048575 1).frame]

theorem lastByteRun_guarded :
    (∀ f ∈ lastByteRun, NoWrap (transfer f)) ∧
      ∀ before f rest, lastByteRun = before ++ f :: rest → Guarded (after before newWorld) f := by
  have hf : ∀ f ∈ lastByteRun, TransferFrame f := by
    intro f hm
    simp only [lastByteRun, List.mem_cons, List.not_mem_nil, or_false] at hm
    rcases hm with rfl | rfl <;> exact ⟨by decide, by decide⟩
  have hn : ∀ f ∈ lastByteRun, NoWrap (transfer f) := by decide
  exact ⟨hn, (guarded_run_iff hf rfl).mpr hn⟩

/-- A one-byte WRITE at offset 2^32 - 1 passes the check of a new filesystem, is answered OK
and makes the file 4 GiB long. -/
theorem wrapping_write_not_guarded :
    TransferFrame wrappingWrite ∧ ¬ Guarded (after [] newWorld) wrappingWrite ∧
      (after [wrappingWrite] newWorld).2.output = [[sawaMsgOk]] ∧
      (after [wrappingWrite] newWorld).1.fp.contents.length = 2 ^ 32 := by
  have htr : transfer wrappingWrite = .write 0xFFFFFFFF [7] := by decide
  have hacc : Accepted 0xFFFFFFFF (UInt32.ofNat [(7 : UInt8)].length) := by decide
  refine ⟨wrappingWrite_transfer, ?_, ?_, ?_⟩
  · exact not_guarded_of_wrap wrappingWrite_transfer (by decide) _
  · rw [after_transfer wrappingWrite_transfer, output_requestEffect, htr, replyTo, if_pos hacc]
    rfl
  · rw [after_transfer wrappingWrite_transfer, contents_requestEffect, htr, contentsAfter,
      if_pos hacc, length_patch 0 _ _ (by decide)]
    rw [fp_afterAlloc, newWorld, length_newFile]
    decide

end SawaServerBounds
