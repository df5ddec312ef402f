import SaWa.SawaServerBounds

/-! The server as a flat disk of bytes. The abstract disk is a memory with a number of valid
addresses; a request inside them is carried out and any other is refused. The server simulates
it on every sequence of documented frames whose end fits in 32 bits. -/
namespace SawaServerFlatDisk

open EffectProgram RangeStore LittleEndian SawaProtocol SawaServer SawaServerRun SawaServerBounds

/-! ### The abstract disk -/

inductive Reply where
  | sectors
  | data (bytes : List UInt8)
  | ok
  | noauth
  deriving DecidableEq, Repr

/-- A disk of `size` bytes. -/
structure FlatDisk (size : ℕ) where
  cells : ℕ → UInt8

namespace FlatDisk

variable {size : ℕ}

def blank : FlatDisk size := ⟨fun _ => 0⟩

def reply (d : FlatDisk size) : Request → Reply
  | .info => .sectors
  | .read offset n =>
    if offset.toNat + n.toNat ≤ size then .data (load d.cells offset.toNat n.toNat) else .noauth
  | .write offset payload =>
    if offset.toNat + payload.length ≤ size then .ok else .noauth

def next (d : FlatDisk size) : Request → FlatDisk size
  | .info | .read _ _ => d
  | .write offset payload =>
    if offset.toNat + payload.length ≤ size then ⟨store d.cells offset.toNat payload⟩ else d

def run (d : FlatDisk size) : List Request → FlatDisk size
  | [] => d
  | r :: rs => (d.next r).run rs

theorem run_append (d : FlatDisk size) (rs qs : List Request) :
    d.run (rs ++ qs) = (d.run rs).run qs := by
  induction rs generalizing d with
  | nil => rfl
  | cons r rs ih => exact ih _

end FlatDisk

/-- The byte most recently written at an address by a WRITE inside the disk, in a history given
newest first, and 0 if there is none. -/
def lastWritten (size : ℕ) : List Request → ℕ → UInt8
  | [], _ => 0
  | .write offset payload :: older, a =>
    if offset.toNat + payload.length ≤ size ∧ offset.toNat ≤ a ∧
        a < offset.toNat + payload.length then
      payload.getD (a - offset.toNat) 0
    else lastWritten size older a
  | .info :: older, a | .read _ _ :: older, a => lastWritten size older a

theorem cells_next_write {size : ℕ} (d : FlatDisk size) (offset : UInt32) (payload : List UInt8)
    (a : ℕ) :
    (d.next (.write offset payload)).cells a =
      if offset.toNat + payload.length ≤ size ∧ offset.toNat ≤ a ∧
          a < offset.toNat + payload.length then
        payload.getD (a - offset.toNat) 0
      else d.cells a := by
  rw [FlatDisk.next]
  by_cases hin : offset.toNat + payload.length ≤ size
  · simp only [if_pos hin]
    by_cases ha : offset.toNat ≤ a ∧ a < offset.toNat + payload.length
    · rw [if_pos ⟨hin, ha⟩, store_inside _ _ payload ha.1 (by omega),
        List.getD_eq_getElem _ _ (by omega)]
    · rw [if_neg (fun h => ha h.2), store_outside _ offset.toNat payload (by omega)]
  · rw [if_neg hin, if_neg (fun h => hin h.1)]

/-- The cells of a disk are what its history last wrote to them. -/
theorem cells_run_blank (size : ℕ) (history : List Request) :
    ((FlatDisk.blank : FlatDisk size).run history.reverse).cells = lastWritten size history := by
  induction history with
  | nil => rfl
  | cons r older ih =>
    rw [List.reverse_cons, FlatDisk.run_append, FlatDisk.run, FlatDisk.run]
    cases r with
    | info => exact ih
    | read => exact ih
    | write offset payload =>
      funext a
      rw [cells_next_write, ih, lastWritten]

/-! ### The simulation -/

def encodeReply : Reply → List UInt8
  | .sectors => wordBytes nbSectors
  | .data bytes => bytes
  | .ok => [sawaMsgOk]
  | .noauth => [sawaMsgNoauth]

/-- The file has the capacity of the disk and holds its cells. -/
structure Simulates (contents : List UInt8) (d : FlatDisk capacity) : Prop where
  length_eq : contents.length = capacity
  image_eq : image 0 contents = d.cells

/-- A request of documented length whose end fits in 32 bits. -/
structure Fits (r : Request) : Prop where
  end_lt : r.start + r.count < 2 ^ 32
  frame_lt : r.frame.length < 2 ^ 32

theorem Fits.accepted_read {offset size : UInt32} (h : Fits (.read offset size)) :
    Accepted offset size ↔ offset.toNat + size.toNat ≤ capacity := by
  have he : offset.toNat + size.toNat < 2 ^ 32 := h.end_lt
  rw [accepted_iff, Nat.mod_eq_of_lt he]

theorem Fits.accepted_write {offset : UInt32} {payload : List UInt8}
    (h : Fits (.write offset payload)) :
    Accepted offset (UInt32.ofNat payload.length) ↔
      offset.toNat + payload.length ≤ capacity := by
  have he : offset.toNat + payload.length < 2 ^ 32 := h.end_lt
  rw [accepted_iff, toNat_ofNat (by omega), Nat.mod_eq_of_lt he]

theorem simulates_new : Simulates (getFilesystemFile none).contents FlatDisk.blank where
  length_eq := length_newFile
  image_eq := by
    rw [getFilesystemFile, FileStream.fwrite, image_patch]
    funext a
    by_cases ha : a < (List.replicate (nbSectors * 512).toNat (0 : UInt8)).length
    · rw [store_inside _ _ _ (Nat.zero_le a) ha, List.getElem_replicate]
      rfl
    · rw [store_outside _ 0 _ (by omega)]
      rfl

/-- One request: the server replies as the disk does. -/
theorem simulates_reply {r : Request} (hr : Fits r) {s : Shared} {d : FlatDisk capacity}
    (hs : Simulates s.fp.contents d) : replyTo r s = encodeReply (d.reply r) := by
  cases r with
  | info => rfl
  | read offset size =>
    rw [replyTo, FlatDisk.reply]
    by_cases h : offset.toNat + size.toNat ≤ capacity
    · have hl : offset.toNat + size.toNat ≤ s.fp.contents.length := by rwa [hs.length_eq]
      rw [if_pos (hr.accepted_read.mpr h), if_pos h, readBuffer_within hl, slice_eq_load 0 hl,
        hs.image_eq]
      rfl
    · rw [if_neg (hr.accepted_read.not.mpr h), if_neg h]
      rfl
  | write offset payload =>
    rw [replyTo, FlatDisk.reply]
    by_cases h : offset.toNat + payload.length ≤ capacity
    · rw [if_pos (hr.accepted_write.mpr h), if_pos h]
      rfl
    · rw [if_neg (hr.accepted_write.not.mpr h), if_neg h]
      rfl

/-- One request: the file goes on simulating the disk. -/
theorem simulates_next {r : Request} (hr : Fits r) {l : List UInt8} {d : FlatDisk capacity}
    (hs : Simulates l d) : Simulates (contentsAfter r l) (d.next r) := by
  cases r with
  | info => exact hs
  | read => exact hs
  | write offset payload =>
    rw [contentsAfter, FlatDisk.next]
    by_cases h : offset.toNat + payload.length ≤ capacity
    · rw [if_pos (hr.accepted_write.mpr h), if_pos h]
      constructor
      · rw [length_patch_within 0 (by rwa [hs.length_eq]), hs.length_eq]
      · rw [image_patch, hs.image_eq]
    · rw [if_neg (hr.accepted_write.not.mpr h), if_neg h]
      exact hs

/-! ### Runs -/

def frames (rs : List Request) : List (List UInt8) := rs.map Request.frame

theorem run_receive_fits {r : Request} (hr : Fits r) (w : World) :
    run sysHandler (receive r.frame) w = ((), requestEffect r (afterAlloc w)) :=
  run_receive_decode (decode_frame r) hr.frame_lt w

/-- A run of requests keeps the file and the disk together. -/
theorem simulates_run {rs : List Request} (hr : ∀ r ∈ rs, Fits r) {w : World}
    {d : FlatDisk capacity} (hs : Simulates w.1.fp.contents d) :
    Simulates (after (frames rs) w).1.fp.contents (d.run rs) := by
  induction rs generalizing w d with
  | nil => exact hs
  | cons r rs ih =>
    rw [frames, List.map_cons, after_cons, run_receive_fits (hr r List.mem_cons_self)]
    apply ih (fun q h => hr q (List.mem_cons_of_mem r h))
    rw [contents_requestEffect, fp_afterAlloc]
    exact simulates_next (hr r List.mem_cons_self) hs

/-- The bytes a request is answered with when it is served in the world `w`. -/
def answer (r : Request) (w : World) : List UInt8 := replyTo r (afterAlloc w).1

theorem output_after_frame {r : Request} (hr : Fits r) (w : World) :
    (after [r.frame] w).2.output = w.2.output ++ [answer r w] := by
  rw [after_cons, run_receive_fits hr, after_nil, output_requestEffect]
  rfl

theorem contents_after_frame {r : Request} (hr : Fits r) (w : World) :
    (after [r.frame] w).1.fp.contents = contentsAfter r w.1.fp.contents := by
  rw [after_cons, run_receive_fits hr, after_nil, contents_requestEffect]
  rfl

/-- The answer the flat disk prescribes, with the history given newest first: the bytes most
recently written or 0, OK, or NOAUTH past the end of the disk. -/
def prescribed (history : List Request) : Request → List UInt8
  | .info => wordBytes nbSectors
  | .read offset size =>
    if offset.toNat + size.toNat ≤ capacity then
      load (lastWritten capacity history) offset.toNat size.toNat
    else [sawaMsgNoauth]
  | .write offset payload =>
    if offset.toNat + payload.length ≤ capacity then [sawaMsgOk] else [sawaMsgNoauth]

/-- One request is served as the disk prescribes between the worlds `w` and `w'`. -/
structure ServedAsDisk (history : List Request) (r : Request) (w w' : World) : Prop where
  output_eq : w'.2.output = w.2.output ++ [prescribed history r]
  contents_eq : w'.1.fp.contents = load (lastWritten capacity (r :: history)) 0 capacity
  unchanged : (∀ offset payload, r = .write offset payload → ¬ InRange r) →
    w'.1.fp.contents = w.1.fp.contents

def diskAfter (rs : List Request) : FlatDisk capacity := FlatDisk.blank.run rs

theorem cells_diskAfter (rs : List Request) :
    (diskAfter rs).cells = lastWritten capacity rs.reverse := by
  rw [← cells_run_blank, List.reverse_reverse]
  rfl

theorem encodeReply_diskAfter (rs : List Request) (r : Request) :
    encodeReply ((diskAfter rs).reply r) = prescribed rs.reverse r := by
  cases r with
  | info => rfl
  | read offset size =>
    rw [FlatDisk.reply, prescribed, cells_diskAfter]
    split <;> rfl
  | write offset payload =>
    rw [FlatDisk.reply, prescribed]
    split <;> rfl

/-- From a new filesystem, each request of a sequence is served as the flat disk prescribes. -/
theorem server_refines_flat_disk (before : List Request) (r : Request)
    (hr : ∀ q ∈ before ++ [r], Fits q) {w : World} (hnew : w.1.fp = getFilesystemFile none) :
    ServedAsDisk before.reverse r (after (frames before) w)
      (after (frames (before ++ [r])) w) := by
  have hlast : Fits r := hr r (by simp)
  have hbefore : ∀ q ∈ before, Fits q := fun q h => hr q (List.mem_append_left _ h)
  have hnew' : Simulates w.1.fp.contents FlatDisk.blank := by rw [hnew]; exact simulates_new
  have hs : Simulates _ (diskAfter before) := simulates_run hbefore hnew'
  have hs' : Simulates _ (diskAfter (before ++ [r])) := simulates_run hr hnew'
  have hsplit : after (frames (before ++ [r])) w = after [r.frame] (after (frames before) w) := by
    rw [frames, List.map_append, after_append]
    rfl
  constructor
  · have hans : answer r (after (frames before) w) = encodeReply ((diskAfter before).reply r) :=
      simulates_reply hlast hs
    rw [hsplit, output_after_frame hlast, hans, encodeReply_diskAfter]
  · have hlen := hs'.length_eq
    have himg := hs'.image_eq
    rw [← load_image 0 (after (frames (before ++ [r])) w).1.fp.contents, hlen, himg,
      cells_diskAfter, List.reverse_concat]
  · intro hno
    rw [hsplit, contents_after_frame hlast]
    cases r with
    | info => rfl
    | read => rfl
    | write offset payload =>
      exact if_neg (hlast.accepted_write.not.mpr (hno offset payload rfl))

/-- A WRITE of two bytes over the end of an earlier one, then a READ across both. -/
theorem overlapping_writes_served :
    ServedAsDisk [.write 11 [3, 4], .write 10 [1, 2]] (.read 9 5)
      (after (frames [.write 10 [1, 2], .write 11 [3, 4]]) newWorld)
      (after (frames [.write 10 [1, 2], .write 11 [3, 4], .read 9 5]) newWorld) ∧
    prescribed [.write 11 [3, 4], .write 10 [1, 2]] (.read 9 5) = [0, 1, 3, 4, 0] := by
  refine ⟨server_refines_flat_disk [.write 10 [1, 2], .write 11 [3, 4]] (.read 9 5) ?_ rfl,
    by decide⟩
  intro q hq
  simp only [List.cons_append, List.nil_append, List.mem_cons, List.not_mem_nil, or_false] at hq
  rcases hq with rfl | rfl | rfl <;> exact ⟨by decide, by decide⟩

end SawaServerFlatDisk
